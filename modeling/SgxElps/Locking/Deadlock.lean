/-
**The scheduler does not deadlock on its locks.**

There is no order on the locks that all functions follow: `schedule` takes a `seLock` before a `qLock`, the
others take them the other way round.  But a CPU that holds the `seLock` of its thread and waits for a
`qLock` waits for that of its own queue, and its thread is in no queue; so no CPU that got the thread from
a queue waits for that `seLock`, and the CPUs that hold the `qLock` of another CPU are in `loadBalance`,
which takes the queue with the larger number first.

Main definitions: `WaitsFor`, `Pc.rank`.  Main results: `no_deadlock`, `locks_protect`.
-/

import SgxElps.Locking.Invariant
import Mathlib.Data.Prod.Lex
import SgxElps.Lib.Participants

namespace Locking

open Transition

variable {n : ℕ} {E : Type} {idle : E → Bool} {s : State n E} {a b : Fin n} {e : E}

/-- CPU `a` waits for a lock that CPU `b` holds. -/
def WaitsFor (s : State n E) : Fin n → Fin n → Prop :=
  WaitFor.OnLock (fun c => (s.pc c).wants c) s.holder

/-- The last line is for the places where a CPU waits and holds nothing. -/
def Pc.rank (c : Fin n) : Pc n E → ℕ ×ₗ ℕ
  | .pick _ .lockSe | .dequeue _ _ .lockSe | .balance _ (.lockSe _ _) => toLex (0, 0)
  -- the queue of the other CPU is locked already, or one's own
  | .balance i .lockSecond => if c < i then toLex (1, c) else toLex (4, i)
  | .putDown _ (.lockQ _) => toLex (2, 0)
  | .enqueue _ .lockSe => toLex (3, 0)
  | _ => toLex (5, 0)

/-! ### Who waits and holds a lock -/

/-- A CPU that waits and holds a `seLock` is in `schedule`. -/
theorem eq_of_seLock_mem {pc : Pc n E} {lock : Lock n E} (hwants : pc.wants b = some lock)
    (hmem : Lock.seLock e ∈ pc.holds b) : ∃ queue, pc = .putDown e (.lockQ queue) := by
  cases pc with
  | enqueue x at_ | dequeue x queue at_ | pick x at_ =>
    cases at_ <;> simp [Pc.wants, Pc.holds, Inner.holds] at hwants hmem
  | putDown x at_ =>
    cases at_ with
    | lockQ queue =>
      simp only [Pc.holds, PutDown.holds, List.mem_singleton, Lock.seLock.injEq] at hmem
      exact ⟨queue, by rw [hmem]⟩
    | _ => simp [Pc.wants, Pc.holds, PutDown.holds] at hwants hmem
  | balance i at_ => cases at_ <;> simp [Pc.wants, Pc.holds, Balance.holds] at hwants hmem
  | _ => simp [Pc.holds] at hmem

/-- The places in which a CPU waits and holds a `qLock`. -/
inductive HoldsQueue (b x : Fin n) : Pc n E → Prop
  | enqueue {e : E} (h : x = b) : HoldsQueue b x (.enqueue e .lockSe)
  | dequeue {e : E} (h : x = b) : HoldsQueue b x (.dequeue e b .lockSe)
  | pick {e : E} (h : x = b) : HoldsQueue b x (.pick e .lockSe)
  | lockSecond {i : Fin n} (hi : i ≠ b) (h : x = max b i) : HoldsQueue b x (.balance i .lockSecond)
  | lockSe {i : Fin n} {e : E} {rest : List E} : HoldsQueue b x (.balance i (.lockSe e rest))

theorem Inv.holdsQueue (h : Inv idle s) {x : Fin n} {lock : Lock n E}
    (hwants : (s.pc b).wants b = some lock) (hmem : Lock.qLock x ∈ (s.pc b).holds b) :
    HoldsQueue b x (s.pc b) := by
  have hok := h.pcOk b
  unfold PcOk at hok
  generalize s.pc b = pc at *
  cases pc with
  | enqueue e at_ =>
    cases at_ <;> simp [Pc.wants, Pc.holds, Inner.holds] at hwants hmem
    exact .enqueue hmem
  | pick e at_ =>
    cases at_ <;> simp [Pc.wants, Pc.holds, Inner.holds] at hwants hmem
    exact .pick hmem
  | dequeue e queue at_ =>
    cases at_ <;> simp [Pc.wants, Pc.holds, Inner.holds] at hwants hmem
    obtain ⟨rfl, -⟩ := hok
    exact .dequeue hmem
  | putDown e at_ => cases at_ <;> simp [Pc.wants, Pc.holds, PutDown.holds] at hwants hmem
  | balance i at_ =>
    cases at_ <;> simp [Pc.wants, Pc.holds, Balance.holds] at hwants hmem
    · exact .lockSecond hok.1 hmem
    · exact .lockSe
  | test | empty => cases hwants
  | _ => simp [Pc.holds] at hmem

/-! ### The rank decreases -/

theorem HoldsQueue.rank_lt {x : Fin n} {pc : Pc n E} (h : HoldsQueue b x pc) :
    pc.rank b < toLex (5, 0) := by
  cases h with
  | lockSecond =>
    simp only [Pc.rank]
    split <;> simp [Prod.Lex.toLex_lt_toLex]
  | _ => simp [Pc.rank, Prod.Lex.toLex_lt_toLex]

theorem HoldsQueue.rank_lt_of_ne {x : Fin n} {pc : Pc n E} (h : HoldsQueue b x pc) (hne : x ≠ b) :
    pc.rank b < toLex (1, (x : ℕ)) := by
  cases h with
  | enqueue h | dequeue h | pick h => exact absurd h hne
  | @lockSecond i hi h =>
    have hlt : b < i := by
      rcases lt_or_gt_of_ne hi with hlt | hlt
      · exact absurd (h.trans (max_eq_left hlt.le)) hne
      · exact hlt
    rw [max_eq_right hlt.le] at h
    simp [Pc.rank, hlt, Prod.Lex.toLex_lt_toLex, h]
  | lockSe => simp [Pc.rank, Prod.Lex.toLex_lt_toLex]

theorem HoldsQueue.rank_lt_of_eq {x : Fin n} {pc : Pc n E} (h : HoldsQueue b x pc) :
    pc.rank b < toLex (4, (x : ℕ)) := by
  cases h with
  | enqueue | dequeue | pick | lockSe => simp [Pc.rank, Prod.Lex.toLex_lt_toLex]
  | @lockSecond i hi h =>
    rcases lt_or_gt_of_ne hi with hlt | hlt
    · rw [max_eq_left hlt.le] at h
      simpa [Pc.rank, not_lt.2 hlt.le, Prod.Lex.toLex_lt_toLex, h] using hlt
    · simp [Pc.rank, hlt, Prod.Lex.toLex_lt_toLex]

theorem Inv.not_queued {queue : Fin n} (h : Inv idle s) (hpc : s.pc b = .putDown e (.lockQ queue)) :
    Runs idle s b e ∧ ∀ x, e ∉ s.runQueue x := by
  have hok := h.pcOk b
  simp only [PcOk, hpc] at hok
  have hr : Runs idle s b e := h.runs_of_home hok.2 (by rw [hpc]; rfl)
  refine ⟨hr, fun x hx => ?_⟩
  have := (h.runsOk b e hr).pushed x hx
  rw [hpc] at this
  cases this

theorem Inv.rank_lt (h : Inv idle s) {lock lock' : Lock n E} (ha : (s.pc a).wants a = some lock)
    (hb : lock ∈ (s.pc b).holds b) (hwants : (s.pc b).wants b = some lock') :
    (s.pc b).rank b < (s.pc a).rank a := by
  have hok := h.pcOk a
  cases hpc : s.pc a with
  | enqueueTask x | lockQueue x | dequeueTask x queue =>
    rw [hpc] at ha
    cases ha
    exact (h.holdsQueue hwants hb).rank_lt
  | enqueue x at_ =>
    cases at_ <;> simp only [hpc, Pc.wants] at ha <;> cases ha
    obtain ⟨queue, hpcb⟩ := eq_of_seLock_mem hwants hb
    simp [hpcb, Pc.rank, Prod.Lex.toLex_lt_toLex]
  | dequeue x queue at_ =>
    cases at_ <;> simp only [hpc, Pc.wants] at ha <;> cases ha
    obtain ⟨queue', hpcb⟩ := eq_of_seLock_mem hwants hb
    simp only [PcOk, hpc] at hok
    -- both would run the thread
    have hr : Runs idle s a x := h.runs_of_home hok.2 (by rw [hpc]; rfl)
    rw [h.runs_inj a b x hr (h.not_queued hpcb).1, hpcb] at hpc
    cases hpc
  | pick x at_ =>
    cases at_ <;> simp only [hpc, Pc.wants] at ha <;> cases ha
    obtain ⟨queue, hpcb⟩ := eq_of_seLock_mem hwants hb
    simp only [PcOk, hpc] at hok
    obtain ⟨-, rest, hq⟩ := hok
    exact absurd (hq ▸ List.mem_cons_self) ((h.not_queued hpcb).2 a)
  | putDown x at_ =>
    cases at_ <;> simp only [hpc, Pc.wants] at ha <;> cases ha
    · obtain ⟨queue, hpcb⟩ := eq_of_seLock_mem hwants hb
      simp [hpcb, Pc.rank, Prod.Lex.toLex_lt_toLex]
    · next queue =>
      simp only [PcOk, hpc] at hok
      obtain ⟨rfl, -⟩ := hok
      -- the holder of the own queue is another CPU
      have hne : queue ≠ b := by
        rintro rfl
        simp [hpc, Pc.holds, PutDown.holds] at hb
      refine (HoldsQueue.rank_lt_of_ne (h.holdsQueue hwants hb) hne).trans ?_
      simp [Pc.rank, Prod.Lex.toLex_lt_toLex]
  | balance i at_ =>
    simp only [PcOk, hpc] at hok
    cases at_ <;> simp only [hpc, Pc.wants] at ha <;> cases ha
    · exact (h.holdsQueue hwants hb).rank_lt
    · have hq := h.holdsQueue hwants hb
      rcases lt_or_gt_of_ne hok.1 with hlt | hlt
      · rw [min_eq_right hlt.le] at hq
        simpa [Pc.rank, not_lt.2 hlt.le] using hq.rank_lt_of_eq
      · rw [min_eq_left hlt.le] at hq hb
        have hne : a ≠ b := by
          rintro rfl
          simp [hpc, Pc.holds, Balance.holds, max_eq_right hlt.le, hlt.ne] at hb
        simpa [Pc.rank, hlt] using hq.rank_lt_of_ne hne
    · next x rest =>
      obtain ⟨queue, hpcb⟩ := eq_of_seLock_mem hwants hb
      exact absurd (hok.2 x List.mem_cons_self) ((h.not_queued hpcb).2 i)
  | _ =>
    rw [hpc] at ha
    cases ha

variable [DecidableEq E]

/-- **No deadlock**: in no reachable state is there a set of CPUs each of which waits for a lock that a
member of the set holds. -/
theorem no_deadlock {evs : List (Event n E)} (hrun : run (step idle) init evs = some s)
    (S : Set (Fin n)) : ¬ WaitFor.Deadlocked (WaitsFor s) S := by
  have h := inv_run hrun
  refine h.agrees.not_deadlocked_of_holds (fun c => (s.pc c).rank c) ?_
  intro a b lock lock' ha hb hwants
  exact h.rank_lt ha hb hwants

/-- CPU 1 runs thread 0 and has thread 1 in its queue.  CPU 0 has locked that queue to pull thread 1 when
CPU 1 enters `schedule` and has to put thread 0 there. -/
def balancedInSchedule : List (Event 2 (Fin 4)) :=
  [.enqueueTask 1 0, .lock 1, .lock 1, .run 1 true, .unlock 1, .unlock 1,
    .enqueueTask 1 1, .lock 1, .lock 1, .run 1 true, .unlock 1, .unlock 1,
    .schedule 1, .lock 1, .run 1 true, .lock 1, .run 1 true, .unlock 1, .unlock 1,
    .schedule 0, .lock 0, .run 0 true, .unlock 0, .run 0 true, .run 0 true, .lock 0,
    .schedule 1, .lock 1, .run 1 true, .lock 1]

theorem no_deadlock_balancedInSchedule :
    ∃ s, run (step fun e => decide (2 ≤ e)) init balancedInSchedule = some s ∧
      WaitsFor s 1 0 ∧ ¬ WaitFor.Deadlocked (WaitsFor s) Set.univ := by
  obtain ⟨s, hrun, hwants, hholder⟩ :
      ∃ s, run (step fun e => decide (2 ≤ e)) init balancedInSchedule = some s ∧
        (s.pc 1).wants 1 = some (.qLock 1) ∧ s.holder (.qLock 1) = some 0 :=
    ⟨_, rfl, rfl, rfl⟩
  exact ⟨s, hrun, ⟨.qLock 1, hwants, hholder⟩, no_deadlock hrun Set.univ⟩

/-- **The locks protect the run queues**, although they are taken one by one and in different orders: the
entities are where their fields say, no two CPUs run the same one or are in a section of the same lock,
and a CPU that has returned from the scheduler holds none. -/
theorem locks_protect {evs : List (Event n E)} (hrun : run (step idle) init evs = some s) :
    (∀ c, (s.runQueue c).Nodup) ∧
      (∀ c, ∀ e ∈ s.runQueue c, (s.entity e).onQueue = true ∧ (s.entity e).queue = some c ∧
        ∀ d, Runs idle s d e → (s.pc d).pushed = true) ∧
      (∀ c d e, Runs idle s c e → Runs idle s d e → c = d) ∧
      (∀ c d lock, lock ∈ (s.pc c).holds c → lock ∈ (s.pc d).holds d → c = d) ∧
      ∀ c lock, s.pc c = .user → s.holder lock ≠ some c := by
  have h := inv_run hrun
  refine ⟨?_, fun c e he => ?_, h.runs_inj, fun c d lock => h.agrees.unique, fun c lock hpc hc => ?_⟩
  · obtain ⟨place, hplaced, -⟩ := h.queues
    exact hplaced.nodup
  · obtain ⟨hon, hqueue⟩ := h.queues.queued he
    exact ⟨hon, hqueue, fun d hd => (h.runsOk d e hd).pushed c he⟩
  · have hmem : lock ∈ (s.pc c).holds c := (h.agrees lock c).1 hc
    rw [hpc] at hmem
    exact List.not_mem_nil hmem

theorem locks_protect_balancedInSchedule :
    ∃ s, run (step fun e => decide (2 ≤ e)) init balancedInSchedule = some s ∧
      s.runQueue 1 = [1] ∧ (s.entity 1).queue = some 1 := by
  obtain ⟨s, hrun, hqueue⟩ :
      ∃ s, run (step fun e => decide (2 ≤ e)) init balancedInSchedule = some s ∧
        s.runQueue 1 = [1] :=
    ⟨_, rfl, rfl⟩
  exact ⟨s, hrun, hqueue, ((locks_protect hrun).2.1 1 1 (by simp [hqueue])).2.1⟩

end Locking

/-
**What the hand-off of contexts guarantees.**

No context is used twice, too early or too late: a CPU jumps to the context that was saved when the
thread was left last, to no context a second time, and never while the thread runs.  The `transfer_data`
is read before the thread on whose stack it lies can be resumed.

Main definition: `Safe`.  Main result: `safe_handoff`.
-/

import SgxElps.Switch.Invariant
import SgxElps.Lib.Participants

namespace Switch

open Transition

variable {Cpu T W : Type} {s s' : State Cpu T W} {phase : T → Phase Cpu} {c d : Cpu} {t p : T}
  {prev : Option T}

/-! ### Safety -/

/-- What the hand-off is for. -/
structure Safe (s : State Cpu T W) : Prop where
  /-- A context that a CPU has read is the last one of its thread, and was not jumped to before. -/
  context_last : ∀ c prev t context,
    s.pc c = .loaded prev t context ∨ s.pc c = .cleared prev t context →
      context = some (s.last (.thread t)) ∧ s.last (.thread t) ∉ s.jumped
  /-- No context was jumped to twice. -/
  once : s.jumped.Nodup
  /-- A context is taken by one CPU only, while its thread runs nowhere. -/
  taken : ∀ c t, (s.pc c).takes = some t →
    (∀ d, s.stack d ≠ .thread t) ∧ ∀ d, (s.pc d).takes = some t → d = c
  /-- The `transfer_data` that a CPU has yet to read is there, nothing runs on its stack, and its thread
  may not be resumed. -/
  data : ∀ c entry fctx data,
    s.pc c = .resumed entry fctx data ∨ (∃ prev, s.pc c = .prevRead entry fctx data prev) →
      (s.transfer data).isSome ∧ (∀ d, s.stack d ≠ data) ∧
        ∀ t, data = .thread t → s.contextGood t = false ∧ ∀ d, (s.pc d).takes ≠ some t
  /-- A thread runs on at most one CPU. -/
  running : ∀ c d t, s.stack c = .thread t → s.stack d = .thread t → c = d
  fault : s.fault = false

theorem Inv.leaving_of_data (h : Inv phase s) {data : Stack Cpu T} {r : TransferData T}
    (hdata : data = stackOf c r.prev) (hleft : (s.pc c).left = r.prev)
    (hstack : s.stack c = .thread r.cur) :
    (∀ d, s.stack d ≠ data) ∧
      ∀ t, data = .thread t → s.contextGood t = false ∧ ∀ d, (s.pc d).takes ≠ some t := by
  cases hr : r.prev with
  | none =>
    rw [hr, stackOf] at hdata
    subst hdata
    refine ⟨fun d hd => ?_, fun t ht => ?_⟩
    · obtain rfl := h.boot d c hd
      rw [hstack] at hd
      cases hd
    · cases ht
  | some p =>
    rw [hr] at hleft
    rw [hr, stackOf] at hdata
    subst hdata
    have hp := (h.left_iff c p).1 hleft
    refine ⟨(h.held (.inr hleft)).1, ?_⟩
    rintro t ⟨⟩
    refine ⟨Bool.eq_false_iff.2 fun hgood => ?_, fun d hd => ?_⟩
    · rw [h.good_iff, hp] at hgood
      cases hgood
    · rw [h.takes_iff, hp] at hd
      cases hd

theorem Inv.safe (h : Inv phase s) : Safe s where
  context_last c prev t context hpc := by
    have ht : phase t = .taken c := by
      rw [← h.takes_iff]
      rcases hpc with hpc | hpc <;> rw [hpc] <;> rfl
    refine ⟨?_, h.last_notMem t (by simp [ht])⟩
    have hok := h.pcOk c
    rcases hpc with hpc | hpc
    · simp only [PcOk, hpc] at hok
      exact hok.2.2.1
    · simp only [PcOk, hpc] at hok
      exact hok.2.2.1
  once := h.jumped_nodup
  taken c t ht := ⟨(h.held (.inl ht)).1, fun d hd => (h.held (.inl ht)).2 d (.inl hd)⟩
  data c entry fctx data hpc := by
    have hok := h.pcOk c
    rcases hpc with hpc | ⟨prev, hpc⟩
    · simp only [PcOk, hpc] at hok
      obtain ⟨prev, cur, hdata, htransfer, -, hstack, -⟩ := hok
      refine ⟨by rw [htransfer]; rfl, h.leaving_of_data (r := ⟨prev, cur⟩) hdata ?_ hstack⟩
      rw [hpc, hdata]
      cases prev <;> rfl
    · simp only [PcOk, hpc] at hok
      obtain ⟨cur, hdata, htransfer, -, hstack, -⟩ := hok
      refine ⟨by rw [htransfer]; rfl, h.leaving_of_data (r := ⟨prev, cur⟩) hdata ?_ hstack⟩
      rw [hpc]
      rfl
  running c d t hc hd := h.eq_of_stack (hc.trans hd.symm)
  fault := h.fault

variable [DecidableEq Cpu] [DecidableEq T]

/-- **The hand-off of contexts is safe**, on any number of CPUs and in every interleaving. -/
theorem safe_handoff {fsBase : T → W} {fsReg : Cpu → W} {evs : List (Event Cpu T W)}
    (hrun : run step (init fsBase fsReg) evs = some s) : Safe s := by
  obtain ⟨phase, h⟩ := inv_run hrun
  exact h.safe

/-- CPU 1 picks thread 0 and spins while CPU 0 is still switching from thread 0 to thread 1; when CPU 0 has
published the context, CPU 1 takes it. -/
def pickedEarly : List (Event (Fin 2) (Fin 2) Unit) :=
  [.putDown 0, .pick 0 0, .exchange 0, .prepare 0, .load 0, .clear 0, .jump 0, .readPrev 0, .readCur 0,
    .save 0, .publish 0,
    .putDown 0, .pick 0 1, .putDown 1, .pick 1 0, .exchange 1, .exchange 0, .prepare 0, .load 0,
    .clear 0, .jump 0, .readPrev 0, .exchange 1, .readCur 0, .save 0, .publish 0,
    .exchange 1, .prepare 1, .load 1]

theorem safe_handoff_pickedEarly :
    ∃ s, run step (init (fun _ => ()) fun _ => ()) pickedEarly = some s ∧
      s.pc 1 = .loaded none 0 (some ⟨.thread 0, 1⟩) ∧ s.stack 0 = .thread 1 ∧ Safe s := by
  obtain ⟨s, hrun, hpc, hstack⟩ :
      ∃ s, run step (init (fun _ => ()) fun _ => ()) pickedEarly = some s ∧
        s.pc 1 = .loaded none 0 (some ⟨.thread 0, 1⟩) ∧ s.stack 0 = .thread 1 :=
    ⟨_, rfl, rfl, rfl⟩
  exact ⟨s, hrun, hpc, hstack, safe_handoff hrun⟩

end Switch

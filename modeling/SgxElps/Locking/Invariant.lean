/-
**What holds of the scheduler between its locks.**

The locks that a CPU holds can be read off from where it is in the code.  The data that the locks protect
obeys an invariant at every place, also in the middle of a function: a thread that a CPU runs has that
CPU's queue as its home queue and is in no queue, except between `push_back` and `running = false` in
`schedule`, when its `seLock` is held; the elements that an iterator of `loadBalance` has before it are
in the queue it walks through, whose `qLock` is held.

Main definition: `Inv`.  Main results: `Inv.changeOne`, `inv_step`.
-/

import SgxElps.Locking.Basic
import SgxElps.Lib.Placed
import SgxElps.Lib.WaitFor
import Mathlib.Order.MinMax

namespace Locking

open Function (update update_of_ne update_self)

variable {n : ℕ} {E : Type}

/-! ### The locks that are held -/

def Inner.holds (queue : Fin n) (e : E) : Inner → List (Lock n E)
  | .lockSe | .unlockQ => [.qLock queue]
  | .body | .unlockSe => [.seLock e, .qLock queue]

def PutDown.holds (e : E) : PutDown n → List (Lock n E)
  | .lockSe => []
  | .test | .lockQ _ | .stop | .unlockSe => [.seLock e]
  | .push queue | .unlockQ queue => [.qLock queue, .seLock e]

def Balance.holds (c i : Fin n) : Balance E → List (Lock n E)
  | .lockFirst => []
  | .lockSecond | .unlockFirst _ => [.qLock (max c i)]
  | .begin | .scan _ | .lockSe _ _ | .unlockSecond _ => [.qLock (min c i), .qLock (max c i)]
  | .test e _ | .unlockSe e _ => [.seLock e, .qLock (min c i), .qLock (max c i)]

def Pc.holds (c : Fin n) : Pc n E → List (Lock n E)
  | .enqueue e at_ | .pick e at_ => at_.holds c e
  | .dequeue e queue at_ => at_.holds queue e
  | .putDown e at_ => at_.holds e
  | .test _ | .empty _ => [.qLock c]
  | .balance i at_ => at_.holds c i
  | _ => []

/-- The round of `loadBalance` is about the queue of another CPU. -/
def Pc.NotOwn (c : Fin n) (pc : Pc n E) : Prop := ∀ i at_, pc = .balance i at_ → i ≠ c

theorem mem_holds_afterLock {c : Fin n} {pc : Pc n E} {lock : Lock n E} (h : pc.wants c = some lock)
    (x : Lock n E) : x ∈ pc.afterLock.holds c ↔ x = lock ∨ x ∈ pc.holds c := by
  cases pc with
  | enqueueTask | lockQueue | dequeueTask =>
    cases h
    simp [Pc.afterLock, Pc.holds, Inner.holds]
  | enqueue e at_ | pick e at_ | dequeue e queue at_ =>
    cases at_ <;> cases h
    simp [Pc.afterLock, Pc.holds, Inner.holds]
  | putDown e at_ =>
    cases at_ <;> cases h <;> simp [Pc.afterLock, Pc.holds, PutDown.holds]
  | balance i at_ =>
    cases at_ <;> cases h <;> simp [Pc.afterLock, Pc.holds, Balance.holds]
  | _ => cases h

theorem mem_holds_afterUnlock {c : Fin n} {pc : Pc n E} {lock : Lock n E}
    (h : pc.frees c = some lock) (hown : pc.NotOwn c) :
    (∀ x, x ∈ pc.holds c ↔ x = lock ∨ x ∈ pc.afterUnlock.holds c) ∧
      lock ∉ pc.afterUnlock.holds c := by
  cases pc with
  | empty again =>
    cases h
    cases again <;> simp [Pc.afterUnlock, Pc.holds]
  | enqueue e at_ | pick e at_ | dequeue e queue at_ =>
    cases at_ <;> cases h <;> simp [Pc.afterUnlock, Pc.holds, Inner.holds]
  | putDown e at_ =>
    cases at_ <;> cases h <;> simp [Pc.afterUnlock, Pc.holds, PutDown.holds]
  | balance i at_ =>
    have hne : min c i ≠ max c i := (min_lt_max.2 (hown i at_ rfl).symm).ne
    cases at_ with
    | unlockSe e rest =>
      cases h
      cases rest <;> simp [Pc.afterUnlock, Pc.holds, Balance.holds]
    | unlockSecond pulled =>
      cases h
      simp [Pc.afterUnlock, Pc.holds, Balance.holds, hne]
    | unlockFirst pulled =>
      cases h
      cases pulled <;> simp [Pc.afterUnlock, Pc.holds, Balance.holds]
    | _ => cases h
  | _ => cases h

/-! ### The invariant -/

/-- The CPU has a thread that it has picked and not stopped. -/
def Pc.active : Pc n E → Bool
  | .user | .enqueueTask _ | .enqueue _ _ | .dequeueTask _ _ | .dequeue _ _ _ => true
  | .putDown _ .unlockSe => false
  | .putDown _ _ => true
  | .pick _ .unlockSe | .pick _ .unlockQ => true
  | _ => false

/-- The thread that is put down may be in its home queue already. -/
def Pc.pushed : Pc n E → Bool
  | .putDown _ (.unlockQ _) | .putDown _ .stop => true
  | _ => false

/-- CPU `c` runs thread `e`. -/
def Runs (idle : E → Bool) (s : State n E) (c : Fin n) (e : E) : Prop :=
  (s.pc c).active = true ∧ s.current c = some e ∧ idle e = false

/-- `e` is the current thread of `c`, which is its home. -/
def Home (s : State n E) (c : Fin n) (e : E) : Prop :=
  s.current c = some e ∧ (s.entity e).onQueue = true ∧ (s.entity e).queue = some c

/-- What the iterator of `loadBalance` has before it. -/
def Balance.elems : Balance E → List E
  | .scan rest | .unlockSe _ (some rest) => rest
  | .lockSe e rest | .test e rest => e :: rest
  | _ => []

/-- What a CPU knows at a place. -/
def PcOk (idle : E → Bool) (s : State n E) (c : Fin n) : Prop :=
  match s.pc c with
  | .enqueueTask e | .enqueue e _ => idle e = false
  | .dequeueTask e queue | .dequeue e queue .lockSe | .dequeue e queue .body
  | .putDown e (.lockQ queue) | .putDown e (.push queue) => queue = c ∧ Home s c e
  | .dequeue _ queue _ => queue = c
  | .putDown e (.unlockQ queue) => queue = c ∧ s.current c = some e
  | .putDown e _ => s.current c = some e
  | .pick e .lockSe | .pick e .body => s.current c = some e ∧ ∃ rest, s.runQueue c = e :: rest
  | .pick e _ => s.current c = some e
  | .balance i at_ => i ≠ c ∧ ∀ e ∈ at_.elems, e ∈ s.runQueue i
  | _ => True

/-- An idle entity is never `onQueue`, and only an entity that is has a home queue. -/
def EntityOk (idle : E → Bool) (e : E) (se : Sched.SchedEntity (Fin n)) : Prop :=
  (idle e = true → se.onQueue = false) ∧ (se.onQueue = false → se.queue = none)

/-- The threads in the run queues are `onQueue`, and each is in its home queue only. -/
def QueuesOk (s : State n E) : Prop :=
  ∃ place : E → Option (Fin n), Placed s.runQueue place ∧
    ∀ e c, place e = some c → (s.entity e).onQueue = true ∧ (s.entity e).queue = some c

/-- What holds of a thread that a CPU runs. -/
structure RunsOk (s : State n E) (c : Fin n) (e : E) : Prop where
  running : (s.entity e).running = true
  home : (if (s.entity e).onQueue then (s.entity e).queue else (s.entity e).oldQueue) = some c
  pushed : ∀ d, e ∈ s.runQueue d → (s.pc c).pushed = true

/-- **The invariant.** -/
structure Inv (idle : E → Bool) (s : State n E) : Prop where
  agrees : WaitFor.Agrees s.holder fun c => (s.pc c).holds c
  entityOk : ∀ e, EntityOk idle e (s.entity e)
  queues : QueuesOk s
  runs_inj : ∀ c d e, Runs idle s c e → Runs idle s d e → c = d
  runsOk : ∀ c e, Runs idle s c e → RunsOk s c e
  pcOk : ∀ c, PcOk idle s c

variable {idle : E → Bool} {s s' : State n E} {c d i : Fin n} {e : E} {new : Pc n E}

theorem inv_init : Inv idle (init : State n E) where
  agrees := by simp [init, WaitFor.Agrees, Pc.holds]
  entityOk e := ⟨fun _ => rfl, fun _ => rfl⟩
  queues := ⟨fun _ => none, Placed.nil, nofun⟩
  runs_inj := by simp [init, Runs]
  runsOk := by simp [init, Runs]
  pcOk := by simp [init, PcOk]

/-! ### The run queues -/

theorem QueuesOk.queued (h : QueuesOk s) (he : e ∈ s.runQueue c) :
    (s.entity e).onQueue = true ∧ (s.entity e).queue = some c := by
  obtain ⟨place, hplaced, hplace⟩ := h
  exact hplace e c ((hplaced.mem_iff c e).1 he)

theorem QueuesOk.notMem (h : QueuesOk s) (hon : (s.entity e).onQueue = false) (a : Fin n) :
    e ∉ s.runQueue a := by
  intro ha
  rw [(h.queued ha).1] at hon
  cases hon

theorem QueuesOk.congr (h : QueuesOk s) (hrun : s'.runQueue = s.runQueue)
    (hentity : ∀ x a, x ∈ s.runQueue a →
      (s'.entity x).onQueue = (s.entity x).onQueue ∧ (s'.entity x).queue = (s.entity x).queue) :
    QueuesOk s' := by
  obtain ⟨place, hplaced, hplace⟩ := h
  refine ⟨place, hrun ▸ hplaced, fun x a hx => ?_⟩
  obtain ⟨hon, hqueue⟩ := hentity x a ((hplaced.mem_iff a x).2 hx)
  rw [hon, hqueue]
  exact hplace x a hx

section Queues

variable [DecidableEq E]

theorem QueuesOk.push (h : QueuesOk s) (hnot : ∀ a, e ∉ s.runQueue a)
    (hrun : s'.runQueue = update s.runQueue c (s.runQueue c ++ [e]))
    (hentity : ∀ x, x ≠ e → s'.entity x = s.entity x)
    (hself : (s'.entity e).onQueue = true ∧ (s'.entity e).queue = some c) : QueuesOk s' := by
  obtain ⟨place, hplaced, hplace⟩ := h
  have hnone : place e = none := by
    cases hp : place e with
    | none => rfl
    | some a => exact absurd ((hplaced.mem_iff a e).2 hp) (hnot a)
  refine ⟨update place e (some c), hrun ▸ hplaced.push hnone c, fun x a hx => ?_⟩
  by_cases hxe : x = e
  · subst hxe
    rw [update_self] at hx
    cases hx
    exact hself
  · rw [update_of_ne hxe] at hx
    rw [hentity x hxe]
    exact hplace x a hx

theorem QueuesOk.pop (h : QueuesOk s) {l : List E} (hq : s.runQueue c = e :: l)
    (hrun : s'.runQueue = update s.runQueue c l)
    (hentity : ∀ x, (s'.entity x).onQueue = (s.entity x).onQueue ∧
      (s'.entity x).queue = (s.entity x).queue) :
    QueuesOk s' ∧ ∀ a, e ∉ s'.runQueue a := by
  obtain ⟨place, hplaced, hplace⟩ := h
  have hpop := hplaced.pop hq
  rw [← hrun] at hpop
  refine ⟨⟨_, hpop, fun x a hx => ?_⟩, hpop.notMem (update_self ..)⟩
  rw [(hentity x).1, (hentity x).2]
  by_cases hxe : x = e
  · rw [hxe, update_self] at hx
    cases hx
  · rw [update_of_ne hxe] at hx
    exact hplace x a hx

theorem QueuesOk.pull (h : QueuesOk s) (hmem : e ∈ s.runQueue i) : QueuesOk (s.pull c i e) := by
  obtain ⟨place, hplaced, hplace⟩ := h
  refine ⟨_, (hplaced.erase hmem).push (update_self ..) c, fun x a hx => ?_⟩
  by_cases hxe : x = e
  · subst hxe
    rw [update_self] at hx
    cases hx
    have hon := (hplace x i ((hplaced.mem_iff i x).1 hmem)).1
    simpa [State.pull, State.setEntity] using hon
  · rw [update_of_ne hxe, update_of_ne hxe] at hx
    simpa [State.pull, State.setEntity, hxe] using hplace x a hx

end Queues

/-! ### Consequences -/

theorem Inv.idle_of_onQueue (h : Inv idle s) (hon : (s.entity e).onQueue = true) : idle e = false := by
  rw [Bool.eq_false_iff]
  intro hi
  rw [(h.entityOk e).1 hi] at hon
  cases hon

theorem Inv.runs_of_home (h : Inv idle s) (hhome : Home s c e) (hactive : (s.pc c).active = true) :
    Runs idle s c e :=
  ⟨hactive, hhome.1, h.idle_of_onQueue hhome.2.1⟩

theorem Inv.home_of_queue {queue : Fin n} (h : Inv idle s) (hactive : (s.pc c).active = true)
    (hcur : s.current c = some e) (hqueue : (s.entity e).queue = some queue) :
    queue = c ∧ Home s c e := by
  have hon : (s.entity e).onQueue = true := by
    rw [← Bool.not_eq_false]
    intro hoff
    rw [(h.entityOk e).2 hoff] at hqueue
    cases hqueue
  have hhome := (h.runsOk c e ⟨hactive, hcur, h.idle_of_onQueue hon⟩).home
  rw [if_pos hon] at hhome
  exact ⟨Option.some.inj (hqueue.symm.trans hhome), hcur, hon, hhome⟩

theorem PcOk.notOwn (h : PcOk idle s c) : (s.pc c).NotOwn c := by
  intro i at_ hpc
  simp only [PcOk, hpc] at h
  exact h.1

theorem qLock_mem_balance {at_ : Balance E} {x : E} (hx : x ∈ at_.elems) :
    Lock.qLock i ∈ (Pc.balance i at_ : Pc n E).holds c := by
  have hmem : i = min c i ∨ i = max c i := by
    rcases le_total c i with hle | hle
    · exact .inr (max_eq_right hle).symm
    · exact .inl (min_eq_right hle).symm
  cases at_ with
  | scan | lockSe | test | unlockSe => simpa [Pc.holds, Balance.holds] using hmem
  | _ => cases hx

theorem seLock_mem_of_pushed (h : PcOk idle s c) (hpushed : (s.pc c).pushed = true)
    (hcur : s.current c = some e) : Lock.seLock e ∈ (s.pc c).holds c := by
  cases hpc : s.pc c with
  | putDown x at_ =>
    have hx : s.current c = some x := by
      cases at_ <;> simp only [PcOk, hpc] at h
      all_goals first | exact h | exact h.2 | exact h.2.1
    obtain rfl : x = e := Option.some.inj (hx.symm.trans hcur)
    rw [hpc] at hpushed
    cases at_ with
    | unlockQ | stop => simp [Pc.holds, PutDown.holds]
    | _ => cases hpushed
  | _ =>
    rw [hpc] at hpushed
    cases hpushed

theorem Inv.lock_ne (h : Inv idle s) {lock : Lock n E} (hc : lock ∈ (s.pc c).holds c) (hd : d ≠ c) :
    lock ∉ (s.pc d).holds d :=
  fun hmem => hd (h.agrees.unique hmem hc)

/-! ### Steps that leave the data alone -/

/-- What a CPU knows does not change when others change neither its home nor the queues it has
locked. -/
theorem PcOk.congr (h : PcOk idle s d) (hpc : s'.pc d = s.pc d) (hcur : s'.current d = s.current d)
    (hhome : ∀ x, Home s d x → (s.pc d).active = true → (s.pc d).pushed = false → Home s' d x)
    (hqueue : ∀ a, Lock.qLock a ∈ (s.pc d).holds d → s'.runQueue a = s.runQueue a) :
    PcOk idle s' d := by
  unfold PcOk at h ⊢
  rw [hpc]
  generalize hp : s.pc d = pc at *
  cases pc with
  | enqueueTask | enqueue => exact h
  | dequeueTask e queue => exact ⟨h.1, hhome e h.2 rfl rfl⟩
  | dequeue e queue at_ =>
    cases at_ with
    | lockSe | body => exact ⟨h.1, hhome e h.2 rfl rfl⟩
    | unlockSe | unlockQ => exact h
  | putDown e at_ =>
    cases at_ with
    | lockQ queue | push queue => exact ⟨h.1, hhome e h.2 rfl rfl⟩
    | unlockQ => exact ⟨h.1, hcur.trans h.2⟩
    | lockSe | test | stop | unlockSe => exact hcur.trans h
  | pick e at_ =>
    cases at_ with
    | lockSe | body =>
      refine ⟨hcur.trans h.1, ?_⟩
      rw [hqueue d (by simp [Pc.holds, Inner.holds])]
      exact h.2
    | unlockSe | unlockQ => exact hcur.trans h
  | balance i at_ =>
    refine ⟨h.1, fun x hx => ?_⟩
    rw [hqueue i (qLock_mem_balance hx)]
    exact h.2 x hx
  | _ => trivial

theorem Runs.of_ne (hr : Runs idle s' d e) (hpc : s'.pc = update s.pc c new) (hd : d ≠ c)
    (hcur : s'.current d = s.current d) : Runs idle s d e := by
  obtain ⟨hactive, hx, hi⟩ := hr
  rw [hpc, update_of_ne hd] at hactive
  exact ⟨hactive, hcur ▸ hx, hi⟩

/-- CPU `c` goes on.  What it changes concerns the other CPUs only as far as the threads they run and the
queues they have locked go. -/
theorem Inv.change (h : Inv idle s) (hpc : s'.pc = update s.pc c new)
    (hagrees : WaitFor.Agrees s'.holder fun a => (s'.pc a).holds a)
    (hcur : ∀ a, a ≠ c → s'.current a = s.current a)
    (hentityOk : ∀ x, EntityOk idle x (s'.entity x))
    (hqueues : QueuesOk s')
    (hother : ∀ a x, a ≠ c → Runs idle s a x → RunsOk s' a x)
    (hself : ∀ x, Runs idle s' c x → RunsOk s' c x ∧ ∀ a, a ≠ c → ¬ Runs idle s a x)
    (hhome : ∀ a x, a ≠ c → Runs idle s a x → (s.pc a).pushed = false → Home s a x → Home s' a x)
    (hlocked : ∀ b, Lock.qLock b ∉ (s.pc c).holds c → s'.runQueue b = s.runQueue b)
    (hok : PcOk idle s' c) : Inv idle s' := by
  have hruns : ∀ a x, a ≠ c → Runs idle s' a x → Runs idle s a x :=
    fun a x ha hr => hr.of_ne hpc ha (hcur a ha)
  refine ⟨hagrees, hentityOk, hqueues, ?_, ?_, ?_⟩
  · intro a b x ha hb
    by_cases hac : a = c
    · subst hac
      by_cases hbc : b = a
      · exact hbc.symm
      · exact absurd (hruns b x hbc hb) ((hself x ha).2 b hbc)
    · by_cases hbc : b = c
      · subst hbc
        exact absurd (hruns a x hac ha) ((hself x hb).2 a hac)
      · exact h.runs_inj a b x (hruns a x hac ha) (hruns b x hbc hb)
  · intro a x ha
    by_cases hac : a = c
    · subst hac
      exact (hself x ha).1
    · exact hother a x hac (hruns a x hac ha)
  · intro a
    by_cases ha : a = c
    · exact ha ▸ hok
    · refine (h.pcOk a).congr (by rw [hpc, update_of_ne ha]) (hcur a ha) ?_ ?_
      · intro x hx hactive hpushed
        exact hhome a x ha (h.runs_of_home hx hactive) hpushed hx
      · intro b hb
        exact hlocked b fun hmem => h.lock_ne hmem ha hb

/-- What holds of a thread depends on its entity, the queues and its CPU only. -/
theorem RunsOk.congr (h : RunsOk s d e) (hentity : s'.entity e = s.entity e)
    (hmem : ∀ a, e ∈ s'.runQueue a → e ∈ s.runQueue a) (hpc : s'.pc d = s.pc d) : RunsOk s' d e where
  running := hentity ▸ h.running
  home := hentity ▸ h.home
  pushed a ha := hpc ▸ h.pushed a (hmem a ha)

theorem RunsOk.notMem (h : RunsOk s c e) (hpushed : (s.pc c).pushed = false) (a : Fin n) :
    e ∉ s.runQueue a := by
  intro ha
  rw [h.pushed a ha] at hpushed
  cases hpushed

/-- CPU `c` goes on and the data stays as it is. -/
theorem Inv.advance (h : Inv idle s) (hpc : s'.pc = update s.pc c new)
    (hentity : s'.entity = s.entity) (hrun : s'.runQueue = s.runQueue)
    (hcur : s'.current = s.current)
    (hagrees : WaitFor.Agrees s'.holder fun a => (s'.pc a).holds a)
    (hactive : new.active = true → (s.pc c).active = true)
    (hpushed : (s.pc c).pushed = true → new.pushed = true ∨ new.active = false)
    (hok : PcOk idle s' c) : Inv idle s' := by
  refine h.change hpc hagrees (fun a _ => by rw [hcur]) (by rw [hentity]; exact h.entityOk) ?_ ?_ ?_ ?_
    (fun b _ => by rw [hrun]) hok
  · exact h.queues.congr hrun fun x a _ => by simp [hentity]
  · intro a x ha hr
    exact (h.runsOk a x hr).congr (by rw [hentity]) (fun b => by simp [hrun])
      (by rw [hpc, update_of_ne ha])
  · intro x hr
    obtain ⟨hact, hx, hi⟩ := hr
    rw [hpc, update_self] at hact
    have hr : Runs idle s c x := ⟨hactive hact, hcur ▸ hx, hi⟩
    have hold := h.runsOk c x hr
    refine ⟨⟨hentity ▸ hold.running, hentity ▸ hold.home, fun d hd => ?_⟩,
      fun a ha hra => ha (h.runs_inj a c x hra hr)⟩
    rw [hpc, update_self]
    rcases hpushed (hold.pushed d (hrun ▸ hd)) with hnew | hnew
    · exact hnew
    · rw [hact] at hnew
      cases hnew
  · intro a x _ _ _ hx
    rw [Home, hcur, hentity]
    exact hx

/-- The locks are the same when the CPU goes on and holds what it held. -/
theorem Inv.agrees_of_eq (h : Inv idle s) (hpc : s'.pc = update s.pc c new)
    (hholder : s'.holder = s.holder) (hholds : new.holds c = (s.pc c).holds c) :
    WaitFor.Agrees s'.holder fun a => (s'.pc a).holds a := by
  rw [hholder]
  refine h.agrees.congr fun a => ?_
  by_cases ha : a = c
  · subst ha
    simp only [hpc, update_self, hholds]
  · simp only [hpc, update_of_ne ha]

/-- CPU `c` goes on and changes, besides the queues it has locked, the entity of a thread that no other
CPU runs. -/
theorem Inv.changeOne (h : Inv idle s) (hpc : s'.pc = update s.pc c new)
    (hholder : s'.holder = s.holder) (hholds : new.holds c = (s.pc c).holds c)
    (hcur : s'.current = s.current) (hnone : ∀ a, a ≠ c → ¬ Runs idle s a e)
    (hentity : ∀ x, x ≠ e → s'.entity x = s.entity x) (hentityOk : EntityOk idle e (s'.entity e))
    (hqueues : QueuesOk s') (hmem : ∀ x a, x ≠ e → x ∈ s'.runQueue a → x ∈ s.runQueue a)
    (hself : new.active = true → s.current c = some e ∧ RunsOk s' c e)
    (hlocked : ∀ b, Lock.qLock b ∉ (s.pc c).holds c → s'.runQueue b = s.runQueue b)
    (hok : PcOk idle s' c) : Inv idle s' := by
  have hne : ∀ a x, a ≠ c → Runs idle s a x → x ≠ e := by
    rintro a x ha hra rfl
    exact hnone a ha hra
  refine h.change hpc (h.agrees_of_eq hpc hholder hholds) (fun a _ => by rw [hcur]) ?_ hqueues ?_ ?_ ?_
    hlocked hok
  · intro x
    by_cases hx : x = e
    · exact hx ▸ hentityOk
    · exact (hentity x hx).symm ▸ h.entityOk x
  · intro a x ha hra
    have hx := hne a x ha hra
    exact (h.runsOk a x hra).congr (hentity x hx) (fun b => hmem x b hx) (by rw [hpc, update_of_ne ha])
  · rintro x ⟨hactive, hx, -⟩
    rw [hpc, update_self] at hactive
    obtain ⟨he, hruns⟩ := hself hactive
    rw [hcur, he] at hx
    cases hx
    exact ⟨hruns, hnone⟩
  · rintro a x ha hra - hhome
    rw [Home, hcur, hentity x (hne a x ha hra)]
    exact hhome

section Step

variable [DecidableEq E]

omit [DecidableEq E] in
theorem Inv.setPc (h : Inv idle s) (hholds : new.holds c = (s.pc c).holds c)
    (hactive : new.active = true → (s.pc c).active = true)
    (hpushed : (s.pc c).pushed = true → new.pushed = true ∨ new.active = false)
    (hok : PcOk idle (s.setPc c new) c) : Inv idle (s.setPc c new) :=
  h.advance rfl rfl rfl rfl (h.agrees_of_eq rfl rfl hholds) hactive hpushed hok

/-! ### Locks -/

omit [DecidableEq E] in
theorem PcOk.afterLock (h : PcOk idle s c) {lock : Lock n E} (hwants : (s.pc c).wants c = some lock)
    (hpc : s'.pc c = (s.pc c).afterLock) (hentity : s'.entity = s.entity)
    (hrun : s'.runQueue = s.runQueue) (hcur : s'.current = s.current) : PcOk idle s' c := by
  unfold PcOk Home at h ⊢
  rw [hpc, hentity, hrun, hcur]
  generalize s.pc c = pc at *
  cases pc with
  | enqueueTask | lockQueue | dequeueTask => exact h
  | enqueue e at_ | pick e at_ | dequeue e queue at_ =>
    cases at_ <;> cases hwants
    exact h
  | putDown e at_ => cases at_ <;> cases hwants <;> exact h
  | balance i at_ => cases at_ <;> cases hwants <;> exact h
  | _ => cases hwants

omit [DecidableEq E] in
theorem PcOk.afterUnlock (h : PcOk idle s c) {lock : Lock n E} (hfrees : (s.pc c).frees c = some lock)
    (hpc : s'.pc c = (s.pc c).afterUnlock) (hentity : s'.entity = s.entity)
    (hrun : s'.runQueue = s.runQueue) (hcur : s'.current = s.current) : PcOk idle s' c := by
  unfold PcOk Home at h ⊢
  rw [hpc, hentity, hrun, hcur]
  generalize s.pc c = pc at *
  cases pc with
  | empty again => cases again <;> trivial
  | enqueue e at_ => cases at_ <;> cases hfrees <;> first | exact h | trivial
  | pick e at_ => cases at_ <;> cases hfrees <;> first | exact h | trivial
  | dequeue e queue at_ => cases at_ <;> cases hfrees <;> first | exact h | trivial
  | putDown e at_ =>
    cases at_ with
    | unlockQ queue => exact h.2
    | unlockSe => trivial
    | _ => cases hfrees
  | balance i at_ =>
    cases at_ with
    | unlockSe e rest => cases rest <;> exact h
    | unlockSecond pulled => exact h
    | unlockFirst pulled => cases pulled <;> trivial
    | _ => cases hfrees
  | _ => cases hfrees

theorem Inv.lock (h : Inv idle s) {lock : Lock n E} (hwants : (s.pc c).wants c = some lock)
    (hfree : s.holder lock = none) :
    Inv idle { s.setPc c (s.pc c).afterLock with
      holder := update s.holder lock (some c) } := by
  have hself : (update s.pc c (s.pc c).afterLock) c = (s.pc c).afterLock :=
    update_self ..
  refine h.advance rfl rfl rfl rfl ?_ ?_ ?_ ((h.pcOk c).afterLock hwants hself rfl rfl rfl)
  · refine h.agrees.acquire hfree (fun x => ?_) fun b hb => ?_
    · simp only [State.setPc, hself]
      exact mem_holds_afterLock hwants x
    · simp only [State.setPc, update_of_ne hb]
  · generalize s.pc c = pc at *
    cases pc with
    | enqueue e at_ | pick e at_ | dequeue e queue at_ | putDown e at_ | balance i at_ =>
      cases at_ <;> cases hwants <;> exact id
    | enqueueTask | lockQueue | dequeueTask => exact id
    | _ => cases hwants
  · generalize s.pc c = pc at *
    cases pc with
    | putDown e at_ => cases at_ <;> cases hwants <;> nofun
    | _ => nofun

theorem Inv.unlock (h : Inv idle s) {lock : Lock n E} (hfrees : (s.pc c).frees c = some lock) :
    Inv idle { s.setPc c (s.pc c).afterUnlock with
      holder := update s.holder lock none } := by
  have hself : (update s.pc c (s.pc c).afterUnlock) c = (s.pc c).afterUnlock :=
    update_self ..
  have hmem := mem_holds_afterUnlock hfrees (h.pcOk c).notOwn
  refine h.advance rfl rfl rfl rfl ?_ ?_ ?_ ((h.pcOk c).afterUnlock hfrees hself rfl rfl rfl)
  · refine h.agrees.release (a := c) (fun x => ?_) ?_ fun b hb => ?_
    · simp only [State.setPc, hself]
      exact hmem.1 x
    · simp only [State.setPc, hself]
      exact hmem.2
    · simp only [State.setPc, update_of_ne hb]
  · generalize s.pc c = pc at *
    cases pc with
    | empty again => cases again <;> nofun
    | enqueue e at_ | pick e at_ | dequeue e queue at_ | putDown e at_ =>
      cases at_ <;> cases hfrees <;> exact id
    | balance i at_ =>
      cases at_ with
      | unlockSe e rest => cases rest <;> nofun
      | unlockSecond pulled => nofun
      | unlockFirst pulled => cases pulled <;> nofun
      | _ => cases hfrees
    | _ => cases hfrees
  · generalize s.pc c = pc at *
    cases pc with
    | putDown e at_ =>
      cases at_ with
      | unlockQ queue => exact fun _ => .inl rfl
      | unlockSe => nofun
      | _ => cases hfrees
    | _ => nofun

/-! ### The code under the locks -/

theorem Inv.enqueue (h : Inv idle s) (hpc : s.pc c = .enqueue e .body)
    (hon : (s.entity e).onQueue = false) :
    Inv idle ((s.enqueue c e).setPc c (.enqueue e .unlockSe)) := by
  have hi : idle e = false := by simpa only [PcOk, hpc] using h.pcOk c
  have hnot := h.queues.notMem hon
  have hentity : ∀ x, x ≠ e → (s.enqueue c e).entity x = s.entity x := by
    intro x hx
    simp [State.enqueue, State.setEntity, hx]
  -- a thread that runs, whoever runs it, is not linked and gets its old queue back
  have hruns : ∀ a x, Runs idle s a x → (s.enqueue c e).pc a = s.pc a →
      RunsOk (s.enqueue c e) a x := by
    intro a x hr hpca
    have hold := h.runsOk a x hr
    by_cases hx : x = e
    · subst hx
      have hhome := hold.home
      rw [hon] at hhome
      refine ⟨?_, ?_, fun d hd => ?_⟩
      · simpa [State.enqueue, State.setEntity] using hold.running
      · simpa [State.enqueue, State.setEntity, hold.running] using hhome
      · simp only [State.enqueue, hold.running] at hd
        exact absurd hd (hnot d)
    · refine hold.congr (hentity x hx) (fun b hb => ?_) hpca
      cases hlink : !(s.entity e).running && !(s.entity e).onQueue with
      | false => simpa [State.enqueue, hlink] using hb
      | true =>
        by_cases hbc : b = c
        · subst hbc
          simpa [State.enqueue, hlink, hx] using hb
        · simpa [State.enqueue, hlink, hbc] using hb
  refine h.change rfl (h.agrees_of_eq rfl rfl (by rw [hpc]; rfl)) (fun _ _ => rfl) ?_ ?_ ?_ ?_ ?_ ?_ ?_
  · intro x
    by_cases hx : x = e
    · subst hx
      simp [EntityOk, State.setPc, State.enqueue, State.setEntity, hi]
    · exact (hentity x hx).symm ▸ h.entityOk x
  · cases hrun : (s.entity e).running with
    | true =>
      refine h.queues.congr (by simp [State.setPc, State.enqueue, hrun]) fun x a hx => ?_
      have hne : x ≠ e := by
        rintro rfl
        exact hnot a hx
      simp [State.setPc, hentity x hne]
    | false =>
      refine h.queues.push (c := c) hnot (by simp [State.setPc, State.enqueue, hrun, hon]) hentity ?_
      simp [State.setPc, State.enqueue, State.setEntity, hrun, hon]
  · intro a x ha hr
    exact (hruns a x hr rfl).congr rfl (fun _ => id) (by simp [State.setPc, ha])
  · intro x hr
    have hr' : Runs idle s c x := ⟨by rw [hpc]; rfl, hr.2⟩
    obtain ⟨hrun, hhome, hpushed⟩ := hruns c x hr' rfl
    refine ⟨⟨hrun, hhome, fun d hd => ?_⟩, fun a ha hra => ha (h.runs_inj a c x hra hr')⟩
    have := hpushed d hd
    simp only [State.enqueue, State.setEntity, hpc] at this
    cases this
  · rintro a x ha hr hp ⟨hcur, hon', hqueue⟩
    have hne : x ≠ e := by
      rintro rfl
      rw [hon] at hon'
      cases hon'
    exact ⟨hcur, (hentity x hne).symm ▸ hon', (hentity x hne).symm ▸ hqueue⟩
  · intro b hb
    have hbc : b ≠ c := by
      rintro rfl
      exact hb (by rw [hpc]; simp [Pc.holds, Inner.holds])
    cases hlink : !(s.entity e).running && !(s.entity e).onQueue <;>
      simp [State.setPc, State.enqueue, hlink, hbc]
  · simpa only [PcOk, State.setPc, update_self] using hi

theorem Inv.dequeue {queue : Fin n} (h : Inv idle s) (hpc : s.pc c = .dequeue e queue .body) :
    Inv idle ((s.dequeue e queue).setPc c (.dequeue e queue .unlockSe)) := by
  have hok := h.pcOk c
  simp only [PcOk, hpc] at hok
  obtain ⟨rfl, hhome⟩ := hok
  have hr : Runs idle s queue e := h.runs_of_home hhome (by rw [hpc]; rfl)
  have hold := h.runsOk queue e hr
  have hnot := hold.notMem (by rw [hpc]; rfl)
  -- the thread runs, so it is in no queue and none changes
  have hrun : (s.dequeue e queue).runQueue = s.runQueue := by
    simp [State.dequeue, hold.running]
  have hentity : ∀ x, x ≠ e → (s.dequeue e queue).entity x = s.entity x := by
    intro x hx
    simp [State.dequeue, State.setEntity, hx]
  refine h.changeOne (e := e) rfl rfl (by rw [hpc]; rfl) rfl
    (fun a ha hra => ha (h.runs_inj a queue e hra hr)) hentity ?_ ?_ (fun x a _ hx => hrun ▸ hx)
    (fun _ => ⟨hhome.1, ?_, ?_, fun d hd => absurd (hrun ▸ hd) (hnot d)⟩)
    (fun b _ => congrFun hrun b) (by simp [PcOk, State.setPc])
  · simp [EntityOk, State.setPc, State.dequeue, State.setEntity]
  · refine h.queues.congr hrun fun x a hx => ?_
    have hxe : x ≠ e := by
      rintro rfl
      exact hnot a hx
    simp [State.setPc, hentity x hxe]
  · simpa [State.setPc, State.dequeue, State.setEntity] using hold.running
  · simpa [State.setPc, State.dequeue, State.setEntity] using hhome.2.2

theorem Inv.push {queue : Fin n} (h : Inv idle s) (hpc : s.pc c = .putDown e (.push queue)) :
    Inv idle ((s.push e queue).setPc c (.putDown e (.unlockQ queue))) := by
  have hok := h.pcOk c
  simp only [PcOk, hpc] at hok
  obtain ⟨rfl, hhome⟩ := hok
  have hr : Runs idle s queue e := h.runs_of_home hhome (by rw [hpc]; rfl)
  have hold := h.runsOk queue e hr
  refine h.changeOne (e := e) rfl rfl (by rw [hpc]; rfl) rfl
    (fun a ha hra => ha (h.runs_inj a queue e hra hr)) (fun _ _ => rfl) (h.entityOk e) ?_ ?_
    (fun _ => ⟨hhome.1, hold.running, hold.home, fun d _ => by simp [State.setPc, Pc.pushed]⟩) ?_ ?_
  · exact h.queues.push (hold.notMem (by rw [hpc]; rfl)) rfl (fun _ _ => rfl) hhome.2
  · intro x b hxe hb
    by_cases hbq : b = queue
    · subst hbq
      simpa [State.setPc, State.push, hxe] using hb
    · simpa [State.setPc, State.push, hbq] using hb
  · intro b hb
    have hbq : b ≠ queue := by
      rintro rfl
      exact hb (by rw [hpc]; simp [Pc.holds, PutDown.holds])
    simp [State.setPc, State.push, hbq]
  · simpa only [PcOk, State.setPc, State.push, update_self, true_and] using hhome.1

theorem Inv.stop (h : Inv idle s) (hpc : s.pc c = .putDown e .stop) :
    Inv idle ((s.stop e).setPc c (.putDown e .unlockSe)) := by
  have hcur : s.current c = some e := by simpa only [PcOk, hpc] using h.pcOk c
  have hlinks : ∀ x, ((s.stop e).entity x).onQueue = (s.entity x).onQueue ∧
      ((s.stop e).entity x).queue = (s.entity x).queue := by
    intro x
    by_cases hx : x = e
    · subst hx
      simp [State.stop, State.setEntity]
    · simp [State.stop, State.setEntity, hx]
  refine h.changeOne (e := e) rfl rfl (by rw [hpc]; rfl) rfl ?_ ?_ ?_
    (h.queues.congr rfl fun x a _ => hlinks x) (fun _ _ _ => id) nofun (fun _ _ => rfl) ?_
  · exact fun a ha hra => ha (h.runs_inj a c e hra ⟨by rw [hpc]; rfl, hcur, hra.2.2⟩)
  · intro x hx
    simp [State.setPc, State.stop, State.setEntity, hx]
  · simp only [EntityOk, State.setPc, hlinks e]
    exact h.entityOk e
  · simpa only [PcOk, State.setPc, State.stop, State.setEntity, update_self] using hcur

omit [DecidableEq E] in
theorem Inv.setCurrent (h : Inv idle s)
    (hholds : new.holds c = (s.pc c).holds c) (hnew : new.active = true → idle e = true)
    (hok : PcOk idle { s.setPc c new with current := update s.current c (some e) } c) :
    Inv idle { s.setPc c new with current := update s.current c (some e) } := by
  refine h.change rfl (h.agrees_of_eq rfl rfl hholds) (fun a ha => update_of_ne ha ..)
    h.entityOk ?_ ?_ ?_ ?_ (fun _ _ => rfl) hok
  · exact h.queues.congr rfl fun _ _ _ => ⟨rfl, rfl⟩
  · intro a x ha hra
    exact (h.runsOk a x hra).congr rfl (fun _ => id) (by simp [State.setPc, ha])
  · rintro x ⟨hact, hx, hi⟩
    simp only [State.setPc, update_self, Option.some.injEq] at hact hx
    rw [hx] at hnew
    rw [hnew hact] at hi
    cases hi
  · rintro a x ha _ _ ⟨hx, hon⟩
    exact ⟨by simpa [ha] using hx, hon⟩

theorem Inv.pick (h : Inv idle s) (hpc : s.pc c = .pick e .body) :
    Inv idle ((s.pick c e).setPc c (.pick e .unlockSe)) := by
  have hok := h.pcOk c
  simp only [PcOk, hpc] at hok
  obtain ⟨hcur, rest, hq⟩ := hok
  have hmem : e ∈ s.runQueue c := hq ▸ List.mem_cons_self
  obtain ⟨hon, hqueue⟩ := h.queues.queued hmem
  have hlinks : ∀ x, ((s.pick c e).entity x).onQueue = (s.entity x).onQueue ∧
      ((s.pick c e).entity x).queue = (s.entity x).queue := by
    intro x
    by_cases hx : x = e
    · subst hx
      simp [State.pick, State.setEntity]
    · simp [State.pick, State.setEntity, hx]
  have hrun : (s.pick c e).runQueue = update s.runQueue c rest := by simp [State.pick, hq]
  obtain ⟨hqueues, hnot⟩ : QueuesOk (s.pick c e) ∧ ∀ a, e ∉ (s.pick c e).runQueue a :=
    h.queues.pop hq hrun hlinks
  refine h.changeOne (e := e) rfl rfl (by rw [hpc]; rfl) rfl ?_ ?_ ?_
    (hqueues.congr rfl fun _ _ _ => ⟨rfl, rfl⟩) ?_
    (fun _ => ⟨hcur, ?_, ?_, fun d hd => absurd hd (hnot d)⟩) ?_ ?_
  · -- a CPU that runs the thread has just put it in its queue and still holds its lock
    intro a ha hra
    have hse := seLock_mem_of_pushed (h.pcOk a) ((h.runsOk a e hra).pushed c hmem) hra.2.1
    exact h.lock_ne (c := c) (by rw [hpc]; simp [Pc.holds, Inner.holds]) ha hse
  · intro x hx
    simp [State.setPc, State.pick, State.setEntity, hx]
  · simp only [EntityOk, State.setPc, hlinks e]
    exact h.entityOk e
  · intro x b _ hb
    by_cases hbc : b = c
    · subst hbc
      have hb : x ∈ rest := by simpa [State.setPc, hrun] using hb
      exact hq ▸ List.mem_cons_of_mem _ hb
    · simpa [State.setPc, hrun, hbc] using hb
  · simp [State.setPc, State.pick, State.setEntity]
  · simp only [State.setPc, hlinks e, hon, if_true]
    exact hqueue
  · intro b hb
    have hbc : b ≠ c := by
      rintro rfl
      exact hb (by rw [hpc]; simp [Pc.holds, Inner.holds])
    simp [State.setPc, hrun, hbc]
  · simpa only [PcOk, State.setPc, State.pick, State.setEntity, update_self] using hcur

theorem Inv.pull {rest : List E} (h : Inv idle s) (hpc : s.pc c = .balance i (.test e rest))
    (hrun : (s.entity e).running = false) :
    Inv idle ((s.pull c i e).setPc c (.balance i (.unlockSe e none))) := by
  have hok := h.pcOk c
  simp only [PcOk, hpc] at hok
  obtain ⟨hic, helems⟩ := hok
  have hmem : e ∈ s.runQueue i := helems e List.mem_cons_self
  refine h.changeOne (e := e) rfl rfl (by rw [hpc]; rfl) rfl ?_ ?_ ?_
    ((h.queues.pull hmem).congr rfl fun _ _ _ => ⟨rfl, rfl⟩) ?_ nofun ?_ ?_
  · intro a _ hra
    rw [(h.runsOk a e hra).running] at hrun
    cases hrun
  · intro x hx
    simp [State.setPc, State.pull, State.setEntity, hx]
  · have hon := (h.queues.queued hmem).1
    simp [EntityOk, State.setPc, State.pull, State.setEntity, hon, h.idle_of_onQueue hon]
  · intro x b hxe hb
    by_cases hbc : b = c
    · subst hbc
      simpa [State.setPc, State.pull, Ne.symm hic, hxe] using hb
    · by_cases hbi : b = i
      · subst hbi
        simp only [State.setPc, State.pull, update_of_ne hic, update_self] at hb
        exact List.mem_of_mem_erase hb
      · simpa [State.setPc, State.pull, hbc, hbi] using hb
  · intro b hb
    -- both queues are locked
    have hlocks : b ≠ c ∧ b ≠ i := by
      rw [hpc] at hb
      simp only [Pc.holds, Balance.holds, List.mem_cons, reduceCtorEq, Lock.qLock.injEq,
        List.not_mem_nil, or_false, false_or, not_or] at hb
      rcases le_total c i with hle | hle
      · rw [min_eq_left hle, max_eq_right hle] at hb
        exact hb
      · rw [min_eq_right hle, max_eq_left hle] at hb
        exact hb.symm
    simp [State.setPc, State.pull, hlocks.1, hlocks.2]
  · simpa [PcOk, State.setPc, Balance.elems] using hic

/-! ### Every step and every run -/

/-- **Every step keeps the invariant.** -/
theorem inv_step {ev : Event n E} (h : Inv idle s) (hs : step idle s ev = some s') : Inv idle s' := by
  cases steps_of_step hs with
  | lock hwants hfree => exact h.lock hwants hfree
  | spin hwants hheld => exact h
  | unlock hfrees => exact h.unlock hfrees
  | enqueue hpc hon => exact h.enqueue hpc hon
  | dequeue hpc hon => exact h.dequeue hpc
  | push hpc => exact h.push hpc
  | stop hpc => exact h.stop hpc
  | pick hpc => exact h.pick hpc
  | pull hpc hrun => exact h.pull hpc hrun
  | @enqueueTask c e hpc hidle =>
    refine h.setPc (by rw [hpc]; rfl) (by simp [hpc, Pc.active]) (by simp [hpc, Pc.pushed]) ?_
    simpa only [PcOk, State.setPc, update_self] using hidle
  | @dequeueTask c queue e hpc hcur hqueue =>
    refine h.setPc (by rw [hpc]; rfl) (by simp [hpc, Pc.active]) (by simp [hpc, Pc.pushed]) ?_
    simp only [PcOk, State.setPc, update_self]
    exact h.home_of_queue (by rw [hpc]; rfl) hcur hqueue
  | @schedule c e hpc hcur =>
    refine h.setPc (by rw [hpc]; rfl) (by simp [hpc, Pc.active]) (by simp [hpc, Pc.pushed]) ?_
    simpa only [PcOk, State.setPc, update_self] using hcur
  | scheduleNone hpc hcur =>
    refine h.setPc (by rw [hpc]; rfl) nofun (by simp [hpc, Pc.pushed]) ?_
    simp [PcOk, State.setPc]
  | @testOn c queue e good hpc hon hqueue =>
    have hcur : s.current c = some e := by simpa only [PcOk, hpc] using h.pcOk c
    refine h.setPc (by rw [hpc]; rfl) (by simp [hpc, Pc.active]) (by simp [hpc, Pc.pushed]) ?_
    simp only [PcOk, State.setPc, update_self]
    exact h.home_of_queue (by rw [hpc]; rfl) hcur hqueue
  | @testOff c e good hpc hon =>
    have hcur : s.current c = some e := by simpa only [PcOk, hpc] using h.pcOk c
    refine h.setPc (by rw [hpc]; rfl) (by simp [hpc, Pc.active]) (by simp [hpc, Pc.pushed]) ?_
    simpa only [PcOk, State.setPc, update_self] using hcur
  | @front c e q again good hpc hq =>
    refine h.setCurrent (by rw [hpc]; rfl) nofun ?_
    simp only [PcOk, State.setPc, update_self]
    exact ⟨trivial, q, hq⟩
  | goIdle hpc hidle =>
    refine h.setCurrent (by rw [hpc]; rfl) (fun _ => hidle) ?_
    simp [PcOk, State.setPc]
  | empty hpc | loopNext hpc | loopEnd hpc =>
    refine h.setPc (by rw [hpc]; rfl) nofun (by simp [hpc, Pc.pushed]) ?_
    simp [PcOk, State.setPc]
  | loopBalance hpc hi =>
    refine h.setPc (by rw [hpc]; rfl) nofun (by simp [hpc, Pc.pushed]) ?_
    simpa [PcOk, State.setPc, Balance.elems] using hi
  | @begin c i good hpc | @scanEnd c i good hpc | @scanNext c i e rest good hpc
  | @skip c i e rest good hpc =>
    have hok := h.pcOk c
    simp only [PcOk, hpc, Balance.elems] at hok
    refine h.setPc (by rw [hpc]; rfl) nofun (by simp [hpc, Pc.pushed]) ?_
    simp only [PcOk, State.setPc, update_self, Balance.elems]
    exact ⟨hok.1, by simp_all⟩

theorem inv_run {evs : List (Event n E)} (hrun : Transition.run (step idle) init evs = some s) :
    Inv idle s :=
  Transition.run_induction (fun _ _ _ h hs => inv_step h hs) evs inv_init hrun

end Step

end Locking

/-
**No wakeup is lost between the check and the sleep.**

A thread that waits on a futex word reads the word under the lock of the word's bucket and keeps
the lock until it is in the queue.  A thread that changes the word calls `futex_wake` afterwards,
and `futex_wake` takes the same lock.  So when the waker has the lock, a waiter that read the old
value is in the queue already, and `futex_wake` finds it there: the bucket exists, since the waiter
created it, and its counter is not zero, since the waiter is counted in it
(`Futex/Waiters.lean`; in histories without `futex_requeue` the counter is always right).

The loop of `futex_wake` stops after `INT_MAX` threads.  Thread ids are values of an `int` counter
that starts at zero, so there are at most `2 ^ 31` threads, and the one that calls `futex_wake` is
not in the queue: the loop empties the queue.

Main definitions: `Regular`, `CompletesWake`.  Main results: `futexWake_all`, `no_lost_wakeup`.
-/

import SgxElps.Futex.Waiters
import Mathlib.Data.Fintype.Card

namespace Futex

open List
open Transition
open Function

/-- The ids of threads: `threadCounter` is an `int` that counts up from zero. -/
abbrev ThreadId := Fin (2 ^ 31)

/-- The event is not a call of `futex_requeue`. -/
def Event.NotRequeue {T : Type} : Event T → Prop
  | .requeueCall _ _ _ _ _ => False
  | _ => True

/-! ### Sleeping and being handed to the scheduler -/

section Handed

variable {T : Type} {s s' : State T} {t : T}

/-- Every sleep but the present one has ended with a call of `enqueueTask`. -/
def SleepsHanded (s : State T) : Prop :=
  ∀ t, s.slept t = s.handed t + (s.phase t).queued.toList.length

theorem SleepsHanded.of_queued_eq (h : SleepsHanded s) (hslept : s'.slept = s.slept)
    (hhanded : s'.handed = s.handed) (hq : ∀ u, (s'.phase u).queued = (s.phase u).queued) :
    SleepsHanded s' := by
  intro u
  rw [hslept, hhanded, hq]
  exact h u

variable [DecidableEq T]

theorem SleepsHanded.setPhase (h : SleepsHanded s) {p : Phase}
    (hp : p.queued = (s.phase t).queued) : SleepsHanded (s.setPhase t p) := by
  refine h.of_queued_eq rfl rfl fun u => ?_
  rw [State.setPhase_apply]
  split
  · next hu => rw [hp, hu]
  · rfl

theorem SleepsHanded.enqueueTasks (h : SleepsHanded s) {ts : List T} {a : Addr} (hnd : ts.Nodup)
    (hts : ∀ u ∈ ts, (s.phase u).queued = some a) : SleepsHanded (s.enqueueTasks ts) := by
  intro u
  have hu := h u
  simp only [State.enqueueTasks]
  by_cases hut : u ∈ ts
  · rw [hts u hut] at hu
    rw [count_eq_one_of_mem hnd hut, if_pos hut, Phase.wake_queued, hu]
    rfl
  · rw [count_eq_zero_of_not_mem hut, if_neg hut, hu]
    rfl

theorem SleepsHanded.moveAll (h : SleepsHanded s) {ts : List T} {a b : Addr}
    (hts : ∀ u ∈ ts, (s.phase u).queued = some a) : SleepsHanded (s.moveAll ts b) := by
  intro u
  have hu := h u
  simp only [State.moveAll]
  split
  · next hut =>
    rw [hts u hut] at hu
    rw [(Phase.moveTo_of_queued (hts u hut)).1, hu]
    rfl
  · exact hu

theorem SleepsHanded.wake (hwf : Wf s) (h : SleepsHanded s) {a : Addr} {fb fb' : FutexBucket T}
    {w r : List T} (ha : s.hash a = some fb) (hq : fb.q = w ++ r)
    (ht : (s.phase t).queued = none) :
    SleepsHanded (((s.setBucket a fb').enqueueTasks w).setPhase t .idle) := by
  have hnd : (w ++ r).Nodup := hq ▸ hwf.nodup ha
  have hw : ∀ u ∈ w, (s.phase u).queued = some a := fun u hu =>
    (hwf.queue ha u).1 (hq ▸ mem_append_left r hu)
  have htw : t ∉ w := by
    intro htw
    have := hw t htw
    rw [ht] at this
    exact absurd this (by simp)
  have hbucket : SleepsHanded (s.setBucket a fb') := h.of_queued_eq rfl rfl fun _ => rfl
  refine (hbucket.enqueueTasks (nodup_append.1 hnd).1 hw).setPhase ?_
  simp only [State.enqueueTasks, State.setBucket_phase, if_neg htw]
  rw [ht]
  rfl

theorem sleepsHanded_step {e : Event T} (hwf : Wf s) (h : SleepsHanded s)
    (hs : step s e = some s') : SleepsHanded s' := by
  have hbucket : ∀ (a : Addr) (fb : FutexBucket T), SleepsHanded (s.setBucket a fb) :=
    fun a fb => h.of_queued_eq rfl rfl fun _ => rfl
  have hget : ∀ a, SleepsHanded (s.libosGetBucket a) := by
    intro a
    unfold State.libosGetBucket
    cases s.hash a with
    | none => exact hbucket a _
    | some fb => exact h
  cases steps_of_step hs with
  | store hp => exact h
  | waitCall hp => exact (hget _).setPhase (by rw [State.libosGetBucket_phase, hp]; rfl)
  | waitLock hp ha hl => exact (hbucket _ _).setPhase (by rw [State.setBucket_phase, hp]; rfl)
  | getFirst hp => exact h.setPhase (by rw [hp]; rfl)
  | getAgain hp => exact h.setPhase (by rw [hp]; rfl)
  | giveUp hp ha => exact (hbucket _ _).setPhase (by rw [State.setBucket_phase, hp]; rfl)
  | @sleep t a val uval left fb hp ha =>
    intro u
    change update s.slept t (s.slept t + 1) u =
      s.handed u + ((s.setPhase t (.asleep a a)).phase u).queued.toList.length
    by_cases hu : u = t
    · -- the one step at which a thread is put in a queue
      have hold := h t
      rw [hp] at hold
      rw [hu, update_self, State.setPhase_self, hold]
      rfl
    · rw [update_of_ne hu, State.setPhase_apply, if_neg hu]
      exact h u
  | leave hp ha => exact (hbucket _ _).setPhase (by rw [State.setBucket_phase, hp]; rfl)
  | wakeNoBucket hp ha => exact h
  | wakeCall hp ha => exact h.setPhase (by rw [hp]; rfl)
  | wakeNoWaiter hp ha hl hw => exact h.setPhase (by rw [hp]; rfl)
  | @wake t a nrWake fb w r hp ha hl hw hr =>
    have hq : fb.q = w ++ r := by rw [hw, hr, take_append_drop]
    exact h.wake hwf ha hq (by rw [hp]; rfl)
  | requeueNoBucket hp => exact h
  | requeueCall hp ha => exact h.setPhase (by rw [hp]; rfl)
  | requeueBucket hp => exact (hget _).setPhase (by rw [State.libosGetBucket_phase, hp]; rfl)
  | requeueSelf hp ha hl => exact (hbucket _ _).setPhase (by rw [State.setBucket_phase, hp]; rfl)
  | requeueNoWaiter hp ha hne hw => exact h.setPhase (by rw [hp]; rfl)
  | @requeue t a₁ a₂ nrWake nrRequeue fb₁ fb₂ w m r hp h1 h2 hne hq hw =>
    let fb : FutexBucket T := { fb₁ with q := m ++ r }
    let s₁ := ((s.setBucket a₁ fb).enqueueTasks w).setPhase t .idle
    have hwf1 : Wf s₁ := hwf.wake h1 hq rfl rfl (by rw [hp]; rfl) (by rw [hp]; rfl)
    have hwake : SleepsHanded s₁ := h.wake hwf h1 hq (by rw [hp]; rfl)
    have ha1 : s₁.hash a₁ = some fb := State.setBucket_self ..
    have hm : ∀ u ∈ m, (s₁.phase u).queued = some a₁ := fun u hu =>
      (hwf1.queue ha1 u).1 (mem_append_left r hu)
    rw [requeue_eq_wake_move s t a₁ a₂ fb]
    exact SleepsHanded.moveAll (a := a₁) (hwake.of_queued_eq rfl rfl fun _ => rfl) hm

omit [DecidableEq T] in
theorem sleepsHanded_init (word : Addr → UInt32) : SleepsHanded (init word : State T) := by
  intro t
  rfl

theorem slept_le_step {e : Event T} (hs : step s e = some s') (u : T) : s.slept u ≤ s'.slept u := by
  cases steps_of_step hs with
  | @sleep t a val uval left fb hp ha =>
    change s.slept u ≤ update s.slept t (s.slept t + 1) u
    rw [update_apply]
    split
    · next hu => rw [hu]; exact Nat.le_succ _
    · exact le_refl _
  | waitCall hp => exact (congrFun (State.libosGetBucket_slept s _) u).ge
  | requeueBucket hp => exact (congrFun (State.libosGetBucket_slept s _) u).ge
  | _ => exact le_refl _

end Handed

/-! ### Histories without `futex_requeue` -/

section Plain

variable {T : Type} [DecidableEq T] {s s' : State T} {t : T}

/-- The thread is not in `futex_requeue` and was never moved. -/
def Phase.Plain : Phase → Prop
  | .asleep f h => f = h
  | .woken f h => f = h
  | .requeueFirst _ _ _ _ => False
  | .requeueBoth _ _ _ _ => False
  | .selfLocked _ => False
  | _ => True

theorem Phase.Plain.wake {p : Phase} (h : p.Plain) : p.wake.Plain := by
  cases p <;> exact h

/-- No thread is in `futex_requeue` and none was ever moved. -/
def AllPlain (s : State T) : Prop := ∀ t, (s.phase t).Plain

theorem AllPlain.setPhase (h : AllPlain s) {p : Phase} (hp : p.Plain) :
    AllPlain (s.setPhase t p) := by
  intro u
  rw [State.setPhase_apply]
  split
  · exact hp
  · exact h u

theorem allPlain_step {e : Event T} (he : e.NotRequeue) (h : AllPlain s)
    (hs : step s e = some s') : AllPlain s' := by
  have hget : ∀ a, AllPlain (s.libosGetBucket a) := by
    intro a u
    rw [State.libosGetBucket_phase]
    exact h u
  cases steps_of_step hs with
  | store hp => exact h
  | waitCall hp => exact (hget _).setPhase trivial
  | waitLock hp ha hl => exact AllPlain.setPhase (s := s.setBucket _ _) h trivial
  | getFirst hp => exact h.setPhase trivial
  | getAgain hp => exact h.setPhase trivial
  | giveUp hp ha => exact AllPlain.setPhase (s := s.setBucket _ _) h trivial
  | @sleep t a val uval left fb hp ha =>
    have h' : AllPlain (s.setPhase t (.asleep a a)) := h.setPhase rfl
    exact h'
  | leave hp ha => exact AllPlain.setPhase (s := s.setBucket _ _) h trivial
  | wakeNoBucket hp ha => exact h
  | wakeCall hp ha => exact h.setPhase trivial
  | wakeNoWaiter hp ha hl hw => exact h.setPhase trivial
  | wake hp ha hl hw hr =>
    refine AllPlain.setPhase (fun u => ?_) trivial
    simp only [State.enqueueTasks, State.setBucket_phase]
    split
    · exact (h u).wake
    · exact h u
  | requeueNoBucket hp => exact he.elim
  | requeueCall hp ha => exact he.elim
  | @requeueBucket t a₁ a₂ nrWake nrRequeue hp =>
    have ht := h t
    rw [hp] at ht
    exact ht.elim
  | @requeueSelf t a nrWake nrRequeue fb hp ha hl =>
    have ht := h t
    rw [hp] at ht
    exact ht.elim
  | @requeueNoWaiter t a₁ a₂ nrWake nrRequeue fb hp ha hne hw =>
    have ht := h t
    rw [hp] at ht
    exact ht.elim
  | @requeue t a₁ a₂ nrWake nrRequeue fb₁ fb₂ w m r hp h1 h2 hne hq hw =>
    have ht := h t
    rw [hp] at ht
    exact ht.elim

omit [DecidableEq T] in
theorem AllPlain.stepBalanced (h : AllPlain s) (e : Event T) : StepBalanced s e := by
  cases e with
  | waitLeave t =>
    intro f hm hp
    have ht := h t
    rw [hp] at ht
    exact ht
  | futexRequeue t =>
    intro a₁ a₂ nrWake nrRequeue fb hp
    have ht := h t
    rw [hp] at ht
    exact ht.elim
  | _ => trivial

/-- What is known in every state of a history without `futex_requeue`. -/
structure Regular [Fintype T] (s : State T) : Prop where
  wf : Wf s
  counters : CountersExact s
  handed : SleepsHanded s
  plain : AllPlain s

theorem regular_step [Fintype T] {e : Event T} (he : e.NotRequeue) (h : Regular s)
    (hs : step s e = some s') : Regular s' where
  wf := wf_step h.wf hs
  counters := (countersExact_step_iff h.wf h.counters hs).2 (h.plain.stepBalanced e)
  handed := sleepsHanded_step h.wf h.handed hs
  plain := allPlain_step he h.plain hs

theorem regular_run [Fintype T] {es : List (Event T)} (hes : ∀ e ∈ es, e.NotRequeue)
    (h : Regular s) (hrun : run step s es = some s') : Regular s' :=
  run_induction_of (fun _ _ _ he h hs => regular_step he h hs) es hes h hrun

omit [DecidableEq T] in
theorem regular_init [Fintype T] (word : Addr → UInt32) : Regular (init word : State T) where
  wf := wf_init word
  counters := countersExact_init word
  handed := sleepsHanded_init word
  plain _ := trivial

theorem hash_isSome_step {e : Event T} {a : Addr} (ha : (s.hash a).isSome)
    (hs : step s e = some s') : (s'.hash a).isSome := by
  have hset : ∀ (b : Addr) (fb : FutexBucket T), ((s.setBucket b fb).hash a).isSome := by
    intro b fb
    rw [State.setBucket_apply]
    split
    · rfl
    · exact ha
  cases steps_of_step hs with
  | waitCall hp => exact libosGetBucket_isSome_of ha
  | waitLock hp ha hl => exact hset _ _
  | giveUp hp ha => exact hset _ _
  | sleep hp ha => exact hset _ _
  | leave hp ha => exact hset _ _
  | wake hp ha hl hw hr => exact hset _ _
  | requeueBucket hp => exact libosGetBucket_isSome_of ha
  | requeueSelf hp ha hl => exact hset _ _
  | @requeue t a₁ a₂ nrWake nrRequeue fb₁ fb₂ w m r hp h1 h2 hne hq hw =>
    rw [State.setPhase_hash, State.moveAll_hash, State.enqueueTasks_hash, State.setBucket_apply]
    split
    · rfl
    · exact hset _ _
  | _ => exact ha

end Plain

/-! ### A waiter that does not read the word again -/

section Reader

variable {T : Type} [DecidableEq T] {s s' : State T} {t : T}

/-- The event is a read of a futex word by `t`. -/
def Event.ReadsWord (t : T) : Event T → Prop
  | .getUserVal u => u = t
  | _ => False

/-- The addresses whose word the thread has read and may still go to sleep on, or is asleep on, are
in `A`. -/
def Phase.Within (A : Set Addr) : Phase → Prop
  | .polling a _ _ _ => a ∈ A
  | .asleep _ h => h ∈ A
  | _ => True

theorem Phase.Within.wake {A : Set Addr} {p : Phase} (h : p.Within A) : p.wake.Within A := by
  cases p <;> first | exact h | trivial

theorem within_setPhase {A : Set Addr} {p : Phase} {u : T} (hp : u = t → p.Within A)
    (hu : (s.phase u).Within A) : ((s.setPhase t p).phase u).Within A := by
  rw [State.setPhase_apply]
  split
  · next h => exact hp h
  · exact hu

/-- Without a further read a thread goes to sleep on no other word. -/
theorem within_step {A : Set Addr} {e : Event T} {u : T} (he : ¬ e.ReadsWord u)
    (hplain : AllPlain s) (h : (s.phase u).Within A) (hs : step s e = some s') :
    (s'.phase u).Within A := by
  have hget : ∀ a, ((s.libosGetBucket a).phase u).Within A := by
    intro a
    rw [State.libosGetBucket_phase]
    exact h
  cases steps_of_step hs with
  | store hp => exact h
  | waitCall hp => exact within_setPhase (fun _ => trivial) (hget _)
  | waitLock hp ha hl => exact within_setPhase (s := s.setBucket _ _) (fun _ => trivial) h
  | @getFirst t a val hp => exact within_setPhase (fun hu => (he hu.symm).elim) h
  | @getAgain t a val uval left hp => exact within_setPhase (fun hu => (he hu.symm).elim) h
  | giveUp hp ha => exact within_setPhase (s := s.setBucket _ _) (fun _ => trivial) h
  | @sleep t a val uval left fb hp ha =>
    have h' : ((s.setPhase t (.asleep a a)).phase u).Within A := by
      refine within_setPhase (fun hu => ?_) h
      rw [hu, hp] at h
      exact h
    exact h'
  | leave hp ha => exact within_setPhase (s := s.setBucket _ _) (fun _ => trivial) h
  | wakeNoBucket hp ha => exact h
  | wakeCall hp ha => exact within_setPhase (fun _ => trivial) h
  | wakeNoWaiter hp ha hl hw => exact within_setPhase (fun _ => trivial) h
  | wake hp ha hl hw hr =>
    refine within_setPhase (fun _ => trivial) ?_
    simp only [State.enqueueTasks, State.setBucket_phase]
    split
    · exact h.wake
    · exact h
  | requeueNoBucket hp => exact h
  | requeueCall hp ha => exact within_setPhase (fun _ => trivial) h
  | requeueBucket hp => exact within_setPhase (fun _ => trivial) (hget _)
  | requeueSelf hp ha hl => exact within_setPhase (s := s.setBucket _ _) (fun _ => trivial) h
  | requeueNoWaiter hp ha hne hw => exact within_setPhase (fun _ => trivial) h
  | @requeue t a₁ a₂ nrWake nrRequeue fb₁ fb₂ w m r hp h1 h2 hne hq hw =>
    have ht := hplain t
    rw [hp] at ht
    exact ht.elim

/-- What stays true of a waiter on `a` while it does not read. -/
structure StillReader [Fintype T] (A : Set Addr) (a : Addr) (u : T) (n : ℕ) (s : State T) : Prop where
  regular : Regular s
  bucket : (s.hash a).isSome
  within : (s.phase u).Within A
  slept : n ≤ s.slept u

theorem stillReader_run [Fintype T] {A : Set Addr} {a : Addr} {u : T} {n : ℕ} {es : List (Event T)}
    (hes : ∀ e ∈ es, e.NotRequeue ∧ ¬ e.ReadsWord u) (h : StillReader A a u n s)
    (hrun : run step s es = some s') : StillReader A a u n s' := by
  refine run_induction_of (Q := fun e => e.NotRequeue ∧ ¬ e.ReadsWord u) ?_ es hes h hrun
  intro s e s' he h hs
  exact ⟨regular_step he.1 h.regular hs, hash_isSome_step h.bucket hs,
    within_step he.2 h.regular.plain h.within hs, h.slept.trans (slept_le_step hs u)⟩

end Reader

/-! ### Waking all -/

/-- The event is the one with which a call `futex_wake(a, nr)` by `t` takes effect: the lookup that
finds no bucket, or the section under the bucket's lock. -/
def CompletesWake (s : State ThreadId) (t : ThreadId) (a : Addr) (nr : UInt32) :
    Event ThreadId → Prop
  | .wakeCall u b n => u = t ∧ b = a ∧ n = nr ∧ s.hash a = none
  | .futexWake u => u = t ∧ s.phase t = .wakeBucket a (wakeCount nr)
  | _ => False

theorem length_le_intMax {q : List ThreadId} (hnd : q.Nodup) {t : ThreadId} (ht : t ∉ q) :
    q.length ≤ intMax.toNat := by
  have hcons : (t :: q).Nodup := nodup_cons.2 ⟨ht, hnd⟩
  have hle := List.Nodup.length_le_card hcons
  rw [Fintype.card_fin, length_cons] at hle
  have : intMax.toNat = 2 ^ 31 - 1 := rfl
  omega

/-- **Waking all empties the queue**: after the section of `futex_wake` with `nr ≠ 1` no thread is in
the queue of the bucket, and no thread is between its check and its sleep there. -/
theorem futexWake_all {s s' : State ThreadId} {t : ThreadId} {a : Addr} {nr : UInt32} (h : Regular s)
    (hnr : nr ≠ 1) (hp : s.phase t = .wakeBucket a (wakeCount nr))
    (hs : step s (.futexWake t) = some s') (u : ThreadId) :
    (s'.phase u).queued ≠ some a ∧ (s'.phase u).checking ≠ some a := by
  have hwf : Wf s' := wf_step h.wf hs
  have hcount : wakeCount nr = intMax := if_pos hnr
  -- the queue that is left is empty and the lock is free
  obtain ⟨fb, ha, hq, hl⟩ : ∃ fb, s'.hash a = some fb ∧ fb.q = [] ∧ fb.lock = none := by
    cases steps_of_step hs with
    | @wakeNoWaiter _ b nrWake fb hp' ha hl hw =>
      rw [hp, Phase.wakeBucket.injEq] at hp'
      obtain ⟨rfl, rfl⟩ := hp'
      exact ⟨fb, ha, (h.wf.waitersExact_iff.2 h.counters).queue_nil a fb ha hw, hl⟩
    | @wake _ b nrWake fb w r hp' ha hl hw hr =>
      rw [hp, Phase.wakeBucket.injEq] at hp'
      obtain ⟨rfl, rfl⟩ := hp'
      have htq : t ∉ fb.q := by
        rw [h.wf.queue ha t, hp]
        simp [Phase.queued]
      have hnil : r = [] := by
        rw [hr, hcount, drop_eq_nil_iff]
        exact length_le_intMax (h.wf.nodup ha) htq
      exact ⟨_, State.setBucket_self .., hnil, hl⟩
  constructor
  · rw [Ne, ← hwf.queue ha u, hq]
    exact not_mem_nil
  · exact hwf.checking_ne ha hl u

/-- **No wakeup is lost between check and sleep.**  Take any history without `futex_requeue` in which
`w`, in a call `libos_futex_wait(a, val)`, reads the word; then `t` stores to it; then `t` completes
`futex_wake(a, nr)` with `nr ≠ 1`; and `w` does not read again.  When the wake returns, `w` is in no
queue, and either it never went to sleep after its read or it was handed to `enqueueTask`.

The value stored does not matter: a waiter that read the word before the store is treated alike
whether or not the store changes the word. -/
theorem no_lost_wakeup (word : Addr → UInt32) {es₀ es₁ es₂ es₃ : List (Event ThreadId)}
    {w t : ThreadId} {a : Addr} {val v nr : UInt32} {e : Event ThreadId}
    {s₀ s₁ s₂ s₃ s : State ThreadId}
    (h₀ : run step (init word) es₀ = some s₀)
    (hwait : s₀.phase w = .waitLocked a val ∨ ∃ uval left, s₀.phase w = .polling a val uval left)
    (hread : step s₀ (.getUserVal w) = some s₁)
    (h₁ : run step s₁ (es₁ ++ .store t a v :: es₂) = some s₂)
    (hwake : CompletesWake s₂ t a nr e) (hnr : nr ≠ 1) (h₂ : step s₂ e = some s₃)
    (h₃ : run step s₃ es₃ = some s)
    (hrequeue : ∀ f ∈ es₀ ++ es₁ ++ es₂ ++ es₃, f.NotRequeue)
    (hlast : ∀ f ∈ es₁ ++ es₂ ++ es₃, ¬ f.ReadsWord w) :
    (s.phase w).queued = none ∧ (∀ fb, s.hash a = some fb → w ∉ fb.q) ∧
      (s.slept w = s₁.slept w ∨ s₁.handed w < s.handed w) := by
  have hes : ∀ f ∈ es₁ ++ .store t a v :: es₂, f.NotRequeue ∧ ¬ f.ReadsWord w := by
    intro f hf
    rw [mem_append, mem_cons] at hf
    rcases hf with hf | rfl | hf
    · exact ⟨hrequeue f (by simp [hf]), hlast f (by simp [hf])⟩
    · exact ⟨trivial, id⟩
    · exact ⟨hrequeue f (by simp [hf]), hlast f (by simp [hf])⟩
  have he : e.NotRequeue ∧ ¬ e.ReadsWord w := by
    cases e <;> first | exact hwake.elim | exact ⟨trivial, id⟩
  have hreg₀ : Regular s₀ := regular_run (fun f hf => hrequeue f (by simp [hf])) (regular_init word) h₀
  have hreg₁ : Regular s₁ := regular_step (e := .getUserVal w) trivial hreg₀ hread
  -- after its read the waiter polls the word of `a`
  obtain ⟨uval, left, hp₁⟩ : ∃ uval left, s₁.phase w = .polling a val uval left := by
    cases steps_of_step hread with
    | getFirst hp =>
        rcases hwait with hw | ⟨_, _, hw⟩ <;> rw [hp] at hw
        · rw [(Phase.waitLocked.inj hw).1, (Phase.waitLocked.inj hw).2]
          exact ⟨_, _, State.setPhase_self ..⟩
        · cases hw
    | getAgain hp =>
        rcases hwait with hw | ⟨_, _, hw⟩ <;> rw [hp] at hw
        · cases hw
        · rw [(Phase.polling.inj hw).1, (Phase.polling.inj hw).2.1]
          exact ⟨_, _, State.setPhase_self ..⟩
  have hstill₁ : StillReader {a} a w (s₁.slept w) s₁ := by
    refine ⟨hreg₁, hreg₁.wf.refs w a ?_, ?_, le_refl _⟩
    · rw [hp₁]
      simp [Phase.refs]
    · rw [hp₁]
      rfl
  have hstill₂ : StillReader {a} a w (s₁.slept w) s₂ := stillReader_run hes hstill₁ h₁
  have hstill₃ : StillReader {a} a w (s₁.slept w) s₃ := by
    have hone : run step s₂ [e] = some s₃ := by rw [run_singleton, h₂]
    exact stillReader_run (by simpa using he) hstill₂ hone
  -- the wake finds the bucket, so it runs its section
  have hout : (s₃.phase w).queued ≠ some a ∧ (s₃.phase w).checking ≠ some a := by
    cases e with
    | wakeCall u b n =>
        have hb := hstill₂.bucket
        rw [hwake.2.2.2] at hb
        exact absurd hb (by simp)
    | futexWake u =>
        obtain ⟨rfl, hp⟩ := hwake
        exact futexWake_all hstill₂.regular hnr hp h₂ w
    | _ => exact hwake.elim
  have hempty : (s₃.phase w).Within ∅ := by
    have hin := hstill₃.within
    cases hp : s₃.phase w with
    | polling b val' uval' left' =>
        rw [hp] at hin hout
        exact hout.2 (by rw [show b = a from hin]; rfl)
    | asleep f b =>
        rw [hp] at hin hout
        exact hout.1 (by rw [show b = a from hin]; rfl)
    | _ => trivial
  have hstill : StillReader ∅ a w (s₁.slept w) s := by
    have hstart : StillReader ∅ a w (s₁.slept w) s₃ :=
      ⟨hstill₃.regular, hstill₃.bucket, hempty, hstill₃.slept⟩
    refine stillReader_run (fun f hf => ?_) hstart h₃
    exact ⟨hrequeue f (by simp [hf]), hlast f (by simp [hf])⟩
  have hnone : (s.phase w).queued = none := by
    have hin := hstill.within
    cases hp : s.phase w with
    | asleep f b =>
        rw [hp] at hin
        exact hin.elim
    | _ => rfl
  refine ⟨hnone, fun fb ha hwq => ?_, ?_⟩
  · have := (hstill.regular.wf.queue ha w).1 hwq
    rw [hnone] at this
    exact absurd this (by simp)
  · have hend := hstill.regular.handed w
    have hstart := hreg₁.handed w
    rw [hnone] at hend
    rw [hp₁] at hstart
    have hle := hstill.slept
    have h0 : (Phase.polling a val uval left).queued.toList.length = 0 := rfl
    have h0' : (none : Option Addr).toList.length = 0 := rfl
    omega

/-- Thread `0` polls a word that keeps its value until the last poll; thread `1` then stores `1` and
wakes all: thread `0` has gone to sleep after the store and has been handed to `enqueueTask`. -/
theorem no_lost_wakeup_after_last_poll :
    ∃ s₁ s : State ThreadId,
      run step (init fun _ => 0) (([.waitCall 0 0 0, .waitLock 0, .getUserVal 0] ++
        replicate (maxWait - 1) (.getUserVal 0)) ++ [.getUserVal 0]) = some s₁ ∧
      run step s₁ ([.store 1 0 1, .waitDecide 0, .wakeCall 1 0 2] ++ [.futexWake 1]) = some s ∧
      s₁.slept 0 = 0 ∧ s.slept 0 = 1 ∧ (s.phase 0).queued = none ∧ s₁.handed 0 < s.handed 0 := by
  obtain ⟨s₀, h₀, hp₀, hw₀, s₁, s₂, s₃, h₁, h₂, hwake, h₃, hbefore, hafter⟩ :
      ∃ s₀ : State ThreadId,
        run step (init fun _ => 0) [.waitCall 0 0 0, .waitLock 0, .getUserVal 0] =
          some s₀ ∧
        s₀.phase 0 = .polling 0 0 0 ((maxWait - 1) + 1) ∧ s₀.word 0 = 0 ∧
        ∃ s₁ s₂ s₃, step (s₀.setPhase 0 (.polling 0 0 0 1)) (.getUserVal 0) = some s₁ ∧
          run step s₁ ([] ++ .store 1 0 1 :: [.waitDecide 0, .wakeCall 1 0 2]) = some s₂ ∧
          CompletesWake s₂ 1 0 2 (.futexWake 1) ∧ step s₂ (.futexWake 1) = some s₃ ∧
          s₁.slept 0 = 0 ∧ s₃.slept 0 = 1 :=
    ⟨_, rfl, rfl, rfl, _, _, _, rfl, rfl, ⟨rfl, rfl⟩, rfl, rfl, rfl⟩
  have hpoll : run step (init fun _ => 0) ([.waitCall 0 0 0, .waitLock 0, .getUserVal 0] ++
      replicate (maxWait - 1) (.getUserVal 0)) = some (s₀.setPhase 0 (.polling 0 0 0 1)) := by
    rw [run_append, h₀, Option.bind_some, run_poll (k := 1) (maxWait - 1) hp₀ hw₀]
  have hlast : run step s₃ [] = some s₃ := rfl
  have hmain := no_lost_wakeup (fun _ => 0) hpoll
    (Or.inr ⟨0, 1, State.setPhase_self ..⟩) h₁ h₂ hwake (by decide) h₃ hlast
    (by simp [or_imp, forall_and, Event.NotRequeue])
    (by simp [Event.ReadsWord])
  refine ⟨s₁, s₃, ?_, ?_, hbefore, hafter, hmain.1, ?_⟩
  · rw [run_append, hpoll, Option.bind_some, run_singleton, h₁]
  · rw [run_append, show run step s₁ [.store 1 0 1, .waitDecide 0, .wakeCall 1 0 2] = some s₂ from h₂,
      Option.bind_some, run_singleton, h₃]
  · rcases hmain.2.2 with h | h
    · omega
    · exact h

end Futex

/-
**The counter of waiters.**

`futex_wake` and `futex_requeue` return at once when a bucket's counter `waiters` is zero, so the
counter has to count the threads that are waiting in the bucket.  A waiter counts itself when it
takes the lock in `libos_futex_wait` and gives the count back when it leaves; `futex_wake` does not
touch the counter.  `futex_requeue` does, twice: for a thread it wakes, which will also give its
count back itself, and for a thread it moves, which will give its count back to the *old* bucket,
the one it remembers.

This module says exactly when the counter is right: throughout a run it is the number of waiting
threads if and only if no step of the run is one of the two that make the counter wrong
(`Futex.StepBalanced`).

Main definitions: `WaitersExact`, `StepBalanced`.  Main result: `allStates_waitersExact_iff`.
-/

import SgxElps.Futex.Invariant
import Mathlib.Data.Fintype.Basic
import Mathlib.Data.Finset.Card
import Mathlib.Algebra.BigOperators.Group.Finset.Basic
import SgxElps.Lib.Participants

namespace Futex

open Finset
open Option (some_inj)
open List
open Transition
open State

variable {T : Type} [Fintype T] {s s' : State T} {t : T}

/-! ### Counting the waiting threads -/

/-- The threads that have entered `libos_futex_wait` on the bucket, or have been requeued to it, and
have neither left nor been requeued away. -/
def waiting (s : State T) (a : Addr) : Finset T :=
  univ.filter fun t => (s.phase t).home = some a

theorem mem_waiting {a : Addr} : t ∈ waiting s a ↔ (s.phase t).home = some a := by
  simp [waiting]

@[simp] theorem waiting_setBucket (a b : Addr) (fb : FutexBucket T) :
    waiting (s.setBucket b fb) a = waiting s a := rfl

/-- The counter of every bucket is the number of threads waiting in it. -/
def CountersExact (s : State T) : Prop :=
  ∀ a fb, s.hash a = some fb → fb.waiters = (waiting s a).card

theorem countersExact_init (word : Addr → UInt32) : CountersExact (init word : State T) := by
  intro a fb h
  simp [init] at h

@[simp] theorem waiting_libosGetBucket (a b : Addr) :
    waiting (s.libosGetBucket b) a = waiting s a := by
  ext t
  simp [mem_waiting]

variable [DecidableEq T]

@[simp] theorem waiting_enqueueTasks (a : Addr) (ts : List T) :
    waiting (s.enqueueTasks ts) a = waiting s a := by
  ext t
  simp only [mem_waiting, enqueueTasks]
  split <;> simp

/-- One thread changes its phase. -/
theorem card_waiting_setPhase (s : State T) (t : T) (p : Phase) (a : Addr) :
    ((waiting (s.setPhase t p) a).card : ℤ) =
      (waiting s a).card - (if (s.phase t).home = some a then 1 else 0) +
        (if p.home = some a then 1 else 0) := by
  have hrest : ∀ u, u ≠ t → (u ∈ waiting (s.setPhase t p) a ↔ u ∈ waiting s a) := by
    intro u hu
    rw [mem_waiting, mem_waiting, setPhase_apply, if_neg hu]
  have herase : (waiting (s.setPhase t p) a).erase t = (waiting s a).erase t := by
    ext u
    rw [mem_erase, mem_erase]
    exact and_congr_right (hrest u)
  have hcard : ∀ S : Finset T, (S.card : ℤ) = (S.erase t).card + (if t ∈ S then 1 else 0) := by
    intro S
    split
    · next ht =>
      rw [← card_erase_add_one ht]
      push_cast
      ring
    · next ht => rw [erase_eq_of_notMem ht]; ring
  rw [hcard (waiting (s.setPhase t p) a), hcard (waiting s a), herase]
  simp only [mem_waiting, setPhase_self]
  ring

/-- The threads `m` move from the bucket `a₁` to the bucket `a₂`. -/
theorem card_waiting_moveAll {a₁ a₂ : Addr} {m : List T} (hne : a₁ ≠ a₂) (hnd : m.Nodup)
    (hm : ∀ u ∈ m, (s.phase u).queued = some a₁) (a : Addr) :
    ((waiting (s.moveAll m a₂) a).card : ℤ) =
      (waiting s a).card - (if a = a₁ then (m.length : ℤ) else 0) +
        (if a = a₂ then (m.length : ℤ) else 0) := by
  have hlen : m.toFinset.card = m.length := toFinset_card_of_nodup hnd
  have hhome : ∀ u, ((s.moveAll m a₂).phase u).home =
      if u ∈ m then some a₂ else (s.phase u).home := by
    intro u
    simp only [moveAll]
    split
    · next hu => exact (Phase.moveTo_of_queued (hm u hu)).2.1
    · rfl
  have hold : ∀ u ∈ m, (s.phase u).home = some a₁ := fun u hu =>
    (Phase.moveTo_of_queued (a := a₂) (hm u hu)).2.2
  by_cases h1 : a = a₁
  · subst h1
    have hset : waiting (s.moveAll m a₂) a = waiting s a \ m.toFinset := by
      ext u
      rw [mem_waiting, mem_sdiff, mem_waiting, mem_toFinset, hhome]
      split
      · next hu => simp [hu, Ne.symm hne]
      · next hu => simp [hu]
    have hsub : m.toFinset ⊆ waiting s a := by
      intro u hu
      exact mem_waiting.2 (hold u (mem_toFinset.1 hu))
    have hle : m.length ≤ (waiting s a).card := hlen ▸ card_le_card hsub
    rw [hset, card_sdiff_of_subset hsub, hlen]
    simp only [if_true, if_neg hne]
    omega
  · by_cases h2 : a = a₂
    · subst h2
      have hset : waiting (s.moveAll m a) a = waiting s a ∪ m.toFinset := by
        ext u
        rw [mem_waiting, mem_union, mem_waiting, mem_toFinset, hhome]
        split
        · next hu => simp [hu]
        · next hu => simp [hu]
      have hdisj : Disjoint (waiting s a) m.toFinset := by
        rw [Finset.disjoint_left]
        intro u hu hu'
        rw [mem_waiting, hold u (mem_toFinset.1 hu'), some_inj] at hu
        exact hne hu
      rw [hset, card_union_of_disjoint hdisj, hlen]
      simp [h1]
    · have hset : waiting (s.moveAll m a₂) a = waiting s a := by
        ext u
        rw [mem_waiting, mem_waiting, hhome]
        split
        · next hu =>
          rw [hold u hu]
          simp [Ne.symm h1, Ne.symm h2]
        · rfl
      rw [hset]
      simp [h1, h2]

/-! ### The counters are right -/

/-- The counters are right: they are the numbers of waiting threads, so they are never negative,
a bucket with counter zero has an empty queue, and the early return is never taken while a thread
sleeps in the bucket. -/
structure WaitersExact (s : State T) : Prop where
  eq_card : ∀ a fb, s.hash a = some fb → fb.waiters = (waiting s a).card
  nonneg : ∀ a fb, s.hash a = some fb → 0 ≤ fb.waiters
  queue_nil : ∀ a fb, s.hash a = some fb → fb.waiters = 0 → fb.q = []
  no_early_return : ∀ t f a, s.phase t = .asleep f a → ∃ fb, s.hash a = some fb ∧ fb.waiters ≠ 0

omit [DecidableEq T] in
theorem Wf.waiting_nonempty (h : Wf s) {a : Addr} {fb : FutexBucket T} (hfb : s.hash a = some fb)
    {u : T} (hu : u ∈ fb.q) : u ∈ waiting s a := by
  have hq := (h.queue hfb u).1 hu
  exact mem_waiting.2 (Phase.moveTo_of_queued (a := a) hq).2.2

omit [DecidableEq T] in
theorem Wf.waitersExact_iff (h : Wf s) : WaitersExact s ↔ CountersExact s := by
  refine ⟨fun hw => hw.eq_card, fun hc => ⟨hc, ?_, ?_, ?_⟩⟩
  · intro a fb hfb
    rw [hc a fb hfb]
    exact Int.natCast_nonneg _
  · intro a fb hfb h0
    rw [hc a fb hfb, Int.natCast_eq_zero, card_eq_zero] at h0
    rw [eq_nil_iff_forall_not_mem]
    intro u hu
    have hmem := h.waiting_nonempty hfb hu
    rw [h0] at hmem
    exact absurd hmem (notMem_empty u)
  · intro u f a hu
    have hsome : (s.hash a).isSome := h.refs u a (by rw [hu]; simp [Phase.refs])
    obtain ⟨fb, hfb⟩ := Option.isSome_iff_exists.1 hsome
    refine ⟨fb, hfb, ?_⟩
    rw [hc a fb hfb]
    have hmem : u ∈ waiting s a := mem_waiting.2 (by rw [hu]; rfl)
    have := card_pos.2 ⟨u, hmem⟩
    omega

/-- Exactly the steps that leave the counters right: `futex_requeue` wakes no thread, and a thread
leaves only the bucket in which it is waiting. -/
def StepBalanced (s : State T) : Event T → Prop
  | .futexRequeue t =>
      ∀ a₁ a₂ nrWake nrRequeue fb, s.phase t = .requeueBoth a₁ a₂ nrWake nrRequeue →
        s.hash a₁ = some fb → a₁ = a₂ ∨ fb.q = [] ∨ nrWake ≤ 0
  | .waitLeave t => ∀ f h, s.phase t = .woken f h → f = h
  | _ => True

/-- A step that changes one counter and the phase of one thread. -/
theorem countersExact_setBucket_setPhase (hc : CountersExact s) {a : Addr} {fb fb' : FutexBucket T}
    {p : Phase} (hfb : s.hash a = some fb)
    (hother : ∀ b, b ≠ a → ((s.phase t).home = some b ↔ p.home = some b)) :
    CountersExact ((s.setBucket a fb').setPhase t p) ↔
      fb'.waiters = fb.waiters - (if (s.phase t).home = some a then 1 else 0) +
        (if p.home = some a then 1 else 0) := by
  have hcard : ∀ b, ((waiting ((s.setBucket a fb').setPhase t p) b).card : ℤ) =
      (waiting s b).card - (if (s.phase t).home = some b then 1 else 0) +
        (if p.home = some b then 1 else 0) := fun b =>
    card_waiting_setPhase (s.setBucket a fb') t p b
  constructor
  · intro h
    have h' := h a fb' (setBucket_self ..)
    rw [hcard, ← hc a fb hfb] at h'
    exact h'
  · intro hw b fb₁ hb
    rw [setPhase_hash, setBucket_apply] at hb
    rw [hcard]
    split at hb
    · next hba =>
      obtain rfl := some_inj.1 hb
      subst hba
      rw [hw, hc b fb hfb]
    · next hba =>
      rw [hc b fb₁ hb]
      simp only [hother b hba]
      ring

theorem countersExact_setPhase (hc : CountersExact s) {p : Phase}
    (hp : p.home = (s.phase t).home) : CountersExact (s.setPhase t p) := by
  intro b fb hb
  rw [card_waiting_setPhase, hc b fb hb, hp]
  ring

omit [DecidableEq T] in
theorem countersExact_libosGetBucket (h : Wf s) (hc : CountersExact s) (a : Addr) :
    CountersExact (s.libosGetBucket a) := by
  intro b fb hb
  rw [waiting_libosGetBucket]
  unfold libosGetBucket at hb
  cases ha : s.hash a with
  | some fb' =>
    rw [ha] at hb
    exact hc b fb hb
  | none =>
    rw [ha] at hb
    simp only at hb
    rw [setBucket_apply] at hb
    split at hb
    · next hba =>
      obtain rfl := some_inj.1 hb
      -- the bucket did not exist, so nobody can be waiting in it
      have hempty : waiting s b = ∅ := by
        refine eq_empty_of_forall_notMem fun u hu => ?_
        have := h.refs u b (Phase.mem_refs_of_home (mem_waiting.1 hu))
        rw [hba, ha] at this
        exact absurd this (by simp)
      rw [hempty]
      rfl
    · exact hc b fb hb

/-! ### One step -/

theorem countersExact_wake (h : Wf s) (hc : CountersExact s) {a : Addr} {fb : FutexBucket T}
    {w r : List T} (ha : s.hash a = some fb) (hw : ∀ u ∈ w, u ∈ fb.q)
    (hq : (s.phase t).queued = none) (hh : (s.phase t).home = none) :
    CountersExact (((s.setBucket a { fb with q := r }).enqueueTasks w).setPhase t .idle) := by
  have htw : t ∉ w := by
    intro htw
    have := (h.queue ha t).1 (hw t htw)
    rw [hq] at this
    exact absurd this (by simp)
  refine countersExact_setPhase ?_ ?_
  · intro b fb' hb
    rw [waiting_enqueueTasks, waiting_setBucket]
    rw [enqueueTasks_hash, setBucket_apply] at hb
    split at hb
    · next hba =>
      obtain rfl := some_inj.1 hb
      rw [hba]
      exact hc a fb ha
    · exact hc b fb' hb
  · simp only [enqueueTasks, setBucket_phase, if_neg htw]
    rw [hh]
    rfl

/-- A thread that gives its count back to a bucket in which it is not waiting spoils the counter
of that bucket. -/
theorem countersExact_leave_iff (hc : CountersExact s) {f h : Addr} {fb : FutexBucket T}
    (hp : s.phase t = .woken f h) (ha : s.hash f = some fb) :
    CountersExact ((s.setBucket f { fb with waiters := fb.waiters - 1 }).setPhase t .idle) ↔
      f = h := by
  by_cases hfh : f = h
  · have hother : ∀ b, b ≠ f → ((s.phase t).home = some b ↔ Phase.idle.home = some b) := by
      intro b hb
      rw [hp]
      simp [Phase.home, ← hfh, Ne.symm hb]
    rw [countersExact_setBucket_setPhase hc ha hother, hp]
    simp [Phase.home, hfh]
  · have hcard := card_waiting_setPhase (s.setBucket f { fb with waiters := fb.waiters - 1 }) t .idle f
    simp only [waiting_setBucket, setBucket_phase, hp, Phase.home, some_inj,
      Ne.symm hfh, if_false, reduceCtorEq] at hcard
    refine iff_of_false ?_ hfh
    intro h'
    have hf := h' f _ (setBucket_self ..)
    simp only at hf
    rw [hcard, ← hc f fb ha] at hf
    omega

/-- The threads waiting after the section of `futex_requeue`: the woken ones are still waiting where
they were, the moved ones have changed bucket. -/
theorem card_waiting_requeue (h : Wf s) {a₁ a₂ : Addr} {fb₁ fb₁' fb₂' : FutexBucket T} {w m r : List T}
    (hne : a₁ ≠ a₂) (h1 : s.hash a₁ = some fb₁) (hq : fb₁.q = w ++ (m ++ r))
    (htq : (s.phase t).queued = none) (hth : (s.phase t).home = none) (a : Addr) :
    ((waiting (((((s.setBucket a₁ fb₁').setBucket a₂ fb₂').enqueueTasks w).moveAll m a₂).setPhase t
      .idle) a).card : ℤ) =
      (waiting s a).card - (if a = a₁ then (m.length : ℤ) else 0) +
        (if a = a₂ then (m.length : ℤ) else 0) := by
  have hnd : (w ++ (m ++ r)).Nodup := hq ▸ h.nodup h1
  have hnd' : (m ++ r).Nodup := (nodup_append.1 hnd).2.1
  have hmq : ∀ u ∈ m, (s.phase u).queued = some a₁ := by
    intro u hu
    rw [← h.queue h1 u, hq]
    exact mem_append_right _ (mem_append_left _ hu)
  have ht : ∀ u, (s.phase u).queued = some a₁ → u ≠ t := by
    intro u hu hut
    rw [hut, htq] at hu
    exact absurd hu (by simp)
  have htw : t ∉ w := by
    intro htw
    have : t ∈ fb₁.q := hq ▸ mem_append_left _ htw
    exact ht t ((h.queue h1 t).1 this) rfl
  let s₁ := ((s.setBucket a₁ fb₁).enqueueTasks w).setPhase t .idle
  have hcard1 : ((waiting s₁ a).card : ℤ) = (waiting s a).card := by
    rw [card_waiting_setPhase, waiting_enqueueTasks, waiting_setBucket]
    have hph : ((s.setBucket a₁ fb₁).enqueueTasks w).phase t = s.phase t := by
      simp only [enqueueTasks, setBucket_phase, if_neg htw]
    rw [hph, hth]
    simp [Phase.home]
  have hm1 : ∀ u ∈ m, (s₁.phase u).queued = some a₁ := by
    intro u hu
    have huw : u ∉ w := fun huw =>
      (nodup_append.1 hnd).2.2 u huw u (mem_append_left _ hu) rfl
    rw [setPhase_apply, if_neg (ht u (hmq u hu))]
    simp only [enqueueTasks, setBucket_phase, if_neg huw]
    exact hmq u hu
  rw [requeue_eq_wake_move s t a₁ a₂ fb₁, ← hcard1]
  exact card_waiting_moveAll hne (nodup_append.1 hnd').1 hm1 a

/-- The section of `futex_requeue` takes one too many from the counter of the first bucket for
every thread it wakes. -/
theorem countersExact_requeue_iff (h : Wf s) (hc : CountersExact s) {a₁ a₂ : Addr}
    {fb₁ fb₁' fb₂ fb₂' : FutexBucket T} {w m r : List T} (hne : a₁ ≠ a₂)
    (h1 : s.hash a₁ = some fb₁) (h2 : s.hash a₂ = some fb₂) (hq : fb₁.q = w ++ (m ++ r))
    (hw1 : fb₁'.waiters = fb₁.waiters - w.length - m.length)
    (hw2 : fb₂'.waiters = fb₂.waiters + m.length)
    (htq : (s.phase t).queued = none) (hth : (s.phase t).home = none) :
    CountersExact (((((s.setBucket a₁ fb₁').setBucket a₂ fb₂').enqueueTasks w).moveAll m
      a₂).setPhase t .idle) ↔ w = [] := by
  have hhash : ∀ b, (((((s.setBucket a₁ fb₁').setBucket a₂ fb₂').enqueueTasks w).moveAll m
      a₂).setPhase t .idle).hash b =
      if b = a₂ then some fb₂' else if b = a₁ then some fb₁' else s.hash b := by
    intro b
    rw [setPhase_hash, moveAll_hash, enqueueTasks_hash, setBucket_apply,
      setBucket_apply]
  constructor
  · intro hex
    have h₁' := hex a₁ fb₁' (by rw [hhash, if_neg hne, if_pos rfl])
    rw [card_waiting_requeue h hne h1 hq htq hth, if_pos rfl, if_neg hne, hw1, ← hc a₁ fb₁ h1] at h₁'
    rw [← length_eq_zero_iff]
    omega
  · intro hw b fb hb
    rw [hhash] at hb
    rw [card_waiting_requeue h hne h1 hq htq hth]
    split at hb
    · next hb2 =>
      obtain rfl := some_inj.1 hb
      rw [hb2, if_neg (Ne.symm hne), if_pos rfl, ← hc a₂ fb₂ h2, hw2]
      ring
    · next hb2 =>
      split at hb
      · next hb1 =>
        obtain rfl := some_inj.1 hb
        rw [hb1, if_pos rfl, if_neg hne, ← hc a₁ fb₁ h1, hw1, hw]
        simp
      · next hb1 =>
        rw [if_neg hb1, if_neg hb2, hc b fb hb]
        ring

omit [Fintype T] [DecidableEq T] in
theorem stepBalanced_requeue_iff {a₁ a₂ : Addr} {nrWake nrRequeue : ℤ} {fb : FutexBucket T}
    (hp : s.phase t = .requeueBoth a₁ a₂ nrWake nrRequeue) (ha : s.hash a₁ = some fb) :
    StepBalanced s (.futexRequeue t) ↔ a₁ = a₂ ∨ fb.q = [] ∨ nrWake ≤ 0 := by
  constructor
  · intro hb
    exact hb a₁ a₂ nrWake nrRequeue fb hp ha
  · intro hb b₁ b₂ n₁ n₂ fb' hp' ha'
    rw [hp, Phase.requeueBoth.injEq] at hp'
    obtain ⟨rfl, rfl, rfl, rfl⟩ := hp'
    rw [ha, some_inj] at ha'
    exact ha' ▸ hb

/-- One step keeps the counters right exactly when it is balanced. -/
theorem countersExact_step_iff {e : Event T} (h : Wf s) (hc : CountersExact s)
    (hs : step s e = some s') : CountersExact s' ↔ StepBalanced s e := by
  cases steps_of_step hs with
  | store hp => exact iff_of_true hc trivial
  | @waitCall t a val hp =>
    refine iff_of_true (countersExact_setPhase (countersExact_libosGetBucket h hc a) ?_) trivial
    rw [libosGetBucket_phase, hp]
    rfl
  | @waitLock t a val fb hp ha hl =>
    have hother : ∀ b, b ≠ a →
        ((s.phase t).home = some b ↔ (Phase.waitLocked a val).home = some b) := by
      intro b hb
      rw [hp]
      simp [Phase.home, Ne.symm hb]
    refine iff_of_true ((countersExact_setBucket_setPhase hc ha hother).2 ?_) trivial
    rw [hp]
    simp [Phase.home]
  | getFirst hp => exact iff_of_true (countersExact_setPhase hc (by rw [hp]; rfl)) trivial
  | getAgain hp => exact iff_of_true (countersExact_setPhase hc (by rw [hp]; rfl)) trivial
  | @giveUp t a val uval left fb hp ha =>
    have hother : ∀ b, b ≠ a → ((s.phase t).home = some b ↔ Phase.idle.home = some b) := by
      intro b hb
      rw [hp]
      simp [Phase.home, Ne.symm hb]
    refine iff_of_true ((countersExact_setBucket_setPhase hc ha hother).2 ?_) trivial
    rw [hp]
    simp [Phase.home]
  | @sleep t a val uval left fb hp ha =>
    have hother : ∀ b, b ≠ a →
        ((s.phase t).home = some b ↔ (Phase.asleep a a).home = some b) := by
      intro b hb
      rw [hp]
      simp [Phase.home, Ne.symm hb]
    refine iff_of_true ((countersExact_setBucket_setPhase hc ha hother).2 ?_) trivial
    rw [hp]
    simp [Phase.home, FutexBucket.enqueue]
  | @leave t f hm fb hp ha =>
    rw [countersExact_leave_iff hc hp ha]
    simp [StepBalanced, hp]
  | wakeNoBucket hp ha => exact iff_of_true hc trivial
  | wakeCall hp ha => exact iff_of_true (countersExact_setPhase hc (by rw [hp]; rfl)) trivial
  | wakeNoWaiter hp ha hl hw =>
    exact iff_of_true (countersExact_setPhase hc (by rw [hp]; rfl)) trivial
  | @wake t a nrWake fb w r hp ha hl hw hr =>
    have hmem : ∀ u ∈ w, u ∈ fb.q := fun u hu => mem_of_mem_take (hw ▸ hu)
    exact iff_of_true (countersExact_wake h hc ha hmem (by rw [hp]; rfl) (by rw [hp]; rfl)) trivial
  | requeueNoBucket hp => exact iff_of_true hc trivial
  | requeueCall hp ha => exact iff_of_true (countersExact_setPhase hc (by rw [hp]; rfl)) trivial
  | @requeueBucket t a₁ a₂ nrWake nrRequeue hp =>
    refine iff_of_true (countersExact_setPhase (countersExact_libosGetBucket h hc a₂) ?_) trivial
    rw [libosGetBucket_phase, hp]
    rfl
  | @requeueSelf t a nrWake nrRequeue fb hp ha hl =>
    rw [stepBalanced_requeue_iff hp ha]
    have hother : ∀ b, b ≠ a →
        ((s.phase t).home = some b ↔ (Phase.selfLocked a).home = some b) := by
      intro b _
      rw [hp]
      rfl
    refine iff_of_true ((countersExact_setBucket_setPhase hc ha hother).2 ?_) (Or.inl rfl)
    rw [hp]
    simp [Phase.home]
  | @requeueNoWaiter t a₁ a₂ nrWake nrRequeue fb hp ha hne hw =>
    -- an exact counter that is zero belongs to an empty queue
    have hnil : fb.q = [] := (h.waitersExact_iff.2 hc).queue_nil a₁ fb ha hw
    rw [stepBalanced_requeue_iff hp ha]
    exact iff_of_true (countersExact_setPhase hc (by rw [hp]; rfl)) (Or.inr (Or.inl hnil))
  | @requeue t a₁ a₂ nrWake nrRequeue fb₁ fb₂ w m r hp h1 h2 hne hq hw =>
    rw [stepBalanced_requeue_iff hp h1, countersExact_requeue_iff h hc hne h1 h2 hq rfl rfl
      (by rw [hp]; rfl) (by rw [hp]; rfl), hw, take_eq_nil_iff, or_iff_right hne, or_comm]
    refine or_congr_right ?_
    omega

/-! ### Whole runs -/

theorem waitersExact_step_iff {e : Event T} (h : Wf s) (hw : WaitersExact s)
    (hs : step s e = some s') : WaitersExact s' ↔ StepBalanced s e := by
  rw [(wf_step h hs).waitersExact_iff]
  exact countersExact_step_iff h hw.eq_card hs

omit [DecidableEq T] in
theorem waitersExact_init (word : Addr → UInt32) : WaitersExact (init word : State T) :=
  (wf_init word).waitersExact_iff.2 (countersExact_init word)

/-- **When the counters are right.**  They are right in every state of a run if and only if no step
of it is a `futex_requeue` that wakes a thread or the departure of a thread from a bucket in which
it is not waiting. -/
theorem allStates_waitersExact_iff (word : Addr → UInt32) (es : List (Event T)) :
    Transition.AllStates step WaitersExact (init word) es ↔
      Transition.AllSteps step StepBalanced (init word) es :=
  allStates_iff_allSteps (fun _ _ _ => wf_step)
    (fun _ _ _ h hw hs => waitersExact_step_iff h hw hs) es (wf_init word) (waitersExact_init word)

/-! ### A counter that becomes negative -/

omit [Fintype T] in
/-- The polling loop of a thread whose word keeps the expected value. -/
theorem run_poll {a : Addr} {val : UInt32} (n : ℕ) {k : ℕ}
    (hp : s.phase t = .polling a val val (n + k)) (hw : s.word a = val) :
    run step s (replicate n (.getUserVal t)) =
      some (s.setPhase t (.polling a val val k)) := by
  induction n generalizing s with
  | zero =>
    have hself : s.setPhase t (.polling a val val k) = s := by
      rw [Nat.zero_add] at hp
      unfold setPhase
      rw [← hp, Function.update_eq_self]
    rw [replicate_zero, run_nil, hself]
  | succ n ih =>
    have hleft : n + 1 + k = (n + k) + 1 := by omega
    have hs : step s (.getUserVal t) = some (s.setPhase t (.polling a val val (n + k))) := by
      rw [hleft] at hp
      simp [step, getUserVal, hp, hw]
    have hidem : (s.setPhase t (.polling a val val (n + k))).setPhase t (.polling a val val k) =
        s.setPhase t (.polling a val val k) := by
      simp [setPhase]
    rw [replicate_succ, run_cons, hs, Option.bind_some,
      ih (setPhase_self ..) hw, hidem]

/-- Thread `0` waits on the word at address `0` until it falls asleep; thread `1` wakes it with
`futex_requeue(0, 4, 1, 0)`; thread `0` leaves. -/
def requeueRun : List (Event (Fin 2)) :=
  [.waitCall 0 0 0, .waitLock 0, .getUserVal 0] ++ (replicate maxWait (.getUserVal 0) ++
    [.waitDecide 0, .requeueCall 1 0 4 1 0, .requeueBucket 1, .futexRequeue 1, .waitLeave 0])

/-- After that run the counter of the bucket is `-1`. -/
theorem requeue_loses_count :
    ∃ s, run step (init fun _ => 0) requeueRun = some s ∧
      (s.hash 0).map FutexBucket.waiters = some (-1) ∧ ¬ WaitersExact s := by
  obtain ⟨s₁, h₁, hp₁, hw₁, hs₁⟩ : ∃ s₁ : State (Fin 2),
      run step (init fun _ => 0) [.waitCall 0 0 0, .waitLock 0, .getUserVal 0] =
        some s₁ ∧ s₁.phase 0 = .polling 0 0 0 maxWait ∧ s₁.word 0 = 0 ∧
      ((run step (s₁.setPhase 0 (.polling 0 0 0 0))
        [.waitDecide 0, .requeueCall 1 0 4 1 0, .requeueBucket 1, .futexRequeue 1,
          .waitLeave 0]).bind fun s => (s.hash 0).map FutexBucket.waiters) = some (-1) :=
    ⟨_, rfl, rfl, rfl, rfl⟩
  obtain ⟨s, h₂, hs⟩ := Option.bind_eq_some_iff.1 hs₁
  refine ⟨s, ?_, hs, ?_⟩
  · rw [requeueRun, run_append, h₁, Option.bind_some, run_append,
      run_poll (k := 0) maxWait hp₁ hw₁, Option.bind_some, h₂]
  · intro hex
    obtain ⟨fb, hfb, hneg⟩ := Option.map_eq_some_iff.1 hs
    have := hex.nonneg 0 fb hfb
    omega

end Futex

/-
**The structural invariant of the futex buckets.**

Whatever the counter `waiters` says, the queues and the locks of the buckets always agree with the
threads: a thread is in the queue of a bucket exactly when it sleeps there, the holder of a
bucket's lock is exactly the thread that is between its lock and its unlock, and the buckets a
thread refers to exist.  None of this depends on how `futex_requeue` treats the counter, so it is
proved here for every run, and `Futex/Waiters.lean` and `Futex/Wakeup.lean` build on it.

Main definition: `Wf`.  Main results: `wf_step`, `wf_run`.
-/

import SgxElps.Futex.Basic
import Mathlib.Tactic.Common
import SgxElps.Lib.Participants

namespace Futex

open Option (some_inj)
open List
open Transition
open Function
open State

variable {T : Type}

/-! ### What a phase says about the buckets -/

/-- The bucket in whose queue the thread is. -/
def Phase.queued : Phase → Option Addr
  | .asleep _ h => some h
  | _ => none

/-- The bucket whose lock the thread holds. -/
def Phase.checking : Phase → Option Addr
  | .waitLocked a _ => some a
  | .polling a _ _ _ => some a
  | .selfLocked a => some a
  | _ => none

/-- The buckets the thread has a pointer to, or is queued in. -/
def Phase.refs : Phase → List Addr
  | .idle => []
  | .waitBucket a _ => [a]
  | .waitLocked a _ => [a]
  | .polling a _ _ _ => [a]
  | .asleep f h => [f, h]
  | .woken f h => [f, h]
  | .wakeBucket a _ => [a]
  | .requeueFirst a₁ _ _ _ => [a₁]
  | .requeueBoth a₁ a₂ _ _ => [a₁, a₂]
  | .selfLocked a => [a]

theorem Phase.mem_refs_of_queued {p : Phase} {a : Addr} (h : p.queued = some a) : a ∈ p.refs := by
  cases p <;> simp_all [queued, refs]

theorem Phase.mem_refs_of_checking {p : Phase} {a : Addr} (h : p.checking = some a) :
    a ∈ p.refs := by
  cases p <;> simp_all [checking, refs]

theorem Phase.mem_refs_of_home {p : Phase} {a : Addr} (h : p.home = some a) : a ∈ p.refs := by
  cases p <;> simp_all [home, refs]

@[simp] theorem Phase.wake_home (p : Phase) : p.wake.home = p.home := by cases p <;> rfl

@[simp] theorem Phase.wake_checking (p : Phase) : p.wake.checking = p.checking := by
  cases p <;> rfl

@[simp] theorem Phase.wake_queued (p : Phase) : p.wake.queued = none := by cases p <;> rfl

@[simp] theorem Phase.wake_refs (p : Phase) : p.wake.refs = p.refs := by cases p <;> rfl

@[simp] theorem Phase.moveTo_checking (p : Phase) (a : Addr) : (p.moveTo a).checking = p.checking := by
  cases p <;> rfl

theorem Phase.moveTo_of_queued {p : Phase} {a h : Addr} (hp : p.queued = some h) :
    (p.moveTo a).queued = some a ∧ (p.moveTo a).home = some a ∧ p.home = some h := by
  cases p <;> simp_all [queued, moveTo, home]

theorem Phase.moveTo_refs_subset (p : Phase) (a : Addr) :
    ∀ b ∈ (p.moveTo a).refs, b ∈ p.refs ∨ b = a := by
  cases p <;> simp [moveTo, refs]

section Update

variable (s : State T) (a : Addr) (fb : FutexBucket T)

@[simp] theorem State.setBucket_phase : (s.setBucket a fb).phase = s.phase := rfl

@[simp] theorem State.setBucket_self : (s.setBucket a fb).hash a = some fb :=
  update_self ..

@[simp] theorem State.libosGetBucket_phase : (s.libosGetBucket a).phase = s.phase := by
  unfold libosGetBucket
  cases s.hash a <;> rfl

theorem State.libosGetBucket_slept : (s.libosGetBucket a).slept = s.slept := by
  unfold libosGetBucket
  cases s.hash a <;> rfl

theorem State.setBucket_apply (b : Addr) :
    (s.setBucket a fb).hash b = if b = a then some fb else s.hash b :=
  update_apply ..

variable [DecidableEq T] (t : T) (p : Phase)

@[simp] theorem State.setPhase_hash : (s.setPhase t p).hash = s.hash := rfl

@[simp] theorem State.setPhase_self : (s.setPhase t p).phase t = p := update_self ..

@[simp] theorem State.enqueueTasks_hash (ts : List T) : (s.enqueueTasks ts).hash = s.hash := rfl

@[simp] theorem State.moveAll_hash (ts : List T) : (s.moveAll ts a).hash = s.hash := rfl

theorem State.setPhase_apply (u : T) :
    (s.setPhase t p).phase u = if u = t then p else s.phase u :=
  update_apply ..

end Update

/-! ### The invariant -/

/-- Queues, locks and pointers agree with the threads' phases. -/
structure Wf (s : State T) : Prop where
  queue : ∀ {a : Addr} {fb : FutexBucket T}, s.hash a = some fb →
    ∀ t, t ∈ fb.q ↔ (s.phase t).queued = some a
  nodup : ∀ {a : Addr} {fb : FutexBucket T}, s.hash a = some fb → fb.q.Nodup
  lock : ∀ {a : Addr} {fb : FutexBucket T}, s.hash a = some fb →
    ∀ t, fb.lock = some t ↔ (s.phase t).checking = some a
  refs : ∀ t, ∀ a ∈ (s.phase t).refs, (s.hash a).isSome

theorem wf_init (word : Addr → UInt32) : Wf (init word : State T) where
  queue h := by simp [init] at h
  nodup h := by simp [init] at h
  lock h := by simp [init] at h
  refs t a ha := by simp [init, Phase.refs] at ha

namespace Wf

variable [DecidableEq T] {s s' : State T} {t : T}

theorem setPhase (h : Wf s) {p : Phase} (hq : p.queued = (s.phase t).queued)
    (hc : p.checking = (s.phase t).checking) (hr : ∀ a ∈ p.refs, (s.hash a).isSome) :
    Wf (s.setPhase t p) where
  queue {a fb} hfb u := by
    rw [h.queue hfb, setPhase_apply]
    split
    · next hu => rw [hq, hu]
    · rfl
  nodup hfb := h.nodup hfb
  lock {a fb} hfb u := by
    rw [h.lock hfb, setPhase_apply]
    split
    · next hu => rw [hc, hu]
    · rfl
  refs u a ha := by
    rw [setPhase_apply] at ha
    split at ha
    · exact hr a ha
    · exact h.refs u a ha

omit [DecidableEq T] in
theorem libosGetBucket (h : Wf s) (a : Addr) : Wf (s.libosGetBucket a) := by
  unfold State.libosGetBucket
  cases ha : s.hash a with
  | some fb => exact h
  | none =>
    have hnew : ∀ u, a ∉ (s.phase u).refs := by
      intro u hu
      have := h.refs u a hu
      rw [ha] at this
      exact absurd this (by simp)
    constructor
    · intro b fb hb u
      rw [setBucket_apply] at hb
      split at hb
      · next hba =>
        subst hba
        obtain rfl := some_inj.1 hb
        have : (s.phase u).queued ≠ some b := fun hu => hnew u (Phase.mem_refs_of_queued hu)
        simp [FutexBucket.new, this]
      · exact h.queue hb u
    · intro b fb hb
      rw [setBucket_apply] at hb
      split at hb
      · obtain rfl := some_inj.1 hb
        simp [FutexBucket.new]
      · exact h.nodup hb
    · intro b fb hb u
      rw [setBucket_apply] at hb
      split at hb
      · next hba =>
        subst hba
        obtain rfl := some_inj.1 hb
        have : (s.phase u).checking ≠ some b :=
          fun hu => hnew u (Phase.mem_refs_of_checking hu)
        simp [FutexBucket.new, this]
      · exact h.lock hb u
    · intro u b hb
      rw [setBucket_apply]
      split
      · rfl
      · exact h.refs u b hb

omit [DecidableEq T] in
theorem libosGetBucket_isSome (s : State T) (a : Addr) : ((s.libosGetBucket a).hash a).isSome := by
  unfold State.libosGetBucket
  cases ha : s.hash a with
  | some fb => simp [ha]
  | none => simp

/-- One bucket changes and one thread moves: it is enough to check that bucket. -/
theorem setBucket_setPhase (h : Wf s) {a : Addr} {fb' : FutexBucket T} {p : Phase}
    (hnd : fb'.q.Nodup)
    (hq : ∀ u, u ∈ fb'.q ↔ ((s.setPhase t p).phase u).queued = some a)
    (hl : ∀ u, fb'.lock = some u ↔ ((s.setPhase t p).phase u).checking = some a)
    (hq' : ∀ b, b ≠ a → ((s.phase t).queued = some b ↔ p.queued = some b))
    (hc' : ∀ b, b ≠ a → ((s.phase t).checking = some b ↔ p.checking = some b))
    (hr : ∀ b ∈ p.refs, (s.hash b).isSome) : Wf ((s.setBucket a fb').setPhase t p) := by
  have hph : ((s.setBucket a fb').setPhase t p).phase = (s.setPhase t p).phase := rfl
  have hsome : ∀ b, (s.hash b).isSome → ((s.setBucket a fb').hash b).isSome := by
    intro b hb
    rw [setBucket_apply]
    split
    · rfl
    · exact hb
  constructor
  · intro b fb₁ hb u
    rw [setPhase_hash, setBucket_apply] at hb
    rw [hph]
    split at hb
    · next hba =>
      obtain rfl := some_inj.1 hb
      rw [hba]
      exact hq u
    · next hba =>
      rw [h.queue hb u, setPhase_apply]
      split
      · next hu => rw [hu]; exact hq' b hba
      · rfl
  · intro b fb₁ hb
    rw [setPhase_hash, setBucket_apply] at hb
    split at hb
    · obtain rfl := some_inj.1 hb
      exact hnd
    · exact h.nodup hb
  · intro b fb₁ hb u
    rw [setPhase_hash, setBucket_apply] at hb
    rw [hph]
    split at hb
    · next hba =>
      obtain rfl := some_inj.1 hb
      rw [hba]
      exact hl u
    · next hba =>
      rw [h.lock hb u, setPhase_apply]
      split
      · next hu => rw [hu]; exact hc' b hba
      · rfl
  · intro u b hb
    rw [setPhase_apply] at hb
    split at hb
    · exact hsome b (hr b hb)
    · exact hsome b (h.refs u b hb)

omit [DecidableEq T] in
theorem congr (h : Wf s) (hh : s'.hash = s.hash) (hp : s'.phase = s.phase) : Wf s' where
  queue hfb u := by rw [hp]; exact h.queue (hh ▸ hfb) u
  nodup hfb := h.nodup (hh ▸ hfb)
  lock hfb u := by rw [hp]; exact h.lock (hh ▸ hfb) u
  refs u a ha := by rw [hh]; rw [hp] at ha; exact h.refs u a ha

omit [DecidableEq T] in
/-- A free lock: no thread is between its lock and its unlock. -/
theorem checking_ne (h : Wf s) {a : Addr} {fb : FutexBucket T} (ha : s.hash a = some fb)
    (hl : fb.lock = none) (u : T) : (s.phase u).checking ≠ some a := by
  intro hu
  have := (h.lock ha u).2 hu
  rw [hl] at this
  exact absurd this (by simp)

/-- The threads `w` leave the queue of `a`, woken; the thread `t` returns. -/
theorem wake (h : Wf s) {a : Addr} {fb fb' : FutexBucket T} {w r : List T}
    (ha : s.hash a = some fb) (hq : fb.q = w ++ r) (hq' : fb'.q = r) (hl : fb'.lock = fb.lock)
    (htq : (s.phase t).queued = none) (htc : (s.phase t).checking = none) :
    Wf (((s.setBucket a fb').enqueueTasks w).setPhase t .idle) := by
  have hnd : (w ++ r).Nodup := hq ▸ h.nodup ha
  have hw : ∀ u ∈ w, (s.phase u).queued = some a := fun u hu =>
    (h.queue ha u).1 (hq ▸ mem_append_left _ hu)
  have hqueued : ∀ b u, ((((s.setBucket a fb').enqueueTasks w).setPhase t .idle).phase u).queued =
      some b ↔ (s.phase u).queued = some b ∧ u ∉ w := by
    intro b u
    rw [setPhase_apply]
    split
    · next hu =>
      rw [hu, htq]
      simp [Phase.queued]
    · simp only [enqueueTasks, setBucket_phase]
      split
      · next huw => simp [huw]
      · next huw => simp [huw]
  have hchecking : ∀ u, ((((s.setBucket a fb').enqueueTasks w).setPhase t .idle).phase u).checking =
      (s.phase u).checking := by
    intro u
    rw [setPhase_apply]
    split
    · next hu => rw [hu, htc]; rfl
    · simp only [enqueueTasks, setBucket_phase]
      split <;> simp
  constructor
  · intro b fb₁ hb u
    rw [setPhase_hash, enqueueTasks_hash, setBucket_apply] at hb
    rw [hqueued]
    split at hb
    · next hba =>
      obtain rfl := some_inj.1 hb
      have hdisj : u ∈ w → u ∉ r := fun huw hur =>
        (nodup_append.1 hnd).2.2 u huw u hur rfl
      rw [hba, ← h.queue ha u, hq, hq', mem_append]
      tauto
    · next hba =>
      rw [h.queue hb u]
      refine ⟨fun hu => ⟨hu, fun huw => hba ?_⟩, fun hu => hu.1⟩
      rw [hw u huw] at hu
      exact (some_inj.1 hu).symm
  · intro b fb₁ hb
    rw [setPhase_hash, enqueueTasks_hash, setBucket_apply] at hb
    split at hb
    · obtain rfl := some_inj.1 hb
      rw [hq']
      exact (nodup_append.1 hnd).2.1
    · exact h.nodup hb
  · intro b fb₁ hb u
    rw [setPhase_hash, enqueueTasks_hash, setBucket_apply] at hb
    rw [hchecking]
    split at hb
    · next hba =>
      obtain rfl := some_inj.1 hb
      rw [hl, hba, h.lock ha u]
    · exact h.lock hb u
  · intro u b hb
    rw [setPhase_hash, enqueueTasks_hash, setBucket_apply]
    split
    · rfl
    · refine h.refs u b ?_
      rw [setPhase_apply] at hb
      split at hb
      · simp [Phase.refs] at hb
      · simp only [enqueueTasks, setBucket_phase] at hb
        split at hb <;> simpa using hb

/-- The threads `m` move from the end `m ++ r` of the queue of `a₁` to the queue of `a₂`. -/
theorem move (h : Wf s) {a₁ a₂ : Addr} {fb₁ fb₁' fb₂ fb₂' : FutexBucket T} {m r : List T}
    (hne : a₁ ≠ a₂) (h1 : s.hash a₁ = some fb₁) (h2 : s.hash a₂ = some fb₂)
    (hq1 : fb₁.q = m ++ r) (hq₁' : fb₁'.q = r) (hl1 : fb₁'.lock = fb₁.lock)
    (hq₂' : fb₂'.q = fb₂.q ++ m) (hl2 : fb₂'.lock = fb₂.lock) :
    Wf (((s.setBucket a₁ fb₁').setBucket a₂ fb₂').moveAll m a₂) := by
  have hnd : (m ++ r).Nodup := hq1 ▸ h.nodup h1
  have hm : ∀ u ∈ m, (s.phase u).queued = some a₁ := fun u hu =>
    (h.queue h1 u).1 (hq1 ▸ mem_append_left _ hu)
  have hqueued : ∀ b u, ((((s.setBucket a₁ fb₁').setBucket a₂ fb₂').moveAll m a₂).phase u).queued =
      some b ↔ if u ∈ m then b = a₂ else (s.phase u).queued = some b := by
    intro b u
    simp only [moveAll, setBucket_phase]
    split
    · next hu => rw [(Phase.moveTo_of_queued (hm u hu)).1, some_inj, eq_comm]
    · rfl
  have hchecking : ∀ u, ((((s.setBucket a₁ fb₁').setBucket a₂ fb₂').moveAll m a₂).phase u).checking =
      (s.phase u).checking := by
    intro u
    simp only [moveAll, setBucket_phase]
    split <;> simp
  have hhash : ∀ b, (((s.setBucket a₁ fb₁').setBucket a₂ fb₂').moveAll m a₂).hash b =
      if b = a₂ then some fb₂' else if b = a₁ then some fb₁' else s.hash b := by
    intro b
    rw [moveAll_hash, setBucket_apply, setBucket_apply]
  constructor
  · intro b fb hb u
    rw [hhash] at hb
    rw [hqueued]
    split at hb
    · next hb2 =>
      obtain rfl := some_inj.1 hb
      rw [hq₂', mem_append, h.queue h2 u, hb2]
      split
      · next hu => simp [hu]
      · next hu => simp [hu]
    · next hb2 =>
      split at hb
      · next hb1 =>
        obtain rfl := some_inj.1 hb
        have hdisj : u ∈ m → u ∉ r := fun hum hur =>
          (nodup_append.1 hnd).2.2 u hum u hur rfl
        rw [hq₁', hb1, ← h.queue h1 u, hq1, mem_append]
        split
        · next hu => simp [hdisj hu, hne]
        · next hu => simp [hu]
      · next hb1 =>
        rw [h.queue hb u]
        split
        · next hu =>
          rw [hm u hu, some_inj]
          exact ⟨fun hc => absurd hc.symm hb1, fun hc => absurd hc hb2⟩
        · rfl
  · intro b fb hb
    rw [hhash] at hb
    split at hb
    · obtain rfl := some_inj.1 hb
      rw [hq₂', nodup_append]
      refine ⟨h.nodup h2, (nodup_append.1 hnd).1, ?_⟩
      intro u hu2 v hv huv
      have h₂' := (h.queue h2 u).1 hu2
      rw [huv, hm v hv, some_inj] at h₂'
      exact hne h₂'
    · split at hb
      · obtain rfl := some_inj.1 hb
        rw [hq₁']
        exact (nodup_append.1 hnd).2.1
      · exact h.nodup hb
  · intro b fb hb u
    rw [hhash] at hb
    rw [hchecking]
    split at hb
    · next hb2 =>
      obtain rfl := some_inj.1 hb
      rw [hl2, hb2, h.lock h2 u]
    · split at hb
      · next hb1 =>
        obtain rfl := some_inj.1 hb
        rw [hl1, hb1, h.lock h1 u]
      · exact h.lock hb u
  · intro u b hb
    rw [hhash]
    split
    · rfl
    · next hb2 =>
      split
      · rfl
      · refine h.refs u b ?_
        simp only [moveAll, setBucket_phase] at hb
        split at hb
        · exact (Phase.moveTo_refs_subset _ _ b hb).resolve_right hb2
        · exact hb

end Wf

/-! ### Every step keeps the invariant -/

section Steps

variable [DecidableEq T] {s s' : State T} {t : T}

theorem lock_iff (h : Wf s) {a : Addr} {fb : FutexBucket T} {p : Phase} (ha : s.hash a = some fb)
    (hl : fb.lock = none) (hp : p.checking = some a) (u : T) :
    some t = some u ↔ ((s.setPhase t p).phase u).checking = some a := by
  rw [setPhase_apply]
  split
  · next hu => simp [hu, hp]
  · next hu => simp [h.checking_ne ha hl u, Ne.symm hu]

theorem unlock_iff (h : Wf s) {a : Addr} {fb : FutexBucket T} {p : Phase} (ha : s.hash a = some fb)
    (ht : (s.phase t).checking = some a) (hp : p.checking = none) (u : T) :
    (none : Option T) = some u ↔ ((s.setPhase t p).phase u).checking = some a := by
  rw [setPhase_apply]
  split
  · simp [hp]
  · next hu =>
    have hlock := (h.lock ha t).2 ht
    have : (s.phase u).checking ≠ some a := by
      intro hc
      have := (h.lock ha u).2 hc
      rw [hlock, some_inj] at this
      exact hu this.symm
    simp [this]

theorem queue_iff (h : Wf s) {a : Addr} {fb : FutexBucket T} {p : Phase} (ha : s.hash a = some fb)
    (ht : (s.phase t).queued = none) (hp : p.queued = none) (u : T) :
    u ∈ fb.q ↔ ((s.setPhase t p).phase u).queued = some a := by
  rw [h.queue ha, setPhase_apply]
  split
  · next hu => rw [hu, ht, hp]
  · rfl

omit [DecidableEq T] in
theorem libosGetBucket_isSome_of {a b : Addr} (hb : (s.hash b).isSome) :
    ((s.libosGetBucket a).hash b).isSome := by
  unfold State.libosGetBucket
  cases ha : s.hash a with
  | some fb => exact hb
  | none =>
    simp only
    rw [setBucket_apply]
    split
    · rfl
    · exact hb

/-- The section of `futex_requeue` wakes threads as `futex_wake` does and then moves some. -/
theorem requeue_eq_wake_move (s : State T) (t : T) (a₁ a₂ : Addr) (fb fb₁' fb₂' : FutexBucket T)
    (w m : List T) :
    ((((s.setBucket a₁ fb₁').setBucket a₂ fb₂').enqueueTasks w).moveAll m a₂).setPhase t .idle =
      ((((((s.setBucket a₁ fb).enqueueTasks w).setPhase t .idle).setBucket a₁ fb₁').setBucket a₂
        fb₂').moveAll m a₂) := by
  simp only [setBucket, enqueueTasks, moveAll, setPhase, State.mk.injEq,
    update_idem, true_and, and_true]
  funext u
  by_cases hu : u = t
  · subst hu
    simp [Phase.moveTo]
  · simp [update_of_ne hu]

theorem wf_step {e : Event T} (h : Wf s) (hs : step s e = some s') : Wf s' := by
  cases steps_of_step hs with
  | store hp => exact h.congr rfl rfl
  | @waitCall t a val hp =>
    refine (h.libosGetBucket a).setPhase ?_ ?_ ?_
    · rw [libosGetBucket_phase, hp]; rfl
    · rw [libosGetBucket_phase, hp]; rfl
    · intro b hb
      rw [Phase.refs, mem_singleton] at hb
      rw [hb]
      exact Wf.libosGetBucket_isSome s a
  | @waitLock t a val fb hp ha hl =>
    have hq : (s.phase t).queued = none := by rw [hp]; rfl
    have hqi := queue_iff (p := .waitLocked a val) h ha hq rfl
    have hnd : fb.q.Nodup := h.nodup ha
    refine h.setBucket_setPhase hnd hqi (lock_iff h ha hl rfl) ?_ ?_ ?_
    · intro b _
      rw [hp]
      rfl
    · intro b hb
      rw [hp]
      simp [Phase.checking, Ne.symm hb]
    · intro b hb
      rw [Phase.refs, mem_singleton] at hb
      rw [hb, ha]
      rfl
  | @getFirst t a val hp =>
    exact h.setPhase (by rw [hp]; rfl) (by rw [hp]; rfl)
      (fun b hb => h.refs t b (by rw [hp]; exact hb))
  | @getAgain t a val uval left hp =>
    exact h.setPhase (by rw [hp]; rfl) (by rw [hp]; rfl)
      (fun b hb => h.refs t b (by rw [hp]; exact hb))
  | @giveUp t a val uval left fb hp ha =>
    have hq : (s.phase t).queued = none := by rw [hp]; rfl
    have hc : (s.phase t).checking = some a := by rw [hp]; rfl
    have hqi := queue_iff (p := .idle) h ha hq rfl
    have hnd : fb.q.Nodup := h.nodup ha
    refine h.setBucket_setPhase hnd hqi (unlock_iff h ha hc rfl) ?_ ?_ ?_
    · intro b _
      rw [hq]
      rfl
    · intro b hb
      rw [hc]
      simp [Phase.checking, Ne.symm hb]
    · intro b hb
      simp [Phase.refs] at hb
  | @sleep t a val uval left fb hp ha =>
    have hq : (s.phase t).queued = none := by rw [hp]; rfl
    have hc : (s.phase t).checking = some a := by rw [hp]; rfl
    have htq : t ∉ fb.q := by
      rw [h.queue ha t, hq]
      simp
    refine Wf.congr (s := (s.setBucket a { fb.enqueue t with lock := none }).setPhase t
      (.asleep a a)) ?_ rfl rfl
    refine h.setBucket_setPhase ?_ ?_ (unlock_iff h ha hc rfl) ?_ ?_ ?_
    · simp only [FutexBucket.enqueue]
      rw [nodup_append]
      refine ⟨h.nodup ha, nodup_cons.2 ⟨not_mem_nil, nodup_nil⟩, ?_⟩
      intro u hu v hv
      rw [mem_singleton] at hv
      exact fun huv => htq (hv ▸ huv ▸ hu)
    · intro u
      simp only [FutexBucket.enqueue, mem_append, mem_singleton]
      rw [h.queue ha, setPhase_apply]
      split
      · next hu => simp [hu, Phase.queued]
      · next hu => simp [hu]
    · intro b hb
      rw [hq]
      simp [Phase.queued, Ne.symm hb]
    · intro b hb
      rw [hc]
      simp [Phase.checking, Ne.symm hb]
    · intro b hb
      have hba : b = a := by simpa [Phase.refs] using hb
      rw [hba, ha]
      rfl
  | @leave t f hm fb hp ha =>
    have hq : (s.phase t).queued = none := by rw [hp]; rfl
    have hc : (s.phase t).checking = none := by rw [hp]; rfl
    have hqi := queue_iff (p := .idle) h ha hq rfl
    have hnd : fb.q.Nodup := h.nodup ha
    refine h.setBucket_setPhase hnd hqi ?_ ?_ ?_ ?_
    · intro u
      rw [h.lock ha, setPhase_apply]
      split
      · next hu => rw [hu, hc]; rfl
      · rfl
    · intro b _
      rw [hq]
      rfl
    · intro b _
      rw [hc]
      rfl
    · intro b hb
      simp [Phase.refs] at hb
  | wakeNoBucket hp ha => exact h
  | @wakeCall t a nr fb hp ha =>
    refine h.setPhase (by rw [hp]; rfl) (by rw [hp]; rfl) ?_
    intro b hb
    rw [Phase.refs, mem_singleton] at hb
    rw [hb, ha]
    rfl
  | wakeNoWaiter hp ha hl hw =>
    exact h.setPhase (by rw [hp]; rfl) (by rw [hp]; rfl) (by simp [Phase.refs])
  | @wake t a nrWake fb w r hp ha hl hw hr =>
    have hq : fb.q = w ++ r := by rw [hw, hr, take_append_drop]
    exact h.wake ha hq rfl rfl (by rw [hp]; rfl) (by rw [hp]; rfl)
  | requeueNoBucket hp => exact h
  | @requeueCall t a₁ a₂ nrWake nrRequeue fb hp ha =>
    refine h.setPhase (by rw [hp]; rfl) (by rw [hp]; rfl) ?_
    intro b hb
    rw [Phase.refs, mem_singleton] at hb
    rw [hb, ha]
    rfl
  | @requeueBucket t a₁ a₂ nrWake nrRequeue hp =>
    refine (h.libosGetBucket a₂).setPhase ?_ ?_ ?_
    · rw [libosGetBucket_phase, hp]; rfl
    · rw [libosGetBucket_phase, hp]; rfl
    · intro b hb
      simp only [Phase.refs, mem_cons, not_mem_nil, or_false] at hb
      rcases hb with rfl | rfl
      · exact libosGetBucket_isSome_of (h.refs t b (by rw [hp]; simp [Phase.refs]))
      · exact Wf.libosGetBucket_isSome s b
  | @requeueSelf t a nrWake nrRequeue fb hp ha hl =>
    have hq : (s.phase t).queued = none := by rw [hp]; rfl
    have hqi := queue_iff (p := .selfLocked a) h ha hq rfl
    have hnd : fb.q.Nodup := h.nodup ha
    refine h.setBucket_setPhase hnd hqi (lock_iff h ha hl rfl) ?_ ?_ ?_
    · intro b _
      rw [hp]
      rfl
    · intro b hb
      rw [hp]
      simp [Phase.checking, Ne.symm hb]
    · intro b hb
      rw [Phase.refs, mem_singleton] at hb
      rw [hb, ha]
      rfl
  | requeueNoWaiter hp ha hne hw =>
    exact h.setPhase (by rw [hp]; rfl) (by rw [hp]; rfl) (by simp [Phase.refs])
  | @requeue t a₁ a₂ nrWake nrRequeue fb₁ fb₂ w m r hp h1 h2 hne hq hw =>
    let fb : FutexBucket T := { fb₁ with q := m ++ r }
    let s₁ := ((s.setBucket a₁ fb).enqueueTasks w).setPhase t .idle
    have hwake : Wf s₁ := h.wake h1 hq rfl rfl (by rw [hp]; rfl) (by rw [hp]; rfl)
    have h₁' : s₁.hash a₁ = some fb := setBucket_self ..
    have h₂' : s₁.hash a₂ = some fb₂ := by
      rw [setPhase_hash, enqueueTasks_hash, setBucket_apply,
        if_neg (Ne.symm hne), h2]
    rw [requeue_eq_wake_move s t a₁ a₂ fb]
    exact hwake.move hne h₁' h₂' rfl rfl rfl rfl rfl

/-- **The structural invariant holds in every run.** -/
theorem wf_run (word : Addr → UInt32) {es : List (Event T)}
    (hrun : run step (init word) es = some s) : Wf s :=
  run_induction (fun _ _ _ => wf_step) es (wf_init word) hrun

/-- A thread holds the lock of a bucket and another one has come to the same address. -/
theorem wf_run_locked :
    ∃ s : State (Fin 2), run step (init fun _ => 0)
        [.waitCall 0 0 0, .waitLock 0, .waitCall 1 0 0] = some s ∧
      (s.hash 0).map FutexBucket.lock = some (some 0) ∧ Wf s := by
  obtain ⟨s, hrun, hlock⟩ : ∃ s : State (Fin 2), run step (init fun _ => 0)
      [.waitCall 0 0 0, .waitLock 0, .waitCall 1 0 0] = some s ∧
      (s.hash 0).map FutexBucket.lock = some (some 0) :=
    ⟨_, rfl, rfl⟩
  exact ⟨s, hrun, hlock, wf_run _ hrun⟩

end Steps

end Futex

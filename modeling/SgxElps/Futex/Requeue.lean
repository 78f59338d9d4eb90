/-
**One call of `futex_requeue`.**

`futex_requeue` looks up two buckets, takes their locks in the order of the addresses, wakes some of the
threads of the first queue, moves some more to the second queue, and releases the locks.  Here the call
is one function with each `lock()` and `unlock()` of its own: a `lock()` on a lock that is held spins, and
the outcome says on which lock, and who holds it.

What it should do is said on the queues alone.  It does so for different addresses.  For equal addresses
the second `lock()` spins on the lock that the first one has taken.

Main definitions: `futexRequeueCall`, `RequeueOk`.  Main results: `requeueOk_iff`, `run_requeue`.
-/

import SgxElps.Futex.Basic

namespace Futex

open Function
open List
open Transition

variable {T : Type}

/-! ### The call -/

/-- The hash table of buckets. -/
abbrev Hash (T : Type) : Type := Addr → Option (FutexBucket T)

/-- `libos_get_bucket`, on the table. -/
def getBucket (hash : Hash T) (a : Addr) : Hash T :=
  match hash a with
  | none => update hash a (some .new)
  | some _ => hash

/-- `lock()` of the bucket at `a`; if the lock is held, where the thread spins and who holds it. -/
def lockBucket (t : T) (hash : Hash T) (a : Addr) : Except (Addr × T) (Hash T) :=
  match hash a with
  | none => .ok hash
  | some fb =>
      match fb.lock with
      | none => .ok (update hash a (some { fb with lock := some t }))
      | some u => .error (a, u)

def unlockBucket (hash : Hash T) (a : Addr) : Hash T :=
  match hash a with
  | none => hash
  | some fb => update hash a (some { fb with lock := none })

/-- "Double lock". -/
def lockBoth (t : T) (hash : Hash T) (a₁ a₂ : Addr) : Except (Addr × T) (Hash T) :=
  if a₁ > a₂ then (lockBucket t hash a₁).bind fun hash => lockBucket t hash a₂
  else (lockBucket t hash a₂).bind fun hash => lockBucket t hash a₁

/-- "Double unlock". -/
def unlockBoth (hash : Hash T) (a₁ a₂ : Addr) : Hash T :=
  if a₁ > a₂ then unlockBucket (unlockBucket hash a₂) a₁
  else unlockBucket (unlockBucket hash a₁) a₂

/-- The section between the locks: `ret`, the threads handed to `enqueueTask`, and the table. -/
def requeueLocked (hash : Hash T) (a₁ a₂ : Addr) (nrWake nrRequeue : ℤ) : ℤ × List T × Hash T :=
  match hash a₁, hash a₂ with
  | some fb₁, some fb₂ =>
      if fb₁.waiters = 0 then (0, [], hash)
      else
        let r := requeueWakeLoop nrWake fb₁ fb₁.q 0
        let r' := requeueMoveLoop nrRequeue r.1 fb₂ r.1.q 0
        (r.2.2, r.2.1, update (update hash a₁ (some r'.1)) a₂ (some r'.2.1))
  | _, _ => (0, [], hash)

/-- How a call ends: it spins on a lock, or it returns. -/
inductive Outcome (T : Type) where
  | spins (a : Addr) (holder : T)
  | returns (ret : ℤ) (woken : List T) (hash : Hash T)

/-- `futex_requeue`, called by the thread `t`. -/
def futexRequeueCall (t : T) (hash : Hash T) (a₁ a₂ : Addr) (nrWake nrRequeue : ℤ) : Outcome T :=
  match hash a₁ with
  | none => .returns 0 [] hash
  | some _ =>
      match lockBoth t (getBucket hash a₂) a₁ a₂ with
      | .error (a, u) => .spins a u
      | .ok hash =>
          let r := requeueLocked hash a₁ a₂ nrWake nrRequeue
          .returns r.1 r.2.1 (unlockBoth r.2.2 a₁ a₂)

/-! ### What it should do -/

/-- The threads that sleep at `a`; none if there is no bucket. -/
def queue (hash : Hash T) (a : Addr) : List T := ((hash a).map FutexBucket.q).getD []

/-- The thread that holds the lock at `a`. -/
def holder (hash : Hash T) (a : Addr) : Option T := (hash a).bind FutexBucket.lock

/-- The queue of `a₁` is split in three, in order: the threads that are woken, as many as `nrWake` says,
those that are moved to the end of the queue of `a₂`, as many as `nrRequeue` says, and the rest.  The
locks are as before. -/
def Requeued (old new : Hash T) (a₁ a₂ : Addr) (nrWake nrRequeue ret : ℤ) (woken : List T) : Prop :=
  ∃ moved rest, queue old a₁ = woken ++ (moved ++ rest) ∧
    (woken.length : ℤ) = min (max nrWake 0) (queue old a₁).length ∧
    (moved.length : ℤ) = min (max nrRequeue 0) (moved ++ rest).length ∧
    ret = woken.length ∧
    queue new = update (update (queue old) a₁ rest) a₂
      (update (queue old) a₁ rest a₂ ++ moved) ∧
    holder new = holder old

/-- The thread that holds the lock at `a` releases it.  It has worked on this bucket alone, whose counter is
still right. -/
def Released (hash hash' : Hash T) (a : Addr) : Prop :=
  ∃ fb : FutexBucket T, hash' = update hash a (some fb) ∧ fb.lock = none ∧
    (fb.q ≠ [] → fb.waiters ≠ 0)

/-- **The call returns and does what it should.**  If it spins, another thread holds the lock, and the call is
right from every table on in which that thread has released it. -/
inductive RequeueOk (t : T) (a₁ a₂ : Addr) (nrWake nrRequeue : ℤ) : Hash T → Prop
  | returns {hash new : Hash T} {ret : ℤ} {woken : List T}
      (hcall : futexRequeueCall t hash a₁ a₂ nrWake nrRequeue = .returns ret woken new)
      (h : Requeued hash new a₁ a₂ nrWake nrRequeue ret woken) : RequeueOk t a₁ a₂ nrWake nrRequeue hash
  | waits {hash : Hash T} {a : Addr} {u : T}
      (hcall : futexRequeueCall t hash a₁ a₂ nrWake nrRequeue = .spins a u) (hother : u ≠ t)
      (hheld : holder hash a = some u)
      (h : ∀ hash', Released hash hash' a → RequeueOk t a₁ a₂ nrWake nrRequeue hash') :
      RequeueOk t a₁ a₂ nrWake nrRequeue hash

/-! ### The locks -/

section Locks

variable {t u : T} {hash : Hash T} {a b : Addr} {fb fa : FutexBucket T}

theorem lockBucket_free (ha : hash a = some fb) (hl : fb.lock = none) :
    lockBucket t hash a = .ok (update hash a (some { fb with lock := some t })) := by
  simp only [lockBucket, ha, hl]

theorem lockBucket_held (ha : hash a = some fb) (hl : fb.lock = some u) :
    lockBucket t hash a = .error (a, u) := by
  simp only [lockBucket, ha, hl]

theorem lockTwo_free (hab : a ≠ b) (ha : hash a = some fa) (hb : hash b = some fb)
    (hla : fa.lock = none) (hlb : fb.lock = none) :
    ((lockBucket t hash a).bind fun hash => lockBucket t hash b) =
      .ok (update (update hash a (some { fa with lock := some t })) b
        (some { fb with lock := some t })) := by
  have hb' : update hash a (some { fa with lock := some t }) b = some fb := by
    rw [update_of_ne hab.symm, hb]
  rw [lockBucket_free ha hla]
  exact lockBucket_free hb' hlb

theorem lockTwo_held (hab : a ≠ b) (ha : hash a = some fa) (hb : hash b = some fb)
    (h : ¬ (fa.lock = none ∧ fb.lock = none)) :
    ∃ c u, (c = a ∨ c = b) ∧ holder hash c = some u ∧
      ((lockBucket t hash a).bind fun hash => lockBucket t hash b) = .error (c, u) := by
  cases hla : fa.lock with
  | some u =>
    refine ⟨a, u, Or.inl rfl, by simp [holder, ha, hla], ?_⟩
    rw [lockBucket_held ha hla]
    rfl
  | none =>
    obtain ⟨u, hlb⟩ := Option.ne_none_iff_exists'.1 fun hlb => h ⟨hla, hlb⟩
    have hb' : update hash a (some { fa with lock := some t }) b = some fb := by
      rw [update_of_ne hab.symm, hb]
    refine ⟨b, u, Or.inr rfl, by simp [holder, hb, hlb], ?_⟩
    rw [lockBucket_free ha hla]
    exact lockBucket_held hb' hlb

theorem lockBoth_free (hab : a ≠ b) (ha : hash a = some fa) (hb : hash b = some fb)
    (hla : fa.lock = none) (hlb : fb.lock = none) :
    lockBoth t hash a b = .ok (update (update hash a
      (some { fa with lock := some t })) b (some { fb with lock := some t })) := by
  unfold lockBoth
  split_ifs
  · exact lockTwo_free hab ha hb hla hlb
  · rw [lockTwo_free hab.symm hb ha hlb hla, update_comm hab]

theorem lockBoth_held (hab : a ≠ b) (ha : hash a = some fa) (hb : hash b = some fb)
    (h : ¬ (fa.lock = none ∧ fb.lock = none)) :
    ∃ c u, (c = a ∨ c = b) ∧ holder hash c = some u ∧ lockBoth t hash a b = .error (c, u) := by
  unfold lockBoth
  split_ifs
  · exact lockTwo_held hab ha hb h
  · obtain ⟨c, u, hc, hu⟩ := lockTwo_held hab.symm hb ha fun hfree => h hfree.symm
    exact ⟨c, u, hc.symm, hu⟩

theorem lockBoth_self (ha : hash a = some fa) :
    lockBoth t hash a a = .error (a, fa.lock.getD t) := by
  unfold lockBoth
  rw [if_neg (lt_irrefl a)]
  cases hla : fa.lock with
  | some u =>
    rw [lockBucket_held ha hla]
    rfl
  | none =>
    rw [lockBucket_free ha hla]
    exact lockBucket_held (update_self _ _ _) rfl

theorem unlockBucket_update (hash : Hash T) (a : Addr) (fb : FutexBucket T) :
    unlockBucket (update hash a (some fb)) a =
      update hash a (some { fb with lock := none }) := by
  simp only [unlockBucket, update_self, update_idem]

theorem unlockBucket_update_of_ne (hab : a ≠ b) (hash : Hash T) (fb : FutexBucket T) :
    unlockBucket (update hash a (some fb)) b =
      update (unlockBucket hash b) a (some fb) := by
  unfold unlockBucket
  rw [update_of_ne hab.symm]
  cases hash b with
  | none => rfl
  | some fb' => exact update_comm hab _ _ _

theorem update_twice (hab : a ≠ b) (hash : Hash T) (x x' y y' : Option (FutexBucket T)) :
    update (update (update (update hash a x) b y) a x') b y' =
      update (update hash a x') b y' := by
  rw [update_comm hab.symm, update_idem, update_idem]

theorem unlockBoth_update (hab : a ≠ b) (hash : Hash T) (fa fb : FutexBucket T) :
    unlockBoth (update (update hash a (some fa)) b (some fb)) a b =
      update (update hash a (some { fa with lock := none })) b
        (some { fb with lock := none }) := by
  unfold unlockBoth
  split_ifs
  · rw [unlockBucket_update, unlockBucket_update_of_ne hab.symm, unlockBucket_update]
  · rw [unlockBucket_update_of_ne hab.symm, unlockBucket_update, unlockBucket_update]

end Locks

/-! ### The call does what it should, for different addresses -/

section Call

variable {t : T} {hash : Hash T} {a₁ a₂ : Addr} {nrWake nrRequeue : ℤ} {fb₁ fb₂ : FutexBucket T}

theorem queue_update (hash : Hash T) (a : Addr) (fb : FutexBucket T) :
    queue (update hash a (some fb)) = update (queue hash) a fb.q := by
  funext b
  rcases eq_or_ne b a with rfl | hb
  · simp [queue]
  · simp [queue, hb]

theorem holder_update (hash : Hash T) (a : Addr) (fb : FutexBucket T) :
    holder (update hash a (some fb)) = update (holder hash) a fb.lock := by
  funext b
  rcases eq_or_ne b a with rfl | hb
  · simp [holder]
  · simp [holder, hb]

/-- Creating a bucket shows neither in the queues nor in the locks. -/
theorem getBucket_spec (hash : Hash T) (a : Addr) :
    (∃ fb, getBucket hash a a = some fb) ∧ (∀ b, b ≠ a → getBucket hash a b = hash b) ∧
      queue (getBucket hash a) = queue hash ∧ holder (getBucket hash a) = holder hash := by
  cases ha : hash a with
  | some fb =>
    have hget : getBucket hash a = hash := by simp only [getBucket, ha]
    rw [hget]
    exact ⟨⟨fb, ha⟩, fun _ _ => rfl, rfl, rfl⟩
  | none =>
    have hget : getBucket hash a = update hash a (some .new) := by
      simp only [getBucket, ha]
    rw [hget, queue_update, holder_update]
    refine ⟨⟨_, update_self _ _ _⟩, fun b hb => update_of_ne hb _ _, ?_, ?_⟩
    · have hq : queue hash a = [] := by simp [queue, ha]
      exact (congrArg (update (queue hash) a) hq.symm).trans (update_eq_self _ _)
    · have hl : holder hash a = none := by simp [holder, ha]
      exact (congrArg (update (holder hash) a) hl.symm).trans (update_eq_self _ _)

/-- The section between the locks.  The queue of `a₁` is split in three. -/
theorem requeueLocked_eq (nrWake nrRequeue : ℤ) (h1 : hash a₁ = some fb₁) (h2 : hash a₂ = some fb₂)
    (hw : fb₁.q ≠ [] → fb₁.waiters ≠ 0) :
    ∃ woken moved rest : List T, fb₁.q = woken ++ (moved ++ rest) ∧
      (woken.length : ℤ) = min (max nrWake 0) fb₁.q.length ∧
      (moved.length : ℤ) = min (max nrRequeue 0) (moved ++ rest).length ∧
      requeueLocked hash a₁ a₂ nrWake nrRequeue = ((woken.length : ℤ), woken,
        update (update hash a₁
          (some ⟨rest, fb₁.waiters - woken.length - moved.length, fb₁.lock⟩)) a₂
          (some ⟨fb₂.q ++ moved, fb₂.waiters + moved.length, fb₂.lock⟩)) := by
  by_cases hzero : fb₁.waiters = 0
  · -- no waiters: the queue is empty, and nothing happens
    have hq : fb₁.q = [] := by
      by_contra hne
      exact hw hne hzero
    have hself1 : some ⟨[], fb₁.waiters - 0 - 0, fb₁.lock⟩ = hash a₁ := by
      rw [h1, ← hq, Int.sub_zero, Int.sub_zero]
    have hself2 : some ⟨fb₂.q ++ [], fb₂.waiters + 0, fb₂.lock⟩ = hash a₂ := by
      rw [h2, append_nil, Int.add_zero]
    refine ⟨[], [], [], hq, by simp [hq], by simp, ?_⟩
    simp only [requeueLocked, h1, h2, if_pos hzero, length_nil, Nat.cast_zero]
    rw [hself1, update_eq_self, hself2, update_eq_self]
  · refine ⟨fb₁.q.take nrWake.toNat, (fb₁.q.drop nrWake.toNat).take nrRequeue.toNat,
      (fb₁.q.drop nrWake.toNat).drop nrRequeue.toNat, ?_, ?_, ?_, ?_⟩
    · rw [take_append_drop, take_append_drop]
    · rw [length_take]
      omega
    · rw [take_append_drop, length_take]
      omega
    · simp only [requeueLocked, h1, h2, if_neg hzero, requeueWakeLoop_eq, requeueMoveLoop_eq,
        Int.sub_zero, Int.zero_add]

/-- When both locks are free, the call is its section between the locks. -/
theorem futexRequeueCall_free (hne : a₁ ≠ a₂) (h1 : hash a₁ = some fb₁)
    (h2 : getBucket hash a₂ a₂ = some fb₂) (hl1 : fb₁.lock = none) (hl2 : fb₂.lock = none) :
    futexRequeueCall t hash a₁ a₂ nrWake nrRequeue =
      .returns (requeueLocked (getBucket hash a₂) a₁ a₂ nrWake nrRequeue).1
        (requeueLocked (getBucket hash a₂) a₁ a₂ nrWake nrRequeue).2.1
        (requeueLocked (getBucket hash a₂) a₁ a₂ nrWake nrRequeue).2.2 := by
  have h₁' : getBucket hash a₂ a₁ = some fb₁ := ((getBucket_spec hash a₂).2.1 a₁ hne).trans h1
  have hself1 : some { fb₁ with lock := none } = getBucket hash a₂ a₁ := by rw [h₁', ← hl1]
  have hself2 : some { fb₂ with lock := none } = getBucket hash a₂ a₂ := by rw [h2, ← hl2]
  simp only [futexRequeueCall, h1, lockBoth_free hne h₁' h2 hl1 hl2, requeueLocked, h₁', h2,
    update_self, update_of_ne hne]
  by_cases hzero : fb₁.waiters = 0
  · simp only [if_pos hzero, unlockBoth_update hne]
    rw [hself1, update_eq_self, hself2, update_eq_self]
  · simp only [if_neg hzero, requeueWakeLoop_eq, requeueMoveLoop_eq, update_twice hne,
      unlockBoth_update hne, hl1, hl2]

/-- **For different addresses and free locks the call does what it should.** -/
theorem requeueOk_of_free (hne : a₁ ≠ a₂) (h1 : hash a₁ = some fb₁) (hw : fb₁.q ≠ [] → fb₁.waiters ≠ 0)
    (h2 : getBucket hash a₂ a₂ = some fb₂) (hl1 : fb₁.lock = none) (hl2 : fb₂.lock = none) :
    RequeueOk t a₁ a₂ nrWake nrRequeue hash := by
  obtain ⟨-, hother, hqueue, hholder⟩ := getBucket_spec hash a₂
  obtain ⟨woken, moved, rest, hq, hwoken, hmoved, hlocked⟩ :=
    requeueLocked_eq nrWake nrRequeue ((hother a₁ hne).trans h1) h2 hw
  have hqueue1 : queue hash a₁ = fb₁.q := by simp [queue, h1]
  have hqueue2 : queue hash a₂ = fb₂.q := by rw [← hqueue]; simp [queue, h2]
  have hholder1 : holder hash a₁ = none := by simp [holder, h1, hl1]
  have hholder2 : holder hash a₂ = none := by rw [← hholder]; simp [holder, h2, hl2]
  refine .returns (futexRequeueCall_free hne h1 h2 hl1 hl2) ?_
  rw [hlocked]
  refine ⟨moved, rest, hqueue1.trans hq, by rw [hqueue1]; exact hwoken, hmoved, rfl, ?_, ?_⟩
  · rw [queue_update, queue_update, hqueue, update_of_ne hne.symm, hqueue2]
  · rw [holder_update, holder_update, hholder, hl1, hl2]
    rw [show none = holder hash a₁ from hholder1.symm, update_eq_self, hholder1,
      show none = holder hash a₂ from hholder2.symm, update_eq_self]

/-- How many of the two locks are held. -/
def locksHeld (hash : Hash T) (a₁ a₂ : Addr) : ℕ :=
  (holder hash a₁).toList.length + (holder hash a₂).toList.length

theorem Released.locksHeld_lt {hash' : Hash T} {a : Addr} {u : T} (h : Released hash hash' a)
    (hne : a₁ ≠ a₂) (ha : a = a₁ ∨ a = a₂) (hu : holder hash a = some u) :
    locksHeld hash' a₁ a₂ < locksHeld hash a₁ a₂ := by
  obtain ⟨fb, rfl, hfree, -⟩ := h
  unfold locksHeld
  rw [holder_update, hfree]
  rcases ha with rfl | rfl
  · rw [update_self, update_of_ne hne.symm, hu]
    simp
  · rw [update_self, update_of_ne hne, hu]
    simp

/-- **For different addresses the call returns and does what it should**, by induction on the number of locks
it has to wait for. -/
theorem requeueOk_of_ne (hne : a₁ ≠ a₂) (h1 : hash a₁ = some fb₁)
    (hw : fb₁.q ≠ [] → fb₁.waiters ≠ 0) (hself : ∀ a, holder hash a ≠ some t) :
    RequeueOk t a₁ a₂ nrWake nrRequeue hash := by
  induction hn : locksHeld hash a₁ a₂ using Nat.strong_induction_on generalizing hash fb₁ with
  | _ n ih =>
    obtain ⟨⟨fb₂, h2⟩, hother, -, hholder⟩ := getBucket_spec hash a₂
    have h₁' : getBucket hash a₂ a₁ = some fb₁ := (hother a₁ hne).trans h1
    by_cases hfree : fb₁.lock = none ∧ fb₂.lock = none
    · exact requeueOk_of_free hne h1 hw h2 hfree.1 hfree.2
    · obtain ⟨a, u, ha, hu, hspins⟩ := lockBoth_held (t := t) hne h₁' h2 hfree
      rw [hholder] at hu
      have hcall : futexRequeueCall t hash a₁ a₂ nrWake nrRequeue = .spins a u := by
        simp only [futexRequeueCall, h1, hspins]
      refine .waits hcall (fun heq => hself a (heq ▸ hu)) hu fun hash' hrel => ?_
      have hlt := hrel.locksHeld_lt hne ha hu
      obtain ⟨fb, rfl, hfb, hcount⟩ := hrel
      -- no lock has been taken, and the bucket of the first address is there with its counter
      have hself' : ∀ b, holder (update hash a (some fb)) b ≠ some t := fun b => by
        rw [holder_update, hfb]
        rcases eq_or_ne b a with rfl | hb
        · simp
        · rw [update_of_ne hb]
          exact hself b
      by_cases haa : a₁ = a
      · exact ih _ (hn ▸ hlt) (haa ▸ update_self _ _ _) hcount hself' rfl
      · exact ih _ (hn ▸ hlt) ((update_of_ne haa _ _).trans h1) hw hself' rfl

/-- For equal addresses the call spins, on its own lock unless another thread has it. -/
theorem futexRequeueCall_self (h1 : hash a₁ = some fb₁) :
    futexRequeueCall t hash a₁ a₁ nrWake nrRequeue = .spins a₁ (fb₁.lock.getD t) := by
  have hget : getBucket hash a₁ = hash := by simp only [getBucket, h1]
  simp only [futexRequeueCall, h1, hget, lockBoth_self h1]

/-- **For equal addresses the call never returns**, also if it has to wait for another thread first. -/
theorem not_requeueOk_self (h1 : hash a₁ = some fb₁) : ¬ RequeueOk t a₁ a₁ nrWake nrRequeue hash := by
  intro h
  induction h generalizing fb₁ with
  | returns hcall =>
    rw [futexRequeueCall_self h1] at hcall
    cases hcall
  | @waits hash a u hcall hother hheld _ ih =>
    rw [futexRequeueCall_self h1] at hcall
    cases hcall
    -- the other thread releases the lock, and the call takes it
    exact ih _ ⟨⟨[], 0, none⟩, rfl, rfl, fun h => absurd rfl h⟩ (update_self _ _ _)

/-- **The call is right if and only if the addresses differ.** -/
theorem requeueOk_iff (t : T) {hash : Hash T} {a₁ : Addr} {fb₁ : FutexBucket T} (a₂ : Addr)
    (nrWake nrRequeue : ℤ) (h₁ : hash a₁ = some fb₁) (hw : fb₁.q ≠ [] → fb₁.waiters ≠ 0)
    (hself : ∀ a, holder hash a ≠ some t) :
    RequeueOk t a₁ a₂ nrWake nrRequeue hash ↔ a₁ ≠ a₂ := by
  refine ⟨?_, fun hne => requeueOk_of_ne hne h₁ hw hself⟩
  rintro h rfl
  exact not_requeueOk_self h₁ h

end Call

/-! ### The call and the steps -/

section Steps

variable [DecidableEq T] {s : State T} {t : T} {a₁ a₂ : Addr} {nrWake nrRequeue : ℤ}
  {fb₁ fb₂ : FutexBucket T}

omit [DecidableEq T] in
theorem libosGetBucket_hash (s : State T) (a : Addr) :
    (s.libosGetBucket a).hash = getBucket s.hash a ∧ (s.libosGetBucket a).handed = s.handed := by
  unfold State.libosGetBucket getBucket
  cases s.hash a with
  | none => exact ⟨rfl, rfl⟩
  | some fb => exact ⟨rfl, rfl⟩

theorem futexRequeue_eq (hp : s.phase t = .requeueBoth a₁ a₂ nrWake nrRequeue) (hne : a₁ ≠ a₂)
    (h1 : s.hash a₁ = some fb₁) (h2 : s.hash a₂ = some fb₂) (hl1 : fb₁.lock = none)
    (hl2 : fb₂.lock = none) :
    ∃ s', futexRequeue s t = some s' ∧
      s'.hash = (requeueLocked s.hash a₁ a₂ nrWake nrRequeue).2.2 ∧ s'.phase t = .idle ∧
      ∀ u, s'.handed u =
        s.handed u + (requeueLocked s.hash a₁ a₂ nrWake nrRequeue).2.1.count u := by
  simp only [futexRequeue, hp, h1, h2, hl1, hl2, and_self, if_true, if_neg hne, requeueLocked]
  by_cases hzero : fb₁.waiters = 0
  · simp only [if_pos hzero]
    exact ⟨_, rfl, rfl, update_self _ _ _, fun u => rfl⟩
  · simp only [if_neg hzero]
    exact ⟨_, rfl, rfl, update_self _ _ _, fun u => rfl⟩

/-- The steps of the call, when the locks are free: the table they lead to is the table that the call
returns, and the threads that they hand to `enqueueTask` are those that it wakes. -/
theorem run_requeue (hp : s.phase t = .idle) (hne : a₁ ≠ a₂) (h1 : s.hash a₁ = some fb₁)
    (h2 : getBucket s.hash a₂ a₂ = some fb₂) (hl1 : fb₁.lock = none) (hl2 : fb₂.lock = none) :
    ∃ ret woken s', futexRequeueCall t s.hash a₁ a₂ nrWake nrRequeue = .returns ret woken s'.hash ∧
      run step s
        [.requeueCall t a₁ a₂ nrWake nrRequeue, .requeueBucket t, .futexRequeue t] = some s' ∧
      s'.phase t = .idle ∧ ∀ u, s'.handed u = s.handed u + woken.count u := by
  have hcall : requeueCall s t a₁ a₂ nrWake nrRequeue =
      some (s.setPhase t (.requeueFirst a₁ a₂ nrWake nrRequeue)) := by
    simp only [requeueCall, hp, h1, if_true]
  generalize hs1 : s.setPhase t (.requeueFirst a₁ a₂ nrWake nrRequeue) = s₁ at hcall
  have hp1 : s₁.phase t = .requeueFirst a₁ a₂ nrWake nrRequeue := by
    rw [← hs1]
    exact update_self _ _ _
  have hbucket : requeueBucket s₁ t =
      some ((s₁.libosGetBucket a₂).setPhase t (.requeueBoth a₁ a₂ nrWake nrRequeue)) := by
    simp only [requeueBucket, hp1]
  generalize hs2 : (s₁.libosGetBucket a₂).setPhase t (.requeueBoth a₁ a₂ nrWake nrRequeue) = s₂
    at hbucket
  have hp2 : s₂.phase t = .requeueBoth a₁ a₂ nrWake nrRequeue := by
    rw [← hs2]
    exact update_self _ _ _
  have hhash : s₂.hash = getBucket s.hash a₂ := by
    rw [← hs2, ← hs1]
    exact (libosGetBucket_hash _ a₂).1
  have hhanded : s₂.handed = s.handed := by
    rw [← hs2, ← hs1]
    exact (libosGetBucket_hash _ a₂).2
  have h₁' : s₂.hash a₁ = some fb₁ := by
    rw [hhash]
    exact ((getBucket_spec s.hash a₂).2.1 a₁ hne).trans h1
  obtain ⟨s', hstep, hs', hidle, hwoken⟩ :=
    futexRequeue_eq hp2 hne h₁' ((congrFun hhash a₂).trans h2) hl1 hl2
  rw [hhash] at hs' hwoken
  rw [hhanded] at hwoken
  refine ⟨(requeueLocked (getBucket s.hash a₂) a₁ a₂ nrWake nrRequeue).1, _, s', ?_, ?_, hidle, hwoken⟩
  · rw [futexRequeueCall_free hne h1 h2 hl1 hl2, hs']
  · refine run_cons_eq_some.2 ⟨s₁, hcall, ?_⟩
    refine run_cons_eq_some.2 ⟨s₂, hbucket, ?_⟩
    exact (run_singleton _ _).trans hstep

end Steps

/-! ### Two calls -/

/-- Three threads sleep at address `0`; there is no other bucket. -/
def threeAsleep : Hash ℕ := fun a => if a = 0 then some ⟨[1, 2, 3], 3, none⟩ else none

theorem threeAsleep_unlocked (a : Addr) (t : ℕ) : holder threeAsleep a ≠ some t := by
  rcases eq_or_ne a 0 with rfl | ha
  · simp [holder, threeAsleep]
  · simp [holder, threeAsleep, ha]

theorem run_requeue_threeAsleep :
    ∃ ret woken s', futexRequeueCall 7 threeAsleep 0 4 1 1 = .returns ret woken s'.hash ∧
      run step ⟨threeAsleep, fun _ => 0, fun _ => .idle, fun _ => 0, fun _ => 0⟩
        [.requeueCall 7 0 4 1 1, .requeueBucket 7, .futexRequeue 7] = some s' ∧
      s'.phase 7 = .idle ∧ ∀ u, s'.handed u = 0 + woken.count u :=
  run_requeue (s := ⟨threeAsleep, fun _ => 0, fun _ => .idle, fun _ => 0, fun _ => 0⟩) (t := 7) rfl
    (show (0 : Addr) ≠ 4 by decide) rfl rfl rfl rfl

theorem requeueOk_iff_threeAsleep : RequeueOk 7 0 4 1 1 threeAsleep :=
  (requeueOk_iff 7 4 1 1 (show threeAsleep 0 = some ⟨[1, 2, 3], 3, none⟩ from rfl) (by decide)
    fun a => threeAsleep_unlocked a 7).2 (by decide)

/-- **With equal addresses the call spins for ever on a lock that it holds itself.** -/
theorem requeue_spins_on_own_lock :
    ∃ fb₁, threeAsleep 0 = some fb₁ ∧ fb₁.waiters ≠ 0 ∧ (∀ a, holder threeAsleep a ≠ some 7) ∧
      futexRequeueCall 7 threeAsleep 0 0 1 1 = .spins 0 7 ∧ ¬ RequeueOk 7 0 0 1 1 threeAsleep :=
  have h₁ : threeAsleep 0 = some ⟨[1, 2, 3], 3, none⟩ := rfl
  ⟨⟨[1, 2, 3], 3, none⟩, h₁, by decide, fun a => threeAsleep_unlocked a 7,
    futexRequeueCall_self h₁, not_requeueOk_self h₁⟩

end Futex

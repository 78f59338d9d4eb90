/-
**The user-level futex: buckets, and the threads that use them.**

`libOS/futex.cpp` keeps one `FutexBucket` for each futex address, in a hash table under
`futexHashLock`.  A bucket has a spin lock, a queue of sleeping threads and the counter `waiters`.
This module translates the three operations on it — `libos_futex_wait`, `futex_wake` and
`futex_requeue` — into a step function on a state that holds the buckets, the futex words and, for
each thread, how far it has come in the call it is making.

The section that `futex_wake` or `futex_requeue` runs under a bucket's lock is one step.  The section
of `libos_futex_wait` is not: it reads the futex word again and again under the lock, and other
threads may store to the word in between, so taking the lock, every read and the final decision
are steps of their own, and the lock is a field of the bucket.

Main definitions: `FutexBucket`, `State`, `step`, `Steps`.  Main result: `steps_of_step`.
-/

import SgxElps.Lib.Transition
import Mathlib.Logic.Function.Basic
import Mathlib.Data.List.TakeDrop
import Mathlib.Tactic.Ring

namespace Futex

open Option (ite_none_right_eq_some some_inj)
open List
open Function

variable {T : Type}

/-- The address of a futex word. -/
abbrev Addr := ℕ

/-- `INT_MAX`. -/
def intMax : ℤ := 2147483647

/-- The bound on the polls in `libos_futex_wait`. -/
def maxWait : ℕ := 500000

/-! ### Buckets -/

/-- A `FutexBucket`; `lock` is the thread that holds its spin lock. -/
structure FutexBucket (T : Type) where
  /-- The threads asleep in this bucket, the first to be woken first. -/
  q : List T
  waiters : ℤ
  lock : Option T

/-- The constructor of `FutexBucket`. -/
def FutexBucket.new : FutexBucket T := ⟨[], 0, none⟩

def FutexBucket.enqueue (fb : FutexBucket T) (t : T) : FutexBucket T :=
  { fb with q := fb.q ++ [t] }

/-! ### The loops under the locks -/

/-- The loop of `futex_wake`: the queue that is left, the threads handed to `enqueueTask`, and
`ret`. -/
def wakeLoop (nrWake : ℤ) : List T → ℤ → List T × List T × ℤ
  | [], ret => ([], [], ret)
  | t :: q, ret =>
      if ret < nrWake then
        let r := wakeLoop nrWake q (ret + 1)
        (r.1, t :: r.2.1, r.2.2)
      else (t :: q, [], ret)

/-- The first loop of `futex_requeue`.  It is the loop of `futex_wake` with one difference: it
also decrements `waiters` for each thread it wakes. -/
def requeueWakeLoop (nrWake : ℤ) (fb : FutexBucket T) : List T → ℤ → FutexBucket T × List T × ℤ
  | [], ret => ({ fb with q := [] }, [], ret)
  | t :: q, ret =>
      if ret < nrWake then
        let r := requeueWakeLoop nrWake { fb with waiters := fb.waiters - 1 } q (ret + 1)
        (r.1, t :: r.2.1, r.2.2)
      else ({ fb with q := t :: q }, [], ret)

/-- The second loop of `futex_requeue`: the two buckets, and the threads that changed queue. -/
def requeueMoveLoop (nrRequeue : ℤ) (fb₁ fb₂ : FutexBucket T) :
    List T → ℤ → FutexBucket T × FutexBucket T × List T
  | [], _ => ({ fb₁ with q := [] }, fb₂, [])
  | t :: q, reqCount =>
      if reqCount < nrRequeue then
        let r := requeueMoveLoop nrRequeue { fb₁ with waiters := fb₁.waiters - 1 }
          { fb₂.enqueue t with waiters := fb₂.waiters + 1 } q (reqCount + 1)
        (r.1, r.2.1, t :: r.2.2)
      else ({ fb₁ with q := t :: q }, fb₂, [])

theorem wakeLoop_eq (nrWake : ℤ) (q : List T) (ret : ℤ) :
    wakeLoop nrWake q ret =
      (q.drop (nrWake - ret).toNat, q.take (nrWake - ret).toNat,
        ret + (q.take (nrWake - ret).toNat).length) := by
  induction q generalizing ret with
  | nil => simp [wakeLoop]
  | cons t q ih =>
    rw [wakeLoop]
    split
    · next hlt =>
      have hn : (nrWake - ret).toNat = (nrWake - (ret + 1)).toNat + 1 := by omega
      rw [ih, hn]
      simp only [drop_succ_cons, take_succ_cons, length_cons, Prod.mk.injEq,
        true_and]
      push_cast
      ring
    · next hge =>
      have hn : (nrWake - ret).toNat = 0 := by omega
      simp [hn]

theorem requeueWakeLoop_eq (nrWake : ℤ) (fb : FutexBucket T) (q : List T) (ret : ℤ) :
    requeueWakeLoop nrWake fb q ret =
      ({ fb with
          q := q.drop (nrWake - ret).toNat
          waiters := fb.waiters - (q.take (nrWake - ret).toNat).length },
        q.take (nrWake - ret).toNat, ret + (q.take (nrWake - ret).toNat).length) := by
  induction q generalizing ret fb with
  | nil => simp [requeueWakeLoop]
  | cons t q ih =>
    rw [requeueWakeLoop]
    split
    · next hlt =>
      have hn : (nrWake - ret).toNat = (nrWake - (ret + 1)).toNat + 1 := by omega
      rw [ih, hn]
      simp only [drop_succ_cons, take_succ_cons, length_cons, Prod.mk.injEq,
        FutexBucket.mk.injEq, true_and, and_true]
      push_cast
      constructor <;> ring
    · next hge =>
      have hn : (nrWake - ret).toNat = 0 := by omega
      simp [hn]

theorem requeueMoveLoop_eq (nrRequeue : ℤ) (fb₁ fb₂ : FutexBucket T) (q : List T) (reqCount : ℤ) :
    requeueMoveLoop nrRequeue fb₁ fb₂ q reqCount =
      ({ fb₁ with
          q := q.drop (nrRequeue - reqCount).toNat
          waiters := fb₁.waiters - (q.take (nrRequeue - reqCount).toNat).length },
        { fb₂ with
          q := fb₂.q ++ q.take (nrRequeue - reqCount).toNat
          waiters := fb₂.waiters + (q.take (nrRequeue - reqCount).toNat).length },
        q.take (nrRequeue - reqCount).toNat) := by
  induction q generalizing reqCount fb₁ fb₂ with
  | nil => simp [requeueMoveLoop]
  | cons t q ih =>
    rw [requeueMoveLoop]
    split
    · next hlt =>
      have hn : (nrRequeue - reqCount).toNat = (nrRequeue - (reqCount + 1)).toNat + 1 := by
        omega
      rw [ih, hn]
      simp only [FutexBucket.enqueue, drop_succ_cons, take_succ_cons,
        length_cons, Prod.mk.injEq, FutexBucket.mk.injEq, true_and, and_true,
        append_assoc, singleton_append]
      push_cast
      constructor <;> ring
    · next hge =>
      have hn : (nrRequeue - reqCount).toNat = 0 := by omega
      simp [hn]

/-! ### Threads -/

/-- How far a thread has come in the futex call it is making. -/
inductive Phase where
  /-- In none of the futex calls, or about to return from one. -/
  | idle
  /-- `libos_futex_wait` has its bucket from `libos_get_bucket` and waits for the lock. -/
  | waitBucket (addr : Addr) (val : UInt32)
  /-- `libos_futex_queue_lock` has returned; the word has not been read yet. -/
  | waitLocked (addr : Addr) (val : UInt32)
  /-- In the polling loop, with the last value read and the polls that are left. -/
  | polling (addr : Addr) (val uval : UInt32) (left : ℕ)
  /-- Asleep in `schedule`: `fb` is the bucket `libos_futex_wait` remembers, `home` the bucket in
  whose queue the thread is. -/
  | asleep (fb home : Addr)
  /-- Handed to `enqueueTask`; the last section of `libos_futex_wait` is still to come. -/
  | woken (fb home : Addr)
  /-- `futex_wake` has found its bucket; `nrWake` is `1` or `INT_MAX`. -/
  | wakeBucket (addr : Addr) (nrWake : ℤ)
  /-- `futex_requeue` has found its first bucket. -/
  | requeueFirst (addr₁ addr₂ : Addr) (nrWake nrRequeue : ℤ)
  /-- `futex_requeue` has both its buckets and waits for the locks. -/
  | requeueBoth (addr₁ addr₂ : Addr) (nrWake nrRequeue : ℤ)
  /-- `futex_requeue` spins on the lock of `addr`, which it holds itself. -/
  | selfLocked (addr : Addr)
deriving DecidableEq

/-- The bucket in which a thread is waiting: the one whose lock it took in `libos_futex_wait`, or the
one it was requeued to, until it leaves. -/
def Phase.home : Phase → Option Addr
  | .waitLocked a _ => some a
  | .polling a _ _ _ => some a
  | .asleep _ h => some h
  | .woken _ h => some h
  | _ => none

/-- The effect of `enqueueTask` on a sleeping thread. -/
def Phase.wake : Phase → Phase
  | .asleep f h => .woken f h
  | p => p

/-- The effect of the move by `futex_requeue` on a sleeping thread: it goes on remembering its old
bucket. -/
def Phase.moveTo (a : Addr) : Phase → Phase
  | .asleep f _ => .asleep f a
  | p => p

/-- The state of the futexes.  `slept` and `handed` count, for each thread, how often it was put in
a futex queue and how often it was handed to `enqueueTask`. -/
structure State (T : Type) where
  hash : Addr → Option (FutexBucket T)
  word : Addr → UInt32
  phase : T → Phase
  slept : T → ℕ
  handed : T → ℕ

/-- Before the first call there are no buckets and no thread is in a futex call. -/
def init (word : Addr → UInt32) : State T where
  hash _ := none
  word := word
  phase _ := .idle
  slept _ := 0
  handed _ := 0

section Step

variable [DecidableEq T]

def State.setBucket (s : State T) (a : Addr) (fb : FutexBucket T) : State T :=
  { s with hash := update s.hash a (some fb) }

def State.setPhase (s : State T) (t : T) (p : Phase) : State T :=
  { s with phase := update s.phase t p }

/-- `scheduler->enqueueTask` on the threads `ts`, in order. -/
def State.enqueueTasks (s : State T) (ts : List T) : State T :=
  { s with
    phase := fun t => if t ∈ ts then (s.phase t).wake else s.phase t
    handed := fun t => s.handed t + ts.count t }

def State.moveAll (s : State T) (ts : List T) (a : Addr) : State T :=
  { s with phase := fun t => if t ∈ ts then (s.phase t).moveTo a else s.phase t }

/-- `libos_get_bucket`: look the address up and create the bucket if there is none. -/
def State.libosGetBucket (s : State T) (a : Addr) : State T :=
  match s.hash a with
  | none => s.setBucket a .new
  | some _ => s

/-! ### The steps -/

/-- A thread outside the futex calls stores to a futex word. -/
def store (s : State T) (t : T) (a : Addr) (v : UInt32) : Option (State T) :=
  if s.phase t = .idle then some { s with word := update s.word a v } else none

/-- The call of `libos_futex_wait`, up to the return of `libos_get_bucket`. -/
def waitCall (s : State T) (t : T) (a : Addr) (val : UInt32) : Option (State T) :=
  if s.phase t = .idle then some ((s.libosGetBucket a).setPhase t (.waitBucket a val)) else none

/-- The rest of `libos_futex_queue_lock`: take the lock and count the waiter. -/
def waitLock (s : State T) (t : T) : Option (State T) :=
  match s.phase t with
  | .waitBucket a val =>
      match s.hash a with
      | some fb =>
          if fb.lock = none then
            some ((s.setBucket a { fb with lock := some t, waiters := fb.waiters + 1 }).setPhase t
              (.waitLocked a val))
          else none
      | none => none
  | _ => none

/-- `get_user_val`, the first time and in the loop: the loop goes on while the word has the
expected value and there are polls left. -/
def getUserVal (s : State T) (t : T) : Option (State T) :=
  match s.phase t with
  | .waitLocked a val => some (s.setPhase t (.polling a val (s.word a) maxWait))
  | .polling a val uval left =>
      if uval = val ∧ left ≠ 0 then some (s.setPhase t (.polling a val (s.word a) (left - 1)))
      else none
  | _ => none

/-- The end of the section: return if the word has changed (`libos_futex_queue_unlock`), else sleep
(`libos_futex_enqueue`) and unlock. -/
def waitDecide (s : State T) (t : T) : Option (State T) :=
  match s.phase t with
  | .polling a val uval left =>
      match s.hash a with
      | some fb =>
          if uval ≠ val then
            some ((s.setBucket a { fb with lock := none, waiters := fb.waiters - 1 }).setPhase t
              .idle)
          else if left = 0 then
            some { ((s.setBucket a { fb.enqueue t with lock := none }).setPhase t (.asleep a a)) with
              slept := update s.slept t (s.slept t + 1) }
          else none
      | none => none
  | _ => none

/-- The section of `libos_futex_wait` after `schedule` has returned.  It runs on the bucket the
thread remembers. -/
def waitLeave (s : State T) (t : T) : Option (State T) :=
  match s.phase t with
  | .woken f _ =>
      match s.hash f with
      | some fb =>
          if fb.lock = none then
            some ((s.setBucket f { fb with waiters := fb.waiters - 1 }).setPhase t .idle)
          else none
      | none => none
  | _ => none

/-- The argument of the wake loop: one thread or all of them. -/
def wakeCount (nr : UInt32) : ℤ := if nr ≠ 1 then intMax else 1

/-- The call of `futex_wake`, up to the lookup; without a bucket it returns at once. -/
def wakeCall (s : State T) (t : T) (a : Addr) (nr : UInt32) : Option (State T) :=
  if s.phase t = .idle then
    match s.hash a with
    | none => some s
    | some _ => some (s.setPhase t (.wakeBucket a (wakeCount nr)))
  else none

/-- The section of `futex_wake` under the bucket's lock, and its return. -/
def futexWake (s : State T) (t : T) : Option (State T) :=
  match s.phase t with
  | .wakeBucket a nrWake =>
      match s.hash a with
      | some fb =>
          if fb.lock = none then
            if fb.waiters = 0 then some (s.setPhase t .idle)
            else
              let r := wakeLoop nrWake fb.q 0
              some (((s.setBucket a { fb with q := r.1 }).enqueueTasks r.2.1).setPhase t .idle)
          else none
      | none => none
  | _ => none

/-- The call of `futex_requeue`, up to the lookup of the first address. -/
def requeueCall (s : State T) (t : T) (a₁ a₂ : Addr) (nrWake nrRequeue : ℤ) : Option (State T) :=
  if s.phase t = .idle then
    match s.hash a₁ with
    | none => some s
    | some _ => some (s.setPhase t (.requeueFirst a₁ a₂ nrWake nrRequeue))
  else none

/-- `futex_requeue` gets its second bucket. -/
def requeueBucket (s : State T) (t : T) : Option (State T) :=
  match s.phase t with
  | .requeueFirst a₁ a₂ nrWake nrRequeue =>
      some ((s.libosGetBucket a₂).setPhase t (.requeueBoth a₁ a₂ nrWake nrRequeue))
  | _ => none

/-- The section of `futex_requeue` under the two locks, and its return.  For equal addresses the
second `lock()` waits for the lock the first one has just taken. -/
def futexRequeue (s : State T) (t : T) : Option (State T) :=
  match s.phase t with
  | .requeueBoth a₁ a₂ nrWake nrRequeue =>
      match s.hash a₁, s.hash a₂ with
      | some fb₁, some fb₂ =>
          if fb₁.lock = none ∧ fb₂.lock = none then
            if a₁ = a₂ then
              some ((s.setBucket a₁ { fb₁ with lock := some t }).setPhase t (.selfLocked a₁))
            else if fb₁.waiters = 0 then some (s.setPhase t .idle)
            else
              let r := requeueWakeLoop nrWake fb₁ fb₁.q 0
              let r' := requeueMoveLoop nrRequeue r.1 fb₂ r.1.q 0
              some (((((s.setBucket a₁ r'.1).setBucket a₂ r'.2.1).enqueueTasks r.2.1).moveAll
                r'.2.2 a₂).setPhase t .idle)
          else none
      | _, _ => none
  | _ => none

/-- What can happen next: which thread moves, and what it is called with. -/
inductive Event (T : Type) where
  | store (t : T) (a : Addr) (v : UInt32)
  | waitCall (t : T) (a : Addr) (val : UInt32)
  | waitLock (t : T)
  | getUserVal (t : T)
  | waitDecide (t : T)
  | waitLeave (t : T)
  | wakeCall (t : T) (a : Addr) (nr : UInt32)
  | futexWake (t : T)
  | requeueCall (t : T) (a₁ a₂ : Addr) (nrWake nrRequeue : ℤ)
  | requeueBucket (t : T)
  | futexRequeue (t : T)

def step (s : State T) : Event T → Option (State T)
  | .store t a v => store s t a v
  | .waitCall t a val => waitCall s t a val
  | .waitLock t => waitLock s t
  | .getUserVal t => getUserVal s t
  | .waitDecide t => waitDecide s t
  | .waitLeave t => waitLeave s t
  | .wakeCall t a nr => wakeCall s t a nr
  | .futexWake t => futexWake s t
  | .requeueCall t a₁ a₂ nrWake nrRequeue => requeueCall s t a₁ a₂ nrWake nrRequeue
  | .requeueBucket t => requeueBucket s t
  | .futexRequeue t => futexRequeue s t

/-! ### What a step can do -/

/-- The cases of `Futex.step`, each with its guard and its effect: a proof about the steps is a case
analysis of this relation. -/
inductive Steps (s : State T) : Event T → State T → Prop
  | store {t : T} {a : Addr} {v : UInt32} (hp : s.phase t = .idle) :
      Steps s (.store t a v) { s with word := update s.word a v }
  | waitCall {t : T} {a : Addr} {val : UInt32} (hp : s.phase t = .idle) :
      Steps s (.waitCall t a val) ((s.libosGetBucket a).setPhase t (.waitBucket a val))
  | waitLock {t : T} {a : Addr} {val : UInt32} {fb : FutexBucket T}
      (hp : s.phase t = .waitBucket a val) (ha : s.hash a = some fb) (hl : fb.lock = none) :
      Steps s (.waitLock t)
        ((s.setBucket a { fb with lock := some t, waiters := fb.waiters + 1 }).setPhase t
          (.waitLocked a val))
  | getFirst {t : T} {a : Addr} {val : UInt32} (hp : s.phase t = .waitLocked a val) :
      Steps s (.getUserVal t) (s.setPhase t (.polling a val (s.word a) maxWait))
  | getAgain {t : T} {a : Addr} {val uval : UInt32} {left : ℕ}
      (hp : s.phase t = .polling a val uval left) :
      Steps s (.getUserVal t) (s.setPhase t (.polling a val (s.word a) (left - 1)))
  | giveUp {t : T} {a : Addr} {val uval : UInt32} {left : ℕ} {fb : FutexBucket T}
      (hp : s.phase t = .polling a val uval left) (ha : s.hash a = some fb) :
      Steps s (.waitDecide t)
        ((s.setBucket a { fb with lock := none, waiters := fb.waiters - 1 }).setPhase t .idle)
  | sleep {t : T} {a : Addr} {val uval : UInt32} {left : ℕ} {fb : FutexBucket T}
      (hp : s.phase t = .polling a val uval left) (ha : s.hash a = some fb) :
      Steps s (.waitDecide t)
        { ((s.setBucket a { fb.enqueue t with lock := none }).setPhase t (.asleep a a)) with
          slept := update s.slept t (s.slept t + 1) }
  | leave {t : T} {f h : Addr} {fb : FutexBucket T} (hp : s.phase t = .woken f h)
      (ha : s.hash f = some fb) :
      Steps s (.waitLeave t) ((s.setBucket f { fb with waiters := fb.waiters - 1 }).setPhase t .idle)
  | wakeNoBucket {t : T} {a : Addr} {nr : UInt32} (hp : s.phase t = .idle) (ha : s.hash a = none) :
      Steps s (.wakeCall t a nr) s
  | wakeCall {t : T} {a : Addr} {nr : UInt32} {fb : FutexBucket T} (hp : s.phase t = .idle)
      (ha : s.hash a = some fb) :
      Steps s (.wakeCall t a nr) (s.setPhase t (.wakeBucket a (wakeCount nr)))
  | wakeNoWaiter {t : T} {a : Addr} {nrWake : ℤ} {fb : FutexBucket T}
      (hp : s.phase t = .wakeBucket a nrWake) (ha : s.hash a = some fb) (hl : fb.lock = none)
      (hw : fb.waiters = 0) : Steps s (.futexWake t) (s.setPhase t .idle)
  | wake {t : T} {a : Addr} {nrWake : ℤ} {fb : FutexBucket T} {w r : List T}
      (hp : s.phase t = .wakeBucket a nrWake) (ha : s.hash a = some fb) (hl : fb.lock = none)
      (hw : w = fb.q.take nrWake.toNat) (hr : r = fb.q.drop nrWake.toNat) :
      Steps s (.futexWake t)
        (((s.setBucket a { fb with q := r }).enqueueTasks w).setPhase t .idle)
  | requeueNoBucket {t : T} {a₁ a₂ : Addr} {nrWake nrRequeue : ℤ} (hp : s.phase t = .idle) :
      Steps s (.requeueCall t a₁ a₂ nrWake nrRequeue) s
  | requeueCall {t : T} {a₁ a₂ : Addr} {nrWake nrRequeue : ℤ} {fb : FutexBucket T}
      (hp : s.phase t = .idle) (ha : s.hash a₁ = some fb) :
      Steps s (.requeueCall t a₁ a₂ nrWake nrRequeue)
        (s.setPhase t (.requeueFirst a₁ a₂ nrWake nrRequeue))
  | requeueBucket {t : T} {a₁ a₂ : Addr} {nrWake nrRequeue : ℤ}
      (hp : s.phase t = .requeueFirst a₁ a₂ nrWake nrRequeue) :
      Steps s (.requeueBucket t)
        ((s.libosGetBucket a₂).setPhase t (.requeueBoth a₁ a₂ nrWake nrRequeue))
  | requeueSelf {t : T} {a : Addr} {nrWake nrRequeue : ℤ} {fb : FutexBucket T}
      (hp : s.phase t = .requeueBoth a a nrWake nrRequeue) (ha : s.hash a = some fb)
      (hl : fb.lock = none) :
      Steps s (.futexRequeue t)
        ((s.setBucket a { fb with lock := some t }).setPhase t (.selfLocked a))
  | requeueNoWaiter {t : T} {a₁ a₂ : Addr} {nrWake nrRequeue : ℤ} {fb : FutexBucket T}
      (hp : s.phase t = .requeueBoth a₁ a₂ nrWake nrRequeue) (ha : s.hash a₁ = some fb)
      (hne : a₁ ≠ a₂) (hw : fb.waiters = 0) : Steps s (.futexRequeue t) (s.setPhase t .idle)
  | requeue {t : T} {a₁ a₂ : Addr} {nrWake nrRequeue : ℤ} {fb₁ fb₂ : FutexBucket T}
      {w m r : List T} (hp : s.phase t = .requeueBoth a₁ a₂ nrWake nrRequeue)
      (h₁ : s.hash a₁ = some fb₁) (h₂ : s.hash a₂ = some fb₂) (hne : a₁ ≠ a₂)
      (hq : fb₁.q = w ++ (m ++ r)) (hw : w = fb₁.q.take nrWake.toNat) :
      Steps s (.futexRequeue t)
        (((((s.setBucket a₁
            { fb₁ with q := r, waiters := fb₁.waiters - w.length - m.length }).setBucket a₂
            { fb₂ with q := fb₂.q ++ m, waiters := fb₂.waiters + m.length }).enqueueTasks w).moveAll m
            a₂).setPhase t .idle)

/-- **Inversion**: every step is one of these cases. -/
theorem steps_of_step {s s' : State T} {e : Event T} (h : step s e = some s') : Steps s e s' := by
  cases e with
  | store t a v =>
    simp only [step, Futex.store, ite_none_right_eq_some, some_inj] at h
    obtain ⟨hp, rfl⟩ := h
    exact .store hp
  | waitCall t a val =>
    simp only [step, Futex.waitCall, ite_none_right_eq_some, some_inj] at h
    obtain ⟨hp, rfl⟩ := h
    exact .waitCall hp
  | waitLock t =>
    simp only [step, Futex.waitLock] at h
    split at h
    case h_2 => cases h
    case h_1 a val hp =>
      split at h
      case h_2 => cases h
      case h_1 fb ha =>
        rw [ite_none_right_eq_some, some_inj] at h
        obtain ⟨hl, rfl⟩ := h
        exact .waitLock hp ha hl
  | getUserVal t =>
    simp only [step, Futex.getUserVal] at h
    split at h
    · next hp =>
      obtain rfl := some_inj.1 h
      exact .getFirst hp
    · next hp =>
      rw [ite_none_right_eq_some, some_inj] at h
      obtain ⟨-, rfl⟩ := h
      exact .getAgain hp
    · cases h
  | waitDecide t =>
    simp only [step, Futex.waitDecide] at h
    split at h
    case h_2 => cases h
    case h_1 a val uval left hp =>
      split at h
      case h_2 => cases h
      case h_1 fb ha =>
        split at h
        · obtain rfl := some_inj.1 h
          exact .giveUp hp ha
        · rw [ite_none_right_eq_some, some_inj] at h
          obtain ⟨-, rfl⟩ := h
          exact .sleep hp ha
  | waitLeave t =>
    simp only [step, Futex.waitLeave] at h
    split at h
    case h_2 => cases h
    case h_1 f hm hp =>
      split at h
      case h_2 => cases h
      case h_1 fb ha =>
        rw [ite_none_right_eq_some, some_inj] at h
        obtain ⟨-, rfl⟩ := h
        exact .leave hp ha
  | wakeCall t a nr =>
    simp only [step, Futex.wakeCall, ite_none_right_eq_some] at h
    obtain ⟨hp, h⟩ := h
    split at h
    · next ha =>
      obtain rfl := some_inj.1 h
      exact .wakeNoBucket hp ha
    · next fb ha =>
      obtain rfl := some_inj.1 h
      exact .wakeCall hp ha
  | futexWake t =>
    simp only [step, Futex.futexWake] at h
    split at h
    case h_2 => cases h
    case h_1 a nrWake hp =>
      split at h
      case h_2 => cases h
      case h_1 fb ha =>
        rw [ite_none_right_eq_some] at h
        obtain ⟨hl, h⟩ := h
        split at h
        · next hw =>
          obtain rfl := some_inj.1 h
          exact .wakeNoWaiter hp ha hl hw
        · obtain rfl := some_inj.1 h
          rw [wakeLoop_eq, Int.sub_zero]
          exact .wake hp ha hl rfl rfl
  | requeueCall t a₁ a₂ nrWake nrRequeue =>
    simp only [step, Futex.requeueCall, ite_none_right_eq_some] at h
    obtain ⟨hp, h⟩ := h
    split at h
    · obtain rfl := some_inj.1 h
      exact .requeueNoBucket hp
    · next fb ha =>
      obtain rfl := some_inj.1 h
      exact .requeueCall hp ha
  | requeueBucket t =>
    simp only [step, Futex.requeueBucket] at h
    split at h
    case h_2 => cases h
    case h_1 a₁ a₂ nrWake nrRequeue hp =>
      obtain rfl := some_inj.1 h
      exact .requeueBucket hp
  | futexRequeue t =>
    simp only [step, Futex.futexRequeue] at h
    split at h
    case h_2 => cases h
    case h_1 a₁ a₂ nrWake nrRequeue hp =>
      split at h
      case h_2 => cases h
      case h_1 fb₁ fb₂ h1 h2 =>
        rw [ite_none_right_eq_some] at h
        obtain ⟨hl, h⟩ := h
        split at h
        · next heq =>
          subst heq
          obtain rfl := some_inj.1 h
          exact .requeueSelf hp h1 hl.1
        · next hne =>
          split at h
          · next hw =>
            obtain rfl := some_inj.1 h
            exact .requeueNoWaiter hp h1 hne hw
          · obtain rfl := some_inj.1 h
            rw [requeueWakeLoop_eq, requeueMoveLoop_eq, Int.sub_zero, Int.sub_zero]
            refine .requeue hp h1 h2 hne ?_ rfl
            rw [take_append_drop, take_append_drop]

end Step

end Futex

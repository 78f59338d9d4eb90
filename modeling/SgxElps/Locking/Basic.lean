/-
**The locks of the scheduler.**

`Sched` takes the functions of the scheduler as they are under their locks.  Here every `lock()` and
`unlock()` of a `qLock` and a `seLock` is a step of its own, and so is each piece of code between two of
them, so that a CPU can be seen waiting for a lock while it holds others.

`enqueueTask` and `dequeueTask` take the lock of a queue and then that of the entity; `schedule` takes the
lock of the current entity and, inside, that of its queue; `loadBalance` takes the locks of two queues, the
one with the larger number first, and then those of the entities one after the other.

Main definitions: `Pc`, `State`, `step`, `Steps`.  Main result: `steps_of_step`.
-/

import SgxElps.Sched.Basic
import Mathlib.Order.Fin.Basic

namespace Locking

open Function

variable {n : ℕ} {E : Type}

/-! ### Locks and places in the code -/

inductive Lock (n : ℕ) (E : Type) where
  | qLock (c : Fin n)
  | seLock (e : E)
deriving DecidableEq

/-- What follows when a `qLock` has been taken: `seLock` is taken, the code under the two locks runs, and
both are released. -/
inductive Inner where
  | lockSe
  | body
  | unlockSe
  | unlockQ

/-- The part of `schedule` under the lock of `*current`; `queue` is its home queue. -/
inductive PutDown (n : ℕ) where
  | lockSe
  | test
  | lockQ (queue : Fin n)
  | push (queue : Fin n)
  | unlockQ (queue : Fin n)
  | stop
  | unlockSe

/-- One round of `loadBalance`.  The iterator is the rest of the list from its element on; after
`unlockSe` the loop goes on with the rest, or a task was pulled. -/
inductive Balance (E : Type) where
  | lockFirst
  | lockSecond
  | begin
  | scan (rest : List E)
  | lockSe (e : E) (rest : List E)
  | test (e : E) (rest : List E)
  | unlockSe (e : E) (rest : Option (List E))
  | unlockSecond (pulled : Bool)
  | unlockFirst (pulled : Bool)

/-- Where a CPU is.  `again` says that `loadBalance` has been called. -/
inductive Pc (n : ℕ) (E : Type) where
  | user
  | enqueueTask (e : E)
  | enqueue (e : E) (at_ : Inner)
  | dequeueTask (e : E) (queue : Fin n)
  | dequeue (e : E) (queue : Fin n) (at_ : Inner)
  | putDown (e : E) (at_ : PutDown n)
  | lockQueue (again : Bool)
  | test (again : Bool)
  | empty (again : Bool)
  | pick (e : E) (at_ : Inner)
  | goIdle
  | loop (i : ℕ)
  | balance (i : Fin n) (at_ : Balance E)

/-- The lock that the CPU is about to take. -/
def Pc.wants (c : Fin n) : Pc n E → Option (Lock n E)
  | .enqueueTask _ | .lockQueue _ => some (.qLock c)
  | .dequeueTask _ queue | .putDown _ (.lockQ queue) => some (.qLock queue)
  | .enqueue e .lockSe | .dequeue e _ .lockSe | .pick e .lockSe | .putDown e .lockSe
  | .balance _ (.lockSe e _) => some (.seLock e)
  | .balance i .lockFirst => some (.qLock (max c i))
  | .balance i .lockSecond => some (.qLock (min c i))
  | _ => none

def Pc.afterLock : Pc n E → Pc n E
  | .enqueueTask e => .enqueue e .lockSe
  | .enqueue e .lockSe => .enqueue e .body
  | .dequeueTask e queue => .dequeue e queue .lockSe
  | .dequeue e queue .lockSe => .dequeue e queue .body
  | .putDown e .lockSe => .putDown e .test
  | .putDown e (.lockQ queue) => .putDown e (.push queue)
  | .lockQueue again => .test again
  | .pick e .lockSe => .pick e .body
  | .balance i .lockFirst => .balance i .lockSecond
  | .balance i .lockSecond => .balance i .begin
  | .balance i (.lockSe e rest) => .balance i (.test e rest)
  | pc => pc

/-- The lock that the CPU is about to release. -/
def Pc.frees (c : Fin n) : Pc n E → Option (Lock n E)
  | .enqueue e .unlockSe | .dequeue e _ .unlockSe | .pick e .unlockSe | .putDown e .unlockSe
  | .balance _ (.unlockSe e _) => some (.seLock e)
  | .enqueue _ .unlockQ | .pick _ .unlockQ | .empty _ => some (.qLock c)
  | .dequeue _ queue .unlockQ | .putDown _ (.unlockQ queue) => some (.qLock queue)
  | .balance i (.unlockSecond _) => some (.qLock (min c i))
  | .balance i (.unlockFirst _) => some (.qLock (max c i))
  | _ => none

def Pc.afterUnlock : Pc n E → Pc n E
  | .enqueue e .unlockSe => .enqueue e .unlockQ
  | .dequeue e queue .unlockSe => .dequeue e queue .unlockQ
  | .pick e .unlockSe => .pick e .unlockQ
  -- `enqueueTask` and `dequeueTask` return; `schedule` goes on with `jumpTo` or returns
  | .enqueue _ .unlockQ | .dequeue _ _ .unlockQ | .pick _ .unlockQ => .user
  | .putDown e (.unlockQ _) => .putDown e .stop
  | .putDown _ .unlockSe => .lockQueue false
  | .empty false => .loop 0
  | .empty true => .goIdle
  | .balance i (.unlockSe _ (some rest)) => .balance i (.scan rest)
  | .balance i (.unlockSe _ none) => .balance i (.unlockSecond true)
  | .balance i (.unlockSecond pulled) => .balance i (.unlockFirst pulled)
  | .balance _ (.unlockFirst true) => .lockQueue true
  | .balance i (.unlockFirst false) => .loop (i + 1)
  | pc => pc

/-! ### The state -/

/-- `holder` tells which CPU has set the flag of a lock. -/
structure State (n : ℕ) (E : Type) where
  entity : E → Sched.SchedEntity (Fin n)
  runQueue : Fin n → List E
  current : Fin n → Option E
  holder : Lock n E → Option (Fin n)
  pc : Fin n → Pc n E

def init : State n E where
  entity _ := .new
  runQueue _ := []
  current _ := none
  holder _ := none
  pc _ := .user

/-- The events.  `run` is the code between two locks, with what it reads in `contextGood`. -/
inductive Event (n : ℕ) (E : Type) where
  | enqueueTask (c : Fin n) (e : E)
  | dequeueTask (c : Fin n)
  | schedule (c : Fin n)
  | lock (c : Fin n)
  | unlock (c : Fin n)
  | run (c : Fin n) (contextGood : Bool)
  | goIdle (c : Fin n) (e : E)

section Step

variable [DecidableEq E]

def State.setPc (s : State n E) (c : Fin n) (pc : Pc n E) : State n E :=
  { s with pc := update s.pc c pc }

def State.setEntity (s : State n E) (e : E) (se : Sched.SchedEntity (Fin n)) : State n E :=
  { s with entity := update s.entity e se }

/-! ### The steps -/

/-- `enqueueTask` under its locks. -/
def State.enqueue (s : State n E) (c : Fin n) (e : E) : State n E :=
  let se := s.entity e
  let link := !se.running && !se.onQueue
  { s.setEntity e
      { se with queue := if link then some c else se.oldQueue, oldQueue := none, onQueue := true } with
    runQueue := if link then update s.runQueue c (s.runQueue c ++ [e]) else s.runQueue }

/-- `dequeueTask` under its locks. -/
def State.dequeue (s : State n E) (e : E) (queue : Fin n) : State n E :=
  let se := s.entity e
  { s.setEntity e { se with oldQueue := se.queue, queue := none, onQueue := false } with
    runQueue :=
      if se.onQueue && !se.running then
        update s.runQueue queue ((s.runQueue queue).erase e)
      else s.runQueue }

/-- `queue->push_back(**current)`. -/
def State.push (s : State n E) (e : E) (queue : Fin n) : State n E :=
  { s with runQueue := update s.runQueue queue (s.runQueue queue ++ [e]) }

/-- `prev->running = false`. -/
def State.stop (s : State n E) (e : E) : State n E :=
  s.setEntity e { s.entity e with running := false }

/-- `running = true` and `pop_front`. -/
def State.pick (s : State n E) (c : Fin n) (e : E) : State n E :=
  { s.setEntity e { s.entity e with running := true } with
    runQueue := update s.runQueue c (s.runQueue c).tail }

/-- `loadBalance` moves a task from the queue of CPU `i` to that of CPU `c`. -/
def State.pull (s : State n E) (c i : Fin n) (e : E) : State n E :=
  let runQueue := update s.runQueue i ((s.runQueue i).erase e)
  { s.setEntity e { s.entity e with queue := some c } with
    runQueue := update runQueue c (runQueue c ++ [e]) }

/-- The code of CPU `c` between two locks; where an assertion fails there is no step. -/
def State.run (s : State n E) (c : Fin n) (contextGood : Bool) : Option (State n E) :=
  match s.pc c with
  | .enqueue e .body =>
      if (s.entity e).onQueue then none else some ((s.enqueue c e).setPc c (.enqueue e .unlockSe))
  | .dequeue e queue .body =>
      if (s.entity e).onQueue then
        some ((s.dequeue e queue).setPc c (.dequeue e queue .unlockSe))
      else none
  | .putDown e .test =>
      if (s.entity e).onQueue then
        (s.entity e).queue.map fun queue => s.setPc c (.putDown e (.lockQ queue))
      else some (s.setPc c (.putDown e .stop))
  | .putDown e (.push queue) => some ((s.push e queue).setPc c (.putDown e (.unlockQ queue)))
  | .putDown e .stop => some ((s.stop e).setPc c (.putDown e .unlockSe))
  | .test again =>
      match s.runQueue c with
      | e :: _ =>
          some { s.setPc c (.pick e .lockSe) with current := update s.current c (some e) }
      | [] => some (s.setPc c (.empty again))
  | .pick e .body => some ((s.pick c e).setPc c (.pick e .unlockSe))
  | .loop i =>
      if h : i < n then
        if i = c ∨ s.runQueue ⟨i, h⟩ = [] then some (s.setPc c (.loop (i + 1)))
        else some (s.setPc c (.balance ⟨i, h⟩ .lockFirst))
      else some (s.setPc c (.lockQueue true))
  | .balance i .begin => some (s.setPc c (.balance i (.scan (s.runQueue i))))
  | .balance i (.scan []) => some (s.setPc c (.balance i (.unlockSecond false)))
  | .balance i (.scan (e :: rest)) => some (s.setPc c (.balance i (.lockSe e rest)))
  | .balance i (.test e rest) =>
      if !(s.entity e).running && contextGood then
        some ((s.pull c i e).setPc c (.balance i (.unlockSe e none)))
      else some (s.setPc c (.balance i (.unlockSe e (some rest))))
  | _ => none

/-- One step.  `idle` tells the idle entities, which are never handed to `enqueueTask`; a thread calls
`dequeueTask` on itself. -/
def step (idle : E → Bool) (s : State n E) : Event n E → Option (State n E)
  | .enqueueTask c e =>
      match s.pc c with
      | .user => if idle e then none else some (s.setPc c (.enqueueTask e))
      | _ => none
  | .dequeueTask c =>
      match s.pc c, s.current c with
      | .user, some e => (s.entity e).queue.map fun queue => s.setPc c (.dequeueTask e queue)
      | _, _ => none
  | .schedule c =>
      match s.pc c, s.current c with
      | .user, some e => some (s.setPc c (.putDown e .lockSe))
      | .user, none => some (s.setPc c (.lockQueue false))
      | _, _ => none
  | .lock c =>
      match (s.pc c).wants c with
      | some lock =>
          -- the lock is taken, or the CPU goes on spinning
          match s.holder lock with
          | none =>
              some { s.setPc c (s.pc c).afterLock with
                holder := update s.holder lock (some c) }
          | some _ => some s
      | none => none
  | .unlock c =>
      ((s.pc c).frees c).map fun lock =>
        { s.setPc c (s.pc c).afterUnlock with holder := update s.holder lock none }
  | .run c contextGood => s.run c contextGood
  | .goIdle c e =>
      match s.pc c with
      | .goIdle =>
          if idle e then
            some { s.setPc c .user with current := update s.current c (some e) }
          else none
      | _ => none

/-! ### What a step can do -/

/-- The cases of `Locking.step`, each with its guard. -/
inductive Steps (idle : E → Bool) (s : State n E) : Event n E → State n E → Prop
  | enqueueTask {c : Fin n} {e : E} (hpc : s.pc c = .user) (hidle : idle e = false) :
      Steps idle s (.enqueueTask c e) (s.setPc c (.enqueueTask e))
  | dequeueTask {c queue : Fin n} {e : E} (hpc : s.pc c = .user) (hcur : s.current c = some e)
      (hqueue : (s.entity e).queue = some queue) :
      Steps idle s (.dequeueTask c) (s.setPc c (.dequeueTask e queue))
  | schedule {c : Fin n} {e : E} (hpc : s.pc c = .user) (hcur : s.current c = some e) :
      Steps idle s (.schedule c) (s.setPc c (.putDown e .lockSe))
  | scheduleNone {c : Fin n} (hpc : s.pc c = .user) (hcur : s.current c = none) :
      Steps idle s (.schedule c) (s.setPc c (.lockQueue false))
  | lock {c : Fin n} {lock : Lock n E} (hwants : (s.pc c).wants c = some lock)
      (hfree : s.holder lock = none) :
      Steps idle s (.lock c)
        { s.setPc c (s.pc c).afterLock with holder := update s.holder lock (some c) }
  | spin {c d : Fin n} {lock : Lock n E} (hwants : (s.pc c).wants c = some lock)
      (hheld : s.holder lock = some d) : Steps idle s (.lock c) s
  | unlock {c : Fin n} {lock : Lock n E} (hfrees : (s.pc c).frees c = some lock) :
      Steps idle s (.unlock c)
        { s.setPc c (s.pc c).afterUnlock with holder := update s.holder lock none }
  | enqueue {c : Fin n} {e : E} {good : Bool} (hpc : s.pc c = .enqueue e .body)
      (hon : (s.entity e).onQueue = false) :
      Steps idle s (.run c good) ((s.enqueue c e).setPc c (.enqueue e .unlockSe))
  | dequeue {c queue : Fin n} {e : E} {good : Bool} (hpc : s.pc c = .dequeue e queue .body)
      (hon : (s.entity e).onQueue = true) :
      Steps idle s (.run c good) ((s.dequeue e queue).setPc c (.dequeue e queue .unlockSe))
  | testOn {c queue : Fin n} {e : E} {good : Bool} (hpc : s.pc c = .putDown e .test)
      (hon : (s.entity e).onQueue = true) (hqueue : (s.entity e).queue = some queue) :
      Steps idle s (.run c good) (s.setPc c (.putDown e (.lockQ queue)))
  | testOff {c : Fin n} {e : E} {good : Bool} (hpc : s.pc c = .putDown e .test)
      (hon : (s.entity e).onQueue = false) :
      Steps idle s (.run c good) (s.setPc c (.putDown e .stop))
  | push {c queue : Fin n} {e : E} {good : Bool} (hpc : s.pc c = .putDown e (.push queue)) :
      Steps idle s (.run c good) ((s.push e queue).setPc c (.putDown e (.unlockQ queue)))
  | stop {c : Fin n} {e : E} {good : Bool} (hpc : s.pc c = .putDown e .stop) :
      Steps idle s (.run c good) ((s.stop e).setPc c (.putDown e .unlockSe))
  | front {c : Fin n} {e : E} {q : List E} {again good : Bool} (hpc : s.pc c = .test again)
      (hq : s.runQueue c = e :: q) :
      Steps idle s (.run c good)
        { s.setPc c (.pick e .lockSe) with current := update s.current c (some e) }
  | empty {c : Fin n} {again good : Bool} (hpc : s.pc c = .test again) (hq : s.runQueue c = []) :
      Steps idle s (.run c good) (s.setPc c (.empty again))
  | pick {c : Fin n} {e : E} {good : Bool} (hpc : s.pc c = .pick e .body) :
      Steps idle s (.run c good) ((s.pick c e).setPc c (.pick e .unlockSe))
  | loopNext {c : Fin n} {i : ℕ} {good : Bool} (hpc : s.pc c = .loop i) :
      Steps idle s (.run c good) (s.setPc c (.loop (i + 1)))
  | loopBalance {c i : Fin n} {good : Bool} (hpc : s.pc c = .loop i) (hi : i ≠ c) :
      Steps idle s (.run c good) (s.setPc c (.balance i .lockFirst))
  | loopEnd {c : Fin n} {i : ℕ} {good : Bool} (hpc : s.pc c = .loop i) :
      Steps idle s (.run c good) (s.setPc c (.lockQueue true))
  | begin {c i : Fin n} {good : Bool} (hpc : s.pc c = .balance i .begin) :
      Steps idle s (.run c good) (s.setPc c (.balance i (.scan (s.runQueue i))))
  | scanEnd {c i : Fin n} {good : Bool} (hpc : s.pc c = .balance i (.scan [])) :
      Steps idle s (.run c good) (s.setPc c (.balance i (.unlockSecond false)))
  | scanNext {c i : Fin n} {e : E} {rest : List E} {good : Bool}
      (hpc : s.pc c = .balance i (.scan (e :: rest))) :
      Steps idle s (.run c good) (s.setPc c (.balance i (.lockSe e rest)))
  | pull {c i : Fin n} {e : E} {rest : List E} {good : Bool}
      (hpc : s.pc c = .balance i (.test e rest)) (hrun : (s.entity e).running = false) :
      Steps idle s (.run c good) ((s.pull c i e).setPc c (.balance i (.unlockSe e none)))
  | skip {c i : Fin n} {e : E} {rest : List E} {good : Bool}
      (hpc : s.pc c = .balance i (.test e rest)) :
      Steps idle s (.run c good) (s.setPc c (.balance i (.unlockSe e (some rest))))
  | goIdle {c : Fin n} {e : E} (hpc : s.pc c = .goIdle) (hidle : idle e = true) :
      Steps idle s (.goIdle c e)
        { s.setPc c .user with current := update s.current c (some e) }

variable {idle : E → Bool} {s s' : State n E}

theorem steps_of_run {c : Fin n} {good : Bool} (h : s.run c good = some s') :
    Steps idle s (.run c good) s' := by
  simp only [State.run] at h
  split at h
  · next e hpc =>
    split at h
    · cases h
    · next hon =>
      cases h
      exact .enqueue hpc (by simpa using hon)
  · next e queue hpc =>
    split at h
    · next hon =>
      cases h
      exact .dequeue hpc hon
    · cases h
  · next e hpc =>
    split at h
    · next hon =>
      obtain ⟨queue, hqueue, rfl⟩ := Option.map_eq_some_iff.1 h
      exact .testOn hpc hon hqueue
    · next hon =>
      cases h
      exact .testOff hpc (by simpa using hon)
  · next e queue hpc =>
    cases h
    exact .push hpc
  · next e hpc =>
    cases h
    exact .stop hpc
  · next again hpc =>
    split at h
    · next e q hq =>
      cases h
      exact .front hpc hq
    · next hq =>
      cases h
      exact .empty hpc hq
  · next e hpc =>
    cases h
    exact .pick hpc
  · next i hpc =>
    split at h
    · next hi =>
      split at h
      · cases h
        exact .loopNext hpc
      · next hne =>
        cases h
        refine .loopBalance (i := ⟨i, hi⟩) hpc fun heq => hne (.inl ?_)
        rw [← heq]
    · cases h
      exact .loopEnd hpc
  · next i hpc =>
    cases h
    exact .begin hpc
  · next i hpc =>
    cases h
    exact .scanEnd hpc
  · next i e rest hpc =>
    cases h
    exact .scanNext hpc
  · next i e rest hpc =>
    split at h
    · next hrun =>
      cases h
      simp only [Bool.and_eq_true, Bool.not_eq_eq_eq_not, Bool.not_true] at hrun
      exact .pull hpc hrun.1
    · cases h
      exact .skip hpc
  · cases h

/-- **Inversion**: every step is one of these cases. -/
theorem steps_of_step {ev : Event n E} (h : step idle s ev = some s') : Steps idle s ev s' := by
  cases ev with
  | enqueueTask c e =>
    simp only [step] at h
    split at h
    · next hpc =>
      split at h
      · cases h
      · next hidle =>
        cases h
        exact .enqueueTask hpc (by simpa using hidle)
    · cases h
  | dequeueTask c =>
    simp only [step] at h
    split at h
    · next e hpc hcur =>
      obtain ⟨queue, hqueue, rfl⟩ := Option.map_eq_some_iff.1 h
      exact .dequeueTask hpc hcur hqueue
    · cases h
  | schedule c =>
    simp only [step] at h
    split at h
    · next e hpc hcur =>
      cases h
      exact .schedule hpc hcur
    · next hpc hcur =>
      cases h
      exact .scheduleNone hpc hcur
    · cases h
  | lock c =>
    simp only [step] at h
    split at h
    · next lock hwants =>
      split at h
      · next hfree =>
        cases h
        exact .lock hwants hfree
      · next d hheld =>
        cases h
        exact .spin hwants hheld
    · cases h
  | unlock c =>
    obtain ⟨lock, hfrees, rfl⟩ := Option.map_eq_some_iff.1 h
    exact .unlock hfrees
  | run c good => exact steps_of_run h
  | goIdle c e =>
    simp only [step] at h
    split at h
    · next hpc =>
      rw [Option.ite_none_right_eq_some] at h
      obtain ⟨hidle, h⟩ := h
      cases h
      exact .goIdle hpc hidle
    · cases h

end Step

end Locking

/-
**The scheduler: run queues, wakeups and load balancing.**

`libOS/sched.cpp` keeps a run queue for each CPU.  A thread's `SchedEntity` is linked in a run queue
while the thread is ready, and through the same hook in the queue of a futex bucket while it sleeps
there.  A thread that blocks dequeues itself while it is still running, links itself in a futex queue
or a watch list and then calls `schedule`; a wakeup may come before it has got there.  The flags
`onQueue` and `running` and the field `oldQueue` are the handshake between the two.

Each section that runs under the locks is one step: `enqueueTask`, `dequeueTask`, the part of
`schedule` that puts the old thread down, the part that picks the new one, and the move of one thread
in `loadBalance`.  The callers are steps as well: a thread that has dequeued itself links itself, and
a waker takes a thread from a futex queue or a watch list before it calls `enqueueTask`.  Where a
thread stands in its own code (`Control`) and where it is waiting (`Wait`) is recorded next to the
scheduler's data; the sections do not read it.

Main definitions: `State`, `step`, `Steps`.  Main result: `steps_of_step`.
-/

import SgxElps.Lib.Transition
import Mathlib.Logic.Function.Basic
import Mathlib.Data.Int.Notation

namespace Sched

open Option (ite_none_right_eq_some some_inj)
open Function

variable {Cpu E F : Type}

/-! ### The state -/

structure SchedEntity (Cpu : Type) where
  queue : Option Cpu
  oldQueue : Option Cpu
  onQueue : Bool
  running : Bool

/-- A new entity.  The constructor sets `queue`; the flags are assumed to be clear, and `oldQueue` is
written before it is read. -/
def SchedEntity.new : SchedEntity Cpu := ⟨none, none, false, false⟩

/-- Where a thread stands in its own code since it was last picked. -/
inductive Control where
  /-- It has not called `dequeueTask`. -/
  | user
  /-- It has called `dequeueTask` on itself and is not linked anywhere yet. -/
  | dequeued
  /-- It has linked itself in a futex queue or a watch list. -/
  | parked
deriving DecidableEq

/-- Where a blocked thread waits for its wakeup. -/
inductive Wait (F : Type) where
  /-- Nowhere. -/
  | none
  /-- The thread has not been handed to `enqueueTask` for the first time. -/
  | fresh
  | futex (f : F)
  /-- In the watch list of a CPU, with its request. -/
  | watched
  /-- A waker has taken it and is about to call `enqueueTask`. -/
  | waking
deriving DecidableEq

/-- The scheduler.  `picked` is the thread a CPU has picked and not put down; `inSchedule` says that
the CPU is between putting down and picking; `assertsHold` that no assertion has failed and no null
pointer was followed. -/
structure State (Cpu E F : Type) where
  entity : E → SchedEntity Cpu
  runQueue : Cpu → List E
  futexQueue : F → List E
  current : Cpu → Option E
  numTotalThread : ℤ
  picked : Cpu → Option E
  inSchedule : Cpu → Bool
  control : E → Control
  wait : E → Wait F
  assertsHold : Bool

/-- Before the first call.  `idle` tells the idle entities, which are never handed to
`enqueueTask`. -/
def init (idle : E → Bool) : State Cpu E F where
  entity _ := .new
  runQueue _ := []
  futexQueue _ := []
  current _ := none
  numTotalThread := 0
  picked _ := none
  inSchedule _ := false
  control _ := .user
  wait e := if idle e then .none else .fresh
  assertsHold := true

section Step

variable [DecidableEq Cpu] [DecidableEq E] [DecidableEq F]

/-! ### The sections of the scheduler -/

/-- `enqueueTask` on CPU `c`. -/
def State.enqueueTask (s : State Cpu E F) (c : Cpu) (e : E) : State Cpu E F :=
  let se := s.entity e
  let link := !se.running && !se.onQueue
  { s with
    runQueue := if link then update s.runQueue c (s.runQueue c ++ [e]) else s.runQueue
    entity := update s.entity e
      { se with queue := if link then some c else se.oldQueue, oldQueue := none, onQueue := true }
    numTotalThread := if se.onQueue then s.numTotalThread else s.numTotalThread + 1
    wait := update s.wait e .none
    assertsHold := s.assertsHold && !se.onQueue }

/-- `dequeueTask`, by the thread on itself. -/
def State.dequeueTask (s : State Cpu E F) (e : E) : State Cpu E F :=
  let se := s.entity e
  { s with
    runQueue :=
      match se.queue with
      | some q =>
          if se.onQueue && !se.running then update s.runQueue q ((s.runQueue q).erase e)
          else s.runQueue
      | none => s.runQueue
    entity := update s.entity e
      { se with oldQueue := se.queue, queue := none, onQueue := false }
    numTotalThread := if se.onQueue then s.numTotalThread - 1 else s.numTotalThread
    control := update s.control e .dequeued
    assertsHold := s.assertsHold && se.queue.isSome && se.onQueue }

/-- The part of `schedule` under the lock of `*current`. -/
def State.putDown (s : State Cpu E F) (c : Cpu) : State Cpu E F :=
  let s := { s with inSchedule := update s.inSchedule c true,
                    picked := update s.picked c none }
  match s.current c with
  | none => s
  | some e =>
      let se := s.entity e
      { s with
        runQueue :=
          match se.queue with
          | some q =>
              if se.onQueue then update s.runQueue q (s.runQueue q ++ [e]) else s.runQueue
          | none => s.runQueue
        entity := update s.entity e { se with running := false }
        assertsHold := s.assertsHold && (!se.onQueue || se.queue.isSome) }

/-- The part of `schedule` that makes the front of the run queue the current thread; `q` is the rest
of the queue. -/
def State.pick (s : State Cpu E F) (c : Cpu) (e : E) (q : List E) : State Cpu E F :=
  { s with
    current := update s.current c (some e)
    entity := update s.entity e { s.entity e with running := true }
    runQueue := update s.runQueue c q
    picked := update s.picked c (some e)
    inSchedule := update s.inSchedule c false
    control := update s.control e .user }

/-- The part of `schedule` that makes the idle entity current. -/
def State.pickIdle (s : State Cpu E F) (c : Cpu) (e : E) : State Cpu E F :=
  { s with
    current := update s.current c (some e)
    inSchedule := update s.inSchedule c false }

/-- The inner loop of `loadBalance` for CPU `c` over the queue of CPU `i`: the first thread that is
not running and whose context is good changes its queue. -/
def State.loadBalance (s : State Cpu E F) (c i : Cpu) (contextGood : E → Bool) : State Cpu E F :=
  match (s.runQueue i).find? fun e => !(s.entity e).running && contextGood e with
  | none => s
  | some e =>
      let runQueue := update s.runQueue i ((s.runQueue i).erase e)
      { s with
        runQueue := update runQueue c (runQueue c ++ [e])
        entity := update s.entity e { s.entity e with queue := some c } }

/-! ### The callers -/

/-- `fb->enqueue(*current)` in `libos_futex_enqueue`. -/
def State.futexEnqueue (s : State Cpu E F) (e : E) (f : F) : State Cpu E F :=
  { s with
    futexQueue := update s.futexQueue f (s.futexQueue f ++ [e])
    control := update s.control e .parked
    wait := update s.wait e (.futex f) }

/-- `listAddHead` in `sleepWait`. -/
def State.watchAdd (s : State Cpu E F) (e : E) : State Cpu E F :=
  { s with
    control := update s.control e .parked
    wait := update s.wait e .watched }

/-- `q.erase` of the first thread in `futex_wake` and `futex_requeue`. -/
def State.futexErase (s : State Cpu E F) (f : F) (e : E) (q : List E) : State Cpu E F :=
  { s with
    futexQueue := update s.futexQueue f q
    wait := update s.wait e .waking }

/-- The move of the first thread from one futex queue to another in `futex_requeue`. -/
def State.futexMove (s : State Cpu E F) (f g : F) (e : E) (q : List E) : State Cpu E F :=
  let futexQueue := update s.futexQueue f q
  { s with
    futexQueue := update futexQueue g (futexQueue g ++ [e])
    wait := update s.wait e (.futex g) }

/-- The events.  `putDown`, `pick` and `pickIdle` are the parts of `schedule`, which a thread enters
on its own account or because it is preempted. -/
inductive Event (Cpu E F : Type) where
  | enqueueTask (c : Cpu) (e : E)
  | dequeueTask (c : Cpu)
  | futexEnqueue (c : Cpu) (f : F)
  | watchAdd (c : Cpu)
  | futexErase (f : F)
  | futexMove (f g : F)
  | watchErase (e : E)
  | putDown (c : Cpu)
  | pick (c : Cpu)
  | pickIdle (c : Cpu) (e : E)
  | loadBalance (c i : Cpu) (contextGood : E → Bool)

def step (idle : E → Bool) (s : State Cpu E F) : Event Cpu E F → Option (State Cpu E F)
  -- only new threads and threads taken by a waker are handed to `enqueueTask`
  | .enqueueTask c e =>
      if s.wait e = .fresh ∨ s.wait e = .waking then some (s.enqueueTask c e) else none
  -- a thread does not dequeue itself again before it has been put down and picked
  | .dequeueTask c =>
      match s.picked c with
      | some e => if s.control e = .user then some (s.dequeueTask e) else none
      | none => none
  | .futexEnqueue c f =>
      match s.picked c with
      | some e => if s.control e = .dequeued then some (s.futexEnqueue e f) else none
      | none => none
  | .watchAdd c =>
      match s.picked c with
      | some e => if s.control e = .dequeued then some (s.watchAdd e) else none
      | none => none
  | .futexErase f =>
      match s.futexQueue f with
      | e :: q => some (s.futexErase f e q)
      | [] => none
  | .futexMove f g =>
      match s.futexQueue f with
      | e :: q => some (s.futexMove f g e q)
      | [] => none
  | .watchErase e =>
      if s.wait e = .watched then some { s with wait := update s.wait e .waking } else none
  | .putDown c => if s.inSchedule c = false then some (s.putDown c) else none
  | .pick c =>
      match s.runQueue c with
      | e :: q => if s.inSchedule c = true then some (s.pick c e q) else none
      | [] => none
  | .pickIdle c e =>
      if s.inSchedule c = true ∧ idle e = true then some (s.pickIdle c e) else none
  | .loadBalance c i contextGood =>
      if c ≠ i then some (s.loadBalance c i contextGood) else none

/-! ### What a step can do -/

/-- The cases of `Sched.step`, each with its guard. -/
inductive Steps (idle : E → Bool) (s : State Cpu E F) : Event Cpu E F → State Cpu E F → Prop
  | enqueueTask {c : Cpu} {e : E} (hw : s.wait e = .fresh ∨ s.wait e = .waking) :
      Steps idle s (.enqueueTask c e) (s.enqueueTask c e)
  | dequeueTask {c : Cpu} {e : E} (hp : s.picked c = some e) (hc : s.control e = .user) :
      Steps idle s (.dequeueTask c) (s.dequeueTask e)
  | futexEnqueue {c : Cpu} {e : E} {f : F} (hp : s.picked c = some e)
      (hc : s.control e = .dequeued) : Steps idle s (.futexEnqueue c f) (s.futexEnqueue e f)
  | watchAdd {c : Cpu} {e : E} (hp : s.picked c = some e) (hc : s.control e = .dequeued) :
      Steps idle s (.watchAdd c) (s.watchAdd e)
  | futexErase {f : F} {e : E} {q : List E} (hq : s.futexQueue f = e :: q) :
      Steps idle s (.futexErase f) (s.futexErase f e q)
  | futexMove {f g : F} {e : E} {q : List E} (hq : s.futexQueue f = e :: q) :
      Steps idle s (.futexMove f g) (s.futexMove f g e q)
  | watchErase {e : E} (hw : s.wait e = .watched) :
      Steps idle s (.watchErase e) { s with wait := update s.wait e .waking }
  | putDown {c : Cpu} (hs : s.inSchedule c = false) : Steps idle s (.putDown c) (s.putDown c)
  | pick {c : Cpu} {e : E} {q : List E} (hq : s.runQueue c = e :: q)
      (hs : s.inSchedule c = true) : Steps idle s (.pick c) (s.pick c e q)
  | pickIdle {c : Cpu} {e : E} (hs : s.inSchedule c = true) (hi : idle e = true) :
      Steps idle s (.pickIdle c e) (s.pickIdle c e)
  | balanceNone {c i : Cpu} {contextGood : E → Bool} :
      Steps idle s (.loadBalance c i contextGood) s
  | balance {c i : Cpu} {contextGood : E → Bool} {e : E} (hci : c ≠ i) (he : e ∈ s.runQueue i)
      (hgood : contextGood e = true) :
      Steps idle s (.loadBalance c i contextGood)
        { s with
          runQueue := update (update s.runQueue i ((s.runQueue i).erase e)) c
            (s.runQueue c ++ [e])
          entity := update s.entity e { s.entity e with queue := some c } }

/-- **Inversion**: every step is one of these cases. -/
theorem steps_of_step {idle : E → Bool} {s s' : State Cpu E F} {ev : Event Cpu E F}
    (h : step idle s ev = some s') : Steps idle s ev s' := by
  cases ev with
  | enqueueTask c e =>
    simp only [step, ite_none_right_eq_some, some_inj] at h
    obtain ⟨hw, rfl⟩ := h
    exact .enqueueTask hw
  | dequeueTask c =>
    simp only [step] at h
    split at h
    · next e hp =>
      rw [ite_none_right_eq_some, some_inj] at h
      obtain ⟨hc, rfl⟩ := h
      exact .dequeueTask hp hc
    · cases h
  | futexEnqueue c f =>
    simp only [step] at h
    split at h
    · next e hp =>
      rw [ite_none_right_eq_some, some_inj] at h
      obtain ⟨hc, rfl⟩ := h
      exact .futexEnqueue hp hc
    · cases h
  | watchAdd c =>
    simp only [step] at h
    split at h
    · next e hp =>
      rw [ite_none_right_eq_some, some_inj] at h
      obtain ⟨hc, rfl⟩ := h
      exact .watchAdd hp hc
    · cases h
  | futexErase f =>
    simp only [step] at h
    split at h
    · next e q hq =>
      obtain rfl := some_inj.1 h
      exact .futexErase hq
    · cases h
  | futexMove f g =>
    simp only [step] at h
    split at h
    · next e q hq =>
      obtain rfl := some_inj.1 h
      exact .futexMove hq
    · cases h
  | watchErase e =>
    simp only [step, ite_none_right_eq_some, some_inj] at h
    obtain ⟨hw, rfl⟩ := h
    exact .watchErase hw
  | putDown c =>
    simp only [step, ite_none_right_eq_some, some_inj] at h
    obtain ⟨hs, rfl⟩ := h
    exact .putDown hs
  | pick c =>
    simp only [step] at h
    split at h
    · next e q hq =>
      rw [ite_none_right_eq_some, some_inj] at h
      obtain ⟨hs, rfl⟩ := h
      exact .pick hq hs
    · cases h
  | pickIdle c e =>
    simp only [step, ite_none_right_eq_some, some_inj] at h
    obtain ⟨⟨hs, hi⟩, rfl⟩ := h
    exact .pickIdle hs hi
  | loadBalance c i contextGood =>
    simp only [step, ite_none_right_eq_some, some_inj] at h
    obtain ⟨hci, rfl⟩ := h
    unfold State.loadBalance
    cases hf : (s.runQueue i).find? fun e => !(s.entity e).running && contextGood e with
    | none => exact .balanceNone
    | some e =>
      simp only [update_of_ne hci]
      have hfound := List.find?_some hf
      rw [Bool.and_eq_true] at hfound
      exact .balance hci (List.mem_of_find?_eq_some hf) hfound.2

/-- The thread whose place to wait, or whose `onQueue`, the event may change. -/
def Event.subject (s : State Cpu E F) : Event Cpu E F → Option E
  | .enqueueTask _ e | .watchErase e => some e
  | .dequeueTask c | .futexEnqueue c _ | .watchAdd c => s.picked c
  | .futexErase f | .futexMove f _ => (s.futexQueue f).head?
  | .putDown _ | .pick _ | .pickIdle _ _ | .loadBalance _ _ _ => none

theorem Steps.wait_onQueue_eq {idle : E → Bool} {s s' : State Cpu E F} {ev : Event Cpu E F}
    (h : Steps idle s ev s') {e : E} (he : ev.subject s ≠ some e) :
    s'.wait e = s.wait e ∧ (s'.entity e).onQueue = (s.entity e).onQueue := by
  cases h with
  | enqueueTask hw =>
    have hne : e ≠ _ := fun h => he (congrArg some h.symm)
    simp [State.enqueueTask, hne]
  | dequeueTask hp hc =>
    have hne : e ≠ _ := fun h => he (hp.trans (congrArg some h.symm))
    simp [State.dequeueTask, hne]
  | futexEnqueue hp hc =>
    have hne : e ≠ _ := fun h => he (hp.trans (congrArg some h.symm))
    simp [State.futexEnqueue, hne]
  | watchAdd hp hc =>
    have hne : e ≠ _ := fun h => he (hp.trans (congrArg some h.symm))
    simp [State.watchAdd, hne]
  | @futexErase f x q hq =>
    have hne : e ≠ x := fun h => he (by simp [Event.subject, hq, h])
    simp [State.futexErase, hne]
  | @futexMove f g x q hq =>
    have hne : e ≠ x := fun h => he (by simp [Event.subject, hq, h])
    simp [State.futexMove, hne]
  | watchErase hw =>
    have hne : e ≠ _ := fun h => he (congrArg some h.symm)
    simp [hne]
  | @putDown c hs =>
    cases hcur : s.current c with
    | none => simp [State.putDown, hcur]
    | some x => by_cases hx : e = x <;> simp [State.putDown, hcur, hx]
  | @pick c x q hq hs => by_cases hx : e = x <;> simp [State.pick, hx]
  | pickIdle hs hi => simp [State.pickIdle]
  | balanceNone => simp
  | @balance c i _ x hci hmem hgood => by_cases hx : e = x <;> simp [hx]

end Step

end Sched

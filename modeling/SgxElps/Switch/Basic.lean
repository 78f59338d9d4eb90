/-
**Switching between threads.**

`UserThread::jumpTo` in `libOS/user_thread.cpp` leaves the thread `from` for the thread `this`.  It waits
until the context of `this` is good, takes it, and calls `jump_fcontext`, which suspends the running
stack and continues on the one of the context.  The side that is resumed gets the suspended context; it
is the second half of the `jumpTo` in which that thread was suspended before, or `__entry_helper` for a
new thread.  Only there, when nothing runs any more on the stack that was left, is its context stored in
`fcxt` and `contextGood` set.  Which thread this concerns the resumed side reads from the structure
`transfer_data`, which lies in the frame of `jumpTo` on the stack that was left.

Meanwhile the thread that was left may have been woken and picked by another CPU, which then spins on
`contextGood`.  Every access to memory that CPUs share is a step of its own.  A context is named by its
stack and by the number of times that stack had been suspended when it was made, so that an old context
of a stack is not mistaken for the last one.

Which thread `schedule` picks is left open here: every thread may be picked at any time.

Main definitions: `Pc`, `State`, `step`, `Steps`.  Main result: `steps_of_step`.
-/

import SgxElps.Lib.Transition
import Mathlib.Logic.Function.Basic

namespace Switch

open Function

variable {Cpu T W : Type}

/-! ### Contexts -/

/-- The stack of a thread, or the one a CPU starts on. -/
inductive Stack (Cpu T : Type) where
  | boot (c : Cpu)
  | thread (t : T)
deriving DecidableEq

/-- The stack a CPU runs on when its thread is `prev`; without a thread it is still on its first one. -/
def stackOf (c : Cpu) : Option T → Stack Cpu T
  | none => .boot c
  | some t => .thread t

/-- A suspended context: `number` counts the suspensions of the stack, and is zero for the context that
`make_fcontext` makes. -/
structure Fcontext (Cpu T : Type) where
  stack : Stack Cpu T
  number : ℕ
deriving DecidableEq

structure TransferData (T : Type) where
  prev : Option T
  cur : T

/-- Where a CPU stands.  The variables of the code are arguments. -/
inductive Pc (Cpu T : Type) where
  /-- Outside of `schedule`. -/
  | user
  /-- In `schedule`, after the old thread was put down. -/
  | schedule (prev : Option T)
  /-- In the loop of `jumpTo`. -/
  | spin (prev : Option T) (this : T)
  /-- The exchange has found `contextGood` set. -/
  | good (prev : Option T) (this : T)
  /-- The FS register is switched and the `transfer_data` is written. -/
  | ready (prev : Option T) (this : T)
  /-- `fcxt` is read. -/
  | loaded (prev : Option T) (this : T) (context : Option (Fcontext Cpu T))
  /-- `fcxt` is cleared; next is `jump_fcontext`. -/
  | cleared (prev : Option T) (this : T) (context : Option (Fcontext Cpu T))
  /-- On the resumed side, with the suspended context and the pointer to the `transfer_data`; `entry`
  says that it is `__entry_helper`. -/
  | resumed (entry : Bool) (fctx : Fcontext Cpu T) (data : Stack Cpu T)
  /-- `data->prev` is read. -/
  | prevRead (entry : Bool) (fctx : Fcontext Cpu T) (data : Stack Cpu T) (prev : Option T)
  /-- `data->cur` is read. -/
  | curRead (entry : Bool) (fctx : Fcontext Cpu T) (prev : Option T) (cur : T)
  /-- The context is stored; next `contextGood` is set. -/
  | saved (prev : Option T) (cur : T)

/-! ### The state -/

/-- The threads and the CPUs.  A missing `fcxt` is the null pointer.  `preemptStack` tells whose
`preempt_stack` the shared TLS of a CPU has.  `stack` is the stack a CPU runs on, `transfer` the
`transfer_data` in the frame of the `jumpTo` in which a stack is suspended; it is lost when the stack is
resumed.  `fs` is the FS register as the code of a thread sees it.  `suspensions` counts for each stack,
`jumped` lists the contexts given to `jump_fcontext`, and `fault` says that lost data was read or a null
context was jumped to. -/
structure State (Cpu T W : Type) where
  contextGood : T → Bool
  fcxt : T → Option (Fcontext Cpu T)
  fsBase : T → W
  fsReg : Cpu → W
  preemptStack : Cpu → Option T
  current : Cpu → Option T
  stack : Cpu → Stack Cpu T
  pc : Cpu → Pc Cpu T
  transfer : Stack Cpu T → Option (TransferData T)
  fs : T → W
  suspensions : Stack Cpu T → ℕ
  jumped : List (Fcontext Cpu T)
  fault : Bool

/-- The threads are made, none was picked. -/
def init (fsBase : T → W) (fsReg : Cpu → W) : State Cpu T W where
  contextGood _ := true
  fcxt t := some ⟨.thread t, 0⟩
  fsBase := fsBase
  fsReg := fsReg
  preemptStack _ := none
  current _ := none
  stack c := .boot c
  pc _ := .user
  transfer _ := none
  fs := fsBase
  suspensions _ := 0
  jumped := []
  fault := false

/-- The context a stack had or has when it was suspended last. -/
def State.last (s : State Cpu T W) (k : Stack Cpu T) : Fcontext Cpu T := ⟨k, s.suspensions k⟩

/-- The events.  `writeFs` is what the code of a thread may do; `putDown` and `pick` are the parts of
`schedule` before and after the choice of the next thread. -/
inductive Event (Cpu T W : Type) where
  | writeFs (c : Cpu) (w : W)
  | putDown (c : Cpu)
  | pick (c : Cpu) (t : T)
  | exchange (c : Cpu)
  | prepare (c : Cpu)
  | load (c : Cpu)
  | clear (c : Cpu)
  | jump (c : Cpu)
  | readPrev (c : Cpu)
  | readCur (c : Cpu)
  | save (c : Cpu)
  | publish (c : Cpu)

section Step

variable [DecidableEq Cpu] [DecidableEq T]

def State.setPc (s : State Cpu T W) (c : Cpu) (pc : Pc Cpu T) : State Cpu T W :=
  { s with pc := update s.pc c pc }

/-! ### The steps -/

/-- `*current = ...` and the test whether a switch is needed. -/
def State.pick (s : State Cpu T W) (c : Cpu) (prev : Option T) (t : T) : State Cpu T W :=
  { s.setPc c (if some t = prev then .user else .spin prev t) with
    current := update s.current c (some t) }

/-- `this->contextGood.exchange(false)`. -/
def State.exchange (s : State Cpu T W) (c : Cpu) (prev : Option T) (t : T) : State Cpu T W :=
  if s.contextGood t then
    { s.setPc c (.good prev t) with contextGood := update s.contextGood t false }
  else s

/-- The FS register is switched, and the `transfer_data` is written on the stack that is left. -/
def State.prepare (s : State Cpu T W) (c : Cpu) (prev : Option T) (t : T) : State Cpu T W :=
  let fsBase :=
    match prev with
    | some p => update s.fsBase p (s.fsReg c)
    | none => s.fsBase
  { s.setPc c (.ready prev t) with
    fsBase := fsBase
    fsReg := update s.fsReg c (fsBase t)
    transfer := update s.transfer (s.stack c) (some ⟨prev, t⟩) }

/-- `jump_fcontext`: the running stack is suspended and the one of the context resumed. -/
def State.jump (s : State Cpu T W) (c : Cpu) (context : Fcontext Cpu T) : State Cpu T W :=
  let k := s.stack c
  let n := s.suspensions k + 1
  { s.setPc c (.resumed (context.number == 0) ⟨k, n⟩ k) with
    suspensions := update s.suspensions k n
    stack := update s.stack c context.stack
    transfer := update s.transfer context.stack none
    jumped := context :: s.jumped }

/-- `data->cur` is read; after a `jumpTo` its `preempt_stack` is installed at once. -/
def State.readCur (s : State Cpu T W) (c : Cpu) (entry : Bool) (fctx : Fcontext Cpu T)
    (prev : Option T) (cur : T) : State Cpu T W :=
  { s.setPc c (.curRead entry fctx prev cur) with
    preemptStack := if entry then s.preemptStack else update s.preemptStack c (some cur) }

/-- `prev->fcxt = fctx`, if there is a `prev`; `__entry_helper` installs the `preempt_stack` here. -/
def State.save (s : State Cpu T W) (c : Cpu) (entry : Bool) (fctx : Fcontext Cpu T)
    (prev : Option T) (cur : T) : State Cpu T W :=
  { s.setPc c (.saved prev cur) with
    fcxt :=
      match prev with
      | some p => update s.fcxt p (some fctx)
      | none => s.fcxt
    preemptStack := if entry then update s.preemptStack c (some cur) else s.preemptStack }

/-- `prev->contextGood.store(true)`, if there is a `prev`. -/
def State.publish (s : State Cpu T W) (c : Cpu) (prev : Option T) : State Cpu T W :=
  { s.setPc c .user with
    contextGood :=
      match prev with
      | some p => update s.contextGood p true
      | none => s.contextGood }

def step (s : State Cpu T W) : Event Cpu T W → Option (State Cpu T W)
  | .writeFs c w =>
      match s.pc c, s.current c with
      | .user, some t =>
          some { s with fsReg := update s.fsReg c w, fs := update s.fs t w }
      | _, _ => none
  | .putDown c =>
      match s.pc c with
      | .user => some (s.setPc c (.schedule (s.current c)))
      | _ => none
  | .pick c t =>
      match s.pc c with
      | .schedule prev => some (s.pick c prev t)
      | _ => none
  | .exchange c =>
      match s.pc c with
      | .spin prev t => some (s.exchange c prev t)
      | _ => none
  | .prepare c =>
      match s.pc c with
      | .good prev t => some (s.prepare c prev t)
      | _ => none
  | .load c =>
      match s.pc c with
      | .ready prev t => some (s.setPc c (.loaded prev t (s.fcxt t)))
      | _ => none
  | .clear c =>
      match s.pc c with
      | .loaded prev t context =>
          some { s.setPc c (.cleared prev t context) with fcxt := update s.fcxt t none }
      | _ => none
  | .jump c =>
      match s.pc c with
      | .cleared _ _ (some context) => some (s.jump c context)
      | .cleared _ _ none => some { s with fault := true }
      | _ => none
  | .readPrev c =>
      match s.pc c with
      | .resumed entry fctx data =>
          match s.transfer data with
          | some t => some (s.setPc c (.prevRead entry fctx data t.prev))
          | none => some { s with fault := true }
      | _ => none
  | .readCur c =>
      match s.pc c with
      | .prevRead entry fctx data prev =>
          match s.transfer data with
          | some t => some (s.readCur c entry fctx prev t.cur)
          | none => some { s with fault := true }
      | _ => none
  | .save c =>
      match s.pc c with
      | .curRead entry fctx prev cur => some (s.save c entry fctx prev cur)
      | _ => none
  | .publish c =>
      match s.pc c with
      | .saved prev _ => some (s.publish c prev)
      | _ => none

/-! ### What a step can do -/

/-- The cases of `Switch.step`, each with its guard. -/
inductive Steps (s : State Cpu T W) : Event Cpu T W → State Cpu T W → Prop
  | writeFs {c : Cpu} {w : W} {t : T} (hpc : s.pc c = .user) (hcur : s.current c = some t) :
      Steps s (.writeFs c w)
        { s with fsReg := update s.fsReg c w, fs := update s.fs t w }
  | putDown {c : Cpu} (hpc : s.pc c = .user) :
      Steps s (.putDown c) (s.setPc c (.schedule (s.current c)))
  | pick {c : Cpu} {t : T} {prev : Option T} (hpc : s.pc c = .schedule prev) :
      Steps s (.pick c t) (s.pick c prev t)
  | exchange {c : Cpu} {prev : Option T} {t : T} (hpc : s.pc c = .spin prev t)
      (hgood : s.contextGood t = true) :
      Steps s (.exchange c)
        { s.setPc c (.good prev t) with contextGood := update s.contextGood t false }
  | spin {c : Cpu} {prev : Option T} {t : T} (hpc : s.pc c = .spin prev t)
      (hbad : s.contextGood t = false) : Steps s (.exchange c) s
  | prepare {c : Cpu} {prev : Option T} {t : T} (hpc : s.pc c = .good prev t) :
      Steps s (.prepare c) (s.prepare c prev t)
  | load {c : Cpu} {prev : Option T} {t : T} (hpc : s.pc c = .ready prev t) :
      Steps s (.load c) (s.setPc c (.loaded prev t (s.fcxt t)))
  | clear {c : Cpu} {prev : Option T} {t : T} {context : Option (Fcontext Cpu T)}
      (hpc : s.pc c = .loaded prev t context) :
      Steps s (.clear c)
        { s.setPc c (.cleared prev t context) with fcxt := update s.fcxt t none }
  | jump {c : Cpu} {prev : Option T} {t : T} {context : Fcontext Cpu T}
      (hpc : s.pc c = .cleared prev t (some context)) : Steps s (.jump c) (s.jump c context)
  | jumpFault {c : Cpu} {prev : Option T} {t : T} (hpc : s.pc c = .cleared prev t none) :
      Steps s (.jump c) { s with fault := true }
  | readPrev {c : Cpu} {entry : Bool} {fctx : Fcontext Cpu T} {data : Stack Cpu T}
      {t : TransferData T} (hpc : s.pc c = .resumed entry fctx data)
      (hdata : s.transfer data = some t) :
      Steps s (.readPrev c) (s.setPc c (.prevRead entry fctx data t.prev))
  | readPrevFault {c : Cpu} {entry : Bool} {fctx : Fcontext Cpu T} {data : Stack Cpu T}
      (hpc : s.pc c = .resumed entry fctx data) (hdata : s.transfer data = none) :
      Steps s (.readPrev c) { s with fault := true }
  | readCur {c : Cpu} {entry : Bool} {fctx : Fcontext Cpu T} {data : Stack Cpu T} {prev : Option T}
      {t : TransferData T} (hpc : s.pc c = .prevRead entry fctx data prev)
      (hdata : s.transfer data = some t) : Steps s (.readCur c) (s.readCur c entry fctx prev t.cur)
  | readCurFault {c : Cpu} {entry : Bool} {fctx : Fcontext Cpu T} {data : Stack Cpu T}
      {prev : Option T} (hpc : s.pc c = .prevRead entry fctx data prev)
      (hdata : s.transfer data = none) : Steps s (.readCur c) { s with fault := true }
  | save {c : Cpu} {entry : Bool} {fctx : Fcontext Cpu T} {prev : Option T} {cur : T}
      (hpc : s.pc c = .curRead entry fctx prev cur) :
      Steps s (.save c) (s.save c entry fctx prev cur)
  | publish {c : Cpu} {prev : Option T} {cur : T} (hpc : s.pc c = .saved prev cur) :
      Steps s (.publish c) (s.publish c prev)

/-- **Inversion**: every step is one of these cases. -/
theorem steps_of_step {s s' : State Cpu T W} {ev : Event Cpu T W} (h : step s ev = some s') :
    Steps s ev s' := by
  cases ev with
  | writeFs c w =>
    simp only [step] at h
    split at h
    · next t hpc hcur =>
      cases h
      exact .writeFs hpc hcur
    · cases h
  | putDown c =>
    simp only [step] at h
    split at h
    · next hpc =>
      cases h
      exact .putDown hpc
    · cases h
  | pick c t =>
    simp only [step] at h
    split at h
    · next prev hpc =>
      cases h
      exact .pick hpc
    · cases h
  | exchange c =>
    simp only [step] at h
    split at h
    · next prev t hpc =>
      cases h
      unfold State.exchange
      cases hgood : s.contextGood t with
      | true => exact .exchange hpc hgood
      | false => exact .spin hpc hgood
    · cases h
  | prepare c =>
    simp only [step] at h
    split at h
    · next prev t hpc =>
      cases h
      exact .prepare hpc
    · cases h
  | load c =>
    simp only [step] at h
    split at h
    · next prev t hpc =>
      cases h
      exact .load hpc
    · cases h
  | clear c =>
    simp only [step] at h
    split at h
    · next prev t context hpc =>
      cases h
      exact .clear hpc
    · cases h
  | jump c =>
    simp only [step] at h
    split at h
    · next prev t context hpc =>
      cases h
      exact .jump hpc
    · next prev t hpc =>
      cases h
      exact .jumpFault hpc
    · cases h
  | readPrev c =>
    simp only [step] at h
    split at h
    · next entry fctx data hpc =>
      split at h
      · next t hdata =>
        cases h
        exact .readPrev hpc hdata
      · next hdata =>
        cases h
        exact .readPrevFault hpc hdata
    · cases h
  | readCur c =>
    simp only [step] at h
    split at h
    · next entry fctx data prev hpc =>
      split at h
      · next t hdata =>
        cases h
        exact .readCur hpc hdata
      · next hdata =>
        cases h
        exact .readCurFault hpc hdata
    · cases h
  | save c =>
    simp only [step] at h
    split at h
    · next entry fctx prev cur hpc =>
      cases h
      exact .save hpc
    · cases h
  | publish c =>
    simp only [step] at h
    split at h
    · next prev cur hpc =>
      cases h
      exact .publish hpc
    · cases h

end Step

end Switch

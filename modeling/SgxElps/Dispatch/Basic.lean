/-
**Scheduler and context switches together.**

`Sched` has the run queues and the wakeups, `Switch` the hand-off of contexts.  Here the two run
together: the thread that a CPU picks from its run queue is the one it then jumps to, `loadBalance` looks
at `contextGood`, and the functions of the scheduler are called by the code that runs on a CPU, which is
not between putting its thread down and resuming the next one.

Each idle thread belongs to one CPU, which alone picks it.

Main definitions: `State`, `step`, `Steps`.  Main result: `steps_of_step`.
-/

import SgxElps.Sched.Basic
import SgxElps.Switch.Basic

namespace Dispatch

variable {Cpu E F W : Type}

structure State (Cpu E F W : Type) where
  sched : Sched.State Cpu E F
  switch : Switch.State Cpu E W

/-- The events.  `task` is a call by the code that runs on a CPU; `loadBalance` is told which of the
`contextGood` flags that are set it has seen set; `jump` is a step of `jumpTo` or `__entry_helper`. -/
inductive Event (Cpu E F W : Type) where
  | task (c : Cpu) (ev : Sched.Event Cpu E F)
  | putDown (c : Cpu)
  | pick (c : Cpu)
  | pickIdle (c : Cpu) (e : E)
  | loadBalance (c i : Cpu) (seen : E → Bool)
  | jump (ev : Switch.Event Cpu E W)

/-- The call is one that the code on CPU `c` may make. -/
def calledOn [DecidableEq Cpu] (c : Cpu) : Sched.Event Cpu E F → Bool
  | .enqueueTask d _ | .dequeueTask d | .futexEnqueue d _ | .watchAdd d => d = c
  | .futexErase _ | .futexMove _ _ | .watchErase _ => true
  | .putDown _ | .pick _ | .pickIdle _ _ | .loadBalance _ _ _ => false

/-- The steps of a switch that are no part of `schedule`. -/
def isJump : Switch.Event Cpu E W → Bool
  | .putDown _ | .pick _ _ => false
  | _ => true

/-- The idle threads; `owner` tells whose idle thread a thread is. -/
def idleOf (owner : E → Option Cpu) (e : E) : Bool := (owner e).isSome

def init (owner : E → Option Cpu) (fsBase : E → W) (fsReg : Cpu → W) : State Cpu E F W :=
  ⟨Sched.init (idleOf owner), Switch.init fsBase fsReg⟩

section Step

variable [DecidableEq Cpu] [DecidableEq E] [DecidableEq F]

/-- Both parts take their step. -/
def State.both (owner : E → Option Cpu) (s : State Cpu E F W) (ev : Sched.Event Cpu E F)
    (ev' : Switch.Event Cpu E W) : Option (State Cpu E F W) :=
  (Sched.step (idleOf owner) s.sched ev).bind fun sched =>
    (Switch.step s.switch ev').map fun switch => ⟨sched, switch⟩

def step (owner : E → Option Cpu) (s : State Cpu E F W) :
    Event Cpu E F W → Option (State Cpu E F W)
  | .task c ev =>
      match s.switch.pc c with
      | .user =>
          if calledOn c ev then
            (Sched.step (idleOf owner) s.sched ev).map fun sched => { s with sched := sched }
          else none
      | _ => none
  | .putDown c => s.both owner (.putDown c) (.putDown c)
  | .pick c =>
      match s.sched.runQueue c with
      | e :: _ => s.both owner (.pick c) (.pick c e)
      | [] => none
  | .pickIdle c e =>
      if owner e = some c then s.both owner (.pickIdle c e) (.pick c e) else none
  | .loadBalance c i seen =>
      match s.switch.pc c with
      | .schedule _ =>
          (Sched.step (idleOf owner) s.sched
            (.loadBalance c i fun e => seen e && s.switch.contextGood e)).map
              fun sched => { s with sched := sched }
      | _ => none
  | .jump ev =>
      if isJump ev then (Switch.step s.switch ev).map fun switch => { s with switch := switch }
      else none

/-! ### What a step can do -/

/-- The cases of `Dispatch.step`. -/
inductive Steps (owner : E → Option Cpu) (s : State Cpu E F W) :
    Event Cpu E F W → State Cpu E F W → Prop
  | task {c : Cpu} {ev : Sched.Event Cpu E F} {sched : Sched.State Cpu E F}
      (hpc : s.switch.pc c = .user) (hev : calledOn c ev = true)
      (hs : Sched.step (idleOf owner) s.sched ev = some sched) :
      Steps owner s (.task c ev) { s with sched := sched }
  | putDown {c : Cpu} {sched : Sched.State Cpu E F} {switch : Switch.State Cpu E W}
      (hs : Sched.step (idleOf owner) s.sched (.putDown c) = some sched)
      (ht : Switch.step s.switch (.putDown c) = some switch) :
      Steps owner s (.putDown c) ⟨sched, switch⟩
  | pick {c : Cpu} {e : E} {q : List E} {sched : Sched.State Cpu E F}
      {switch : Switch.State Cpu E W} (hq : s.sched.runQueue c = e :: q)
      (hs : Sched.step (idleOf owner) s.sched (.pick c) = some sched)
      (ht : Switch.step s.switch (.pick c e) = some switch) :
      Steps owner s (.pick c) ⟨sched, switch⟩
  | pickIdle {c : Cpu} {e : E} {sched : Sched.State Cpu E F} {switch : Switch.State Cpu E W}
      (howner : owner e = some c)
      (hs : Sched.step (idleOf owner) s.sched (.pickIdle c e) = some sched)
      (ht : Switch.step s.switch (.pick c e) = some switch) :
      Steps owner s (.pickIdle c e) ⟨sched, switch⟩
  | loadBalance {c i : Cpu} {seen : E → Bool} {prev : Option E} {sched : Sched.State Cpu E F}
      (hpc : s.switch.pc c = .schedule prev)
      (hs : Sched.step (idleOf owner) s.sched
        (.loadBalance c i fun e => seen e && s.switch.contextGood e) = some sched) :
      Steps owner s (.loadBalance c i seen) { s with sched := sched }
  | jump {ev : Switch.Event Cpu E W} {switch : Switch.State Cpu E W} (hev : isJump ev = true)
      (ht : Switch.step s.switch ev = some switch) :
      Steps owner s (.jump ev) { s with switch := switch }

theorem both_eq_some {owner : E → Option Cpu} {s s' : State Cpu E F W} {ev : Sched.Event Cpu E F}
    {ev' : Switch.Event Cpu E W} (h : s.both owner ev ev' = some s') :
    Sched.step (idleOf owner) s.sched ev = some s'.sched ∧
      Switch.step s.switch ev' = some s'.switch := by
  obtain ⟨sched, hs, h⟩ := Option.bind_eq_some_iff.1 h
  obtain ⟨switch, ht, rfl⟩ := Option.map_eq_some_iff.1 h
  exact ⟨hs, ht⟩

/-- **Inversion**: every step is one of these cases. -/
theorem steps_of_step {owner : E → Option Cpu} {s s' : State Cpu E F W} {ev : Event Cpu E F W}
    (h : step owner s ev = some s') : Steps owner s ev s' := by
  cases ev with
  | task c ev =>
    simp only [step] at h
    split at h
    · next hpc =>
      rw [Option.ite_none_right_eq_some] at h
      obtain ⟨hev, h⟩ := h
      obtain ⟨sched, hs, rfl⟩ := Option.map_eq_some_iff.1 h
      exact .task hpc hev hs
    · cases h
  | putDown c =>
    obtain ⟨hs, ht⟩ := both_eq_some h
    exact .putDown hs ht
  | pick c =>
    simp only [step] at h
    split at h
    · next e q hq =>
      obtain ⟨hs, ht⟩ := both_eq_some h
      exact .pick hq hs ht
    · cases h
  | pickIdle c e =>
    simp only [step, Option.ite_none_right_eq_some] at h
    obtain ⟨howner, h⟩ := h
    obtain ⟨hs, ht⟩ := both_eq_some h
    exact .pickIdle howner hs ht
  | loadBalance c i seen =>
    simp only [step] at h
    split at h
    · next prev hpc =>
      obtain ⟨sched, hs, rfl⟩ := Option.map_eq_some_iff.1 h
      exact .loadBalance hpc hs
    · cases h
  | jump ev =>
    simp only [step, Option.ite_none_right_eq_some] at h
    obtain ⟨hev, h⟩ := h
    obtain ⟨switch, ht, rfl⟩ := Option.map_eq_some_iff.1 h
    exact .jump hev ht

end Step

end Dispatch

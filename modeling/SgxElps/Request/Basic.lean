/-
**Asynchronous requests: enclave threads, watch lists and swapper workers.**

An enclave thread hands work to the host through a request object.  `Singleton::getRequest` rebuilds
the object of the calling thread in place, one object for each thread and each type of request; the
thread pushes it to the request queue and then either polls its flag `done` or goes to sleep in
`sleepWait`, which links the request in the watch list of the CPU.  `watchListCheck`, called by the
scheduler, unlinks the requests that are done and hands their owners to `enqueueTask`.

On the host, each worker of the swapper repeats `checkSleep`, takes a request and dispatches it.
A system call or a swap is served and set done by the worker; a call that waits for events is posted
to the pool `ep_pool`; a sleep goes into `sleepMap`, from which `checkSleep` takes it when its time
has come.

The scheduler is the one of `Sched`, and every step of it is a step here.  The queue is assumed to
deliver each pushed request to exactly one take, in any order.  A failed assertion and `ud2` stop the
program, so the step has no successor.

Main definitions: `Req`, `State`, `step`, `Steps`.  Main result: `steps_of_step`.
-/

import SgxElps.Sched.Basic
import SgxElps.Syscall.Basic
import Mathlib.Data.List.Sort

namespace Request

open Option (isNone_iff_eq_none ite_none_right_eq_some some_inj)
open Function

variable {Cpu E F W : Type}

/-! ### Requests -/

/-- The types of request a thread sleeps on. -/
inductive Kind where
  | syscall
  | swap
  | sleep
deriving DecidableEq

/-- A request object: `Singleton::getRequest` keeps one for each thread and each type. -/
abbrev Req (E : Type) := E × Kind

def sysClose : ℕ := 3
def sysGetpid : ℕ := 39

/-- The calls for which `__async_syscall` polls before it sleeps. -/
def pollsFirst (n : ℕ) : Bool :=
  n == Syscall.sysRead || n == Syscall.sysWrite || n == Syscall.sysWritev || n == sysClose
    || n == sysGetpid

/-- The calls that `syscallRequestHandler` posts to the pool. -/
def isEpoll (n : ℕ) : Bool := n == Syscall.sysEpollWait || n == Syscall.sysEpollPwait

/-! ### The state -/

/-- How far a thread has come in `__async_syscall`, `__async_swap` or `__async_sleep`. -/
inductive Pc where
  /-- In none of them. -/
  | outside
  /-- The request is built and not pushed. -/
  | built (k : Kind)
  /-- The request is pushed and the thread has not dequeued itself. -/
  | waiting (k : Kind)
  /-- In `sleepWait`, from `dequeueTask` on. -/
  | sleeping (k : Kind)
deriving DecidableEq

/-- How far a handler has come with its request. -/
inductive Phase where
  | taken
  /-- `dispatch` has read the type and set `ack`. -/
  | acked
  /-- `epollCount` is incremented. -/
  | counted
  /-- The system call or the `ioctl` has returned and its result is stored. -/
  | served
  /-- `setDone` has been called; what remains is `epollCount--` and `wakeUpThread`. -/
  | finished
deriving DecidableEq

/-- What a worker is doing; `pooled` tells a thread of `ep_pool`. -/
structure Job (E : Type) where
  req : Req E
  phase : Phase
  pooled : Bool

/-- A worker in `checkSleep`: it holds `sleepLock`, `ns` is the local variable, and `expired` says
that the first entry of the map is set done and not erased yet. -/
structure Check (W : Type) where
  holder : W
  ns : ℕ
  expired : Bool

/-- The threads, the requests and the workers.  `content` is the number of the system call, the
address to swap or the time to sleep.  `doneCount` counts the calls of `setDone` since the request
was built, and `handed` the calls of `enqueueTask` for a thread since it last dequeued itself in
`sleepWait`; the code does not read them. -/
structure State (Cpu E F W : Type) where
  sched : Sched.State Cpu E F
  pc : E → Pc
  done : Req E → Bool
  owner : Req E → Option E
  content : Req E → ℕ
  watchList : Cpu → List (Req E)
  queue : List (Req E)
  pool : List (Req E)
  epollCount : ℤ
  sleepMap : List (ℕ × Req E)
  timeSpec : ℕ
  sleepLock : Option (Check W)
  worker : W → Option (Job E)
  doneCount : Req E → ℕ
  handed : E → ℕ

def init (idle : E → Bool) : State Cpu E F W where
  sched := Sched.init idle
  pc _ := .outside
  done _ := false
  owner _ := none
  content _ := 0
  watchList _ := []
  queue := []
  pool := []
  epollCount := 0
  sleepMap := []
  timeSpec := 0
  sleepLock := none
  worker _ := none
  doneCount _ := 0
  handed _ := 0

/-- The thread that runs its own code on CPU `c`. -/
def State.thread (s : State Cpu E F W) (c : Cpu) : Option E :=
  match s.sched.picked c with
  | some e => if s.sched.control e = .user then some e else none
  | none => none

section Step

variable [DecidableEq Cpu] [DecidableEq E] [DecidableEq F] [DecidableEq W]

/-! ### The enclave -/

/-- `Singleton::getRequest` and the stores that fill the request. -/
def State.getRequest (s : State Cpu E F W) (e : E) (k : Kind) (content : ℕ) : State Cpu E F W :=
  { s with
    pc := update s.pc e (.built k)
    done := update s.done (e, k) false
    owner := update s.owner (e, k) none
    content := update s.content (e, k) content
    doneCount := update s.doneCount (e, k) 0 }

def State.push (s : State Cpu E F W) (e : E) (k : Kind) : State Cpu E F W :=
  { s with
    pc := update s.pc e (.waiting k)
    queue := s.queue ++ [(e, k)] }

/-- The thread leaves its call. -/
def State.leave (s : State Cpu E F W) (e : E) : State Cpu E F W :=
  { s with pc := update s.pc e .outside }

/-- `sleepWait` up to `dequeueTask`. -/
def State.sleepDequeue (s : State Cpu E F W) (e : E) (k : Kind) : State Cpu E F W :=
  { s with
    sched := s.sched.dequeueTask e
    pc := update s.pc e (.sleeping k)
    owner := update s.owner (e, k) (some e)
    handed := update s.handed e 0 }

/-- `listAddHead` in `sleepWait`. -/
def State.sleepAdd (s : State Cpu E F W) (c : Cpu) (e : E) (k : Kind) : State Cpu E F W :=
  { s with
    sched := s.sched.watchAdd e
    watchList := update s.watchList c ((e, k) :: s.watchList c) }

/-- `watchListCheck` unlinks a request that is done, up to the call of `enqueueTask` for its owner. -/
def State.watchTake (s : State Cpu E F W) (c : Cpu) (r : Req E) (e : E) : State Cpu E F W :=
  { s with
    sched := { s.sched with wait := update s.sched.wait e .waking }
    owner := update s.owner r none
    watchList := update s.watchList c ((s.watchList c).erase r) }

/-- The steps of the scheduler that are not made by `sleepWait` or `watchListCheck`: a thread that
dequeues itself on its own account is in none of the calls. -/
def State.admits (s : State Cpu E F W) : Sched.Event Cpu E F → Bool
  | .dequeueTask c | .futexEnqueue c _ =>
      match s.sched.picked c with
      | some e => s.pc e = .outside
      | none => false
  | .watchAdd _ | .watchErase _ => false
  | .enqueueTask _ _ | .futexErase _ | .futexMove _ _ | .putDown _ | .pick _ | .pickIdle _ _
  | .loadBalance _ _ _ => true

def State.handedAfter (s : State Cpu E F W) : Sched.Event Cpu E F → E → ℕ
  | .enqueueTask _ e => update s.handed e (s.handed e + 1)
  | _ => s.handed

/-! ### The workers -/

def State.setJob (s : State Cpu E F W) (w : W) (job : Option (Job E)) : State Cpu E F W :=
  { s with worker := update s.worker w job }

/-- `setDone`. -/
def State.setDone (s : State Cpu E F W) (r : Req E) : State Cpu E F W :=
  { s with
    done := update s.done r true
    doneCount := update s.doneCount r (s.doneCount r + 1) }

/-- `sleepMap.insert` in `sleepRequestHandler`; the target is computed in 64 bits, and an entry goes
behind those with the same target. -/
def State.insertSleep (s : State Cpu E F W) (r : Req E) : State Cpu E F W :=
  { s with
    sleepMap := s.sleepMap.orderedInsert (fun a b => a.1 < b.1)
      ((s.content r + s.timeSpec) % 2 ^ 64, r) }

/-- The events.  `getRequest` to `ret` are the steps of a thread running on CPU `c`, `watchTake` is
one of `watchListCheck`; the others are the steps of the workers and, for `poolTake` and what follows
it, of the threads of `ep_pool`. -/
inductive Event (Cpu E F W : Type) where
  | sched (ev : Sched.Event Cpu E F)
  | getRequest (c : Cpu) (k : Kind) (content : ℕ)
  | abandon (c : Cpu)
  | push (c : Cpu)
  | pollDone (c : Cpu)
  | sleepDequeue (c : Cpu)
  | sleepAdd (c : Cpu)
  | ret (c : Cpu)
  | watchTake (c : Cpu) (r : Req E)
  | take (w : W) (r : Req E)
  | dispatch (w : W)
  | epollBegin (w : W)
  | post (w : W)
  | poolTake (w : W) (r : Req E)
  | serve (w : W)
  | setDone (w : W)
  | finish (w : W)
  | insertSleep (w : W)
  | checkBegin (w : W) (now : ℕ)
  | expire (w : W)
  | eraseEntry (w : W)
  | checkEnd (w : W)

/-- The steps of a thread at the point `pc` of its call. -/
def threadStep (s : State Cpu E F W) (e : E) : Pc → Event Cpu E F W → Option (State Cpu E F W)
  | .outside, .getRequest _ k content => some (s.getRequest e k content)
  -- `fillArgs` has failed
  | .built .syscall, .abandon _ => some (s.leave e)
  | .built k, .push _ => some (s.push e k)
  | .waiting .syscall, .pollDone _ =>
      if pollsFirst (s.content (e, .syscall)) ∧ s.done (e, .syscall) then some (s.leave e) else none
  | .waiting k, .sleepDequeue _ => some (s.sleepDequeue e k)
  | .sleeping _, .ret _ => some (s.leave e)
  | _, _ => none

/-- The steps of a worker with the job `j`. -/
def jobStep (s : State Cpu E F W) (w : W) (j : Job E) : Event Cpu E F W → Option (State Cpu E F W)
  | .dispatch _ =>
      if j.phase = .taken then some (s.setJob w (some { j with phase := .acked })) else none
  | .epollBegin _ =>
      if j.phase = .acked ∧ j.pooled = false ∧ j.req.2 = .syscall ∧ isEpoll (s.content j.req) then
        some { s.setJob w (some { j with phase := .counted }) with epollCount := s.epollCount + 1 }
      else none
  | .post _ =>
      if j.phase = .counted ∧ s.epollCount ≤ 10 then
        some { s.setJob w none with pool := s.pool ++ [j.req] }
      else none
  | .serve _ =>
      -- a thread of the pool makes the call it was posted for
      if j.phase = .acked ∧ j.req.2 ≠ .sleep ∧
          (j.pooled = true ∨ j.req.2 = .swap ∨ isEpoll (s.content j.req) = false) then
        some (s.setJob w (some { j with phase := .served }))
      else none
  | .setDone _ =>
      if j.phase = .served then
        some ((s.setDone j.req).setJob w (some { j with phase := .finished }))
      else none
  | .finish _ =>
      if j.phase = .finished then
        some { s.setJob w none with
          epollCount := if j.pooled then s.epollCount - 1 else s.epollCount }
      else none
  | .insertSleep _ =>
      if j.phase = .acked ∧ j.req.2 = .sleep ∧ s.sleepLock.isNone then
        some ((s.insertSleep j.req).setJob w none)
      else none
  | _ => none

/-- The steps of `checkSleep` between taking `sleepLock` and releasing it. -/
def checkStep (s : State Cpu E F W) (k : Check W) : Event Cpu E F W → Option (State Cpu E F W)
  | .expire _ =>
      match s.sleepMap with
      | (t, r) :: _ =>
          if k.expired = false ∧ t < k.ns then
            some { s.setDone r with sleepLock := some { k with expired := true } }
          else none
      | [] => none
  | .eraseEntry _ =>
      if k.expired then
        some { s with sleepMap := s.sleepMap.tail, sleepLock := some { k with expired := false } }
      else none
  | .checkEnd _ =>
      if k.expired = false ∧ ∀ a ∈ s.sleepMap.head?, k.ns ≤ a.1 then
        some { s with sleepLock := none }
      else none
  | _ => none

/-- The worker is at the head of its loop. -/
def State.atLoop (s : State Cpu E F W) (w : W) : Bool :=
  (s.worker w).isNone && !s.sleepLock.any fun k => k.holder = w

def step (idle : E → Bool) (s : State Cpu E F W) (ev : Event Cpu E F W) :
    Option (State Cpu E F W) :=
  match ev with
  | .sched sev =>
      if s.admits sev then
        (Sched.step idle s.sched sev).map fun sched =>
          { s with sched := sched, handed := s.handedAfter sev }
      else none
  | .getRequest c _ _ | .abandon c | .push c | .pollDone c | .sleepDequeue c | .ret c =>
      match s.thread c with
      | some e => threadStep s e (s.pc e) ev
      | none => none
  | .sleepAdd c =>
      match s.sched.picked c with
      | some e =>
          match s.pc e with
          | .sleeping k =>
              if s.sched.control e = .dequeued then some (s.sleepAdd c e k) else none
          | _ => none
      | none => none
  | .watchTake c r =>
      match s.owner r with
      | some e => if r ∈ s.watchList c ∧ s.done r then some (s.watchTake c r e) else none
      -- `ud2`
      | none => none
  | .take w r =>
      if s.atLoop w ∧ r ∈ s.queue then
        some { s.setJob w (some ⟨r, .taken, false⟩) with queue := s.queue.erase r }
      else none
  | .poolTake w r =>
      if s.atLoop w ∧ r ∈ s.pool then
        some { s.setJob w (some ⟨r, .acked, true⟩) with pool := s.pool.erase r }
      else none
  | .dispatch w | .epollBegin w | .post w | .serve w | .setDone w | .finish w | .insertSleep w =>
      match s.worker w with
      | some j => jobStep s w j ev
      | none => none
  | .checkBegin w now =>
      if s.atLoop w ∧ s.sleepLock.isNone then
        some { s with timeSpec := now, sleepLock := some ⟨w, s.timeSpec % 2 ^ 64, false⟩ }
      else none
  | .expire w | .eraseEntry w | .checkEnd w =>
      match s.sleepLock with
      | some k => if k.holder = w then checkStep s k ev else none
      | none => none

/-- The request that a step of a worker reads or writes.  `post` only copies the pointer, and
`eraseEntry` erases the entry of the map, not the request. -/
def State.accessed (s : State Cpu E F W) : Event Cpu E F W → Option (Req E)
  | .dispatch w | .epollBegin w | .serve w | .setDone w | .insertSleep w => (s.worker w).map Job.req
  | .expire _ => s.sleepMap.head?.map Prod.snd
  | _ => none

/-! ### What a step can do -/

/-- The cases of `Request.step`, each with what its guard gives. -/
inductive Steps (idle : E → Bool) (s : State Cpu E F W) :
    Event Cpu E F W → State Cpu E F W → Prop
  | sched {sev : Sched.Event Cpu E F} {sched : Sched.State Cpu E F} (ha : s.admits sev = true)
      (hs : Sched.step idle s.sched sev = some sched) :
      Steps idle s (.sched sev) { s with sched := sched, handed := s.handedAfter sev }
  | getRequest {c : Cpu} {e : E} {k : Kind} {content : ℕ} (ht : s.thread c = some e)
      (hpc : s.pc e = .outside) :
      Steps idle s (.getRequest c k content) (s.getRequest e k content)
  | abandon {c : Cpu} {e : E} (ht : s.thread c = some e) (hpc : s.pc e = .built .syscall) :
      Steps idle s (.abandon c) (s.leave e)
  | push {c : Cpu} {e : E} {k : Kind} (ht : s.thread c = some e) (hpc : s.pc e = .built k) :
      Steps idle s (.push c) (s.push e k)
  | pollDone {c : Cpu} {e : E} (ht : s.thread c = some e) (hpc : s.pc e = .waiting .syscall)
      (hd : s.done (e, .syscall) = true) : Steps idle s (.pollDone c) (s.leave e)
  | sleepDequeue {c : Cpu} {e : E} {k : Kind} (ht : s.thread c = some e)
      (hpc : s.pc e = .waiting k) : Steps idle s (.sleepDequeue c) (s.sleepDequeue e k)
  | sleepAdd {c : Cpu} {e : E} {k : Kind} (hp : s.sched.picked c = some e)
      (hc : s.sched.control e = .dequeued) (hpc : s.pc e = .sleeping k) :
      Steps idle s (.sleepAdd c) (s.sleepAdd c e k)
  | ret {c : Cpu} {e : E} {k : Kind} (ht : s.thread c = some e) (hpc : s.pc e = .sleeping k) :
      Steps idle s (.ret c) (s.leave e)
  | watchTake {c : Cpu} {r : Req E} {e : E} (ho : s.owner r = some e) (hr : r ∈ s.watchList c)
      (hd : s.done r = true) : Steps idle s (.watchTake c r) (s.watchTake c r e)
  | take {w : W} {r : Req E} (hw : s.worker w = none) (hr : r ∈ s.queue) :
      Steps idle s (.take w r)
        { s.setJob w (some ⟨r, .taken, false⟩) with queue := s.queue.erase r }
  | poolTake {w : W} {r : Req E} (hw : s.worker w = none) (hr : r ∈ s.pool) :
      Steps idle s (.poolTake w r)
        { s.setJob w (some ⟨r, .acked, true⟩) with pool := s.pool.erase r }
  | dispatch {w : W} {j : Job E} (hw : s.worker w = some j) (hj : j.phase = .taken) :
      Steps idle s (.dispatch w) (s.setJob w (some { j with phase := .acked }))
  | epollBegin {w : W} {j : Job E} (hw : s.worker w = some j) (hj : j.phase = .acked) :
      Steps idle s (.epollBegin w)
        { s.setJob w (some { j with phase := .counted }) with epollCount := s.epollCount + 1 }
  | post {w : W} {j : Job E} (hw : s.worker w = some j) (hj : j.phase = .counted) :
      Steps idle s (.post w) { s.setJob w none with pool := s.pool ++ [j.req] }
  | serve {w : W} {j : Job E} (hw : s.worker w = some j) (hj : j.phase = .acked) :
      Steps idle s (.serve w) (s.setJob w (some { j with phase := .served }))
  | setDone {w : W} {j : Job E} (hw : s.worker w = some j) (hj : j.phase = .served) :
      Steps idle s (.setDone w)
        ((s.setDone j.req).setJob w (some { j with phase := .finished }))
  | finish {w : W} {j : Job E} (hw : s.worker w = some j) (hj : j.phase = .finished) :
      Steps idle s (.finish w)
        { s.setJob w none with
          epollCount := if j.pooled then s.epollCount - 1 else s.epollCount }
  | insertSleep {w : W} {j : Job E} (hw : s.worker w = some j) (hj : j.phase = .acked)
      (hl : s.sleepLock = none) :
      Steps idle s (.insertSleep w) ((s.insertSleep j.req).setJob w none)
  | checkBegin {w : W} {now : ℕ} (hl : s.sleepLock = none) :
      Steps idle s (.checkBegin w now)
        { s with timeSpec := now, sleepLock := some ⟨w, s.timeSpec % 2 ^ 64, false⟩ }
  | expire {k : Check W} {t : ℕ} {r : Req E} {rest : List (ℕ × Req E)}
      (hl : s.sleepLock = some k) (hk : k.expired = false) (hm : s.sleepMap = (t, r) :: rest) :
      Steps idle s (.expire k.holder)
        { s.setDone r with sleepLock := some { k with expired := true } }
  | eraseEntry {k : Check W} (hl : s.sleepLock = some k) (hk : k.expired = true) :
      Steps idle s (.eraseEntry k.holder)
        { s with sleepMap := s.sleepMap.tail, sleepLock := some { k with expired := false } }
  | checkEnd {k : Check W} (hl : s.sleepLock = some k) (hk : k.expired = false) :
      Steps idle s (.checkEnd k.holder) { s with sleepLock := none }

theorem steps_of_threadStep {idle : E → Bool} {s s' : State Cpu E F W} {ev : Event Cpu E F W}
    {c : Cpu} {e : E} (ht : s.thread c = some e)
    (hev : ev = .abandon c ∨ ev = .push c ∨ ev = .pollDone c ∨ ev = .sleepDequeue c ∨ ev = .ret c ∨
      ∃ k content, ev = .getRequest c k content)
    (h : threadStep s e (s.pc e) ev = some s') : Steps idle s ev s' := by
  unfold threadStep at h
  split at h
  · next hpc =>
    obtain rfl := some_inj.1 h
    obtain rfl : _ = c := by simpa using hev
    exact .getRequest ht hpc
  · next hpc =>
    obtain rfl := some_inj.1 h
    obtain rfl : _ = c := by simpa using hev
    exact .abandon ht hpc
  · next hpc =>
    obtain rfl := some_inj.1 h
    obtain rfl : _ = c := by simpa using hev
    exact .push ht hpc
  · next hpc =>
    rw [ite_none_right_eq_some, some_inj] at h
    obtain ⟨⟨-, hd⟩, rfl⟩ := h
    obtain rfl : _ = c := by simpa using hev
    exact .pollDone ht hpc hd
  · next hpc =>
    obtain rfl := some_inj.1 h
    obtain rfl : _ = c := by simpa using hev
    exact .sleepDequeue ht hpc
  · next hpc =>
    obtain rfl := some_inj.1 h
    obtain rfl : _ = c := by simpa using hev
    exact .ret ht hpc
  · cases h

/-- **Inversion**: every step is one of these cases. -/
theorem steps_of_step {idle : E → Bool} {s s' : State Cpu E F W} {ev : Event Cpu E F W}
    (h : step idle s ev = some s') : Steps idle s ev s' := by
  cases ev with
  | sched sev =>
    simp only [step, ite_none_right_eq_some, Option.map_eq_some_iff] at h
    obtain ⟨ha, sched, hs, rfl⟩ := h
    exact .sched ha hs
  | getRequest c _ _ | abandon c | push c | pollDone c | sleepDequeue c | ret c =>
    simp only [step] at h
    split at h
    · next e ht => exact steps_of_threadStep ht (by simp) h
    · cases h
  | sleepAdd c =>
    simp only [step] at h
    split at h
    · next e hp =>
      split at h
      · next k hpc =>
        rw [ite_none_right_eq_some, some_inj] at h
        obtain ⟨hc, rfl⟩ := h
        exact .sleepAdd hp hc hpc
      · cases h
    · cases h
  | watchTake c r =>
    simp only [step] at h
    split at h
    · next e ho =>
      rw [ite_none_right_eq_some, some_inj] at h
      obtain ⟨⟨hr, hd⟩, rfl⟩ := h
      exact .watchTake ho hr hd
    · cases h
  | take w r =>
    simp only [step, State.atLoop, Bool.and_eq_true, isNone_iff_eq_none,
      ite_none_right_eq_some, some_inj] at h
    obtain ⟨⟨⟨hw, -⟩, hr⟩, rfl⟩ := h
    exact .take hw hr
  | poolTake w r =>
    simp only [step, State.atLoop, Bool.and_eq_true, isNone_iff_eq_none,
      ite_none_right_eq_some, some_inj] at h
    obtain ⟨⟨⟨hw, -⟩, hr⟩, rfl⟩ := h
    exact .poolTake hw hr
  | dispatch w | setDone w | finish w =>
    simp only [step] at h
    split at h
    · next j hw =>
      simp only [jobStep, ite_none_right_eq_some, some_inj] at h
      obtain ⟨hj, rfl⟩ := h
      constructor <;> assumption
    · cases h
  | epollBegin w | post w | serve w =>
    simp only [step] at h
    split at h
    · next j hw =>
      simp only [jobStep, ite_none_right_eq_some, some_inj] at h
      obtain ⟨⟨hj, -⟩, rfl⟩ := h
      constructor <;> assumption
    · cases h
  | insertSleep w =>
    simp only [step] at h
    split at h
    · next j hw =>
      simp only [jobStep, ite_none_right_eq_some, some_inj,
        isNone_iff_eq_none] at h
      obtain ⟨⟨hj, -, hl⟩, rfl⟩ := h
      constructor <;> assumption
    · cases h
  | checkBegin w now =>
    simp only [step, isNone_iff_eq_none, ite_none_right_eq_some,
      some_inj] at h
    obtain ⟨⟨-, hl⟩, rfl⟩ := h
    exact .checkBegin hl
  | expire w =>
    simp only [step] at h
    split at h
    · next k hl =>
      rw [ite_none_right_eq_some] at h
      obtain ⟨rfl, h⟩ := h
      simp only [checkStep] at h
      split at h
      · next t r rest hm =>
        rw [ite_none_right_eq_some, some_inj] at h
        obtain ⟨⟨hk, -⟩, rfl⟩ := h
        exact .expire hl hk hm
      · cases h
    · cases h
  | eraseEntry w =>
    simp only [step] at h
    split at h
    · next k hl =>
      simp only [checkStep, ite_none_right_eq_some, some_inj] at h
      obtain ⟨rfl, hk, rfl⟩ := h
      exact .eraseEntry hl hk
    · cases h
  | checkEnd w =>
    simp only [step] at h
    split at h
    · next k hl =>
      simp only [checkStep, ite_none_right_eq_some, some_inj] at h
      obtain ⟨rfl, ⟨hk, -⟩, rfl⟩ := h
      exact .checkEnd hl hk
    · cases h

end Step

end Request

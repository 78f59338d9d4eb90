/-
**How the libOS disables and enables interrupts.**

Each CPU has a flag `inInterrupt`.  `disableInterrupt` sets it and returns the old value, and
`enableInterrupt` clears it.  The spin locks of `src/include/spin_lock.h` and `src/libOS/tsx.h` save the
flag of their holder, most functions save it in a local variable, and `Scheduler::schedule` sets it and
leaves it to `UserThread::jumpTo` to clear it once the thread is back.  `do_aex`
(`src/loader/enclave_thread.cpp`) sets it before it lets `do_interrupt` inject a call of `do_preempt`.

Here is the part of the functions of `src/libOS/futex.cpp`, `sched.cpp`, `user_thread.cpp`,
`async_request.cpp`, `allocator.cpp`, `malloc.cpp` and `mmap.cpp` that has to do with the flag, in the
commands of `SgxElps.Lib.Preempt`.  A branch on something else goes either way, and a loop over something
else any number of times: what is proved of these functions holds whatever is in the queues.

`do_interrupt` injects nothing while the interrupted instruction is one of `injectedFunc` or
`do_preempt`, and `clear_interrupt` is not called on the way back (`src/loader/entry.s`): this is the
`tail` of the handler.

Main definitions: `Function`, `body`, `step`.
-/

import SgxElps.Lib.Preempt

namespace Interrupt

open Preempt

/-- The local variables that hold a saved flag. -/
inductive Var where
  | intFlag
  | interruptFlag
  | localInterruptFlag
  /-- The value of a call that is not used. -/
  | unused
  deriving DecidableEq

/-- The spin locks: of the table of buckets, of a bucket, of the run queue of a CPU, of a scheduling
entity, of the allocator, of the page manager and of the console. -/
inductive Lock where
  | futexHash
  | bucket (addr : ℕ)
  | queue (cpu : ℕ)
  | entity (se : ℕ)
  | list
  | rbtree
  | pageManager
  | panicInfo
  deriving DecidableEq

abbrev Code : Type := Cmd Var Lock ℕ

/-- A branch on something that is not in the model. -/
def either (c d : Code) : Code := .any fun a => if a = 0 then c else d

/-- A lock that is held while `c` runs. -/
def withLock (l : Lock) (c : Code) : Code := locked l .localInterruptFlag c

/-! ### Helpers -/

/-- `get_cpu`. -/
def getCpu : Code := .call (guarded .interruptFlag .skip)

/-- `PerCPU::operator *`. -/
def perCpu : Code := .call (guarded .interruptFlag .skip)

/-- `libos_print`. -/
def libosPrint : Code := withLock .panicInfo .skip

def libosMmap : Code := withLock .pageManager .skip

/-- `Allocator::malloc`: a chunk is found and perhaps split, or there is none. -/
def allocatorMalloc : Code :=
  withLock .list
    (either .skip (block [withLock .rbtree .skip, either .skip (withLock .rbtree .skip)]))

def expandHeap : Code := withLock .list (withLock .rbtree .skip)

def malloc : Code :=
  block [allocatorMalloc,
    either .skip (block [libosMmap, either .skip (block [expandHeap, allocatorMalloc])])]

/-! ### The scheduler -/

def enqueueTask (se : ℕ) : Code :=
  .call (guarded .interruptFlag
    (block [getCpu, .any fun cpu => withLock (.queue cpu) (withLock (.entity se) .skip)]))

def dequeueTask (se : ℕ) : Code :=
  .any fun cpu => withLock (.queue cpu) (withLock (.entity se) .skip)

def watchListCheck : Code := block [getCpu, .star (either .skip (.any enqueueTask))]

/-- The loop of `loadBalance` over one source queue. -/
def pullTask : Code := .star (.any fun se => withLock (.entity se) .skip)

def loadBalance (cpu : ℕ) : Code :=
  .star (.any fun i =>
    if i = cpu then .skip
    else if cpu > i then withLock (.queue cpu) (withLock (.queue i) pullTask)
    else withLock (.queue i) (withLock (.queue cpu) pullTask))

/-- `UserThread::jumpTo`: wait for the context of the other thread, leave the CPU to it, and go on when
some thread jumps back. -/
def jumpTo : Code := block [.star (either .skip libosPrint), .switch, .enable]

/-- The end of `schedule`, at `start_sched`, with the lock of the run queue held. -/
def startSched (cpu : ℕ) : Code :=
  block [perCpu, .any fun se => withLock (.entity se) .skip,
    unlock (.queue cpu) .localInterruptFlag, perCpu, either jumpTo .enable]

/-- `Scheduler::schedule` once the time slot is used up. -/
def reschedule : Code :=
  block [getCpu, .any fun cpu => block [
    perCpu, either .skip (.any fun se => withLock (.entity se)
      (either .skip (.any fun queue => withLock (.queue queue) .skip))),
    perCpu, lock (.queue cpu) .localInterruptFlag,
    either (startSched cpu) (block [
      unlock (.queue cpu) .localInterruptFlag,
      loadBalance cpu,
      perCpu, lock (.queue cpu) .localInterruptFlag,
      either (startSched cpu) (block [
        unlock (.queue cpu) .localInterruptFlag, perCpu, either jumpTo .enable])])]]

def maximumSlot : ℕ := 1

/-- `Scheduler::schedule`.  There is no current thread before the first one runs on a CPU. -/
def schedule : Code :=
  .call (block [.disable .unused, watchListCheck, perCpu,
    either reschedule (.tick maximumSlot .skip reschedule)])

/-- `do_preempt`, and the rest of `injectedFunc` after it. -/
def doPreempt : Code := block [perCpu, schedule, .tail]

/-! ### Futexes -/

def libosGetBucket : Code := withLock .futexHash (either .skip malloc)

def libosFutexQueueLock (addr : ℕ) : Code :=
  block [libosGetBucket, lock (.bucket addr) .localInterruptFlag]

def libosFutexQueueUnlock (addr : ℕ) : Code := unlock (.bucket addr) .localInterruptFlag

def libosFutexEnqueue : Code := block [perCpu, perCpu, .any dequeueTask, perCpu]

/-- `get_user_val`, which has a variable of its own. -/
def getUserVal : Code := .call (guarded .intFlag .skip)

/-- `libos_futex_wait`.  After the thread has slept, the flag that was saved is overwritten with the old
value of `futex_counter`. -/
def libosFutexWait (addr : ℕ) : Code :=
  block [libosFutexQueueLock addr, getUserVal, .star getUserVal,
    either (libosFutexQueueUnlock addr) (block [
      .disable .intFlag,
      libosFutexEnqueue,
      unlock (.bucket addr) .localInterruptFlag,
      .increment,
      .restore .intFlag,
      schedule,
      .disable .intFlag,
      .decrement .intFlag,
      lock (.bucket addr) .localInterruptFlag,
      libosFutexQueueUnlock addr,
      .restore .intFlag])]

def futexWake (addr : ℕ) : Code :=
  block [withLock .futexHash .skip,
    either .skip (withLock (.bucket addr) (either .skip (.star (.any enqueueTask))))]

/-- `futex_requeue`, with the two locks in the order of the addresses. -/
def futexRequeue (addr₁ addr₂ : ℕ) : Code :=
  block [withLock .futexHash .skip,
    either .skip (block [
      libosGetBucket,
      if addr₁ > addr₂ then
        withLock (.bucket addr₁) (withLock (.bucket addr₂) (either .skip (.star (.any enqueueTask))))
      else
        withLock (.bucket addr₂) (withLock (.bucket addr₁) (either .skip (.star (.any enqueueTask))))])]

def sleepWait : Code :=
  block [.disable .intFlag, getCpu, perCpu, perCpu, .any dequeueTask, .restore .intFlag, schedule]

/-! ### Threads on CPUs -/

/-- The functions that threads call. -/
inductive Function where
  | libosFutexWait (addr : ℕ)
  | futexWake (addr : ℕ)
  | futexRequeue (addr₁ addr₂ : ℕ)
  | sleepWait
  | enqueueTask (se : ℕ)
  deriving DecidableEq

def body : Function → Code
  | .libosFutexWait addr => libosFutexWait addr
  | .futexWake addr => futexWake addr
  | .futexRequeue addr₁ addr₂ => futexRequeue addr₁ addr₂
  | .sleepWait => sleepWait
  | .enqueueTask se => enqueueTask se

variable {Cpu T : Type}

/-- The threads on the CPUs.  Here `marked` says that the thread has slept in `libos_futex_wait` since it
called its last function: it is where `futex_counter` is counted down. -/
abbrev State (Cpu T : Type) : Type := Preempt.State Cpu T Var Lock ℕ Function

abbrev Event (T : Type) : Type := Preempt.Event T ℕ Function

def step [DecidableEq Cpu] [DecidableEq T] : State Cpu T → Event T → Option (State Cpu T) :=
  Preempt.step body doPreempt

/-- `__entry_helper`, where a new thread begins. -/
def entryHelper : Code := .enable

/-- The states to begin with: no thread is in a function or holds a lock, no two threads are on one CPU,
and those that are on none have not yet run. -/
structure Booted (s : State Cpu T) : Prop where
  alone : ∀ t u c, s.cpu t = some c → s.cpu u = some c → t = u
  stack : ∀ t, s.stack t =
    if (s.cpu t).isSome then [] else [⟨[entryHelper], fun _ => false, none⟩]
  holder : ∀ l, s.holder l = none
  counter : s.counter = 0
  slot : ∀ t, s.slot t = 0
  entered : ∀ t, s.entered t = none
  owed : ∀ t, s.owed t = 0

end Interrupt

/-
**A new thread, and the memory it is made in.**

`libos_clone` in `libOS/user_thread.cpp` makes a `UserThread` with `operator new` and hands its
`SchedEntity` to `enqueueTask`.  `malloc` does not clear the block, so the fields that neither the two
constructors nor `libos_clone` set hold what the block held before.  Among these are `onQueue`,
`running` and `oldQueue`, which `enqueueTask` reads.

The fields are raw bytes and words here, so that the block may have any content.  A `bool` is a byte; one
that is not zero is read as true.

Main definitions: `libosClone`, `Represents`.
Main results: `libosClone_enqueued_iff`, `libosClone_refines`.
-/

import SgxElps.Sched.Basic
import Mathlib.Data.BitVec

namespace Clone

open Function

variable {Cpu : Type}

/-! ### Objects in memory -/

abbrev Word := BitVec 64

/-- A byte read as a `bool`. -/
def asBool (b : BitVec 8) : Bool := b != 0

/-- `lockvar` is that of `seLock`. -/
structure SchedEntity where
  refCount : BitVec 32
  ticket : BitVec 32
  thread : Word
  queue : Word
  oldQueue : Word
  lockvar : BitVec 32
  onQueue : BitVec 8
  running : BitVec 8
  timeSlot : BitVec 32

/-- `entry` is the function and its argument. -/
structure UserThread where
  contextGood : BitVec 8
  fcxt : Word
  fsBase : Word
  preemptStack : Word
  xsaveRegion : Word
  entry : Option (Word × Word)
  se : SchedEntity
  clearChildTid : Word
  id : BitVec 32
  requestObj : Word

/-- The memory, read as a `UserThread` at each address, the run queues with the addresses of the threads,
the field `tid` of a `pthread` at each address, and the counters.  `assertsHold` says that no assertion
has failed. -/
structure Machine (Cpu : Type) where
  memory : Word → UserThread
  runQueue : Cpu → List Word
  tid : Word → BitVec 32
  threadCounter : BitVec 32
  numTotalThread : ℤ
  assertsHold : Bool

/-! ### The code -/

/-- The constructor of `SchedEntity`, with that of its lock. -/
def SchedEntity.construct (stale : SchedEntity) (thread : Word) : SchedEntity :=
  { stale with lockvar := 0, thread := thread, timeSlot := 0, queue := 0, refCount := 0 }

/-- `UserThread::UserThread()`. -/
def UserThread.construct (stale : UserThread) (this : Word) (id : BitVec 32) (xsaveRegion : Word) :
    UserThread :=
  { stale with
    entry := none, se := stale.se.construct this, clearChildTid := 0, id := id,
    xsaveRegion := xsaveRegion }

/-- The arguments of `libos_clone`. -/
structure Args where
  fn : Word
  stack : Word
  arg : Word
  newtls : Word
  detach : Word

/-- What the calls return: `operator new`, `libos_mmap` twice, and `make_fcontext`. -/
structure Answers where
  thread : Word
  xsaveRegion : Word
  preemptPage : Word
  fcontext : Word

section Code

variable [DecidableEq Cpu] (queueAddr : Cpu → Word)

/-- `enqueueTask` on CPU `c`; `queueAddr` gives the addresses of the run queues.  A lock that is not free
is never released. -/
def Machine.enqueueTask (m : Machine Cpu) (c : Cpu) (a : Word) : Option (Machine Cpu) :=
  let t := m.memory a
  let link := !asBool t.se.running && !asBool t.se.onQueue
  if t.se.lockvar = 0 then
    some { m with
      assertsHold := m.assertsHold && !asBool t.se.onQueue
      runQueue := if link then update m.runQueue c (m.runQueue c ++ [a]) else m.runQueue
      numTotalThread := if asBool t.se.onQueue then m.numTotalThread else m.numTotalThread + 1
      memory := update m.memory a
        { t with se := { t.se with
            queue := if link then queueAddr c else t.se.oldQueue, oldQueue := 0, onQueue := 1 } } }
  else none

/-- `libos_clone` on CPU `c`. -/
def libosClone (m : Machine Cpu) (c : Cpu) (args : Args) (ans : Answers) : Option (Machine Cpu) :=
  let t := (m.memory ans.thread).construct ans.thread m.threadCounter ans.xsaveRegion
  let t :=
    { t with
      fcxt := ans.fcontext, contextGood := 1, preemptStack := ans.preemptPage + (4096 - 16),
      fsBase := args.newtls, entry := some (args.fn, args.arg), clearChildTid := args.detach }
  let m :=
    { m with
      memory := update m.memory ans.thread t
      threadCounter := m.threadCounter + 1
      tid := update m.tid args.newtls t.id }
  m.enqueueTask queueAddr c ans.thread

end Code

/-! ### What is expected -/

/-- The entity is linked once, in the run queue of the CPU, its fields say so, and no assertion has
failed. -/
structure Enqueued [DecidableEq Cpu] (queueAddr : Cpu → Word) (m : Machine Cpu) (c : Cpu) (a : Word) :
    Prop where
  linked : ∀ i, (m.runQueue i).count a = if i = c then 1 else 0
  onQueue : asBool (m.memory a).se.onQueue = true
  running : asBool (m.memory a).se.running = false
  queue : (m.memory a).se.queue = queueAddr c
  asserts : m.assertsHold = true

/-- The bytes at `onQueue` and `running` are zero. -/
def FlagsClear (t : UserThread) : Prop := t.se.onQueue = 0 ∧ t.se.running = 0

theorem asBool_eq_false {b : BitVec 8} : asBool b = false ↔ b = 0 := by
  simp [asBool]

variable [DecidableEq Cpu] {queueAddr : Cpu → Word} {m m' : Machine Cpu} {c : Cpu} {args : Args}
  {ans : Answers}

theorem libosClone_isSome (queueAddr : Cpu → Word) (m : Machine Cpu) (c : Cpu) (args : Args)
    (ans : Answers) : ∃ m', libosClone queueAddr m c args ans = some m' := by
  simp [libosClone, Machine.enqueueTask, UserThread.construct, SchedEntity.construct]

theorem libosClone_entity (h : libosClone queueAddr m c args ans = some m') :
    (m'.memory ans.thread).se.running = (m.memory ans.thread).se.running ∧
      (m'.memory ans.thread).se.onQueue = 1 ∧
      m'.assertsHold = (m.assertsHold && !asBool (m.memory ans.thread).se.onQueue) := by
  simp only [libosClone, Machine.enqueueTask, UserThread.construct, SchedEntity.construct,
    update_self, ↓reduceIte, Option.some.injEq] at h
  subst h
  simp

theorem libosClone_of_flagsClear (hclear : FlagsClear (m.memory ans.thread))
    (h : libosClone queueAddr m c args ans = some m') :
    m'.runQueue = update m.runQueue c (m.runQueue c ++ [ans.thread]) ∧
      (m'.memory ans.thread).se.queue = queueAddr c := by
  simp only [libosClone, Machine.enqueueTask, UserThread.construct, SchedEntity.construct,
    update_self, ↓reduceIte, Option.some.injEq, hclear.1, hclear.2] at h
  subst h
  simp [asBool]

/-- **A new thread is scheduled if and only if the bytes of the block at `onQueue` and `running` were
zero.** -/
theorem libosClone_enqueued_iff (queueAddr : Cpu → Word) (m : Machine Cpu) (c : Cpu) (args : Args)
    (ans : Answers) (hasserts : m.assertsHold = true) (hnew : ∀ i, ans.thread ∉ m.runQueue i) :
    (∃ m', libosClone queueAddr m c args ans = some m' ∧ Enqueued queueAddr m' c ans.thread) ↔
      FlagsClear (m.memory ans.thread) := by
  constructor
  · rintro ⟨m', hrun, henq⟩
    obtain ⟨hrunning, -, hassert⟩ := libosClone_entity hrun
    refine ⟨?_, ?_⟩
    · have hheld := henq.asserts
      rw [hassert, hasserts, Bool.true_and, Bool.not_eq_true'] at hheld
      exact asBool_eq_false.1 hheld
    · have hnot := henq.running
      rw [hrunning] at hnot
      exact asBool_eq_false.1 hnot
  · intro hclear
    obtain ⟨m', hrun⟩ := libosClone_isSome queueAddr m c args ans
    obtain ⟨hrunning, honQueue, hassert⟩ := libosClone_entity hrun
    obtain ⟨hqueues, hqueue⟩ := libosClone_of_flagsClear hclear hrun
    refine ⟨m', hrun, fun i => ?_, ?_, ?_, hqueue, ?_⟩
    · have hcount : ∀ j, (m.runQueue j).count ans.thread = 0 := fun j =>
        List.count_eq_zero.2 (hnew j)
      rw [hqueues]
      by_cases hi : i = c
      · subst hi
        simp [hcount]
      · simp [hi, hcount]
    · rw [honQueue]
      rfl
    · rw [hrunning]
      exact asBool_eq_false.2 hclear.2
    · rw [hassert, hasserts, hclear.1]
      rfl

/-- The block as it comes from a fresh page. -/
def zeroed : UserThread :=
  ⟨0, 0, 0, 0, 0, none, ⟨0, 0, 0, 0, 0, 0, 0, 0, 0⟩, 0, 0, 0⟩

def idleMachine (block : UserThread) : Machine Bool := ⟨fun _ => block, fun _ => [], fun _ => 0, 1, 0, true⟩

/-- A block that was in use, with the two flags clear. -/
def reused : UserThread := ⟨1, 2, 3, 4, 5, some (6, 7), ⟨1, 2, 3, 4, 128, 1, 0, 0, 9⟩, 8, 9, 10⟩

/-- The thread at 2048 is in the queue of CPU `true`. -/
def busyMachine : Machine Bool where
  memory a := if a = 2048 then { reused with se := ⟨1, 2, 2048, 64, 0, 0, 1, 0, 9⟩ } else reused
  runQueue c := if c then [2048] else []
  tid _ := 3
  threadCounter := 7
  numTotalThread := 1
  assertsHold := true

theorem libosClone_enqueued_iff_reused :
    ∃ m', libosClone (fun c => if c then 64 else 128) busyMachine true ⟨1, 2, 3, 4, 5⟩
        ⟨4096, 8192, 12288, 6⟩ = some m' ∧ m'.runQueue true = [2048, 4096] ∧
      Enqueued (fun c => if c then 64 else 128) m' true 4096 := by
  obtain ⟨m', hrun, henq⟩ := (libosClone_enqueued_iff (fun c => if c then 64 else 128) busyMachine true
    ⟨1, 2, 3, 4, 5⟩ ⟨4096, 8192, 12288, 6⟩ rfl (by decide)).2 ⟨rfl, rfl⟩
  refine ⟨m', hrun, ?_, henq⟩
  rw [(libosClone_of_flagsClear ⟨rfl, rfl⟩ hrun).1]
  rfl

/-- A block in which a byte of ones lies at `running`: the thread is in no run queue. -/
theorem stale_running_loses_thread : ¬ ∀ (queueAddr : Bool → Word) (m : Machine Bool) (c : Bool)
    (args : Args) (ans : Answers), m.assertsHold = true → (∀ i, ans.thread ∉ m.runQueue i) →
    ∃ m', libosClone queueAddr m c args ans = some m' ∧ Enqueued queueAddr m' c ans.thread := by
  intro hall
  let block : UserThread := { zeroed with se := { zeroed.se with running := 255 } }
  obtain ⟨m', hrun, henq⟩ := hall (fun c => if c then 64 else 128) (idleMachine block) true
    ⟨1, 2, 3, 4, 5⟩ ⟨4096, 8192, 12288, 6⟩ rfl fun _ => List.not_mem_nil
  have hempty : m'.runQueue = fun _ => [] := by
    have hsome := (Option.some.inj hrun).symm
    rw [hsome]
    rfl
  have hlinked := henq.linked true
  rw [hempty] at hlinked
  cases hlinked

/-! ### The scheduler's model -/

/-- A raw entity as one of the scheduler's model; `cpuOf` reads the address of a run queue. -/
def SchedEntity.view (cpuOf : Word → Option Cpu) (se : SchedEntity) : Sched.SchedEntity Cpu :=
  ⟨cpuOf se.queue, cpuOf se.oldQueue, asBool se.onQueue, asBool se.running⟩

/-- The machine represents a state of the scheduler: `addr` gives the addresses of the entities that have
been made. -/
structure Represents {E F : Type} (cpuOf : Word → Option Cpu) (addr : E → Word) (made : Set E)
    (m : Machine Cpu) (s : Sched.State Cpu E F) : Prop where
  entity : ∀ e ∈ made, (m.memory (addr e)).se.view cpuOf = s.entity e
  runQueue : ∀ i, m.runQueue i = (s.runQueue i).map addr
  total : m.numTotalThread = s.numTotalThread
  asserts : m.assertsHold = s.assertsHold

/-- **With clear flags, `libos_clone` is `enqueueTask` of a new entity** in the scheduler's model. -/
theorem libosClone_refines {E F : Type} [DecidableEq E] {cpuOf : Word → Option Cpu} {addr : E → Word}
    {made : Set E} {s : Sched.State Cpu E F} {e : E} (hm : Represents cpuOf addr made m s)
    (hnull : cpuOf 0 = none) (hcpu : cpuOf (queueAddr c) = some c) (hinj : addr.Injective)
    (hentity : s.entity e = .new) (hclear : FlagsClear (m.memory (addr e))) (haddr : ans.thread = addr e) :
    ∃ m', libosClone queueAddr m c args ans = some m' ∧
      Represents cpuOf addr (insert e made) m' (s.enqueueTask c e) := by
  obtain ⟨m', h⟩ := libosClone_isSome queueAddr m c args ans
  refine ⟨m', h, ?_⟩
  simp only [libosClone, Machine.enqueueTask, UserThread.construct, SchedEntity.construct,
    update_self, ↓reduceIte, Option.some.injEq, haddr, hclear.1, hclear.2] at h
  subst h
  constructor
  case entity =>
    intro x hx
    by_cases hxe : x = e
    · subst hxe
      simpa [SchedEntity.view, Sched.State.enqueueTask, hentity, Sched.SchedEntity.new, asBool, hcpu]
        using hnull
    · have hmade := hm.entity x (hx.resolve_left hxe)
      simpa [Sched.State.enqueueTask, hxe, hinj.ne hxe] using hmade
  case runQueue =>
    intro i
    by_cases hi : i = c <;>
      simp [Sched.State.enqueueTask, hentity, Sched.SchedEntity.new, asBool, hi, hm.runQueue]
  case total => simp [Sched.State.enqueueTask, hentity, Sched.SchedEntity.new, asBool, hm.total]
  case asserts => simp [Sched.State.enqueueTask, hentity, Sched.SchedEntity.new, asBool, hm.asserts]

/-- The entity `false` is queued already. -/
theorem libosClone_refines_reused :
    ∃ m', libosClone (fun c => if c then 64 else 128) busyMachine true ⟨1, 2, 3, 4, 5⟩
        ⟨4096, 8192, 12288, 6⟩ = some m' ∧
      Represents (fun a => if a = 64 then some true else none) (fun e => if e then 4096 else 2048)
        (insert true {false}) m'
        (((Sched.init fun _ => false : Sched.State Bool Bool Unit).enqueueTask true false).enqueueTask
          true true) := by
  have hentity : ∀ e ∈ ({false} : Set Bool), (busyMachine.memory (if e then 4096 else 2048)).se.view
      (fun a => if a = 64 then some true else none) =
        ((Sched.init fun _ => false : Sched.State Bool Bool Unit).enqueueTask true false).entity e := by
    rintro e rfl
    rfl
  exact libosClone_refines ⟨hentity, by decide, rfl, rfl⟩ rfl rfl (by decide) rfl ⟨rfl, rfl⟩ rfl

end Clone

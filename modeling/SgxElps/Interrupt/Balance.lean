/-
**Which calls return with interrupts enabled.**

A function that is entered with interrupts enabled should return with interrupts enabled, on whatever CPU
it returns.  Everything that only saves and restores the flag is neutral, whoever holds the locks, and
`schedule` comes back with interrupts enabled.  So do `futex_wake`, `futex_requeue`, `sleepWait`,
`enqueueTask`, and `libos_futex_wait` when it does not sleep.

When it has slept, `libos_futex_wait` overwrites the flag that it saved with the old value of
`futex_counter`.  The thread has counted itself, so that value is not zero, and the flag stays set.

Two more things can leave the flag set, and are excluded here step by step: an interrupt in the last
instructions of the handler, and a thread that is moved to another CPU between looking up the flag and
changing it.

Main definitions: `Reenabled`, `Kept`.  Main results: `schedule_spec`, `allStates_kept`.
-/

import SgxElps.Interrupt.Basic

namespace Interrupt

open Preempt Transition

/-! ### Neutral code -/

theorem either_neutral {c d : Code} (hc : Neutral c) (hd : Neutral d) : Neutral (either c d) := by
  refine .any fun a => ?_
  split
  · exact hc
  · exact hd

theorem withLock_neutral {c : Code} (hc : Neutral c) (l : Lock) : Neutral (withLock l c) :=
  hc.locked l _

theorem getCpu_neutral : Neutral getCpu := Neutral.skip.guarded _

theorem perCpu_neutral : Neutral perCpu := Neutral.skip.guarded _

theorem getUserVal_neutral : Neutral getUserVal := Neutral.skip.guarded _

theorem allocatorMalloc_neutral : Neutral allocatorMalloc := by
  have hrbtree : Neutral (withLock .rbtree .skip) := withLock_neutral .skip _
  exact withLock_neutral (either_neutral .skip
    (hrbtree.seq ((either_neutral .skip hrbtree).seq .skip))) _

theorem malloc_neutral : Neutral malloc := by
  have hexpand : Neutral expandHeap := withLock_neutral (withLock_neutral .skip _) _
  have hmmap : Neutral libosMmap := withLock_neutral .skip _
  have hagain : Neutral (block [expandHeap, allocatorMalloc]) :=
    hexpand.seq (allocatorMalloc_neutral.seq .skip)
  exact allocatorMalloc_neutral.seq
    ((either_neutral .skip (hmmap.seq ((either_neutral .skip hagain).seq .skip))).seq .skip)

theorem enqueueTask_neutral (se : ℕ) : Neutral (enqueueTask se) := by
  have hlocked : ∀ cpu, Neutral (withLock (.queue cpu) (withLock (.entity se) .skip)) := fun cpu =>
    withLock_neutral (withLock_neutral .skip _) _
  exact (getCpu_neutral.seq ((Neutral.any hlocked).seq .skip)).guarded _

theorem dequeueTask_neutral (se : ℕ) : Neutral (dequeueTask se) :=
  .any fun _ => withLock_neutral (withLock_neutral .skip _) _

theorem watchListCheck_neutral : Neutral watchListCheck :=
  getCpu_neutral.seq
    ((either_neutral .skip (Neutral.any enqueueTask_neutral)).star.seq .skip)

theorem loadBalance_neutral (cpu : ℕ) : Neutral (loadBalance cpu) := by
  have hpull : Neutral pullTask := (Neutral.any fun _ => withLock_neutral .skip _).star
  refine (Neutral.any fun i => ?_).star
  split_ifs
  · exact .skip
  · exact withLock_neutral (withLock_neutral hpull _) _
  · exact withLock_neutral (withLock_neutral hpull _) _

theorem libosGetBucket_neutral : Neutral libosGetBucket :=
  withLock_neutral (either_neutral .skip malloc_neutral) _

theorem libosFutexEnqueue_neutral : Neutral libosFutexEnqueue :=
  perCpu_neutral.seq (perCpu_neutral.seq
    ((Neutral.any dequeueTask_neutral).seq (perCpu_neutral.seq .skip)))

/-! ### The scheduler -/

section Scheduler

variable {Q : (Var → Bool) → View Lock → Prop} {env : Var → Bool} {v : View Lock}

theorem pre_either {c d : Code} (hc : pre c Q env v) (hd : pre d Q env v) :
    pre (either c d) Q env v := by
  intro a
  show pre (if a = 0 then c else d) Q env v
  split
  · exact hc
  · exact hd

theorem jumpTo_spec (h : Q env { v with flag := false }) : pre jumpTo Q env v := by
  have hprint : Neutral libosPrint := withLock_neutral .skip _
  refine (either_neutral .skip hprint).star _ env v ?_
  intro b
  exact h

/-- The end of `schedule`: it jumps, or there is no need to. -/
theorem jumpOrEnable_spec (h : Q env { v with flag := false }) :
    pre (block [perCpu, either jumpTo .enable]) Q env v :=
  perCpu_neutral _ env v (pre_either (jumpTo_spec h) h)

theorem startSched_spec {cpu : ℕ} (hfree : v.held (.queue cpu) = none)
    (h : Q env { v with flag := false }) : pre (startSched cpu) Q env (v.take (.queue cpu)) := by
  have hentity : Neutral (.any fun se => withLock (.entity se) .skip : Code) :=
    .any fun _ => withLock_neutral .skip _
  exact perCpu_neutral _ _ _ (hentity _ _ _ (pre_unlock hfree (jumpOrEnable_spec h)))

theorem reschedule_spec (h : Q env { v with flag := false }) : pre reschedule Q env v := by
  have hback : Neutral (either .skip (.any fun se => withLock (.entity se)
      (either .skip (.any fun queue => withLock (.queue queue) .skip)))) :=
    either_neutral .skip (.any fun _ => withLock_neutral
      (either_neutral .skip (.any fun _ => withLock_neutral .skip _)) _)
  refine getCpu_neutral _ env v fun cpu => ?_
  refine perCpu_neutral _ _ _ (hback _ _ _ (perCpu_neutral _ _ _ (pre_lock.2 fun hfree => ?_)))
  refine pre_either (startSched_spec hfree h) (pre_unlock hfree ?_)
  -- the queue was empty: look at it again after the load has been balanced
  refine loadBalance_neutral cpu _ _ _ (perCpu_neutral _ _ _ (pre_lock.2 fun hfree => ?_))
  exact pre_either (startSched_spec hfree h) (pre_unlock hfree (jumpOrEnable_spec h))

/-- **`schedule` enables interrupts.** -/
theorem schedule_spec (h : Q env { v with flag := false }) : pre schedule Q env v := by
  refine watchListCheck_neutral _ _ _ (perCpu_neutral _ _ _ ?_)
  exact pre_either (reschedule_spec h) ⟨rfl, reschedule_spec h⟩

theorem doPreempt_spec (hflag : v.flag = false) (h : Q env v) :
    pre doPreempt Q env { v with flag := true } := by
  refine perCpu_neutral _ _ _ (schedule_spec ?_)
  obtain ⟨flag, held, owed, marked⟩ := v
  obtain rfl : flag = false := hflag
  exact h

/-! ### The functions -/

theorem libosFutexWait_spec {addr : ℕ} (hawake : Q env v)
    (hslept : ∀ env, Q env { v with flag := true, marked := true }) :
    pre (libosFutexWait addr) Q env v := by
  refine libosGetBucket_neutral _ env v (pre_lock.2 fun hfree => ?_)
  refine getUserVal_neutral _ _ _ (getUserVal_neutral.star _ _ _ ?_)
  refine pre_either (pre_unlock hfree hawake) ?_
  -- the flag that the lock has saved is restored when it is released, and the variable says "set"
  refine libosFutexEnqueue_neutral _ _ _ (pre_unlock hfree (schedule_spec ?_))
  refine ⟨Nat.succ_pos _, pre_lock.2 fun hfree => pre_unlock hfree ?_⟩
  simp only [block, pre, Function.update_self, Bool.and_true]
  exact hslept _

theorem futexWake_neutral (addr : ℕ) : Neutral (futexWake addr) := by
  have hwake : Neutral (either .skip (.star (.any enqueueTask))) :=
    either_neutral .skip (Neutral.any enqueueTask_neutral).star
  exact (withLock_neutral .skip _).seq
    ((either_neutral .skip (withLock_neutral hwake _)).seq .skip)

theorem futexRequeue_neutral (addr₁ addr₂ : ℕ) : Neutral (futexRequeue addr₁ addr₂) := by
  have hwake : Neutral (either .skip (.star (.any enqueueTask))) :=
    either_neutral .skip (Neutral.any enqueueTask_neutral).star
  have hboth : Neutral (if addr₁ > addr₂ then
      withLock (.bucket addr₁) (withLock (.bucket addr₂) (either .skip (.star (.any enqueueTask))))
      else
      withLock (.bucket addr₂) (withLock (.bucket addr₁) (either .skip (.star (.any enqueueTask))))) := by
    split_ifs
    · exact withLock_neutral (withLock_neutral hwake _) _
    · exact withLock_neutral (withLock_neutral hwake _) _
  exact (withLock_neutral .skip _).seq
    ((either_neutral .skip (libosGetBucket_neutral.seq (hboth.seq .skip))).seq .skip)

theorem sleepWait_spec (h : ∀ env, Q env { v with flag := false }) : pre sleepWait Q env v := by
  refine getCpu_neutral _ _ _ (perCpu_neutral _ _ _ (perCpu_neutral _ _ _ ?_))
  exact Neutral.any dequeueTask_neutral _ _ _ (schedule_spec (h _))

end Scheduler

/-- What a call that was entered with interrupts enabled leaves: the flag is set if it has slept on a
futex, and only `libos_futex_wait` does. -/
def Post (f : Function) (v : View Lock) : Prop :=
  v.flag = v.marked ∧ ((∀ addr, f ≠ .libosFutexWait addr) → v.marked = false)

/-- **The specification of all the functions.** -/
theorem spec : Spec body doPreempt Post where
  body := by
    intro f v hidle hmarked
    have hpost : v.flag = false → Post f v := fun hflag => ⟨hflag.trans hmarked.symm, fun _ => hmarked⟩
    cases f with
    | libosFutexWait addr =>
      refine libosFutexWait_spec ⟨hidle, hpost⟩ fun _ => ⟨hidle, fun _ => ⟨rfl, fun hne => ?_⟩⟩
      exact absurd rfl (hne addr)
    | futexWake addr => exact futexWake_neutral addr _ _ _ ⟨hidle, hpost⟩
    | futexRequeue addr₁ addr₂ => exact futexRequeue_neutral addr₁ addr₂ _ _ _ ⟨hidle, hpost⟩
    | sleepWait =>
      exact sleepWait_spec fun _ => ⟨hidle, fun _ => ⟨hmarked.symm, fun _ => hmarked⟩⟩
    | enqueueTask se => exact enqueueTask_neutral se _ _ _ ⟨hidle, hpost⟩
  handler := fun _ _ _ hflag h => doPreempt_spec hflag h

/-! ### Every interleaving -/

variable {Cpu T : Type} [DecidableEq T]

theorem Booted.inv {s : State Cpu T} (h : Booted s) : Inv Post s where
  alone := h.alone
  slot := h.slot
  counter := fun F => by
    rw [Finset.sum_eq_zero fun t _ => h.owed t, h.counter]
    rfl
  good := fun t b _ => by
    have hdone : ∀ b, Done Post (s.entered t) (s.view t b) := fun b => by
      refine ⟨⟨fun l => ?_, h.owed t⟩, fun f hf => ?_⟩
      · simp [State.view, h.holder l]
      · exact absurd (hf.symm.trans (h.entered t)) (Option.some_ne_none _)
    rw [h.stack t]
    split_ifs
    · exact hdone b
    · exact hdone false

variable [DecidableEq Cpu]

/-- Every call that was entered with interrupts enabled has returned so. -/
def Reenabled (s : State Cpu T) : Prop :=
  ∀ t c f, s.cpu t = some c → s.stack t = [] → s.entered t = some (f, false) → s.flag c = false

/-- Every call that was entered with interrupts enabled has returned so if and only if it has not slept
on a futex, which only `libos_futex_wait` does. -/
def Kept (s : State Cpu T) : Prop :=
  ∀ t c f, s.cpu t = some c → s.stack t = [] → s.entered t = some (f, false) →
    (s.flag c = false ↔ s.marked t = false) ∧
      ((∀ addr, f ≠ .libosFutexWait addr) → s.marked t = false)

/-- **The flag is as it was, unless the call has slept on a futex.**  Of the steps it is only required
that no interrupt comes in the last instructions of the handler, and that no thread changes the flag of
a CPU that it has left. -/
theorem allStates_kept {s : State Cpu T} (hs : Booted s) (es : List (Event T))
    (hund : AllSteps step Undisturbed s es) : AllStates step Kept s es := by
  refine (allStates_returned spec hs.inv hund).mono fun s hret t c f hc hstack hf => ?_
  obtain ⟨hflag, hmarked⟩ := hret t c f hc hstack hf
  have hflag : s.flag c = s.marked t := hflag
  exact ⟨by rw [hflag], hmarked⟩

/-! ### A thread that has slept -/

/-- A CPU with a thread `false`, and a thread `true` that has not yet run. -/
def twoThreads : State Unit Bool where
  flag := fun _ => false
  cpu := fun t => if t then none else some ()
  stack := fun t => if t then [⟨[entryHelper], fun _ => false, none⟩] else []
  holder := fun _ => none
  saved := fun _ => false
  counter := 0
  slot := fun _ => 0
  entered := fun _ => none
  owed := fun _ => 0
  marked := fun _ => false

theorem twoThreads_booted : Booted twoThreads where
  alone := by decide
  stack := fun t => by cases t <;> rfl
  holder := fun _ => rfl
  counter := rfl
  slot := fun _ => rfl
  entered := fun _ => rfl
  owed := fun _ => rfl

/-- Commands of the thread `t` that take the first branch, and no more rounds of a loop. -/
def execs (t : Bool) (n : ℕ) : List (Event Bool) := List.replicate n (.exec t 0 false)

/-- The thread `false` waits on a futex whose word does not change, and `schedule` leaves its CPU to the
thread `true`. -/
def sleeping : List (Event Bool) :=
  .begin false (.libosFutexWait 0) :: execs false 48 ++ .exec false 1 false :: execs false 125 ++
    .exec false 1 false :: execs false 26 ++ .exec false 1 false :: execs false 56 ++
    .exec false 1 false :: execs false 44 ++ [.switchTo false true]

/-- The thread `true` begins, and wakes it. -/
def waking : List (Event Bool) :=
  execs true 3 ++ .begin true (.futexWake 0) :: execs true 23 ++ .exec true 1 false :: execs true 10 ++
    .exec true 1 false :: .exec true 0 true :: execs true 76

/-- The thread `true` is preempted, and `schedule` gives the CPU back. -/
def preempting : List (Event Bool) :=
  .interrupt true :: execs true 43 ++ .exec true 1 false :: execs true 26 ++ .exec true 1 false ::
    .exec true 1 false :: execs true 10 ++ .exec true 1 false :: execs true 109 ++
    [.switchTo true false]

/-- The whole run, to the return from `libos_futex_wait`. -/
def sleptRun : List (Event Bool) := sleeping ++ waking ++ preempting ++ execs false 36

set_option maxRecDepth 4000 in
theorem sleptRun_undisturbed : AllSteps step Undisturbed twoThreads sleptRun := by decide +kernel

set_option maxRecDepth 4000 in
theorem sleptRun_returns : (run step twoThreads sleptRun).map (fun s =>
    (s.cpu false, (s.stack false).isEmpty, s.entered false, s.flag ())) =
      some (some (), true, some (.libosFutexWait 0, false), true) := by
  decide +kernel

theorem allStates_kept_sleptRun : Booted twoThreads ∧
    AllSteps step Undisturbed twoThreads sleptRun ∧ AllStates step Kept twoThreads sleptRun :=
  ⟨twoThreads_booted, sleptRun_undisturbed,
    allStates_kept twoThreads_booted sleptRun sleptRun_undisturbed⟩

/-- **A thread that has slept in `libos_futex_wait` returns with the flag set**, though it called with
interrupts enabled and nothing disturbs the run. -/
theorem wait_returns_disabled :
    ∃ s : State Unit Bool, Booted s ∧ ∃ es, AllSteps step Undisturbed s es ∧
      ∃ s', run step s es = some s' ∧ ¬ Reenabled s' := by
  refine ⟨twoThreads, twoThreads_booted, sleptRun, sleptRun_undisturbed, ?_⟩
  obtain ⟨s', hrun, hs'⟩ := Option.map_eq_some_iff.1 sleptRun_returns
  simp only [Prod.mk.injEq, List.isEmpty_iff] at hs'
  obtain ⟨hcpu, hstack, hentered, hflag⟩ := hs'
  refine ⟨s', hrun, fun hre => ?_⟩
  exact absurd ((hre false () _ hcpu hstack hentered).symm.trans hflag) Bool.false_ne_true

end Interrupt

/-
**The scheduler's queues, flags and counter agree.**

The invariant has a part about each entity and a part about the whole.  For one entity it relates
the flags to where the thread stands in its own code and where it waits: a thread that waits anywhere
is not `onQueue`, and a running thread that is not `onQueue` has its queue kept in `oldQueue`, so that
a wakeup that comes before the thread is put down can give it back.  For the whole, a run queue holds
exactly the entities with `onQueue` and not `running` that name it, a futex queue exactly the threads
that wait there, and `running` says that some CPU has picked the entity.

Main definitions: `Inv`, `Consistent`.  Main results: `inv_step`, `consistent_run`.
-/

import SgxElps.Sched.Basic
import SgxElps.Lib.Placed
import Mathlib.Data.Set.Card
import SgxElps.Lib.Participants

namespace Sched

open Function (comp_update update update_eq_self update_idem update_of_ne update_self)
open Transition

variable {Cpu E F : Type}

/-! ### One entity -/

/-- The run queue an entity is linked in. -/
def SchedEntity.home (se : SchedEntity Cpu) : Option Cpu :=
  if se.onQueue && !se.running then se.queue else none

/-- The futex queue a thread is linked in. -/
def Wait.home : Wait F → Option F
  | .futex f => some f
  | .none | .fresh | .watched | .waking => Option.none

/-- The flags of an entity, where its thread stands and where it waits. -/
structure EntityOk (isIdle : Bool) (se : SchedEntity Cpu) (control : Control) (wait : Wait F) :
    Prop where
  queue_isSome : se.onQueue = true → se.queue.isSome = true
  oldQueue_isSome : se.running = true → se.onQueue = false → se.oldQueue.isSome = true
  onQueue_of_wait : wait ≠ .none → se.onQueue = false
  onQueue_of_user : se.running = true → control = .user → se.onQueue = true
  of_dequeued : se.running = true → control = .dequeued → wait = .none ∧ se.onQueue = false
  of_idle : isIdle = true → se.onQueue = false ∧ se.running = false ∧ wait = .none

section EntityOk

variable {isIdle : Bool} {se : SchedEntity Cpu} {control : Control} {wait : Wait F}

section

variable (h : EntityOk isIdle se control wait)

include h

theorem EntityOk.home_eq_none (hw : wait ≠ .none) :
    se.home = none := by
  simp [SchedEntity.home, h.onQueue_of_wait hw]

/-- A wakeup takes the thread from one place to wait to another. -/
theorem EntityOk.set_wait (hw : wait ≠ .none) (w : Wait F) :
    EntityOk isIdle se control w where
  queue_isSome := h.queue_isSome
  oldQueue_isSome := h.oldQueue_isSome
  onQueue_of_wait _ := h.onQueue_of_wait hw
  onQueue_of_user := h.onQueue_of_user
  of_dequeued hr hc := absurd (h.of_dequeued hr hc).1 hw
  of_idle hi := absurd (h.of_idle hi).2.2 hw

/-- A thread that has dequeued itself starts to wait. -/
theorem EntityOk.park (hr : se.running = true)
    (hc : control = .dequeued) (w : Wait F) : EntityOk isIdle se .parked w where
  queue_isSome := h.queue_isSome
  oldQueue_isSome := h.oldQueue_isSome
  onQueue_of_wait _ := (h.of_dequeued hr hc).2
  onQueue_of_user _ := nofun
  of_dequeued _ := nofun
  of_idle hi := absurd hr (by simp [(h.of_idle hi).2.1])

/-- The entity after `enqueueTask`: its thread was waiting, so it was not `onQueue`; if it is still
running it gets the queue it had. -/
theorem EntityOk.enqueue (hw : wait ≠ .none) (c : Cpu) :
    EntityOk isIdle ⟨if se.running then se.oldQueue else some c, none, true, se.running⟩ control
      (.none : Wait F) where
  queue_isSome _ := by
    cases hr : se.running with
    | false => rfl
    | true => exact h.oldQueue_isSome hr (h.onQueue_of_wait hw)
  oldQueue_isSome _ := nofun
  onQueue_of_wait := fun hn => absurd rfl hn
  onQueue_of_user _ _ := rfl
  of_dequeued hr hc := absurd (h.of_dequeued hr hc).1 hw
  of_idle hi := absurd (h.of_idle hi).2.2 hw

theorem EntityOk.dequeue (hr : se.running = true)
    (hc : control = .user) :
    EntityOk isIdle ⟨none, se.queue, false, se.running⟩ .dequeued wait where
  queue_isSome := nofun
  oldQueue_isSome _ _ := h.queue_isSome (h.onQueue_of_user hr hc)
  onQueue_of_wait _ := rfl
  onQueue_of_user _ := nofun
  of_dequeued _ _ := by
    refine ⟨?_, rfl⟩
    by_contra hw
    exact absurd (h.onQueue_of_user hr hc) (by simp [h.onQueue_of_wait hw])
  of_idle hi := absurd hr (by simp [(h.of_idle hi).2.1])

theorem EntityOk.stop :
    EntityOk isIdle { se with running := false } control wait where
  queue_isSome := h.queue_isSome
  oldQueue_isSome := nofun
  onQueue_of_wait := h.onQueue_of_wait
  onQueue_of_user := nofun
  of_dequeued := nofun
  of_idle hi := ⟨(h.of_idle hi).1, rfl, (h.of_idle hi).2.2⟩

theorem EntityOk.start (hon : se.onQueue = true) :
    EntityOk isIdle { se with running := true } .user wait where
  queue_isSome := h.queue_isSome
  oldQueue_isSome _ hoff := absurd hon (by simp [show se.onQueue = false from hoff])
  onQueue_of_wait := h.onQueue_of_wait
  onQueue_of_user _ _ := hon
  of_dequeued _ := nofun
  of_idle hi := absurd hon (by simp [(h.of_idle hi).1])

theorem EntityOk.rehome (c : Cpu) :
    EntityOk isIdle { se with queue := some c } control wait :=
  { h with queue_isSome := fun _ => rfl }

end

end EntityOk

theorem SchedEntity.home_eq_some {se : SchedEntity Cpu} {c : Cpu} :
    se.home = some c ↔ se.onQueue = true ∧ se.running = false ∧ se.queue = some c := by
  unfold home
  split <;> simp_all

/-! ### The invariant -/

/-- The entities `numTotalThread` counts. -/
def onQueueSet (entity : E → SchedEntity Cpu) : Set E := {e | (entity e).onQueue = true}

/-- `numTotalThread` is the number of entities with `onQueue`. -/
def Counted (entity : E → SchedEntity Cpu) (n : ℤ) : Prop :=
  (onQueueSet entity).Finite ∧ n = (onQueueSet entity).ncard

/-- The CPUs and the flag `running`: what a CPU has picked is its current thread until `schedule`
puts it down, and no two CPUs have picked the same thread. -/
structure CpusOk (idle : E → Bool) (running : E → Bool) (current picked : Cpu → Option E)
    (inSchedule : Cpu → Bool) : Prop where
  running_iff : ∀ e, running e = true ↔ ∃ c, picked c = some e
  picked_inj : ∀ c d e, picked c = some e → picked d = some e → c = d
  current_of_picked : ∀ c e, picked c = some e → current c = some e ∧ inSchedule c = false
  picked_of_current : ∀ c e, current c = some e → inSchedule c = false →
    picked c = some e ∨ idle e = true

/-- **The invariant.** -/
structure Inv (idle : E → Bool) (s : State Cpu E F) : Prop where
  entityOk : ∀ e, EntityOk (idle e) (s.entity e) (s.control e) (s.wait e)
  runQueues : Placed s.runQueue (SchedEntity.home ∘ s.entity)
  futexQueues : Placed s.futexQueue (Wait.home ∘ s.wait)
  cpus : CpusOk idle (SchedEntity.running ∘ s.entity) s.current s.picked s.inSchedule
  counted : Counted s.entity s.numTotalThread
  asserts : s.assertsHold = true

/-- What the scheduler is meant to keep: an entity is linked at most once; in a run queue exactly
while it is `onQueue` and not `running`, and then in the one it names; it is `running` exactly while
one CPU has picked it; `numTotalThread` counts the entities with `onQueue`; no assertion failed. -/
structure Consistent (s : State Cpu E F) : Prop where
  runQueue_nodup : ∀ c, (s.runQueue c).Nodup
  futexQueue_nodup : ∀ f, (s.futexQueue f).Nodup
  runQueue_unique : ∀ e c d, e ∈ s.runQueue c → e ∈ s.runQueue d → c = d
  futexQueue_unique : ∀ e f g, e ∈ s.futexQueue f → e ∈ s.futexQueue g → f = g
  not_both : ∀ e c f, e ∈ s.runQueue c → e ∉ s.futexQueue f
  linked_iff : ∀ e, (∃ c, e ∈ s.runQueue c) ↔
    (s.entity e).onQueue = true ∧ (s.entity e).running = false
  queue_eq : ∀ e c, e ∈ s.runQueue c → (s.entity e).queue = some c
  picked_unique : ∀ e c d, s.picked c = some e → s.picked d = some e → c = d
  running_iff : ∀ e, (s.entity e).running = true ↔ ∃ c, s.picked c = some e
  counted : Counted s.entity s.numTotalThread
  assertsHold : s.assertsHold = true

theorem inv_init (idle : E → Bool) : Inv idle (init idle : State Cpu E F) where
  entityOk e := by
    constructor <;> simp [init, SchedEntity.new]
  runQueues := Placed.nil
  futexQueues := by
    have : (Wait.home ∘ (init idle : State Cpu E F).wait) = fun _ => none := by
      funext e
      cases hi : idle e <;> simp [init, Wait.home, hi]
    rw [this]
    exact Placed.nil
  cpus := by constructor <;> simp [init, SchedEntity.new]
  counted := by simp [Counted, onQueueSet, init, SchedEntity.new]
  asserts := rfl

/-! ### The counter -/

section Counted

variable [DecidableEq E] {entity : E → SchedEntity Cpu} {n : ℤ} {e : E} {se : SchedEntity Cpu}

theorem Counted.succ (h : Counted entity n) (hoff : (entity e).onQueue = false)
    (hon : se.onQueue = true) : Counted (update entity e se) (n + 1) := by
  have hset : onQueueSet (update entity e se) = insert e (onQueueSet entity) := by
    ext x
    by_cases hx : x = e <;> simp [onQueueSet, hx, hon]
  have he : e ∉ onQueueSet entity := by simp [onQueueSet, hoff]
  rw [Counted, hset, Set.ncard_insert_of_notMem he h.1, h.2]
  exact ⟨h.1.insert e, by push_cast; rfl⟩

theorem Counted.pred (h : Counted entity n) (hon : (entity e).onQueue = true)
    (hoff : se.onQueue = false) : Counted (update entity e se) (n - 1) := by
  have hset : onQueueSet (update entity e se) = onQueueSet entity \ {e} := by
    ext x
    by_cases hx : x = e <;> simp [onQueueSet, hx, hoff]
  have he : e ∈ onQueueSet entity := hon
  have hcard := Set.ncard_sdiff_singleton_add_one he h.1
  rw [Counted, hset]
  refine ⟨h.1.sdiff, ?_⟩
  have := h.2
  omega

theorem Counted.same (h : Counted entity n) (heq : se.onQueue = (entity e).onQueue) :
    Counted (update entity e se) n := by
  have hset : onQueueSet (update entity e se) = onQueueSet entity := by
    ext x
    by_cases hx : x = e <;> simp [onQueueSet, hx, heq]
  rw [Counted, hset]
  exact h

end Counted

/-! ### The CPUs -/

section CpusOk

variable {idle running : E → Bool} {current picked : Cpu → Option E} {inSchedule : Cpu → Bool}
variable {c : Cpu} {e : E}

section

variable (h : CpusOk idle running current picked inSchedule)

include h

theorem CpusOk.running_of_picked
    (hp : picked c = some e) : running e = true :=
  (h.running_iff e).2 ⟨c, hp⟩

theorem CpusOk.picked_eq_none
    (hs : inSchedule c = true) : picked c = none := by
  cases hp : picked c with
  | none => rfl
  | some e => exact absurd hs (by simp [(h.current_of_picked c e hp).2])

theorem CpusOk.same [DecidableEq E] {b : Bool}
    (hb : running e = b) :
    CpusOk idle (update running e b) current picked inSchedule := by
  rw [← hb, update_eq_self]
  exact h

end

variable [DecidableEq Cpu]

theorem exists_update_none {x : E} :
    (∃ d, update picked c none d = some x) ↔ ∃ d, d ≠ c ∧ picked d = some x := by
  refine exists_congr fun d => ?_
  by_cases hd : d = c <;> simp [hd]

theorem CpusOk.putDown_none (h : CpusOk idle running current picked inSchedule)
    (hc : current c = none) :
    CpusOk idle running current (update picked c none)
      (update inSchedule c true) where
  running_iff x := by
    have hp : picked c = none := by
      cases hp : picked c with
      | none => rfl
      | some y => exact absurd (h.current_of_picked c y hp).1 (by simp [hc])
    rw [← hp, update_eq_self]
    exact h.running_iff x
  picked_inj d d' x := by
    grind [h.picked_inj d d' x]
  current_of_picked d x := by
    grind [h.current_of_picked d x]
  picked_of_current d x := by
    grind [h.picked_of_current d x]

variable [DecidableEq E]

theorem CpusOk.putDown (h : CpusOk idle running current picked inSchedule)
    (hc : current c = some e) (hs : inSchedule c = false)
    (hidle : idle e = true → running e = false) :
    CpusOk idle (update running e false) current (update picked c none)
      (update inSchedule c true) where
  running_iff x := by
    rw [exists_update_none]
    by_cases hx : x = e
    · subst hx
      rw [update_self]
      refine iff_of_false Bool.false_ne_true ?_
      rintro ⟨d, hdc, hd⟩
      rcases h.picked_of_current c x hc hs with hp | hi
      · exact hdc (h.picked_inj d c x hd hp)
      · exact absurd (h.running_of_picked hd) (by simp [hidle hi])
    · rw [update_of_ne hx, h.running_iff]
      refine exists_congr fun d => (and_iff_right_of_imp ?_).symm
      rintro hd rfl
      exact hx (Option.some_inj.1 ((h.current_of_picked d x hd).1.symm.trans hc))
  picked_inj d d' x := by
    grind [h.picked_inj d d' x]
  current_of_picked d x := by
    grind [h.current_of_picked d x]
  picked_of_current d x := by
    grind [h.picked_of_current d x]

theorem CpusOk.pick (h : CpusOk idle running current picked inSchedule)
    (hs : inSchedule c = true) (he : running e = false) :
    CpusOk idle (update running e true) (update current c (some e))
      (update picked c (some e)) (update inSchedule c false) where
  running_iff x := by
    by_cases hx : x = e
    · subst hx
      rw [update_self]
      exact iff_of_true rfl ⟨c, update_self ..⟩
    · rw [update_of_ne hx, h.running_iff]
      refine exists_congr fun d => ?_
      by_cases hd : d = c
      · subst hd
        simp [h.picked_eq_none hs, Ne.symm hx]
      · rw [update_of_ne hd]
  picked_inj d d' x := by
    grind [h.picked_inj d d' x, h.running_iff e]
  current_of_picked d x := by
    grind [h.current_of_picked d x]
  picked_of_current d x := by
    grind [h.picked_of_current d x]

omit [DecidableEq E] in
theorem CpusOk.pickIdle (h : CpusOk idle running current picked inSchedule)
    (hs : inSchedule c = true) (hi : idle e = true) :
    CpusOk idle running (update current c (some e)) picked
      (update inSchedule c false) where
  running_iff := h.running_iff
  picked_inj := h.picked_inj
  current_of_picked d x := by
    grind [h.current_of_picked d x, h.picked_eq_none hs]
  picked_of_current d x := by
    grind [h.picked_of_current d x]

end CpusOk

/-! ### The sections keep the invariant -/

section Step

variable {idle : E → Bool} {s : State Cpu E F} {c i : Cpu} {e : E} {f g : F} {q : List E}

/-- A thread in a futex queue waits. -/
theorem Inv.wait_ne_none_of_futex (h : Inv idle s) (hf : e ∈ s.futexQueue f) :
    s.wait e ≠ .none := by
  intro hn
  have hhome := (h.futexQueues.mem_iff f e).1 hf
  simp [Wait.home, hn] at hhome

theorem Inv.consistent (h : Inv idle s) : Consistent s where
  runQueue_nodup := h.runQueues.nodup
  futexQueue_nodup := h.futexQueues.nodup
  runQueue_unique _ _ _ := h.runQueues.eq_of_mem
  futexQueue_unique _ _ _ := h.futexQueues.eq_of_mem
  not_both e c f hc hf :=
     h.runQueues.notMem ((h.entityOk e).home_eq_none (h.wait_ne_none_of_futex hf)) c hc
  linked_iff e := by
    constructor
    · rintro ⟨c, hc⟩
      obtain ⟨hon, hr, -⟩ := SchedEntity.home_eq_some.1 ((h.runQueues.mem_iff c e).1 hc)
      exact ⟨hon, hr⟩
    · rintro ⟨hon, hr⟩
      obtain ⟨c, hc⟩ := Option.isSome_iff_exists.1 ((h.entityOk e).queue_isSome hon)
      exact ⟨c, (h.runQueues.mem_iff c e).2 (SchedEntity.home_eq_some.2 ⟨hon, hr, hc⟩)⟩
  queue_eq e c hc := (SchedEntity.home_eq_some.1 ((h.runQueues.mem_iff c e).1 hc)).2.2
  picked_unique e c d := h.cpus.picked_inj c d e
  running_iff := h.cpus.running_iff
  counted := h.counted
  assertsHold := h.asserts

/-- A thread that is picked is in no run queue, nor is an idle thread. -/
theorem Inv.notMem_runQueue (h : Inv idle s) (he : (∃ c, s.picked c = some e) ∨ idle e = true)
    (d : Cpu) : e ∉ s.runQueue d := by
  intro hmem
  obtain ⟨hon, hr, -⟩ := SchedEntity.home_eq_some.1 ((h.runQueues.mem_iff d e).1 hmem)
  rcases he with ⟨c, hp⟩ | hi
  · have : (s.entity e).running = true := h.cpus.running_of_picked hp
    rw [hr] at this
    cases this
  · rw [((h.entityOk e).of_idle hi).1] at hon
    cases hon

theorem Inv.pickIdle [DecidableEq Cpu] (h : Inv idle s) (hs : s.inSchedule c = true) (hi : idle e = true) :
    Inv idle (s.pickIdle c e) :=
  { h with cpus := h.cpus.pickIdle hs hi }

variable [DecidableEq E]

/-- The invariant of the entities after a step that concerns only `e`. -/
theorem entityOk_of_eq_off {entity entity' : E → SchedEntity Cpu}
    {control control' : E → Control} {wait wait' : E → Wait F} (e : E)
    (h : ∀ x, EntityOk (idle x) (entity x) (control x) (wait x))
    (hoff : ∀ x, x ≠ e → entity' x = entity x ∧ control' x = control x ∧ wait' x = wait x)
    (he : EntityOk (idle e) (entity' e) (control' e) (wait' e)) (x : E) :
    EntityOk (idle x) (entity' x) (control' x) (wait' x) := by
  by_cases hx : x = e
  · exact hx ▸ he
  · obtain ⟨h1, h2, h3⟩ := hoff x hx
    rw [h1, h2, h3]
    exact h x

section

variable (h : Inv idle s)

include h

/-- A thread that waits outside the futex queues is handed to `enqueueTask`. -/
theorem Inv.enqueueTask [DecidableEq Cpu] (hw : s.wait e = .fresh ∨ s.wait e = .waking) :
    Inv idle (s.enqueueTask c e) := by
  have hne : s.wait e ≠ .none := by rcases hw with hw | hw <;> simp [hw]
  have hok := h.entityOk e
  have hoff := hok.onQueue_of_wait hne
  have hwait : (s.wait e).home = none := by rcases hw with hw | hw <;> rw [hw] <;> rfl
  -- the entity `enqueueTask` leaves, once the assertion is known to hold
  have hse : (s.enqueueTask c e).entity = update s.entity e
      ⟨if (s.entity e).running then (s.entity e).oldQueue else some c, none, true,
        (s.entity e).running⟩ := by
    cases hr : (s.entity e).running <;> simp [State.enqueueTask, hr, hoff]
  refine
    { entityOk := entityOk_of_eq_off e h.entityOk
        (fun x hx => by simp [State.enqueueTask, hx]) ?entity
      runQueues := ?runQueues
      futexQueues := ?futexQueues
      cpus := ?cpus
      counted := ?counted
      asserts := by simp [State.enqueueTask, h.asserts, hoff] }
  case entity =>
    rw [hse, update_self]
    simpa [State.enqueueTask] using hok.enqueue hne c
  case runQueues =>
    rw [hse, comp_update]
    cases hr : (s.entity e).running with
    | true =>
      -- still running: it stays out of the run queues until it is put down
      have hq : (s.enqueueTask c e).runQueue = s.runQueue := by simp [State.enqueueTask, hr]
      rw [hq]
      exact h.runQueues.same (by simp [SchedEntity.home, hr])
    | false =>
      have hq : (s.enqueueTask c e).runQueue
          = update s.runQueue c (s.runQueue c ++ [e]) := by
        simp [State.enqueueTask, hr, hoff]
      rw [hq]
      exact h.runQueues.push (hok.home_eq_none hne) c
  case futexQueues =>
    have hq : (s.enqueueTask c e).wait = update s.wait e .none := rfl
    rw [hq, comp_update]
    exact h.futexQueues.same hwait
  case cpus =>
    rw [hse, comp_update]
    exact h.cpus.same rfl
  case counted =>
    rw [hse]
    have hn : (s.enqueueTask c e).numTotalThread = s.numTotalThread + 1 := by
      simp [State.enqueueTask, hoff]
    rw [hn]
    exact h.counted.succ hoff rfl

/-- A running thread dequeues itself: it is in no run queue, so no queue changes. -/
theorem Inv.dequeueTask [DecidableEq Cpu] (hp : s.picked c = some e) (hc : s.control e = .user) :
    Inv idle (s.dequeueTask e) := by
  have hr : (s.entity e).running = true := h.cpus.running_of_picked hp
  have hok := h.entityOk e
  have hon := hok.onQueue_of_user hr hc
  have hq : (s.dequeueTask e).runQueue = s.runQueue := by
    simp only [State.dequeueTask, hr, Bool.not_true, Bool.and_false, Bool.false_eq_true, ↓reduceIte]
    split <;> rfl
  have hn : (s.dequeueTask e).numTotalThread = s.numTotalThread - 1 := by
    simp [State.dequeueTask, hon]
  have hse : (s.dequeueTask e).entity = update s.entity e
      ⟨none, (s.entity e).queue, false, (s.entity e).running⟩ := rfl
  refine
    { entityOk := entityOk_of_eq_off e h.entityOk
        (fun x hx => by simp [State.dequeueTask, hx]) ?entity
      runQueues := ?runQueues
      futexQueues := h.futexQueues
      cpus := ?cpus
      counted := ?counted
      asserts := by simp [State.dequeueTask, h.asserts, hon, hok.queue_isSome hon] }
  case entity => simpa [State.dequeueTask] using hok.dequeue hr hc
  case runQueues =>
    rw [hq, hse, comp_update]
    exact h.runQueues.same (by simp [SchedEntity.home, hr])
  case cpus =>
    rw [hse, comp_update]
    exact h.cpus.same rfl
  case counted =>
    rw [hn, hse]
    exact h.counted.pred hon rfl

theorem Inv.futexEnqueue [DecidableEq F] (hp : s.picked c = some e)
    (hc : s.control e = .dequeued) : Inv idle (s.futexEnqueue e f) := by
  have hr : (s.entity e).running = true := h.cpus.running_of_picked hp
  have hok := h.entityOk e
  have hw : (s.wait e).home = none := by rw [(hok.of_dequeued hr hc).1]; rfl
  refine
    { h with
      entityOk := entityOk_of_eq_off e h.entityOk
        (fun x hx => by simp [State.futexEnqueue, hx]) ?entity
      futexQueues := ?futexQueues }
  case entity => simpa [State.futexEnqueue] using hok.park hr hc (.futex f)
  case futexQueues =>
    have := h.futexQueues.push hw f
    rwa [show some f = (Wait.futex f).home from rfl, ← comp_update] at this

/-- A thread links itself in the watch list of its CPU. -/
theorem Inv.watchAdd (hp : s.picked c = some e)
    (hc : s.control e = .dequeued) : Inv idle (s.watchAdd e) := by
  have hr : (s.entity e).running = true := h.cpus.running_of_picked hp
  have hok := h.entityOk e
  have hw : (s.wait e).home = none := by rw [(hok.of_dequeued hr hc).1]; rfl
  refine
    { h with
      entityOk := entityOk_of_eq_off e h.entityOk (fun x hx => by simp [State.watchAdd, hx]) ?entity
      futexQueues := ?futexQueues }
  case entity => simpa [State.watchAdd] using hok.park hr hc .watched
  case futexQueues =>
    have := h.futexQueues.same hw
    rwa [show none = (Wait.watched : Wait F).home from rfl, ← comp_update] at this

theorem Inv.futexErase [DecidableEq F] (hq : s.futexQueue f = e :: q) :
    Inv idle (s.futexErase f e q) := by
  have hne := h.wait_ne_none_of_futex (hq ▸ List.mem_cons_self)
  refine
    { h with
      entityOk := entityOk_of_eq_off e h.entityOk (fun x hx => by simp [State.futexErase, hx]) ?entity
      futexQueues := ?futexQueues }
  case entity => simpa [State.futexErase] using (h.entityOk e).set_wait hne .waking
  case futexQueues =>
    have := h.futexQueues.pop hq
    rwa [show none = (Wait.waking : Wait F).home from rfl, ← comp_update] at this

theorem Inv.futexMove [DecidableEq F] (hq : s.futexQueue f = e :: q) :
    Inv idle (s.futexMove f g e q) := by
  have hne := h.wait_ne_none_of_futex (hq ▸ List.mem_cons_self)
  refine
    { h with
      entityOk := entityOk_of_eq_off e h.entityOk (fun x hx => by simp [State.futexMove, hx]) ?entity
      futexQueues := ?futexQueues }
  case entity => simpa [State.futexMove] using (h.entityOk e).set_wait hne (.futex g)
  case futexQueues =>
    have := (h.futexQueues.pop hq).push (update_self ..) g
    rwa [update_idem, show some g = (Wait.futex g).home from rfl,
      ← comp_update] at this

theorem Inv.watchErase (hw : s.wait e = .watched) :
    Inv idle { s with wait := update s.wait e .waking } := by
  have hne : s.wait e ≠ .none := by simp [hw]
  refine
    { h with
      entityOk := entityOk_of_eq_off e h.entityOk (fun x hx => by simp [hx]) ?entity
      futexQueues := ?futexQueues }
  case entity => simpa using (h.entityOk e).set_wait hne .waking
  case futexQueues =>
    rw [comp_update]
    exact h.futexQueues.same (by simp [hw, Wait.home])

/-- A CPU puts its current thread down. -/
theorem Inv.putDown [DecidableEq Cpu] (hs : s.inSchedule c = false) : Inv idle (s.putDown c) := by
  cases hcur : s.current c with
  | none =>
    have heq : s.putDown c = { s with inSchedule := update s.inSchedule c true,
                                      picked := update s.picked c none } := by
      simp [State.putDown, hcur]
    rw [heq]
    exact { h with cpus := h.cpus.putDown_none hcur }
  | some e =>
    have hok := h.entityOk e
    have hr : (s.entity e).running = true ∨ idle e = true :=
      (h.cpus.picked_of_current c e hcur hs).imp_left fun hp => h.cpus.running_of_picked hp
    have hse : (s.putDown c).entity
        = update s.entity e { s.entity e with running := false } := by
      simp [State.putDown, hcur]
    have hcpu : (s.putDown c).current = s.current ∧
        (s.putDown c).picked = update s.picked c none ∧
        (s.putDown c).inSchedule = update s.inSchedule c true := by
      simp [State.putDown, hcur]
    refine
      { entityOk := entityOk_of_eq_off e h.entityOk
          (fun x hx => by simp [State.putDown, hcur, hx]) ?entity
        runQueues := ?runQueues
        futexQueues := ?futexQueues
        cpus := ?cpus
        counted := ?counted
        asserts := ?asserts }
    case entity => simpa [State.putDown, hcur] using hok.stop
    case runQueues =>
      have hhome : (s.entity e).home = none := by
        rcases hr with hr | hi
        · simp [SchedEntity.home, hr]
        · simp [SchedEntity.home, (hok.of_idle hi).1]
      rw [hse, comp_update]
      cases hon : (s.entity e).onQueue with
      | false =>
        have hq : (s.putDown c).runQueue = s.runQueue := by
          simp only [State.putDown, hcur, hon, Bool.false_eq_true, ↓reduceIte]
          split <;> rfl
        rw [hq]
        exact h.runQueues.same (by simp [SchedEntity.home, hon])
      | true =>
        -- preempted, or woken before it got here: it goes to the queue it names
        obtain ⟨d, hd⟩ := Option.isSome_iff_exists.1 (hok.queue_isSome hon)
        have hq : (s.putDown c).runQueue
            = update s.runQueue d (s.runQueue d ++ [e]) := by
          simp [State.putDown, hcur, hon, hd]
        have hx : ({ s.entity e with running := false } : SchedEntity Cpu).home = some d := by
          simp [SchedEntity.home, hon, hd]
        rw [hq, hx]
        exact h.runQueues.push hhome d
    case futexQueues => simpa [State.putDown, hcur] using h.futexQueues
    case cpus =>
      rw [hse, comp_update, hcpu.1, hcpu.2.1, hcpu.2.2]
      exact h.cpus.putDown hcur hs fun hi => (hok.of_idle hi).2.1
    case counted =>
      have hn : (s.putDown c).numTotalThread = s.numTotalThread := by
        simp [State.putDown, hcur]
      rw [hse, hn]
      exact h.counted.same rfl
    case asserts =>
      cases hon : (s.entity e).onQueue with
      | false => simp [State.putDown, hcur, h.asserts, hon]
      | true => simp [State.putDown, hcur, h.asserts, hok.queue_isSome hon]

theorem Inv.pick [DecidableEq Cpu] (hq : s.runQueue c = e :: q) (hs : s.inSchedule c = true) :
    Inv idle (s.pick c e q) := by
  have hmem : e ∈ s.runQueue c := hq ▸ List.mem_cons_self
  obtain ⟨hon, hr, -⟩ := SchedEntity.home_eq_some.1 ((h.runQueues.mem_iff c e).1 hmem)
  refine
    { entityOk := entityOk_of_eq_off e h.entityOk (fun x hx => by simp [State.pick, hx]) ?entity
      runQueues := ?runQueues
      futexQueues := h.futexQueues
      cpus := ?cpus
      counted := h.counted.same rfl
      asserts := h.asserts }
  case entity => simpa [State.pick] using (h.entityOk e).start hon
  case runQueues =>
    have := h.runQueues.pop hq
    rwa [show none = ({ s.entity e with running := true } : SchedEntity Cpu).home from by
      simp [SchedEntity.home], ← comp_update] at this
  case cpus =>
    have := h.cpus.pick hs hr
    rwa [show true = ({ s.entity e with running := true } : SchedEntity Cpu).running from rfl,
      ← comp_update] at this

theorem Inv.balance [DecidableEq Cpu] (hci : c ≠ i) (he : e ∈ s.runQueue i) :
    Inv idle { s with
      runQueue := update (update s.runQueue i ((s.runQueue i).erase e)) c
        (s.runQueue c ++ [e])
      entity := update s.entity e { s.entity e with queue := some c } } := by
  obtain ⟨hon, hr, -⟩ := SchedEntity.home_eq_some.1 ((h.runQueues.mem_iff i e).1 he)
  refine
    { entityOk := entityOk_of_eq_off e h.entityOk (fun x hx => by simp [hx]) ?entity
      runQueues := ?runQueues
      futexQueues := h.futexQueues
      cpus := ?cpus
      counted := h.counted.same rfl
      asserts := h.asserts }
  case entity => simpa using (h.entityOk e).rehome c
  case runQueues =>
    have hx : ({ s.entity e with queue := some c } : SchedEntity Cpu).home = some c := by
      simp [SchedEntity.home, hon, hr]
    have := (h.runQueues.erase he).push (update_self ..) c
    rw [update_idem, update_of_ne hci] at this
    rwa [comp_update, hx]
  case cpus =>
    rw [comp_update]
    exact h.cpus.same rfl

end

variable [DecidableEq Cpu] [DecidableEq F]

/-- **Every step keeps the invariant.** -/
theorem inv_step {s' : State Cpu E F} {ev : Event Cpu E F} (h : Inv idle s)
    (hs : step idle s ev = some s') : Inv idle s' := by
  cases steps_of_step hs with
  | enqueueTask hw => exact h.enqueueTask hw
  | dequeueTask hp hc => exact h.dequeueTask hp hc
  | futexEnqueue hp hc => exact h.futexEnqueue hp hc
  | watchAdd hp hc => exact h.watchAdd hp hc
  | futexErase hq => exact h.futexErase hq
  | futexMove hq => exact h.futexMove hq
  | watchErase hw => exact h.watchErase hw
  | putDown hsch => exact h.putDown hsch
  | pick hq hsch => exact h.pick hq hsch
  | pickIdle hsch hi => exact h.pickIdle hsch hi
  | balanceNone => exact h
  | balance hci he hgood => exact h.balance hci he

theorem inv_run {evs : List (Event Cpu E F)}
    (hrun : run (step idle) (init idle) evs = some s) : Inv idle s :=
  run_induction (fun _ _ _ h hs => inv_step h hs) evs (inv_init idle) hrun

/-- **Consistency.**  Whatever the CPUs do and however their sections interleave, the links, the
flags and the counter agree and no assertion fails. -/
theorem consistent_run {evs : List (Event Cpu E F)}
    (hrun : run (step idle) (init idle) evs = some s) : Consistent s :=
  (inv_run hrun).consistent

/-! ### The queue a running thread goes back to -/

/-- A thread that a CPU has picked goes back to the queue of that CPU. -/
def HomeOk (s : State Cpu E F) : Prop :=
  ∀ c e, s.picked c = some e →
    if (s.entity e).onQueue then (s.entity e).queue = some c else (s.entity e).oldQueue = some c

omit [DecidableEq E] [DecidableEq Cpu] [DecidableEq F] in
theorem HomeOk.congr {s' : State Cpu E F} (h : HomeOk s) (hp : s'.picked = s.picked)
    (he : ∀ c e, s.picked c = some e → s'.entity e = s.entity e) : HomeOk s' := by
  intro d x hx
  rw [hp] at hx
  rw [he d x hx]
  exact h d x hx

theorem homeOk_step {s' : State Cpu E F} {ev : Event Cpu E F} (hinv : Inv idle s) (h : HomeOk s)
    (hs : step idle s ev = some s') : HomeOk s' := by
  cases steps_of_step hs with
  | @enqueueTask c e hw =>
    intro d x hx
    by_cases hxe : x = e
    · subst hxe
      have hne : s.wait x ≠ .none := by rcases hw with hw | hw <;> simp [hw]
      have hoff := (hinv.entityOk x).onQueue_of_wait hne
      have hr : (s.entity x).running = true := hinv.cpus.running_of_picked hx
      have hd := h d x hx
      rw [if_neg (by simp [hoff])] at hd
      simpa [State.enqueueTask, hr] using hd
    · simpa [State.enqueueTask, hxe] using h d x hx
  | @dequeueTask c e hp hc =>
    intro d x hx
    by_cases hxe : x = e
    · subst hxe
      have hon := (hinv.entityOk x).onQueue_of_user (hinv.cpus.running_of_picked hp) hc
      have hd := h d x hx
      rw [if_pos hon] at hd
      simpa [State.dequeueTask] using hd
    · simpa [State.dequeueTask, hxe] using h d x hx
  | futexEnqueue hp hc => exact h.congr rfl fun _ _ _ => rfl
  | watchAdd hp hc => exact h.congr rfl fun _ _ _ => rfl
  | futexErase hq => exact h.congr rfl fun _ _ _ => rfl
  | futexMove hq => exact h.congr rfl fun _ _ _ => rfl
  | watchErase hw => exact h.congr rfl fun _ _ _ => rfl
  | @putDown c hsch =>
    intro d x hx
    have hpicked : (s.putDown c).picked = update s.picked c none := by
      unfold State.putDown
      dsimp only
      split <;> rfl
    rw [hpicked] at hx
    by_cases hd : d = c
    · simp [hd] at hx
    · rw [update_of_ne hd] at hx
      have hentity : (s.putDown c).entity x = s.entity x := by
        cases hcur : s.current c with
        | none => simp [State.putDown, hcur]
        | some e =>
          have hxe : x ≠ e := by
            rintro rfl
            rcases hinv.cpus.picked_of_current c x hcur hsch with hp | hi
            · exact hd (hinv.cpus.picked_inj d c x hx hp)
            · have hr : (s.entity x).running = true := hinv.cpus.running_of_picked hx
              rw [((hinv.entityOk x).of_idle hi).2.1] at hr
              cases hr
          simp [State.putDown, hcur, hxe]
      rw [hentity]
      exact h d x hx
  | @pick c e q hq hsch =>
    have hmem : e ∈ s.runQueue c := hq ▸ List.mem_cons_self
    obtain ⟨hon, hr, hqueue⟩ := SchedEntity.home_eq_some.1 ((hinv.runQueues.mem_iff c e).1 hmem)
    intro d x hx
    by_cases hxe : x = e
    · subst hxe
      have hd : d = c := by
        by_contra hd
        simp only [State.pick, update_of_ne hd] at hx
        have : (s.entity x).running = true := hinv.cpus.running_of_picked hx
        rw [hr] at this
        cases this
      simp [State.pick, hon, hqueue, hd]
    · have hx' : s.picked d = some x := by
        by_cases hd : d = c
        · simp [State.pick, hd, Ne.symm hxe] at hx
        · simpa [State.pick, hd] using hx
      simpa [State.pick, hxe] using h d x hx'
  | pickIdle hsch hi => exact h.congr rfl fun _ _ _ => rfl
  | balanceNone => exact h
  | @balance c i contextGood e hci he hgood =>
    obtain ⟨-, hr, -⟩ := SchedEntity.home_eq_some.1 ((hinv.runQueues.mem_iff i e).1 he)
    refine h.congr rfl fun d x hx => update_of_ne ?_ ..
    rintro rfl
    have : (s.entity x).running = true := hinv.cpus.running_of_picked hx
    rw [hr] at this
    cases this

end Step

/-- CPU 1 wakes a thread from a futex queue while it still runs on CPU 0; the thread is put down into
its old queue, and CPU 1 pulls it over and picks it. -/
def earlyWakeup : List (Event (Fin 2) (Fin 3) Unit) :=
  [.enqueueTask 0 0, .putDown 0, .pick 0, .dequeueTask 0, .futexEnqueue 0 (), .futexErase (),
    .enqueueTask 1 0, .putDown 0, .putDown 1, .loadBalance 1 0 (fun _ => true), .pick 1,
    .pickIdle 0 2]

theorem consistent_run_earlyWakeup :
    ∃ s, run (step (· = 2)) (init (· = 2)) earlyWakeup = some s ∧
      s.picked 1 = some 0 ∧ Consistent s := by
  obtain ⟨s, hs, hp⟩ : ∃ s, run (step (· = 2)) (init (· = 2)) earlyWakeup = some s ∧
      s.picked 1 = some 0 := ⟨_, rfl, rfl⟩
  exact ⟨s, hs, hp, consistent_run hs⟩

end Sched

/-
**A request is served once, and its object is not rebuilt before it is done.**

Between its push and its `setDone` a request is *in service*, and then it is in exactly one place: in
the queue, in the pool, in the sleep map or with one worker.  Every step of a worker that reads or
writes a request finds it there, so after `setDone` no worker touches it.  On the side of the enclave,
a thread in `sleepWait` goes through four stages, from `dequeueTask` to the wakeup, and only in the
last is it runnable again; there its request is done and `enqueueTask` was called for it once.

A request that `checkSleep` has set done is still in the sleep map until the entry is erased, and a
handler that has set its request done has yet to call `wakeUpThread`; the thread may be back and
rebuild the request in the meantime.  The request is not touched any more, so this does no harm, but it
is why the result speaks of requests that are not done.

Main definitions: `Inv`, `Safe`.  Main results: `inv_step`, `safe_run`.
-/

import SgxElps.Request.Basic
import SgxElps.Sched.Invariant

namespace Request

open Function
open List
open Transition

variable {Cpu E F W : Type}

/-! ### The places of a request -/

inductive Place (W : Type) where
  | queue
  | pool
  | sleepMap
  | worker (w : W)
deriving DecidableEq

/-- The requests in the sleep map that `checkSleep` has not set done. -/
def State.pending (s : State Cpu E F W) : List (Req E) :=
  (if s.sleepLock.any Check.expired then s.sleepMap.tail else s.sleepMap).map Prod.snd

/-- The request in a handler that has not set it done. -/
def activeReq : Option (Job E) → List (Req E)
  | some j => if j.phase = .finished then [] else [j.req]
  | none => []

/-- The requests at each place. -/
def State.holders (s : State Cpu E F W) : Place W → List (Req E)
  | .queue => s.queue
  | .pool => s.pool
  | .sleepMap => s.pending
  | .worker w => activeReq (s.worker w)

/-- The request is pushed and not done. -/
def State.InService (s : State Cpu E F W) (r : Req E) : Prop :=
  (s.pc r.1 = .waiting r.2 ∨ s.pc r.1 = .sleeping r.2) ∧ s.done r = false

theorem activeReq_of_ne {j : Job E} (hj : j.phase ≠ .finished) : activeReq (some j) = [j.req] :=
  if_neg hj

theorem activeReq_of_finished {j : Job E} (hj : j.phase = .finished) : activeReq (some j) = [] :=
  if_pos hj

/-! ### The invariant -/

/-- The stages of thread `e` in `sleepWait`: where it waits, its `onQueue`, how often it was handed to
`enqueueTask`, and `done` and `owner` of its request. -/
inductive SleepOk (e : E) : Sched.Wait F → Bool → ℕ → Bool → Option E → Prop
  | dequeued (done : Bool) : SleepOk e .none false 0 done (some e)
  | watched (onQueue done : Bool) : SleepOk e .watched onQueue 0 done (some e)
  | waking (onQueue : Bool) (owner : Option E) : SleepOk e .waking onQueue 0 true owner
  | woken (owner : Option E) : SleepOk e .none true 1 true owner

section SleepOk

variable {e : E} {wait : Sched.Wait F} {onQueue done : Bool} {handed : ℕ} {owner : Option E}

theorem SleepOk.wait_home (h : SleepOk e wait onQueue handed done owner) : wait.home = none := by
  cases h <;> rfl

theorem SleepOk.wait_ne_fresh (h : SleepOk e wait onQueue handed done owner) : wait ≠ .fresh := by
  cases h <;> simp

theorem SleepOk.setDone (h : SleepOk e wait onQueue handed done owner) :
    SleepOk e wait onQueue handed true owner := by
  cases h with
  | dequeued _ => exact .dequeued true
  | watched _ _ => exact .watched _ true
  | waking _ _ => exact .waking _ _
  | woken _ => exact .woken _

theorem SleepOk.watch (h : SleepOk e (.none : Sched.Wait F) false handed done owner) :
    SleepOk e (.watched : Sched.Wait F) false handed done owner := by
  cases h with
  | dequeued _ => exact .watched _ _

theorem SleepOk.owner_of_watched (h : SleepOk e (.watched : Sched.Wait F) onQueue handed done owner) :
    owner = some e := by
  cases h with
  | watched _ _ => rfl

theorem SleepOk.take (h : SleepOk e (.watched : Sched.Wait F) onQueue handed true owner) :
    SleepOk e (.waking : Sched.Wait F) onQueue handed true none := by
  cases h with
  | watched _ _ => exact .waking _ _

theorem SleepOk.enqueue (h : SleepOk e (.waking : Sched.Wait F) onQueue handed done owner) :
    SleepOk e (.none : Sched.Wait F) true (handed + 1) done owner := by
  cases h with
  | waking _ _ => exact .woken _

theorem SleepOk.of_onQueue (h : SleepOk e (.none : Sched.Wait F) true handed done owner) :
    done = true ∧ handed = 1 := by
  cases h with
  | woken _ => exact ⟨rfl, rfl⟩

end SleepOk

/-- **The invariant.** -/
structure Inv (idle : E → Bool) (s : State Cpu E F W) : Prop where
  sched : Sched.Inv idle s.sched
  located : Located s.holders s.InService
  watched : Located s.watchList fun r =>
    s.pc r.1 = .sleeping r.2 ∧ s.sched.wait r.1 = .watched
  sleepOk : ∀ e k, s.pc e = .sleeping k → SleepOk e (s.sched.wait e) (s.sched.entity e).onQueue
    (s.handed e) (s.done (e, k)) (s.owner (e, k))
  done_of_built : ∀ e k, s.pc e = .built k → s.done (e, k) = false
  doneCount_eq : ∀ r, s.doneCount r = (s.done r).toNat

/-- What the protocol is for.  A request is set done at most once after it is built; a step of a
worker reads or writes only a request that is pushed and that nobody has set done, and no two workers
have the same one; `watchListCheck` finds the owner of a request; a thread returns from `sleepWait`
only when its request is done and it was handed to `enqueueTask` once; a request that its thread may
rebuild is not in the queue, in no watch list, and neither in the pool, in the sleep map nor in a
handler without being done. -/
structure Safe [DecidableEq Cpu] [DecidableEq E] [DecidableEq F] [DecidableEq W] (idle : E → Bool)
    (s : State Cpu E F W) : Prop where
  doneCount_le : ∀ r, s.doneCount r ≤ 1
  accessed : ∀ ev s' r, step idle s ev = some s' → s.accessed ev = some r →
    s.InService r ∧ s.doneCount r = 0
  exclusive : ∀ r p q, r ∈ s.holders p → r ∈ s.holders q → p = q
  owner : ∀ c r, r ∈ s.watchList c → s.owner r = some r.1
  ret : ∀ c s', step idle s (.ret c) = some s' → ∃ e k, s.thread c = some e ∧
    s.pc e = .sleeping k ∧ s.done (e, k) = true ∧ s.handed e = 1
  rebuild : ∀ c k content s', step idle s (.getRequest c k content) = some s' →
    ∃ e, s.thread c = some e ∧ (∀ d, (e, k) ∉ s.watchList d) ∧ ∀ p, (e, k) ∉ s.holders p

theorem inv_init (idle : E → Bool) : Inv idle (init idle : State Cpu E F W) where
  sched := Sched.inv_init idle
  located := by
    refine ⟨fun r => ?_, fun p => ?_, fun r p q hp => ?_⟩
    · simp only [State.InService, init]
      refine iff_of_false ?_ (by simp)
      rintro ⟨p, hp⟩
      cases p <;> simp [State.holders, State.pending, activeReq] at hp
    · cases p <;> simp [State.holders, State.pending, activeReq, init]
    · cases p <;> simp [State.holders, State.pending, activeReq, init] at hp
  watched := by constructor <;> simp [init]
  sleepOk e k := nofun
  done_of_built e k _ := rfl
  doneCount_eq r := rfl

section Inv

variable {idle : E → Bool} {s : State Cpu E F W} {c : Cpu} {e : E} {k : Kind} {r : Req E} {w : W}
  {j : Job E}

theorem thread_eq_some :
    s.thread c = some e ↔ s.sched.picked c = some e ∧ s.sched.control e = .user := by
  unfold State.thread
  cases hp : s.sched.picked c with
  | none => simp
  | some x =>
    by_cases hc : s.sched.control x = .user
    · simp only [hc, ↓reduceIte, Option.some_inj]
      exact ⟨fun h => ⟨h, h ▸ hc⟩, And.left⟩
    · simp only [hc, ↓reduceIte, Option.some_inj, reduceCtorEq, false_iff]
      rintro ⟨rfl, h⟩
      exact hc h

theorem Inv.onQueue_of_thread (h : Inv idle s) (ht : s.thread c = some e) :
    (s.sched.entity e).onQueue = true := by
  obtain ⟨hp, hc⟩ := thread_eq_some.1 ht
  exact (h.sched.entityOk e).onQueue_of_user (h.sched.cpus.running_of_picked hp) hc

theorem Inv.wait_of_thread (h : Inv idle s) (ht : s.thread c = some e) :
    s.sched.wait e = .none := by
  by_contra hw
  have hoff := (h.sched.entityOk e).onQueue_of_wait hw
  rw [h.onQueue_of_thread ht] at hoff
  cases hoff

theorem Inv.woken (h : Inv idle s) (ht : s.thread c = some e) (hpc : s.pc e = .sleeping k) :
    s.done (e, k) = true ∧ s.handed e = 1 := by
  have hok := h.sleepOk e k hpc
  rw [h.onQueue_of_thread ht, h.wait_of_thread ht] at hok
  exact hok.of_onQueue

theorem Inv.doneCount_of_inService (h : Inv idle s) (hr : s.InService r) : s.doneCount r = 0 := by
  rw [h.doneCount_eq, hr.2]
  rfl

theorem Inv.inService_of_job (h : Inv idle s) (hw : s.worker w = some j) (hj : j.phase ≠ .finished) :
    s.InService j.req := by
  refine h.located.of_mem (i := .worker w) ?_
  rw [State.holders, hw, activeReq_of_ne hj]
  exact mem_singleton_self _

theorem pending_eq {s : State Cpu E F W} (hl : ∀ m, s.sleepLock = some m → m.expired = false) :
    s.pending = s.sleepMap.map Prod.snd := by
  cases hs : s.sleepLock with
  | none => simp [State.pending, hs]
  | some m => simp [State.pending, hs, hl m hs]

/-- The first entry of the sleep map, until it is set done. -/
theorem Inv.inService_of_entry (h : Inv idle s) {m : Check W} {t : ℕ} {rest : List (ℕ × Req E)}
    (hl : s.sleepLock = some m) (hm : m.expired = false) (hs : s.sleepMap = (t, r) :: rest) :
    s.InService r := by
  refine h.located.of_mem (i := .sleepMap) ?_
  have hp : s.pending = s.sleepMap.map Prod.snd := by
    refine pending_eq fun m' hm' => ?_
    obtain rfl := Option.some_inj.1 (hm'.symm.trans hl)
    exact hm
  rw [State.holders, hp, hs]
  exact mem_cons_self

theorem Inv.owner_of_mem (h : Inv idle s) (hr : r ∈ s.watchList c) : s.owner r = some r.1 := by
  obtain ⟨hpc, hw⟩ := h.watched.of_mem hr
  have hok := h.sleepOk r.1 r.2 hpc
  rw [hw] at hok
  exact hok.owner_of_watched

end Inv

section Enclave

variable {idle : E → Bool} {s : State Cpu E F W} {c : Cpu} {e : E} {k : Kind} {r : Req E}

/-! ### The steps of the enclave -/

theorem Inv.enqueueTask_of_subject (h : Inv idle s) {sev : Sched.Event Cpu E F}
    (ha : s.admits sev = true) (hpc : s.pc e = .sleeping k)
    (hsub : sev.subject s.sched = some e) : ∃ c, sev = .enqueueTask c e := by
  -- a thread in a futex queue is in none of the stages
  have hfutex : ∀ f, (s.sched.futexQueue f).head? = some e → False := by
    intro f hf
    have hmem : e ∈ s.sched.futexQueue f := mem_of_head? hf
    have hhome := (h.sched.futexQueues.mem_iff f e).1 hmem
    rw [comp_apply, (h.sleepOk e k hpc).wait_home] at hhome
    cases hhome
  cases sev with
  | enqueueTask c x => exact ⟨c, by rw [Option.some_inj.1 hsub]⟩
  | dequeueTask c | futexEnqueue c f =>
    have hp : s.sched.picked c = some e := hsub
    simp [State.admits, hp, hpc] at ha
  | watchAdd c => cases ha
  | watchErase x => cases ha
  | futexErase f | futexMove f g => exact (hfutex f hsub).elim
  | putDown c | pick c | pickIdle c x | loadBalance c i g => cases hsub

variable [DecidableEq E]

theorem Inv.getRequest (h : Inv idle s) (hpc : s.pc e = .outside) (content : ℕ) :
    Inv idle (s.getRequest e k content) where
  sched := h.sched
  located := by
    refine h.located.congr fun r => ?_
    by_cases hr : r.1 = e
    · simp [State.InService, State.getRequest, hr, hpc]
    · have hne : r ≠ (e, k) := fun h => hr (congrArg Prod.fst h)
      simp [State.InService, State.getRequest, hr, hne]
  watched := by
    refine h.watched.congr fun r => ?_
    by_cases hr : r.1 = e
    · simp [State.getRequest, hr, hpc]
    · simp [State.getRequest, hr]
  sleepOk x l hx := by
    have hne : x ≠ e := by
      rintro rfl
      simp [State.getRequest] at hx
    simp only [State.getRequest, update_of_ne hne] at hx
    simpa [State.getRequest, hne] using h.sleepOk x l hx
  done_of_built x l hx := by
    by_cases hne : x = e
    · subst hne
      obtain rfl : k = l := by simpa [State.getRequest] using hx
      simp [State.getRequest]
    · simp only [State.getRequest, update_of_ne hne] at hx
      simpa [State.getRequest, hne] using h.done_of_built x l hx
  doneCount_eq r := by
    by_cases hr : r = (e, k)
    · simp [State.getRequest, hr]
    · simpa [State.getRequest, hr] using h.doneCount_eq r

theorem Inv.push (h : Inv idle s) (hpc : s.pc e = .built k) : Inv idle (s.push e k) where
  sched := h.sched
  located := by
    have hnot : ¬ s.InService (e, k) := by simp [State.InService, hpc]
    refine h.located.add (a := (e, k)) (i := .queue) hnot perm_append_comm ?_ fun r => ?_
    · intro p hp
      cases p with
      | queue => exact absurd rfl hp
      | _ => rfl
    · rcases r with ⟨x, l⟩
      by_cases hx : x = e
      · subst hx
        by_cases hl : l = k
        · simp [State.InService, State.push, hl, h.done_of_built x k hpc]
        · simp [State.InService, State.push, hpc, hl, Ne.symm hl]
      · simp [State.InService, State.push, hx]
  watched := by
    refine h.watched.congr fun r => ?_
    by_cases hr : r.1 = e
    · simp [State.push, hr, hpc]
    · simp [State.push, hr]
  sleepOk x l hx := by
    have hne : x ≠ e := by
      rintro rfl
      simp [State.push] at hx
    simp only [State.push, update_of_ne hne] at hx
    exact h.sleepOk x l hx
  done_of_built x l hx := by
    have hne : x ≠ e := by
      rintro rfl
      simp [State.push] at hx
    simp only [State.push, update_of_ne hne] at hx
    exact h.done_of_built x l hx
  doneCount_eq := h.doneCount_eq

theorem Inv.leave (h : Inv idle s) (hserv : ∀ k, ¬ s.InService (e, k))
    (hwait : s.sched.wait e ≠ .watched) : Inv idle (s.leave e) where
  sched := h.sched
  located := by
    refine h.located.congr fun r => ?_
    rcases r with ⟨x, l⟩
    by_cases hx : x = e
    · subst hx
      exact iff_of_false (by simp [State.InService, State.leave]) (hserv l)
    · simp [State.InService, State.leave, hx]
  watched := by
    refine h.watched.congr fun r => ?_
    by_cases hr : r.1 = e
    · simp [State.leave, hr, hwait]
    · simp [State.leave, hr]
  sleepOk x l hx := by
    have hne : x ≠ e := by
      rintro rfl
      simp [State.leave] at hx
    simp only [State.leave, update_of_ne hne] at hx
    exact h.sleepOk x l hx
  done_of_built x l hx := by
    have hne : x ≠ e := by
      rintro rfl
      simp [State.leave] at hx
    simp only [State.leave, update_of_ne hne] at hx
    exact h.done_of_built x l hx
  doneCount_eq := h.doneCount_eq

variable [DecidableEq Cpu]

theorem Inv.sleepDequeue (h : Inv idle s) (ht : s.thread c = some e) (hpc : s.pc e = .waiting k) :
    Inv idle (s.sleepDequeue e k) where
  sched := by
    obtain ⟨hp, hc⟩ := thread_eq_some.1 ht
    exact h.sched.dequeueTask hp hc
  located := by
    refine h.located.congr fun r => ?_
    rcases r with ⟨x, l⟩
    by_cases hx : x = e
    · subst hx
      simp [State.InService, State.sleepDequeue, hpc]
    · simp [State.InService, State.sleepDequeue, hx]
  watched := by
    refine h.watched.congr fun r => ?_
    by_cases hr : r.1 = e
    · have hw : (s.sched.dequeueTask e).wait e = .none := h.wait_of_thread ht
      simp [State.sleepDequeue, hr, hpc, hw]
    · simp [State.sleepDequeue, hr, Sched.State.dequeueTask]
  sleepOk x l hx := by
    by_cases hne : x = e
    · subst hne
      obtain rfl : k = l := by simpa [State.sleepDequeue] using hx
      have hw : (s.sched.dequeueTask x).wait x = .none := h.wait_of_thread ht
      have hon : ((s.sched.dequeueTask x).entity x).onQueue = false := by
        simp [Sched.State.dequeueTask]
      simp only [State.sleepDequeue, hw, hon, update_self]
      exact .dequeued _
    · simp only [State.sleepDequeue, update_of_ne hne] at hx
      simpa [State.sleepDequeue, Sched.State.dequeueTask, hne] using h.sleepOk x l hx
  done_of_built x l hx := by
    have hne : x ≠ e := by
      rintro rfl
      simp [State.sleepDequeue] at hx
    simp only [State.sleepDequeue, update_of_ne hne] at hx
    exact h.done_of_built x l hx
  doneCount_eq := h.doneCount_eq

theorem Inv.sleepAdd (h : Inv idle s) (hp : s.sched.picked c = some e)
    (hc : s.sched.control e = .dequeued) (hpc : s.pc e = .sleeping k) :
    Inv idle (s.sleepAdd c e k) := by
  have hr := h.sched.cpus.running_of_picked hp
  obtain ⟨hw, hon⟩ := (h.sched.entityOk e).of_dequeued hr hc
  refine
    { h with
      sched := h.sched.watchAdd hp hc
      watched := ?watched
      sleepOk := fun x l hx => ?sleepOk }
  case watched =>
    refine h.watched.add (a := (e, k)) (i := c) (by simp [hw]) ?_ (fun d hd => ?_) fun r => ?_
    · simp [State.sleepAdd]
    · simp [State.sleepAdd, hd]
    · rcases r with ⟨x, l⟩
      by_cases hx : x = e
      · subst hx
        simp [State.sleepAdd, Sched.State.watchAdd, hpc, hw, eq_comm]
      · simp [State.sleepAdd, Sched.State.watchAdd, hx]
  case sleepOk =>
    by_cases hne : x = e
    · subst hne
      have hok := h.sleepOk x l hx
      rw [hw, hon] at hok
      simp only [State.sleepAdd, Sched.State.watchAdd, update_self, hon]
      exact hok.watch
    · simpa [State.sleepAdd, Sched.State.watchAdd, hne] using h.sleepOk x l hx

theorem Inv.watchTake (h : Inv idle s) (ho : s.owner r = some e) (hr : r ∈ s.watchList c)
    (hd : s.done r = true) : Inv idle (s.watchTake c r e) := by
  obtain rfl : r.1 = e := Option.some_inj.1 ((h.owner_of_mem hr).symm.trans ho)
  obtain ⟨hpc, hw⟩ := h.watched.of_mem hr
  refine
    { h with
      sched := h.sched.watchErase hw
      watched := ?watched
      sleepOk := fun x l hx => ?sleepOk }
  case watched =>
    refine h.watched.remove (a := r) (i := c) ?_ (fun d hd => ?_) fun q => ?_
    · simpa [State.watchTake] using perm_cons_erase hr
    · simp [State.watchTake, hd]
    · by_cases hq : q.1 = r.1
      · by_cases hqr : q = r
        · simp [State.watchTake, hqr]
        · -- the thread sleeps on one request only
          have hl : q.2 ≠ r.2 := fun hl => hqr (Prod.ext hq hl)
          simp [State.watchTake, hq, hpc, Ne.symm hl]
      · have hqr : q ≠ r := fun h => hq (congrArg Prod.fst h)
        simp [State.watchTake, hq, hqr]
  case sleepOk =>
    by_cases hne : x = r.1
    · subst hne
      obtain rfl : r.2 = l := by simpa [State.watchTake, hpc] using hx
      have hok := h.sleepOk r.1 r.2 hpc
      rw [hw, Prod.mk.eta, hd] at hok
      simp only [State.watchTake, update_self, Prod.mk.eta, hd]
      exact hok.take
    · have hqr : (x, l) ≠ r := fun h => hne (congrArg Prod.fst h)
      simpa [State.watchTake, hne, hqr] using h.sleepOk x l hx

variable [DecidableEq F]

/-- A step of the scheduler. -/
theorem Inv.schedStep (h : Inv idle s) {sev : Sched.Event Cpu E F} {sched : Sched.State Cpu E F}
    (ha : s.admits sev = true) (hs : Sched.step idle s.sched sev = some sched) :
    Inv idle { s with sched := sched, handed := s.handedAfter sev } := by
  have hsteps := Sched.steps_of_step hs
  -- a thread in `sleepWait` is handed to `enqueueTask`, or nothing changes for it
  have hcases : ∀ e k, s.pc e = .sleeping k →
      (s.sched.wait e = .waking ∧ sched.wait e = .none ∧ (sched.entity e).onQueue = true ∧
        s.handedAfter sev e = s.handed e + 1) ∨
      (sched.wait e = s.sched.wait e ∧ (sched.entity e).onQueue = (s.sched.entity e).onQueue ∧
        s.handedAfter sev e = s.handed e) := by
    intro e k hpc
    by_cases hsub : sev.subject s.sched = some e
    · obtain ⟨c, rfl⟩ := h.enqueueTask_of_subject ha hpc hsub
      cases hsteps with
      | enqueueTask hw =>
        have hwaking := hw.resolve_left (h.sleepOk e k hpc).wait_ne_fresh
        exact .inl ⟨hwaking, by simp [Sched.State.enqueueTask],
          by simp [Sched.State.enqueueTask], by simp [State.handedAfter]⟩
    · obtain ⟨hw, hon⟩ := hsteps.wait_onQueue_eq hsub
      refine .inr ⟨hw, hon, ?_⟩
      cases sev with
      | enqueueTask c x =>
        exact update_of_ne (fun hx => hsub (congrArg some hx.symm)) ..
      | _ => rfl
  refine
    { h with
      sched := Sched.inv_step h.sched hs
      watched := h.watched.congr fun r => and_congr_right fun hpc => ?_
      sleepOk := fun e k hpc => ?_ }
  · rcases hcases r.1 r.2 hpc with ⟨hw, hw', -, -⟩ | ⟨hw, -, -⟩
    · simp [hw, hw']
    · rw [hw]
  · have hok := h.sleepOk e k hpc
    rcases hcases e k hpc with ⟨hw, hw', hon, hn⟩ | ⟨hw, hon, hn⟩
    · dsimp only
      rw [hw', hon, hn]
      rw [hw] at hok
      exact hok.enqueue
    · dsimp only
      rw [hw, hon, hn]
      exact hok

end Enclave

/-! ### The steps of the workers -/

section Workers

variable {idle : E → Bool} {s : State Cpu E F W} {r : Req E} {w : W} {j : Job E}

theorem Inv.of_pending (h : Inv idle s) {s' : State Cpu E F W}
    (hs' : s' = { s with timeSpec := s'.timeSpec, sleepMap := s'.sleepMap, sleepLock := s'.sleepLock })
    (hp : s'.pending = s.pending) : Inv idle s' := by
  have hholders : s'.holders = s.holders := by
    funext q
    cases q with
    | sleepMap => exact hp
    | _ => rw [hs']; rfl
  have hlocated : Located s'.holders s.InService := hholders ▸ h.located
  rw [hs'] at hlocated ⊢
  exact { h with located := hlocated }

/-- A request in service is set done, and the place where it was gives it up. -/
theorem Inv.setDone [DecidableEq E] (h : Inv idle s) (hr : s.InService r) {s' : State Cpu E F W}
    (hs' : s' = { s.setDone r with worker := s'.worker, sleepLock := s'.sleepLock })
    {p : Place W} (hp : (s.holders p).Perm (r :: s'.holders p))
    (hoff : ∀ q, q ≠ p → s'.holders q = s.holders q) : Inv idle s' := by
  have hserv : ∀ q, s'.InService q ↔ q ≠ r ∧ s.InService q := by
    intro q
    rw [hs']
    by_cases hq : q = r
    · simp [State.InService, State.setDone, hq]
    · simp [State.InService, State.setDone, hq]
  have hlocated : Located s'.holders s'.InService := h.located.remove hp hoff hserv
  rw [hs'] at hlocated ⊢
  refine
    { h with
      located := hlocated
      sleepOk := fun x l hx => ?sleepOk
      done_of_built := fun x l hx => ?built
      doneCount_eq := fun q => ?count }
  case sleepOk =>
    have hok := h.sleepOk x l hx
    by_cases hq : (x, l) = r
    · simpa [State.setDone, hq] using hok.setDone
    · simpa [State.setDone, hq] using hok
  case built =>
    have hne : (x, l) ≠ r := by
      rintro rfl
      have hbuilt : s.pc x = .built l := hx
      simp [State.InService, hbuilt] at hr
    simpa [State.setDone, hne] using h.done_of_built x l hx
  case count =>
    by_cases hq : q = r
    · simp [State.setDone, hq, h.doneCount_of_inService hr]
    · simpa [State.setDone, hq] using h.doneCount_eq q

theorem Inv.expire [DecidableEq E] (h : Inv idle s) {m : Check W} {t : ℕ}
    {rest : List (ℕ × Req E)} (hl : s.sleepLock = some m) (hm : m.expired = false)
    (hs : s.sleepMap = (t, r) :: rest) :
    Inv idle { s.setDone r with sleepLock := some { m with expired := true } } := by
  refine h.setDone (h.inService_of_entry hl hm hs) rfl (p := .sleepMap) ?_ fun q hq => ?_
  · simp [State.holders, State.pending, State.setDone, hl, hm, hs]
  · cases q with
    | sleepMap => exact absurd rfl hq
    | _ => rfl

variable [DecidableEq W]

theorem activeReq_update {worker : W → Option (Job E)} {job : Option (Job E)} {v : W}
    (hv : Place.worker v ≠ .worker w) :
    activeReq (update worker w job v) = activeReq (worker v) := by
  rw [update_of_ne fun h => hv (congrArg Place.worker h)]

theorem holders_setJob (job : Option (Job E)) :
    (s.setJob w job).holders = update s.holders (.worker w) (activeReq job) := by
  funext p
  cases p with
  | worker v =>
    by_cases hv : v = w
    · subst hv
      simp [State.holders, State.setJob]
    · simp [State.holders, State.setJob, hv]
  | _ => rfl

section

variable (h : Inv idle s)

include h

theorem Inv.setPhase (hw : s.worker w = some j) (hj : j.phase ≠ .finished)
    {ph : Phase} (hph : ph ≠ .finished) : Inv idle (s.setJob w (some { j with phase := ph })) := by
  have hsame : s.holders (.worker w) = [j.req] := by rw [State.holders, hw, activeReq_of_ne hj]
  refine { h with located := ?_ }
  rw [holders_setJob, activeReq_of_ne hph, ← hsame, update_eq_self]
  exact h.located

theorem Inv.finish (hw : s.worker w = some j) (hj : j.phase = .finished) :
    Inv idle (s.setJob w none) := by
  have hsame : s.holders (.worker w) = [] := by rw [State.holders, hw, activeReq_of_finished hj]
  refine { h with located := ?_ }
  rw [holders_setJob, activeReq, ← hsame, update_eq_self]
  exact h.located

theorem Inv.take [DecidableEq E] (hw : s.worker w = none) (hr : r ∈ s.queue) :
    Inv idle { s.setJob w (some ⟨r, .taken, false⟩) with queue := s.queue.erase r } := by
  refine { h with located := ?_ }
  refine h.located.move (i := .queue) (j := .worker w) (a := r) nofun
    (perm_cons_erase hr) ?_ fun p hp hp' => ?_
  · simp [State.holders, State.setJob, activeReq, hw]
  · cases p with
    | queue => exact absurd rfl hp
    | worker v => exact activeReq_update hp'
    | _ => rfl

theorem Inv.poolTake [DecidableEq E] (hw : s.worker w = none) (hr : r ∈ s.pool) :
    Inv idle { s.setJob w (some ⟨r, .acked, true⟩) with pool := s.pool.erase r } := by
  refine { h with located := ?_ }
  refine h.located.move (i := .pool) (j := .worker w) (a := r) nofun
    (perm_cons_erase hr) ?_ fun p hp hp' => ?_
  · simp [State.holders, State.setJob, activeReq, hw]
  · cases p with
    | pool => exact absurd rfl hp
    | worker v => exact activeReq_update hp'
    | _ => rfl

theorem Inv.post (hw : s.worker w = some j) (hj : j.phase ≠ .finished) :
    Inv idle { s.setJob w none with pool := s.pool ++ [j.req] } := by
  refine { h with located := ?_ }
  refine h.located.move (i := .worker w) (j := .pool) (a := j.req) nofun ?_
    perm_append_comm fun p hp hp' => ?_
  · simp [State.holders, State.setJob, hw, hj, activeReq]
  · cases p with
    | pool => exact absurd rfl hp'
    | worker v => exact activeReq_update hp
    | _ => rfl

theorem Inv.insertSleep (hw : s.worker w = some j) (hj : j.phase ≠ .finished)
    (hl : s.sleepLock = none) : Inv idle ((s.insertSleep j.req).setJob w none) := by
  have hpending : s.pending = s.sleepMap.map Prod.snd :=
    pending_eq fun m hm => by rw [hl] at hm; cases hm
  have hpending' : ((s.insertSleep j.req).setJob w none).pending
      = (s.insertSleep j.req).sleepMap.map Prod.snd :=
    pending_eq fun m hm => by rw [State.setJob, State.insertSleep, hl] at hm; cases hm
  refine { h with located := ?_ }
  refine h.located.move (i := .worker w) (j := .sleepMap) (a := j.req) nofun ?_ ?_
    fun p hp hp' => ?_
  · simp [State.holders, State.setJob, hw, hj, activeReq]
  · rw [State.holders, State.holders, hpending, hpending']
    exact (perm_orderedInsert _ _ _).map Prod.snd
  · cases p with
    | sleepMap => exact absurd rfl hp'
    | worker v => exact activeReq_update hp
    | _ => rfl

theorem Inv.setDoneJob [DecidableEq E] (hw : s.worker w = some j)
    (hj : j.phase ≠ .finished) :
    Inv idle ((s.setDone j.req).setJob w (some { j with phase := .finished })) := by
  refine h.setDone (h.inService_of_job hw hj) rfl (p := .worker w) ?_ fun q hq => ?_
  · simp [State.holders, State.setJob, hw, hj, activeReq]
  · cases q with
    | worker v => exact activeReq_update hq
    | _ => rfl

end

end Workers

/-! ### Every step, and every run -/

section Step

variable [DecidableEq Cpu] [DecidableEq E] [DecidableEq F] [DecidableEq W]
variable {idle : E → Bool} {s s' : State Cpu E F W} {ev : Event Cpu E F W}

/-- **The step lemma.** -/
theorem inv_step (h : Inv idle s) (hs : step idle s ev = some s') : Inv idle s' := by
  cases steps_of_step hs with
  | sched ha hsched => exact h.schedStep ha hsched
  | getRequest ht hpc => exact h.getRequest hpc _
  | abandon ht hpc =>
    refine h.leave (fun k => ?_) (by simp [h.wait_of_thread ht])
    simp [State.InService, hpc]
  | push ht hpc => exact h.push hpc
  | @pollDone c e ht hpc hd =>
    refine h.leave (fun k => ?_) (by simp [h.wait_of_thread ht])
    rintro ⟨hk | hk, hnot⟩
    · obtain rfl : .syscall = k := Pc.waiting.inj (hpc.symm.trans hk)
      rw [hd] at hnot
      cases hnot
    · rw [hpc] at hk
      cases hk
  | sleepDequeue ht hpc => exact h.sleepDequeue ht hpc
  | sleepAdd hp hc hpc => exact h.sleepAdd hp hc hpc
  | @ret c e k ht hpc =>
    refine h.leave (fun l => ?_) (by simp [h.wait_of_thread ht])
    rintro ⟨hl | hl, hnot⟩
    · rw [hpc] at hl
      cases hl
    · obtain rfl : k = l := Pc.sleeping.inj (hpc.symm.trans hl)
      rw [(h.woken ht hpc).1] at hnot
      cases hnot
  | watchTake ho hr hd => exact h.watchTake ho hr hd
  | take hw hr => exact h.take hw hr
  | poolTake hw hr => exact h.poolTake hw hr
  | dispatch hw hj => exact h.setPhase hw (by simp [hj]) nofun
  | epollBegin hw hj =>
    have hcounted : Phase.counted ≠ .finished := nofun
    exact { h.setPhase hw (by simp [hj]) hcounted with }
  | post hw hj => exact h.post hw (by simp [hj])
  | serve hw hj => exact h.setPhase hw (by simp [hj]) nofun
  | setDone hw hj => exact h.setDoneJob hw (by simp [hj])
  | finish hw hj => exact { h.finish hw hj with }
  | insertSleep hw hj hl => exact h.insertSleep hw (by simp [hj]) hl
  | checkBegin hl => exact h.of_pending rfl (by simp [State.pending, hl])
  | expire hl hk hm => exact h.expire hl hk hm
  | eraseEntry hl hk => exact h.of_pending rfl (by simp [State.pending, hl, hk])
  | checkEnd hl hk => exact h.of_pending rfl (by simp [State.pending, hl, hk])

theorem Inv.inService_of_accessed (h : Inv idle s) (hs : step idle s ev = some s') {r : Req E}
    (hr : s.accessed ev = some r) : s.InService r := by
  cases steps_of_step hs with
  | dispatch hw hj | epollBegin hw hj | serve hw hj | setDone hw hj | insertSleep hw hj hl =>
    obtain rfl : _ = r := by simpa [State.accessed, hw] using hr
    exact h.inService_of_job hw (by simp [hj])
  | expire hl hk hm =>
    obtain rfl : _ = r := by simpa [State.accessed, hm] using hr
    exact h.inService_of_entry hl hk hm
  | _ => cases hr

theorem Inv.safe (h : Inv idle s) : Safe idle s where
  doneCount_le r := by
    rw [h.doneCount_eq]
    exact Bool.toNat_le _
  accessed ev s' r hs hr := by
    have hserv := h.inService_of_accessed hs hr
    exact ⟨hserv, h.doneCount_of_inService hserv⟩
  exclusive := h.located.unique
  owner c r := h.owner_of_mem
  ret c s' hs := by
    cases steps_of_step hs with
    | @ret _ e k ht hpc => exact ⟨e, k, ht, hpc, h.woken ht hpc⟩
  rebuild c k content s' hs := by
    cases steps_of_step hs with
    | @getRequest _ e _ _ ht hpc =>
      exact ⟨e, ht, h.watched.notMem (by simp [hpc]),
        h.located.notMem (by simp [State.InService, hpc])⟩

theorem inv_run {evs : List (Event Cpu E F W)}
    (hrun : run (step idle) (init idle) evs = some s) : Inv idle s :=
  run_induction (fun _ _ _ h hs => inv_step h hs) evs (inv_init idle) hrun

/-- **Every interleaving of threads and workers is safe.** -/
theorem safe_run {evs : List (Event Cpu E F W)}
    (hrun : run (step idle) (init idle) evs = some s) : Safe idle s :=
  (inv_run hrun).safe

end Step

/-- One thread sleeps for five nanoseconds and is back before the worker has erased its entry. -/
def earlyReturn : List (Event Unit Unit Unit Unit) :=
  [.sched (.enqueueTask () ()), .sched (.putDown ()), .sched (.pick ()),
   .getRequest () .sleep 5, .push (), .sleepDequeue (), .sleepAdd (), .sched (.putDown ()),
   .take () ((), .sleep), .dispatch (), .insertSleep (),
   .checkBegin () 100, .checkEnd (), .checkBegin () 200, .expire (),
   .watchTake () ((), .sleep), .sched (.enqueueTask () ()), .sched (.pick ()), .ret ()]

theorem safe_run_earlyReturn :
    ∃ s : State Unit Unit Unit Unit,
      run (step fun _ => false) (init fun _ => false) earlyReturn = some s ∧
        s.thread () = some () ∧ s.pc () = .outside ∧ Safe (fun _ => false) s := by
  obtain ⟨s, hrun, ht, hpc⟩ : ∃ s : State Unit Unit Unit Unit,
      run (step fun _ => false) (init fun _ => false) earlyReturn = some s ∧
        s.thread () = some () ∧ s.pc () = .outside := ⟨_, rfl, rfl, rfl⟩
  exact ⟨s, hrun, ht, hpc, safe_run hrun⟩

/-! ### After `setDone` -/

/-- A request is rebuilt only when it has the property `P`. -/
def RebuiltOnlyIf [DecidableEq Cpu] [DecidableEq E] [DecidableEq F] [DecidableEq W]
    (idle : E → Bool) (s : State Cpu E F W) (P : Req E → Prop) : Prop :=
  ∀ c k content s', step idle s (.getRequest c k content) = some s' →
    ∃ e, s.thread c = some e ∧ P (e, k)

/-- One thread polls for the end of a system call and is back before the handler has returned. -/
def earlyPoll : List (Event Unit Unit Unit Unit) :=
  [.sched (.enqueueTask () ()), .sched (.putDown ()), .sched (.pick ()),
   .getRequest () .syscall sysGetpid, .push (),
   .take () ((), .syscall), .dispatch (), .serve (), .setDone (), .pollDone ()]

/-- A request that is done may be rebuilt while it is still in the sleep map, and while it is still in
its handler. -/
theorem rebuilt_in_sleepMap_and_in_handler :
    (¬ ∀ (evs : List (Event Unit Unit Unit Unit)) (s : State Unit Unit Unit Unit),
      run (step fun _ => false) (init fun _ => false) evs = some s →
        RebuiltOnlyIf (fun _ => false) s fun r => r ∉ s.sleepMap.map Prod.snd) ∧
    ¬ ∀ (evs : List (Event Unit Unit Unit Unit)) (s : State Unit Unit Unit Unit),
      run (step fun _ => false) (init fun _ => false) evs = some s →
        RebuiltOnlyIf (fun _ => false) s fun r => ∀ w, ∀ j ∈ s.worker w, j.req ≠ r := by
  constructor
  · intro h
    obtain ⟨s, hrun, hstep, hmem⟩ : ∃ s, run (step fun _ => false)
        (init fun _ => false) earlyReturn = some s ∧
        (step (fun _ => false) s (.getRequest () .sleep 5)).isSome ∧
        ((), Kind.sleep) ∈ s.sleepMap.map Prod.snd := ⟨_, rfl, rfl, mem_singleton_self _⟩
    obtain ⟨s', hs'⟩ := Option.isSome_iff_exists.1 hstep
    obtain ⟨e, -, hnot⟩ := h earlyReturn s hrun () .sleep 5 s' hs'
    exact hnot hmem
  · intro h
    obtain ⟨s, hrun, hstep, hjob⟩ : ∃ s, run (step fun _ => false)
        (init fun _ => false) earlyPoll = some s ∧
        (step (fun _ => false) s (.getRequest () .syscall 0)).isSome ∧
        s.worker () = some ⟨((), .syscall), .finished, false⟩ := ⟨_, rfl, rfl, rfl⟩
    obtain ⟨s', hs'⟩ := Option.isSome_iff_exists.1 hstep
    obtain ⟨e, -, hnot⟩ := h earlyPoll s hrun () .syscall 0 s' hs'
    exact hnot () _ hjob rfl

end Request

/-
**The counter of the calls that wait for events.**

`syscallRequestHandler` counts an `epoll_wait` in `epollCount`, asserts that no more than ten are
counted and posts the request to `ep_pool`; the thread of the pool that serves it decrements the
counter, but only after it has set the request done.  In between the enclave thread may be back with
its next request.  The counter is therefore the number of requests in flight *and* of the threads of
the pool that have yet to decrement it.

An enclave thread has one request at a time, so that with ten of them the requests in flight are those of
the threads that are not at rest.  The assertion holds throughout a run if and only if, whenever a worker
counts another request, fewer threads of the pool lag behind than enclave threads are at rest; in particular
if none lags.  If one does, the assertion can fail.

Main definitions: `State.inFlight`, `State.lagging` — the requests that are counted and not done, and the
threads of the pool between `setDone` and `epollCount--`; `State.resting` — the enclave threads without a
request in flight; `EpollOk` — what the counter is for; `Settled` — the condition.

Main results: `Counted.epollCount_eq` — what the counter counts; `Inv.inFlight_add_resting` — every thread
has a request in flight or is at rest; `allStates_epollOk_iff` — **when the counter stays within its bound**;
`allStates_epollOk_of_none_lagging`; `epoll_assertion_fails`.
-/

import SgxElps.Request.Invariant
import SgxElps.Lib.Participants

namespace Request

open Option (some_inj)
open Function (update update_of_ne update_self)
open List
open Transition

variable {Cpu E F W : Type}

/-! ### What is counted -/

/-- A worker that has incremented the counter, or a thread of the pool. -/
def Job.tracked (j : Job E) : Bool := j.pooled || j.phase = .counted

/-- The request is counted and not done. -/
def Job.inFlight (j : Job E) : Bool := j.tracked && j.phase ≠ .finished

/-- A thread of the pool that has set its request done and not decremented the counter. -/
def Job.lagging (j : Job E) : Bool := j.pooled && j.phase = .finished

section Count

variable [Fintype W]

/-- The number of workers whose job has the property `f`. -/
def jobs (f : Job E → Bool) (worker : W → Option (Job E)) : ℕ :=
  (Finset.univ.filter fun w => (worker w).any f).card

def State.inFlight (s : State Cpu E F W) : ℕ := s.pool.length + jobs Job.inFlight s.worker

def State.lagging (s : State Cpu E F W) : ℕ := jobs Job.lagging s.worker

/-- Thread `e` has a call that is counted and not done. -/
def State.Waits (s : State Cpu E F W) (e : E) : Prop :=
  (e, .syscall) ∈ s.pool ∨ ∃ w, ∃ j ∈ s.worker w, j.inFlight = true ∧ j.req = (e, .syscall)

instance [DecidableEq E] (s : State Cpu E F W) (e : E) : Decidable (s.Waits e) :=
  inferInstanceAs (Decidable (_ ∨ ∃ w, ∃ j ∈ s.worker w, _))

/-- The number of threads that have no such call. -/
def State.resting [Fintype E] [DecidableEq E] (s : State Cpu E F W) : ℕ :=
  (Finset.univ.filter fun e => ¬ s.Waits e).card

theorem jobs_eq_sum (f : Job E → Bool) (worker : W → Option (Job E)) :
    jobs f worker = ∑ w, ((worker w).any f).toNat := by
  rw [jobs, Finset.card_filter]
  refine Finset.sum_congr rfl fun w _ => ?_
  cases (worker w).any f <;> rfl

theorem jobs_update [DecidableEq W] (f : Job E → Bool) (worker : W → Option (Job E)) (w : W)
    (job : Option (Job E)) :
    jobs f (update worker w job) + ((worker w).any f).toNat =
      jobs f worker + (job.any f).toNat := by
  have hrest : ∀ v ∈ Finset.univ.erase w,
      ((update worker w job v).any f).toNat = ((worker v).any f).toNat := by
    intro v hv
    rw [update_of_ne (Finset.ne_of_mem_erase hv)]
  rw [jobs_eq_sum, jobs_eq_sum, ← Finset.add_sum_erase _ _ (Finset.mem_univ w),
    ← Finset.add_sum_erase _ (fun v => ((worker v).any f).toNat) (Finset.mem_univ w),
    Finset.sum_congr rfl hrest, update_self]
  omega

theorem jobs_tracked (worker : W → Option (Job E)) :
    jobs Job.tracked worker = jobs Job.inFlight worker + jobs Job.lagging worker := by
  rw [jobs_eq_sum, jobs_eq_sum, jobs_eq_sum, ← Finset.sum_add_distrib]
  refine Finset.sum_congr rfl fun w _ => ?_
  cases worker w with
  | none => rfl
  | some j =>
    obtain ⟨r, phase, pooled⟩ := j
    cases phase <;> cases pooled <;> rfl

theorem jobs_eq_zero {f : Job E → Bool} {worker : W → Option (Job E)}
    (h : ∀ w j, worker w = some j → f j = false) : jobs f worker = 0 := by
  rw [jobs, Finset.card_eq_zero, Finset.filter_eq_empty_iff]
  intro w _ hw
  cases hj : worker w with
  | none => simp [hj] at hw
  | some j => simp [hj, h w j hj] at hw

theorem any_inFlight {job : Option (Job E)} (h : job.any Job.inFlight = true) :
    ∃ j, job = some j ∧ j.inFlight = true := by
  cases job with
  | none => cases h
  | some j => exact ⟨j, rfl, h⟩

theorem Job.inFlight_iff {j : Job E} : j.inFlight = true ↔ j.tracked = true ∧ j.phase ≠ .finished := by
  simp [Job.inFlight]

end Count

/-! ### The bound -/

/-- What the counter is for: the assertion of `syscallRequestHandler` holds for every worker that is
about to evaluate it, and the counter is zero when no request is counted, posted or served. -/
structure EpollOk (s : State Cpu E F W) : Prop where
  assertion : ∀ w, ∀ j ∈ s.worker w, j.phase = .counted → s.epollCount ≤ 10
  zero : s.pool = [] → (∀ w, ∀ j ∈ s.worker w, j.tracked = false) → s.epollCount = 0

theorem epollOk_init (idle : E → Bool) : EpollOk (init idle : State Cpu E F W) :=
  ⟨nofun, fun _ _ => rfl⟩

/-- **A request is counted when fewer threads of the pool lag behind than enclave threads are at rest**, that
of the request among them.  Threads that are missing to ten count as such. -/
def Settled [Fintype E] [DecidableEq E] [Fintype W] (s : State Cpu E F W) : Event Cpu E F W → Prop
  | .epollBegin _ => s.lagging < s.resting + (10 - Fintype.card E)
  | _ => True

instance [Fintype E] [DecidableEq E] [Fintype W] (s : State Cpu E F W) (ev : Event Cpu E F W) :
    Decidable (Settled s ev) := by
  cases ev <;> first | exact Nat.decLt _ _ | exact isTrue trivial

/-! ### The invariant of the counter -/

section Invariant

variable [Fintype W]

/-- The counter counts the requests in the pool, and the workers and threads of the pool that are
tracked; all these requests are system calls. -/
structure Counted (s : State Cpu E F W) : Prop where
  count : s.epollCount = s.pool.length + jobs Job.tracked s.worker
  pool : ∀ r ∈ s.pool, r.2 = .syscall
  job : ∀ w, ∀ j ∈ s.worker w, j.tracked = true → j.req.2 = .syscall

variable {idle : E → Bool} {s s' : State Cpu E F W} {w : W} {j : Job E}

/-- **What the counter counts.** -/
theorem Counted.epollCount_eq (h : Counted s) : s.epollCount = s.inFlight + s.lagging := by
  rw [h.count, jobs_tracked, State.inFlight, State.lagging]
  omega

theorem counted_init (idle : E → Bool) : Counted (init idle : State Cpu E F W) where
  count := by
    have hnone : ∀ (w : W) (j : Job E), (init idle : State Cpu E F W).worker w = some j →
        j.tracked = false := fun _ _ hj => nomatch (show none = some _ from hj)
    rw [jobs_eq_zero hnone]
    rfl
  pool := nofun
  job := nofun

theorem Counted.congr (h : Counted s) (hcount : s'.epollCount = s.epollCount)
    (hpool : s'.pool = s.pool) (hworker : s'.worker = s.worker) : Counted s' where
  count := by rw [hcount, hpool, hworker, h.count]
  pool := hpool ▸ h.pool
  job := hworker ▸ h.job

theorem Counted.zero (h : Counted s) (hpool : s.pool = [])
    (hjobs : ∀ w, ∀ j ∈ s.worker w, j.tracked = false) : s.epollCount = 0 := by
  rw [h.count, hpool, jobs_eq_zero hjobs]
  rfl

variable [DecidableEq W]

/-- The job of one worker is replaced, and the counter follows. -/
theorem Counted.setJob (h : Counted s) {job : Option (Job E)}
    (hworker : s'.worker = update s.worker w job)
    (hcount : s'.epollCount + s.pool.length + ((s.worker w).any Job.tracked).toNat =
      s.epollCount + s'.pool.length + (job.any Job.tracked).toNat)
    (hpool : ∀ r ∈ s'.pool, r ∈ s.pool ∨ r.2 = .syscall)
    (hjob : ∀ j ∈ job, j.tracked = true → j.req.2 = .syscall) : Counted s' where
  count := by
    have hjobs := jobs_update Job.tracked s.worker w job
    have := h.count
    rw [hworker]
    omega
  pool r hr := (hpool r hr).elim (h.pool r) id
  job v j hj := by
    rw [hworker] at hj
    by_cases hv : v = w
    · subst hv
      rw [update_self] at hj
      exact hjob j hj
    · rw [update_of_ne hv] at hj
      exact h.job v j hj

theorem Counted.setPhase (h : Counted s) (hw : s.worker w = some j) {phase : Phase}
    (hworker : s'.worker = update s.worker w (some { j with phase := phase }))
    (hj : Job.tracked { j with phase := phase } = j.tracked)
    (hcount : s'.epollCount = s.epollCount) (hpool : s'.pool = s.pool) : Counted s' := by
  refine h.setJob hworker ?_ (fun r hr => Or.inl (hpool ▸ hr)) fun j' hj' htracked => ?_
  · rw [hw, Option.any_some, Option.any_some, hj, hcount, hpool]
  · obtain rfl := some_inj.1 hj'
    exact h.job w j hw (hj ▸ htracked)

end Invariant

/-! ### Every step -/

section Step

variable [DecidableEq Cpu] [DecidableEq E] [DecidableEq F] [DecidableEq W]
variable {idle : E → Bool} {s s' : State Cpu E F W} {ev : Event Cpu E F W} {w : W}

theorem epollBegin_guard (h : step idle s (.epollBegin w) = some s') :
    ∃ j, s.worker w = some j ∧ j.phase = .acked ∧ j.pooled = false ∧ j.req.2 = .syscall ∧
      s' = { s.setJob w (some { j with phase := .counted }) with
        epollCount := s.epollCount + 1 } := by
  simp only [step] at h
  split at h
  · next j hw =>
    simp only [jobStep, Option.ite_none_right_eq_some, some_inj] at h
    obtain ⟨⟨hj, hpooled, hkind, -⟩, rfl⟩ := h
    exact ⟨j, hw, hj, hpooled, hkind, rfl⟩
  · cases h

theorem insertSleep_kind (h : step idle s (.insertSleep w) = some s') {j : Job E}
    (hw : s.worker w = some j) : j.req.2 = .sleep := by
  simp only [step, hw, jobStep, Option.ite_none_right_eq_some] at h
  exact h.1.2.1

theorem counted_of_step (hs : Request.step idle s ev = some s') (hev : ∀ w, ev ≠ .epollBegin w) :
    s'.epollCount ≤ s.epollCount ∧
      ∀ v, ∀ j ∈ s'.worker v, j.phase = .counted → j ∈ s.worker v := by
  have hupdate : ∀ {worker : W → Option (Job E)} {w : W} {job : Option (Job E)},
      (∀ j ∈ job, j.phase ≠ .counted) →
        ∀ v, ∀ j ∈ update worker w job v, j.phase = .counted → j ∈ worker v := by
    intro worker w job hjob v j hj hcounted
    by_cases hv : v = w
    · subst hv
      rw [update_self] at hj
      exact absurd hcounted (hjob j hj)
    · rwa [update_of_ne hv] at hj
  cases steps_of_step hs with
  | take hw hr | poolTake hw hr | dispatch hw hj | serve hw hj | setDone hw hj =>
    refine ⟨le_rfl, hupdate fun j hj => ?_⟩
    obtain rfl := some_inj.1 hj
    exact nofun
  | epollBegin hw hj => exact absurd rfl (hev _)
  | post hw hj | insertSleep hw hj hl => exact ⟨le_rfl, hupdate nofun⟩
  | @finish w j hw hj =>
    refine ⟨?_, hupdate nofun⟩
    dsimp only
    split
    · omega
    · exact le_rfl
  | _ => exact ⟨le_rfl, fun _ _ hj _ => hj⟩

variable [Fintype W]

/-- **The step lemma.** -/
theorem Counted.step (h : Counted s) (hs : step idle s ev = some s') : Counted s' := by
  have hcases := steps_of_step hs
  cases hcases with
  | take hw hr =>
    refine h.setJob rfl ?_ (fun r => Or.inl) fun j hj htracked => ?_
    · rw [hw]
      rfl
    · obtain rfl := some_inj.1 hj
      cases htracked
  | @poolTake w r hw hr =>
    refine h.setJob rfl ?_ (fun q hq => Or.inl (mem_of_mem_erase hq)) fun j hj _ => ?_
    · have hlen : (s.pool.erase r).length + 1 = s.pool.length := length_erase_add_one hr
      rw [hw, ← hlen]
      push_cast
      change s.epollCount + _ + 0 = s.epollCount + _ + 1
      omega
    · obtain rfl := some_inj.1 hj
      exact h.pool r hr
  | dispatch hw hj | serve hw hj | setDone hw hj =>
    exact h.setPhase hw rfl (by simp [Job.tracked, hj]) rfl rfl
  | epollBegin hw hj =>
    obtain ⟨j', hw', -, hpooled, hkind, -⟩ := epollBegin_guard hs
    obtain rfl := some_inj.1 (hw.symm.trans hw')
    refine h.setJob rfl ?_ (fun r => Or.inl) fun j hj' _ => ?_
    · simp [hw, Job.tracked, hpooled, hj, State.setJob]
      omega
    · obtain rfl := some_inj.1 hj'
      exact hkind
  | @post w j hw hj =>
    have htracked : j.tracked = true := by simp [Job.tracked, hj]
    refine h.setJob rfl ?_ (fun r hr => ?_) fun j' hj' => ?_
    · simp [hw, htracked, State.setJob]
      omega
    · rcases mem_append.1 hr with hr | hr
      · exact Or.inl hr
      · rw [mem_singleton.1 hr]
        exact Or.inr (h.job _ _ hw htracked)
    · cases hj'
  | @finish w j hw hj =>
    refine h.setJob rfl ?_ (fun r => Or.inl) fun j' hj' => ?_
    · cases hp : j.pooled <;> simp [hw, Job.tracked, hj, hp, State.setJob]
      omega
    · cases hj'
  | @insertSleep w j hw hj hl =>
    have hkind := insertSleep_kind hs hw
    have htracked : j.tracked = false := by
      by_contra hne
      rw [h.job w j hw (by simpa using hne)] at hkind
      cases hkind
    refine h.setJob rfl ?_ (fun r => Or.inl) fun j' hj' => ?_
    · simp [hw, htracked, State.setJob, State.insertSleep]
    · cases hj'
  | _ => exact h.congr rfl rfl rfl

variable [Fintype E]

omit [DecidableEq Cpu] [DecidableEq F] in
/-- **Every thread has a request in flight or is at rest**: no two requests in flight are of one thread. -/
theorem Inv.inFlight_add_resting (h : Inv idle s) (hc : Counted s) :
    s.inFlight + s.resting = Fintype.card E := by
  let fliers : Finset W := Finset.univ.filter fun v => (s.worker v).any Job.inFlight
  -- each of these workers has a system call that is not done
  have hjob : ∀ v ∈ fliers, ∃ j, s.worker v = some j ∧ j.inFlight = true ∧
      s.holders (.worker v) = [j.req] ∧ j.req.2 = .syscall := by
    intro v hv
    obtain ⟨j, hj, hfly⟩ := any_inFlight (Finset.mem_filter.1 hv).2
    obtain ⟨htracked, hne⟩ := Job.inFlight_iff.1 hfly
    exact ⟨j, hj, hfly, by rw [State.holders, hj, activeReq_of_ne hne], hc.job v j hj htracked⟩
  let places : Finset (Place W) := insert .pool (fliers.image .worker)
  have hsyscall : ∀ p ∈ places, ∀ r ∈ s.holders p, r.2 = .syscall := by
    intro p hp r hr
    rcases Finset.mem_insert.1 hp with rfl | hp
    · exact hc.pool r hr
    · obtain ⟨v, hv, rfl⟩ := Finset.mem_image.1 hp
      obtain ⟨j, -, -, hholders, hkind⟩ := hjob v hv
      rw [hholders, mem_singleton] at hr
      exact hr ▸ hkind
  have hsum : ∑ p ∈ places, (s.holders p).length = s.inFlight := by
    have hone : ∀ v ∈ fliers, (s.holders (.worker v)).length = 1 := by
      intro v hv
      obtain ⟨j, -, -, hholders, -⟩ := hjob v hv
      rw [hholders]
      rfl
    rw [Finset.sum_insert (by simp), Finset.sum_image (fun _ _ _ _ => Place.worker.inj),
      Finset.sum_congr rfl hone, ← Finset.card_eq_sum_ones]
    rfl
  have hwaits : (places.biUnion fun p => (s.holders p).toFinset).image Prod.fst =
      Finset.univ.filter s.Waits := by
    ext e
    simp only [Finset.mem_image, Finset.mem_biUnion, mem_toFinset, Finset.mem_filter,
      Finset.mem_univ, true_and]
    constructor
    · rintro ⟨r, ⟨p, hp, hr⟩, rfl⟩
      have hkind := hsyscall p hp r hr
      rcases Finset.mem_insert.1 hp with rfl | hp
      · exact Or.inl (hkind ▸ hr)
      · obtain ⟨v, hv, rfl⟩ := Finset.mem_image.1 hp
        obtain ⟨j, hj, hfly, hholders, -⟩ := hjob v hv
        rw [hholders, mem_singleton] at hr
        exact Or.inr ⟨v, j, hj, hfly, by rw [← hr, ← hkind]⟩
    · rintro (hpool | ⟨v, j, hj, hfly, hreq⟩)
      · exact ⟨_, ⟨.pool, Finset.mem_insert_self .., hpool⟩, rfl⟩
      · have hv : v ∈ fliers := Finset.mem_filter.2 ⟨Finset.mem_univ v, by rw [hj, Option.any_some, hfly]⟩
        obtain ⟨j', hj', -, hholders, -⟩ := hjob v hv
        obtain rfl := some_inj.1 (hj.symm.trans hj')
        refine ⟨j.req, ⟨.worker v, Finset.mem_insert_of_mem (Finset.mem_image_of_mem _ hv), ?_⟩, by rw [hreq]⟩
        rw [hholders]
        exact mem_singleton_self _
  rw [← hsum, h.located.sum_length places Prod.fst, hwaits, State.resting]
  · exact Finset.card_filter_add_card_filter_not _
  · exact fun p hp a ha q hq b hb hab =>
      Prod.ext hab ((hsyscall p hp a ha).trans (hsyscall q hq b hb).symm)

theorem EpollOk.step_iff (hE : Fintype.card E ≤ 10) (hi : Inv idle s) (hc : Counted s) (h : EpollOk s)
    (hs : Request.step idle s ev = some s') : EpollOk s' ↔ Settled s ev := by
  have hc' := hc.step hs
  by_cases hev : ∃ w, ev = .epollBegin w
  · obtain ⟨w, rfl⟩ := hev
    obtain ⟨j, hw, hj, -, -, rfl⟩ := epollBegin_guard hs
    have hcount := hc.epollCount_eq
    have hthreads := hi.inFlight_add_resting hc
    constructor
    · intro h'
      have hle : s.epollCount + 1 ≤ 10 := by
        refine h'.assertion w { j with phase := .counted } ?_ rfl
        exact update_self ..
      change s.lagging < s.resting + (10 - Fintype.card E)
      omega
    · intro hsettled
      change s.lagging < s.resting + (10 - Fintype.card E) at hsettled
      refine ⟨fun _ _ _ _ => ?_, hc'.zero⟩
      change s.epollCount + 1 ≤ 10
      omega
  · rw [not_exists] at hev
    obtain ⟨hle, hback⟩ := counted_of_step hs hev
    have hsettled : Settled s ev := by
      cases ev with
      | epollBegin w => exact absurd rfl (hev w)
      | _ => trivial
    refine iff_of_true ⟨fun v j hj hcounted => ?_, hc'.zero⟩ hsettled
    exact hle.trans (h.assertion v j (hback v j hj hcounted) hcounted)

/-! ### Every run -/

/-- **The counter stays within its bound if and only if every request is counted in a settled state**, with at
most ten enclave threads. -/
theorem allStates_epollOk_iff (hE : Fintype.card E ≤ 10) (idle : E → Bool)
    (evs : List (Event Cpu E F W)) :
    Transition.AllStates (Request.step idle) EpollOk (init idle) evs ↔
      Transition.AllSteps (Request.step idle) Settled (init idle) evs :=
  allStates_iff_allSteps (J := fun s => Inv idle s ∧ Counted s)
    (fun _ _ _ h hs => ⟨inv_step h.1 hs, h.2.step hs⟩)
    (fun _ _ _ hj h hs => h.step_iff hE hj.1 hj.2 hs) evs ⟨inv_init idle, counted_init idle⟩
    (epollOk_init idle)

/-- The thread whose request is to be counted is at rest. -/
theorem Inv.resting_pos (h : Inv idle s) (hs : Request.step idle s (.epollBegin w) = some s') :
    0 < s.resting := by
  obtain ⟨j, hw, hj, hpooled, hkind, -⟩ := epollBegin_guard hs
  have hholds : s.holders (.worker w) = [j.req] := by
    rw [State.holders, hw, activeReq_of_ne (by simp [hj])]
  have hreq : (j.req.1, .syscall) = j.req := Prod.ext rfl hkind.symm
  refine Finset.card_pos.2 ⟨j.req.1, Finset.mem_filter.2 ⟨Finset.mem_univ _, ?_⟩⟩
  rw [State.Waits, hreq]
  rintro (hpool | ⟨v, i, hi, hfly, heq⟩)
  · cases h.located.unique j.req (.worker w) .pool (by simp [hholds]) hpool
  · obtain ⟨htracked, hne⟩ := Job.inFlight_iff.1 hfly
    have hv : j.req ∈ s.holders (.worker v) := by
      rw [State.holders, hi, activeReq_of_ne hne, heq]
      exact mem_singleton_self _
    have hsame := h.located.unique j.req (.worker w) (.worker v) (by simp [hholds]) hv
    obtain rfl := Place.worker.inj hsame
    obtain rfl := some_inj.1 (hw.symm.trans hi)
    simp [Job.tracked, hpooled, hj] at htracked

/-- **If no thread of the pool is between `setDone` and `epollCount--`** when a request is counted, the
counter stays within its bound. -/
theorem allStates_epollOk_of_none_lagging (hE : Fintype.card E ≤ 10) (idle : E → Bool)
    (evs : List (Event Cpu E F W))
    (h : Transition.AllSteps (Request.step idle) (fun s ev => ∀ w, ev = .epollBegin w → s.lagging = 0)
      (init idle) evs) :
    Transition.AllStates (Request.step idle) EpollOk (init idle) evs := by
  have hall := allStates_of_allSteps (I := EpollOk) (J := fun s => Inv idle s ∧ Counted s)
    (fun _ _ _ hj hs => ⟨inv_step hj.1 hs, hj.2.step hs⟩)
    (fun s ev s' hj hok hs hlag => (hok.step_iff hE hj.1 hj.2 hs).2 ?_) evs
    ⟨inv_init idle, counted_init idle⟩ (epollOk_init idle) h
  · exact hall
  · cases ev with
    | epollBegin w =>
      have hpos := hj.1.resting_pos hs
      have hzero := hlag w rfl
      change s.lagging < s.resting + (10 - Fintype.card E)
      omega
    | _ => trivial

/-- The events by which thread `e` on its own CPU issues an `epoll_wait` and worker 0 posts it. -/
def issueEpoll (e : Fin 10) : List (Event (Fin 10) (Fin 10) Unit (Fin 2)) :=
  [.getRequest e .syscall Syscall.sysEpollWait, .push e, .take 0 (e, .syscall), .dispatch 0,
   .epollBegin 0, .post 0]

/-- Ten threads wait for events.  Thread 1 of the pool serves the first of them and is interrupted
after `setDone`; the enclave thread is woken and issues its next request. -/
def laggingPool : List (Event (Fin 10) (Fin 10) Unit (Fin 2)) :=
  (finRange 10).flatMap (fun e => [.sched (.enqueueTask e e), .sched (.putDown e),
      .sched (.pick e)] ++ issueEpoll e) ++
  [.poolTake 1 (0, .syscall), .serve 1, .setDone 1, .sleepDequeue 0, .sleepAdd 0,
   .sched (.putDown 0), .watchTake 0 (0, .syscall), .sched (.enqueueTask 0 0), .sched (.pick 0),
   .ret 0] ++ (issueEpoll 0).dropLast

/-- The same run, but the thread of the pool decrements the counter at once. -/
def promptPool : List (Event (Fin 10) (Fin 10) Unit (Fin 2)) :=
  laggingPool.flatMap fun
    | .setDone 1 => [.setDone 1, .finish 1]
    | ev => [ev]

theorem allStates_epollOk_iff_promptPool :
    (run (Request.step fun _ => false) (init fun _ => false) promptPool).isSome ∧
      Transition.AllStates (Request.step fun _ => false) EpollOk (init fun _ => false) promptPool := by
  refine ⟨by decide +kernel, (allStates_epollOk_iff (by decide) (fun _ => false) promptPool).2 ?_⟩
  decide +kernel

/-- With ten threads, each with one request at a time, the assertion fails. -/
theorem epoll_assertion_fails :
    ∃ s, run (Request.step fun _ => false) (init fun _ => false) laggingPool = some s ∧
      ¬ EpollOk s := by
  have hfinal : (run (Request.step fun _ => false) (init fun _ => false) laggingPool).map
      (fun s => (s.epollCount, (s.worker 0).map Job.phase)) = some (11, some .counted) := by
    decide +kernel
  obtain ⟨s, hrun, hs⟩ := Option.map_eq_some_iff.1 hfinal
  refine ⟨s, hrun, fun hok => ?_⟩
  obtain ⟨hcount, hphase⟩ := Prod.mk.inj hs
  obtain ⟨j, hj, hphase⟩ := Option.map_eq_some_iff.1 hphase
  have := hok.assertion 0 j hj hphase
  omega

end Step

end Request

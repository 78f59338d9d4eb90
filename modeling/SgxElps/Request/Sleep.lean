/-
**When a sleeping thread is woken.**

`sleepRequestHandler` adds the time to sleep to the time stamp in `timeSpec` and enters the sum as the
target in `sleepMap`; `checkSleep` compares the targets with that stamp and only then reads the clock
into it.  Both therefore go by the reading of an earlier `checkSleep`, of any worker.  For the
comparison this is safe, since the reading lies in the past.  For the target it is not: if the stamp is
older than the handler by more than a nanosecond, the sleep may end that much too early, and if the sum
overflows 64 bits it ends at once.

Here the steps of `Request` get the instants at which they happen.  They do not decrease, and
`checkBegin` reads the instant at which it happens.

Main definitions: `OnTime`, `Timely`.  Main results: `Timely.step`, `allStates_onTime`.
-/

import SgxElps.Request.Invariant

namespace Request

open Function
open Transition
open State

variable {Cpu E F W : Type}

/-! ### Steps in time -/

/-- The system, the instant of its last step, the instant at which the handler of a request ran, and
the instant at which it was set done since it was built. -/
structure Timed (Cpu E F W : Type) where
  sys : State Cpu E F W
  clock : ℕ
  handledAt : Req E → ℕ
  doneAt : Req E → Option ℕ

def Timed.init (idle : E → Bool) : Timed Cpu E F W where
  sys := Request.init idle
  clock := 0
  handledAt _ := 0
  doneAt _ := none

section Step

variable [DecidableEq Cpu] [DecidableEq E] [DecidableEq F] [DecidableEq W]

def Timed.handledAfter (s : Timed Cpu E F W) (t : ℕ) : Event Cpu E F W → Req E → ℕ
  | .insertSleep w =>
      match s.sys.worker w with
      | some j => update s.handledAt j.req t
      | none => s.handledAt
  | _ => s.handledAt

def Timed.doneAfter (s : Timed Cpu E F W) (t : ℕ) : Event Cpu E F W → Req E → Option ℕ
  | .getRequest c k _ =>
      match s.sys.thread c with
      | some e => update s.doneAt (e, k) none
      | none => s.doneAt
  | .setDone w =>
      match s.sys.worker w with
      | some j => update s.doneAt j.req (some t)
      | none => s.doneAt
  | .expire _ =>
      match s.sys.sleepMap with
      | (_, r) :: _ => update s.doneAt r (some t)
      | [] => s.doneAt
  | _ => s.doneAt

/-- `clock_gettime` in `checkSleep` reads the instant `t`. -/
def readsClock (t : ℕ) : Event Cpu E F W → Bool
  | .checkBegin _ now => now = t
  | _ => true

/-- The event happens at the given instant, which is not before the last one. -/
def timedStep (idle : E → Bool) (s : Timed Cpu E F W) (e : ℕ × Event Cpu E F W) :
    Option (Timed Cpu E F W) :=
  if s.clock ≤ e.1 ∧ readsClock e.1 e.2 then
    (step idle s.sys e.2).map fun sys =>
      { sys := sys, clock := e.1, handledAt := s.handledAfter e.1 e.2,
        doneAt := s.doneAfter e.1 e.2 }
  else none

/-- A request to sleep is set done at most once after it is built, and not before its time has passed
since its handler ran. -/
def OnTime (s : Timed Cpu E F W) : Prop :=
  ∀ e, s.sys.doneCount (e, .sleep) ≤ 1 ∧
    (s.sys.done (e, .sleep) = true → ∃ t, s.doneAt (e, .sleep) = some t ∧
      s.handledAt (e, .sleep) + s.sys.content (e, .sleep) ≤ t)

/-- The handler of a request to sleep finds a time stamp that is at most one nanosecond old, and the
target does not overflow; or there is no time to sleep. -/
def Prompt (s : Timed Cpu E F W) : ℕ × Event Cpu E F W → Prop
  | (t, .insertSleep w) => ∀ j ∈ s.sys.worker w, s.sys.content j.req = 0 ∨
      (s.sys.timeSpec % 2 ^ 64 + s.sys.content j.req < 2 ^ 64 ∧ t ≤ s.sys.timeSpec + 1)
  | _ => True

variable {idle : E → Bool} {s s' : Timed Cpu E F W} {t : ℕ} {ev : Event Cpu E F W}

omit [DecidableEq Cpu] [DecidableEq E] [DecidableEq F] [DecidableEq W] in
theorem prompt_of_ne (h : ∀ w, ev ≠ .insertSleep w) : Prompt s (t, ev) := by
  unfold Prompt
  split
  · next heq => exact absurd (Prod.mk.inj heq).2 (h _)
  · trivial

theorem timedStep_eq_some : timedStep idle s (t, ev) = some s' ↔
    s.clock ≤ t ∧ readsClock t ev = true ∧ ∃ sys, step idle s.sys ev = some sys ∧
      s' = ⟨sys, t, s.handledAfter t ev, s.doneAfter t ev⟩ := by
  simp only [timedStep, Option.ite_none_right_eq_some, Option.map_eq_some_iff, and_assoc]
  simp only [eq_comm]

end Step

/-! ### The invariant -/

/-- The entries of the sleep map that `checkSleep` has not set done. -/
def State.entries (s : State Cpu E F W) : List (ℕ × Req E) :=
  if s.sleepLock.any Check.expired then s.sleepMap.tail else s.sleepMap

theorem mem_pending {s : State Cpu E F W} {a : ℕ × Req E} (h : a ∈ s.entries) : a.2 ∈ s.pending :=
  List.mem_map_of_mem h

/-- The target of an entry was computed from a stamp `T`, not after `bound`, that was fresh when the
handler ran. -/
def EntryOk (handledAt content : Req E → ℕ) (bound : ℕ) (a : ℕ × Req E) : Prop :=
  content a.2 = 0 ∨
    ∃ T ≤ bound, a.1 = T % 2 ^ 64 + content a.2 ∧ handledAt a.2 ≤ T + 1

theorem EntryOk.congr {handledAt handledAt' content content' : Req E → ℕ} {bound : ℕ}
    {a : ℕ × Req E} (h : EntryOk handledAt content bound a) (hh : handledAt' a.2 = handledAt a.2)
    (hc : content' a.2 = content a.2) : EntryOk handledAt' content' bound a := by
  unfold EntryOk
  rw [hh, hc]
  exact h

/-- The entries, and a stamp that none of them is ahead of: the one in `timeSpec`, or the one before
it, which `checkSleep` compares with. -/
def EntriesOk (s : Timed Cpu E F W) (bound : ℕ) : Prop :=
  bound ≤ s.sys.timeSpec ∧ (s.sys.sleepLock = none → bound = s.sys.timeSpec) ∧
    (∀ k ∈ s.sys.sleepLock, k.ns = bound % 2 ^ 64) ∧
    ∀ a ∈ s.sys.entries, EntryOk s.handledAt s.sys.content bound a

/-- **The invariant.** -/
structure Timely (s : Timed Cpu E F W) : Prop where
  timeSpec_le : s.sys.timeSpec ≤ s.clock
  handledAt_le : ∀ r, s.handledAt r ≤ s.clock
  served : ∀ w, ∀ j ∈ s.sys.worker w, j.phase = .served → j.req.2 ≠ .sleep
  isSome_doneAt : ∀ r, (s.doneAt r).isSome = s.sys.done r
  entries : ∃ bound, EntriesOk s bound
  onTime : ∀ e, ∀ t ∈ s.doneAt (e, .sleep),
    s.handledAt (e, .sleep) + s.sys.content (e, .sleep) ≤ t

theorem timely_init (idle : E → Bool) : Timely (Timed.init idle : Timed Cpu E F W) where
  timeSpec_le := le_rfl
  handledAt_le _ := le_rfl
  served := nofun
  isSome_doneAt _ := rfl
  entries := ⟨0, le_rfl, fun _ => rfl, nofun, nofun⟩
  onTime := nofun

theorem due {T bound ns handled : ℕ} (hT : T ≤ bound) (hlt : T % 2 ^ 64 + ns < bound % 2 ^ 64)
    (hfresh : handled ≤ T + 1) : handled + ns ≤ bound := by
  omega

theorem Timely.onTime_of_inv {idle : E → Bool} {s : Timed Cpu E F W} (h : Timely s)
    (hinv : Inv idle s.sys) : OnTime s := by
  intro e
  refine ⟨?_, fun hdone => ?_⟩
  · rw [hinv.doneCount_eq]
    exact Bool.toNat_le _
  · rw [← h.isSome_doneAt] at hdone
    obtain ⟨t, ht⟩ := Option.isSome_iff_exists.1 hdone
    exact ⟨t, ht, h.onTime e t ht⟩

/-! ### Every step -/

section Steps

variable {idle : E → Bool} {s : Timed Cpu E F W} {t : ℕ} {sys : State Cpu E F W}

section

variable (h : Timely s)

include h

theorem Timely.frame (ht : s.clock ≤ t)
    (hsys : sys = { s.sys with
      sched := sys.sched, pc := sys.pc, owner := sys.owner, watchList := sys.watchList,
      queue := sys.queue, pool := sys.pool, epollCount := sys.epollCount, worker := sys.worker,
      handed := sys.handed })
    (hserved : ∀ w, ∀ j ∈ sys.worker w, j.phase = .served → j.req.2 ≠ .sleep) :
    Timely ⟨sys, t, s.handledAt, s.doneAt⟩ := by
  obtain ⟨bound, hentries⟩ := h.entries
  constructor
  case served => exact hserved
  all_goals rw [hsys]
  case timeSpec_le => exact h.timeSpec_le.trans ht
  case handledAt_le => exact fun r => (h.handledAt_le r).trans ht
  case isSome_doneAt => exact h.isSome_doneAt
  case entries => exact ⟨bound, hentries⟩
  case onTime => exact h.onTime

/-- A worker gets a new job. -/
theorem Timely.served_setJob [DecidableEq W] {w : W} {job : Option (Job E)}
    (hjob : ∀ j ∈ job, j.phase = .served → j.req.2 ≠ .sleep) :
    ∀ v, ∀ j ∈ update s.sys.worker w job v, j.phase = .served → j.req.2 ≠ .sleep := by
  intro v j hj
  by_cases hv : v = w
  · subst hv
    rw [update_self] at hj
    exact hjob j hj
  · rw [update_of_ne hv] at hj
    exact h.served v j hj

theorem Timely.getRequest [DecidableEq E] (hinv : Inv idle s.sys) (ht : s.clock ≤ t)
    {e : E} (hpc : s.sys.pc e = .outside) (k : Kind) (content : ℕ) :
    Timely ⟨s.sys.getRequest e k content, t, s.handledAt, update s.doneAt (e, k) none⟩ where
  timeSpec_le := h.timeSpec_le.trans ht
  handledAt_le r := (h.handledAt_le r).trans ht
  served := h.served
  isSome_doneAt r := by
    by_cases hr : r = (e, k)
    · simp [State.getRequest, hr]
    · simp [State.getRequest, hr, h.isSome_doneAt]
  entries := by
    obtain ⟨bound, hle, hnone, hsome, hok⟩ := h.entries
    refine ⟨bound, hle, hnone, hsome, fun a ha => ?_⟩
    have hne : a.2 ≠ (e, k) := by
      intro heq
      have hserv := hinv.located.of_mem (i := .sleepMap) (mem_pending ha)
      rw [heq, State.InService, hpc] at hserv
      simp at hserv
    exact (hok a ha).congr rfl (update_of_ne hne ..)
  onTime x t' ht' := by
    by_cases hr : (x, Kind.sleep) = (e, k)
    · simp [hr] at ht'
    · simp only [State.getRequest, update_of_ne hr] at ht' ⊢
      exact h.onTime x t' ht'

theorem Timely.setDone [DecidableEq E] [DecidableEq W] (ht : s.clock ≤ t) {w : W}
    {j : Job E} (hw : s.sys.worker w = some j) (hj : j.phase = .served) :
    Timely ⟨(s.sys.setDone j.req).setJob w (some { j with phase := .finished }), t, s.handledAt,
      update s.doneAt j.req (some t)⟩ where
  timeSpec_le := h.timeSpec_le.trans ht
  handledAt_le r := (h.handledAt_le r).trans ht
  served := h.served_setJob fun i hi => by
    obtain rfl := Option.some_inj.1 hi
    exact nofun
  isSome_doneAt r := by
    by_cases hr : r = j.req
    · simp [setJob, State.setDone, hr]
    · simp [setJob, State.setDone, hr, h.isSome_doneAt]
  entries := h.entries
  onTime x t' ht' := by
    have hr : (x, Kind.sleep) ≠ j.req := fun heq => h.served w j hw hj (heq ▸ rfl)
    simp only [update_of_ne hr] at ht'
    exact h.onTime x t' ht'

/-- **The handler** enters a request in the sleep map. -/
theorem Timely.insertSleep [DecidableEq E] [DecidableEq W] (hinv : Inv idle s.sys)
    (ht : s.clock ≤ t) {w : W} {j : Job E} (hw : s.sys.worker w = some j) (hj : j.phase = .acked)
    (hl : s.sys.sleepLock = none)
    (hprompt : s.sys.content j.req = 0 ∨
      (s.sys.timeSpec % 2 ^ 64 + s.sys.content j.req < 2 ^ 64 ∧ t ≤ s.sys.timeSpec + 1)) :
    Timely ⟨(s.sys.insertSleep j.req).setJob w none, t, update s.handledAt j.req t,
      s.doneAt⟩ := by
  have hactive : j.req ∈ s.sys.holders (.worker w) := by
    rw [holders, hw, activeReq_of_ne (by simp [hj])]
    exact List.mem_singleton_self _
  have hserv := hinv.located.of_mem hactive
  have hgone : ∀ j' ∈ (none : Option (Job E)), j'.phase = .served → j'.req.2 ≠ .sleep := by
    intro j' hj'
    cases hj'
  refine ⟨h.timeSpec_le.trans ht, fun r => ?_, h.served_setJob hgone, h.isSome_doneAt,
    ⟨s.sys.timeSpec, le_rfl, fun _ => rfl, fun k hk => ?_, fun a ha => ?_⟩, fun x t' ht' => ?_⟩
  · by_cases hr : r = j.req
    · simp [hr]
    · simp only [update_of_ne hr]
      exact (h.handledAt_le r).trans ht
  · rw [setJob, State.insertSleep, hl] at hk
    cases hk
  · have hmap : a ∈ (s.sys.insertSleep j.req).sleepMap := by
      simpa [State.entries, setJob, State.insertSleep, hl] using ha
    rw [State.insertSleep, List.mem_orderedInsert] at hmap
    rcases hmap with rfl | hmap
    · refine hprompt.imp_right fun hin => ⟨s.sys.timeSpec, le_rfl, ?_, ?_⟩
      · have hlt := hin.1
        change (s.sys.content j.req + s.sys.timeSpec) % 2 ^ 64 = s.sys.timeSpec % 2 ^ 64 + s.sys.content j.req
        omega
      · simpa using hin.2
    · -- the other entries are of other requests
      have hold : a ∈ s.sys.entries := by simpa [State.entries, hl] using hmap
      have hne : a.2 ≠ j.req := by
        intro heq
        have hplace := hinv.located.unique _ (.worker w) .sleepMap hactive (heq ▸ mem_pending hold)
        cases hplace
      obtain ⟨bound, -, hbound, -, hok⟩ := h.entries
      have hentry := hok a hold
      rw [hbound hl] at hentry
      exact hentry.congr (update_of_ne hne ..) rfl
  · have hne : (x, Kind.sleep) ≠ j.req := by
      intro heq
      have hdone := h.isSome_doneAt (x, .sleep)
      rw [heq, hserv.2] at hdone
      rw [← heq, ht'] at hdone
      cases hdone
    simp only [update_of_ne hne]
    exact h.onTime x t' ht'

/-- **`checkSleep`** sets the first request of the map done. -/
theorem Timely.expire [DecidableEq E] (ht : s.clock ≤ t) {k : Check W} {target : ℕ}
    {r : Req E} {rest : List (ℕ × Req E)} (hl : s.sys.sleepLock = some k)
    (hk : k.expired = false) (hm : s.sys.sleepMap = (target, r) :: rest) (hlt : target < k.ns) :
    Timely ⟨{ s.sys.setDone r with sleepLock := some { k with expired := true } }, t, s.handledAt,
      update s.doneAt r (some t)⟩ := by
  obtain ⟨bound, hle, -, hns, hok⟩ := h.entries
  have hentries : s.sys.entries = (target, r) :: rest := by simp [State.entries, hl, hk, hm]
  refine ⟨h.timeSpec_le.trans ht, fun q => (h.handledAt_le q).trans ht, h.served, fun q => ?_,
    ⟨bound, hle, nofun, fun k' hk' => ?_, fun a ha => ?_⟩, fun x t' ht' => ?_⟩
  · by_cases hq : q = r
    · simp [State.setDone, hq]
    · simp [State.setDone, hq, h.isSome_doneAt]
  · obtain rfl := Option.some_inj.1 hk'
    exact hns k hl
  · have hrest : a ∈ rest := by simpa [State.entries, State.setDone, hm] using ha
    exact hok a (hentries ▸ List.mem_cons_of_mem _ hrest)
  · by_cases hx : (x, Kind.sleep) = r
    · simp only [hx, update_self, Option.mem_some] at ht' ⊢
      subst ht'
      have hclock : bound ≤ t := hle.trans (h.timeSpec_le.trans ht)
      rcases hok (target, r) (hentries ▸ List.mem_cons_self) with hzero | ⟨T, hT, htarget, hfresh⟩
      · change s.handledAt r + s.sys.content r ≤ t
        rw [show s.sys.content r = 0 from hzero]
        exact (h.handledAt_le r).trans ht
      · have hlt' : T % 2 ^ 64 + s.sys.content r < bound % 2 ^ 64 := by
          rw [← hns k hl]
          exact htarget ▸ hlt
        exact (due hT hlt' hfresh).trans hclock
    · simp only [update_of_ne hx] at ht'
      exact h.onTime x t' ht'

theorem Timely.checkBegin (ht : s.clock ≤ t) (w : W) (hl : s.sys.sleepLock = none) :
    Timely ⟨{ s.sys with timeSpec := t, sleepLock := some ⟨w, s.sys.timeSpec % 2 ^ 64, false⟩ }, t,
      s.handledAt, s.doneAt⟩ := by
  obtain ⟨bound, -, hbound, -, hok⟩ := h.entries
  refine { h with
    timeSpec_le := le_rfl
    handledAt_le := fun r => (h.handledAt_le r).trans ht
    entries := ⟨s.sys.timeSpec, h.timeSpec_le.trans ht, nofun, fun k hk => ?_, fun a ha => ?_⟩ }
  · obtain rfl := Option.some_inj.1 hk
    rfl
  · have hold : a ∈ s.sys.entries := by simpa [State.entries, hl] using ha
    exact hbound hl ▸ hok a hold

theorem Timely.eraseEntry (ht : s.clock ≤ t) {k : Check W}
    (hl : s.sys.sleepLock = some k) (hk : k.expired = true) :
    Timely ⟨{ s.sys with sleepMap := s.sys.sleepMap.tail,
                         sleepLock := some { k with expired := false } }, t,
      s.handledAt, s.doneAt⟩ := by
  obtain ⟨bound, hle, -, hns, hok⟩ := h.entries
  refine { h with
    timeSpec_le := h.timeSpec_le.trans ht
    handledAt_le := fun r => (h.handledAt_le r).trans ht
    entries := ⟨bound, hle, nofun, fun k' hk' => ?_, fun a ha => ?_⟩ }
  · obtain rfl := Option.some_inj.1 hk'
    exact hns k hl
  · have hold : a ∈ s.sys.entries := by simpa [State.entries, hl, hk] using ha
    exact hok a hold

theorem Timely.checkEnd (ht : s.clock ≤ t) {k : Check W}
    (hl : s.sys.sleepLock = some k) (hk : k.expired = false) :
    Timely ⟨{ s.sys with sleepLock := none }, t, s.handledAt, s.doneAt⟩ := by
  obtain ⟨bound, hle, -, -, hok⟩ := h.entries
  refine { h with
    timeSpec_le := h.timeSpec_le.trans ht
    handledAt_le := fun r => (h.handledAt_le r).trans ht
    entries := ⟨s.sys.timeSpec, le_rfl, fun _ => rfl, nofun, fun a ha => ?_⟩ }
  have hold : a ∈ s.sys.entries := by simpa [State.entries, hl, hk] using ha
  exact (hok a hold).imp_right fun ⟨T, hT, htarget⟩ => ⟨T, hT.trans hle, htarget⟩

end

end Steps

section Runs

variable [DecidableEq Cpu] [DecidableEq E] [DecidableEq F] [DecidableEq W]
variable {idle : E → Bool} {s s' : Timed Cpu E F W} {ev : ℕ × Event Cpu E F W}

theorem serve_kind {s s' : State Cpu E F W} {w : W} (h : step idle s (.serve w) = some s')
    {j : Job E} (hw : s.worker w = some j) : j.req.2 ≠ .sleep := by
  simp only [step, hw, jobStep, Option.ite_none_right_eq_some] at h
  exact h.1.2.1

theorem expire_lt {s s' : State Cpu E F W} {k : Check W} (h : step idle s (.expire k.holder) = some s')
    {t : ℕ} {r : Req E} {rest : List (ℕ × Req E)} (hl : s.sleepLock = some k)
    (hm : s.sleepMap = (t, r) :: rest) : t < k.ns := by
  simp only [step, hl, if_true, checkStep, hm, Option.ite_none_right_eq_some] at h
  exact h.1.2

/-- **The step lemma.** -/
theorem Timely.step (h : Timely s) (hinv : Inv idle s.sys) (hs : timedStep idle s ev = some s')
    (hprompt : Prompt s ev) : Timely s' := by
  obtain ⟨t, ev⟩ := ev
  obtain ⟨ht, hreads, sys, hsys, rfl⟩ := timedStep_eq_some.1 hs
  have hcases := steps_of_step hsys
  cases hcases with
  | @getRequest c e k content hthread hpc =>
    simp only [Timed.handledAfter, Timed.doneAfter, hthread]
    exact h.getRequest hinv ht hpc k content
  | take hw hr | poolTake hw hr | dispatch hw hj | epollBegin hw hj =>
    refine h.frame ht rfl (h.served_setJob fun i hi => ?_)
    obtain rfl := Option.some_inj.1 hi
    exact nofun
  | @serve w j hw hj =>
    have hkind : j.req.2 ≠ .sleep := serve_kind hsys hw
    refine h.frame ht rfl (h.served_setJob fun i hi _ => ?_)
    obtain rfl := Option.some_inj.1 hi
    exact hkind
  | post hw hj | finish hw hj => exact h.frame ht rfl (h.served_setJob nofun)
  | setDone hw hj =>
    simp only [Timed.handledAfter, Timed.doneAfter, hw]
    exact h.setDone ht hw hj
  | insertSleep hw hj hl =>
    simp only [Timed.handledAfter, Timed.doneAfter, hw]
    exact h.insertSleep hinv ht hw hj hl (hprompt _ hw)
  | checkBegin hl =>
    obtain rfl := of_decide_eq_true hreads
    exact h.checkBegin ht _ hl
  | expire hl hk hm =>
    simp only [Timed.handledAfter, Timed.doneAfter, hm]
    exact h.expire ht hl hk hm (expire_lt hsys hl hm)
  | eraseEntry hl hk => exact h.eraseEntry ht hl hk
  | checkEnd hl hk => exact h.checkEnd ht hl hk
  | _ => exact h.frame ht rfl h.served

/-- **No sleep ends early if every handler is prompt.** -/
theorem allStates_onTime (idle : E → Bool) (evs : List (ℕ × Event Cpu E F W))
    (h : Transition.AllSteps (timedStep idle) Prompt (Timed.init idle) evs) :
    Transition.AllStates (timedStep idle) OnTime (Timed.init idle) evs := by
  have hall : Transition.AllStates (timedStep idle) (fun s => Inv idle s.sys ∧ Timely s)
      (Timed.init idle) evs := by
    refine allStates_of_allSteps (J := fun _ => True) (fun _ _ _ _ _ => trivial)
      (fun s ev s' _ hi hs hprompt => ⟨?_, hi.2.step hi.1 hs hprompt⟩) evs trivial
      ⟨inv_init idle, timely_init idle⟩ h
    obtain ⟨-, -, sys, hsys, rfl⟩ := timedStep_eq_some.1 hs
    exact inv_step hi.1 hsys
  exact hall.mono fun s hs => hs.2.onTime_of_inv hs.1

end Runs

/-! ### One thread and one worker -/

/-- The events up to the handler, for a thread that sleeps for `ns`; the worker has called
`checkSleep` at instant 1. -/
def untilHandler (ns : ℕ) : List (ℕ × Event Unit Unit Unit Unit) :=
  [(0, .sched (.enqueueTask () ())), (0, .sched (.putDown ())), (0, .sched (.pick ())),
   (1, .checkBegin () 1), (1, .checkEnd ()), (1, .getRequest () .sleep ns), (1, .push ()),
   (1, .sleepDequeue ()), (1, .sleepAdd ()), (1, .sched (.putDown ())),
   (1, .take () ((), .sleep)), (1, .dispatch ())]

/-- The handler runs at instant 1, and the thread sleeps for 50 nanoseconds. -/
theorem allStates_onTime_prompt :
    (run (timedStep fun _ => false) (Timed.init fun _ => false)
      (untilHandler 50 ++ [(1, .insertSleep ())] ++ [(60, .checkBegin () 60), (60, .checkEnd ()),
        (70, .checkBegin () 70), (70, .expire ())])).map (fun s => s.doneAt ((), .sleep)) =
      some (some 70) ∧
    Transition.AllStates (timedStep fun _ => false) OnTime (Timed.init fun _ => false)
      (untilHandler 50 ++ [(1, .insertSleep ())] ++ [(60, .checkBegin () 60), (60, .checkEnd ()),
        (70, .checkBegin () 70), (70, .expire ())]) := by
  have hbefore : ∀ e ∈ untilHandler 50, ∀ w, e.2 ≠ .insertSleep w := by simp [untilHandler]
  have hafter : ∀ e ∈ ([(60, .checkBegin () 60), (60, .checkEnd ()), (70, .checkBegin () 70),
      (70, .expire ())] : List (ℕ × Event Unit Unit Unit Unit)), ∀ w, e.2 ≠ .insertSleep w := by simp
  have hstate : (run (timedStep fun _ => false) (Timed.init fun _ => false)
      (untilHandler 50)).map (fun s => (s.sys.timeSpec, (s.sys.worker ()).map fun j =>
        s.sys.content j.req)) = some (1, some 50) := by decide +kernel
  refine ⟨by decide +kernel, allStates_onTime _ _ (Transition.AllSteps.append
    (allSteps_append_singleton (fun e he s => prompt_of_ne (hbefore e he))
      fun s hrun j hj => ?_)
    fun s _ => allSteps_of_mem (fun e he s => prompt_of_ne (hafter e he)) s)⟩
  rw [hrun, Option.map_some, Option.some_inj, Prod.mk.injEq] at hstate
  obtain ⟨hspec, hcontent⟩ := hstate
  rw [show s.sys.worker () = some j from hj, Option.map_some, Option.some_inj] at hcontent
  rw [hspec, hcontent]
  exact Or.inr ⟨by decide, by decide⟩

/-- The thread sleeps for 50 nanoseconds.  The worker is interrupted before its handler, which runs at
instant 100 with the time stamp of instant 1: the request is done at instant 101.  And the thread
sleeps for `2 ^ 64 - 1` nanoseconds: the target is 0, and the request is done at instant 2. -/
theorem sleep_ends_early :
    (∃ s, run (timedStep fun _ => false) (Timed.init fun _ => false)
        (untilHandler 50 ++ [(100, .insertSleep ()), (100, .checkBegin () 100), (100, .checkEnd ()),
          (101, .checkBegin () 101), (101, .expire ())]) = some s ∧ ¬ OnTime s) ∧
    ∃ s, run (timedStep fun _ => false) (Timed.init fun _ => false)
        (untilHandler (2 ^ 64 - 1) ++ [(1, .insertSleep ()), (2, .checkBegin () 2),
          (2, .expire ())]) = some s ∧ ¬ OnTime s := by
  have hlate : ∀ {o : Option (Timed Unit Unit Unit Unit)} {h ns t : ℕ},
      o.map (fun s => (s.sys.done ((), .sleep), s.doneAt ((), .sleep), s.handledAt ((), .sleep),
        s.sys.content ((), .sleep))) = some (true, some t, h, ns) → t < h + ns →
      ∃ s, o = some s ∧ ¬ OnTime s := by
    intro o h ns t ho hlt
    obtain ⟨s, rfl, hs⟩ := Option.map_eq_some_iff.1 ho
    simp only [Prod.mk.injEq] at hs
    obtain ⟨hdone, hat, rfl, rfl⟩ := hs
    refine ⟨s, rfl, fun hon => ?_⟩
    obtain ⟨t', ht', hle⟩ := (hon ()).2 hdone
    rw [hat, Option.some_inj] at ht'
    omega
  have hwrap : 2 < 1 + (2 ^ 64 - 1) := by decide
  exact ⟨hlate (by decide +kernel) (by decide : 101 < 100 + 50), hlate (by decide +kernel) hwrap⟩

end Request

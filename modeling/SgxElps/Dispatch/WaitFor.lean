/-
**No circular wait between CPUs that switch.**

A CPU that spins in `jumpTo` waits for the CPU that is leaving the thread to complete its own `jumpTo`,
and that CPU may spin as well.  A thread whose context is not saved yet gets into the run queue of another
CPU only by a wakeup, and the CPU that runs the waker has not put its own thread down at that time;
`loadBalance` moves only threads whose context is good, and a thread that is put down while it is
`onQueue` goes to the queue of its own CPU.  So, if the CPUs are numbered in the order in which they have
put their threads down, each waits for one with a smaller number.

Main definitions: `WaitsFor`, `Inv`.  Main results: `inv_step`, `not_deadlocked`, `runs_alone`.
-/

import SgxElps.Dispatch.Basic
import SgxElps.Lib.WaitFor
import SgxElps.Sched.Invariant
import SgxElps.Switch.Invariant
import SgxElps.Lib.Participants

namespace Dispatch

open Function
open Transition

variable {Cpu E F W : Type}

/-- The CPU has put its thread down and has not jumped yet. -/
def departing : Switch.Pc Cpu E → Bool
  | .schedule _ | .spin _ _ | .good _ _ | .ready _ _ | .loaded _ _ _ | .cleared _ _ _ => true
  | _ => false

/-- CPU `c` spins on `contextGood` of a thread on whose stack CPU `d` runs, which spins itself: only when
`d` has completed its `jumpTo` is the context saved. -/
def WaitsFor (s : State Cpu E F W) (c d : Cpu) : Prop :=
  ∃ prev t prev' t', s.switch.pc c = .spin prev t ∧ s.switch.contextGood t = false ∧
    s.switch.pc d = .spin prev' t' ∧ s.switch.stack d = .thread t

/-! ### The invariant -/

/-- The two parts agree, and an idle thread runs on its own CPU only. -/
structure Link (owner : E → Option Cpu) (s : State Cpu E F W) : Prop where
  current : s.sched.current = s.switch.current
  inSchedule : ∀ c, s.sched.inSchedule c = true ↔ ∃ prev, s.switch.pc c = .schedule prev
  owner_current : ∀ c e, s.switch.current c = some e → idleOf owner e = true → owner e = some c
  owner_stack : ∀ c e, s.switch.stack c = .thread e → idleOf owner e = true → owner e = some c

/-- `stamp` tells when each CPU has put its thread down last.  A thread that is still on the stack of
another CPU can be found in the queue of a departing CPU, or be waited for, only if that other CPU has
departed before. -/
structure Ordered (s : State Cpu E F W) (stamp : Cpu → ℕ) (clock : ℕ) : Prop where
  lt : ∀ c, stamp c < clock
  queued : ∀ c d t, t ∈ s.sched.runQueue c → s.switch.stack d = .thread t → d ≠ c →
    departing (s.switch.pc c) = true → stamp d < stamp c
  spinning : ∀ c d prev t, s.switch.pc c = .spin prev t → s.switch.stack d = .thread t →
    stamp d < stamp c

/-- **The invariant.** -/
structure Inv (owner : E → Option Cpu) (s : State Cpu E F W) : Prop where
  sched : Sched.Inv (idleOf owner) s.sched
  home : Sched.HomeOk s.sched
  switch : ∃ phase, Switch.Inv phase s.switch
  link : Link owner s
  ordered : ∃ stamp clock, Ordered s stamp clock

variable {owner : E → Option Cpu} {s s' : State Cpu E F W} {c d : Cpu} {t : E}

theorem inv_init (fsBase : E → W) (fsReg : Cpu → W) :
    Inv owner (init owner fsBase fsReg : State Cpu E F W) where
  sched := Sched.inv_init _
  home := by intro c e he; cases he
  switch := ⟨_, Switch.inv_init fsBase fsReg⟩
  link := by constructor <;> simp [init, Sched.init, Switch.init]
  ordered := by
    refine ⟨fun _ => 0, 1, fun _ => Nat.one_pos, ?_, ?_⟩ <;> simp [init, Sched.init, Switch.init]

/-- A CPU outside of `schedule` has picked its current thread, or it is its idle thread. -/
theorem Inv.picked_or_owner (h : Inv owner s) (hcur : s.switch.current c = some t)
    (hpc : ∀ prev, s.switch.pc c ≠ .schedule prev) :
    s.sched.picked c = some t ∨ idleOf owner t = true ∧ owner t = some c := by
  have hin : s.sched.inSchedule c = false := by
    rw [Bool.eq_false_iff]
    intro hin
    obtain ⟨prev, hp⟩ := (h.link.inSchedule c).1 hin
    exact hpc prev hp
  rw [← h.link.current] at hcur
  rcases h.sched.cpus.picked_of_current c t hcur hin with hp | hi
  · exact .inl hp
  · exact .inr ⟨hi, h.link.owner_current c t (h.link.current ▸ hcur) hi⟩

/-- Two CPUs outside of `schedule` have different current threads. -/
theorem Inv.current_inj (h : Inv owner s) (hc : s.switch.current c = some t)
    (hd : s.switch.current d = some t) (hpc : ∀ prev, s.switch.pc c ≠ .schedule prev)
    (hpd : ∀ prev, s.switch.pc d ≠ .schedule prev) : c = d := by
  have hidle : ∀ {e}, s.sched.picked e = some t → idleOf owner t = false := by
    intro e hp
    rw [Bool.eq_false_iff]
    intro hi
    have hr : (s.sched.entity t).running = true := h.sched.cpus.running_of_picked hp
    rw [((h.sched.entityOk t).of_idle hi).2.1] at hr
    cases hr
  rcases h.picked_or_owner hc hpc with hp | ⟨hi, ho⟩
  · rcases h.picked_or_owner hd hpd with hp' | ⟨hi, -⟩
    · exact h.sched.cpus.picked_inj c d t hp hp'
    · rw [hidle hp] at hi
      cases hi
  · rcases h.picked_or_owner hd hpd with hp' | ⟨-, ho'⟩
    · rw [hidle hp'] at hi
      cases hi
    · exact Option.some.inj (ho.symm.trans ho')

/-- The current thread of a CPU outside of `schedule` is in no run queue. -/
theorem Inv.notMem_of_current (h : Inv owner s) (hc : s.switch.current c = some t)
    (hpc : ∀ prev, s.switch.pc c ≠ .schedule prev) (d : Cpu) : t ∉ s.sched.runQueue d := by
  refine h.sched.notMem_runQueue ?_ d
  rcases h.picked_or_owner hc hpc with hp | ⟨hi, -⟩
  · exact .inl ⟨c, hp⟩
  · exact .inr hi

/-! ### The scheduler's functions -/

section Step

variable [DecidableEq Cpu] [DecidableEq E] [DecidableEq F]

theorem task_eq {idle : E → Bool} {r r' : Sched.State Cpu E F} {ev : Sched.Event Cpu E F}
    (hev : calledOn c ev = true) (hs : Sched.step idle r ev = some r') :
    r'.current = r.current ∧ r'.inSchedule = r.inSchedule ∧
      ∀ d e, e ∈ r'.runQueue d → e ∈ r.runQueue d ∨ d = c := by
  cases Sched.steps_of_step hs with
  | @enqueueTask c' e hw =>
    have hc : c' = c := by simpa [calledOn] using hev
    refine ⟨rfl, rfl, fun d x hx => ?_⟩
    by_cases hd : d = c
    · exact .inr hd
    · refine .inl ?_
      simp only [Sched.State.enqueueTask] at hx
      split at hx
      · rwa [hc, update_of_ne hd] at hx
      · exact hx
  | @dequeueTask c' e hp hc =>
    refine ⟨rfl, rfl, fun d x hx => .inl ?_⟩
    cases hq : (r.entity e).queue with
    | none => simpa [Sched.State.dequeueTask, hq] using hx
    | some q =>
      simp only [Sched.State.dequeueTask, hq] at hx
      split at hx
      · by_cases hd : d = q
        · rw [hd, update_self] at hx
          exact hd ▸ List.mem_of_mem_erase hx
        · rwa [update_of_ne hd] at hx
      · exact hx
  | futexEnqueue | watchAdd | futexErase | futexMove | watchErase =>
    exact ⟨rfl, rfl, fun d e he => .inl he⟩
  | putDown | pick | pickIdle | balanceNone | balance => cases hev

omit [DecidableEq F] in
theorem mem_putDown {idle : E → Bool} {r : Sched.State Cpu E F} (h : Sched.Inv idle r)
    (hhome : Sched.HomeOk r) (hin : r.inSchedule c = false) (ht : t ∈ (r.putDown c).runQueue d) :
    t ∈ r.runQueue d ∨ d = c := by
  cases hcur : r.current c with
  | none => exact .inl (by simpa [Sched.State.putDown, hcur] using ht)
  | some e =>
    cases hon : (r.entity e).onQueue with
    | false =>
      refine .inl ?_
      cases hq : (r.entity e).queue <;> simpa [Sched.State.putDown, hcur, hon, hq] using ht
    | true =>
      rcases h.cpus.picked_of_current c e hcur hin with hp | hi
      · have hqueue := hhome c e hp
        rw [if_pos hon] at hqueue
        by_cases hd : d = c
        · exact .inr hd
        · exact .inl (by simpa [Sched.State.putDown, hcur, hon, hqueue, hd] using ht)
      · rw [((h.entityOk e).of_idle hi).1] at hon
        cases hon

theorem Inv.task {ev : Sched.Event Cpu E F} {sched : Sched.State Cpu E F} (h : Inv owner s)
    (hpc : s.switch.pc c = .user) (hev : calledOn c ev = true)
    (hs : Sched.step (idleOf owner) s.sched ev = some sched) :
    Inv owner { s with sched := sched } := by
  obtain ⟨hcur, hin, hmem⟩ := task_eq hev hs
  obtain ⟨stamp, clock, hord⟩ := h.ordered
  refine ⟨Sched.inv_step h.sched hs, Sched.homeOk_step h.sched h.home hs, h.switch,
    { h.link with current := hcur.trans h.link.current, inSchedule := ?_ }, stamp, clock,
    { hord with queued := ?_ }⟩
  · rw [hin]
    exact h.link.inSchedule
  · intro a b x hx hstack hne hdep
    rcases hmem a x hx with hx | rfl
    · exact hord.queued a b x hx hstack hne hdep
    · rw [hpc] at hdep
      cases hdep

theorem Inv.loadBalance {i : Cpu} {seen : E → Bool} {sched : Sched.State Cpu E F} (h : Inv owner s)
    (hs : Sched.step (idleOf owner) s.sched
      (.loadBalance c i fun e => seen e && s.switch.contextGood e) = some sched) :
    Inv owner { s with sched := sched } := by
  obtain ⟨stamp, clock, hord⟩ := h.ordered
  obtain ⟨phase, hphase⟩ := h.switch
  refine ⟨Sched.inv_step h.sched hs, Sched.homeOk_step h.sched h.home hs, h.switch, ?_, stamp, clock,
    { hord with queued := ?_ }⟩
  · cases Sched.steps_of_step hs with
    | balanceNone => exact h.link
    | balance => exact { h.link with }
  · intro a b x hx hstack hne hdep
    refine hord.queued a b x ?_ hstack hne hdep
    cases Sched.steps_of_step hs with
    | balanceNone => exact hx
    | @balance _ _ _ e hci he hgood =>
      -- the thread that is moved is on no stack, because its context is good
      have hxe : x ≠ e := by
        rintro rfl
        rw [Bool.and_eq_true] at hgood
        have hsaved := (hphase.good_iff x).1 hgood.2
        rw [hphase.stack_iff, hsaved] at hstack
        cases hstack
      by_cases hac : a = c
      · subst hac
        simpa [hxe] using hx
      · simp only [update_of_ne hac] at hx
        by_cases hai : a = i
        · subst hai
          rw [update_self] at hx
          exact List.mem_of_mem_erase hx
        · rwa [update_of_ne hai] at hx

theorem Inv.putDown {sched : Sched.State Cpu E F} {switch : Switch.State Cpu E W} (h : Inv owner s)
    (hs : Sched.step (idleOf owner) s.sched (.putDown c) = some sched)
    (ht : Switch.step s.switch (.putDown c) = some switch) : Inv owner ⟨sched, switch⟩ := by
  obtain ⟨stamp, clock, hord⟩ := h.ordered
  obtain ⟨phase, hphase⟩ := h.switch
  have hinv := Sched.inv_step h.sched hs
  have hhome := Sched.homeOk_step h.sched h.home hs
  have hswitch := Switch.inv_step hphase ht
  cases Sched.steps_of_step hs with
  | putDown hin =>
    cases Switch.steps_of_step ht with
    | putDown hpc =>
      have hsched : (s.sched.putDown c).current = s.sched.current ∧
          (s.sched.putDown c).inSchedule = update s.sched.inSchedule c true := by
        cases hcur : s.sched.current c <;> simp [Sched.State.putDown, hcur]
      have hnot : ∀ prev, s.switch.pc c ≠ .schedule prev := by simp [hpc]
      -- what runs on the stack of `c` is its current thread
      have hcur : ∀ x, s.switch.stack c = .thread x → s.switch.current c = some x := by
        intro x hx
        have hok := hphase.pcOk c
        simp only [Switch.PcOk, hpc, hx] at hok
        cases hcur : s.switch.current c with
        | none => simp [hcur, Switch.stackOf] at hok
        | some y => simp_all [Switch.stackOf]
      refine ⟨hinv, hhome, hswitch, ⟨?_, ?_, h.link.owner_current, h.link.owner_stack⟩,
        update stamp c clock, clock + 1, ?_, ?_, ?_⟩
      · exact hsched.1.trans h.link.current
      · intro a
        rw [hsched.2]
        by_cases ha : a = c
        · simp [ha, Switch.State.setPc]
        · simpa [ha, Switch.State.setPc] using h.link.inSchedule a
      · intro a
        by_cases ha : a = c
        · simp [ha]
        · simpa [ha] using Nat.lt_succ_of_lt (hord.lt a)
      · intro a b x hx hstack hne hdep
        by_cases ha : a = c
        · rw [ha, update_self, update_of_ne (ha ▸ hne)]
          exact hord.lt b
        · rw [update_of_ne ha]
          have hx' := (mem_putDown h.sched h.home hin hx).resolve_right ha
          by_cases hb : b = c
          · subst hb
            exact absurd hx' (h.notMem_of_current (hcur x hstack) hnot a)
          · rw [update_of_ne hb]
            refine hord.queued a b x hx' hstack hne ?_
            simpa [Switch.State.setPc, ha] using hdep
      · intro a b prev x hspin hstack
        have ha : a ≠ c := by
          rintro rfl
          simp [Switch.State.setPc] at hspin
        have hspin' : s.switch.pc a = .spin prev x := by
          simpa [Switch.State.setPc, ha] using hspin
        rw [update_of_ne ha]
        by_cases hb : b = c
        · subst hb
          have hok := hphase.pcOk a
          simp only [Switch.PcOk, hspin'] at hok
          exact absurd (h.current_inj hok.2.1 (hcur x hstack) (by simp [hspin']) hnot) ha
        · rw [update_of_ne hb]
          exact hord.spinning a b prev x hspin' hstack

omit [DecidableEq F] in
/-- Picking `e`: if `c` then waits for another CPU, that one has departed before. -/
theorem Ordered.pick {stamp : Cpu → ℕ} {clock : ℕ} {sched : Sched.State Cpu E F} {prev : Option E}
    {e : E} (hord : Ordered s stamp clock) (hpc : s.switch.pc c = .schedule prev)
    (hmem : ∀ a x, x ∈ sched.runQueue a → x ∈ s.sched.runQueue a)
    (he : some e ≠ prev → ∀ d, s.switch.stack d = .thread e → stamp d < stamp c) :
    Ordered (⟨sched, s.switch.pick c prev e⟩ : State Cpu E F W) stamp clock where
  lt := hord.lt
  queued a b x hx hstack hne hdep := by
    refine hord.queued a b x (hmem a x hx) hstack hne ?_
    by_cases ha : a = c
    · rw [ha, hpc]
      rfl
    · simpa [Switch.State.pick, Switch.State.setPc, ha] using hdep
  spinning a b prev' x hspin hstack := by
    by_cases ha : a = c
    · subst ha
      by_cases hprev : some e = prev
      · simp [Switch.State.pick, Switch.State.setPc, hprev] at hspin
      · simp only [Switch.State.pick, Switch.State.setPc, update_self, if_neg hprev] at hspin
        cases hspin
        exact he hprev b hstack
    · refine hord.spinning a b prev' x ?_ hstack
      simpa [Switch.State.pick, Switch.State.setPc, ha] using hspin

omit [DecidableEq F] in
theorem Link.pick {sched : Sched.State Cpu E F} {prev : Option E} {e : E} (h : Link owner s)
    (hcur : sched.current = update s.sched.current c (some e))
    (hin : sched.inSchedule = update s.sched.inSchedule c false)
    (howner : idleOf owner e = true → owner e = some c) :
    Link owner (⟨sched, s.switch.pick c prev e⟩ : State Cpu E F W) where
  current := by
    rw [hcur, h.current]
    rfl
  inSchedule a := by
    rw [hin]
    by_cases ha : a = c
    · subst ha
      by_cases hprev : some e = prev <;>
        simp [Switch.State.pick, Switch.State.setPc, hprev]
    · simpa [Switch.State.pick, Switch.State.setPc, ha] using h.inSchedule a
  owner_current a x hx hi := by
    by_cases ha : a = c
    · subst ha
      obtain rfl : e = x := by simpa [Switch.State.pick] using hx
      exact howner hi
    · exact h.owner_current a x (by simpa [Switch.State.pick, ha] using hx) hi
  owner_stack := h.owner_stack

omit [DecidableEq Cpu] [DecidableEq E] [DecidableEq F] in
/-- A CPU in `schedule` is still on the stack of the thread it has put down. -/
theorem eq_prev {phase : E → Switch.Phase Cpu} {prev : Option E} (h : Switch.Inv phase s.switch)
    (hpc : s.switch.pc d = .schedule prev) (hstack : s.switch.stack d = .thread t) : some t = prev := by
  have hok := h.pcOk d
  simp only [Switch.PcOk, hpc] at hok
  rw [hok.2] at hstack
  cases prev <;> cases hstack
  rfl

theorem Inv.pick {e : E} {q : List E} {sched : Sched.State Cpu E F}
    {switch : Switch.State Cpu E W} (h : Inv owner s) (hq : s.sched.runQueue c = e :: q)
    (hs : Sched.step (idleOf owner) s.sched (.pick c) = some sched)
    (ht : Switch.step s.switch (.pick c e) = some switch) : Inv owner ⟨sched, switch⟩ := by
  obtain ⟨stamp, clock, hord⟩ := h.ordered
  obtain ⟨phase, hphase⟩ := h.switch
  have hinv := Sched.inv_step h.sched hs
  have hhome := Sched.homeOk_step h.sched h.home hs
  have hswitch := Switch.inv_step hphase ht
  have hmem : e ∈ s.sched.runQueue c := hq ▸ List.mem_cons_self
  cases Switch.steps_of_step ht with
  | @pick _ _ prev hpc =>
    cases Sched.steps_of_step hs with
    | @pick _ e' q' hq' hin =>
      obtain ⟨rfl, rfl⟩ := List.cons.inj (hq.symm.trans hq')
      refine ⟨hinv, hhome, hswitch, h.link.pick rfl rfl ?_, stamp, clock, hord.pick hpc ?_ ?_⟩
      · intro hi
        exact absurd hmem (h.sched.notMem_runQueue (.inr hi) c)
      · intro a x hx
        by_cases ha : a = c
        · rw [ha, hq]
          refine List.mem_cons_of_mem _ ?_
          simpa [Sched.State.pick, ha] using hx
        · simpa [Sched.State.pick, ha] using hx
      · intro hprev d hstack
        refine hord.queued c d e hmem hstack ?_ (by rw [hpc]; rfl)
        rintro rfl
        exact hprev (eq_prev hphase hpc hstack)

theorem Inv.pickIdle {e : E} {sched : Sched.State Cpu E F} {switch : Switch.State Cpu E W}
    (h : Inv owner s) (howner : owner e = some c)
    (hs : Sched.step (idleOf owner) s.sched (.pickIdle c e) = some sched)
    (ht : Switch.step s.switch (.pick c e) = some switch) : Inv owner ⟨sched, switch⟩ := by
  obtain ⟨stamp, clock, hord⟩ := h.ordered
  obtain ⟨phase, hphase⟩ := h.switch
  have hinv := Sched.inv_step h.sched hs
  have hhome := Sched.homeOk_step h.sched h.home hs
  have hswitch := Switch.inv_step hphase ht
  cases Switch.steps_of_step ht with
  | @pick _ _ prev hpc =>
    cases Sched.steps_of_step hs with
    | pickIdle hin hi =>
      refine ⟨hinv, hhome, hswitch, h.link.pick rfl rfl fun _ => howner, stamp, clock,
        hord.pick hpc (fun a x hx => hx) ?_⟩
      -- no other CPU runs on the stack of the idle thread
      intro hprev d hstack
      obtain rfl : d = c := Option.some.inj ((h.link.owner_stack d e hstack hi).symm.trans howner)
      exact absurd (eq_prev hphase hpc hstack) hprev

/-! ### The steps of a switch -/

/-- What a step of `jumpTo` or of the resumed side does to the CPUs: at most one goes on, it does not
enter or leave `schedule` and does not begin to spin, and it gets to the stack of its current thread. -/
structure Jumps (r r' : Switch.State Cpu E W) : Prop where
  current : r'.current = r.current
  pc : ∀ a, r'.pc a = r.pc a ∨ (∀ prev, r.pc a ≠ .schedule prev) ∧ (∀ prev, r'.pc a ≠ .schedule prev) ∧
    (∀ prev t, r'.pc a ≠ .spin prev t) ∧ (departing (r'.pc a) = true → departing (r.pc a) = true)
  stack : ∀ a t, r'.stack a = .thread t →
    r.stack a = .thread t ∨ (r.pc a).takes = some t ∧ r.current a = some t

omit [DecidableEq E] in
theorem Jumps.setPc {r r' : Switch.State Cpu E W} {new : Switch.Pc Cpu E}
    (hpc : r'.pc = update r.pc c new) (hcur : r'.current = r.current)
    (hstack : r'.stack = r.stack) (hold : ∀ prev, r.pc c ≠ .schedule prev)
    (hnew : ∀ prev, new ≠ .schedule prev) (hspin : ∀ prev t, new ≠ .spin prev t)
    (hdep : departing new = true → departing (r.pc c) = true) : Jumps r r' where
  current := hcur
  pc a := by
    by_cases ha : a = c
    · subst ha
      rw [hpc, update_self]
      exact .inr ⟨hold, hnew, hspin, hdep⟩
    · exact .inl (by rw [hpc, update_of_ne ha])
  stack a t h := .inl (hstack ▸ h)

omit [DecidableEq Cpu] [DecidableEq E] in
theorem Jumps.of_eq {r r' : Switch.State Cpu E W} (hpc : r'.pc = r.pc) (hcur : r'.current = r.current)
    (hstack : r'.stack = r.stack) : Jumps r r' :=
  ⟨hcur, fun _ => .inl (by rw [hpc]), fun _ _ h => .inl (hstack ▸ h)⟩

theorem jumps_of_step {r r' : Switch.State Cpu E W} {ev : Switch.Event Cpu E W}
    {phase : E → Switch.Phase Cpu} (h : Switch.Inv phase r) (hev : isJump ev = true)
    (hs : Switch.step r ev = some r') : Jumps r r' := by
  cases Switch.steps_of_step hs with
  | writeFs hpc hcur => exact .of_eq rfl rfl rfl
  | putDown | pick => cases hev
  | spin hpc hbad => exact .of_eq rfl rfl rfl
  | jumpFault | readPrevFault | readCurFault => exact .of_eq rfl rfl rfl
  | exchange hpc | prepare hpc | load hpc | clear hpc | readPrev hpc | readCur hpc | save hpc
  | publish hpc => exact .setPc rfl rfl rfl (by simp [hpc]) (by simp) (by simp) (by simp [hpc, departing])
  | @jump c prev t context hpc =>
    have hok := h.pcOk c
    simp only [Switch.PcOk, hpc] at hok
    obtain ⟨-, hcur, hcontext, -⟩ := hok
    cases hcontext
    refine ⟨rfl, fun a => ?_, fun a x hx => ?_⟩
    · by_cases ha : a = c
      · subst ha
        refine .inr ⟨by simp [hpc], ?_, ?_, ?_⟩ <;>
          simp [Switch.State.jump, Switch.State.setPc, departing]
      · exact .inl (by simp [Switch.State.jump, Switch.State.setPc, ha])
    · by_cases ha : a = c
      · subst ha
        obtain rfl : t = x := by
          simpa [Switch.State.jump, Switch.State.setPc, Switch.State.last] using hx
        exact .inr ⟨by rw [hpc]; rfl, hcur⟩
      · exact .inl (by simpa [Switch.State.jump, Switch.State.setPc, ha] using hx)

omit [DecidableEq F] in
theorem Inv.jump {ev : Switch.Event Cpu E W} {switch : Switch.State Cpu E W} (h : Inv owner s)
    (hev : isJump ev = true) (ht : Switch.step s.switch ev = some switch) :
    Inv owner { s with switch := switch } := by
  obtain ⟨stamp, clock, hord⟩ := h.ordered
  obtain ⟨phase, hphase⟩ := h.switch
  have hj := jumps_of_step hphase hev ht
  -- a CPU that takes a context is not in `schedule`
  have htakes : ∀ a x, (s.switch.pc a).takes = some x → ∀ prev, s.switch.pc a ≠ .schedule prev := by
    intro a x hx prev hpc
    rw [hpc] at hx
    cases hx
  refine ⟨h.sched, h.home, Switch.inv_step hphase ht, ⟨?_, ?_, ?_, ?_⟩, stamp, clock, hord.lt, ?_, ?_⟩
  · exact h.link.current.trans hj.current.symm
  · intro a
    rw [h.link.inSchedule]
    rcases hj.pc a with hpc | ⟨hold, hnew, -⟩
    · simp only [hpc]
    · simp [hold, hnew]
  · intro a e he
    exact h.link.owner_current a e (hj.current ▸ he)
  · intro a e he hi
    rcases hj.stack a e he with hst | ⟨-, hcur⟩
    · exact h.link.owner_stack a e hst hi
    · exact h.link.owner_current a e hcur hi
  · intro a b x hx hstack hne hdep
    rcases hj.stack b x hstack with hst | ⟨htake, hcur⟩
    · refine hord.queued a b x hx hst hne ?_
      rcases hj.pc a with hpc | ⟨-, -, -, hdep'⟩
      · exact hpc ▸ hdep
      · exact hdep' hdep
    · exact absurd hx (h.notMem_of_current hcur (htakes b x htake) a)
  · intro a b prev x hspin hstack
    have hspin' : s.switch.pc a = .spin prev x := by
      rcases hj.pc a with hpc | ⟨-, -, hno, -⟩
      · exact hpc ▸ hspin
      · exact absurd hspin (hno prev x)
    rcases hj.stack b x hstack with hst | ⟨htake, hcur⟩
    · exact hord.spinning a b prev x hspin' hst
    · have hok := hphase.pcOk a
      simp only [Switch.PcOk, hspin'] at hok
      obtain rfl := h.current_inj hok.2.1 hcur (by simp [hspin']) (htakes b x htake)
      rw [hspin'] at htake
      cases htake

/-! ### Every step and every run -/

/-- **Every step keeps the invariant.** -/
theorem inv_step {ev : Event Cpu E F W} (h : Inv owner s) (hs : step owner s ev = some s') :
    Inv owner s' := by
  cases steps_of_step hs with
  | task hpc hev hr => exact h.task hpc hev hr
  | putDown hr ht => exact h.putDown hr ht
  | pick hq hr ht => exact h.pick hq hr ht
  | pickIdle howner hr ht => exact h.pickIdle howner hr ht
  | loadBalance _ hr => exact h.loadBalance hr
  | jump hev ht => exact h.jump hev ht

theorem inv_run {fsBase : E → W} {fsReg : Cpu → W} {evs : List (Event Cpu E F W)}
    (hrun : run (step owner) (init owner fsBase fsReg) evs = some s) : Inv owner s :=
  run_induction (fun _ _ _ h hs => inv_step h hs) evs (inv_init fsBase fsReg) hrun

/-- **No set of CPUs waits in a circle**: in no reachable state is there a set of CPUs each of which spins
on a thread that another CPU of the set is leaving. -/
theorem not_deadlocked {fsBase : E → W} {fsReg : Cpu → W} {evs : List (Event Cpu E F W)}
    (hrun : run (step owner) (init owner fsBase fsReg) evs = some s) (S : Set Cpu) :
    ¬ WaitFor.Deadlocked (WaitsFor s) S := by
  obtain ⟨stamp, clock, hord⟩ := (inv_run hrun).ordered
  refine WaitFor.not_deadlocked_of_rank stamp fun c _ d _ hwait => ?_
  obtain ⟨prev, t, -, -, hspin, -, -, hstack⟩ := hwait
  exact hord.spinning c d prev t hspin hstack

/-- The idle threads of the two CPUs are 2 and 3. -/
def twoIdle : Fin 4 → Option (Fin 2)
  | 2 => some 0
  | 3 => some 1
  | _ => none

/-- Thread 0 runs on CPU 0 and goes to sleep; CPU 1 wakes it up and picks it while CPU 0 is still leaving it
for its idle thread. -/
def wokenEarly : List (Event (Fin 2) (Fin 4) Unit Unit) :=
  [.task 0 (.enqueueTask 0 0), .putDown 0, .pick 0, .jump (.exchange 0), .jump (.prepare 0),
    .jump (.load 0), .jump (.clear 0), .jump (.jump 0), .jump (.readPrev 0), .jump (.readCur 0),
    .jump (.save 0), .jump (.publish 0),
    .task 0 (.dequeueTask 0), .task 0 (.watchAdd 0), .putDown 0, .pickIdle 0 2,
    .task 1 (.watchErase 0), .task 1 (.enqueueTask 1 0), .putDown 1, .pick 1]

theorem not_deadlocked_wokenEarly :
    ∃ s, run (step twoIdle) (init twoIdle (fun _ => ()) fun _ => ()) wokenEarly = some s ∧
      WaitsFor s 1 0 ∧ ¬ WaitFor.Deadlocked (WaitsFor s) Set.univ := by
  obtain ⟨s, hrun, hone, hgood, hzero, hstack⟩ :
      ∃ s, run (step twoIdle) (init twoIdle (fun _ => ()) fun _ => ()) wokenEarly = some s ∧
        s.switch.pc 1 = .spin none 0 ∧ s.switch.contextGood 0 = false ∧
        s.switch.pc 0 = .spin (some 0) 2 ∧ s.switch.stack 0 = .thread 0 :=
    ⟨_, rfl, rfl, rfl, rfl, rfl⟩
  exact ⟨s, hrun, ⟨none, 0, some 0, 2, hone, hgood, hzero, hstack⟩, not_deadlocked hrun Set.univ⟩

/-- **A thread runs on one CPU only**: what a CPU has picked, even if it still spins for its context, no
run queue offers, no other CPU has picked, and a CPU that still runs on its stack is leaving it. -/
theorem runs_alone {fsBase : E → W} {fsReg : Cpu → W} {evs : List (Event Cpu E F W)}
    (hrun : run (step owner) (init owner fsBase fsReg) evs = some s)
    (hcur : s.switch.current c = some t) (hpc : ∀ prev, s.switch.pc c ≠ .schedule prev) :
    (∀ d, t ∉ s.sched.runQueue d) ∧
      (∀ d, s.switch.current d = some t → (∀ prev, s.switch.pc d ≠ .schedule prev) → d = c) ∧
      ∀ d, s.switch.stack d = .thread t → d ≠ c → departing (s.switch.pc d) = true := by
  have h := inv_run hrun
  refine ⟨h.notMem_of_current hcur hpc, fun d hd hpd => h.current_inj hd hcur hpd hpc, ?_⟩
  intro d hstack hdc
  by_contra hstays
  obtain ⟨phase, hi⟩ := h.switch
  -- a CPU that is not leaving its stack has the thread of the stack as its current one
  have hd : s.switch.current d = some t ∧ ∀ prev, s.switch.pc d ≠ .schedule prev := by
    have hok := hi.pcOk d
    rw [Switch.PcOk, hstack] at hok
    generalize s.switch.pc d = q at hok hstays
    cases q with
    | user =>
      refine ⟨?_, by simp⟩
      cases hd : s.switch.current d <;> rw [hd] at hok <;> cases hok
      rfl
    | schedule | spin | good | ready | loaded | cleared => exact absurd rfl hstays
    | resumed =>
      obtain ⟨_, _, -, -, -, ⟨⟩, hd⟩ := hok
      exact ⟨hd, by simp⟩
    | prevRead =>
      obtain ⟨_, -, -, -, ⟨⟩, hd⟩ := hok
      exact ⟨hd, by simp⟩
    | curRead | saved =>
      obtain ⟨-, ⟨⟩, hd⟩ := hok
      exact ⟨hd, by simp⟩
  exact hdc (h.current_inj hd.1 hcur hd.2 hpc)

theorem runs_alone_wokenEarly :
    ∃ s, run (step twoIdle) (init twoIdle (fun _ => ()) fun _ => ()) wokenEarly = some s ∧
      s.switch.stack 0 = .thread 0 ∧ departing (s.switch.pc 0) = true := by
  obtain ⟨s, hrun, hpc, hcur, hstack⟩ :
      ∃ s, run (step twoIdle) (init twoIdle (fun _ => ()) fun _ => ()) wokenEarly = some s ∧
        s.switch.pc 1 = .spin none 0 ∧ s.switch.current 1 = some 0 ∧ s.switch.stack 0 = .thread 0 :=
    ⟨_, rfl, rfl, rfl, rfl⟩
  have h := runs_alone hrun hcur (by simp [hpc])
  exact ⟨s, hrun, hstack, h.2.2 0 hstack (by decide)⟩

end Step

end Dispatch

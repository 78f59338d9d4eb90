/-
**The registers of a thread survive a switch.**

`jumpTo` saves the FS register of the CPU in the `fs_base` of the thread that is left and loads it from
that of the thread that is resumed, long before the stacks are switched; the preemption stack in the
shared TLS is replaced on the resumed side.  So a register belongs to one thread at every point of the
code, but not always to the one on whose stack the CPU runs.  No two registers belong to the same thread,
because a context is taken by one CPU only.

Main definition: `RegistersOk`.  Main result: `own_registers`.
-/

import SgxElps.Switch.Invariant
import SgxElps.Lib.Participants

namespace Switch

open Function (update update_self update_of_ne)
open Transition
open State

variable {Cpu T W : Type} {s s' : State Cpu T W} {phase : T → Phase Cpu} {c d : Cpu} {t : T}
  {prev : Option T}

/-! ### Who owns a register -/

/-- The thread a CPU is about to jump to, once the FS register is switched. -/
def Pc.next : Pc Cpu T → Option T
  | .ready _ t | .loaded _ t _ | .cleared _ t _ => some t
  | _ => none

def Stack.owner : Stack Cpu T → Option T
  | .boot _ => none
  | .thread t => some t

/-- The thread whose value the FS register has. -/
def State.fsOwner (s : State Cpu T W) (c : Cpu) : Option T := (s.pc c).next.or (s.stack c).owner

/-- The resumed side has installed the `preempt_stack` of its thread. -/
def Pc.installed : Pc Cpu T → Bool
  | .resumed .. | .prevRead .. | .curRead true .. => false
  | _ => true

/-- Each FS register has the value of its owner, the `fs_base` of a thread that owns none has its value,
and a CPU has the `preempt_stack` of the thread on whose stack it runs. -/
structure RegistersOk (s : State Cpu T W) : Prop where
  reg : ∀ c t, s.fsOwner c = some t → s.fsReg c = s.fs t
  base : ∀ t, (∀ c, s.fsOwner c ≠ some t) → s.fsBase t = s.fs t
  preempt : ∀ c, (s.pc c).installed = true → s.stack c = stackOf c (s.preemptStack c)

theorem fsOwner_cases (h : s.fsOwner c = some t) :
    (s.pc c).takes = some t ∨ s.stack c = .thread t := by
  rcases Option.or_eq_some_iff.1 h with hq | ⟨-, hk⟩
  · left
    cases hpc : s.pc c <;> rw [hpc] at hq <;> first | exact hq | cases hq
  · right
    cases hstack : s.stack c <;> rw [hstack] at hk <;> cases hk
    rfl

theorem Inv.eq_of_fsOwner (h : Inv phase s) (hc : s.fsOwner c = some t)
    (hd : s.fsOwner d = some t) : d = c := by
  rcases fsOwner_cases hc with hc | hc
  · rcases fsOwner_cases hd with hd | hd
    · exact (h.held (.inl hc)).2 d (.inl hd)
    · exact absurd hd ((h.held (.inl hc)).1 d)
  · rcases fsOwner_cases hd with hd | hd
    · exact absurd hc ((h.held (.inl hd)).1 c)
    · exact h.eq_of_stack (hd.trans hc.symm)

/-! ### The steps -/

variable [DecidableEq Cpu] {q₀ q : Pc Cpu T}

/-- A step of CPU `c` by which no FS register changes its owner. -/
theorem RegistersOk.congr (h : RegistersOk s) (hpc : s'.pc = update s.pc c q)
    (hstack : ∀ d, d ≠ c → s'.stack d = s.stack d)
    (howner : q.next.or (s'.stack c).owner = s.fsOwner c) (hreg : s'.fsReg = s.fsReg)
    (hfs : s'.fs = s.fs) (hbase : s'.fsBase = s.fsBase)
    (hother : ∀ d, d ≠ c → s'.preemptStack d = s.preemptStack d)
    (hself : q.installed = true → s'.stack c = stackOf c (s'.preemptStack c)) : RegistersOk s' := by
  have howner' : ∀ d, s'.fsOwner d = s.fsOwner d := fun d => by
    by_cases hd : d = c
    · rw [hd, fsOwner, hpc, update_self, howner]
    · rw [fsOwner, hpc, update_of_ne hd, hstack d hd]
      rfl
  constructor
  case reg => simpa only [howner', hreg, hfs] using h.reg
  case base => simpa only [howner', hbase, hfs] using h.base
  case preempt =>
    intro d hd
    by_cases hdc : d = c
    · rw [hdc, hpc, update_self] at hd
      exact hdc ▸ hself hd
    · rw [hpc, update_of_ne hdc] at hd
      rw [hstack d hdc, hother d hdc]
      exact h.preempt d hd

/-- A step of CPU `c` on its own stack that leaves all registers alone. -/
theorem RegistersOk.advance (h : RegistersOk s) (hpc₀ : s.pc c = q₀)
    (hpc : s'.pc = update s.pc c q) (hstack : s'.stack = s.stack)
    (hnext : q.next = q₀.next) (hreg : s'.fsReg = s.fsReg) (hfs : s'.fs = s.fs)
    (hbase : s'.fsBase = s.fsBase) (hpreempt : s'.preemptStack = s.preemptStack)
    (hself : q.installed = true → q₀.installed = true) : RegistersOk s' := by
  subst hpc₀
  refine h.congr hpc (fun d _ => by rw [hstack]) (by rw [hstack, hnext]; rfl) hreg hfs hbase
    (fun d _ => by rw [hpreempt]) fun hq => ?_
  rw [hstack, hpreempt]
  exact h.preempt c (hself hq)

variable [DecidableEq T]

/-- The thread that runs writes its register. -/
theorem RegistersOk.writeFs (h : RegistersOk s) (hi : Inv phase s) (hpc : s.pc c = .user)
    (hcur : s.current c = some t) (w : W) :
    RegistersOk { s with fsReg := update s.fsReg c w, fs := update s.fs t w } := by
  have hc : s.fsOwner c = some t := by
    have hok := hi.pcOk c
    simp only [PcOk, hpc, hcur] at hok
    rw [fsOwner, hpc, hok]
    rfl
  refine ⟨fun d x hd => ?_, fun x hx => ?_, h.preempt⟩
  · by_cases hdc : d = c
    · subst hdc
      obtain rfl : t = x := Option.some.inj (hc.symm.trans hd)
      simp
    · have hxt : x ≠ t := fun hxt => hdc (hi.eq_of_fsOwner hc (hxt ▸ hd))
      simpa [hdc, hxt] using h.reg d x hd
  · have hxt : x ≠ t := fun hxt => hx c (hxt ▸ hc)
    simpa [hxt] using h.base x hx

/-- The register is switched: the value of the thread that is left goes to its `fs_base`. -/
theorem RegistersOk.prepare (h : RegistersOk s) (hi : Inv phase s) (hpc : s.pc c = .good prev t) :
    RegistersOk (s.prepare c prev t) := by
  have htakes : (s.pc c).takes = some t := by
    rw [hpc]
    rfl
  obtain ⟨hrun, honly⟩ := hi.held (.inl htakes)
  have hok := hi.pcOk c
  simp only [PcOk, hpc] at hok
  have hc : s.fsOwner c = prev := by
    rw [fsOwner, hpc, hok.1]
    cases prev <;> rfl
  have hother : ∀ d, d ≠ c → (s.prepare c prev t).pc d = s.pc d := fun d hd => by
    simp [State.prepare, setPc, hd]
  have howner : ∀ d, d ≠ c → (s.prepare c prev t).fsOwner d = s.fsOwner d := fun d hd => by
    rw [fsOwner, hother d hd]
    rfl
  -- a thread has its value in `fs_base` afterwards if no other CPU owns its register
  have hbase : ∀ x, (∀ d, d ≠ c → s.fsOwner d ≠ some x) →
      (s.prepare c prev t).fsBase x = s.fs x := by
    intro x hx
    by_cases hp : prev = some x
    · subst hp
      simpa [State.prepare] using h.reg c x hc
    · have hx' : s.fsBase x = s.fs x := h.base x fun d hd => by
        by_cases hdc : d = c
        · exact hp (hc.symm.trans (hdc ▸ hd))
        · exact hx d hdc hd
      cases prev with
      | none => exact hx'
      | some p => simpa [State.prepare, Ne.symm (fun hpx => hp (congrArg some hpx) : p ≠ x)] using hx'
  constructor
  case reg =>
    intro d x hd
    by_cases hdc : d = c
    · subst hdc
      obtain rfl : t = x := by simpa [fsOwner, State.prepare, setPc, Pc.next] using hd
      refine (update_self ..).trans (hbase t fun e he ho => ?_)
      rcases fsOwner_cases ho with ho | ho
      · exact he (honly e (.inl ho))
      · exact hrun e ho
    · rw [howner d hdc] at hd
      simpa [State.prepare, setPc, hdc] using h.reg d x hd
  case base =>
    intro x hx
    exact hbase x fun d hd => howner d hd ▸ hx d
  case preempt =>
    intro d hd
    by_cases hdc : d = c
    · exact hdc ▸ h.preempt c (by rw [hpc]; rfl)
    · exact h.preempt d (hother d hdc ▸ hd)

theorem registersOk_step {ev : Event Cpu T W} (hi : Inv phase s) (h : RegistersOk s)
    (hs : step s ev = some s') : RegistersOk s' := by
  have hok := hi.pcOk
  cases steps_of_step hs with
  | writeFs hpc hcur => exact h.writeFs hi hpc hcur _
  | putDown hpc => exact h.advance hpc rfl rfl rfl rfl rfl rfl rfl id
  | @pick c t prev hpc =>
    refine h.advance hpc rfl rfl ?_ rfl rfl rfl rfl fun _ => rfl
    split <;> rfl
  | exchange hpc hgood => exact h.advance hpc rfl rfl rfl rfl rfl rfl rfl id
  | spin hpc hbad => exact h
  | prepare hpc => exact h.prepare hi hpc
  | load hpc => exact h.advance hpc rfl rfl rfl rfl rfl rfl rfl id
  | clear hpc => exact h.advance hpc rfl rfl rfl rfl rfl rfl rfl id
  | @jump c prev t context hpc =>
    have hc := hok c
    simp only [PcOk, hpc, Option.some_inj] at hc
    obtain ⟨-, -, rfl, -⟩ := hc
    refine h.congr rfl (fun d hd => update_of_ne hd ..) ?_ rfl rfl rfl (fun _ _ => rfl) fun h => by cases h
    simp [State.jump, fsOwner, hpc, Pc.next, Stack.owner, last]
  | jumpFault | readPrevFault | readCurFault => exact ⟨h.reg, h.base, h.preempt⟩
  | readPrev hpc hdata => exact h.advance hpc rfl rfl rfl rfl rfl rfl rfl id
  | @readCur c entry fctx data prev r hpc hdata =>
    have hc := hok c
    simp only [PcOk, hpc, hdata] at hc
    obtain ⟨cur, -, hcur, -, hstack, -⟩ := hc
    cases entry with
    | true => exact h.advance hpc rfl rfl rfl rfl rfl rfl rfl id
    | false =>
      refine h.congr rfl (fun _ _ => rfl) (by rw [fsOwner, hpc]; rfl) rfl rfl rfl
        (fun d hd => update_of_ne hd ..) fun _ => ?_
      simpa [State.readCur, setPc, stackOf, Option.some.inj hcur] using hstack
  | @save c entry fctx prev cur hpc =>
    have hc := hok c
    simp only [PcOk, hpc] at hc
    cases entry with
    | true =>
      refine h.congr rfl (fun _ _ => rfl) (by rw [fsOwner, hpc]; rfl) rfl rfl rfl
        (fun d hd => update_of_ne hd ..) fun _ => ?_
      simpa [State.save, setPc, stackOf] using hc.2.1
    | false => exact h.advance hpc rfl rfl rfl rfl rfl rfl rfl id
  | publish hpc => exact h.advance hpc rfl rfl rfl rfl rfl rfl rfl id

/-- **A thread finds its own registers** wherever it runs: the FS register has the value that the thread
gave it last, on whichever CPU that was, and the preemption stack that is installed is the thread's. -/
theorem own_registers {fsBase : T → W} {fsReg : Cpu → W} {evs : List (Event Cpu T W)}
    (hrun : run step (init fsBase fsReg) evs = some s) (hpc : s.pc c = .user)
    (hcur : s.current c = some t) : s.fsReg c = s.fs t ∧ s.preemptStack c = some t := by
  obtain ⟨⟨phase, hi⟩, h⟩ := run_induction
    (I := fun s => (∃ phase, Inv phase s) ∧ RegistersOk s)
    (fun _ _ _ ⟨⟨_, hi⟩, h⟩ hs => ⟨inv_step hi hs, registersOk_step hi h hs⟩) evs
    ⟨⟨_, inv_init fsBase fsReg⟩, nofun, fun _ _ => rfl, fun _ _ => rfl⟩ hrun
  have hstack := hi.pcOk c
  simp only [PcOk, hpc, hcur] at hstack
  refine ⟨h.reg c t (by rw [fsOwner, hpc, hstack]; rfl), ?_⟩
  have hinstalled := h.preempt c (by rw [hpc]; rfl)
  rw [hstack] at hinstalled
  cases hp : s.preemptStack c <;> rw [hp] at hinstalled <;> cases hinstalled
  rfl

/-- CPU `c` switches to the thread `t`, undisturbed. -/
def switchTo (c : Cpu) (t : T) : List (Event Cpu T W) :=
  [.putDown c, .pick c t, .exchange c, .prepare c, .load c, .clear c, .jump c, .readPrev c, .readCur c,
    .save c, .publish c]

/-- Thread 0 writes its register on CPU 0 and finds the value on CPU 1. -/
theorem own_registers_moved :
    ∃ s, run step (init (fun _ => 0) fun _ : Fin 2 => 0)
        (switchTo 0 0 ++ .writeFs 0 7 :: switchTo 0 1 ++ switchTo 1 (0 : Fin 2)) = some s ∧
      s.fs 0 = 7 ∧ s.fsReg 1 = s.fs 0 ∧ s.preemptStack 1 = some 0 := by
  obtain ⟨s, hrun, hpc, hcur, hfs⟩ :
      ∃ s, run step (init (fun _ => 0) fun _ : Fin 2 => 0)
          (switchTo 0 0 ++ .writeFs 0 7 :: switchTo 0 1 ++ switchTo 1 (0 : Fin 2)) = some s ∧
        s.pc 1 = .user ∧ s.current 1 = some 0 ∧ s.fs 0 = 7 :=
    ⟨_, rfl, rfl, rfl, rfl⟩
  exact ⟨s, hrun, hfs, own_registers hrun hpc hcur⟩

end Switch

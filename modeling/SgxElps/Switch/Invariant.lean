/-
**A context is handed from CPU to CPU.**

At every moment a thread is in one of four phases: its context is saved and good; a CPU has taken the
context and is about to jump to it; the thread runs on a CPU; or it has been left and the CPU that left it
holds its context and has not published it yet.  The phases exclude each other, and each names the one
CPU that is concerned.  While a CPU reads the `transfer_data` on the stack it has left, the thread of that
stack is in the last phase, so nobody can resume it.

Main definition: `Inv`.  Main result: `inv_step`.
-/

import SgxElps.Switch.Basic

namespace Switch

open Function (update update_of_ne update_self)
open State

variable {Cpu T W : Type}

/-! ### Phases -/

/-- The phase of a thread, with the CPU concerned. -/
inductive Phase (Cpu : Type) where
  | saved
  | taken (c : Cpu)
  | executing (c : Cpu)
  | leaving (c : Cpu)
deriving DecidableEq

/-- The thread whose context the CPU has taken. -/
def Pc.takes : Pc Cpu T → Option T
  | .good _ t | .ready _ t | .loaded _ t _ | .cleared _ t _ => some t
  | _ => none

/-- The thread the CPU has left and whose context it has not published. -/
def Pc.left : Pc Cpu T → Option T
  | .resumed _ _ (.thread p) => some p
  | .prevRead _ _ _ prev | .curRead _ _ prev _ | .saved prev _ => prev
  | _ => none

/-- What a CPU knows at a point of the code. -/
def PcOk (s : State Cpu T W) (c : Cpu) : Prop :=
  match s.pc c with
  | .user => s.stack c = stackOf c (s.current c)
  | .schedule prev => prev = s.current c ∧ s.stack c = stackOf c prev
  | .spin prev t => s.stack c = stackOf c prev ∧ s.current c = some t ∧ prev ≠ some t
  | .good prev t =>
      s.stack c = stackOf c prev ∧ s.current c = some t ∧ s.fcxt t = some (s.last (.thread t))
  | .ready prev t =>
      s.stack c = stackOf c prev ∧ s.current c = some t ∧ s.fcxt t = some (s.last (.thread t)) ∧
        s.transfer (s.stack c) = some ⟨prev, t⟩
  | .loaded prev t context | .cleared prev t context =>
      s.stack c = stackOf c prev ∧ s.current c = some t ∧ context = some (s.last (.thread t)) ∧
        s.transfer (s.stack c) = some ⟨prev, t⟩
  | .resumed _ fctx data =>
      ∃ prev cur, data = stackOf c prev ∧ s.transfer data = some ⟨prev, cur⟩ ∧ fctx = s.last data ∧
        s.stack c = .thread cur ∧ s.current c = some cur
  | .prevRead _ fctx data prev =>
      ∃ cur, data = stackOf c prev ∧ s.transfer data = some ⟨prev, cur⟩ ∧ fctx = s.last data ∧
        s.stack c = .thread cur ∧ s.current c = some cur
  | .curRead _ fctx prev cur =>
      fctx = s.last (stackOf c prev) ∧ s.stack c = .thread cur ∧ s.current c = some cur
  | .saved prev cur =>
      (∀ p, prev = some p → s.fcxt p = some (s.last (.thread p))) ∧ s.stack c = .thread cur ∧
        s.current c = some cur

/-- **The invariant.** -/
structure Inv (phase : T → Phase Cpu) (s : State Cpu T W) : Prop where
  stack_iff : ∀ c t, s.stack c = .thread t ↔ phase t = .executing c
  boot : ∀ c d, s.stack c = .boot d → d = c
  takes_iff : ∀ c t, (s.pc c).takes = some t ↔ phase t = .taken c
  left_iff : ∀ c t, (s.pc c).left = some t ↔ phase t = .leaving c
  good_iff : ∀ t, s.contextGood t = true ↔ phase t = .saved
  fcxt_of_saved : ∀ t, phase t = .saved → s.fcxt t = some (s.last (.thread t))
  pcOk : ∀ c, PcOk s c
  last_notMem : ∀ t, (∀ c, phase t ≠ .executing c) → s.last (.thread t) ∉ s.jumped
  jumped_le : ∀ context ∈ s.jumped, context.number ≤ s.suspensions context.stack
  jumped_nodup : s.jumped.Nodup
  fault : s.fault = false

theorem inv_init (fsBase : T → W) (fsReg : Cpu → W) :
    Inv (fun _ => .saved) (init fsBase fsReg : State Cpu T W) := by
  constructor <;> simp [init, Pc.takes, Pc.left, PcOk, last, stackOf]

variable {s s' : State Cpu T W} {phase : T → Phase Cpu} {c d : Cpu} {t p : T} {prev : Option T}

/-- What a CPU knows does not depend on the other CPUs. -/
theorem PcOk.congr (h : PcOk s c) (hpc : s'.pc c = s.pc c) (hstack : s'.stack c = s.stack c)
    (hcur : s'.current c = s.current c)
    (hthread : ∀ x, (s.pc c).takes = some x ∨ (s.pc c).left = some x →
      s'.fcxt x = s.fcxt x ∧ s'.suspensions (.thread x) = s.suspensions (.thread x) ∧
        s'.transfer (.thread x) = s.transfer (.thread x))
    (htransfer : (∃ x, (s.pc c).takes = some x) → s'.transfer (s.stack c) = s.transfer (s.stack c))
    (hboot : s'.suspensions (.boot c) = s.suspensions (.boot c) ∧
      s'.transfer (.boot c) = s.transfer (.boot c)) : PcOk s' c := by
  unfold PcOk at h ⊢
  rw [hpc, hstack, hcur]
  generalize hp : s.pc c = pc at *
  cases pc with
  | user | schedule | spin => exact h
  | good prev t =>
    obtain ⟨hf, hn, -⟩ := hthread t (.inl rfl)
    simpa only [hf, last, hn] using h
  | ready prev t =>
    obtain ⟨hf, hn, -⟩ := hthread t (.inl rfl)
    simpa only [hf, last, hn, htransfer ⟨t, rfl⟩] using h
  | loaded prev t context | cleared prev t context =>
    obtain ⟨hf, hn, -⟩ := hthread t (.inl rfl)
    simpa only [last, hn, htransfer ⟨t, rfl⟩] using h
  | resumed entry fctx data =>
    obtain ⟨prev, cur, rfl, h⟩ := h
    refine ⟨prev, cur, rfl, ?_⟩
    cases prev with
    | none => simpa only [stackOf, last, hboot] using h
    | some p =>
      obtain ⟨-, hn, ht⟩ := hthread p (.inr rfl)
      simpa only [stackOf, last, hn, ht] using h
  | prevRead entry fctx data prev =>
    obtain ⟨cur, rfl, h⟩ := h
    refine ⟨cur, rfl, ?_⟩
    cases prev with
    | none => simpa only [stackOf, last, hboot] using h
    | some p =>
      obtain ⟨-, hn, ht⟩ := hthread p (.inr rfl)
      simpa only [stackOf, last, hn, ht] using h
  | curRead entry fctx prev cur =>
    cases prev with
    | none => simpa only [stackOf, last, hboot] using h
    | some p =>
      obtain ⟨-, hn, -⟩ := hthread p (.inr rfl)
      simpa only [stackOf, last, hn] using h
  | saved prev cur =>
    refine ⟨fun p hprev => ?_, h.2⟩
    obtain ⟨hf, hn, -⟩ := hthread p (.inr hprev)
    rw [hf, last, hn]
    exact h.1 p hprev

/-! ### The phases exclude each other -/

theorem Inv.eq_of_stack (h : Inv phase s) (hc : s.stack c = s.stack d) : c = d := by
  cases hd : s.stack d with
  | boot e => rw [← h.boot d e hd, h.boot c e (hc.trans hd)]
  | thread t =>
    have hct := (h.stack_iff c t).1 (hc.trans hd)
    have hdt := (h.stack_iff d t).1 hd
    exact Phase.executing.inj (hct.symm.trans hdt)

/-- A thread that a CPU has taken or left does not run, and no other CPU has taken or left it. -/
theorem Inv.held (h : Inv phase s) (hx : (s.pc c).takes = some t ∨ (s.pc c).left = some t) :
    (∀ d, s.stack d ≠ .thread t) ∧
      ∀ d, (s.pc d).takes = some t ∨ (s.pc d).left = some t → d = c := by
  rw [h.takes_iff, h.left_iff] at hx
  refine ⟨fun d hd => ?_, fun d hd => ?_⟩
  · rw [h.stack_iff] at hd
    rcases hx with hx | hx <;> rw [hx] at hd <;> cases hd
  · rw [h.takes_iff, h.left_iff] at hd
    rcases hx with hx | hx <;> rw [hx] at hd <;> rcases hd with hd | hd <;> cases hd <;> rfl

/-! ### The steps -/

variable [DecidableEq Cpu]

/-- A step of CPU `c` by which no thread changes its phase. -/
theorem Inv.advance {q₀ q : Pc Cpu T} (h : Inv phase s) (hpc0 : s.pc c = q₀)
    (hpc : s'.pc = update s.pc c q) (htakes : q.takes = q₀.takes)
    (hleft : q.left = q₀.left) (hstack : s'.stack = s.stack) (hgood : s'.contextGood = s.contextGood)
    (hsusp : s'.suspensions = s.suspensions) (hjumped : s'.jumped = s.jumped)
    (hfault : s'.fault = s.fault) (hcur : ∀ d, d ≠ c → s'.current d = s.current d)
    (hfcxt : ∀ x, s'.fcxt x = s.fcxt x ∨ q₀.takes = some x ∨ q₀.left = some x)
    (htransfer : ∀ k, s'.transfer k = s.transfer k ∨ k = s.stack c) (hok : PcOk s' c) :
    Inv phase s' := by
  subst hpc0
  have hlast : s'.last = s.last := by
    funext k
    rw [last, last, hsusp]
  have hpc' : ∀ d, (s'.pc d).takes = (s.pc d).takes ∧ (s'.pc d).left = (s.pc d).left := by
    intro d
    by_cases hd : d = c
    · rw [hd, hpc, update_self]
      exact ⟨htakes, hleft⟩
    · rw [hpc, update_of_ne hd]
      exact ⟨rfl, rfl⟩
  have hfcxt' : ∀ x, (∀ d, phase x ≠ .taken d) → (∀ d, phase x ≠ .leaving d) →
      s'.fcxt x = s.fcxt x := by
    intro x ht hl
    rcases hfcxt x with hx | hx | hx
    · exact hx
    · exact absurd ((h.takes_iff c x).1 hx) (ht c)
    · exact absurd ((h.left_iff c x).1 hx) (hl c)
  constructor
  case stack_iff => rw [hstack]; exact h.stack_iff
  case boot => rw [hstack]; exact h.boot
  case takes_iff => exact fun d x => by rw [(hpc' d).1]; exact h.takes_iff d x
  case left_iff => exact fun d x => by rw [(hpc' d).2]; exact h.left_iff d x
  case good_iff => rw [hgood]; exact h.good_iff
  case fcxt_of_saved =>
    intro x hx
    rw [hfcxt' x (by simp [hx]) (by simp [hx]), hlast]
    exact h.fcxt_of_saved x hx
  case pcOk =>
    intro d
    by_cases hd : d = c
    · exact hd ▸ hok
    · refine (h.pcOk d).congr ?_ (by rw [hstack]) (hcur d hd) ?_ ?_ ?_
      · rw [hpc, update_of_ne hd]
      · intro x hx
        obtain ⟨hrun, honly⟩ := h.held hx
        refine ⟨?_, by rw [hsusp], ?_⟩
        · exact (hfcxt x).resolve_right fun hx' => hd (honly c hx').symm
        · exact (htransfer _).resolve_right fun hk => hrun c hk.symm
      · exact fun _ => (htransfer _).resolve_right fun hk => hd (h.eq_of_stack hk)
      · refine ⟨by rw [hsusp], (htransfer _).resolve_right fun hk => hd ?_⟩
        exact h.boot c d hk.symm
  case last_notMem => rw [hlast, hjumped]; exact h.last_notMem
  case jumped_le => rw [hsusp, hjumped]; exact h.jumped_le
  case jumped_nodup => rw [hjumped]; exact h.jumped_nodup
  case fault => rw [hfault]; exact h.fault

theorem Inv.putDown (h : Inv phase s) (hpc : s.pc c = .user) :
    Inv phase (s.setPc c (.schedule (s.current c))) := by
  have hok := h.pcOk c
  simp only [PcOk, hpc] at hok
  refine h.advance hpc rfl rfl rfl rfl rfl rfl rfl rfl (fun _ _ => rfl) (fun _ => .inl rfl)
    (fun _ => .inl rfl) ?_
  simpa [PcOk, setPc] using hok

theorem Inv.load (h : Inv phase s) (hpc : s.pc c = .ready prev t) :
    Inv phase (s.setPc c (.loaded prev t (s.fcxt t))) := by
  have hok := h.pcOk c
  simp only [PcOk, hpc] at hok
  refine h.advance hpc rfl rfl rfl rfl rfl rfl rfl rfl (fun _ _ => rfl) (fun _ => .inl rfl)
    (fun _ => .inl rfl) ?_
  simpa [PcOk, setPc, last] using hok

theorem Inv.readPrev {entry : Bool} {fctx : Fcontext Cpu T} {data : Stack Cpu T}
    {r : TransferData T} (h : Inv phase s) (hpc : s.pc c = .resumed entry fctx data)
    (hdata : s.transfer data = some r) :
    Inv phase (s.setPc c (.prevRead entry fctx data r.prev)) := by
  have hok := h.pcOk c
  simp only [PcOk, hpc] at hok
  obtain ⟨prev, cur, hdata', htransfer, hrest⟩ := hok
  obtain rfl : r = ⟨prev, cur⟩ := Option.some.inj (hdata.symm.trans htransfer)
  refine h.advance hpc rfl rfl ?_ rfl rfl rfl rfl rfl (fun _ _ => rfl) (fun _ => .inl rfl)
    (fun _ => .inl rfl) ?_
  · rw [hdata']
    cases prev <;> rfl
  · simp only [PcOk, setPc, last, update_self]
    exact ⟨cur, hdata', htransfer, hrest⟩

theorem Inv.readCur {entry : Bool} {fctx : Fcontext Cpu T} {data : Stack Cpu T}
    {r : TransferData T} (h : Inv phase s) (hpc : s.pc c = .prevRead entry fctx data prev)
    (hdata : s.transfer data = some r) : Inv phase (s.readCur c entry fctx prev r.cur) := by
  have hok := h.pcOk c
  simp only [PcOk, hpc] at hok
  obtain ⟨cur, rfl, htransfer, hrest⟩ := hok
  obtain rfl : r = ⟨prev, cur⟩ := Option.some.inj (hdata.symm.trans htransfer)
  refine h.advance hpc rfl rfl rfl rfl rfl rfl rfl rfl (fun _ _ => rfl) (fun _ => .inl rfl)
    (fun _ => .inl rfl) ?_
  simp only [PcOk, State.readCur, setPc, last, update_self]
  exact hrest

variable [DecidableEq T]

section

variable (h : Inv phase s)

include h

theorem Inv.pick (hpc : s.pc c = .schedule prev) :
    Inv phase (s.pick c prev t) := by
  have hok := h.pcOk c
  simp only [PcOk, hpc] at hok
  obtain ⟨-, hstack⟩ := hok
  have hcur : ∀ d, d ≠ c → (s.pick c prev t).current d = s.current d :=
    fun d hd => by simp [State.pick, hd]
  by_cases ht : some t = prev
  · refine h.advance (q := .user) hpc ?_ rfl rfl rfl rfl rfl rfl rfl hcur (fun _ => .inl rfl)
      (fun _ => .inl rfl) ?_
    · simp [State.pick, setPc, ht]
    · simp [PcOk, State.pick, setPc, ht, hstack]
  · refine h.advance (q := .spin prev t) hpc ?_ rfl rfl rfl rfl rfl rfl rfl hcur
      (fun _ => .inl rfl) (fun _ => .inl rfl) ?_
    · simp [State.pick, setPc, ht]
    · simpa [PcOk, State.pick, setPc, ht, hstack] using Ne.symm ht

theorem Inv.prepare (hpc : s.pc c = .good prev t) :
    Inv phase (s.prepare c prev t) := by
  have hok := h.pcOk c
  simp only [PcOk, hpc] at hok
  refine h.advance hpc rfl rfl rfl rfl rfl rfl rfl rfl (fun _ _ => rfl) (fun _ => .inl rfl) ?_ ?_
  · intro k
    by_cases hk : k = s.stack c
    · exact .inr hk
    · exact .inl (by simp [State.prepare, hk])
  · simpa [PcOk, State.prepare, setPc, last] using hok

theorem Inv.clear {context : Option (Fcontext Cpu T)}
    (hpc : s.pc c = .loaded prev t context) :
    Inv phase
      { s.setPc c (.cleared prev t context) with fcxt := update s.fcxt t none } := by
  have hok := h.pcOk c
  simp only [PcOk, hpc] at hok
  refine h.advance hpc rfl rfl rfl rfl rfl rfl rfl rfl (fun _ _ => rfl) ?_ (fun _ => .inl rfl) ?_
  · intro x
    by_cases hx : x = t
    · exact .inr (.inl (congrArg some hx.symm))
    · exact .inl (by simp [hx])
  · simpa [PcOk, setPc, last] using hok

theorem Inv.save {entry : Bool} {fctx : Fcontext Cpu T} {cur : T}
    (hpc : s.pc c = .curRead entry fctx prev cur) : Inv phase (s.save c entry fctx prev cur) := by
  have hok := h.pcOk c
  simp only [PcOk, hpc] at hok
  obtain ⟨rfl, hrest⟩ := hok
  refine h.advance hpc rfl rfl rfl rfl rfl rfl rfl rfl (fun _ _ => rfl) ?_ (fun _ => .inl rfl) ?_
  · intro x
    by_cases hx : prev = some x
    · exact .inr (.inr hx)
    · refine .inl ?_
      cases prev with
      | none => rfl
      | some p => exact update_of_ne (fun h => hx (congrArg some h.symm)) ..
  · simp only [PcOk, State.save, setPc, last, update_self]
    refine ⟨?_, hrest⟩
    rintro p rfl
    exact update_self ..

/-- A CPU takes a context that is good. -/
theorem Inv.exchange (hpc : s.pc c = .spin prev t)
    (hgood : s.contextGood t = true) :
    Inv (update phase t (.taken c))
      { s.setPc c (.good prev t) with contextGood := update s.contextGood t false } := by
  have hok := h.pcOk c
  simp only [PcOk, hpc] at hok
  have ht := (h.good_iff t).1 hgood
  constructor
  case stack_iff =>
    intro d x
    rw [show (setPc s c (.good prev t)).stack d = s.stack d from rfl, h.stack_iff]
    by_cases hx : x = t <;> simp [hx, ht]
  case boot => exact h.boot
  case takes_iff =>
    intro d x
    by_cases hd : d = c
    · subst hd
      by_cases hx : x = t
      · simp [setPc, Pc.takes, hx]
      · simpa [setPc, Pc.takes, hx, Ne.symm hx, hpc] using h.takes_iff d x
    · by_cases hx : x = t
      · simpa [setPc, hd, hx, Ne.symm hd, ht] using h.takes_iff d x
      · simpa [setPc, hd, hx] using h.takes_iff d x
  case left_iff =>
    intro d x
    have hleft : ((s.setPc c (.good prev t)).pc d).left = (s.pc d).left := by
      by_cases hd : d = c
      · simp [setPc, hd, hpc, Pc.left]
      · simp [setPc, hd]
    rw [show _ = _ from hleft, h.left_iff]
    by_cases hx : x = t <;> simp [hx, ht]
  case good_iff =>
    intro x
    by_cases hx : x = t
    · simp [hx]
    · simpa [hx] using h.good_iff x
  case fcxt_of_saved =>
    intro x hx
    by_cases hxt : x = t
    · simp [hxt] at hx
    · exact h.fcxt_of_saved x (by simpa [hxt] using hx)
  case pcOk =>
    intro d
    by_cases hd : d = c
    · subst hd
      simpa [PcOk, setPc, last, hok.1, hok.2.1] using h.fcxt_of_saved t ht
    · refine (h.pcOk d).congr ?_ rfl rfl (fun _ _ => ⟨rfl, rfl, rfl⟩) (fun _ => rfl) ⟨rfl, rfl⟩
      simp [setPc, hd]
  case last_notMem =>
    intro x hx
    refine h.last_notMem x fun d hd => ?_
    by_cases hxt : x = t
    · rw [hxt, ht] at hd
      cases hd
    · exact hx d (by simpa [hxt] using hd)
  case jumped_le => exact h.jumped_le
  case jumped_nodup => exact h.jumped_nodup
  case fault => exact h.fault

/-- A CPU publishes the context of the thread it has left. -/
theorem Inv.publish {cur : T} (hpc : s.pc c = .saved (some p) cur) :
    Inv (update phase p .saved) (s.publish c (some p)) := by
  have hok := h.pcOk c
  simp only [PcOk, hpc] at hok
  obtain ⟨hfcxt, hstack, hcur⟩ := hok
  have hp : phase p = .leaving c := by
    rw [← h.left_iff, hpc]
    rfl
  have hpcd : ∀ d, d ≠ c → (s.publish c (some p)).pc d = s.pc d := fun d hd => by
    simp [State.publish, setPc, hd]
  constructor
  case stack_iff =>
    intro d x
    rw [show (s.publish c (some p)).stack d = s.stack d from rfl, h.stack_iff]
    by_cases hx : x = p <;> simp [hx, hp]
  case boot => exact h.boot
  case takes_iff =>
    intro d x
    have htakes : ((s.publish c (some p)).pc d).takes = (s.pc d).takes := by
      by_cases hd : d = c
      · simp [State.publish, setPc, hd, hpc, Pc.takes]
      · rw [hpcd d hd]
    rw [htakes, h.takes_iff]
    by_cases hx : x = p <;> simp [hx, hp]
  case left_iff =>
    intro d x
    by_cases hd : d = c
    · subst hd
      by_cases hx : x = p
      · simp [State.publish, setPc, Pc.left, hx]
      · simpa [State.publish, setPc, Pc.left, hx, Ne.symm hx, hpc] using h.left_iff d x
    · rw [hpcd d hd, h.left_iff]
      by_cases hx : x = p
      · simp [hx, hp, Ne.symm hd]
      · simp [hx]
  case good_iff =>
    intro x
    by_cases hx : x = p
    · simp [State.publish, hx]
    · simpa [State.publish, setPc, hx] using h.good_iff x
  case fcxt_of_saved =>
    intro x hx
    by_cases hxp : x = p
    · exact hxp ▸ hfcxt p rfl
    · exact h.fcxt_of_saved x (by simpa [hxp] using hx)
  case pcOk =>
    intro d
    by_cases hd : d = c
    · subst hd
      simp [PcOk, State.publish, setPc, hstack, hcur, stackOf]
    · exact (h.pcOk d).congr (hpcd d hd) rfl rfl (fun _ _ => ⟨rfl, rfl, rfl⟩) (fun _ => rfl)
        ⟨rfl, rfl⟩
  case last_notMem =>
    intro x hx
    refine h.last_notMem x fun d hd => ?_
    by_cases hxp : x = p
    · rw [hxp, hp] at hd
      cases hd
    · exact hx d (by simpa [hxp] using hd)
  case jumped_le => exact h.jumped_le
  case jumped_nodup => exact h.jumped_nodup
  case fault => exact h.fault

theorem Inv.publish_none {cur : T} (hpc : s.pc c = .saved none cur) :
    Inv phase (s.publish c none) := by
  have hok := h.pcOk c
  simp only [PcOk, hpc] at hok
  refine h.advance hpc rfl rfl rfl rfl rfl rfl rfl rfl (fun _ _ => rfl) (fun _ => .inl rfl)
    (fun _ => .inl rfl) ?_
  simp [PcOk, State.publish, setPc, hok.2.1, hok.2.2, stackOf]

end

/-- The phases after a jump of CPU `c` from the thread `prev` to the thread `t`. -/
def jumpPhase (phase : T → Phase Cpu) (c : Cpu) (prev : Option T) (t x : T) : Phase Cpu :=
  if x = t then .executing c else if prev = some x then .leaving c else phase x

section JumpPhase

variable {x : T} {v : Phase Cpu}

omit [DecidableEq Cpu]

/-- The phases in which another CPU is concerned, or none, are as before. -/
theorem jumpPhase_eq_iff (ht : phase t = .taken c) (hprev : ∀ x, prev = some x ↔ phase x = .executing c)
    (htaken : v ≠ .taken c) (hexec : v ≠ .executing c) (hleft : v ≠ .leaving c) :
    jumpPhase phase c prev t x = v ↔ phase x = v := by
  unfold jumpPhase
  split_ifs with hxt hxp
  · rw [hxt, ht]
    exact iff_of_false hexec.symm htaken.symm
  · rw [(hprev x).1 hxp]
    exact iff_of_false hleft.symm hexec.symm
  · rfl

theorem jumpPhase_eq_executing (hprev : ∀ x, prev = some x ↔ phase x = .executing c) :
    jumpPhase phase c prev t x = .executing c ↔ x = t := by
  unfold jumpPhase
  split_ifs with hxt hxp
  · exact iff_of_true rfl hxt
  · exact iff_of_false (by simp) hxt
  · exact iff_of_false (fun hx => hxp ((hprev x).2 hx)) hxt

theorem jumpPhase_ne_taken (htaken : ∀ x, phase x = .taken c → x = t) :
    jumpPhase phase c prev t x ≠ .taken c := by
  unfold jumpPhase
  split_ifs with hxt hxp
  · simp
  · simp
  · exact fun hx => hxt (htaken x hx)

theorem jumpPhase_eq_leaving (hleft : ∀ x, phase x ≠ .leaving c) (htp : prev ≠ some t) :
    jumpPhase phase c prev t x = .leaving c ↔ prev = some x := by
  unfold jumpPhase
  split_ifs with hxt hxp
  · exact iff_of_false (by simp) (hxt ▸ htp)
  · exact iff_of_true rfl hxp
  · exact iff_of_false (hleft x) hxp

end JumpPhase

/-- A CPU jumps to the context it has taken. -/
theorem Inv.jump {context : Fcontext Cpu T} (h : Inv phase s)
    (hpc : s.pc c = .cleared prev t (some context)) :
    Inv (jumpPhase phase c prev t) (s.jump c context) := by
  have hok := h.pcOk c
  simp only [PcOk, hpc, Option.some_inj] at hok
  obtain ⟨hstack, hcur, rfl, htransfer⟩ := hok
  have htakes : ∀ x, phase x = .taken c ↔ t = x := by
    intro x
    rw [← h.takes_iff, hpc]
    exact Option.some_inj
  have ht : phase t = .taken c := (htakes t).2 rfl
  -- the stack that is left is that of `prev`, which runs on `c`
  have hprev : ∀ x, prev = some x ↔ phase x = .executing c := by
    intro x
    rw [← h.stack_iff, hstack]
    cases prev <;> simp [stackOf]
  have htp : prev ≠ some t := by
    rw [ne_eq, hprev, ht]
    simp
  have hleft : ∀ x, phase x ≠ .leaving c := by
    intro x hx
    rw [← h.left_iff, hpc] at hx
    cases hx
  have hnot : ∀ d, s.stack d ≠ .thread t := fun d hs => by
    rw [h.stack_iff, ht] at hs
    cases hs
  have hpcd : ∀ d, d ≠ c → (s.jump c (s.last (.thread t))).pc d = s.pc d := fun d hd => by
    simp [State.jump, setPc, hd]
  have hsusp : ∀ k, k ≠ s.stack c →
      (s.jump c (s.last (.thread t))).suspensions k = s.suspensions k := fun k hk => by
    simp [State.jump, setPc, hk]
  have hlast : ∀ x, prev ≠ some x →
      (s.jump c (s.last (.thread t))).last (.thread x) = s.last (.thread x) := fun x hx => by
    have hx' : .thread x ≠ s.stack c := fun hs => hx ((hprev x).2 ((h.stack_iff c x).1 hs.symm))
    simp only [last] at hsusp ⊢
    rw [hsusp _ hx']
  have hle : ∀ k, s.suspensions k ≤ (s.jump c (s.last (.thread t))).suspensions k := by
    intro k
    by_cases hk : k = s.stack c
    · simp [State.jump, hk]
    · exact Nat.le_of_eq (hsusp k hk).symm
  constructor
  case stack_iff =>
    intro d x
    by_cases hd : d = c
    · rw [hd, jumpPhase_eq_executing hprev]
      simp [State.jump, last, eq_comm]
    · rw [jumpPhase_eq_iff ht hprev (by simp) (by simp [hd]) (by simp)]
      simpa [State.jump, setPc, hd] using h.stack_iff d x
  case boot =>
    intro d e hd
    by_cases hdc : d = c
    · simp [State.jump, hdc, last] at hd
    · exact h.boot d e (by simpa [State.jump, setPc, hdc] using hd)
  case takes_iff =>
    intro d x
    by_cases hd : d = c
    · rw [hd]
      refine iff_of_false ?_ (jumpPhase_ne_taken fun x hx => ((htakes x).1 hx).symm)
      simp [State.jump, setPc, Pc.takes]
    · rw [hpcd d hd, jumpPhase_eq_iff ht hprev (by simp [hd]) (by simp) (by simp)]
      exact h.takes_iff d x
  case left_iff =>
    intro d x
    by_cases hd : d = c
    · rw [hd, jumpPhase_eq_leaving hleft htp]
      simp only [State.jump, setPc, update_self, hstack]
      cases prev <;> rfl
    · rw [hpcd d hd, jumpPhase_eq_iff ht hprev (by simp) (by simp) (by simp [hd])]
      exact h.left_iff d x
  case good_iff =>
    intro x
    rw [jumpPhase_eq_iff ht hprev (by simp) (by simp) (by simp)]
    exact h.good_iff x
  case fcxt_of_saved =>
    intro x hx
    rw [jumpPhase_eq_iff ht hprev (by simp) (by simp) (by simp)] at hx
    rw [hlast x (by rw [ne_eq, hprev, hx]; simp)]
    exact h.fcxt_of_saved x hx
  case pcOk =>
    intro d
    by_cases hd : d = c
    · subst hd
      have hself : (s.jump d (s.last (.thread t))).transfer (s.stack d) = some ⟨prev, t⟩ := by
        simpa [State.jump, setPc, last, hnot d] using htransfer
      simp only [PcOk, show (s.jump d (s.last (.thread t))).pc d = .resumed _ _ _ from
        update_self ..]
      refine ⟨prev, t, hstack, hself, ?_, ?_, hcur⟩
      · simp [last, State.jump]
      · simp [State.jump, last]
    · refine (h.pcOk d).congr (hpcd d hd) ?_ rfl ?_ ?_ ?_
      · simp [State.jump, setPc, hd]
      · intro x hx
        obtain ⟨hrun, honly⟩ := h.held hx
        have hxt : x ≠ t := by
          rintro rfl
          exact hd (honly c (.inl (by rw [hpc]; rfl))).symm
        refine ⟨rfl, hsusp _ (hrun c).symm, ?_⟩
        simp [State.jump, setPc, last, hxt]
      · intro _
        simp [State.jump, setPc, last, hnot d]
      · refine ⟨hsusp _ fun hk => hd (h.boot c d hk.symm), ?_⟩
        simp [State.jump, setPc, last]
  case last_notMem =>
    intro x hx hmem
    have hxt : x ≠ t := fun hxt => hx c ((jumpPhase_eq_executing hprev).2 hxt)
    rcases List.mem_cons.1 hmem with heq | hmem
    · simp [last, hxt] at heq
    by_cases hxp : prev = some x
    · -- the new context is newer than every one that was jumped to
      have hxs : s.stack c = .thread x := (h.stack_iff c x).2 ((hprev x).1 hxp)
      have hnew := h.jumped_le _ hmem
      simp only [last, State.jump, hxs, update_self] at hnew
      omega
    · rw [hlast x hxp] at hmem
      refine h.last_notMem x (fun d hd => hx d ?_) hmem
      rw [jumpPhase, if_neg hxt, if_neg hxp, hd]
  case jumped_le =>
    intro context hmem
    rcases List.mem_cons.1 hmem with rfl | hmem
    · exact hle _
    · exact Nat.le_trans (h.jumped_le context hmem) (hle _)
  case jumped_nodup =>
    refine List.nodup_cons.2 ⟨h.last_notMem t fun d hd => ?_, h.jumped_nodup⟩
    rw [ht] at hd
    cases hd
  case fault => exact h.fault

/-- **Every step keeps the invariant**, with the phases of the threads that it concerns changed. -/
theorem inv_step {ev : Event Cpu T W} (h : Inv phase s) (hs : step s ev = some s') :
    ∃ phase', Inv phase' s' := by
  cases steps_of_step hs with
  | writeFs hpc hcur => exact ⟨phase, { h with pcOk := h.pcOk }⟩
  | putDown hpc => exact ⟨phase, h.putDown hpc⟩
  | pick hpc => exact ⟨phase, h.pick hpc⟩
  | exchange hpc hgood => exact ⟨_, h.exchange hpc hgood⟩
  | spin hpc hbad => exact ⟨phase, h⟩
  | prepare hpc => exact ⟨phase, h.prepare hpc⟩
  | load hpc => exact ⟨phase, h.load hpc⟩
  | clear hpc => exact ⟨phase, h.clear hpc⟩
  | jump hpc => exact ⟨_, h.jump hpc⟩
  | @jumpFault c prev t hpc =>
    have hok := h.pcOk c
    simp [PcOk, hpc] at hok
  | readPrev hpc hdata => exact ⟨phase, h.readPrev hpc hdata⟩
  | @readPrevFault c entry fctx data hpc hdata =>
    have hok := h.pcOk c
    simp [PcOk, hpc, hdata] at hok
  | readCur hpc hdata => exact ⟨phase, h.readCur hpc hdata⟩
  | @readCurFault c entry fctx data prev hpc hdata =>
    have hok := h.pcOk c
    simp [PcOk, hpc, hdata] at hok
  | save hpc => exact ⟨phase, h.save hpc⟩
  | @publish c prev cur hpc =>
    cases prev with
    | none => exact ⟨phase, h.publish_none hpc⟩
    | some p => exact ⟨_, h.publish hpc⟩

theorem inv_run {fsBase : T → W} {fsReg : Cpu → W} {evs : List (Event Cpu T W)}
    (hrun : Transition.run step (init fsBase fsReg) evs = some s) : ∃ phase, Inv phase s :=
  Transition.run_induction (I := fun s => ∃ phase, Inv phase s)
    (fun _ _ _ ⟨_, h⟩ hs => inv_step h hs) evs ⟨_, inv_init fsBase fsReg⟩ hrun

end Switch

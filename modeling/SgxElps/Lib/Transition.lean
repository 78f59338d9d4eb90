/-
**Runs of a partial step function.**

A system is given by a partial function `step : σ → ε → Option σ`: the event `e` is enabled in the
state `s` when `step s e` is a state, and every choice a concurrent system leaves open — which
thread moves, what it is called with, what the environment answers — is part of the event.  A run
is a list of events, all of them enabled in turn.

Main results:

* `Transition.run_induction` — a property that every step preserves holds at the end of every run;
* `Transition.allStates_of_allSteps` — a property that is preserved by the steps that meet a
  condition holds in every state of a run all of whose steps meet it;
* `Transition.allStates_iff_allSteps` — if the condition is moreover necessary for one step, it
  is necessary for the whole run.
-/

import Mathlib.Data.Option.Basic
import Mathlib.Data.List.Basic

namespace Transition

variable {σ ε : Type*} {step : σ → ε → Option σ}

/-! ### Runs -/

/-- The state reached from `s` by the events `es`, if all of them are enabled in turn. -/
def run (step : σ → ε → Option σ) : σ → List ε → Option σ
  | s, [] => some s
  | s, e :: es => (step s e).bind fun s' => run step s' es

@[simp] theorem run_nil (s : σ) : run step s [] = some s := rfl

theorem run_cons (s : σ) (e : ε) (es : List ε) :
    run step s (e :: es) = (step s e).bind fun s' => run step s' es := rfl

theorem run_cons_eq_some {s s'' : σ} {e : ε} {es : List ε} :
    run step s (e :: es) = some s'' ↔
      ∃ s', step s e = some s' ∧ run step s' es = some s'' := by
  rw [run_cons, Option.bind_eq_some_iff]

theorem run_append (s : σ) (es fs : List ε) :
    run step s (es ++ fs) = (run step s es).bind fun s' => run step s' fs := by
  induction es generalizing s with
  | nil => rfl
  | cons e es ih =>
    rw [List.cons_append, run_cons, run_cons, Option.bind_assoc]
    congr 1
    funext s'
    exact ih s'

theorem run_singleton (s : σ) (e : ε) : run step s [e] = step s e := by
  rw [run_cons]
  cases step s e <;> rfl

/-- The invariant rule for runs whose events are restricted to those satisfying `Q`. -/
theorem run_induction_of {I : σ → Prop} {Q : ε → Prop}
    (hstep : ∀ s e s', Q e → I s → step s e = some s' → I s') :
    ∀ (es : List ε) {s s' : σ}, (∀ e ∈ es, Q e) → I s → run step s es = some s' → I s' := by
  intro es
  induction es with
  | nil =>
    intro s s' _ hs hrun
    rw [run_nil, Option.some_inj] at hrun
    exact hrun ▸ hs
  | cons e es ih =>
    intro s s' hQ hs hrun
    obtain ⟨s₁, h1, h2⟩ := run_cons_eq_some.1 hrun
    have hQ' : ∀ e ∈ es, Q e := fun e' he' => hQ e' (List.mem_cons_of_mem _ he')
    exact ih hQ' (hstep s e s₁ (hQ e (List.mem_cons_self ..)) hs h1) h2

/-- **The invariant rule**: what every step preserves holds at the end of every run. -/
theorem run_induction {I : σ → Prop} (hstep : ∀ s e s', I s → step s e = some s' → I s')
    (es : List ε) {s s' : σ} (hs : I s) (hrun : run step s es = some s') : I s' :=
  run_induction_of (Q := fun _ => True) (fun s e s' _ => hstep s e s') es (fun _ _ => trivial) hs hrun

/-! ### Properties of all the states, and of all the steps, of a run -/

/-- `I` holds in every state the events `es` lead through, the first and the last included. -/
def AllStates (step : σ → ε → Option σ) (I : σ → Prop) : σ → List ε → Prop
  | s, [] => I s
  | s, e :: es => I s ∧ ∀ s', step s e = some s' → AllStates step I s' es

/-- `P` holds of every state and event at which the events `es` take a step. -/
def AllSteps (step : σ → ε → Option σ) (P : σ → ε → Prop) : σ → List ε → Prop
  | _, [] => True
  | s, e :: es => ∀ s', step s e = some s' → P s e ∧ AllSteps step P s' es

theorem AllStates.head {I : σ → Prop} {s : σ} {es : List ε} (h : AllStates step I s es) : I s := by
  cases es with
  | nil => exact h
  | cons e es => exact h.1

theorem AllStates.mono {I J : σ → Prop} (hIJ : ∀ s, I s → J s) {es : List ε} {s : σ}
    (h : AllStates step I s es) : AllStates step J s es := by
  induction es generalizing s with
  | nil => exact hIJ s h
  | cons e es ih => exact ⟨hIJ s h.1, fun s' hs' => ih (h.2 s' hs')⟩

theorem AllStates.last {I : σ → Prop} {es : List ε} {s s' : σ} (h : AllStates step I s es)
    (hrun : run step s es = some s') : I s' := by
  induction es generalizing s with
  | nil =>
    rw [run_nil, Option.some_inj] at hrun
    exact hrun ▸ h
  | cons e es ih =>
    obtain ⟨s₁, h1, h2⟩ := run_cons_eq_some.1 hrun
    exact ih (h.2 s₁ h1) h2

/-- A property that no step can restore holds throughout a run at whose end it holds. -/
theorem allStates_of_last {I J : σ → Prop} (hJ : ∀ s e s', J s → step s e = some s' → J s')
    (hback : ∀ s e s', J s → step s e = some s' → I s' → I s) {es : List ε} {s s' : σ} (hs : J s)
    (hrun : run step s es = some s') (hlast : I s') : AllStates step I s es := by
  induction es generalizing s with
  | nil =>
    rw [run_nil, Option.some_inj] at hrun
    exact hrun ▸ hlast
  | cons e es ih =>
    obtain ⟨s₁, h1, h2⟩ := run_cons_eq_some.1 hrun
    have hrest := ih (hJ s e s₁ hs h1) h2
    refine ⟨hback s e s₁ hs h1 hrest.head, fun s₂ hs2 => ?_⟩
    obtain rfl : s₁ = s₂ := Option.some_inj.1 (h1.symm.trans hs2)
    exact hrest

theorem allSteps_cons_iff {P : σ → ε → Prop} {s s' : σ} {e : ε} {es : List ε} (h : step s e = some s') :
    AllSteps step P s (e :: es) ↔ P s e ∧ AllSteps step P s' es := by
  refine ⟨fun hall => hall s' h, fun hboth s'' hs'' => ?_⟩
  obtain rfl : s' = s'' := Option.some_inj.1 (h.symm.trans hs'')
  exact hboth

instance AllSteps.decidable {P : σ → ε → Prop} [∀ s e, Decidable (P s e)] :
    ∀ (s : σ) (es : List ε), Decidable (AllSteps step P s es)
  | _, [] => isTrue trivial
  | s, e :: es =>
      match h : step s e with
      | none => isTrue fun s' hs' => absurd (h.symm.trans hs') (Option.some_ne_none s').symm
      | some s' =>
          have : Decidable (AllSteps step P s' es) := AllSteps.decidable s' es
          decidable_of_iff (P s e ∧ AllSteps step P s' es) (allSteps_cons_iff h).symm

theorem allSteps_of_mem {P : σ → ε → Prop} {es : List ε} (h : ∀ e ∈ es, ∀ s, P s e) (s : σ) :
    AllSteps step P s es := by
  induction es generalizing s with
  | nil => trivial
  | cons e es ih =>
    exact fun s' _ => ⟨h e List.mem_cons_self s,
      ih (fun f hf => h f (List.mem_cons_of_mem _ hf)) s'⟩

theorem AllSteps.append {P : σ → ε → Prop} {es fs : List ε} {s : σ} (hes : AllSteps step P s es)
    (hfs : ∀ s', run step s es = some s' → AllSteps step P s' fs) :
    AllSteps step P s (es ++ fs) := by
  induction es generalizing s with
  | nil => exact hfs s rfl
  | cons e es ih =>
    intro s' hs'
    obtain ⟨hP, hrest⟩ := hes s' hs'
    exact ⟨hP, ih hrest fun s'' hrun => hfs s'' (run_cons_eq_some.2 ⟨s', hs', hrun⟩)⟩

/-- What the states of a run and a condition on its steps give for each step. -/
theorem AllStates.allSteps {I : σ → Prop} {P Q : σ → ε → Prop} {es : List ε} {s : σ}
    (hI : AllStates step I s es) (hP : AllSteps step P s es)
    (hQ : ∀ s e s', I s → step s e = some s' → P s e → Q s e) : AllSteps step Q s es := by
  induction es generalizing s with
  | nil => trivial
  | cons e es ih =>
    intro s' hs'
    obtain ⟨hP1, hP2⟩ := hP s' hs'
    exact ⟨hQ s e s' hI.1 hs' hP1, ih (hI.2 s' hs') hP2⟩

/-- A condition that only the last step can miss. -/
theorem allSteps_append_singleton {P : σ → ε → Prop} {es : List ε} {e : ε} {s : σ}
    (hes : ∀ f ∈ es, ∀ s, P s f) (hlast : ∀ s', run step s es = some s' → P s' e) :
    AllSteps step P s (es ++ [e]) :=
  (allSteps_of_mem hes s).append fun s' hrun _ _ => ⟨hlast s' hrun, trivial⟩

/-- **The conditional invariant rule.**  `J` is preserved by every step, `I` by the steps that
meet `P`. -/
theorem allStates_of_allSteps {I J : σ → Prop} {P : σ → ε → Prop}
    (hJ : ∀ s e s', J s → step s e = some s' → J s')
    (hI : ∀ s e s', J s → I s → step s e = some s' → P s e → I s') :
    ∀ (es : List ε) {s : σ}, J s → I s → AllSteps step P s es → AllStates step I s es := by
  intro es
  induction es with
  | nil => intro s _ hs _; exact hs
  | cons e es ih =>
    intro s hj hs hP
    refine ⟨hs, fun s' hs' => ?_⟩
    obtain ⟨hP1, hP2⟩ := hP s' hs'
    exact ih (hJ s e s' hj hs') (hI s e s' hj hs hs' hP1) hP2

/-- **The exact form of the conditional invariant rule.**  If `P` is exactly what makes one step
preserve `I`, then `I` holds throughout a run if and only if every step of the run meets `P`. -/
theorem allStates_iff_allSteps {I J : σ → Prop} {P : σ → ε → Prop}
    (hJ : ∀ s e s', J s → step s e = some s' → J s')
    (hI : ∀ s e s', J s → I s → step s e = some s' → (I s' ↔ P s e)) :
    ∀ (es : List ε) {s : σ}, J s → I s → (AllStates step I s es ↔ AllSteps step P s es) := by
  intro es s hj hs
  refine ⟨?_, allStates_of_allSteps hJ (fun s e s' hj hs hs' hP => (hI s e s' hj hs hs').2 hP)
    es hj hs⟩
  induction es generalizing s with
  | nil => intro _; trivial
  | cons e es ih =>
    intro h s' hs'
    have hrest : AllStates step I s' es := h.2 s' hs'
    exact ⟨(hI s e s' hj hs hs').1 hrest.head, ih (hJ s e s' hj hs') hrest.head hrest⟩

end Transition

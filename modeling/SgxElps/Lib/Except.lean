/-
**Computations that may stop.**

When a computation in `Except` ends with a value, and when with an error.

Main results: `map_eq_ok`, `bind_eq_ok`, `bind_eq_error`.
-/

import Mathlib.Init

namespace Except

variable {ε ε' α β : Type} {x : Except ε α} {y : β} {e : ε}

theorem map_eq_ok {f : α → β} : x.map f = .ok y ↔ ∃ z, x = .ok z ∧ f z = y := by
  cases x with
  | error e => simp [Except.map]
  | ok z => simp [Except.map]

theorem bind_eq_ok {f : α → Except ε β} : x.bind f = .ok y ↔ ∃ z, x = .ok z ∧ f z = .ok y := by
  cases x with
  | error e => simp [Except.bind]
  | ok z => simp [Except.bind]

theorem bind_eq_error {f : α → Except ε β} :
    x.bind f = .error e ↔ x = .error e ∨ ∃ z, x = .ok z ∧ f z = .error e := by
  cases x with
  | error e => simp [Except.bind]
  | ok z => simp [Except.bind]

theorem mapError_eq_ok {f : ε → ε'} {z : α} : x.mapError f = .ok z ↔ x = .ok z := by
  cases x with
  | error e => exact iff_of_false (fun h => by cases h) fun h => by cases h
  | ok w =>
    change (ok w : Except ε' α) = ok z ↔ (ok w : Except ε α) = ok z
    rw [ok.injEq, ok.injEq]

theorem toOption_eq_some {z : α} : x.toOption = some z ↔ x = .ok z := by
  cases x with
  | error e => simp [Except.toOption]
  | ok z => simp [Except.toOption]

end Except

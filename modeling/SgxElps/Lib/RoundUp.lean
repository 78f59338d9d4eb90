/-
**Rounding up to a multiple.**

The least multiple of a number that is not below another one, as it is computed by allocators: in one
division, by adding one until the remainder is zero, or by rounding down one less.

Main definition: `roundUp`.  Main results: `le_roundUp`, `roundUp_lt`, `roundUp_le`.
-/

import Mathlib.Algebra.Order.Group.Nat
import Mathlib.Order.Basic

/-- **The least multiple of `a` that is at least `x`.** -/
def roundUp (a x : ℕ) : ℕ := (x + (a - 1)) / a * a

section RoundUp

variable {a x y : ℕ}

theorem dvd_roundUp (a x : ℕ) : a ∣ roundUp a x := Nat.dvd_mul_left a _

theorem le_roundUp (ha : 0 < a) : x ≤ roundUp a x := by
  have hlt := Nat.lt_div_mul_add (a := x + (a - 1)) ha
  unfold roundUp
  omega

theorem roundUp_lt (ha : 0 < a) : roundUp a x < x + a := by
  have hle := Nat.div_mul_le_self (x + (a - 1)) a
  unfold roundUp
  omega

/-- Two multiples that are less than `a` apart are equal. -/
theorem le_of_dvd_of_lt_add (hx : a ∣ x) (hy : a ∣ y) (hlt : x < y + a) : x ≤ y := by
  obtain ⟨m, rfl⟩ := hx
  obtain ⟨n, rfl⟩ := hy
  rw [← Nat.mul_succ] at hlt
  exact Nat.mul_le_mul_left a (Nat.lt_succ_iff.1 (Nat.lt_of_mul_lt_mul_left hlt))

/-- It is the least one. -/
theorem roundUp_le (ha : 0 < a) (hy : a ∣ y) (hxy : x ≤ y) : roundUp a x ≤ y :=
  le_of_dvd_of_lt_add (dvd_roundUp a x) hy ((roundUp_lt ha).trans_le (Nat.add_le_add_right hxy a))

theorem roundUp_eq_of_dvd (ha : 0 < a) (hx : a ∣ x) : roundUp a x = x :=
  le_antisymm (roundUp_le ha hx le_rfl) (le_roundUp ha)

/-- A number that is no multiple can be stepped over. -/
theorem roundUp_succ (ha : 0 < a) (hx : ¬ a ∣ x) : roundUp a (x + 1) = roundUp a x := by
  have hne : roundUp a x ≠ x := fun heq => hx (heq ▸ dvd_roundUp a x)
  have hle : x + 1 ≤ roundUp a x := lt_of_le_of_ne (le_roundUp ha) hne.symm
  refine le_antisymm (roundUp_le ha (dvd_roundUp a x) hle) ?_
  exact roundUp_le ha (dvd_roundUp a _) ((Nat.le_succ x).trans (le_roundUp ha))

/-- Rounding down one less, and going on to the next multiple. -/
theorem div_mul_add_eq_roundUp (ha : 0 < a) : x / a * a + a = roundUp a (x + 1) := by
  have hx : x + 1 + (a - 1) = x + a := by omega
  rw [roundUp, hx, Nat.add_div_right x ha, Nat.succ_mul]

end RoundUp

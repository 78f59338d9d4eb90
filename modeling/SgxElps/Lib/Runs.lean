/-
**Runs of clear bits.**

A search for `n` clear bits in a row goes through the bits in order and counts how many of the last
ones were clear.  The count determines whether a run ends at the current bit, and as long as it stays
below `n` there is no run of length `n` among the bits that were looked at.

Main definitions: `Free`, `Tail`, `First`.  Main results: `free_succ`, `Tail.first`, `Tail.not_free`.
-/

import Mathlib.Order.Nat

namespace Runs

variable {f : ℕ → Bool} {lo hi lo' hi' c m n : ℕ}

/-- There are `n` clear bits in a row in `[lo, hi)`. -/
def Free (f : ℕ → Bool) (lo hi n : ℕ) : Prop :=
  ∃ first, lo ≤ first ∧ first + n ≤ hi ∧ ∀ i < n, f (first + i) = false

theorem Free.mono (h : Free f lo hi n) (hlo : lo' ≤ lo) (hhi : hi ≤ hi') : Free f lo' hi' n := by
  obtain ⟨first, hle, hend, hclear⟩ := h
  exact ⟨first, hlo.trans hle, hend.trans hhi, hclear⟩

theorem not_free_of_lt (h : hi < lo + n) : ¬ Free f lo hi n := by
  rintro ⟨first, hle, hend, -⟩
  omega

/-- A run that ends before `hi + 1` ends before `hi`, or its last bit is `hi`. -/
theorem free_succ : Free f lo (hi + 1) n ↔
    Free f lo hi n ∨ (lo + n ≤ hi + 1 ∧ ∀ i < n, f (hi + 1 - n + i) = false) := by
  constructor
  · rintro ⟨first, hle, hend, hclear⟩
    rcases Nat.lt_or_ge hi (first + n) with hlast | hin
    · obtain rfl : first = hi + 1 - n := by omega
      exact Or.inr ⟨by omega, hclear⟩
    · exact Or.inl ⟨first, hle, hin, hclear⟩
  · rintro (h | ⟨hle, hclear⟩)
    · exact h.mono le_rfl (Nat.le_succ hi)
    · exact ⟨hi + 1 - n, by omega, by omega, hclear⟩

/-- Of the bits of `[lo, c)` the last `m` are clear, and the one before them is not. -/
structure Tail (f : ℕ → Bool) (lo c m : ℕ) : Prop where
  le : lo + m ≤ c
  clear : ∀ i < m, f (c - m + i) = false
  stop : lo + m < c → f (c - m - 1) = true

theorem Tail.start (f : ℕ → Bool) (lo : ℕ) : Tail f lo lo 0 :=
  ⟨le_rfl, nofun, fun h => absurd h (lt_irrefl lo)⟩

theorem Tail.next (h : Tail f lo c m) : Tail f lo (c + 1) (if f c then 0 else m + 1) := by
  have hle := h.le
  cases hc : f c with
  | true => exact ⟨by simp; omega, nofun, fun _ => hc⟩
  | false =>
    rw [if_neg Bool.false_ne_true]
    refine ⟨by omega, fun i hi => ?_, fun hlt => ?_⟩
    · rcases Nat.lt_succ_iff_lt_or_eq.1 hi with hi | rfl
      · rw [show c + 1 - (m + 1) + i = c - m + i by omega]
        exact h.clear i hi
      · rw [show c + 1 - (i + 1) + i = c by omega]
        exact hc
    · rw [show c + 1 - (m + 1) - 1 = c - m - 1 by omega]
      exact h.stop (by omega)

/-- The first run of `n` clear bits in `[lo, hi)` begins at `first`. -/
structure First (f : ℕ → Bool) (lo hi n first : ℕ) : Prop where
  ge : lo ≤ first
  le : first + n ≤ hi
  clear : ∀ i < n, f (first + i) = false
  least : ¬ Free f lo (first + n - 1) n

theorem First.free {first : ℕ} (h : First f lo hi n first) : Free f lo hi n :=
  ⟨first, h.ge, h.le, h.clear⟩

theorem First.le_first {first first' : ℕ} (h : First f lo hi n first) (h' : First f lo hi n first') :
    first ≤ first' := by
  by_contra hlt
  exact h.least ⟨first', h'.ge, by omega, h'.clear⟩

theorem Tail.first (h : Tail f lo (c + 1) n) (hno : ¬ Free f lo c n) (hc : c < hi) :
    First f lo hi n (c + 1 - n) := by
  have hle := h.le
  refine ⟨by omega, by omega, h.clear, ?_⟩
  rw [Nat.sub_add_cancel (by omega), Nat.add_sub_cancel]
  exact hno

theorem Tail.not_free (h : Tail f lo (c + 1) m) (hm : m < n) (hno : ¬ Free f lo c n) :
    ¬ Free f lo (c + 1) n := by
  rw [free_succ, not_or]
  refine ⟨hno, ?_⟩
  rintro ⟨hle, hclear⟩
  -- the run would reach back over the bit that stopped the count
  have hstop := h.stop (by omega)
  have hbit := hclear (n - m - 1) (by omega)
  rw [show c + 1 - n + (n - m - 1) = c + 1 - m - 1 by omega, hstop] at hbit
  cases hbit

end Runs

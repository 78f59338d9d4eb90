/-
**A machine word as a set of bits.**

A word of `n` bits stands for the set of the positions of its ones.  Setting and clearing a bit with
a mask are inserting and erasing a position, and counting trailing ones finds the first position
that is not in the set.  A table of such words holds a bit for each number.

Main definitions: `ctzl`, `runMask`, `tableBit`.
Main results: `ctzl_eq_some`, `ctzl_and_shift`, `tableBit_set`.
-/

import Mathlib.Data.Finset.Card
import Mathlib.Data.Finset.Range
import Mathlib.Logic.Function.Basic

namespace BitWord

open Function (update update_of_ne update_self)
open BitVec (allOnes getLsbD_and getLsbD_not getLsbD_or getLsbD_shiftLeft getLsbD_twoPow lt_of_getLsbD twoPow)

variable {n : ℕ} {w : BitVec n} {k : ℕ}

/-- The positions of the ones. -/
def ones (w : BitVec n) : Finset ℕ := (Finset.range n).filter fun j => w.getLsbD j = true

theorem mem_ones : k ∈ ones w ↔ w.getLsbD k = true := by
  rw [ones, Finset.mem_filter, Finset.mem_range, and_iff_right_iff_imp]
  exact lt_of_getLsbD

theorem ones_zero : ones (0#n) = ∅ := by
  ext j
  simp [mem_ones]

theorem ones_subset_range (w : BitVec n) : ones w ⊆ Finset.range n := Finset.filter_subset ..

theorem ones_set (hk : k < n) : ones (w ||| twoPow n k) = insert k (ones w) := by
  ext j
  rw [mem_ones, Finset.mem_insert, mem_ones, getLsbD_or, getLsbD_twoPow]
  by_cases hj : j = k
  · simp [hj, hk]
  · simp [hj, Ne.symm hj]

theorem ones_clear : ones (w &&& ~~~twoPow n k) = (ones w).erase k := by
  ext j
  rw [mem_ones, Finset.mem_erase, mem_ones, getLsbD_and, getLsbD_not,
    getLsbD_twoPow]
  by_cases hj : j = k
  · simp [hj]
  · have hlt := lt_of_getLsbD (x := w) (i := j)
    simp only [hj, Ne.symm hj, decide_false, Bool.and_false, Bool.not_false, Bool.and_true,
      Bool.and_eq_true, decide_eq_true_eq, ne_eq, not_false_eq_true, true_and, and_iff_left_iff_imp]
    exact hlt

/-- The first position of a zero. -/
def firstClear (w : BitVec n) : Option ℕ := (List.range n).find? fun j => !w.getLsbD j

theorem firstClear_spec (h : firstClear w = some k) : k < n ∧ k ∉ ones w := by
  have hmem := List.mem_of_find?_eq_some h
  have hclear := List.find?_some h
  rw [List.mem_range] at hmem
  refine ⟨hmem, ?_⟩
  rw [mem_ones]
  simpa using hclear

theorem exists_firstClear (h : (ones w).card < n) : ∃ k, firstClear w = some k := by
  cases hf : firstClear w with
  | some k => exact ⟨k, rfl⟩
  | none =>
    have hall : ones w = Finset.range n := by
      refine Finset.Subset.antisymm (ones_subset_range w) fun j hj => ?_
      have hset := List.find?_eq_none.1 hf j (List.mem_range.2 (Finset.mem_range.1 hj))
      rw [mem_ones]
      simpa using hset
    rw [hall, Finset.card_range] at h
    omega

/-! ### Counting zeros -/

/-- The number of zeros below the first one.  A word without a one has no such number. -/
def ctzl (w : BitVec n) : Option ℕ := if w = 0#n then none else some w.ctz.toNat

theorem ctzl_eq_none : ctzl w = none ↔ ∀ j < n, w.getLsbD j = false := by
  rw [ctzl, ite_eq_left_iff, BitVec.eq_of_getLsbD_eq_iff]
  simp only [BitVec.getLsbD_zero, reduceCtorEq, imp_false, not_not]

/-- **Counting zeros finds the first one.** -/
theorem ctzl_eq_some :
    ctzl w = some k ↔ w.getLsbD k = true ∧ ∀ j < k, w.getLsbD j = false := by
  have hfirst (h : w ≠ 0#n) : w.getLsbD w.ctz.toNat = true ∧ ∀ j < w.ctz.toNat, w.getLsbD j = false :=
    ⟨BitVec.getLsbD_true_ctz_of_ne_zero h, fun j hj => BitVec.getLsbD_false_of_lt_ctz hj⟩
  constructor
  · intro h
    obtain ⟨hne, rfl⟩ : w ≠ 0#n ∧ w.ctz.toNat = k := by simpa [ctzl] using h
    exact hfirst hne
  · rintro ⟨hset, hlow⟩
    have hne : w ≠ 0#n := fun h => by simp [h] at hset
    obtain ⟨hset', hlow'⟩ := hfirst hne
    rw [ctzl, if_neg hne, Option.some.injEq]
    -- two first positions are the same one
    rcases Nat.lt_trichotomy w.ctz.toNat k with h | h | h
    · rw [hlow _ h] at hset'
      cases hset'
    · exact h
    · rw [hlow' _ h] at hset
      cases hset

theorem getLsbD_and_shift {j : ℕ} (hj : j < n) :
    (w &&& allOnes n <<< k).getLsbD j = (w.getLsbD j && decide (k ≤ j)) := by
  rw [getLsbD_and, getLsbD_shiftLeft, BitVec.getLsbD_allOnes, decide_eq_true hj,
    Bool.true_and, decide_eq_true (show j - k < n by omega), Bool.and_true, ← decide_not]
  exact congrArg _ (decide_eq_decide.2 not_lt)

/-- The first one from position `k` on is found by counting the zeros behind a mask. -/
theorem ctzl_and_shift {m : ℕ} : ctzl (w &&& allOnes n <<< k) = some m ↔
    k ≤ m ∧ w.getLsbD m = true ∧ ∀ j < m, k ≤ j → w.getLsbD j = false := by
  have hbit (j : ℕ) : (w &&& allOnes n <<< k).getLsbD j = true ↔ w.getLsbD j = true ∧ k ≤ j := by
    by_cases hj : j < n
    · rw [getLsbD_and_shift hj, Bool.and_eq_true, decide_eq_true_eq]
    · exact iff_of_false (fun h => hj (lt_of_getLsbD h)) fun h => hj (lt_of_getLsbD h.1)
  rw [ctzl_eq_some, hbit]
  simp only [← Bool.not_eq_true, hbit, not_and, imp_not_comm (b := w.getLsbD _ = true)]
  tauto

/-! ### Runs of bits -/

/-- The mask of the `len` bits from `k` on. -/
def runMask (k len : ℕ) : BitVec n := (~~~(BitVec.allOnes n <<< len)) <<< k

theorem getLsbD_runMask {len j : ℕ} :
    (runMask k len : BitVec n).getLsbD j = decide (j < n ∧ k ≤ j ∧ j < k + len) := by
  unfold runMask
  rw [getLsbD_shiftLeft, getLsbD_not, getLsbD_shiftLeft, BitVec.getLsbD_allOnes,
    Bool.eq_iff_iff]
  simp only [Bool.and_eq_true, decide_eq_true_eq, Bool.not_eq_true', Bool.not_eq_false',
    decide_eq_false_iff_not, Bool.and_eq_false_iff, not_lt]
  omega

/-! ### Tables of words -/

theorem shiftRight_and_one (hn : 0 < n) : ((w >>> k &&& 1#n) != 0#n) = w.getLsbD k := by
  rw [BitVec.and_one_eq_setWidth_ofBool_getLsbD, BitVec.getLsbD_ushiftRight, Nat.add_zero]
  cases w.getLsbD k with
  | false => simp
  | true =>
    rw [bne_iff_ne]
    intro h
    have hbit := congrArg (fun v => v.getLsbD 0) h
    simp [hn] at hbit

/-- Bit number `i` of a table. -/
def tableBit (table : ℕ → BitVec n) (i : ℕ) : Bool := (table (i / n)).getLsbD (i % n)

variable {table : ℕ → BitVec n} {i j : ℕ}

theorem tableBit_word (hk : k < n) : tableBit table (i * n + k) = (table i).getLsbD k := by
  have hn : 0 < n := Nat.zero_lt_of_lt hk
  rw [tableBit, Nat.add_comm, Nat.add_mul_div_right _ _ hn, Nat.add_mul_mod_self_right,
    Nat.div_eq_of_lt hk, Nat.mod_eq_of_lt hk, Nat.zero_add]

theorem div_eq_and_mod_eq : i / n = j / n ∧ i % n = j % n ↔ i = j := by
  refine ⟨fun ⟨hdiv, hmod⟩ => ?_, fun h => h ▸ ⟨rfl, rfl⟩⟩
  rw [← Nat.div_add_mod i n, ← Nat.div_add_mod j n, hdiv, hmod]

/-- A word of the table is replaced by one that differs from it at most in one bit. -/
theorem tableBit_update (hn : 0 < n) {v : BitVec n} {t : Bool}
    (hv : ∀ k, k < n → v.getLsbD k = if k = j % n then t else (table (j / n)).getLsbD k) :
    tableBit (update table (j / n) v) i = if i = j then t else tableBit table i := by
  unfold tableBit
  by_cases hw : i / n = j / n
  · rw [hw, update_self, hv _ (Nat.mod_lt _ hn)]
    have hij : i % n = j % n ↔ i = j := (and_iff_right hw).symm.trans div_eq_and_mod_eq
    simp only [hij]
  · have hij : i ≠ j := fun h => hw (h ▸ rfl)
    rw [update_of_ne hw, if_neg hij]

theorem tableBit_or {v : BitVec n} :
    tableBit (update table j (table j ||| v)) i =
      (tableBit table i || (decide (i / n = j) && v.getLsbD (i % n))) := by
  unfold tableBit
  by_cases hw : i / n = j
  · subst hw
    rw [update_self, getLsbD_or, decide_eq_true rfl, Bool.true_and]
  · rw [update_of_ne hw, decide_eq_false hw, Bool.false_and, Bool.or_false]

theorem tableBit_set (hn : 0 < n) :
    tableBit (update table (j / n) (table (j / n) ||| twoPow n (j % n))) i
      = if i = j then true else tableBit table i := by
  refine tableBit_update hn fun k hk => ?_
  rw [getLsbD_or, getLsbD_twoPow]
  by_cases h : k = j % n
  · simp [← h, hk]
  · simp [h, Ne.symm h]

theorem tableBit_clear (hn : 0 < n) :
    tableBit (update table (j / n) (table (j / n) &&& ~~~twoPow n (j % n))) i
      = if i = j then false else tableBit table i := by
  refine tableBit_update hn fun k hk => ?_
  rw [getLsbD_and, getLsbD_not, getLsbD_twoPow]
  by_cases h : k = j % n
  · simp [← h, hk]
  · simp [h, Ne.symm h, hk]

end BitWord

/-
**The bitmap: finding a clear bit.**

`Bitmap<size, init>` (bitmap.h) keeps one bit for each number below `size` in an array of 64-bit words.
`scan_and_set()` looks for the first clear bit and sets it with a compare-and-swap.  The array has
`n_int64(size)` words, that is `size / 64` rounded up, but the loop visits `size >> 6` of them, rounded
down: the numbers of a last, partial word are never tried, and the limit that is computed for such a word
has no effect.

The first clear bit of a word is found by `__builtin_ctzl(~temp)`, whose result for 0 is undefined.  The
loop passes to the next word if the result is 64, but there is no argument for which the result is defined
and 64: a full word is never passed.  An execution with an undefined result is no result here.

Main definitions: `scanWords`, `scanAndSet` — the loop and the function; `FindsClear` — what it is for.

Main result: `findsClear_iff` — **the scan is right exactly if a bit of the first word is clear**, or the
bitmap has no whole word and no clear bit.
-/

import SgxElps.Lib.BitWord
import SgxElps.Mmap.Basic

namespace Bitmap

open BitWord
open Mmap (toInt toInt_of_lt)

/-! ### The array -/

/-- The 64-bit words from the address of `bits` on: first those of the array, then the memory behind it. -/
abbrev Words := ℕ → BitVec 64

/-- `n_int64`: the number of words of the array. -/
def nInt64 (nBits : ℕ) : ℕ := (nBits - 1) / 64 + 1

/-! ### The scan -/

/-- The loop of `scan_and_set()` with `n` words to go, the next of them with index `i`; there is no result
if the count of zeros is undefined.  Nobody else writes to the array, so that the compare-and-swap
succeeds. -/
def scanWords (size : ℕ) (bits : Words) : ℕ → ℕ → Option (ℤ × Words)
  | 0, _ => some (-1, bits)
  | n + 1, i =>
      let curWordLimit := if size < (i + 1) * 64 then size - i * 64 else 64
      (ctzl (~~~bits i)).bind fun j =>
        if curWordLimit ≤ j then scanWords size bits n (i + 1)
        else some (toInt (i * 64 + j : ℕ), Function.update bits i (bits i ||| BitVec.twoPow 64 j))

/-- `scan_and_set()`. -/
def scanAndSet (size : ℕ) (bits : Words) : Option (ℤ × Words) := scanWords size bits (size / 64) 0

/-- **The smallest clear number is returned, and its bit set and no other**; and -1 is returned, and nothing
changed, exactly if all bits are set. -/
structure FindsClear (size : ℕ) (bits : Words) (r : ℤ × Words) : Prop where
  found : ∀ k < size, tableBit bits k = false → (∀ i < k, tableBit bits i = true) →
    r.1 = k ∧ ∀ i, tableBit r.2 i = if i = k then true else tableBit bits i
  full : (r.1 = -1 ∧ r.2 = bits) ↔ ∀ k < size, tableBit bits k = true

variable {size n i j k : ℕ} {bits : Words}

/-- **The first clear bit of a word**, or none if the word is full. -/
theorem ctzl_not_eq_some : ctzl (~~~bits i) = some j ↔
    j < 64 ∧ tableBit bits (i * 64 + j) = false ∧ ∀ t < j, tableBit bits (i * 64 + t) = true := by
  have hbit (t : ℕ) (ht : t < 64) : (~~~bits i).getLsbD t = !tableBit bits (i * 64 + t) := by
    rw [BitVec.getLsbD_not, tableBit_word ht, decide_eq_true ht, Bool.true_and]
  rw [ctzl_eq_some]
  constructor
  · rintro ⟨hset, hlow⟩
    have hj := BitVec.lt_of_getLsbD hset
    refine ⟨hj, by simpa [hbit j hj] using hset, fun t ht => ?_⟩
    simpa [hbit t (ht.trans hj)] using hlow t ht
  · rintro ⟨hj, hclear, hlow⟩
    refine ⟨by rw [hbit j hj, hclear]; rfl, fun t ht => ?_⟩
    rw [hbit t (ht.trans hj), hlow t ht]
    rfl

theorem exists_ctzl_not (hk : k < 64) (hclear : tableBit bits (i * 64 + k) = false) :
    ∃ j, ctzl (~~~bits i) = some j := by
  refine Option.ne_none_iff_exists'.1 fun hnone => ?_
  have hbit := ctzl_eq_none.1 hnone k hk
  rw [BitVec.getLsbD_not, ← tableBit_word hk, hclear, decide_eq_true hk] at hbit
  cases hbit

theorem scanAndSet_of_clear (hsize : 64 ≤ size) (hj : j < 64) (hclear : tableBit bits j = false)
    (hlow : ∀ t < j, tableBit bits t = true) : scanAndSet size bits =
      some ((j : ℤ), Function.update bits (j / 64) (bits (j / 64) ||| BitVec.twoPow 64 (j % 64))) := by
  have hctzl : ctzl (~~~bits 0) = some j := ctzl_not_eq_some.2
    ⟨hj, by simpa using hclear, fun t ht => by simpa using hlow t ht⟩
  obtain ⟨n, hn⟩ : ∃ n, size / 64 = n + 1 := ⟨size / 64 - 1, by omega⟩
  have hlimit : ¬ size < (0 + 1) * 64 := by omega
  have hint : toInt (0 * 64 + j : ℕ) = j := by
    rw [Nat.zero_mul, Nat.zero_add]
    exact toInt_of_lt (by omega)
  rw [scanAndSet, hn, scanWords, if_neg hlimit, hctzl, Option.bind_some, if_neg (by omega), hint,
    Nat.div_eq_of_lt hj, Nat.mod_eq_of_lt hj]

/-! ### When the scan is right -/

/-- **When `scan_and_set()` is right**: a bitmap with a whole word has to have a clear bit in its first
word, and a bitmap without one must not have a clear bit. -/
theorem findsClear_iff (size : ℕ) (bits : Words) :
    (∃ r, scanAndSet size bits = some r ∧ FindsClear size bits r) ↔
      (size < 64 ∧ ∀ k < size, tableBit bits k = true) ∨
        64 ≤ size ∧ ∃ k < 64, tableBit bits k = false := by
  by_cases hsize : size < 64
  · -- the loop has no turn
    have hscan : scanAndSet size bits = some (-1, bits) := by
      rw [scanAndSet, Nat.div_eq_of_lt hsize, scanWords]
    simp only [hscan, Option.some.injEq, exists_eq_left', hsize, true_and, not_le.2 hsize, false_and,
      or_false]
    refine ⟨fun h => h.full.1 ⟨rfl, rfl⟩, fun hall => ⟨fun k hk hclear => ?_, iff_of_true ⟨rfl, rfl⟩ hall⟩⟩
    rw [hall k hk] at hclear
    cases hclear
  · simp only [hsize, false_and, not_lt.1 hsize, true_and, false_or]
    constructor
    · rintro ⟨r, hscan, -⟩
      -- the count of the first word has a result
      obtain ⟨n, hn⟩ : ∃ n, size / 64 = n + 1 := ⟨size / 64 - 1, by omega⟩
      rw [scanAndSet, hn, scanWords] at hscan
      obtain ⟨j, hj, -⟩ := Option.bind_eq_some_iff.1 hscan
      obtain ⟨hj64, hclear, -⟩ := ctzl_not_eq_some.1 hj
      exact ⟨j, hj64, by simpa using hclear⟩
    · rintro ⟨k, hk, hkc⟩
      obtain ⟨j, hj⟩ := exists_ctzl_not (i := 0) hk (by simpa using hkc)
      simp only [ctzl_not_eq_some, Nat.zero_mul, Nat.zero_add] at hj
      obtain ⟨hj64, hclear, hlow⟩ := hj
      refine ⟨_, scanAndSet_of_clear (by omega) hj64 hclear hlow, fun k' _ hclear' hlow' => ?_, ?_⟩
      · have hsame : j = k' := by
          rcases Nat.lt_trichotomy j k' with h | h | h
          · exact absurd (hlow' j h) (Bool.eq_false_iff.1 hclear)
          · exact h
          · exact absurd (hlow k' h) (Bool.eq_false_iff.1 hclear')
        subst hsame
        exact ⟨rfl, fun i => tableBit_set (by decide)⟩
      · refine iff_of_false (fun h => ?_) fun hall => ?_
        · have hneg := h.1
          dsimp only at hneg
          omega
        · rw [hall j (by omega)] at hclear
          cases hclear

/-- A bitmap of one bit: it is clear, and the scan does not look at it. -/
theorem scan_misses_partial_word : scanAndSet 1 (fun _ => 0#64) = some (-1, fun _ => 0#64) ∧
    ¬ FindsClear 1 (fun _ => 0#64) (-1, fun _ => 0#64) := by
  refine ⟨rfl, fun h => ?_⟩
  have hset := h.full.1 ⟨rfl, rfl⟩ 0 one_pos
  cases hset

end Bitmap

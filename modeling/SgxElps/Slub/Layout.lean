/-
**Where the objects of a slab lie.**

`new_slab` asks for 64 slots rounded up to whole pages and puts the slab's own structure in front of
them, aligned up to a multiple of the slot size.  For nine of the ten sizes the rounding leaves enough
room for that.  For the largest it may not: then the last slot hangs over the end of the memory, by how
much depends on the address.

Main definition: `Fits`.  Main result: `slot_le_allocSize_iff`.
-/

import SgxElps.Slub.Basic
import Mathlib.Tactic.IntervalCases

namespace Slub

/-! ### Buckets -/

theorem bucketOf_lt_iff {len : ℕ} : bucketOf len < numSlubBuckets ↔ len ≤ maxSlabLen := by
  rw [bucketOf, numSlubBuckets, maxSlabLen]
  split
  · omega
  · have hlog := Nat.log2_lt (n := len - 1) (k := 12) (by omega)
    rw [builtinClzl]
    omega

theorem len_le_of_bucketOf {len : ℕ} (h : bucketOf len < numSlubBuckets) :
    len ≤ 2 ^ (bucketOf len + 3) := by
  have hlen := bucketOf_lt_iff.1 h
  rw [maxSlabLen] at hlen
  by_cases h8 : len ≤ 8
  · rw [bucketOf, if_pos h8]
    exact h8
  · have hlog := Nat.log2_lt (n := len - 1) (k := 12) (by omega)
    have hb : bucketOf len + 3 = Nat.log2 (len - 1) + 1 := by
      have hge := (Nat.le_log2 (n := len - 1) (k := 3) (by omega)).2 (by omega)
      rw [bucketOf, if_neg h8, builtinClzl]
      omega
    have hlt : len - 1 < 2 ^ (Nat.log2 (len - 1) + 1) := Nat.lt_log2_self
    rw [hb]
    omega

theorem bucketSize_eq (i : ℕ) : bucketSize i = 2 * 2 ^ (i + 3) := by
  rw [bucketSize, pow_add, pow_add]
  omega

theorem len_le_bucketSize {len : ℕ} (h : bucketOf len < numSlubBuckets) :
    len ≤ bucketSize (bucketOf len) := by
  have hle := len_le_of_bucketOf h
  rw [bucketSize_eq]
  omega

/-! ### Slots -/

theorem slabMem_eq (base size : ℕ) :
    slabMem base size + (base + 76) % (size + headerSize) = base + 76 + (size + headerSize) := by
  have hdiv := Nat.div_add_mod (base + 76) (size + headerSize)
  rw [mul_comm] at hdiv
  rw [slabMem, slabSize, show base + 77 - 1 = base + 76 from rfl]
  omega

/-- The slots begin after the slab's own structure. -/
theorem le_slabMem (base size : ℕ) : base + slabSize ≤ slabMem base size := by
  have heq := slabMem_eq base size
  have hmod : (base + 76) % (size + headerSize) < size + headerSize :=
    Nat.mod_lt _ (by rw [headerSize]; omega)
  rw [slabSize]
  omega

/-- The condition under which an object of `len` bytes in slot `k` of the slab at `base` ends inside the
slab: only the last slot of the largest size can fail it. -/
def Fits (len base k : ℕ) : Prop := len ≤ 3500 ∨ k < 63 ∨ len ≤ 3500 + (base + 76) % 8200

/-- **Which objects end inside their slab.** -/
theorem slot_le_allocSize_iff {len base k : ℕ} (hb : bucketOf len < numSlubBuckets)
    (hk : k < objectsPerSlab) :
    slabMem base (bucketSize (bucketOf len)) + k * (bucketSize (bucketOf len) + headerSize)
        + headerSize + len ≤ base + allocSize (bucketSize (bucketOf len)) ↔ Fits len base k := by
  have hlen := len_le_of_bucketOf hb
  have heq := slabMem_eq base (bucketSize (bucketOf len))
  generalize bucketOf len = i at *
  generalize slabMem base (bucketSize i) = mem at *
  rw [numSlubBuckets] at hb
  rw [objectsPerSlab] at hk
  unfold Fits
  interval_cases i <;> simp only [bucketSize, headerSize, allocSize, objectsPerSlab] at * <;> omega

/-- The header of every slot lies inside the slab. -/
theorem header_le_allocSize {i base k : ℕ} (hi : i < numSlubBuckets) (hk : k < objectsPerSlab) :
    slabMem base (bucketSize i) + k * (bucketSize i + headerSize) + headerSize
      < base + allocSize (bucketSize i) := by
  have heq := slabMem_eq base (bucketSize i)
  generalize slabMem base (bucketSize i) = mem at *
  rw [numSlubBuckets] at hi
  rw [objectsPerSlab] at hk
  interval_cases i <;> simp only [bucketSize, headerSize, allocSize, objectsPerSlab] at * <;> omega

end Slub

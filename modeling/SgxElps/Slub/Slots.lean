/-
**Whether the slots of a slab lie in its memory.**

`new_slab` asks the mapper for 64 slots rounded up to whole pages.  The memory has to hold the slab's own
structure as well, and a gap behind it: the first slot begins at a multiple of the slot size, counted
from address zero.  Structure and gap fit only into what rounding up has added.  For a slot size that is
a multiple of 64 it has added nothing, and the last slot hangs over the end at every address.

The sums are those of the source as long as they do not wrap: `64 * (size + 8)` is below `2 ^ 64 - 4096`
and the mapper's memory ends below `2 ^ 64`.

Main definitions: `slotSpan`, `slabRoom`.  Main result: `slots_inside_iff`.
-/

import SgxElps.Slub.Layout
import SgxElps.Lib.RoundUp

namespace Slub

/-- Slot `k` of the slab at `base`, header included. -/
def slotSpan (base size k : ℕ) : Span :=
  ⟨slabMem base size + k * (size + headerSize), size + headerSize⟩

/-- The memory that was asked for, behind the slab's structure. -/
def slabRoom (base size : ℕ) : Span := ⟨base + slabSize, allocSize size - slabSize⟩

/-- The gap between the slab's structure and the first slot. -/
def leadingGap (base size : ℕ) : ℕ := roundUp (size + headerSize) (base + slabSize) - (base + slabSize)

/-- What is added to 64 slots to make whole pages. -/
def roundingSlack (size : ℕ) : ℕ :=
  roundUp 4096 (objectsPerSlab * (size + headerSize)) - objectsPerSlab * (size + headerSize)

variable {base size : ℕ}

theorem slotSize_pos (size : ℕ) : 0 < size + headerSize := Nat.add_pos_right size (by decide)

theorem slabMem_eq_roundUp : slabMem base size = roundUp (size + headerSize) (base + slabSize) := by
  have hpred : base + slabSize - 1 + 1 = base + slabSize := by
    rw [slabSize]
    omega
  rw [slabMem, div_mul_add_eq_roundUp (slotSize_pos size), hpred]

theorem allocSize_eq_roundUp :
    allocSize size = roundUp 4096 (objectsPerSlab * (size + headerSize)) := by
  have hpred : objectsPerSlab * (size + headerSize) - 1 + 1 = objectsPerSlab * (size + headerSize) := by
    have := slotSize_pos size
    rw [objectsPerSlab]
    omega
  rw [allocSize, div_mul_add_eq_roundUp (by decide), hpred]

/-- The last slot decides. -/
theorem slots_inside_iff_end :
    (∀ k < objectsPerSlab, (slotSpan base size k).bytes ⊆ (slabRoom base size).bytes) ↔
      slabMem base size + objectsPerSlab * (size + headerSize) ≤ base + allocSize size := by
  have hstart : base + slabSize ≤ slabMem base size := le_slabMem base size
  have hpos := slotSize_pos size
  constructor
  · intro hinside
    -- the last byte of the last slot
    have hlast := hinside 63 (by decide) (Span.add_mem_bytes (Nat.sub_lt hpos Nat.one_pos))
    obtain ⟨-, hend⟩ := hlast
    simp only [slotSpan, slabRoom] at hend
    rw [objectsPerSlab]
    omega
  · intro hend k hk
    refine Span.bytes_subset (hstart.trans (Nat.le_add_right ..)) ?_
    have hslots : k * (size + headerSize) + (size + headerSize) ≤
        objectsPerSlab * (size + headerSize) := by
      rw [← Nat.succ_mul]
      exact Nat.mul_le_mul_right _ hk
    simp only [slotSpan, slabRoom]
    omega

/-- The slots end in the memory if and only if the structure and the gap fit into the slack. -/
theorem slots_end_le_iff :
    slabMem base size + objectsPerSlab * (size + headerSize) ≤ base + allocSize size ↔
      slabSize + leadingGap base size ≤ roundingSlack size := by
  have hmem : base + slabSize ≤ roundUp (size + headerSize) (base + slabSize) :=
    le_roundUp (slotSize_pos size)
  have halloc : objectsPerSlab * (size + headerSize) ≤
      roundUp 4096 (objectsPerSlab * (size + headerSize)) := le_roundUp (by decide)
  rw [slabMem_eq_roundUp, allocSize_eq_roundUp, leadingGap, roundingSlack]
  omega

/-- **When all slots lie in the memory of the slab**: for every object size and every address of the
mapper. -/
theorem slots_inside_iff (base size : ℕ) :
    (∀ k < objectsPerSlab, (slotSpan base size k).bytes ⊆ (slabRoom base size).bytes) ↔
      slabSize + leadingGap base size ≤ roundingSlack size :=
  slots_inside_iff_end.trans slots_end_le_iff

theorem roundingSlack_eq_zero (h : 64 ∣ size + headerSize) : roundingSlack size = 0 := by
  have hdvd : 4096 ∣ objectsPerSlab * (size + headerSize) := Nat.mul_dvd_mul (Nat.dvd_refl 64) h
  rw [roundingSlack, roundUp_eq_of_dvd (by decide) hdvd, Nat.sub_self]

/-- **The last slot hangs over the end**: in a slab at 16384 for the objects of the largest bucket, and
in every slab for objects of 56 bytes. -/
theorem last_slot_outside :
    ¬ (∀ k < objectsPerSlab, (slotSpan 16384 (bucketSize 9) k).bytes ⊆
      (slabRoom 16384 (bucketSize 9)).bytes) ∧
    ∀ base, ¬ ∀ k < objectsPerSlab, (slotSpan base 56 k).bytes ⊆ (slabRoom base 56).bytes := by
  constructor
  · rw [slots_inside_iff_end]
    decide
  · intro base hinside
    have hfit := slots_end_le_iff.1 (slots_inside_iff_end.1 hinside)
    rw [roundingSlack_eq_zero ⟨1, rfl⟩, slabSize] at hfit
    omega

end Slub

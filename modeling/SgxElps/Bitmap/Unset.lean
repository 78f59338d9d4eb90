/-
**The bitmap: clearing a range of bits.**

`unset(i, len)` clears a range with atomic operations on eight bytes.  A range that fits into the eight bytes
from byte `i / 8` on is one piece; a longer one is cut into a head that ends on a byte, pieces of 64 bits
and a tail.  A piece addresses its eight bytes by the byte of `i`, but shifts its mask by `i % 64`, the
position in the word, instead of `i % 8`: unless the piece has all 64 bits, it is cleared at the right place
only if these two agree, that is if `i` is in the first byte of its word.

Main definitions: `unset`, `UnsetRight`.  Main result: `unsetRight_iff`.
-/

import SgxElps.Bitmap.Scan

namespace Bitmap

open BitWord

/-! ### Accesses at a byte -/

/-- The memory from the address of `bits` on. -/
structure Mem where
  bits : Words
  /-- The offsets of the bytes at which eight bytes were accessed, the last one first. -/
  touched : List ℕ

/-- `__sync_fetch_and_and` on the eight bytes from byte `a` on.  They are a part of one word, in its high
bytes, and a part of the next, in its low ones. -/
def Mem.fetchAndAnd (m : Mem) (a : ℕ) (mask : BitVec 64) : Mem where
  bits w :=
    if w = a / 8 then
      m.bits w &&& (mask <<< (8 * (a % 8)) ||| ~~~(BitVec.allOnes 64 <<< (8 * (a % 8))))
    else if w = a / 8 + 1 then
      m.bits w &&& (mask >>> (64 - 8 * (a % 8)) ||| BitVec.allOnes 64 <<< (8 * (a % 8)))
    else m.bits w
  touched := a :: m.touched

/-- `unset_word`.  A failed `LIBOS_ASSERT` ends the program. -/
def unsetWord (size i len : ℕ) (m : Mem) : Option Mem :=
  if i < size ∧ len + i % 8 ≤ 64 then
    -- the address counts bytes and the shift counts bits of a word
    some (m.fetchAndAnd (i / 8) (if len = 64 then 0#64 else ~~~runMask (i % 64) len))
  else none

/-- `unset(i)`.  Its last assertion tests the old word, and not its bit. -/
def unsetOne (size i : ℕ) (m : Mem) : Option Mem :=
  if i < size ∧ m.bits (i / 64) ≠ 0#64 then
    some (m.fetchAndAnd (8 * (i / 64)) (~~~BitVec.twoPow 64 (i % 64)))
  else none

/-- The loop of `unset(i, len)` over pieces of 64 bits, and the tail. -/
def unsetWords (size i len : ℕ) (m : Mem) : Option Mem :=
  if 64 < len then (unsetWord size i 64 m).bind (unsetWords size (i + 64) (len - 64))
  else unsetWord size i len m
termination_by len

/-- `unset(i, len)`, for a `len` that is positive. -/
def unset (size i len : ℕ) (m : Mem) : Option Mem :=
  if i < size then
    if len = 1 then unsetOne size i m
    else if len + i % 8 ≤ 64 then unsetWord size i len m
    else
      (unsetWord size i (64 - i % 8) m).bind
        (unsetWords size (i + (64 - i % 8)) (len - (64 - i % 8)))
  else none

variable {size i len a j : ℕ} {m m₁ m' : Mem} {mask : BitVec 64} {bits : Words}

/-- **The atomic operation changes the 64 bits from bit `8 * a` on.** -/
theorem tableBit_fetchAndAnd : tableBit (m.fetchAndAnd a mask).bits j =
    (tableBit m.bits j && (decide (j < 8 * a ∨ 8 * a + 64 ≤ j) || mask.getLsbD (j - 8 * a))) := by
  have hr : j % 64 < 64 := Nat.mod_lt _ (by decide)
  unfold tableBit Mem.fetchAndAnd
  dsimp only
  by_cases hlow : j / 64 = a / 8
  · rw [if_pos hlow, BitVec.getLsbD_and, BitVec.getLsbD_or, BitVec.getLsbD_shiftLeft, BitVec.getLsbD_not,
      BitVec.getLsbD_shiftLeft, BitVec.getLsbD_allOnes]
    congr 1
    by_cases hs : j % 64 < 8 * (a % 8)
    · have hout : j < 8 * a ∨ 8 * a + 64 ≤ j := by omega
      simp [hr, hs, hout]
    · have hin : ¬ (j < 8 * a ∨ 8 * a + 64 ≤ j) := by omega
      have hpos : j - 8 * a = j % 64 - 8 * (a % 8) := by omega
      have hlt : j % 64 - 8 * (a % 8) < 64 := by omega
      simp only [hr, hs, hin, hpos, hlt, decide_true, decide_false, Bool.not_false, Bool.and_true,
        Bool.true_and, Bool.not_true, Bool.or_false, Bool.false_or]
  · rw [if_neg hlow]
    by_cases hhigh : j / 64 = a / 8 + 1
    · rw [if_pos hhigh, BitVec.getLsbD_and, BitVec.getLsbD_or, BitVec.getLsbD_shiftLeft,
        BitVec.getLsbD_ushiftRight, BitVec.getLsbD_allOnes]
      congr 1
      by_cases hs : j % 64 < 8 * (a % 8)
      · have hin : ¬ (j < 8 * a ∨ 8 * a + 64 ≤ j) := by omega
        have hpos : j - 8 * a = 64 - 8 * (a % 8) + j % 64 := by omega
        simp only [hr, hs, hin, hpos, decide_true, decide_false, Bool.not_true, Bool.and_false,
          Bool.false_and, Bool.or_false, Bool.false_or]
      · have hout : j < 8 * a ∨ 8 * a + 64 ≤ j := by omega
        have hlt : j % 64 - 8 * (a % 8) < 64 := by omega
        simp [hr, hs, hout, hlt]
    · have hout : j < 8 * a ∨ 8 * a + 64 ≤ j := by omega
      rw [if_neg hhigh, decide_eq_true hout, Bool.true_or, Bool.and_true]

/-! ### Clearing a range -/

/-- **The bits from `i` on are cleared, `len` of them, and no other**; and all the bytes that were accessed
since are bytes of the array. -/
structure Cleared (size i len : ℕ) (m m' : Mem) : Prop where
  bits : ∀ j, tableBit m'.bits j = if i ≤ j ∧ j < i + len then false else tableBit m.bits j
  inside : ∀ a ∈ m'.touched, a ∈ m.touched ∨ a + 8 ≤ 8 * nInt64 size

theorem Cleared.trans {len' : ℕ} (h1 : Cleared size i len m m₁)
    (h2 : Cleared size (i + len) len' m₁ m') : Cleared size i (len + len') m m' := by
  refine ⟨fun j => ?_, fun a ha => ?_⟩
  · rw [h2.bits, h1.bits]
    by_cases hj : i + len ≤ j ∧ j < i + len + len'
    · rw [if_pos hj, if_pos ⟨by omega, by omega⟩]
    · rw [if_neg hj]
      exact if_congr (by omega) rfl rfl
  · rcases h2.inside a ha with hold | hin
    · exact h1.inside a hold
    · exact Or.inr hin

/-- `unset(i, len)` clears its range. -/
def UnsetRight (size i len : ℕ) (bits : Words) : Prop :=
  ∃ m', unset size i len ⟨bits, []⟩ = some m' ∧ Cleared size i len ⟨bits, []⟩ m'

/-! ### The pieces that are right -/

theorem eq_of_unsetWord (h : unsetWord size i len m = some m') :
    m' = m.fetchAndAnd (i / 8) (if len = 64 then 0#64 else ~~~runMask (i % 64) len) := by
  unfold unsetWord at h
  by_cases hassert : i < size ∧ len + i % 8 ≤ 64
  · rw [if_pos hassert] at h
    exact (Option.some.inj h).symm
  · rw [if_neg hassert] at h
    cases h

/-- The bits that a piece clears: their place is the byte of `i`, and in it the position of `i` in its
word. -/
theorem tableBit_unsetWord (h : unsetWord size i len m = some m') : tableBit m'.bits j =
    (tableBit m.bits j && decide (j < 8 * (i / 8) ∨ 8 * (i / 8) + 64 ≤ j ∨
      len ≠ 64 ∧ (j < 8 * (i / 8) + i % 64 ∨ 8 * (i / 8) + i % 64 + len ≤ j))) := by
  rw [eq_of_unsetWord h, tableBit_fetchAndAnd]
  congr 1
  by_cases hout : j < 8 * (i / 8) ∨ 8 * (i / 8) + 64 ≤ j
  · rw [decide_eq_true hout, Bool.true_or, decide_eq_true (by omega)]
  · rw [decide_eq_false hout, Bool.false_or]
    by_cases hlen : len = 64
    · rw [if_pos hlen, BitVec.getLsbD_zero, decide_eq_false (by omega)]
    · rw [if_neg hlen, BitVec.getLsbD_not, getLsbD_runMask, decide_eq_true (by omega), Bool.true_and,
        ← decide_not]
      exact decide_eq_decide.2 (by omega)

theorem touched_unsetWord (h : unsetWord size i len m = some m') : m'.touched = i / 8 :: m.touched := by
  rw [eq_of_unsetWord h]
  rfl

/-- A piece in the first byte of a word, and a piece of 64 bits. -/
theorem unsetWord_cleared (hlen : 1 ≤ len) (hsize : i + len ≤ size) (hfit : len + i % 8 ≤ 64)
    (hplace : i % 64 < 8 ∨ len = 64) :
    ∃ m', unsetWord size i len m = some m' ∧ Cleared size i len m m' := by
  obtain ⟨m', hm'⟩ : ∃ m', unsetWord size i len m = some m' := ⟨_, if_pos ⟨by omega, hfit⟩⟩
  refine ⟨m', hm', fun j => ?_, fun a ha => ?_⟩
  · rw [tableBit_unsetWord hm']
    by_cases hj : i ≤ j ∧ j < i + len
    · rw [if_pos hj, decide_eq_false (by omega), Bool.and_false]
    · rw [if_neg hj, decide_eq_true (by omega), Bool.and_true]
  · rw [touched_unsetWord hm'] at ha
    rcases List.mem_cons.1 ha with rfl | hold
    · unfold nInt64
      omega
    · exact Or.inl hold

theorem unsetWords_cleared (hlen : 1 ≤ len) (hsize : i + len ≤ size) (halign : i % 8 = 0)
    (hplace : i % 64 < 8 ∨ 64 ∣ len) :
    ∃ m', unsetWords size i len m = some m' ∧ Cleared size i len m m' := by
  induction len using Nat.strong_induction_on generalizing i m with
  | _ len ih =>
    unfold unsetWords
    by_cases hlong : 64 < len
    · obtain ⟨m₁, hm1, hclear1⟩ : ∃ m₁, unsetWord size i 64 m = some m₁ ∧ Cleared size i 64 m m₁ :=
        unsetWord_cleared (by decide) (by omega) (by omega) (Or.inr rfl)
      obtain ⟨m', hm', hclear⟩ : ∃ m', unsetWords size (i + 64) (len - 64) m₁ = some m' ∧
          Cleared size (i + 64) (len - 64) m₁ m' :=
        ih (len - 64) (by omega) (by omega) (by omega) (by omega) (by omega)
      have hsum := hclear1.trans hclear
      rw [Nat.add_sub_cancel' hlong.le] at hsum
      rw [if_pos hlong, hm1]
      exact ⟨m', hm', hsum⟩
    · rw [if_neg hlong]
      exact unsetWord_cleared hlen hsize (by omega) (by omega)

/-! ### The pieces that are not -/

/-- A bit below the byte of the piece, and the first bit of a piece at the wrong place. -/
theorem unsetWord_kept (h : unsetWord size i len m = some m')
    (hj : j < 8 * (i / 8) ∨ j = i ∧ 8 ≤ i % 64 ∧ len ≠ 64) : tableBit m'.bits j = tableBit m.bits j := by
  rw [tableBit_unsetWord h, decide_eq_true (by omega), Bool.and_true]

theorem unsetWord_kept_above (h : unsetWord size i 64 m = some m') (halign : i % 8 = 0)
    (hj : i + 64 ≤ j) : tableBit m'.bits j = tableBit m.bits j := by
  rw [tableBit_unsetWord h, decide_eq_true (by omega), Bool.and_true]

theorem unsetWords_kept_below (h : unsetWords size i len m = some m') (halign : i % 8 = 0) (hj : j < i) :
    tableBit m'.bits j = tableBit m.bits j := by
  induction len using Nat.strong_induction_on generalizing i m with
  | _ len ih =>
    unfold unsetWords at h
    by_cases hlong : 64 < len
    · rw [if_pos hlong] at h
      obtain ⟨m₁, hm1, hrest⟩ := Option.bind_eq_some_iff.1 h
      rw [ih (len - 64) (by omega) hrest (by omega) (by omega)]
      exact unsetWord_kept hm1 (Or.inl (by omega))
    · rw [if_neg hlong] at h
      exact unsetWord_kept h (Or.inl (by omega))

theorem unsetWords_kept (h : unsetWords size i len m = some m') (hlen : 1 ≤ len) (halign : i % 8 = 0)
    (hplace : 8 ≤ i % 64) (hdvd : ¬ 64 ∣ len) :
    ∃ j, i ≤ j ∧ j < i + len ∧ tableBit m'.bits j = tableBit m.bits j := by
  induction len using Nat.strong_induction_on generalizing i m with
  | _ len ih =>
    unfold unsetWords at h
    by_cases hlong : 64 < len
    · rw [if_pos hlong] at h
      obtain ⟨m₁, hm1, hrest⟩ := Option.bind_eq_some_iff.1 h
      obtain ⟨j, hij, hjlt, hkept⟩ :=
        ih (len - 64) (by omega) hrest (by omega) (by omega) (by omega) (by omega)
      refine ⟨j, by omega, by omega, hkept.trans (unsetWord_kept_above hm1 halign hij)⟩
    · rw [if_neg hlong] at h
      exact ⟨i, le_rfl, by omega, unsetWord_kept h (Or.inr ⟨rfl, hplace, by omega⟩)⟩

/-! ### The whole range -/

theorem unset_one (hi : i < size) : UnsetRight size i 1 bits ↔ bits (i / 64) ≠ 0#64 := by
  unfold UnsetRight unset unsetOne
  rw [if_pos hi, if_pos rfl]
  by_cases hword : bits (i / 64) = 0#64
  · rw [if_neg fun h => h.2 hword]
    refine iff_of_false ?_ fun h => h hword
    rintro ⟨m', hm', -⟩
    cases hm'
  · rw [if_pos ⟨hi, hword⟩]
    refine iff_of_true ⟨_, rfl, fun j => ?_, fun a ha => Or.inr ?_⟩ hword
    · rw [tableBit_fetchAndAnd, BitVec.getLsbD_not, BitVec.getLsbD_twoPow]
      by_cases hj : i ≤ j ∧ j < i + 1
      · have hji : j = i := by omega
        have hin : ¬ (i < 8 * (8 * (i / 64)) ∨ 8 * (8 * (i / 64)) + 64 ≤ i) := by omega
        have hpos : i - 8 * (8 * (i / 64)) = i % 64 := by omega
        have hlt : i % 64 < 64 := by omega
        rw [if_pos hj, hji, decide_eq_false hin, hpos, decide_eq_true hlt, decide_eq_true rfl]
        exact Bool.and_false _
      · rw [if_neg hj]
        by_cases hout : j < 8 * (8 * (i / 64)) ∨ 8 * (8 * (i / 64)) + 64 ≤ j
        · rw [decide_eq_true hout, Bool.true_or, Bool.and_true]
        · have hlt : j - 8 * (8 * (i / 64)) < 64 := by omega
          have hne : ¬ i % 64 = j - 8 * (8 * (i / 64)) := by omega
          rw [decide_eq_true hlt, decide_eq_false hne, Bool.and_false, Bool.not_false, Bool.and_true,
            Bool.or_true, Bool.and_true]
    · rcases List.mem_cons.1 ha with rfl | hnil
      · unfold nInt64
        omega
      · cases hnil

theorem unsetRight_of_place (hlen : 2 ≤ len) (hsize : i + len ≤ size)
    (hplace : i % 64 < 8 ∨ 8 ∣ i ∧ 64 ∣ len) : UnsetRight size i len bits := by
  unfold UnsetRight unset
  rw [if_pos (by omega), if_neg (by omega)]
  by_cases hfit : len + i % 8 ≤ 64
  · rw [if_pos hfit]
    exact unsetWord_cleared (by omega) hsize hfit (by omega)
  · rw [if_neg hfit]
    obtain ⟨m₁, hm1, hhead⟩ : ∃ m₁, unsetWord size i (64 - i % 8) ⟨bits, []⟩ = some m₁ ∧
        Cleared size i (64 - i % 8) ⟨bits, []⟩ m₁ :=
      unsetWord_cleared (by omega) (by omega) (by omega) (by omega)
    obtain ⟨m', hm', hrest⟩ : ∃ m', unsetWords size (i + (64 - i % 8)) (len - (64 - i % 8)) m₁ = some m' ∧
        Cleared size (i + (64 - i % 8)) (len - (64 - i % 8)) m₁ m' :=
      unsetWords_cleared (by omega) (by omega) (by omega) (by omega)
    have hsum := hhead.trans hrest
    rw [Nat.add_sub_cancel' (by omega)] at hsum
    rw [hm1]
    exact ⟨m', hm', hsum⟩

theorem unset_kept (h : unset size i len m = some m') (hlen : 2 ≤ len) (hplace : 8 ≤ i % 64)
    (hdvd : ¬ (8 ∣ i ∧ 64 ∣ len)) :
    ∃ j, i ≤ j ∧ j < i + len ∧ tableBit m'.bits j = tableBit m.bits j := by
  unfold unset at h
  by_cases hi : i < size
  · rw [if_pos hi, if_neg (by omega)] at h
    by_cases hfit : len + i % 8 ≤ 64
    · rw [if_pos hfit] at h
      exact ⟨i, le_rfl, by omega, unsetWord_kept h (Or.inr ⟨rfl, hplace, by omega⟩)⟩
    · rw [if_neg hfit] at h
      obtain ⟨m₁, hm1, hrest⟩ := Option.bind_eq_some_iff.1 h
      by_cases halign : i % 8 = 0
      · rw [halign, Nat.sub_zero] at hm1 hrest
        obtain ⟨j, hij, hjlt, hkept⟩ :=
          unsetWords_kept hrest (by omega) (by omega) (by omega) (by omega)
        exact ⟨j, by omega, by omega, hkept.trans (unsetWord_kept_above hm1 halign hij)⟩
      · refine ⟨i, le_rfl, by omega, ?_⟩
        rw [unsetWords_kept_below hrest (by omega) (by omega)]
        exact unsetWord_kept hm1 (Or.inr ⟨rfl, hplace, by omega⟩)
  · rw [if_neg hi] at h
    cases h

/-- **The ranges that `unset` clears.**  A single bit is cleared unless its whole word is zero.  A longer
range is cleared, whatever the contents, exactly if it begins in the first byte of a word, or begins at a
byte and consists of pieces of 64 bits. -/
theorem unsetRight_iff (hlen : 1 ≤ len) (hsize : i + len ≤ size) :
    (len = 1 → ∀ bits, UnsetRight size i len bits ↔ bits (i / 64) ≠ 0#64) ∧
      (len ≠ 1 → ((∀ bits, UnsetRight size i len bits) ↔ i % 64 < 8 ∨ 8 ∣ i ∧ 64 ∣ len)) := by
  constructor
  · rintro rfl bits
    exact unset_one (by omega)
  · intro hne
    refine ⟨fun h => ?_, fun hplace bits => unsetRight_of_place (by omega) hsize hplace⟩
    by_contra hplace
    -- all bits are set before
    obtain ⟨m', hm', hclear⟩ := h fun _ => BitVec.allOnes 64
    obtain ⟨j, hij, hjlt, hkept⟩ := unset_kept hm' (by omega) (by omega) fun hd => hplace (Or.inr hd)
    rw [hclear.bits, if_pos ⟨hij, hjlt⟩, tableBit, BitVec.getLsbD_allOnes,
      decide_eq_true (Nat.mod_lt _ (by decide))] at hkept
    cases hkept

/-- Two pieces of 64 bits from a byte on, and a bit of a word that is not zero. -/
theorem unsetRight_iff_two_words :
    (∀ bits, UnsetRight 192 8 128 bits) ∧ UnsetRight 192 100 1 fun _ => 2#64 := by
  have hrange := (unsetRight_iff (show 1 ≤ 128 by decide) (show 8 + 128 ≤ 192 by decide)).2 (by decide)
  have hbit := (unsetRight_iff (le_refl 1) (show 100 + 1 ≤ 192 by decide)).1 rfl
  exact ⟨hrange.2 (.inr ⟨by decide, by decide⟩), (hbit _).2 (by decide)⟩

/-- `unset(8, 2)` on a bitmap of 128 bits that are all set: it clears the bits 16 and 17.  And the access
of `unset(56, 2)` on a bitmap of 64 bits goes seven bytes beyond its array. -/
theorem unset_clears_other_bits :
    ¬ UnsetRight 128 8 2 (fun _ => BitVec.allOnes 64) ∧
      ((unset 128 8 2 ⟨fun _ => BitVec.allOnes 64, []⟩).map fun m => m.bits 0)
        = some 0xFFFFFFFFFFFCFFFF#64 ∧
      ((unset 64 56 2 ⟨fun _ => BitVec.allOnes 64, []⟩).map Mem.touched) = some [7] := by
  refine ⟨?_, rfl, rfl⟩
  rintro ⟨m', hm', hclear⟩
  have hset := hclear.bits 8
  cases hm'
  cases hset

end Bitmap

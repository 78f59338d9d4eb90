/-
**The bitmap: setting a range in a transaction.**

`set_range` sets the bits from `begin` to `end` inside a hardware transaction, which is committed as a whole
or rolled back as a whole.  Its loop goes over the words of the range.  A turn shifts the word to the first
bit of its piece and counts the zeros: the piece is free if there are as many as it has bits.  If the piece
ends inside the word, a one is added behind it first; if it ends with the word, nothing is added, and for a
free piece the count is that of 0, which is undefined.  So only a range that ends inside its first word is
ever set, and the second turn of a longer one is never reached.

`set(start, len, BIT_SET_FORCE)` calls it until it is aborted.  A transaction that is committed has the
status `_XBEGIN_STARTED`, for which there is no branch: the loop goes on, finds the bits set that it has
just set, and -1 is returned.

The transaction is not disturbed from outside: it is rolled back exactly if it aborts itself.

Main definitions: `txTurn`, `txLoop`, `setRange`, `scanRange`, `set` — the functions; `Clear`, `SetExactly`
— a clear run, and what setting it means; `Inside`, `Enters` — the range ends inside its first word, the
loop is entered; `CountsZero` — the call is undefined; `SetRight` — what `set` is for.

Main results: `setRange_of_not_enters`, `setRange_inside`, `setRange_end` — **what `set_range` does**;
`setRight_iff` — when `set` is right.
-/

import SgxElps.Bitmap.Scan

namespace Bitmap

open BitWord
open Mmap (toInt)
open Function

/-! ### The transaction -/

/-- The test of the loop: `(int)word_end - 64 < (int)end`. -/
def Continues (wordEnd stop : ℕ) : Prop := toInt (toInt wordEnd - 64) < toInt stop

instance (wordEnd stop : ℕ) : Decidable (Continues wordEnd stop) :=
  inferInstanceAs (Decidable (toInt (toInt wordEnd - 64) < toInt stop))

/-- The body of the loop of `set_range`: the new contents of `*word`, or `some none` if the transaction is
aborted; there is no result if the count of zeros is undefined. -/
def txTurn (stop : ℕ) (word : BitVec 64) (start wordEnd : ℕ) : Option (Option (BitVec 64)) :=
  let j := start % 64
  let k := if wordEnd < stop then wordEnd % 64 else stop % 64
  let len := if k = 0 then 64 - j else k - j
  let temp := if k = 0 then word >>> j else word >>> j ||| BitVec.twoPow 64 len
  (ctzl temp).map fun zeros =>
    if len ≤ zeros then
      -- a shift by `begin` is a shift by its last six bits
      some (word ||| if len = 64 then BitVec.allOnes 64 else runMask (start % 64) len)
    else none

/-- The loop of `set_range`.  The result is the contents of `*word` at `_xend`, or `some none` if the
transaction is aborted; there is no result if a turn has none, or if the loop needs more turns. -/
def txLoop (stop : ℕ) : ℕ → BitVec 64 → ℕ → ℕ → Option (Option (BitVec 64))
  | 0, _, _, _ => none
  | fuel + 1, word, start, wordEnd =>
      if Continues wordEnd stop then
        match txTurn stop word start wordEnd with
        | none => none
        | some none => some none
        | some (some word') => txLoop stop fuel word' wordEnd (wordEnd + 64)
      else some (some word)

/-- What `set_range` returns: `_XBEGIN_STARTED` after a commit, `_XABORT_EXPLICIT` or `_XABORT_RETRY`. -/
inductive Status where
  | started (bits : Words)
  | explicit
  | retry

/-- `set_range`. -/
def setRange (fuel : ℕ) (bits : Words) (oldWord : BitVec 64) (start stop i : ℕ) : Option Status :=
  if bits i = oldWord then
    (txLoop stop fuel (bits i) start (if i = stop / 64 then stop else (i + 1) * 64)).map fun
      | none => .explicit
      | some word => .started (update bits i word)
  else some .retry

/-- Where `scan_and_set(len)` is: at a word of its loop, which is also the label `retry`, or at the label
`again` with the values of `i`, `temp` and `j`. -/
inductive Label where
  | word (i : ℕ)
  | again (i : ℕ) (temp : BitVec 64) (j : ℕ)

/-- `scan_and_set(len)` from a label on.  There is no result if a count of zeros is undefined, or if it takes
more steps than are granted. -/
def scanRange (size len : ℕ) (bits : Words) : ℕ → Label → Option (ℤ × Words)
  | 0, _ => none
  | fuel + 1, .word i =>
      if i < size / 64 then
        if bits i = BitVec.allOnes 64 then scanRange size len bits fuel (.word (i + 1))
        else (ctzl (~~~bits i)).bind fun j => scanRange size len bits fuel (.again i (bits i) j)
      else some (-1, bits)
  | fuel + 1, .again i temp j =>
      if size < i * 64 + j ∨ size < i * 64 + j + len then some (-1, bits)
      else
        match setRange fuel bits (bits i) (i * 64 + j) (i * 64 + j + len) i with
        | none => none
        | some .explicit =>
            -- the next bit that is set, and the next clear one behind it
            (ctzl (temp &&& BitVec.allOnes 64 <<< (j % 64))).bind fun j₁ =>
              if j₁ = 64 then scanRange size len bits fuel (.word (i + 1))
              else
                (ctzl (~~~temp &&& BitVec.allOnes 64 <<< j₁)).bind fun j₂ =>
                  scanRange size len bits fuel (.again i temp j₂)
        | some .retry => scanRange size len bits fuel (.word i)
        | some (.started bits') => some (toInt (i * 64 + j : ℕ), bits')

/-- `BIT_SET_FORCE`. -/
def bitSetForce : ℤ := 1

/-- The loop of `set(start, len, flag)` with `n` turns to go.  Only an explicit abort ends it before. -/
def setTurns (size start len : ℕ) (flag : ℤ) (fuel : ℕ) : ℕ → Words → Option (ℤ × Words)
  | 0, bits => some (-1, bits)
  | n + 1, bits =>
      match setRange fuel bits (bits (start / 64)) start (start + len) (start / 64) with
      | none => none
      | some .explicit =>
          if flag = bitSetForce then some (-1, bits) else scanRange size len bits fuel (.word 0)
      | some .retry => setTurns size start len flag fuel n bits
      | some (.started bits') => setTurns size start len flag fuel n bits'

/-- `set(start, len, flag)`, where `timeout` is `0xffffffff` at first. -/
def set (size start len : ℕ) (flag : ℤ) (fuel : ℕ) (bits : Words) : Option (ℤ × Words) :=
  setTurns size start len flag fuel (0xffffffff + 1) bits

/-! ### One turn -/

/-- A run of bits of a word is clear. -/
def Fits (word : BitVec 64) (j len : ℕ) : Prop := ∀ t < len, word.getLsbD (j + t) = false

instance (word : BitVec 64) (j len : ℕ) : Decidable (Fits word j len) :=
  inferInstanceAs (Decidable (∀ t < len, word.getLsbD (j + t) = false))

variable {size fuel start wordEnd stop len i j k : ℕ} {word : BitVec 64} {bits bits' : Words}

/-- **A piece that ends inside the word** is tested and set. -/
theorem txTurn_inside (hk : (if wordEnd < stop then wordEnd % 64 else stop % 64) = start % 64 + len)
    (hpos : 0 < start % 64 + len) (hlt : start % 64 + len < 64) : txTurn stop word start wordEnd =
      some (if Fits word (start % 64) len then some (word ||| runMask (start % 64) len) else none) := by
  unfold txTurn
  dsimp only
  rw [hk, if_neg hpos.ne', if_neg hpos.ne', Nat.add_sub_cancel_left]
  have hbit (t : ℕ) : (word >>> (start % 64) ||| BitVec.twoPow 64 len).getLsbD t =
      (word.getLsbD (start % 64 + t) || decide (t = len)) := by
    rw [BitVec.getLsbD_or, BitVec.getLsbD_ushiftRight, BitVec.getLsbD_twoPow,
      decide_eq_true (show len < 64 by omega), Bool.true_and]
    simp only [eq_comm]
  obtain ⟨zeros, hzeros⟩ :
      ∃ zeros, ctzl (word >>> (start % 64) ||| BitVec.twoPow 64 len) = some zeros := by
    refine Option.ne_none_iff_exists'.1 fun hnone => ?_
    have hone := ctzl_eq_none.1 hnone len (by omega)
    simp [hbit] at hone
  obtain ⟨hset, hlow⟩ := ctzl_eq_some.1 hzeros
  rw [hzeros, Option.map_some, if_neg (show len ≠ 64 by omega)]
  refine congrArg some (if_congr ⟨fun hle t ht => ?_, fun hfits => not_lt.1 fun hz => ?_⟩ rfl rfl)
  · have hclear := hlow t (ht.trans_le hle)
    rw [hbit, Bool.or_eq_false_iff] at hclear
    exact hclear.1
  · rw [hbit, hfits zeros hz, decide_eq_false hz.ne] at hset
    cases hset

/-- **A piece that ends with the word** is never set: the count is undefined if it is free. -/
theorem txTurn_end (hk : (if wordEnd < stop then wordEnd % 64 else stop % 64) = 0) :
    txTurn stop word start wordEnd =
      if Fits word (start % 64) (64 - start % 64) then none else some none := by
  unfold txTurn
  dsimp only
  rw [hk, if_pos rfl, if_pos rfl]
  by_cases hfits : Fits word (start % 64) (64 - start % 64)
  · have hnone : ctzl (word >>> (start % 64)) = none := ctzl_eq_none.2 fun t _ => by
      rw [BitVec.getLsbD_ushiftRight]
      by_cases ht : t < 64 - start % 64
      · exact hfits t ht
      · exact BitVec.getLsbD_of_ge _ _ (by omega)
    rw [hnone, if_pos hfits, Option.map_none]
  · obtain ⟨zeros, hzeros⟩ : ∃ zeros, ctzl (word >>> (start % 64)) = some zeros := by
      refine Option.ne_none_iff_exists'.1 fun hnone => hfits fun t ht => ?_
      have hclear := ctzl_eq_none.1 hnone t (by omega)
      rwa [BitVec.getLsbD_ushiftRight] at hclear
    have hset := (ctzl_eq_some.1 hzeros).1
    rw [BitVec.getLsbD_ushiftRight] at hset
    have hlt := BitVec.lt_of_getLsbD hset
    rw [hzeros, Option.map_some, if_neg (by omega), if_neg hfits]

theorem txLoop_mono {r : Option (BitVec 64)} (h : txLoop stop fuel word start wordEnd = some r) :
    txLoop stop (fuel + 1) word start wordEnd = some r := by
  induction fuel generalizing word start wordEnd with
  | zero => cases h
  | succ fuel ih =>
    rw [txLoop] at h ⊢
    by_cases hc : Continues wordEnd stop
    · rw [if_pos hc] at h ⊢
      match hturn : txTurn stop word start wordEnd with
      | none =>
        rw [hturn] at h
        cases h
      | some none =>
        rw [hturn] at h
        exact h
      | some (some word') =>
        rw [hturn] at h
        exact ih h
    · rw [if_neg hc] at h ⊢
      exact h

/-! ### The conversion to `int` -/

theorem continues_iff : Continues wordEnd stop ↔ toInt ((wordEnd : ℤ) - 64) < toInt stop := by
  unfold Continues Mmap.toInt
  rw [Int.bmod_sub_bmod]

theorem not_continues_self : ¬ Continues (stop + 64) stop := by
  have hsub : ((stop + 64 : ℕ) : ℤ) - 64 = stop := by omega
  rw [continues_iff, hsub]
  exact lt_irrefl _

/-! ### `set_range` -/

/-- The bits from `k` on are clear, `len` of them. -/
def Clear (bits : Words) (k len : ℕ) : Prop := ∀ t < len, tableBit bits (k + t) = false

instance (bits : Words) (k len : ℕ) : Decidable (Clear bits k len) :=
  inferInstanceAs (Decidable (∀ t < len, tableBit bits (k + t) = false))

/-- The bits from `k` on are set, `len` of them, and no other. -/
def SetExactly (bits : Words) (k len : ℕ) (bits' : Words) : Prop :=
  ∀ t, tableBit bits' t = if k ≤ t ∧ t < k + len then true else tableBit bits t

/-- The range ends inside its first word. -/
def Inside (start len : ℕ) : Prop := 0 < start % 64 + len ∧ start % 64 + len < 64

instance (start len : ℕ) : Decidable (Inside start len) :=
  inferInstanceAs (Decidable (0 < start % 64 + len ∧ start % 64 + len < 64))

/-- The loop of `set_range` is entered.  It always is, unless the numbers are no `int`s. -/
def Enters (start len : ℕ) : Prop :=
  Continues (if start / 64 = (start + len) / 64 then start + len else (start / 64 + 1) * 64) (start + len)

instance (start len : ℕ) : Decidable (Enters start len) := inferInstanceAs (Decidable (Continues _ _))

/-- The number of bits that the first turn tests. -/
def piece (start len : ℕ) : ℕ := if Inside start len then len else 64 - start % 64

theorem fits_iff_clear (h : start % 64 + len ≤ 64) :
    Fits (bits (start / 64)) (start % 64) len ↔ Clear bits start len := by
  refine forall₂_congr fun t ht => ?_
  have hsum : start + t = start / 64 * 64 + (start % 64 + t) := by omega
  rw [hsum, tableBit_word (by omega)]

theorem setExactly_runMask (h : start % 64 + len ≤ 64) : SetExactly bits start len
    (update bits (start / 64) (bits (start / 64) ||| runMask (start % 64) len)) := by
  intro t
  rw [tableBit_or, getLsbD_runMask]
  by_cases ht : start ≤ t ∧ t < start + len
  · have hword : t / 64 = start / 64 := by omega
    have hmask : t % 64 < 64 ∧ start % 64 ≤ t % 64 ∧ t % 64 < start % 64 + len := by omega
    rw [if_pos ht, decide_eq_true hword, decide_eq_true hmask, Bool.and_true, Bool.or_true]
  · rw [if_neg ht]
    by_cases hword : t / 64 = start / 64
    · have hmask : ¬ (t % 64 < 64 ∧ start % 64 ≤ t % 64 ∧ t % 64 < start % 64 + len) := by omega
      rw [decide_eq_false hmask, Bool.and_false, Bool.or_false]
    · rw [decide_eq_false hword, Bool.false_and, Bool.or_false]

/-- `set_range` with the word as the caller has just read it. -/
theorem setRange_eq : setRange fuel bits (bits i) start stop i =
    (txLoop stop fuel (bits i) start (if i = stop / 64 then stop else (i + 1) * 64)).map fun
      | none => .explicit
      | some word => .started (update bits i word) :=
  if_pos rfl

theorem setRange_mono {r : Status} (h : setRange fuel bits (bits i) start stop i = some r) (n : ℕ) :
    setRange (fuel + n) bits (bits i) start stop i = some r := by
  induction n with
  | zero => exact h
  | succ n ih =>
    rw [setRange_eq] at ih ⊢
    obtain ⟨w, hw, hr⟩ := Option.map_eq_some_iff.1 ih
    rw [← Nat.add_assoc, txLoop_mono hw]
    exact congrArg some hr

/-- **A loop that is not entered** changes nothing. -/
theorem setRange_of_not_enters (h : ¬ Enters start len) :
    setRange (fuel + 1) bits (bits (start / 64)) start (start + len) (start / 64) =
      some (.started bits) := by
  unfold Enters at h
  rw [setRange_eq, txLoop, if_neg h]
  exact congrArg (some ∘ Status.started) (update_eq_self _ bits)

/-- **A range that ends inside its first word** is tested and set as a whole. -/
theorem setRange_inside (h : Enters start len) (hin : Inside start len) :
    setRange (fuel + 2) bits (bits (start / 64)) start (start + len) (start / 64) =
      some (if Clear bits start len then
        .started (update bits (start / 64) (bits (start / 64) ||| runMask (start % 64) len))
      else .explicit) := by
  obtain ⟨hpos, hlt⟩ := hin
  have hword : start / 64 = (start + len) / 64 := by omega
  have hk : (if start + len < start + len then (start + len) % 64 else (start + len) % 64) =
      start % 64 + len := by
    rw [ite_self]
    omega
  unfold Enters at h
  rw [if_pos hword] at h
  rw [setRange_eq, if_pos hword, txLoop, if_pos h, txTurn_inside hk hpos hlt]
  by_cases hclear : Clear bits start len
  · rw [if_pos ((fits_iff_clear hlt.le).2 hclear), if_pos hclear]
    dsimp only
    rw [txLoop, if_neg not_continues_self]
    rfl
  · rw [if_neg fun hfits => hclear ((fits_iff_clear hlt.le).1 hfits), if_neg hclear]
    rfl

/-- **Any other range** is aborted, or the count is undefined. -/
theorem setRange_end (h : Enters start len) (hin : ¬ Inside start len) :
    setRange (fuel + 1) bits (bits (start / 64)) start (start + len) (start / 64) =
      if Clear bits start (64 - start % 64) then none else some .explicit := by
  unfold Inside at hin
  obtain ⟨e, he⟩ : ∃ e, e =
    if start / 64 = (start + len) / 64 then start + len else (start / 64 + 1) * 64 := ⟨_, rfl⟩
  have hk : (if e < start + len then e % 64 else (start + len) % 64) = 0 := by
    rw [he]
    split_ifs <;> omega
  unfold Enters at h
  rw [← he] at h
  rw [setRange_eq, ← he, txLoop, if_pos h, txTurn_end hk]
  have hiff : _ ↔ Clear bits start (64 - start % 64) := fits_iff_clear (by omega)
  by_cases hclear : Clear bits start (64 - start % 64)
  · rw [if_pos (hiff.2 hclear), if_pos hclear]
    rfl
  · rw [if_neg fun hfits => hclear (hiff.1 hfits), if_neg hclear]
    rfl

theorem setRange_blocked (h : Enters start len) (hblocked : ¬ Clear bits start (piece start len)) :
    setRange (fuel + 2) bits (bits (start / 64)) start (start + len) (start / 64) = some .explicit := by
  unfold piece at hblocked
  by_cases hin : Inside start len
  · rw [if_pos hin] at hblocked
    rw [setRange_inside h hin, if_neg hblocked]
  · rw [if_neg hin] at hblocked
    rw [setRange_end h hin, if_neg hblocked]

/-- **What `set_range` can return.** -/
theorem setRange_cases {status : Status}
    (h : setRange fuel bits (bits (start / 64)) start (start + len) (start / 64) = some status) :
    (¬ Enters start len ∧ status = .started bits) ∨
      (Enters start len ∧ ¬ Clear bits start (piece start len) ∧ status = .explicit) ∨
      (Enters start len ∧ Inside start len ∧ Clear bits start len ∧ status =
        .started (update bits (start / 64) (bits (start / 64) ||| runMask (start % 64) len))) := by
  have hstatus := setRange_mono h 2
  by_cases hent : Enters start len
  · by_cases hblocked : Clear bits start (piece start len)
    · unfold piece at hblocked
      by_cases hin : Inside start len
      · rw [if_pos hin] at hblocked
        rw [setRange_inside hent hin, if_pos hblocked, Option.some.injEq] at hstatus
        exact Or.inr (Or.inr ⟨hent, hin, hblocked, hstatus.symm⟩)
      · rw [if_neg hin] at hblocked
        rw [setRange_end hent hin, if_pos hblocked] at hstatus
        cases hstatus
    · rw [setRange_blocked hent hblocked, Option.some.injEq] at hstatus
      exact Or.inr (Or.inl ⟨hent, hblocked, hstatus.symm⟩)
  · rw [setRange_of_not_enters hent, Option.some.injEq] at hstatus
    exact Or.inl ⟨hent, hstatus.symm⟩

theorem setRange_eq_none (h : Enters start len) (hin : ¬ Inside start len)
    (hclear : Clear bits start (64 - start % 64)) :
    setRange fuel bits (bits (start / 64)) start (start + len) (start / 64) = none := by
  cases fuel with
  | zero => exact if_pos rfl
  | succ fuel => rw [setRange_end h hin, if_pos hclear]

/-! ### `set` with `BIT_SET_FORCE` -/

/-- **`set` returns**, it returns `start` and has set exactly the range if all its bits were clear, and
otherwise returns -1 and has changed nothing. -/
def SetRight (size start len : ℕ) (bits : Words) : Prop :=
  ∃ fuel r, set size start len bitSetForce fuel bits = some r ∧
    (Clear bits start len → r.1 = start ∧ SetExactly bits start len r.2) ∧
    (¬ Clear bits start len → r = (-1, bits))

/-- **The range goes on behind its first word, the rest of which is clear**: `set_range` counts the zeros of
0.  The comparison after conversion to `int` decides whether the loop is entered. -/
def CountsZero (bits : Words) (start len : ℕ) : Prop :=
  (start / 64 + 1) * 64 < start + len ∧ toInt (start / 64 * 64 : ℕ) < toInt (start + len : ℕ) ∧
    Clear bits start (64 - start % 64)

variable {n : ℕ} {r : ℤ × Words}

theorem enters_crossing (hcross : (start / 64 + 1) * 64 ≤ start + len) :
    Enters start len ↔ toInt (start / 64 * 64 : ℕ) < toInt (start + len : ℕ) := by
  have hword : start / 64 ≠ (start + len) / 64 := by omega
  have hsub : (((start / 64 + 1) * 64 : ℕ) : ℤ) - 64 = (start / 64 * 64 : ℕ) := by omega
  rw [Enters, if_neg hword, continues_iff, hsub]

/-- -1 is all that is ever returned. -/
theorem setTurns_fst (h : setTurns size start len bitSetForce fuel n bits = some r) : r.1 = -1 := by
  induction n generalizing bits with
  | zero =>
    cases h
    rfl
  | succ n ih =>
    rw [setTurns] at h
    match hset : setRange fuel bits (bits (start / 64)) start (start + len) (start / 64) with
    | none =>
      rw [hset] at h
      cases h
    | some .explicit =>
      rw [hset] at h
      cases h
      rfl
    | some .retry =>
      rw [hset] at h
      exact ih h
    | some (.started bits') =>
      rw [hset] at h
      exact ih h

theorem setTurns_idle
    (hset : setRange fuel bits (bits (start / 64)) start (start + len) (start / 64)
      = some (.started bits)) : setTurns size start len bitSetForce fuel n bits = some (-1, bits) := by
  induction n with
  | zero => rfl
  | succ n ih =>
    rw [setTurns, hset]
    exact ih

theorem setRange_of_not_clear (hclear : ¬ Clear bits start len) (hzero : ¬ CountsZero bits start len) :
    setRange (0 + 2) bits (bits (start / 64)) start (start + len) (start / 64) = some .explicit ∨
      setRange (0 + 2) bits (bits (start / 64)) start (start + len) (start / 64)
        = some (.started bits) := by
  by_cases hent : Enters start len
  · refine Or.inl ?_
    by_cases hin : Inside start len
    · rw [setRange_inside hent hin, if_neg hclear]
    · have hpos : 1 ≤ len := not_lt.1 fun h => hclear fun t ht => absurd ht (by omega)
      unfold Inside at hin
      rw [setRange_end hent hin, if_neg]
      intro hrest
      by_cases hcross : (start / 64 + 1) * 64 < start + len
      · exact hzero ⟨hcross, (enters_crossing hcross.le).1 hent, hrest⟩
      · -- the range is the rest of the word
        have hlen : 64 - start % 64 = len := by omega
        exact hclear (hlen ▸ hrest)
  · exact Or.inr (setRange_of_not_enters hent)

/-- **When `set` is right**: exactly if some bit of the range is set, and no zeros of 0 are counted. -/
theorem setRight_iff :
    SetRight size start len bits ↔ ¬ Clear bits start len ∧ ¬ CountsZero bits start len := by
  constructor
  · rintro ⟨fuel, r, hr, hall, -⟩
    refine ⟨fun hclear => ?_, fun ⟨hcross, hent, hrest⟩ => ?_⟩
    · have hret := (hall hclear).1
      rw [setTurns_fst hr] at hret
      omega
    · have hin : ¬ Inside start len := fun h => by
        have hlt := h.2
        omega
      rw [set, setTurns, setRange_eq_none ((enters_crossing hcross.le).2 hent) hin hrest] at hr
      cases hr
  · rintro ⟨hclear, hzero⟩
    refine ⟨0 + 2, (-1, bits), ?_, fun h => absurd h hclear, fun _ => rfl⟩
    rcases setRange_of_not_clear hclear hzero with hset | hset
    · rw [set, setTurns, hset]
      exact if_pos rfl
    · exact setTurns_idle hset

end Bitmap

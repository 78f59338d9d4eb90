/-
**The bitmap: finding a clear range.**

`scan_and_set(len)` tries the clear runs of each word in turn: it calls `set_range` at the beginning of a
run, and after an abort goes on at the next clear bit behind the next bit that is set.  If there is none in
the word, the zeros of 0 are counted and the result is undefined.  So the search never gets beyond the first
word that is not full: it finds a run that ends inside this word, or there is no room behind a run of it, or
the result is undefined.  The partial last word is not visited at all.

Main definitions: `FindsRun`, `ScanRight` — what the scan is for; `Tried` — the places where it tries;
`Passes`, `Ends` — what happens at such a place; `Finds`, `GivesUp` — the contents for which a run is found,
and for which -1 is returned.

Main results: `returns_iff` — **what `scan_and_set(len)` returns**; `scanRight_iff` — when it is right;
`setRight_and_scanRight_iff` — when both functions are.
-/

import Mathlib.Data.Nat.Find
import SgxElps.Bitmap.Transaction

namespace Bitmap

open BitWord
open Mmap (toInt toInt_of_lt toInt_lt)
open BitVec (allOnes)
open Function

/-! ### What the scan is for -/

/-- **A clear run of `len` bits was set and its first number is returned**, or there is no such run and -1 is
returned with nothing changed. -/
def FindsRun (size len : ℕ) (bits : Words) (r : ℤ × Words) : Prop :=
  (∃ k, k + len ≤ size ∧ Clear bits k len ∧ r.1 = k ∧ SetExactly bits k len r.2) ∨
    (∀ k, k + len ≤ size → ¬ Clear bits k len) ∧ r = (-1, bits)

/-- The scan returns `r` from a label on. -/
def Returns (size len : ℕ) (bits : Words) (l : Label) (r : ℤ × Words) : Prop :=
  ∃ fuel, scanRange size len bits fuel l = some r

/-- `scan_and_set(len)` returns, and returns such a result. -/
def ScanRight (size len : ℕ) (bits : Words) : Prop :=
  ∃ r, Returns size len bits (.word 0) r ∧ FindsRun size len bits r

/-! ### The places of the search -/

/-- **A place where the search tries**: `k` begins a clear run of its word, and all words before are full. -/
structure Tried (size : ℕ) (bits : Words) (k : ℕ) : Prop where
  lt : k < size / 64 * 64
  full : ∀ t < k / 64 * 64, tableBit bits t = true
  clear : tableBit bits k = false
  first : k % 64 = 0 ∨ tableBit bits (k - 1) = true

/-- The transaction at `k` is aborted. -/
structure Passes (size len : ℕ) (bits : Words) (k : ℕ) : Prop where
  room : k + len ≤ size
  enters : Enters k len
  blocked : ¬ Clear bits k (piece k len)

/-- How the search ends at `k`. -/
inductive Ends (size len : ℕ) (bits : Words) (k : ℕ) : ℤ × Words → Prop
  | noRoom (h : size < k + len) : Ends size len bits k (-1, bits)
  | idle (hroom : k + len ≤ size) (h : ¬ Enters k len) : Ends size len bits k (toInt k, bits)
  | found (hroom : k + len ≤ size) (hent : Enters k len) (hin : Inside k len) (h : Clear bits k len) :
      Ends size len bits k
        (toInt k, update bits (k / 64) (bits (k / 64) ||| runMask (k % 64) len))

variable {size len fuel i j k k' : ℕ} {temp : BitVec 64} {bits bits' : Words} {r : ℤ × Words} {l : Label}

theorem Tried.word_le (h : Tried size bits k) (h' : Tried size bits k') : k' / 64 ≤ k / 64 := by
  refine not_lt.1 fun hlt => ?_
  have hset := h'.full k (by omega)
  rw [h.clear] at hset
  cases hset

theorem Tried.word_eq (h : Tried size bits k) (h' : Tried size bits k') : k / 64 = k' / 64 :=
  le_antisymm (h'.word_le h) (h.word_le h')

/-- A number that is set is in no clear run. -/
theorem not_clear {t : ℕ} (hset : tableBit bits t = true) (hk : k ≤ t) (ht : t < k + len) :
    ¬ Clear bits k len := by
  intro h
  have hclear := h (t - k) (by omega)
  rw [Nat.add_sub_cancel' hk, hset] at hclear
  cases hclear

/-- Behind a place there is a bit that is set before the next place. -/
theorem Tried.set_between (h : Tried size bits k) (h' : Tried size bits k') (hlt : k < k') :
    tableBit bits (k' - 1) = true := by
  have hword := h.word_eq h'
  exact h'.first.resolve_left (by omega)

/-! ### One step of the search -/

theorem scanRange_mono (h : scanRange size len bits fuel l = some r) :
    scanRange size len bits (fuel + 1) l = some r := by
  induction fuel generalizing l with
  | zero => cases h
  | succ fuel ih =>
    cases l with
    | word i =>
      rw [scanRange] at h ⊢
      by_cases hi : i < size / 64
      · by_cases hfull : bits i = allOnes 64
        · rw [if_pos hi, if_pos hfull] at h ⊢
          exact ih h
        · rw [if_pos hi, if_neg hfull] at h ⊢
          obtain ⟨j, hj, hr⟩ := Option.bind_eq_some_iff.1 h
          exact Option.bind_eq_some_iff.2 ⟨j, hj, ih hr⟩
      · rw [if_neg hi] at h ⊢
        exact h
    | again i temp j =>
      rw [scanRange] at h ⊢
      split_ifs at h ⊢ with hroom
      · exact h
      · cases hset : setRange fuel bits (bits i) (i * 64 + j) (i * 64 + j + len) i with
        | none =>
          rw [hset] at h
          cases h
        | some status =>
          rw [hset] at h
          rw [setRange_mono hset 1]
          cases status with
          | explicit =>
            obtain ⟨j₁, hj₁, hr⟩ := Option.bind_eq_some_iff.1 h
            refine Option.bind_eq_some_iff.2 ⟨j₁, hj₁, ?_⟩
            split_ifs at hr ⊢ with h64
            · exact ih hr
            · obtain ⟨j₂, hj₂, hr⟩ := Option.bind_eq_some_iff.1 hr
              exact Option.bind_eq_some_iff.2 ⟨j₂, hj₂, ih hr⟩
          | retry => exact ih h
          | started bits' => exact h

theorem scanRange_mono_add (h : scanRange size len bits fuel l = some r) (n : ℕ) :
    scanRange size len bits (fuel + n) l = some r := by
  induction n with
  | zero => exact h
  | succ n ih => exact scanRange_mono ih

theorem Returns.det {r' : ℤ × Words} (h : Returns size len bits l r) (h' : Returns size len bits l r') :
    r = r' := by
  obtain ⟨fuel, h⟩ := h
  obtain ⟨fuel', h'⟩ := h'
  have hr := scanRange_mono_add h fuel'
  rw [Nat.add_comm, scanRange_mono_add h' fuel] at hr
  exact (Option.some.inj hr).symm

theorem returns_step {l' : Label}
    (h : ∀ fuel, scanRange size len bits (fuel + 1) l = scanRange size len bits fuel l') :
    Returns size len bits l r ↔ Returns size len bits l' r := by
  constructor
  · rintro ⟨_ | fuel, hr⟩
    · cases hr
    · exact ⟨fuel, h fuel ▸ hr⟩
  · exact fun ⟨fuel, hr⟩ => ⟨fuel + 1, (h fuel).trans hr⟩

/-- The next place from the bit `j` of a word on: the next bit that is set, and the next clear one. -/
def Next (word : BitVec 64) (j j' : ℕ) : Prop :=
  ∃ j₁, ctzl (word &&& allOnes 64 <<< j) = some j₁ ∧ ctzl (~~~word &&& allOnes 64 <<< j₁) = some j'

/-- **What happens at a place**: the search ends there, or it goes on at the next place. -/
theorem returns_again : Returns size len bits (.again (k / 64) temp (k % 64)) r ↔
    Ends size len bits k r ∨ Passes size len bits k ∧
      ∃ j, Next temp (k % 64) j ∧ Returns size len bits (.again (k / 64) temp j) r := by
  have hk : k / 64 * 64 + k % 64 = k := by omega
  constructor
  · rintro ⟨_ | fuel, h⟩
    · cases h
    · rw [scanRange, hk, Nat.mod_mod] at h
      split_ifs at h with hroom
      · rw [← Option.some.inj h]
        exact Or.inl (.noRoom (by omega))
      · match hset : setRange fuel bits (bits (k / 64)) k (k + len) (k / 64) with
        | none =>
          rw [hset] at h
          cases h
        | some status =>
          rw [hset] at h
          have hroom' : k + len ≤ size := by omega
          obtain ⟨hent, rfl⟩ | ⟨hent, hblocked, rfl⟩ | ⟨hent, hin, hclear, rfl⟩ := setRange_cases hset
          · rw [← Option.some.inj h]
            exact Or.inl (.idle hroom' hent)
          · obtain ⟨j₁, hj₁, h⟩ := Option.bind_eq_some_iff.1 h
            have hlt := BitVec.lt_of_getLsbD (ctzl_and_shift.1 hj₁).2.1
            rw [if_neg hlt.ne] at h
            obtain ⟨j₂, hj₂, h⟩ := Option.bind_eq_some_iff.1 h
            exact Or.inr ⟨⟨hroom', hent, hblocked⟩, j₂, ⟨j₁, hj₁, hj₂⟩, fuel, h⟩
          · rw [← Option.some.inj h]
            exact Or.inl (.found hroom' hent hin hclear)
  · rintro (hends | ⟨⟨hroom, hent, hblocked⟩, j₂, ⟨j₁, hj₁, hj₂⟩, fuel, h⟩)
    · refine ⟨0 + 2 + 1, ?_⟩
      rw [scanRange, hk]
      cases hends with
      | noRoom h => exact if_pos (Or.inr h)
      | idle hroom h => rw [if_neg (by omega), setRange_of_not_enters h]
      | found hroom hent hin h => rw [if_neg (by omega), setRange_inside hent hin, if_pos h]
    · have hlt := BitVec.lt_of_getLsbD (ctzl_and_shift.1 hj₁).2.1
      refine ⟨fuel + 2 + 1, ?_⟩
      rw [scanRange, hk, if_neg (by omega), setRange_blocked hent hblocked, Nat.mod_mod]
      dsimp only
      rw [hj₁, Option.bind_some, if_neg hlt.ne, hj₂, Option.bind_some]
      exact scanRange_mono_add h 2

/-! ### The search in a word -/

/-- **The next place** is the next one where the search tries. -/
theorem Tried.next (h : Tried size bits k) (hnext : Next (bits (k / 64)) (k % 64) j) :
    j < 64 ∧ k % 64 < j ∧ Tried size bits (k / 64 * 64 + j) ∧
      ∀ k', k < k' → k' < k / 64 * 64 + j → ¬ Tried size bits k' := by
  obtain ⟨j₁, hj₁, hj⟩ := hnext
  obtain ⟨hle, hset, hlow⟩ := ctzl_and_shift.1 hj₁
  obtain ⟨hle', hclear, hlow'⟩ := ctzl_and_shift.1 hj
  have hj64 : j < 64 := BitVec.lt_of_getLsbD hclear
  -- the bits from the first one that is set to the next place are set, those before are clear
  have hsets : ∀ t, j₁ ≤ t → t < j → tableBit bits (k / 64 * 64 + t) = true := fun t ht htj => by
    have hnot := hlow' t htj ht
    rw [BitVec.getLsbD_not, decide_eq_true (htj.trans hj64), Bool.true_and, Bool.not_eq_false'] at hnot
    rw [tableBit_word (htj.trans hj64)]
    exact hnot
  have hclears : ∀ t, k % 64 ≤ t → t < j₁ → tableBit bits (k / 64 * 64 + t) = false := fun t ht htj => by
    rw [tableBit_word (by omega)]
    exact hlow t htj ht
  have hplace : tableBit bits (k / 64 * 64 + j) = false := by
    rw [BitVec.getLsbD_not, decide_eq_true hj64, Bool.true_and, Bool.not_eq_true'] at hclear
    rw [tableBit_word hj64]
    exact hclear
  have hlt : j₁ < j := lt_of_le_of_ne hle' fun heq => by
    rw [heq, ← tableBit_word hj64, hplace] at hset
    cases hset
  have hk := h.lt
  refine ⟨hj64, by omega, ⟨by omega, fun t ht => h.full t (by omega), hplace, Or.inr ?_⟩,
    fun k' hlow hhigh h' => ?_⟩
  · have hlast : k / 64 * 64 + j - 1 = k / 64 * 64 + (j - 1) := by omega
    rw [hlast]
    exact hsets _ (by omega) (by omega)
  · obtain ⟨t, ht⟩ : ∃ t, k' = k / 64 * 64 + t := ⟨k' - k / 64 * 64, by omega⟩
    subst ht
    by_cases hbefore : t ≤ j₁
    · -- the bit before is clear
      have hone := h.set_between h' hlow
      have hprev : k / 64 * 64 + t - 1 = k / 64 * 64 + (t - 1) := by omega
      rw [hprev, hclears _ (by omega) (by omega)] at hone
      cases hone
    · have hone := h'.clear
      rw [hsets t (by omega) (by omega)] at hone
      cases hone

theorem Tried.exists_next (h : Tried size bits k) (h' : Tried size bits k') (hlt : k < k') :
    ∃ j, Next (bits (k / 64)) (k % 64) j := by
  have hword := h.word_eq h'
  have hone := h.set_between h' hlt
  have hprev : k' - 1 = k / 64 * 64 + (k' % 64 - 1) := by
    have hne : k' % 64 ≠ 0 := by omega
    omega
  rw [hprev, tableBit_word (by omega)] at hone
  have hzero := h'.clear
  have hplace : k' = k / 64 * 64 + k' % 64 := by omega
  rw [hplace, tableBit_word (by omega)] at hzero
  obtain ⟨j₁, hj₁⟩ : ∃ j₁, ctzl (bits (k / 64) &&& allOnes 64 <<< (k % 64)) = some j₁ := by
    refine Option.ne_none_iff_exists'.1 fun hnone => ?_
    have hbit := ctzl_eq_none.1 hnone (k' % 64 - 1) (by omega)
    rw [getLsbD_and_shift (by omega), hone, decide_eq_true (by omega)] at hbit
    cases hbit
  have hj₁le : j₁ ≤ k' % 64 - 1 := not_lt.1 fun hgt => by
    have hbit := (ctzl_and_shift.1 hj₁).2.2 _ hgt (by omega)
    rw [hone] at hbit
    cases hbit
  obtain ⟨j, hj⟩ : ∃ j, ctzl (~~~bits (k / 64) &&& allOnes 64 <<< j₁) = some j := by
    refine Option.ne_none_iff_exists'.1 fun hnone => ?_
    have hbit := ctzl_eq_none.1 hnone (k' % 64) (by omega)
    rw [getLsbD_and_shift (by omega), BitVec.getLsbD_not, hzero, decide_eq_true (by omega),
      decide_eq_true (by omega)] at hbit
    cases hbit
  exact ⟨j, j₁, hj₁, hj⟩

/-- **The search in a word** passes some places and ends at the next one. -/
theorem Tried.returns_again_iff (h : Tried size bits k) :
    Returns size len bits (.again (k / 64) (bits (k / 64)) (k % 64)) r ↔
      ∃ k', k ≤ k' ∧ Tried size bits k' ∧
        (∀ m, k ≤ m → m < k' → Tried size bits m → Passes size len bits m) ∧ Ends size len bits k' r := by
  -- the induction is on the distance of the place to the end of the word
  induction hd : 64 - k % 64 using Nat.strong_induction_on generalizing k with
  | _ d ih =>
    rw [returns_again]
    constructor
    · rintro (hends | ⟨hpass, j, hnext, hret⟩)
      · exact ⟨k, le_rfl, h, fun m hle hlt => absurd hlt (not_lt.2 hle), hends⟩
      · obtain ⟨hj, hkj, htried, hnone⟩ := h.next hnext
        have hdiv : (k / 64 * 64 + j) / 64 = k / 64 := by omega
        have hmod : (k / 64 * 64 + j) % 64 = j := by omega
        have hrest := ih (64 - (k / 64 * 64 + j) % 64) (by omega) htried rfl
        rw [hdiv, hmod] at hrest
        obtain ⟨k', hle, htried', hpass', hends⟩ := hrest.1 hret
        refine ⟨k', by omega, htried', fun m hkm hmk hm => ?_, hends⟩
        by_cases heq : m = k
        · exact heq ▸ hpass
        · exact hpass' m (not_lt.1 fun hlt => hnone m (by omega) hlt hm) hmk hm
    · rintro ⟨k', hle, htried', hpass, hends⟩
      by_cases heq : k' = k
      · exact Or.inl (heq ▸ hends)
      · have hlt : k < k' := by omega
        obtain ⟨j, hnext⟩ := h.exists_next htried' hlt
        obtain ⟨hj, hkj, htried, hnone⟩ := h.next hnext
        have hdiv : (k / 64 * 64 + j) / 64 = k / 64 := by omega
        have hmod : (k / 64 * 64 + j) % 64 = j := by omega
        have hrest := ih (64 - (k / 64 * 64 + j) % 64) (by omega) htried rfl
        rw [hdiv, hmod] at hrest
        refine Or.inr ⟨hpass k le_rfl hlt h, j, hnext, hrest.2 ⟨k', ?_, htried', fun m hm => ?_, hends⟩⟩
        · exact not_lt.1 fun hgt => hnone k' hlt hgt htried'
        · exact hpass m (by omega)

/-! ### The search -/

theorem tableBit_of_full {t : ℕ} (h : bits (t / 64) = allOnes 64) : tableBit bits t = true := by
  rw [tableBit, h, BitVec.getLsbD_allOnes]
  exact decide_eq_true (Nat.mod_lt _ (by decide))

theorem returns_word_iff (hi : i ≤ size / 64) (hfull : ∀ t < i * 64, tableBit bits t = true) :
    Returns size len bits (.word i) r ↔
      ((∀ t < size / 64 * 64, tableBit bits t = true) ∧ r = (-1, bits)) ∨
        ∃ k, Tried size bits k ∧ (∀ m < k, Tried size bits m → Passes size len bits m) ∧
          Ends size len bits k r := by
  induction hd : size / 64 - i generalizing i with
  | zero =>
    have hend : scanRange size len bits (0 + 1) (.word i) = some (-1, bits) := if_neg (by omega)
    have hall : ∀ t < size / 64 * 64, tableBit bits t = true := fun t ht => hfull t (by omega)
    constructor
    · exact fun hret => Or.inl ⟨hall, hret.det ⟨_, hend⟩⟩
    · rintro (⟨-, rfl⟩ | ⟨k, htried, -⟩)
      · exact ⟨_, hend⟩
      · have hone := hall k htried.lt
        rw [htried.clear] at hone
        cases hone
  | succ d ih =>
    have hlt : i < size / 64 := by omega
    by_cases hword : bits i = allOnes 64
    · have hstep (fuel : ℕ) : scanRange size len bits (fuel + 1) (.word i) =
          scanRange size len bits fuel (.word (i + 1)) := by
        rw [scanRange, if_pos hlt, if_pos hword]
      rw [returns_step hstep]
      refine ih (by omega) (fun t ht => ?_) (by omega)
      by_cases hti : t < i * 64
      · exact hfull t hti
      · have hdiv : t / 64 = i := by omega
        exact tableBit_of_full (hdiv.symm ▸ hword)
    · obtain ⟨j, hj⟩ : ∃ j, ctzl (~~~bits i) = some j := by
        refine Option.ne_none_iff_exists'.1 fun hnone => hword (BitVec.eq_of_getLsbD_eq fun t ht => ?_)
        have hbit := ctzl_eq_none.1 hnone t ht
        rw [BitVec.getLsbD_not, decide_eq_true ht, Bool.true_and, Bool.not_eq_false'] at hbit
        rw [hbit, BitVec.getLsbD_allOnes, decide_eq_true ht]
      obtain ⟨hj64, hclear, hlow⟩ := ctzl_not_eq_some.1 hj
      have hdiv : (i * 64 + j) / 64 = i := by omega
      have hmod : (i * 64 + j) % 64 = j := by omega
      -- the first clear bit is the first place, and there is none before
      have htried : Tried size bits (i * 64 + j) := by
        refine ⟨by omega, fun t ht => hfull t (by omega), hclear, ?_⟩
        by_cases hzero : j = 0
        · exact Or.inl (by omega)
        · have hprev : i * 64 + j - 1 = i * 64 + (j - 1) := by omega
          exact Or.inr (hprev.symm ▸ hlow (j - 1) (by omega))
      have hfirst : ∀ m, Tried size bits m → i * 64 + j ≤ m := fun m hm => not_lt.1 fun hgt => by
        have hdivm := htried.word_eq hm
        obtain ⟨t, rfl⟩ : ∃ t, m = i * 64 + t := ⟨m - i * 64, by omega⟩
        have hone := hlow t (by omega)
        rw [hm.clear] at hone
        cases hone
      have hstep (fuel : ℕ) : scanRange size len bits (fuel + 1) (.word i) =
          scanRange size len bits fuel (.again i (bits i) j) := by
        rw [scanRange, if_pos hlt, if_neg hword, hj, Option.bind_some]
      have hsearch : Returns size len bits _ r ↔ _ := htried.returns_again_iff
      rw [hdiv, hmod] at hsearch
      rw [returns_step hstep, hsearch]
      constructor
      · rintro ⟨k, -, hk, hpass, hends⟩
        exact Or.inr ⟨k, hk, fun m hm htm => hpass m (hfirst m htm) hm htm, hends⟩
      · rintro (⟨hall, -⟩ | ⟨k, hk, hpass, hends⟩)
        · rw [hall _ htried.lt] at hclear
          cases hclear
        · exact ⟨k, hfirst k hk, hk, fun m _ hm => hpass m hm, hends⟩

/-- **What `scan_and_set(len)` returns**: -1 if all whole words are full, and otherwise what it ends with at
the first place that it does not pass. -/
theorem returns_iff : Returns size len bits (.word 0) r ↔
    ((∀ t < size / 64 * 64, tableBit bits t = true) ∧ r = (-1, bits)) ∨
      ∃ k, Tried size bits k ∧ (∀ m < k, Tried size bits m → Passes size len bits m) ∧
        Ends size len bits k r :=
  returns_word_iff (Nat.zero_le _) fun t ht => absurd ht (by omega)

/-! ### When the two functions are right -/

/-- A run of `len` bits that ends inside the first word that is not full. -/
def Finds (size len : ℕ) (bits : Words) : Prop :=
  ∃ k, Tried size bits k ∧ Inside k len ∧ Clear bits k len ∧ (k < 2 ^ 31 ∨ len = 0 ∧ 0 ≤ toInt k)

/-- All whole words are full, or there is no room behind a place in the first word that is not full.  For
numbers that are no `int`s it depends on the comparison of the transaction, too. -/
def GivesUp (size len : ℕ) (bits : Words) : Prop :=
  (∀ t < size / 64 * 64, tableBit bits t = true) ∨
    ∃ k, Tried size bits k ∧ (∀ m < k, Tried size bits m → Enters m len) ∧
      (size < k + len ∨ toInt k = -1 ∧ ¬ Enters k len)

theorem enters_of_nonneg (hword : k / 64 = k' / 64) (hint : 0 ≤ toInt k) (hlen : k' % 64 + len < 64) :
    Enters k' len := by
  have hstop : k' / 64 = (k' + len) / 64 := by omega
  rw [Enters, if_pos hstop, continues_iff]
  unfold Mmap.toInt at *
  rw [Int.bmod_def] at *
  rw [Int.bmod_def]
  split_ifs at * <;> omega

theorem toInt_neg_of_not_enters (h : ¬ Enters k 0) : toInt k < 0 := by
  rw [Enters, Nat.add_zero, if_pos rfl, continues_iff] at h
  unfold Mmap.toInt at *
  rw [Int.bmod_def] at *
  rw [Int.bmod_def] at h
  split_ifs at * <;> omega

/-- The run that is set is determined by the change. -/
theorem SetExactly.eq (hlen : 1 ≤ len) (hclear : Clear bits k len) (h : SetExactly bits k len bits')
    (hclear' : Clear bits k' len) (h' : SetExactly bits k' len bits') : k = k' := by
  have hfirst : ∀ {a b : ℕ}, Clear bits a len → SetExactly bits a len bits' → SetExactly bits b len bits' →
      b ≤ a := fun {a b} hc ha hb => by
    have hbit := ha a
    rw [hb a, if_pos (show a ≤ a ∧ a < a + len by omega), ← Nat.add_zero a, hc 0 hlen, Nat.add_zero] at hbit
    split_ifs at hbit with hin
    exact hin.1
  exact le_antisymm (hfirst hclear' h' h) (hfirst hclear h h')

theorem not_setExactly_self (hlen : 1 ≤ len) (hclear : Clear bits k len) : ¬ SetExactly bits k len bits :=
  fun h => by
    have hbit := h k
    rw [if_pos (by omega), ← Nat.add_zero k, hclear 0 hlen] at hbit
    cases hbit

theorem finds_or_givesUp (hret : Returns size len bits (.word 0) r) (h : FindsRun size len bits r) :
    Finds size len bits ∨
      (∀ k, k + len ≤ size → ¬ Clear bits k len) ∧ GivesUp size len bits := by
  rcases returns_iff.1 hret with ⟨hall, rfl⟩ | ⟨k, hk, hpass, hends⟩
  · rcases h with ⟨k, -, -, hneg, -⟩ | ⟨hnone, -⟩
    · dsimp only at hneg
      omega
    · exact Or.inr ⟨hnone, Or.inl hall⟩
  · have hent : ∀ m < k, Tried size bits m → Enters m len := fun m hm htm => (hpass m hm htm).enters
    cases hends with
    | noRoom hroom =>
      rcases h with ⟨k', -, -, hneg, -⟩ | ⟨hnone, -⟩
      · dsimp only at hneg
        omega
      · exact Or.inr ⟨hnone, Or.inr ⟨k, hk, hent, Or.inl hroom⟩⟩
    | idle hroom hidle =>
      rcases h with ⟨k', -, hclear, hint, hset⟩ | ⟨hnone, hr⟩
      · dsimp only at hint hset
        rcases Nat.eq_zero_or_pos len with rfl | hlen
        · have hneg := toInt_neg_of_not_enters hidle
          omega
        · exact absurd hset (not_setExactly_self hlen hclear)
      · exact Or.inr ⟨hnone, Or.inr ⟨k, hk, hent, Or.inr ⟨(Prod.mk.inj hr).1, hidle⟩⟩⟩
    | found hroom _ hin hclear =>
      rcases h with ⟨k', -, hclear', hint, hset⟩ | ⟨hnone, -⟩
      · dsimp only at hint hset
        refine Or.inl ⟨k, hk, hin, hclear, ?_⟩
        rcases Nat.eq_zero_or_pos len with rfl | hlen
        · exact Or.inr ⟨rfl, by omega⟩
        · have hlt := toInt_lt k
          have hsame := SetExactly.eq hlen hclear (setExactly_runMask hin.2.le) hclear' hset
          exact Or.inl (by omega)
      · exact absurd hclear (hnone k hroom)

/-- The first place that is not passed. -/
theorem exists_first_not_passed (hk : Tried size bits k) (h : ¬ Passes size len bits k) :
    ∃ m ≤ k, Tried size bits m ∧ ¬ Passes size len bits m ∧
      ∀ m' < m, Tried size bits m' → Passes size len bits m' := by
  classical
  have hex : ∃ m, Tried size bits m ∧ ¬ Passes size len bits m := ⟨k, hk, h⟩
  refine ⟨Nat.find hex, Nat.find_min' hex ⟨hk, h⟩, (Nat.find_spec hex).1, (Nat.find_spec hex).2,
    fun m' hm' htried => by_contra fun hpass => Nat.find_min hex hm' ⟨htried, hpass⟩⟩

theorem scanRight_of_finds (h : Finds size len bits) : ScanRight size len bits := by
  obtain ⟨k, hk, hin, hclear, hint⟩ := h
  have hnot : ¬ Passes size len bits k := fun hp => hp.blocked (by rwa [piece, if_pos hin])
  obtain ⟨m, hmk, hm, hnotm, hpass⟩ := exists_first_not_passed hk hnot
  have hword := hk.word_eq hm
  have hlt := hin.2
  have hsize := hk.lt
  have hroom : m + len ≤ size := by omega
  have hnonneg : 0 ≤ toInt k := by
    rcases hint with hint | ⟨-, hint⟩
    · rw [toInt_of_lt hint]
      omega
    · exact hint
  have hent : Enters m len := enters_of_nonneg hword hnonneg (by omega)
  have hblocked : Clear bits m (piece m len) := by_contra fun hb => hnotm ⟨hroom, hent, hb⟩
  have hinm : Inside m len := by
    by_contra hout
    rw [piece, if_neg hout] at hblocked
    unfold Inside at hout hin
    -- the whole word is clear, but there is a place behind its beginning
    have hone := hm.set_between hk (by omega)
    exact not_clear hone (by omega) (by omega) hblocked
  rw [piece, if_pos hinm] at hblocked
  refine ⟨_, returns_iff.2 (Or.inr ⟨m, hm, hpass, .found hroom hent hinm hblocked⟩), Or.inl ?_⟩
  have hset : SetExactly bits .. := setExactly_runMask hinm.2.le
  rcases hint with hint | ⟨rfl, hint⟩
  · refine ⟨m, hroom, hblocked, ?_, hset⟩
    dsimp only
    exact toInt_of_lt (by omega)
  · -- an empty run begins anywhere
    have hm0 : 0 ≤ toInt m ∧ toInt m ≤ m := by
      unfold Mmap.toInt at *
      rw [Int.bmod_def] at *
      split_ifs at * <;> omega
    refine ⟨(toInt m).toNat, by omega, fun t ht => absurd ht (by omega), by dsimp only; omega, fun t => ?_⟩
    rw [hset t, if_neg (by omega), if_neg (by omega)]

theorem scanRight_of_givesUp (hnone : ∀ k, k + len ≤ size → ¬ Clear bits k len)
    (h : GivesUp size len bits) : ScanRight size len bits := by
  refine ⟨(-1, bits), returns_iff.2 ?_, Or.inr ⟨hnone, rfl⟩⟩
  rcases h with hall | ⟨k, hk, hent, hend⟩
  · exact Or.inl ⟨hall, rfl⟩
  · have hnot : ¬ Passes size len bits k := fun hp => by
      rcases hend with hroom | ⟨-, hidle⟩
      · exact absurd hp.room (by omega)
      · exact hidle hp.enters
    obtain ⟨m, hmk, hm, hnotm, hpass⟩ := exists_first_not_passed hk hnot
    refine Or.inr ⟨m, hm, hpass, ?_⟩
    by_cases hroom : m + len ≤ size
    · rcases Nat.lt_or_eq_of_le hmk with hlt | rfl
      · -- the place is blocked by a bit before the next place, or is a run that does not exist
        refine absurd ⟨hroom, hent m hlt hm, fun hblocked => ?_⟩ hnotm
        have hword := hm.word_eq hk
        by_cases hin : Inside m len
        · rw [piece, if_pos hin] at hblocked
          exact hnone m hroom hblocked
        · rw [piece, if_neg hin] at hblocked
          exact not_clear (hm.set_between hk hlt) (by omega) (by omega) hblocked
      · rcases hend with hend | ⟨hneg, hidle⟩
        · omega
        · exact hneg ▸ .idle hroom hidle
    · exact .noRoom (by omega)

/-- **When `scan_and_set(len)` is right.** -/
theorem scanRight_iff : ScanRight size len bits ↔
    Finds size len bits ∨
      (∀ k, k + len ≤ size → ¬ Clear bits k len) ∧ GivesUp size len bits :=
  ⟨fun ⟨_, hret, h⟩ => finds_or_givesUp hret h,
    fun h => h.elim scanRight_of_finds fun ⟨hnone, hgives⟩ => scanRight_of_givesUp hnone hgives⟩

/-- **When `set` and `scan_and_set(len)` are right.**  `set` is right exactly if some bit of the range is set
and no zeros of 0 are counted.  `scan_and_set(len)` is right exactly if the first word that is not full has a
clear run of `len` bits that ends inside it, or if there is no clear run of `len` bits at all and the search
gives up. -/
theorem setRight_and_scanRight_iff (size start len : ℕ) (bits : Words) :
    (SetRight size start len bits ↔ ¬ Clear bits start len ∧ ¬ CountsZero bits start len) ∧
      (ScanRight size len bits ↔ Finds size len bits ∨
        (∀ k, k + len ≤ size → ¬ Clear bits k len) ∧ GivesUp size len bits) :=
  ⟨setRight_iff, scanRight_iff⟩

/-- All bits of each word are set but the first. -/
def oneClear : Words := fun _ => BitVec.allOnes 64 <<< 1

/-- `set(0, 1, BIT_SET_FORCE)` in an empty bitmap of one word is not right, `scan_and_set(1)` returns -1 in
an empty bitmap of one bit, and `scan_and_set(2)` is undefined in a bitmap of two words in which only the
bits 0 and 64 are clear. -/
theorem set_and_scan_fail : ¬ SetRight 64 0 1 (fun _ => 0#64) ∧
    (Returns 1 1 (fun _ => 0#64) (.word 0) (-1, fun _ => 0#64) ∧ ¬ ScanRight 1 1 fun _ => 0#64) ∧
    ¬ ScanRight 128 2 oneClear := by
  have hclear : Clear (fun _ => 0#64) 0 1 := fun _ _ => BitVec.getLsbD_zero
  refine ⟨fun h => (setRight_iff.1 h).1 hclear, ⟨⟨1, rfl⟩, fun h => ?_⟩, fun h => ?_⟩
  · rcases scanRight_iff.1 h with ⟨k, hk, -⟩ | ⟨hnone, -⟩
    · exact absurd hk.lt (by omega)
    · exact hnone 0 le_rfl hclear
  · -- the only place is 0, and it is neither free nor without room
    have hplace : ∀ k, Tried 128 oneClear k → k = 0 := fun k hk => by
      have hzero : Tried 128 oneClear 0 := ⟨by decide, fun t ht => absurd ht (by omega), rfl, Or.inl rfl⟩
      have hword := hk.word_eq hzero
      by_contra hne
      have hbits : ∀ t < 64, t ≠ 0 → tableBit oneClear t = true := by decide
      have hone := hbits k (by omega) hne
      rw [hk.clear] at hone
      cases hone
    rcases scanRight_iff.1 h with ⟨k, hk, -, hclear, -⟩ | ⟨-, hall | ⟨k, hk, -, hend⟩⟩
    · rw [hplace k hk] at hclear
      exact absurd (hclear 1 (by decide)) (by decide)
    · exact absurd (hall 0 (by decide)) (by decide)
    · rw [hplace k hk] at hend
      exact absurd hend (by decide)

end Bitmap

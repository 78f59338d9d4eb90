/-
**Which pages `allocPages` comes to.**

The loop of `allocPages` starts at the clock, goes up to the index one past the last page, starts over at
index 0 with a new count and stops when it is back where it began.  It comes to the first run of clear bits
at or behind the clock and, only if there is none, to the first one before the clock.  `explicitPage` then
checks where the run ends, with a length that it computes as an `int`.

Main definitions: `Finds`, `Vacant`, `ReachesAt`.  Main results: `scan_exact`, `explicitPage_eq`,
`allocPages_spec`.
-/

import SgxElps.Mmap.Basic
import SgxElps.Lib.Runs

namespace Mmap

open PageManager

variable {pm : PageManager} {start n first : ℕ} {nPages : ℤ}

/-! ### The loop -/

/-- **The search for `n` pages from index `start` on comes to `first`**: there the first run at or behind
`start` begins, the bit past the last page included, or, if there is none, the first run before `start`. -/
def Finds (pm : PageManager) (start n first : ℕ) : Prop :=
  Runs.First pm.getBit start (pm.pages + 1) n first ∨
    (¬ Runs.Free pm.getBit start (pm.pages + 1) n ∧ Runs.First pm.getBit 0 start n first)

namespace Finds

theorem clear (h : Finds pm start n first) : ∀ i < n, pm.getBit (first + i) = false :=
  h.elim (fun h => h.clear) fun h => h.2.clear

theorem le (h : Finds pm start n first) (hstart : start ≤ pm.pages) : first + n ≤ pm.pages + 1 :=
  h.elim (fun h => h.le) fun h => h.2.le.trans (hstart.trans (Nat.le_succ _))

theorem unique {first' : ℕ} (h : Finds pm start n first) (h' : Finds pm start n first') :
    first = first' := by
  rcases h with h | ⟨hno, h⟩ <;> rcases h' with h' | ⟨hno', h'⟩
  · exact Nat.le_antisymm (h.le_first h') (h'.le_first h)
  · exact absurd h.free hno'
  · exact absurd h'.free hno
  · exact Nat.le_antisymm (h.le_first h') (h'.le_first h)

end Finds

/-- How the search has come to index `clock`: it counts from `lo`, which is where it began or, behind
the end of the bitmap, zero; the bits it has passed hold no run. -/
structure Scanning (pm : PageManager) (start n lo clock nConsec : ℕ) : Prop where
  tail : Runs.Tail pm.getBit lo clock nConsec
  none_yet : ¬ Runs.Free pm.getBit lo clock n
  phase : (lo = start ∧ start ≤ clock) ∨
    (lo = 0 ∧ clock < start ∧ ¬ Runs.Free pm.getBit start (pm.pages + 1) n)

/-- Which run the loop has found, if any. -/
inductive ScanExact (pm : PageManager) (start n : ℕ) : Option Scan → Prop
  | found {clock first : ℕ} (hend : first + n = clock + 1) (h : Finds pm start n first) :
      ScanExact pm start n (some (.found clock))
  | exhausted (hbehind : ¬ Runs.Free pm.getBit start (pm.pages + 1) n)
      (hbefore : ¬ Runs.Free pm.getBit 0 start n) :
      ScanExact pm start n (some (.exhausted start))

/-- The number of rounds left: the clock has to come back to `start`. -/
def roundsLeft (pages start clock : ℕ) : ℕ :=
  if clock < start then start - clock else pages + 1 - clock + start

theorem roundsLeft_start {pages : ℕ} (h : start ≤ pages) :
    roundsLeft pages start start ≤ pages + 1 := by
  unfold roundsLeft
  split <;> omega

/-- **Which run the loop finds.**  The induction is on the rounds that are left. -/
theorem scan_exact (hn : 0 < n) (hstart : start ≤ pm.pages) : ∀ fuel clock nConsec lo,
    clock ≤ pm.pages → nConsec < n → Scanning pm start n lo clock nConsec →
      roundsLeft pm.pages start clock ≤ fuel →
        ScanExact pm start n (pm.scan start n fuel clock nConsec) := by
  intro fuel
  induction fuel with
  | zero =>
    intro clock nConsec lo hclock _ _ hfuel
    unfold roundsLeft at hfuel
    split at hfuel <;> omega
  | succ fuel ih =>
    intro clock nConsec lo hclock hlt h hfuel
    have htail := h.tail.next
    have hle : (if pm.getBit clock then 0 else nConsec + 1) ≤ n := by split <;> omega
    simp only [scan]
    generalize (if pm.getBit clock then 0 else nConsec + 1) = nConsec' at htail hle
    by_cases hfound : nConsec' = n
    · rw [if_pos hfound]
      subst hfound
      have hend : clock + 1 - nConsec' + nConsec' = clock + 1 :=
        Nat.sub_add_cancel ((Nat.le_add_left ..).trans htail.le)
      rcases h.phase with ⟨rfl, -⟩ | ⟨rfl, hbefore, hbehind⟩
      · exact .found hend (.inl (htail.first h.none_yet (Nat.lt_succ_of_le hclock)))
      · exact .found hend (.inr ⟨hbehind, htail.first h.none_yet hbefore⟩)
    · rw [if_neg hfound]
      have hlt' : nConsec' < n := lt_of_le_of_ne hle hfound
      have hno := htail.not_free hlt' h.none_yet
      unfold roundsLeft at hfuel
      by_cases hwrap : clock + 1 > pm.pages
      · -- the bits from `start` on are done
        obtain rfl : clock = pm.pages := by omega
        have hbehind : ¬ Runs.Free pm.getBit start (pm.pages + 1) n := by
          rcases h.phase with ⟨rfl, -⟩ | ⟨-, -, hbehind⟩
          · exact hno
          · exact hbehind
        simp only [hwrap, ↓reduceIte]
        split
        · next hzero =>
          subst hzero
          exact .exhausted hbehind (Runs.not_free_of_lt (by omega))
        · refine ih 0 0 0 (Nat.zero_le _) hn ⟨.start _ 0, Runs.not_free_of_lt (by omega), ?_⟩ ?_
          · exact Or.inr ⟨rfl, by omega, hbehind⟩
          · unfold roundsLeft
            split at hfuel <;> split <;> omega
      · simp only [hwrap, ↓reduceIte]
        rcases h.phase with ⟨rfl, hge⟩ | ⟨rfl, hbefore, hbehind⟩
        · rw [if_neg (by omega)]
          refine ih (clock + 1) nConsec' _ (by omega) hlt' ⟨htail, hno, Or.inl ⟨rfl, by omega⟩⟩ ?_
          unfold roundsLeft
          split at hfuel <;> split <;> omega
        · split
          · next hback => exact hback ▸ .exhausted (hback ▸ hbehind) hno
          · refine ih (clock + 1) nConsec' 0 (by omega) hlt'
              ⟨htail, hno, Or.inr ⟨rfl, by omega, hbehind⟩⟩ ?_
            unfold roundsLeft
            split at hfuel <;> split <;> omega

/-! ### `explicitPage` -/

/-- Whole pages, and one more, within the address space. -/
structure Sized (pm : PageManager) : Prop where
  length_eq : pm.availableLength = 4096 * pm.pages
  fits : pm.availableBase + pm.availableLength + 4096 < 2 ^ 64

/-- The `nPages` pages from `first` on seem to end in the heap: their length is computed as an `int`, which
has of the number of pages what is left modulo `2 ^ 20`. -/
def EndsInside (pm : PageManager) (first : ℕ) (nPages : ℤ) : Prop :=
  (pm.availableBase + 4096 * (first + nPages.bmod (2 ^ 20)) : ℤ) % 2 ^ 64 ≤
    pm.availableBase + pm.availableLength

/-- **`explicitPage` takes the `nPages` pages from `first` on to be free pages of the heap.** -/
def Vacant (pm : PageManager) (first : ℕ) (nPages : ℤ) : Prop :=
  EndsInside pm first nPages ∧ ∀ i < nPages.toNat, pm.getBit (first + i) = false

instance Vacant.decidable (pm : PageManager) (first : ℕ) (nPages : ℤ) : Decidable (Vacant pm first nPages) :=
  inferInstanceAs (Decidable (_ ≤ _ ∧ ∀ i < nPages.toNat, pm.getBit (first + i) = false))

theorem endsInside_iff (hs : Sized pm) (hn : first + n ≤ pm.pages + 1) (hint : n * 4096 < 2 ^ 31) :
    EndsInside pm first n ↔ first + n ≤ pm.pages := by
  have hlen := hs.length_eq
  have hfits := hs.fits
  have hmod : (n : ℤ).bmod (2 ^ 20) = n := Int.bmod_eq_of_le (by omega) (by omega)
  rw [EndsInside, hmod]
  omega

/-- **What `explicitPage` does.** -/
theorem explicitPage_eq (hs : Sized pm) (hfirst : 4096 * first < 2 ^ 64) :
    pm.explicitPage (pm.availableBase + 4096 * first) nPages =
      if Vacant pm first nPages then (pm.setBits first true nPages.toNat, true) else (pm, false) := by
  have hfits := hs.fits
  have hlength : toInt (nPages * 4096) = 4096 * nPages.bmod (2 ^ 20) := by
    rw [toInt, Int.bmod_def, Int.bmod_def]
    split <;> split <;> omega
  have hend : (pm.availableBase + 4096 * first < pm.availableBase ∨
      (pm.availableBase + pm.availableLength) % 2 ^ 64 <
        (pm.availableBase + 4096 * first + toSize (toInt (nPages * 4096))) % 2 ^ 64) ↔
      ¬ EndsInside pm first nPages := by
    rw [hlength, toSize, EndsInside]
    omega
  unfold explicitPage
  rw [toSize_pageIndex hfirst]
  by_cases hin : EndsInside pm first nPages
  · rw [if_neg (mt hend.1 (not_not.2 hin))]
    by_cases hbits : ∀ i < nPages.toNat, pm.getBit (first + i) = false
    · rw [if_neg (by simpa using hbits), if_pos (show Vacant pm first nPages from ⟨hin, hbits⟩)]
    · rw [if_pos (by simpa using hbits), if_neg fun h : Vacant pm first nPages => hbits h.2]
  · rw [if_pos (hend.2 hin), if_neg fun h : Vacant pm first nPages => hin h.1]

/-! ### `allocPages` -/

/-- **The search for `nPages` pages comes to those from `first` on, and `explicitPage` takes them.** -/
structure ReachesAt (pm : PageManager) (nPages : ℤ) (first : ℕ) : Prop where
  pos : 0 < nPages
  finds : Finds pm pm.clock nPages.toNat first
  inside : EndsInside pm first nPages

/-- What `allocPages` returns. -/
inductive Allocated (pm : PageManager) (nPages : ℤ) : Option (PageManager × ℕ) → Prop
  | failed {clock : ℕ} (hc : clock ≤ pm.pages) (hno : ∀ first, ¬ ReachesAt pm nPages first) :
      Allocated pm nPages (some ({ pm with clock := clock }, mapFailed))
  | mapped {clock first : ℕ} (hc : clock ≤ pm.pages) (hat : ReachesAt pm nPages first) :
      Allocated pm nPages (some ({ pm with clock := clock }.setBits first true nPages.toNat,
        pm.availableBase + 4096 * first))

/-- **What `allocPages` does.** -/
theorem allocPages_spec (hs : Sized pm) (hclock : pm.clock ≤ pm.pages) (hpos : 0 < nPages) :
    Allocated pm nPages (pm.allocPages nPages) := by
  have hscan : ScanExact pm pm.clock nPages.toNat _ := scan_exact (by omega) hclock (pm.pages + 1) pm.clock 0
    pm.clock hclock (by omega) ⟨.start _ _, Runs.not_free_of_lt (by omega), .inl ⟨rfl, le_rfl⟩⟩
    (roundsLeft_start hclock)
  unfold allocPages
  rw [if_neg (by omega)]
  generalize pm.scan pm.clock nPages.toNat (pm.pages + 1) pm.clock 0 = result at hscan
  cases hscan with
  | exhausted hbehind hbefore =>
    exact .failed hclock fun first hat => hat.finds.elim (fun h => hbehind h.free) fun h => hbefore h.2.free
  | @found clock first hend hfinds =>
    have hle := hfinds.le hclock
    have hlen := hs.length_eq
    have hfits := hs.fits
    have hret : toSize (pm.availableBase + (clock - nPages + 1) * 4096) =
        pm.availableBase + 4096 * first := by
      rw [← toSize_of_lt (show pm.availableBase + 4096 * first < 2 ^ 64 by omega)]
      congr 1
      omega
    have hs' : Sized { pm with clock := clock } := ⟨hs.length_eq, hs.fits⟩
    have hexplicit : PageManager.explicitPage { pm with clock := clock }
        (pm.availableBase + 4096 * first) nPages = _ := explicitPage_eq hs' (by omega)
    dsimp only
    rw [hret, hexplicit]
    by_cases hin : EndsInside pm first nPages
    · rw [if_pos (show Vacant { pm with clock := clock } first nPages from ⟨hin, hfinds.clear⟩)]
      exact .mapped (by omega) ⟨hpos, hfinds, hin⟩
    · rw [if_neg fun h : Vacant { pm with clock := clock } first nPages => hin h.1]
      exact .failed (by omega) fun first' hat => hin (hfinds.unique hat.finds ▸ hat.inside)

end Mmap

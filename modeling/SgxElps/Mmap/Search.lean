/-
**When `allocPages` finds the pages that are there.**

The loop of `allocPages` starts at the clock, goes up to the index one past the last page, starts over
at index 0 with a new count and stops when it is back where it began.  It therefore finds a run of free
pages that lies at or behind the clock, or before it, but not one that the clock lies in the middle of.
And it gives up if the first run it finds ends at the index past the last page, since `explicitPage`
then refuses; whether it does depends on a bit that belongs to no page.

Main definitions: `Allocates`, `Reaches`.  Main result: `allocates_iff_reaches`.
-/

import SgxElps.Mmap.Invariant

namespace Mmap

open PageManager
open Option (some_inj)
open Transition

variable {pm : PageManager} {n : ℕ}

/-- Some `n` consecutive pages are free. -/
def FreePages (pm : PageManager) (n : ℕ) : Prop := Runs.Free pm.getBit 0 pm.pages n

/-- `allocPages` returns an address. -/
def Allocates (pm : PageManager) (n : ℕ) : Prop :=
  ∃ pm' p, pm.allocPages n = some (pm', p) ∧ p ≠ mapFailed

/-- The search comes to `n` pages of the heap. -/
def Reaches (pm : PageManager) (n : ℕ) : Prop :=
  ∃ first, Finds pm pm.clock n first ∧ first + n ≤ pm.pages

/-- **`allocPages` returns an address if and only if it reaches a run.** -/
theorem allocates_iff_reachesAt (hs : Sized pm) (hclock : pm.clock ≤ pm.pages) (hn : 0 < n) :
    Allocates pm n ↔ ∃ first, ReachesAt pm n first := by
  have hspec := allocPages_spec hs hclock (show (0 : ℤ) < n by omega)
  unfold Allocates
  generalize pm.allocPages n = result at hspec
  cases hspec with
  | failed hc hno =>
    refine iff_of_false ?_ (not_exists.2 hno)
    rintro ⟨pm', p, heq, hne⟩
    exact hne (Prod.mk.inj (some_inj.1 heq)).2.symm
  | @mapped clock first hc hat =>
    refine iff_of_true ⟨_, _, rfl, ?_⟩ ⟨first, hat⟩
    have hle := hat.finds.le hclock
    have hlen := hs.length_eq
    have hfits := hs.fits
    unfold mapFailed
    omega

/-- Without overflow the pages that are taken lie in the heap. -/
theorem reachesAt_iff (hs : Sized pm) (hclock : pm.clock ≤ pm.pages) (hn : 0 < n)
    (hint : n * 4096 < 2 ^ 31 ∨ pm.pages + 1 < 2 ^ 19) {first : ℕ} :
    ReachesAt pm n first ↔ Finds pm pm.clock n first ∧ first + n ≤ pm.pages := by
  have hends (hfinds : Finds pm pm.clock n first) : EndsInside pm first n ↔ first + n ≤ pm.pages := by
    have hle := hfinds.le hclock
    exact endsInside_iff hs hle (by omega)
  constructor
  · rintro ⟨-, hfinds, hin⟩
    exact ⟨hfinds, (hends hfinds).1 hin⟩
  · rintro ⟨hfinds, hin⟩
    exact ⟨by omega, hfinds, (hends hfinds).2 hin⟩

/-! ### After any calls -/

/-- A call of `libos_mmap` or `libos_munmap` with any arguments, or a store of the program behind the
bitmap. -/
inductive Call where
  | mmap (base len : ℕ)
  | munmap (base len : ℕ)
  | store (i : ℕ) (v : BitVec 8)

def callStep (h : Heap) (pm : PageManager) : Call → Option PageManager
  | .mmap base len => (libosMmap pm base len).map Prod.fst
  | .munmap base len => some (libosMunmap pm base len)
  | .store i v =>
      if bitsetByteLen h.length ≤ i then
        some { pm with bitset := Function.update pm.bitset i v }
      else none

/-- The heap has room for its header, and does not reach the last page of the address space. -/
structure Heap.Roomy (h : Heap) : Prop where
  fits : h.base + h.length + 4096 < 2 ^ 64
  room : h.pageManager.availableBase ≤ h.base + h.length

theorem sized_new {h : Heap} (hroom : h.Roomy) : Sized h.pageManager := by
  obtain ⟨hfits, hle⟩ := hroom
  have hlength : h.pageManager.availableLength =
      pageFloor (toSize (h.base + h.length - h.pageManager.availableBase)) :=
    rfl
  unfold pageFloor at hlength
  constructor
  · rw [pages, hlength]
    omega
  · rw [hlength]
    generalize h.pageManager.availableBase = start at hle
    unfold toSize
    omega

/-- No call moves the pages, and the clock stays within the bitmap. -/
structure Kept (pm pm' : PageManager) : Prop where
  base_eq : pm'.availableBase = pm.availableBase
  length_eq : pm'.availableLength = pm.availableLength
  clock_le : pm'.clock ≤ pm'.pages

theorem kept_setBits {clock start : ℕ} {t : Bool} (hc : clock ≤ pm.pages) :
    Kept pm ({ pm with clock := clock }.setBits start t n) := by
  refine ⟨setBits_availableBase, setBits_availableLength, ?_⟩
  rw [setBits_clock, setBits_pages]
  exact hc

theorem kept_explicitPage {clock : ℕ} (hc : clock ≤ pm.pages) (addr : ℕ) (nPages : ℤ) :
    Kept pm (PageManager.explicitPage { pm with clock := clock } addr nPages).1 := by
  unfold explicitPage
  split
  · exact ⟨rfl, rfl, hc⟩
  · dsimp only
    split
    · exact ⟨rfl, rfl, hc⟩
    · exact kept_setBits hc

theorem kept_allocPages (hs : Sized pm) (hclock : pm.clock ≤ pm.pages) {nPages : ℤ} {pm' : PageManager}
    {p : ℕ} (h : pm.allocPages nPages = some (pm', p)) : Kept pm pm' := by
  rcases lt_or_ge 0 nPages with hpos | hle
  · have hspec := allocPages_spec hs hclock hpos
    rw [h] at hspec
    cases hspec with
    | failed hc hno => exact ⟨rfl, rfl, hc⟩
    | mapped hc hat => exact kept_setBits hc
  · rw [allocPages, if_pos hle] at h
    obtain ⟨rfl, -⟩ := Prod.mk.inj (some_inj.1 h)
    exact ⟨rfl, rfl, hclock⟩

theorem Sized.kept {pm' : PageManager} (hs : Sized pm) (hk : Kept pm pm') : Sized pm' := by
  have hpages : pm'.pages = pm.pages := congrArg (· / 4096) hk.length_eq
  refine ⟨?_, ?_⟩
  · rw [hk.length_eq, hpages]
    exact hs.length_eq
  · rw [hk.base_eq, hk.length_eq]
    exact hs.fits

theorem kept_libosMmap (hs : Sized pm) (hclock : pm.clock ≤ pm.pages) {base len p : ℕ}
    {pm' : PageManager} (h : libosMmap pm base len = some (pm', p)) : Kept pm pm' := by
  have hexplicit := kept_explicitPage hclock base (toInt ((len + 4095) % 2 ^ 64 : ℕ))
  unfold libosMmap at h
  dsimp only at h
  split at h
  · exact kept_allocPages hs hclock h
  · split at h
    · next heq =>
      obtain ⟨rfl, -⟩ := Prod.mk.inj (some_inj.1 h)
      rw [heq] at hexplicit
      exact hexplicit
    · next heq =>
      rw [heq] at hexplicit
      have hsecond := kept_allocPages (hs.kept hexplicit) hexplicit.clock_le h
      exact ⟨hsecond.base_eq.trans hexplicit.base_eq, hsecond.length_eq.trans hexplicit.length_eq,
        hsecond.clock_le⟩

theorem kept_callStep {h : Heap} {call : Call} {pm' : PageManager} (hsized : Sized pm)
    (hclock : pm.clock ≤ pm.pages) (hs : callStep h pm call = some pm') : Kept pm pm' := by
  cases call with
  | mmap base len =>
    obtain ⟨⟨pm₁, p⟩, hmmap, rfl⟩ := Option.map_eq_some_iff.1 hs
    exact kept_libosMmap hsized hclock hmmap
  | munmap base len =>
    obtain rfl := some_inj.1 hs
    exact kept_setBits hclock
  | store i v =>
    simp only [callStep, Option.ite_none_right_eq_some, some_inj] at hs
    obtain ⟨-, rfl⟩ := hs
    exact ⟨rfl, rfl, hclock⟩

theorem sized_run {h : Heap} (hroom : h.Roomy) {calls : List Call}
    (hrun : run (callStep h) h.pageManager calls = some pm) :
    Sized pm ∧ pm.clock ≤ pm.pages := by
  refine run_induction (I := fun pm => Sized pm ∧ pm.clock ≤ pm.pages)
    (fun pm call pm' hi hs => ?_) calls ⟨sized_new hroom, Nat.zero_le _⟩ hrun
  have hk := kept_callStep hi.1 hi.2 hs
  exact ⟨hi.1.kept hk, hk.clock_le⟩

/-- **Free pages are found if and only if the search reaches them**, after any calls.  The product
`nPages * 4096` must not overflow, which it cannot in a heap of less than 2 GiB. -/
theorem allocates_iff_reaches {h : Heap} (hroom : h.Roomy) {calls : List Call}
    (hrun : run (callStep h) h.pageManager calls = some pm)
    (hn : 0 < n) (hint : n * 4096 < 2 ^ 31 ∨ pm.pages + 1 < 2 ^ 19) :
    (FreePages pm n → Allocates pm n) ↔ (FreePages pm n → Reaches pm n) := by
  obtain ⟨hs, hclock⟩ := sized_run hroom hrun
  rw [allocates_iff_reachesAt hs hclock hn, Reaches]
  simp only [reachesAt_iff hs hclock hn hint]

/-- A heap with eight pages. -/
def smallHeap : Heap := ⟨0x100000000, 36864, fun _ => 0#8⟩

/-- Five pages are mapped and unmapped. -/
def mapUnmap : List Call := [.mmap 0 20480, .munmap 0x100001000 20480]

/-- Four pages are found behind the clock. -/
theorem allocates_iff_reaches_smallHeap :
    ∃ pm, run (callStep smallHeap) smallHeap.pageManager
        mapUnmap = some pm ∧ FreePages pm 4 ∧ Allocates pm 4 := by
  have hfinal : (run (callStep smallHeap)
      smallHeap.pageManager mapUnmap).map (fun pm : PageManager =>
        (pm.clock, pm.pages, decide (∀ i : ℕ, i < 4 → pm.getBit (4 + i) = false))) =
        some (4, 8, true) := by decide +kernel
  obtain ⟨pm, hrun, hpm⟩ := Option.map_eq_some_iff.1 hfinal
  simp only [Prod.mk.injEq, decide_eq_true_eq] at hpm
  obtain ⟨hclock, hpages, hclear⟩ := hpm
  have hfree : FreePages pm 4 := ⟨4, by decide, hpages.ge, hclear⟩
  have hreach : Reaches pm 4 := by
    refine ⟨4, .inl ⟨hclock.le, by omega, hclear, ?_⟩, hpages.ge⟩
    exact Runs.not_free_of_lt (by omega)
  have hroom : smallHeap.Roomy := ⟨by decide, by decide⟩
  exact ⟨pm, hrun, hfree, (allocates_iff_reaches hroom hrun (by decide) (.inl (by decide))).2
    (fun _ => hreach) hfree⟩

/-- All eight pages are free and the clock stands at page 4.  Six pages are not found: the search
counts the pages 4 to 7 and starts over at page 0. -/
theorem free_pages_not_found :
    ∃ pm, run (callStep smallHeap) smallHeap.pageManager
        mapUnmap = some pm ∧ FreePages pm 6 ∧ ¬ Allocates pm 6 := by
  have hfinal : (run (callStep smallHeap)
      smallHeap.pageManager mapUnmap).map (fun pm : PageManager =>
        (decide (6 ≤ pm.pages), decide (∀ i : ℕ, i < 6 → pm.getBit (0 + i) = false),
          (pm.allocPages 6).map Prod.snd)) = some (true, true, some mapFailed) := by decide +kernel
  obtain ⟨pm, hrun, hpm⟩ := Option.map_eq_some_iff.1 hfinal
  simp only [Prod.mk.injEq, decide_eq_true_eq] at hpm
  obtain ⟨hpages, hclear, halloc⟩ := hpm
  refine ⟨pm, hrun, ⟨0, le_rfl, hpages, hclear⟩, ?_⟩
  rintro ⟨pm', p, heq, hne⟩
  have heq' : pm.allocPages 6 = some (pm', p) := heq
  rw [heq', Option.map_some, Option.some_inj] at halloc
  exact hne halloc

end Mmap

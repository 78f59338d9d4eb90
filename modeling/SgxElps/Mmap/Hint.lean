/-
**The hint of `libos_mmap`.**

With a hint, `libos_mmap` first tries `explicitPage` at that address and falls back to `allocPages`.  The
number of pages it passes to `explicitPage` is the number of bytes: an accepted hint reserves
`len + 4095` pages, of which `libos_munmap` gives back those of `len` bytes.  As an `int` this number may
also come out negative, and then the hint is accepted and nothing is reserved.

Main definitions: `HintMeets`, `HintFits`.  Main result: `hint_meets_iff`.
-/

import SgxElps.Mmap.Reserve

namespace Mmap

open PageManager
open Transition

variable {pm pm' : PageManager} {base len first n : ℕ}

/-! ### The calls -/

/-- The number of pages that `libos_mmap` passes to `explicitPage`: the rounded number of bytes. -/
def hintArg (len : ℕ) : ℤ := toInt ((len + 4095) % 2 ^ 64 : ℕ)

/-- The hint is a page of the heap from which on `explicitPage` takes that many pages to be free. -/
def HintAccepted (pm : PageManager) (base len : ℕ) : Prop :=
  ∃ first, base = pm.availableBase + 4096 * first ∧ Vacant pm first (hintArg len)

/-- The `len` bytes at the hint were reserved, no other page has changed, and unmapping them gives back
the bitmap from before. -/
structure HintServed (pm pm' : PageManager) (base len : ℕ) : Prop where
  reserved : ∃ first, base = pm.availableBase + 4096 * first ∧
    first + pageCount len ≤ pm.pages ∧ Reserved pm pm' first (pageCount len)
  restored : ∀ i, (libosMunmap pm' base len).getBit i = pm.getBit i

/-- **What the caller of `libos_mmap(base, len)` relies on.**  If the call returns the hint, the pages
from there on are reserved; otherwise it has done what `libos_mmap(nullptr, len)` does. -/
structure HintMeets (pm : PageManager) (base len : ℕ) : Prop where
  served : ∀ pm', libosMmap pm base len = some (pm', base) → HintServed pm pm' base len
  otherwise : ∀ pm' p, libosMmap pm base len = some (pm', p) → p ≠ base →
    libosMmap pm 0 len = some (pm', p)

/-- The pages of `len` bytes at `base` lie in the heap. -/
def InHeap (pm : PageManager) (base len : ℕ) : Prop :=
  base + 4096 * pageCount len ≤ pm.availableBase + pm.availableLength

/-- **The calls for which the number of pages is right**: of the pages that an accepted hint reserves,
and of those that the search reserves should it come to the same address. -/
structure HintFits (pm : PageManager) (base len : ℕ) : Prop where
  accepted : HintAccepted pm base len → hintArg len = pageCount len ∧ InHeap pm base len
  searched : ¬ HintAccepted pm base len → ∀ first, base = pm.availableBase + 4096 * first →
    ReachesAt pm (pageArg len) first → pageCount len < 2 ^ 31 ∧ InHeap pm base len

/-- A call with a hint: `explicitPage`, and `allocPages` if that fails. -/
theorem libosMmap_hint (hbase : base ≠ 0) :
    libosMmap pm base len =
      if (pm.explicitPage base (hintArg len)).2 then
        some ((pm.explicitPage base (hintArg len)).1, base)
      else (pm.explicitPage base (hintArg len)).1.allocPages (pageArg len) := by
  unfold libosMmap hintArg pageArg
  dsimp only
  rw [if_neg hbase]
  generalize pm.explicitPage base (toInt ((len + 4095) % 2 ^ 64 : ℕ)) = result
  obtain ⟨pm', b⟩ := result
  cases b with
  | false => exact (if_neg Bool.false_ne_true).symm
  | true => exact (if_pos rfl).symm

theorem libosMmap_accepted (hv : Valid pm) (hbase : pm.availableBase + 4096 * first ≠ 0)
    (hlt : pm.availableBase + 4096 * first < 2 ^ 64) (h : Vacant pm first (hintArg len)) :
    libosMmap pm (pm.availableBase + 4096 * first) len =
      some (pm.setBits first true (hintArg len).toNat, pm.availableBase + 4096 * first) := by
  rw [libosMmap_hint hbase, explicitPage_eq hv.toSized (by omega), if_pos h, if_pos rfl]

theorem libosMmap_refused (hv : Valid pm) (hbase : base ≠ 0) (hdvd : 4096 ∣ base) (hlt : base < 2 ^ 64)
    (h : ¬ HintAccepted pm base len) : libosMmap pm base len = pm.allocPages (pageArg len) := by
  have hfalse : pm.explicitPage base (hintArg len) = (pm, false) := by
    rcases Nat.lt_or_ge base pm.availableBase with hbelow | hge
    · rw [explicitPage, if_pos (Or.inl hbelow)]
    · obtain ⟨first, rfl⟩ : ∃ first, base = pm.availableBase + 4096 * first := by
        obtain ⟨q, hq⟩ := hdvd
        obtain ⟨r, hr⟩ := hv.base_dvd
        exact ⟨q - r, by omega⟩
      rw [explicitPage_eq hv.toSized (by omega), if_neg fun hvacant => h ⟨first, rfl, hvacant⟩]
  rw [libosMmap_hint hbase, hfalse, if_neg Bool.false_ne_true]

/-- `libos_munmap` gives back as many pages as `libos_mmap(nullptr, len)` reserves. -/
theorem libosMunmap_first (hfirst : 4096 * first < 2 ^ 64) :
    libosMunmap pm (pm.availableBase + 4096 * first) len =
      pm.setBits first false (pageArg len).toNat := by
  have hfloor : ∀ x, pageFloor x / 4096 = x / 4096 := by
    intro x
    unfold pageFloor
    omega
  unfold libosMunmap freePages
  dsimp only
  rw [hfloor, toSize_pageIndex hfirst, pageArg]

/-! ### Hints that are served -/

/-- The pages that were reserved are the right ones. -/
theorem HintServed.of_reserved (hv : Valid pm) (hkept : pm'.availableBase = pm.availableBase)
    (hres : Reserved pm pm' first n) (hcount : n = pageCount len) (hsmall : n < 2 ^ 31)
    (hin : InHeap pm (pm.availableBase + 4096 * first) len) :
    HintServed pm pm' (pm.availableBase + 4096 * first) len := by
  subst hcount
  have hlen := hv.length_eq
  have hfits := hv.fits
  unfold InHeap at hin
  refine ⟨⟨first, rfl, by omega, hres⟩, fun i => ?_⟩
  rw [← hkept, libosMunmap_first (by omega), pageArg_eq hsmall, Int.toNat_natCast, getBit_setBits,
    hres.bits]
  by_cases hi : first ≤ i ∧ i < first + pageCount len
  · have hfree := hres.was_free (i - first) (by omega)
    rw [Nat.add_sub_cancel' hi.1] at hfree
    rw [if_pos hi, hfree]
  · rw [if_neg hi, if_neg hi]

/-- If the hint is served, as many pages were reserved as there are in `len`, and they lie in the
heap. -/
theorem HintServed.count (hv : Valid pm) (hres : Reserved pm pm' first n)
    (h : HintServed pm pm' (pm.availableBase + 4096 * first) len) :
    n = pageCount len ∧ InHeap pm (pm.availableBase + 4096 * first) len := by
  obtain ⟨first', heq, hin, hres'⟩ := h.reserved
  obtain rfl : first = first' := by omega
  have hlen := hv.length_eq
  refine ⟨hres.unique hres', ?_⟩
  unfold InHeap
  omega

theorem hintArg_eq_iff : (hintArg len).toNat = pageCount len ↔ hintArg len = pageCount len := by
  constructor
  · intro heq
    by_cases hpos : 0 ≤ hintArg len
    · rw [← heq, Int.toNat_of_nonneg hpos]
    · -- then no page is reserved, and only for no byte this is right
      have hzero : len = 0 := by
        rw [Int.toNat_of_nonpos (by omega)] at heq
        unfold pageCount at heq
        omega
      rw [hzero] at hpos
      exact absurd (by decide) hpos
  · intro heq
    rw [heq, Int.toNat_natCast]

/-! ### The theorem -/

section Cases

variable (hv : Valid pm) (hbase : base ≠ 0) (hlt : base < 2 ^ 64)
include hv hbase hlt

/-- A hint that is accepted. -/
theorem meets_iff_of_accepted (h : HintAccepted pm base len) :
    HintMeets pm base len ↔ hintArg len = pageCount len ∧ InHeap pm base len := by
  obtain ⟨first, rfl, hvacant⟩ := h
  have hmmap := libosMmap_accepted hv hbase hlt hvacant
  have hres : Reserved pm (pm.setBits first true (hintArg len).toNat) first (hintArg len).toNat :=
    ⟨hvacant.2, fun _ => getBit_setBits⟩
  constructor
  · intro hmeets
    obtain ⟨hcount, hin⟩ := (hmeets.served _ hmmap).count hv hres
    exact ⟨hintArg_eq_iff.1 hcount, hin⟩
  · rintro ⟨hcount, hin⟩
    have hsmall : hintArg len < 2 ^ 31 := toInt_lt _
    constructor
    · intro pm' hmmap'
      obtain rfl : _ = pm' := (Prod.mk.inj (Option.some_inj.1 (hmmap.symm.trans hmmap'))).1
      exact .of_reserved hv setBits_availableBase hres (hintArg_eq_iff.2 hcount) (by omega) hin
    · intro pm' p hmmap' hne
      exact absurd (Prod.mk.inj (Option.some_inj.1 (hmmap.symm.trans hmmap'))).2.symm hne

theorem meets_iff_of_refused (hdvd : 4096 ∣ base) (h : ¬ HintAccepted pm base len) :
    HintMeets pm base len ↔ ∀ first, base = pm.availableBase + 4096 * first →
      ReachesAt pm (pageArg len) first → pageCount len < 2 ^ 31 ∧ InHeap pm base len := by
  have hmmap := libosMmap_refused hv hbase hdvd hlt h
  have hsmall : pageArg len < 2 ^ 31 := toInt_lt _
  constructor
  · rintro hmeets first rfl hat
    obtain ⟨pm', halloc, hres⟩ := hat.allocPages_eq hv
    obtain ⟨hcount, hin⟩ := (hmeets.served pm' (hmmap.trans halloc)).count hv hres
    have hpos := hat.pos
    exact ⟨by omega, hin⟩
  · intro hcond
    constructor
    · intro pm' hmmap'
      rw [hmmap] at hmmap'
      have hfail : base ≠ mapFailed := by
        rintro rfl
        exact absurd hdvd (by decide)
      obtain ⟨first, rfl, hat, hres⟩ := allocPages_address hv hmmap' hbase hfail
      obtain ⟨hcount, hin⟩ := hcond first rfl hat
      have hkept := (kept_allocPages hv.toSized hv.clock_le hmmap').base_eq
      have hn : (pageArg len).toNat = pageCount len := by
        rw [pageArg_eq hcount, Int.toNat_natCast]
      exact .of_reserved hv hkept hres hn (by omega) hin
    · intro pm' p hmmap' _
      rw [libosMmap_null, ← hmmap]
      exact hmmap'

end Cases

/-- **When a hint is served as it should be**, in every state of a page manager, for every page-aligned
hint and every length. -/
theorem hint_meets_iff {h : Heap} (hroom : h.Roomy) (hheap : 4096 ∣ h.base) {calls : List Call}
    (hrun : run (callStep h) h.pageManager calls = some pm)
    (hbase : base ≠ 0) (hdvd : 4096 ∣ base) (hlt : base < 2 ^ 64) (len : ℕ) :
    HintMeets pm base len ↔ HintFits pm base len := by
  have hv := valid_run hroom hheap hrun
  by_cases h : HintAccepted pm base len
  · rw [meets_iff_of_accepted hv hbase hlt h]
    exact ⟨fun hcond => ⟨fun _ => hcond, fun hn => absurd h hn⟩, fun hfits => hfits.accepted h⟩
  · rw [meets_iff_of_refused hv hbase hlt hdvd h]
    exact ⟨fun hcond => ⟨fun ha => absurd ha h, fun _ => hcond⟩, fun hfits => hfits.searched h⟩

/-- **For lengths below 2 GiB an accepted hint never reserves the right number of pages.** -/
theorem hintArg_ne_pageCount (h : len + 4095 < 2 ^ 31) : hintArg len ≠ pageCount len := by
  rw [hintArg, Nat.mod_eq_of_lt (by omega), toInt_of_lt h, pageCount]
  omega

/-- A hint for a page of a small heap is refused, since 8191 pages do not fit, and then found by the
search. -/
theorem hint_meets_iff_smallHeap :
    run (callStep smallHeap) smallHeap.pageManager [] =
        some smallHeap.pageManager ∧
      HintMeets smallHeap.pageManager 0x100001000 4096 := by
  have hrefused : ¬ HintAccepted smallHeap.pageManager 0x100001000
      4096 := by
    rintro ⟨first, heq, hvacant⟩
    obtain rfl : first = 0 := by
      have hbase : 0x100001000 = 0x100001000 + 4096 * first := heq
      omega
    exact absurd hvacant (by decide +kernel)
  have hrun : run (callStep smallHeap)
      smallHeap.pageManager [] =
        some smallHeap.pageManager := rfl
  have hiff := hint_meets_iff roomy_smallHeap ⟨0x100000, rfl⟩ hrun
    (show 0x100001000 ≠ 0 by decide) ⟨0x100001, rfl⟩ (by decide) 4096
  refine ⟨hrun, hiff.2 ⟨fun ha => absurd ha hrefused, fun _ _ _ _ => ?_⟩⟩
  unfold InHeap
  exact ⟨by decide, by decide⟩

/-- A heap with ten thousand pages. -/
def largeHeap : Heap := ⟨0x100000000, 40964096, fun _ => 0#8⟩

/-- **A hint for one page reserves 8191 pages**, and unmapping it gives back one of them. -/
theorem hint_reserves_too_much :
    ∃ pm pm' : PageManager, run (callStep largeHeap)
        largeHeap.pageManager [] = some pm ∧
      libosMmap pm 0x100001000 4096 = some (pm', 0x100001000) ∧
      (∀ i < 8191, pm.getBit i = false ∧ pm'.getBit i = true) ∧
      (libosMunmap pm' 0x100001000 4096).getBit 1 = true ∧ ¬ HintMeets pm 0x100001000 4096 := by
  have hroom : largeHeap.Roomy := ⟨by decide, by decide⟩
  obtain ⟨pm, hpm⟩ : ∃ pm : PageManager,
      pm = largeHeap.pageManager := ⟨_, rfl⟩
  have hrun : run (callStep largeHeap)
      largeHeap.pageManager [] = some pm := by
    rw [hpm]
    rfl
  have hv := valid_run hroom ⟨0x100000, rfl⟩ hrun
  have hbase : pm.availableBase + 4096 * 0 = 0x100001000 := by
    rw [hpm]
    rfl
  have hclear : ∀ i < 8191, pm.getBit (0 + i) = false := by
    intro i hi
    have hbyte : i / 8 < bitsetByteLen largeHeap.length := by
      have : bitsetByteLen largeHeap.length = 1250 := rfl
      omega
    rw [Nat.zero_add]
    simp [hpm, Heap.pageManager, PageManager.new, getBit, hbyte]
  have hpages : pm.pages = 10000 := by
    rw [hpm]
    rfl
  have hvacant : Vacant pm 0 (hintArg 4096) :=
    ⟨(endsInside_iff hv.toSized (show 0 + 8191 ≤ pm.pages + 1 by omega) (by decide)).2 (by omega), hclear⟩
  have hmmap : libosMmap pm _ 4096 = some (pm.setBits 0 true 8191, _) :=
    libosMmap_accepted hv (by omega) (by omega) hvacant
  rw [hbase] at hmmap
  have hset : ∀ i < 8191, (pm.setBits 0 true 8191).getBit i = true := by
    intro i hi
    rw [getBit_setBits, if_pos ⟨Nat.zero_le _, by omega⟩]
  refine ⟨pm, _, hrun, hmmap, fun i hi => ⟨?_, hset i hi⟩, ?_, fun hmeets => ?_⟩
  · rw [← Nat.zero_add i]
    exact hclear i hi
  · have hkept : (pm.setBits 0 true 8191).availableBase = pm.availableBase := setBits_availableBase
    rw [← hbase, ← hkept, libosMunmap_first (by decide), getBit_setBits, if_neg (by decide),
      hset 1 (by decide)]
  · have hcount := ((meets_iff_of_accepted hv (by decide) (by decide) ⟨0, hbase.symm, hvacant⟩).1 hmeets).1
    exact hintArg_ne_pageCount (by decide) hcount

end Mmap

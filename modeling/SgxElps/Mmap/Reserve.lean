/-
**Which pages a call of `libos_mmap` reserves.**

`libos_mmap(nullptr, len)` rounds `len` up to pages and passes the number to `allocPages` as an `int`.
Whatever number arrives there, that many pages are reserved; but for `len` from 8 TiB on it is no longer
the number of pages of `len`, and a program that asks for 16 TiB and a byte is given one page.

Main definitions: `Covers`, `MapsCovered`.  Main results: `allocPages_reserved`, `maps_covered_iff`.
-/

import SgxElps.Mmap.Search

namespace Mmap

open PageManager
open Transition

/-! ### The states -/

/-- **The states of a page manager**: whole aligned pages within the address space, not at its start,
and a clock within the bitmap. -/
structure Valid (pm : PageManager) : Prop extends Sized pm where
  base_dvd : 4096 ∣ pm.availableBase
  base_pos : 0 < pm.availableBase
  clock_le : pm.clock ≤ pm.pages

theorem availableBase_new_pos {h : Heap} (hroom : h.Roomy) (hbase : 4096 ∣ h.base) :
    0 < h.pageManager.availableBase := by
  obtain ⟨first, hfirst⟩ := hbase
  have hfits := hroom.fits
  have hbytes : bitsetByteLen h.length = h.length / 32768 := rfl
  simp only [Heap.pageManager, PageManager.new, pageFloor, headerLen]
  generalize bitsetByteLen h.length = bytes at *
  rw [Nat.mod_eq_of_lt (by omega : h.base + 32 + bytes < 2 ^ 64), Nat.mod_eq_of_lt (by omega)]
  omega

theorem Valid.kept {pm pm' : PageManager} (hv : Valid pm) (hk : Kept pm pm') : Valid pm' :=
  { hv.toSized.kept hk with
    base_dvd := hk.base_eq ▸ hv.base_dvd
    base_pos := hk.base_eq ▸ hv.base_pos
    clock_le := hk.clock_le }

/-- Every state that is reached from the constructor by any calls and stores is valid. -/
theorem valid_run {h : Heap} {pm : PageManager} (hroom : h.Roomy) (hbase : 4096 ∣ h.base)
    {calls : List Call}
    (hrun : run (callStep h) h.pageManager calls = some pm) :
    Valid pm := by
  have hnew : Valid h.pageManager :=
    { sized_new hroom with
      base_dvd := ⟨_, Nat.mul_comm ..⟩
      base_pos := availableBase_new_pos hroom hbase
      clock_le := Nat.zero_le _ }
  exact run_induction (fun pm call pm' hv hs => hv.kept (kept_callStep hv.toSized hv.clock_le hs))
    calls hnew hrun

variable {pm pm' : PageManager} {first n len p : ℕ}

/-! ### Reserved pages -/

/-- **The call has reserved the `n` pages from page `first` on**, and no others: they were free, and are
used now. -/
structure Reserved (pm pm' : PageManager) (first n : ℕ) : Prop where
  was_free : ∀ i < n, pm.getBit (first + i) = false
  bits : ∀ i, pm'.getBit i = if first ≤ i ∧ i < first + n then true else pm.getBit i

theorem Reserved.changed_iff (h : Reserved pm pm' first n) {i : ℕ} :
    pm.getBit i = false ∧ pm'.getBit i = true ↔ first ≤ i ∧ i < first + n := by
  rw [h.bits]
  by_cases hi : first ≤ i ∧ i < first + n
  · have hfree := h.was_free (i - first) (by omega)
    rw [Nat.add_sub_cancel' hi.1] at hfree
    simp [hi, hfree]
  · cases pm.getBit i <;> simp [hi]

theorem Reserved.unique {m : ℕ} (h : Reserved pm pm' first n) (h' : Reserved pm pm' first m) :
    n = m := by
  have heq : ∀ i, first ≤ i ∧ i < first + n ↔ first ≤ i ∧ i < first + m := fun i =>
    h.changed_iff.symm.trans h'.changed_iff
  have h1 := heq (first + n)
  have h2 := heq (first + m)
  omega

/-- **Every byte of the range lies in a page that was reserved.** -/
def Covers (pm pm' : PageManager) (p len : ℕ) : Prop :=
  ∀ y ∈ (⟨p, len⟩ : Span).bytes, ∃ i, (pm.getBit i = false ∧ pm'.getBit i = true) ∧
    y ∈ (⟨pm.availableBase + 4096 * i, 4096⟩ : Span).bytes

theorem Reserved.covers_iff (h : Reserved pm pm' first n) :
    Covers pm pm' (pm.availableBase + 4096 * first) len ↔ len ≤ 4096 * n := by
  unfold Covers
  simp only [h.changed_iff, Span.mem_bytes]
  constructor
  · intro hcovers
    by_contra hlong
    -- the first byte behind the reserved pages
    obtain ⟨i, hi, hy⟩ := hcovers (pm.availableBase + 4096 * (first + n)) (by omega)
    omega
  · intro hle y hy
    refine ⟨(y - pm.availableBase) / 4096, ?_, ?_⟩ <;> omega

/-! ### What the operations reserve -/

/-- **`allocPages` reserves the pages that it returns**, and returns null only if it is asked for none. -/
theorem allocPages_reserved (hv : Valid pm) {nPages : ℤ} (h : pm.allocPages nPages = some (pm', p)) :
    (nPages ≤ 0 ∧ p = 0) ∨
      (p = mapFailed ∧ pm'.bitset = pm.bitset ∧ ∀ first, ¬ ReachesAt pm nPages first) ∨
      ∃ first, p = pm.availableBase + 4096 * first ∧ ReachesAt pm nPages first ∧
        Reserved pm pm' first nPages.toNat := by
  rcases lt_or_ge 0 nPages with hpos | hle
  · have hspec := allocPages_spec hv.toSized hv.clock_le hpos
    rw [h] at hspec
    cases hspec with
    | failed hc hno => exact .inr (.inl ⟨rfl, rfl, hno⟩)
    | mapped hc hat => exact .inr (.inr ⟨_, rfl, hat, hat.finds.clear, fun _ => getBit_setBits⟩)
  · rw [allocPages, if_pos hle] at h
    exact .inl ⟨hle, (Prod.mk.inj (Option.some_inj.1 h)).2.symm⟩

theorem allocPages_isSome (hv : Valid pm) (nPages : ℤ) : ∃ pm' p, pm.allocPages nPages = some (pm', p) := by
  rcases lt_or_ge 0 nPages with hpos | hle
  · have hspec := allocPages_spec hv.toSized hv.clock_le hpos
    generalize pm.allocPages nPages = result at hspec
    cases hspec with
    | failed hc hno => exact ⟨_, _, rfl⟩
    | mapped hc hat => exact ⟨_, _, rfl⟩
  · exact ⟨pm, 0, if_pos hle⟩

/-- The address of a page is neither null nor -1. -/
theorem ReachesAt.address_ne (hv : Valid pm) {nPages : ℤ} (h : ReachesAt pm nPages first) :
    pm.availableBase + 4096 * first ≠ 0 ∧ pm.availableBase + 4096 * first ≠ mapFailed := by
  have hle := h.finds.le hv.clock_le
  have hpos := h.pos
  have hbase := hv.base_pos
  have hlen := hv.length_eq
  have hfits := hv.fits
  unfold mapFailed
  omega

/-- An address other than null and -1. -/
theorem allocPages_address (hv : Valid pm) {nPages : ℤ} (h : pm.allocPages nPages = some (pm', p))
    (hnull : p ≠ 0) (hfail : p ≠ mapFailed) :
    ∃ first, p = pm.availableBase + 4096 * first ∧ ReachesAt pm nPages first ∧
      Reserved pm pm' first nPages.toNat := by
  rcases allocPages_reserved hv h with ⟨-, h0⟩ | ⟨hf, -⟩ | hres
  · exact absurd h0 hnull
  · exact absurd hf hfail
  · exact hres

/-- The pages that the search comes to are returned. -/
theorem ReachesAt.allocPages_eq (hv : Valid pm) {nPages : ℤ} (h : ReachesAt pm nPages first) :
    ∃ pm', pm.allocPages nPages = some (pm', pm.availableBase + 4096 * first) ∧
      Reserved pm pm' first nPages.toNat := by
  obtain ⟨pm', p, halloc⟩ := allocPages_isSome hv nPages
  rcases allocPages_reserved hv halloc with ⟨hle, -⟩ | ⟨-, -, hno⟩ | ⟨first', rfl, h', hres⟩
  · exact absurd h.pos (by omega)
  · exact absurd h (hno first)
  · obtain rfl := h.finds.unique h'.finds
    exact ⟨pm', halloc, hres⟩

/-! ### Lengths -/

/-- The number of pages that `libos_mmap` passes to `allocPages`. -/
def pageArg (len : ℕ) : ℤ := toInt ((len + 4095) % 2 ^ 64 / 4096 : ℕ)

theorem libosMmap_null : libosMmap pm 0 len = pm.allocPages (pageArg len) := by
  rw [libosMmap, if_pos rfl, pageArg]

theorem pageArg_eq (h : pageCount len < 2 ^ 31) : pageArg len = pageCount len := by
  unfold pageCount at *
  rw [pageArg, Nat.mod_eq_of_lt (by omega), toInt_of_lt h]

theorem pageCount_le_pageArg_iff : pageCount len ≤ (pageArg len).toNat ↔ pageCount len < 2 ^ 31 := by
  have hlt : pageArg len < 2 ^ 31 := toInt_lt _
  constructor
  · intro hle
    omega
  · intro hcount
    rw [pageArg_eq hcount, Int.toNat_natCast]

/-- **What the caller of `libos_mmap(nullptr, len)` relies on**: an address other than null and -1 is
that of pages that cover `len` bytes. -/
def MapsCovered (pm : PageManager) (len : ℕ) : Prop :=
  ∀ pm' p, libosMmap pm 0 len = some (pm', p) → p ≠ 0 → p ≠ mapFailed → Covers pm pm' p len

/-- **When the reserved pages cover the length**, in every state of a page manager and for every
length: the number of pages is an `int`, or the search comes to no pages for the number that is left of
it. -/
theorem maps_covered_iff {h : Heap} (hroom : h.Roomy) (hbase : 4096 ∣ h.base) {calls : List Call}
    (hrun : run (callStep h) h.pageManager calls = some pm) (len : ℕ) :
    MapsCovered pm len ↔ pageCount len < 2 ^ 31 ∨ ∀ first, ¬ ReachesAt pm (pageArg len) first := by
  have hv := valid_run hroom hbase hrun
  have hcover : ∀ {first pm'}, Reserved pm pm' first (pageArg len).toNat →
      (Covers pm pm' (pm.availableBase + 4096 * first) len ↔ pageCount len < 2 ^ 31) := by
    intro first pm' hres
    rw [hres.covers_iff, ← pageCount_le_pageArg_iff, pageCount]
    omega
  constructor
  · intro hmaps
    rw [or_iff_not_imp_right, not_forall_not]
    rintro ⟨first, hat⟩
    obtain ⟨pm', halloc, hres⟩ := hat.allocPages_eq hv
    obtain ⟨hnull, hfail⟩ := hat.address_ne hv
    exact (hcover hres).1 (hmaps pm' _ (libosMmap_null.trans halloc) hnull hfail)
  · rintro hcond pm' p hmmap hnull hfail
    rw [libosMmap_null] at hmmap
    obtain ⟨first, rfl, hat, hres⟩ := allocPages_address hv hmmap hnull hfail
    exact (hcover hres).2 (hcond.resolve_right fun hno => hno first hat)

theorem roomy_smallHeap : smallHeap.Roomy := ⟨by decide, by decide⟩

/-- A page is mapped after five pages were mapped and unmapped. -/
theorem maps_covered_iff_smallHeap :
    ∃ pm, run (callStep smallHeap) smallHeap.pageManager
        mapUnmap = some pm ∧ MapsCovered pm 4096 := by
  obtain ⟨pm, hrun⟩ : ∃ pm, run (callStep smallHeap)
      smallHeap.pageManager mapUnmap = some pm := ⟨_, rfl⟩
  have hiff := maps_covered_iff roomy_smallHeap ⟨0x100000, rfl⟩ hrun 4096
  exact ⟨pm, hrun, hiff.2 (Or.inl (by decide))⟩

/-- **A request for 16 TiB and a byte gets one page.** -/
theorem huge_length_one_page :
    ∃ pm pm' p, run (callStep smallHeap)
        smallHeap.pageManager [] = some pm ∧
      libosMmap pm 0 (2 ^ 44 + 1) = some (pm', p) ∧ p = 0x100001000 ∧
      pm'.getBit 0 = true ∧ pm'.getBit 1 = false ∧ ¬ MapsCovered pm (2 ^ 44 + 1) := by
  obtain ⟨pm, hpm⟩ : ∃ pm : PageManager,
      pm = smallHeap.pageManager := ⟨_, rfl⟩
  have hresult : (libosMmap pm 0 (2 ^ 44 + 1)).map (fun r => (r.2, r.1.getBit 0, r.1.getBit 1)) =
      some (0x100001000, true, false) := by
    rw [hpm]
    decide +kernel
  obtain ⟨⟨pm', p⟩, hmmap, hp⟩ := Option.map_eq_some_iff.1 hresult
  simp only [Prod.mk.injEq] at hp
  obtain ⟨rfl, h₀, h₁⟩ := hp
  have hrun : run (callStep smallHeap)
      smallHeap.pageManager [] = some pm := by
    rw [hpm]
    rfl
  refine ⟨pm, pm', _, hrun, hmmap, rfl, h₀, h₁, fun hmaps => ?_⟩
  have hv := valid_run roomy_smallHeap ⟨0x100000, rfl⟩ hrun
  obtain ⟨first, hfirst, -, hres⟩ := allocPages_address hv (libosMmap_null.symm.trans hmmap)
    (by decide) (by decide)
  have hcovers := hmaps pm' _ hmmap (by decide) (by decide)
  rw [hfirst, hres.covers_iff] at hcovers
  exact absurd hcovers (by decide)

end Mmap

/-
**The bitmap of the page manager is the set of the mapped pages.**

A page has its bit set if and only if it belongs to a region that was returned by `libos_mmap` and not
unmapped since.  `explicitPage` checks the bounds of the run that the search has found, so the probe of the
bit one past the last page is harmless.

Main definitions: `Inv`, `WellMapped`.  Main results: `inv_step`, `wellMapped_run`.
-/

import SgxElps.Mmap.Scan

namespace Mmap

open PageManager
open List
open Transition
open Span

/-! ### The pages -/

/-- The pages are aligned and within the address space, there are fewer than `2 ^ 19` of them, and their
bits lie in the part of the bitmap that the constructor has cleared. -/
structure Geometry (h : Heap) (pm : PageManager) : Prop where
  base_dvd : 4096 ∣ pm.availableBase
  base_pos : 0 < pm.availableBase
  length_eq : pm.availableLength = 4096 * pm.pages
  fits : pm.availableBase + pm.availableLength + 4096 < 2 ^ 64
  pages_lt : pm.pages + 1 < 2 ^ 19
  covers : pm.pages ≤ 8 * bitsetByteLen h.length

variable {h : Heap} {pm : PageManager}

theorem Geometry.sized (hg : Geometry h pm) : Sized pm := ⟨hg.length_eq, hg.fits⟩

theorem geometry_new (hok : h.Ok) : Geometry h h.pageManager := by
  obtain ⟨hlen, hfits, hcovers⟩ := hok
  have hbytes : bitsetByteLen h.length ≤ 65535 := by
    unfold bitsetByteLen
    omega
  -- a heap that is too short for its header would have a huge `availableLength`
  have hall : 0 < h.pageManager.availableBase ∧
      h.pageManager.availableBase
        + h.pageManager.availableLength ≤ h.base + h.length := by
    simp only [Heap.pageManager, PageManager.new, pages, pageFloor, headerLen] at hcovers ⊢
    generalize bitsetByteLen h.length = bytes at *
    by_cases hwrap : h.base + 32 + bytes + 4095 < 2 ^ 64
    · rw [Nat.mod_eq_of_lt (by omega : h.base + 32 + bytes < 2 ^ 64), Nat.mod_eq_of_lt hwrap] at *
      unfold toSize at *
      omega
    · obtain ⟨start, hstart⟩ : ∃ start,
          start = ((h.base + 32 + bytes) % 2 ^ 64 + 4095) % 2 ^ 64 / 4096 * 4096 := ⟨_, rfl⟩
      have hsmall : start < 2 ^ 17 := by omega
      rw [← hstart] at *
      unfold toSize at *
      omega
  refine ⟨⟨_, Nat.mul_comm ..⟩, hall.1, ?_, by omega, by omega, hcovers⟩
  simp only [Heap.pageManager, PageManager.new, pages, pageFloor]
  omega

/-- The geometry does not depend on the clock and the bits. -/
theorem Geometry.congr {pm' : PageManager} (hg : Geometry h pm)
    (hb : pm'.availableBase = pm.availableBase) (hl : pm'.availableLength = pm.availableLength) :
    Geometry h pm' := by
  have hp : pm'.pages = pm.pages := congrArg (· / 4096) hl
  obtain ⟨h1, h2, h3, h4, h5, h6⟩ := hg
  constructor <;> simp only [hb, hl, hp] <;> assumption

/-! ### The operations -/

/-- What `allocPages` does: it fails and moves the clock, or it sets the bits of `n` pages that were
clear. -/
inductive AllocOk (pm : PageManager) (n : ℕ) : Option (PageManager × ℕ) → Prop
  | failed {clock : ℕ} (hc : clock ≤ pm.pages) :
      AllocOk pm n (some ({ pm with clock := clock }, mapFailed))
  | mapped {clock first : ℕ} (hc : clock ≤ pm.pages) (hin : first + n ≤ pm.pages)
      (hclear : ∀ i < n, pm.getBit (first + i) = false) :
      AllocOk pm n (some ({ pm with clock := clock }.setBits first true n,
        pm.availableBase + 4096 * first))

/-- **`allocPages` returns**, and takes only pages that are free. -/
theorem allocPages_ok (hg : Geometry h pm) (hclock : pm.clock ≤ pm.pages) {n : ℕ} (hn : 0 < n) :
    AllocOk pm n (pm.allocPages n) := by
  have hspec := allocPages_spec hg.sized hclock (show (0 : ℤ) < n by omega)
  generalize pm.allocPages n = result at hspec
  cases hspec with
  | failed hc hno => exact .failed hc
  | @mapped clock first hc hat =>
    obtain ⟨-, hfinds, hinside⟩ := hat
    rw [Int.toNat_natCast] at hfinds ⊢
    have hle := hfinds.le hclock
    have hpages := hg.pages_lt
    exact .mapped hc ((endsInside_iff hg.sized hle (by omega)).1 hinside) hfinds.clear

theorem libosMmap_eq {len : ℕ} (hlen : pageCount len < 2 ^ 31) :
    libosMmap pm 0 len = pm.allocPages (pageCount len) := by
  unfold pageCount at hlen
  have hmod : (len + 4095) % 2 ^ 64 = len + 4095 := Nat.mod_eq_of_lt (by omega)
  rw [libosMmap, if_pos rfl, hmod, toInt_of_lt (by omega), pageCount]

theorem libosMunmap_eq {first len : ℕ} (hg : Geometry h pm)
    (hin : first + pageCount len ≤ pm.pages) :
    libosMunmap pm (pm.availableBase + 4096 * first) len
      = pm.setBits first false (pageCount len) := by
  have hlen := hg.length_eq
  have hfits := hg.fits
  have hpages := hg.pages_lt
  have hcount : pageCount len = (len + 4095) / 4096 := rfl
  have hmod : (len + 4095) % 2 ^ 64 = len + 4095 := Nat.mod_eq_of_lt (by omega)
  have hfloor : pageFloor (len + 4095) / 4096 = pageCount len := by
    unfold pageFloor pageCount
    omega
  unfold libosMunmap freePages
  dsimp only
  rw [hmod, hfloor, toSize_pageIndex (by omega), toInt_of_lt (by omega), Int.toNat_natCast]

/-! ### The invariant -/

/-- The page numbers of a region. -/
def pageSpan (base : ℕ) (r : Region) : Span := ⟨(r.addr - base) / 4096, pageCount r.len⟩

/-- The region consists of available pages. -/
def RegionOk (pm : PageManager) (r : Region) : Prop :=
  0 < pageCount r.len ∧ ∃ first, r.addr = pm.availableBase + 4096 * first ∧
    first + pageCount r.len ≤ pm.pages

structure Inv (h : Heap) (s : State) : Prop where
  geometry : Geometry h s.pm
  clock_le : s.pm.clock ≤ s.pm.pages
  region : ∀ r ∈ s.live, RegionOk s.pm r
  separated : Span.Separated (s.live.map (pageSpan s.pm.availableBase))
  bits : ∀ i < s.pm.pages, s.pm.getBit i = true ↔
    i ∈ covered (s.live.map (pageSpan s.pm.availableBase))

/-- The bytes of a region. -/
def Region.span (r : Region) : Span := ⟨r.addr, 4096 * pageCount r.len⟩

/-- What the calls are for.  `libos_mmap` returns; the mapped regions are page-aligned, lie in the
available memory and do not overlap; the bit of a page is set if and only if the page belongs to one of
them; unmapping a region right after it was mapped gives back the bitmap from before. -/
structure WellMapped (h : Heap) (s : State) : Prop where
  returns : ∀ len, pageCount len < 2 ^ 31 → (libosMmap s.pm 0 len).isSome
  aligned : ∀ r ∈ s.live, 4096 ∣ r.addr
  within : ∀ r ∈ s.live, s.pm.availableBase ≤ r.addr ∧
    r.addr + 4096 * pageCount r.len ≤ s.pm.availableBase + s.pm.availableLength
  separated : Span.Separated (s.live.map Region.span)
  bit_iff : ∀ i < s.pm.pages, s.pm.getBit i = true ↔
    ∃ r ∈ s.live, s.pm.availableBase + 4096 * i ∈ r.span.bytes
  restored : ∀ len r s₁ s₂, step h s (.mmap len) = some s₁ → s₁.live = r :: s.live →
    step h s₁ (.munmap r) = some s₂ → ∀ i < s.pm.pages, s₂.pm.getBit i = s.pm.getBit i

theorem inv_init (hok : h.Ok) : Inv h (init h) where
  geometry := geometry_new hok
  clock_le := Nat.zero_le _
  region := nofun
  separated := List.Pairwise.nil
  bits i hi := by
    have hbyte : i / 8 < bitsetByteLen h.length := by
      have := (geometry_new hok).covers
      have hi' : i < h.pageManager.pages := hi
      omega
    refine iff_of_false ?_ (by simp [covered, init])
    simp [init, Heap.pageManager, PageManager.new, getBit, hbyte]

theorem setBits_availableBase {start n : ℕ} {t : Bool} :
    (pm.setBits start t n).availableBase = pm.availableBase := by rw [setBits_frame]

theorem setBits_availableLength {start n : ℕ} {t : Bool} :
    (pm.setBits start t n).availableLength = pm.availableLength := by rw [setBits_frame]

theorem setBits_clock {start n : ℕ} {t : Bool} :
    (pm.setBits start t n).clock = pm.clock := by rw [setBits_frame]

theorem setBits_pages {start n : ℕ} {t : Bool} : (pm.setBits start t n).pages = pm.pages := by
  rw [pages, setBits_availableLength, pages]

theorem pageSpan_of_eq {base first len : ℕ} :
    pageSpan base ⟨base + 4096 * first, len⟩ = ⟨first, pageCount len⟩ := by
  unfold pageSpan
  congr 1
  dsimp only
  omega

section Step

variable {s s' : State}

theorem Inv.setClock (hi : Inv h s) {clock : ℕ} (hc : clock ≤ s.pm.pages) :
    Inv h { s with pm := { s.pm with clock := clock } } :=
  { hi with geometry := hi.geometry.congr rfl rfl, clock_le := hc }

theorem Inv.map (hi : Inv h s) {first len : ℕ} (hpos : 0 < pageCount len)
    (hin : first + pageCount len ≤ s.pm.pages)
    (hclear : ∀ i < pageCount len, s.pm.getBit (first + i) = false) :
    Inv h ⟨s.pm.setBits first true (pageCount len),
      ⟨s.pm.availableBase + 4096 * first, len⟩ :: s.live⟩ where
  geometry := hi.geometry.congr setBits_availableBase setBits_availableLength
  clock_le := by
    rw [setBits_clock, setBits_pages]
    exact hi.clock_le
  region := by
    refine forall_mem_cons.2 ⟨⟨hpos, first, ?_, ?_⟩, fun r hr => ?_⟩
    · rw [setBits_availableBase]
    · rw [setBits_pages]
      exact hin
    · have hr := hi.region r hr
      rwa [RegionOk, ← setBits_availableBase, ← setBits_pages] at hr
  separated := by
    dsimp only
    rw [map_cons, setBits_availableBase, pageSpan_of_eq, Span.Separated.cons_iff]
    refine ⟨fun b hb => Set.disjoint_left.2 fun i hnew hold => ?_, hi.separated⟩
    -- the pages of the new region were free
    rw [mem_bytes] at hnew
    have hset := (hi.bits i (by omega)).2 (subset_covered hb hold)
    have hfree := hclear (i - first) (by omega)
    rw [Nat.add_sub_cancel' hnew.1, hset] at hfree
    cases hfree
  bits i hlt := by
    rw [setBits_pages] at hlt
    dsimp only
    rw [map_cons, setBits_availableBase, pageSpan_of_eq, mem_covered_cons, mem_bytes,
      ← hi.bits i hlt, getBit_setBits]
    by_cases hnew : first ≤ i ∧ i < first + pageCount len <;> simp [hnew]

theorem Inv.unmap (hi : Inv h s) {r : Region} (hr : r ∈ s.live) {first : ℕ}
    (haddr : r.addr = s.pm.availableBase + 4096 * first) :
    Inv h ⟨s.pm.setBits first false (pageCount r.len), s.live.erase r⟩ := by
  have hspan : pageSpan s.pm.availableBase r = ⟨first, pageCount r.len⟩ := by
    unfold pageSpan
    rw [haddr, Nat.add_sub_cancel_left, Nat.mul_div_cancel_left _ (by decide)]
  have hperm := (perm_cons_erase hr).map (pageSpan s.pm.availableBase)
  rw [map_cons, hspan] at hperm
  obtain ⟨hdisj, hsep⟩ := Span.Separated.cons_iff.1 (hi.separated.perm hperm)
  refine ⟨hi.geometry.congr setBits_availableBase setBits_availableLength, ?_, fun q hq => ?_, ?_,
    fun i hlt => ?_⟩
  · rw [setBits_clock, setBits_pages]
    exact hi.clock_le
  · have hq := hi.region q (mem_of_mem_erase hq)
    rwa [RegionOk, ← setBits_availableBase, ← setBits_pages] at hq
  · dsimp only
    rw [setBits_availableBase]
    exact hsep
  · rw [setBits_pages] at hlt
    have hcov : i ∈ covered (s.live.map (pageSpan s.pm.availableBase)) ↔ _ :=
      exists_congr fun b => and_congr_left fun _ => hperm.mem_iff
    have hbits := (hi.bits i hlt).trans (hcov.trans mem_covered_cons)
    dsimp only
    rw [setBits_availableBase, getBit_setBits]
    by_cases hold : first ≤ i ∧ i < first + pageCount r.len
    · rw [if_pos hold]
      refine iff_of_false nofun ?_
      rintro ⟨b, hb, hib⟩
      exact Set.disjoint_left.1 (hdisj b hb) (mem_bytes.2 hold) hib
    · rw [if_neg hold, hbits]
      exact or_iff_right fun hmem => hold (mem_bytes.1 hmem)

theorem Inv.store (hi : Inv h s) {j : ℕ} (hj : bitsetByteLen h.length ≤ j) (v : BitVec 8) :
    Inv h { s with pm := { s.pm with bitset := Function.update s.pm.bitset j v } } := by
  have hsame : ∀ i < s.pm.pages, ({ s.pm with bitset := Function.update s.pm.bitset j v } :
      PageManager).getBit i = s.pm.getBit i := by
    intro i hlt
    have hcovers := hi.geometry.covers
    have hne : i / 8 ≠ j := by omega
    simp only [getBit, Function.update_of_ne hne]
  refine { hi with geometry := hi.geometry.congr rfl rfl, bits := fun i hlt => ?_ }
  rw [hsame i hlt]
  exact hi.bits i hlt

/-- What `libos_mmap(nullptr, len)` does to the state. -/
theorem Inv.mmap (hi : Inv h s) {len : ℕ} (hs : step h s (.mmap len) = some s') :
    Inv h s' ∧ (s'.live = s.live ∨ ∃ clock first, s'.live = ⟨s.pm.availableBase + 4096 * first, len⟩
      :: s.live ∧ s'.pm = { s.pm with clock := clock }.setBits first true (pageCount len) ∧
      first + pageCount len ≤ s.pm.pages ∧
      ∀ i < pageCount len, s.pm.getBit (first + i) = false) := by
  simp only [step, Option.ite_none_right_eq_some, Option.map_eq_some_iff] at hs
  obtain ⟨hlen, ⟨pm, p⟩, hret, rfl⟩ := hs
  rw [libosMmap_eq hlen] at hret
  rcases Nat.eq_zero_or_pos (pageCount len) with hzero | hpos
  · obtain ⟨rfl, rfl⟩ : s.pm = pm ∧ 0 = p := by simpa [hzero, allocPages] using hret
    exact ⟨hi, .inl rfl⟩
  · have hok := allocPages_ok hi.geometry hi.clock_le hpos
    rw [hret] at hok
    cases hok with
    | @failed clock hc => exact ⟨hi.setClock hc, .inl rfl⟩
    | @mapped clock first hc hin hclear =>
      -- the address is neither null nor `-1`
      have hbase := hi.geometry.base_pos
      have hfits := hi.geometry.fits
      have hlength := hi.geometry.length_eq
      have hne : ¬ (s.pm.availableBase + 4096 * first = 0 ∨
          s.pm.availableBase + 4096 * first = mapFailed) := by
        unfold mapFailed
        omega
      dsimp only
      rw [if_neg hne]
      exact ⟨(hi.setClock hc).map hpos hin hclear, .inr ⟨clock, first, rfl, rfl, hin, hclear⟩⟩

theorem Inv.munmap (hi : Inv h s) {r : Region} (hs : step h s (.munmap r) = some s') :
    Inv h s' ∧ ∃ first, r.addr = s.pm.availableBase + 4096 * first ∧
      s'.pm = s.pm.setBits first false (pageCount r.len) := by
  simp only [step, Option.ite_none_right_eq_some, Option.some_inj] at hs
  obtain ⟨hr, rfl⟩ := hs
  obtain ⟨-, first, haddr, hin⟩ := hi.region r hr
  have heq := libosMunmap_eq hi.geometry hin
  rw [← haddr] at heq
  rw [heq]
  exact ⟨hi.unmap hr haddr, first, haddr, rfl⟩

/-- **The step lemma.** -/
theorem inv_step {ev : Event} (hi : Inv h s) (hs : step h s ev = some s') : Inv h s' := by
  cases ev with
  | mmap len => exact (hi.mmap hs).1
  | munmap r => exact (hi.munmap hs).1
  | store j v =>
    simp only [step, Option.ite_none_right_eq_some, Option.some_inj] at hs
    obtain ⟨hj, rfl⟩ := hs
    exact hi.store hj v

/-! ### In terms of addresses -/

theorem Inv.isSome_libosMmap (hi : Inv h s) {len : ℕ} (hlen : pageCount len < 2 ^ 31) :
    (libosMmap s.pm 0 len).isSome := by
  rw [libosMmap_eq hlen]
  rcases Nat.eq_zero_or_pos (pageCount len) with hzero | hpos
  · simp [hzero, allocPages]
  · have hok := allocPages_ok hi.geometry hi.clock_le hpos
    generalize s.pm.allocPages (pageCount len) = result at hok
    cases hok <;> rfl

theorem mem_span_iff {base first x : ℕ} {r : Region} (haddr : r.addr = base + 4096 * first) :
    x ∈ r.span.bytes ↔ base ≤ x ∧ (x - base) / 4096 ∈ (pageSpan base r).bytes := by
  unfold Region.span pageSpan
  rw [mem_bytes, mem_bytes, haddr]
  omega

theorem Inv.separated_span (hi : Inv h s) : Span.Separated (s.live.map Region.span) := by
  refine pairwise_map.2 ((pairwise_map.1 hi.separated).imp_of_mem fun {q r} hq hr hd => ?_)
  obtain ⟨-, f, hf, -⟩ := hi.region q hq
  obtain ⟨-, g, hg, -⟩ := hi.region r hr
  refine Set.disjoint_left.2 fun x hxq hxr => ?_
  exact Set.disjoint_left.1 hd ((mem_span_iff hf).1 hxq).2 ((mem_span_iff hg).1 hxr).2

theorem Inv.bit_iff (hi : Inv h s) {i : ℕ} (hlt : i < s.pm.pages) : s.pm.getBit i = true ↔
    ∃ r ∈ s.live, s.pm.availableBase + 4096 * i ∈ r.span.bytes := by
  rw [hi.bits i hlt, mem_covered_map]
  refine exists_congr fun r => and_congr_right fun hr => ?_
  obtain ⟨-, first, haddr, -⟩ := hi.region r hr
  rw [mem_span_iff haddr, Nat.add_sub_cancel_left, Nat.mul_div_cancel_left _ (by decide)]
  exact (and_iff_right (Nat.le_add_right ..)).symm

theorem Inv.restored (hi : Inv h s) {len : ℕ} {r : Region} {s₁ s₂ : State}
    (h1 : step h s (.mmap len) = some s₁) (hlive : s₁.live = r :: s.live)
    (h2 : step h s₁ (.munmap r) = some s₂) (i : ℕ) : s₂.pm.getBit i = s.pm.getBit i := by
  obtain ⟨hi1, hmap⟩ := hi.mmap h1
  obtain ⟨-, first', haddr, hpm2⟩ := hi1.munmap h2
  rcases hmap with hsame | ⟨clock, first, hnew, hpm1, -, hclear⟩
  · rw [hsame] at hlive
    simp at hlive
  · obtain rfl : _ = r := (List.cons.inj (hnew.symm.trans hlive)).1
    rw [hpm1, setBits_availableBase] at haddr
    obtain rfl : first = first' := by
      dsimp only at haddr
      omega
    rw [hpm2, hpm1, getBit_setBits, getBit_setBits]
    by_cases hin : first ≤ i ∧ i < first + pageCount len
    · have hfree := hclear (i - first) (by omega)
      rw [Nat.add_sub_cancel' hin.1] at hfree
      rw [if_pos hin, hfree]
    · rw [if_neg hin, if_neg hin]
      rfl

theorem Inv.wellMapped (hi : Inv h s) : WellMapped h s where
  returns _ := hi.isSome_libosMmap
  aligned r hr := by
    obtain ⟨-, first, haddr, -⟩ := hi.region r hr
    rw [haddr]
    exact (Nat.dvd_add_iff_right hi.geometry.base_dvd).1 (Nat.dvd_mul_right ..)
  within r hr := by
    obtain ⟨-, first, haddr, hin⟩ := hi.region r hr
    have hlength := hi.geometry.length_eq
    omega
  separated := hi.separated_span
  bit_iff _ := hi.bit_iff
  restored _ _ _ _ h1 hlive h2 i _ := hi.restored h1 hlive h2 i

/-- **The mapped regions are page-aligned, lie in the heap and are disjoint, and the bitmap says which
pages are mapped**, after any calls of `libos_mmap` and `libos_munmap` and any stores of the program. -/
theorem wellMapped_run (hok : h.Ok) {evs : List Event}
    (hrun : run (step h) (init h) evs = some s) : WellMapped h s :=
  (run_induction (fun _ _ _ hi hs => inv_step hi hs) evs (inv_init hok) hrun).wellMapped

end Step

/-- The heap of 300 MiB that the loader makes. -/
def loaderHeap : Heap := ⟨0x100000000, 300 * 1024 * 1024, fun _ => 0#8⟩

theorem wellMapped_run_loaderHeap :
    ∃ s, run (step loaderHeap) (init loaderHeap)
        [.mmap 10000, .mmap 5, .munmap ⟨0x100003000, 10000⟩] = some s ∧
      s.live = [⟨0x100006000, 5⟩] ∧ WellMapped loaderHeap s := by
  have hok : loaderHeap.Ok := ⟨by decide, by decide, by decide +kernel⟩
  obtain ⟨s, hrun, hlive⟩ : ∃ s, run (step loaderHeap) (init loaderHeap)
      [.mmap 10000, .mmap 5, .munmap ⟨0x100003000, 10000⟩] = some s ∧
      s.live = [⟨0x100006000, 5⟩] := ⟨_, rfl, rfl⟩
  exact ⟨s, hrun, hlive, wellMapped_run hok hrun⟩

end Mmap

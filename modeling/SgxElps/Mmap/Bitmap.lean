/-
**Whether the bitmap has a bit for every page.**

The constructor of `PageManager` puts the bitmap behind the header and clears `length / 32768` bytes of
it, one bit for each page of the heap, rounded down to whole bytes.  The pages that the header and the
bitmap take up need no bits, so that this is enough if they make up for the rounding.  `allocPages`
probes one index more than there are pages.  The last byte it reads is one of those that were cleared
if and only if the number of pages of the heap, modulo 8, is less than the number of pages of the header.

Main definitions: `BitmapCovers`, `HeaderFits`.  Main result: `bitmap_covers_iff`.
-/

import SgxElps.Mmap.Search

namespace Mmap

open PageManager

/-- **Every byte of the bitmap that a page index leads to** holds zero after the constructor, whatever
the memory held before, and lies below the available pages. -/
def BitmapCovers (h : Heap) : Prop :=
  ∀ index ≤ h.pageManager.pages,
    (∀ memory, (PageManager.new h.base h.length memory).bitset (index / 8) = 0#8) ∧
      h.base + headerLen + index / 8 < h.pageManager.availableBase

/-- The number of pages of the header and the bitmap. -/
def headerPages (length : ℕ) : ℕ := (headerLen + bitsetByteLen length + 4095) / 4096

/-- The header and the bitmap leave room in the heap, and the pages they take up make up for the bits
that are lost by rounding down. -/
def HeaderFits (length : ℕ) : Prop :=
  4096 * headerPages length < length ∧ length / 4096 % 8 < headerPages length

theorem bitset_new_eq_zero_iff {base length i : ℕ} :
    (∀ memory, (PageManager.new base length memory).bitset i = 0#8) ↔ i < bitsetByteLen length := by
  constructor
  · intro h
    by_contra hge
    have hone := h fun _ => 1#8
    simp [PageManager.new, hge] at hone
  · intro hlt memory
    simp [PageManager.new, hlt]

variable {h : Heap}

theorem bitmapCovers_iff_last : BitmapCovers h ↔
    h.pageManager.pages / 8 < bitsetByteLen h.length ∧
      h.base + headerLen + h.pageManager.pages / 8 < h.pageManager.availableBase := by
  constructor
  · intro hcovers
    obtain ⟨hzero, hbelow⟩ := hcovers _ le_rfl
    exact ⟨bitset_new_eq_zero_iff.1 hzero, hbelow⟩
  · rintro ⟨hzero, hbelow⟩ index hindex
    have hle : index / 8 ≤ h.pageManager.pages / 8 := Nat.div_le_div_right hindex
    exact ⟨bitset_new_eq_zero_iff.2 (hle.trans_lt hzero), by omega⟩

theorem place_of_fits (hbase : 4096 ∣ h.base) (hfits : h.base + h.length ≤ 2 ^ 64)
    (hheader : 4096 * headerPages h.length < h.length) :
    h.pageManager.availableBase = h.base + 4096 * headerPages h.length ∧
      h.pageManager.pages = h.length / 4096 - headerPages h.length := by
  obtain ⟨first, hfirst⟩ := hbase
  simp only [Heap.pageManager, PageManager.new, pages, pageFloor, headerLen, headerPages] at *
  generalize bitsetByteLen h.length = bytes at *
  rw [Nat.mod_eq_of_lt (by omega : h.base + 32 + bytes < 2 ^ 64), Nat.mod_eq_of_lt (by omega)]
  unfold toSize
  omega

theorem bitsetByteLen_eq_zero {length : ℕ} (hheader : length ≤ 4096 * headerPages length) :
    bitsetByteLen length = 0 := by
  have hbytes : bitsetByteLen length = length / 32768 := rfl
  simp only [headerPages, headerLen] at hheader
  omega

/-- **Which heaps have a bit for every index.**  For every page-aligned heap in the address space in
which at least one page is available. -/
theorem bitmap_covers_iff (h : Heap) (hbase : 4096 ∣ h.base) (hfits : h.base + h.length ≤ 2 ^ 64)
    (hpages : 0 < h.pageManager.pages) : BitmapCovers h ↔ HeaderFits h.length := by
  rw [bitmapCovers_iff_last, HeaderFits]
  have hbytes : bitsetByteLen h.length = h.length / 32768 := rfl
  by_cases hheader : 4096 * headerPages h.length < h.length
  · obtain ⟨hplace, hcount⟩ := place_of_fits hbase hfits hheader
    have hend : headerLen + bitsetByteLen h.length ≤ 4096 * headerPages h.length := by
      unfold headerPages
      omega
    rw [hplace, hcount] at *
    omega
  · have hzero := bitsetByteLen_eq_zero (Nat.le_of_not_lt hheader)
    omega

/-- A heap of eight pages. -/
def eightPages : Heap := ⟨0x100000000, 32768, fun _ => 0xff#8⟩

/-- Seven pages and the index behind them have their bits in the byte that is cleared. -/
theorem bitmap_covers_iff_eightPages : HeaderFits eightPages.length ∧ BitmapCovers eightPages := by
  have hheader : HeaderFits eightPages.length := ⟨by decide, by decide⟩
  exact ⟨hheader, (bitmap_covers_iff eightPages ⟨0x100000, rfl⟩ (by decide) (by decide)).2 hheader⟩

/-- A heap of nine pages, of which eight are available. -/
def ninePages : Heap := ⟨0x100000000, 36864, fun _ => 0xff#8⟩

/-- **One byte is cleared, and the index 8 leads to the second one**: `allocPages` reads there what the
memory held before. -/
theorem bitmap_reads_uncleared :
    4096 ∣ ninePages.base ∧ ninePages.base + ninePages.length ≤ 2 ^ 64 ∧
      ninePages.pageManager.pages = 8 ∧ ninePages.pageManager.getBit 8 = true ∧
      ¬ BitmapCovers ninePages := by
  refine ⟨⟨0x100000, rfl⟩, by decide, by decide, by decide, fun hcovers => ?_⟩
  have hlast := (bitmapCovers_iff_last.1 hcovers).1
  exact absurd hlast (by decide)

end Mmap

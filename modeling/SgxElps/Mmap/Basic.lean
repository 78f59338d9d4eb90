/-
**The page manager: `libos_mmap` and `libos_munmap`.**

`libOS/mmap.cpp` hands out pages of the heap.  A `PageManager` sits at the start of the heap and keeps
one bit for each page; `allocPages` looks for a run of clear bits with a clock that goes round the
bitmap, and `explicitPage` checks a range of pages and sets their bits.  The clock also stops at the
index one past the last page, whose bit belongs to no page and may lie in memory that is handed out.

Sizes and addresses are 64-bit numbers, page counts are 32-bit integers: where the source computes in
these types, the definitions do as well.

Main definitions: `PageManager`, `allocPages`, `libosMmap`, `step`.  Main result: `getBit_setBits`.
-/

import SgxElps.Lib.Transition
import SgxElps.Lib.BitWord
import SgxElps.Lib.Span
import Mathlib.Algebra.Group.Int.Defs
import Mathlib.Algebra.Group.Nat.Defs
import Mathlib.Logic.Function.Basic

namespace Mmap

/-! ### Machine arithmetic -/

/-- The conversion to `int`. -/
def toInt (z : ℤ) : ℤ := z.bmod (2 ^ 32)

/-- The conversion to `uint64_t` or `size_t`. -/
def toSize (z : ℤ) : ℕ := (z % 2 ^ 64).toNat

/-- `x & ~4095`. -/
def pageFloor (x : ℕ) : ℕ := x / 4096 * 4096

/-- `(void *)-1`. -/
def mapFailed : ℕ := 2 ^ 64 - 1

theorem toInt_of_lt {n : ℕ} (h : n < 2 ^ 31) : toInt n = n :=
  Int.bmod_eq_of_le (by omega) (by omega)

theorem toInt_lt (z : ℤ) : toInt z < 2 ^ 31 := by
  have hlt := Int.bmod_lt (x := z) (m := 2 ^ 32) (by decide)
  unfold toInt
  omega

theorem toSize_of_lt {n : ℕ} (h : n < 2 ^ 64) : toSize n = n := by
  unfold toSize
  omega

/-- The number of a page, from its address. -/
theorem toSize_pageIndex {base first : ℕ} (hlt : 4096 * first < 2 ^ 64) :
    toSize ((base + 4096 * first : ℕ) - base) / 4096 = first := by
  rw [show ((base + 4096 * first : ℕ) - base : ℤ) = (4096 * first : ℕ) by omega, toSize_of_lt hlt]
  omega

/-! ### The page manager -/

structure PageManager where
  availableBase : ℕ
  availableLength : ℕ
  clock : ℕ
  bitset : ℕ → BitVec 8

namespace PageManager

/-- `offsetof(PageManager, bitset)`. -/
def headerLen : ℕ := 32

def bitsetByteLen (length : ℕ) : ℕ := length / (4096 * 8)

/-- The constructor; `memory` is what the memory of `bitset` and behind it holds before. -/
def new (base length : ℕ) (memory : ℕ → BitVec 8) : PageManager :=
  let start := (base + headerLen + bitsetByteLen length) % 2 ^ 64
  let availableBase := pageFloor ((start + 4095) % 2 ^ 64)
  { availableBase := availableBase
    availableLength := pageFloor (toSize (base + length - availableBase))
    clock := 0
    bitset := fun i => if i < bitsetByteLen length then 0#8 else memory i }

variable (pm : PageManager)

/-- `availableLength / 4096`, the number of pages. -/
def pages : ℕ := pm.availableLength / 4096

def getBit (index : ℕ) : Bool := (pm.bitset (index / 8) >>> (index % 8) &&& 1#8) != 0#8

def setBit (index : ℕ) (t : Bool) : PageManager :=
  let temp := pm.bitset (index / 8)
  { pm with
    bitset := Function.update pm.bitset (index / 8)
      (if t then temp ||| 1#8 <<< (index % 8) else temp &&& ~~~(1#8 <<< (index % 8))) }

/-- The loop `for (int i = 0; i < n; i++) setBit(start + i, t)`. -/
def setBits (start : ℕ) (t : Bool) : ℕ → PageManager
  | 0 => pm
  | n + 1 => (setBits start t n).setBit (start + n) t

def explicitPage (addr : ℕ) (nPages : ℤ) : PageManager × Bool :=
  if addr < pm.availableBase ∨ (pm.availableBase + pm.availableLength) % 2 ^ 64 <
      (addr + toSize (toInt (nPages * 4096))) % 2 ^ 64 then
    (pm, false)
  else
    let start := toSize (addr - pm.availableBase) / 4096
    if ∃ i < nPages.toNat, pm.getBit (start + i) then (pm, false)
    else (pm.setBits start true nPages.toNat, true)

def freePages (addr : ℕ) (nPages : ℤ) : PageManager :=
  pm.setBits (toSize (addr - pm.availableBase) / 4096) false nPages.toNat

/-- How the loop of `allocPages` ends, with the last value of the clock. -/
inductive Scan where
  /-- `nConsec` has reached `nPages`. -/
  | found (clock : ℕ)
  /-- The clock is back at `start`. -/
  | exhausted (clock : ℕ)

/-- The loop of `allocPages`, for at most `fuel` rounds. -/
def scan (start nPages : ℕ) : (fuel clock nConsec : ℕ) → Option Scan
  | 0, _, _ => none
  | fuel + 1, clock, nConsec =>
      let nConsec := if pm.getBit clock then 0 else nConsec + 1
      if nConsec = nPages then some (.found clock)
      else
        let wrap : Prop := clock + 1 > pm.pages
        let clock := if wrap then 0 else clock + 1
        if clock = start then some (.exhausted clock)
        else scan start nPages fuel clock (if wrap then 0 else nConsec)

/-- `allocPages`; `none` means that its loop does not end.  The clock takes at most `pages + 1`
values, so the loop cannot go on for longer. -/
def allocPages (nPages : ℤ) : Option (PageManager × ℕ) :=
  if nPages ≤ 0 then some (pm, 0)
  else
    match pm.scan pm.clock nPages.toNat (pm.pages + 1) pm.clock 0 with
    | none => none
    | some (.exhausted clock) => some ({ pm with clock := clock }, mapFailed)
    | some (.found clock) =>
        let ret := toSize (pm.availableBase + (clock - nPages + 1) * 4096)
        match { pm with clock := clock }.explicitPage ret nPages with
        | (pm', true) => some (pm', ret)
        | (pm', false) => some (pm', mapFailed)

end PageManager

/-! ### The calls -/

def libosMmap (pm : PageManager) (base len : ℕ) : Option (PageManager × ℕ) :=
  let len := (len + 4095) % 2 ^ 64
  if base = 0 then pm.allocPages (toInt (len / 4096 : ℕ))
  else
    match pm.explicitPage base (toInt len) with
    | (pm', true) => some (pm', base)
    | (pm', false) => pm'.allocPages (toInt (len / 4096 : ℕ))

def libosMunmap (pm : PageManager) (base len : ℕ) : PageManager :=
  let len := pageFloor ((len + 4095) % 2 ^ 64)
  pm.freePages base (toInt (len / 4096 : ℕ))

/-- What `libos_mmap` was asked for and has returned. -/
structure Region where
  addr : ℕ
  len : ℕ
deriving DecidableEq

/-- The number of pages of a region of `len` bytes. -/
def pageCount (len : ℕ) : ℕ := (len + 4095) / 4096

/-- The heap a `PageManager` is made for. -/
structure Heap where
  base : ℕ
  length : ℕ
  /-- What the heap holds at the place of the bitmap and behind it. -/
  memory : ℕ → BitVec 8

/-- The page manager that is constructed in a heap. -/
def Heap.pageManager (h : Heap) : PageManager := .new h.base h.length h.memory

/-- A heap shorter than 2 GiB, below the last page of the address space, whose bitmap has a bit for each
page. -/
structure Heap.Ok (h : Heap) : Prop where
  length_lt : h.length < 2 ^ 31
  fits : h.base + h.length + 4096 < 2 ^ 64
  covers : h.pageManager.pages ≤ 8 * PageManager.bitsetByteLen h.length

/-- The page manager and the regions that are mapped. -/
structure State where
  pm : PageManager
  live : List Region

def init (h : Heap) : State := ⟨h.pageManager, []⟩

inductive Event where
  | mmap (len : ℕ)
  | munmap (r : Region)
  /-- A store of the program to the byte that would be `bitset[i]`, behind the bitmap. -/
  | store (i : ℕ) (v : BitVec 8)

def step (h : Heap) (s : State) : Event → Option State
  | .mmap len =>
      if pageCount len < 2 ^ 31 then
        (libosMmap s.pm 0 len).map fun (pm, p) =>
          ⟨pm, if p = 0 ∨ p = mapFailed then s.live else ⟨p, len⟩ :: s.live⟩
      else none
  | .munmap r =>
      if r ∈ s.live then some ⟨libosMunmap s.pm r.addr r.len, s.live.erase r⟩ else none
  | .store i v =>
      if PageManager.bitsetByteLen h.length ≤ i then
        some { s with pm := { s.pm with bitset := Function.update s.pm.bitset i v } }
      else none

/-! ### Bits -/

namespace PageManager

variable {pm : PageManager} {start n i j : ℕ} {t : Bool}

theorem getBit_eq_tableBit : pm.getBit i = BitWord.tableBit pm.bitset i :=
  BitWord.shiftRight_and_one (by decide)

theorem getBit_setBit : (pm.setBit j t).getBit i = if i = j then t else pm.getBit i := by
  rw [getBit_eq_tableBit, getBit_eq_tableBit]
  cases t with
  | true => exact BitWord.tableBit_set (by decide)
  | false => exact BitWord.tableBit_clear (by decide)

/-- **The bits of the range are set to `t`, the others are kept.** -/
theorem getBit_setBits : (pm.setBits start t n).getBit i =
    if start ≤ i ∧ i < start + n then t else pm.getBit i := by
  induction n with
  | zero => rw [setBits, if_neg (by omega)]
  | succ n ih =>
    rw [setBits, getBit_setBit, ih]
    by_cases hi : i = start + n
    · rw [if_pos hi, if_pos (by omega)]
    · rw [if_neg hi]
      congr 1
      rw [eq_iff_iff]
      omega

theorem setBits_frame : pm.setBits start t n =
    { pm with bitset := (pm.setBits start t n).bitset } := by
  induction n with
  | zero => rfl
  | succ n ih =>
    rw [setBits, ih]
    rfl

end PageManager

end Mmap

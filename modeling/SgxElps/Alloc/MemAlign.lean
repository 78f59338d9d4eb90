/-
**`memAlign` leaves the block it returns without a header.**

`memAlign` asks `malloc` for a block that is long enough for a header, the alignment and the size, gives
the part before the aligned address back as a free block, and returns the aligned address.  The
statement that would write a header in front of the returned block is commented out, so that
`free` and `getLen` find there whatever the memory happened to hold; and the pointer that `malloc`
returns is used without a look at whether it is null: then the first store is at `-MA_SIZE`.

What the front part needs is done right: with it the heap is well formed again, with the returned block
in nobody's hands.  The returned block itself can be freed only if a header of an earlier block was left at
the right place.

Main definitions: `memAlign`, `MemAlignMeets`.  Main results: `memAlign_eq`, `memAlign_meets_iff`.
-/

import SgxElps.Lib.RoundUp
import SgxElps.Alloc.Coalescing

namespace Alloc

open Function (update update_idem update_of_ne update_self)
open List
open Span

/-! ### The operations -/

/-- The difference of two numbers of type `size_t`. -/
def subSize (x y : ℕ) : ℕ := (x + 2 ^ 64 - y) % 2 ^ 64

/-- The loop that looks for the next multiple of `alignment`, for at most `rounds` rounds. -/
def alignLoop (alignment : ℕ) : (rounds newTmp : ℕ) → ℕ
  | 0, newTmp => newTmp
  | rounds + 1, newTmp =>
      if newTmp % alignment ≠ 0 then alignLoop alignment rounds ((newTmp + 1) % 2 ^ 64) else newTmp

/-- The length that `memAlign` asks `malloc` for. -/
def memAlignLen (alignment size : ℕ) : ℕ := (size + minPreserveSize + alignment) % 2 ^ 64

/-- `newAddr`: the loop meets a multiple of the alignment after fewer than `alignment` rounds. -/
def newAddr (alignment oldAddr : ℕ) : ℕ :=
  alignLoop alignment alignment ((oldAddr + minPreserveSize) % 2 ^ 64)

/-- `oldLen`, the length of the front part. -/
def oldLen (alignment oldAddr : ℕ) : ℕ := subSize (subSize (newAddr alignment oldAddr) maSize) oldAddr

/-- `memAlign` after its call of `malloc`, which has returned `oldAddr`.  If that is null, `maOld->free` is
at the end of the address space, where nothing is ever mapped. -/
def carve (s : Allocator) (alignment oldAddr : ℕ) : Except Fault (ℕ × Allocator) :=
  if oldAddr = 0 then .error .unmapped
  else
    let maOld := subSize oldAddr maSize
    let s := s.setHeader maOld { s.mem maOld with free := true }
    let s := s.setHeader maOld { s.mem maOld with len := oldLen alignment oldAddr }
    let s := s.insertRoot maOld
    if oldLen alignment oldAddr = 1 then .ok (newAddr alignment oldAddr, s.pushBack 0 maOld)
    else
      (sizeToBucket (oldLen alignment oldAddr)).map fun i =>
        (newAddr alignment oldAddr, s.pushBack i maOld)

/-- `memAlign`: the pointer returned, and the allocator. -/
def memAlign (s : Allocator) (alignment size : ℕ) : Except Fault (ℕ × Allocator) :=
  if size = 0 then .ok (0, s)
  else (malloc s (memAlignLen alignment size)).bind fun r => carve r.2 alignment r.1

def getLen (s : Allocator) (ptr : ℕ) : ℕ := if ptr = 0 then 0 else (s.mem (ptr - maSize)).len

/-! ### What the caller relies on -/

/-- **The block at `p` is aligned and can be freed.**  It was cut out of the block of `len` bytes at
`old`; the allocator is `s` afterwards, and the other blocks in the hands of the client are `live`. -/
structure Aligned (s : Allocator) (live : List (ℕ × ℕ)) (regions : List Span)
    (alignment size old len p : ℕ) : Prop where
  dvd : alignment ∣ p
  inside : old ≤ p ∧ p + size ≤ old + len
  /-- The header in front of `p` … -/
  long : size ≤ (s.mem (p - maSize)).len
  memBase : (s.mem (p - maSize)).memBase = p - maSize
  used : (s.mem (p - maSize)).free = false
  /-- … is that of a block behind the front part … -/
  behind : Disjoint (blockAt s.mem (p - maSize)).bytes (blockAt s.mem (old - maSize)).bytes
  /-- … which is a proper block of the client … -/
  consistent : Ok s ((p - maSize, (s.mem (p - maSize)).len) :: live) regions ∅
  /-- … and is given back by `free`. -/
  returned : (∀ l ∈ freeArgs (s.insertRoot (p - maSize)) (p - maSize), ¬ 2 ^ 32 ∣ l) →
    ∃ al, free { s with touched := [] } p = .ok al ∧ Ok al live regions ∅ ∧
      freeBlocks al = coalesce (freeBlocks s) (blockAt s.mem (p - maSize))

/-- **What the caller of `memAlign` relies on**: null and no change if `malloc` fails, and otherwise a
block that is aligned and can be freed. -/
def MemAlignMeets (s : Allocator) (live : List (ℕ × ℕ)) (regions : List Span)
    (alignment size : ℕ) : Prop :=
  match malloc s (memAlignLen alignment size) with
  | .error _ => False
  | .ok (old, _) =>
      if old = 0 then memAlign s alignment size = .ok (0, s)
      else
        ∃ p s', memAlign s alignment size = .ok (p, s') ∧
          (p ≠ 0 → Aligned s' live regions alignment size old (memAlignLen alignment size) p)

/-- **The memory at `q` holds the header of an earlier block**, that has `size` bytes, was in use, and
overlaps no block that will be there once `len` bytes of the free block `a` are taken. -/
structure StaleHeader (s : Allocator) (live : List (ℕ × ℕ)) (regions : List Span)
    (a len size q : ℕ) : Prop where
  long : size ≤ (s.mem q).len
  memBase : (s.mem q).memBase = q
  used : (s.mem q).free = false
  canary : (s.mem q).canary = 0xbeefbeef
  free : ∀ x ∈ take (freeBlocks s) a len, Disjoint (blockAt s.mem q).bytes x.bytes
  live : ∀ b ∈ live, Disjoint (blockAt s.mem q).bytes (liveBlock b).bytes
  inside : (blockAt s.mem q).bytes ⊆ covered regions

/-- **The calls of `memAlign` that do what their caller relies on.**  `malloc` finds a block, the
buckets are defined, and either the address wraps to null, or it is that of `size` bytes in the block
with room for a header before them, and an earlier block has left its header there. -/
def MemAlignFits (s : Allocator) (live : List (ℕ × ℕ)) (regions : List Span)
    (alignment size : ℕ) : Prop :=
  let len := memAlignLen alignment size
  ∃ a, len ≠ 0 ∧ findChunk s.mem s.chunkList len (range chunkListSize) = some a ∧
    (∀ l ∈ mallocArgs s len, ¬ 2 ^ 32 ∣ l) ∧ ¬ 2 ^ 32 ∣ oldLen alignment (a + maSize) ∧
    (newAddr alignment (a + maSize) = 0 ∨
      a + maSize + maSize ≤ newAddr alignment (a + maSize) ∧
        newAddr alignment (a + maSize) + size ≤ a + maSize + len ∧
        StaleHeader s live regions a len size (newAddr alignment (a + maSize) - maSize))

/-! ### The arithmetic -/

section Arithmetic

variable {alignment size old x y : ℕ}

theorem subSize_of_le (hx : x < 2 ^ 64) (hy : y ≤ x) : subSize x y = x - y := by
  unfold subSize
  omega

/-- **The loop ends at the next multiple**, or at zero if this is not below `2 ^ 64`. -/
theorem alignLoop_eq (hal : 0 < alignment) (rounds : ℕ) (hx : x < 2 ^ 64)
    (hrounds : roundUp alignment x ≤ x + rounds) :
    alignLoop alignment rounds x =
      if roundUp alignment x < 2 ^ 64 then roundUp alignment x else 0 := by
  induction rounds generalizing x with
  | zero =>
    have heq : roundUp alignment x = x := le_antisymm hrounds (le_roundUp hal)
    rw [alignLoop, heq, if_pos hx]
  | succ rounds ih =>
    rw [alignLoop]
    by_cases hdvd : alignment ∣ x
    · rw [if_neg (not_not.2 (Nat.mod_eq_zero_of_dvd hdvd)), roundUp_eq_of_dvd hal hdvd, if_pos hx]
    · have hne : x % alignment ≠ 0 := fun h0 => hdvd (Nat.dvd_of_mod_eq_zero h0)
      rw [if_pos hne]
      by_cases hlast : x + 1 < 2 ^ 64
      · rw [Nat.mod_eq_of_lt hlast, ih hlast (by rw [roundUp_succ hal hdvd]; omega),
          roundUp_succ hal hdvd]
      · -- the next address is zero, a multiple of everything
        have hwrap : (x + 1) % 2 ^ 64 = 0 := by omega
        have hzero : roundUp alignment 0 = 0 := roundUp_eq_of_dvd hal (Nat.dvd_zero _)
        have hbeyond : ¬ roundUp alignment x < 2 ^ 64 := by
          rw [← roundUp_succ hal hdvd]
          exact fun hlt => hlast ((le_roundUp hal).trans_lt hlt)
        rw [hwrap, ih (by decide) (by rw [hzero]; omega), hzero, if_pos (by decide),
          if_neg hbeyond]

theorem newAddr_eq_ite (hal : 0 < alignment) :
    newAddr alignment old =
      if roundUp alignment ((old + minPreserveSize) % 2 ^ 64) < 2 ^ 64 then
        roundUp alignment ((old + minPreserveSize) % 2 ^ 64) else 0 :=
  alignLoop_eq hal alignment (Nat.mod_lt _ (by decide)) (roundUp_lt hal).le

end Arithmetic

/-! ### The front part -/

variable {s s₁ : Allocator} {live : List (ℕ × ℕ)} {regions : List Span}
  {a len n i alignment size : ℕ}

/-- The block `a` gets the length `n` and is put in the tree and in a list. -/
def Allocator.giveFront (s : Allocator) (a n i : ℕ) : Allocator :=
  let s := s.setHeader a { s.mem a with free := true }
  let s := s.setHeader a { s.mem a with len := n }
  (s.insertRoot a).pushBack i a

theorem giveFront_mem :
    (s.giveFront a n i).mem = update s.mem a { s.mem a with free := true, len := n } := by
  simp only [Allocator.giveFront, Allocator.setHeader, Allocator.insertRoot, Allocator.pushBack,
    update_self, update_idem]

theorem giveFront_mem_of_ne {x : ℕ} (hx : x ≠ a) : (s.giveFront a n i).mem x = s.mem x := by
  rw [giveFront_mem, update_of_ne hx]

theorem freeBlocks_giveFront (ha : a ∉ s.root) :
    freeBlocks (s.giveFront a n i) = insert ⟨a, maSize + n⟩ (freeBlocks s) := by
  let s₁ := s.setHeader a { s.mem a with free := true }
  let s₂ := s₁.setHeader a { s₁.mem a with len := n }
  change freeBlocks (s₂.insertRoot a) = _
  have hblock : blockAt s₂.mem a = ⟨a, maSize + n⟩ := by
    simp only [s₂, s₁, Allocator.setHeader, blockAt, update_self]
  rw [freeBlocks_insertRoot, hblock, freeBlocks_setHeader (show a ∉ s₁.root from ha),
    freeBlocks_setHeader ha]

/-- **A live block is cut**: its front part is free, the rest is nobody's. -/
theorem giveFront_ok (h : Ok s ((a, len) :: live) regions ∅) (hn : n ≤ len)
    (hi : i < chunkListSize) : Ok (s.giveFront a n i) live regions ∅ := by
  obtain ⟨hrest, hheader, hfresh⟩ := Heap.live_cons_iff.1 h
  let ma : MemoryArea := { s.mem a with free := true, len := n }
  have hspan : Heap.Fresh s.mem s.root live regions ⟨a, maSize + ma.len⟩ :=
    hfresh.of_subset (bytes_subset (le_refl _) (by simp only [liveBlock, ma]; omega))
  have hinsert := hrest.insert hspan (congrArg MemoryArea.memBase hheader)
    (congrArg MemoryArea.canary hheader)
  have hfree : (update s.mem a ma a).free = true := by
    rw [update_self]
  have hlink := hinsert.link hi (mem_insertEqual.2 (Or.inl rfl)) (Set.mem_insert ..) hfree
  rw [insert_empty_eq, Set.sdiff_self] at hlink
  rw [Ok, giveFront_mem]
  have hroot : (s.giveFront a n i).root =
      insertEqual (fun b => (update s.mem a ma b).memBase) a s.root := by
    rw [← giveFront_mem (i := i)]
    rfl
  rw [hroot]
  exact hlink

theorem carve_eq (ha : a + maSize < 2 ^ 64) {alignment : ℕ}
    (harg : ¬ 2 ^ 32 ∣ oldLen alignment (a + maSize)) :
    ∃ i < chunkListSize, carve s alignment (a + maSize) =
      .ok (newAddr alignment (a + maSize), s.giveFront a (oldLen alignment (a + maSize)) i) := by
  have hold : subSize (a + maSize) maSize = a := by
    rw [subSize_of_le ha (Nat.le_add_left ..), Nat.add_sub_cancel]
  have hne : a + maSize ≠ 0 := by simp [maSize]
  unfold carve
  rw [if_neg hne, hold]
  simp only
  split
  · exact ⟨0, by decide, rfl⟩
  · obtain ⟨i, hi, hbucket⟩ := sizeToBucket_ok harg
    refine ⟨i, hi, ?_⟩
    rw [hbucket]
    rfl

theorem carve_error {old : ℕ} (hold : old ≠ 0) (harg : 2 ^ 32 ∣ oldLen alignment old) :
    carve s alignment old = .error .undefinedClz := by
  have hne : oldLen alignment old ≠ 1 := by
    intro heq
    rw [heq] at harg
    exact absurd (Nat.le_of_dvd (by decide) harg) (by decide)
  unfold carve
  rw [if_neg hold, if_neg hne, sizeToBucket_error harg]
  rfl

/-! ### The call of `malloc` -/

theorem malloc_mem_of_ne {x : ℕ} (hs : malloc s len = .ok (a + maSize, s₁)) (hx : x ≠ a)
    (hrest : x ≠ a + maSize + len) : s₁.mem x = s.mem x := by
  have hout : ∀ b, (s.takeOut b len).mem = update s.mem b
      { s.mem b with free := false, len := len } := fun b => rfl
  rcases malloc_cases hs with ⟨h0, -⟩ | ⟨b, -, -, hb, hsplit⟩
  · exact absurd h0 (by simp [maSize])
  obtain rfl : a = b := Nat.add_right_cancel hb
  rcases splitRest_cases hsplit with ⟨-, rfl⟩ | ⟨-, j, -, rfl⟩
  · rw [hout, update_of_ne hx]
  · change update (s.takeOut a len).mem _ _ x = _
    rw [update_of_ne hrest, hout, update_of_ne hx]

theorem Ok.live_end_le (h : Ok s ((a, len) :: live) regions ∅)
    (hregions : ∀ r ∈ regions, r.start + r.len ≤ 2 ^ 64) : a + maSize + len ≤ 2 ^ 64 := by
  have hms : 0 < maSize := by decide
  have hlast : a + maSize + len - 1 ∈ (liveBlock (a, len)).bytes :=
    ⟨by simp only [liveBlock]; omega, by simp only [liveBlock]; omega⟩
  obtain ⟨r, hr, -, hlt⟩ := h.inside _ (Heap.mem_blocks_of_live mem_cons_self) hlast
  have := hregions r hr
  omega

/-- **What `memAlign` does**, with the block that `malloc` has found. -/
theorem memAlign_eq (hsize : 0 < size) {old : ℕ}
    (hm : malloc s (memAlignLen alignment size) = .ok (old, s₁)) :
    memAlign s alignment size = carve s₁ alignment old := by
  rw [memAlign, if_neg hsize.ne', hm, Except.bind]

/-! ### The block behind the front part -/

theorem Ok.free_returns {q : ℕ} (h : Ok s ((q, n) :: live) regions ∅)
    (hargs : ∀ l ∈ freeArgs (s.insertRoot q) q, ¬ 2 ^ 32 ∣ l) :
    ∃ al, free { s with touched := [] } (q + maSize) = .ok al ∧ Ok al live regions ∅ ∧
      freeBlocks al = coalesce (freeBlocks s) ⟨q, maSize + n⟩ := by
  let s₀ : Allocator := { s with touched := [] }
  have h0 : Ok s₀ ((q, n) :: live) regions ∅ := h
  obtain ⟨-, -, hfresh⟩ := Heap.live_cons_iff.1 h
  have hother : (((q, n) :: live).filter fun c => c.1 ≠ q) = live := by
    rw [filter_cons_of_neg (by simp)]
    refine filter_eq_self.2 fun c hc => ?_
    have hne : c.1 ≠ q := hfresh.live_ne (Nat.add_pos_left (by decide) _) hc
    simpa using hne
  obtain ⟨al, hal, hok, -⟩ := free_ok h0 rfl (b := (q, n)) mem_cons_self hargs
  refine ⟨al, hal, ?_, freeBlocks_free h0 rfl (b := (q, n)) mem_cons_self hargs hal⟩
  rw [hother] at hok
  exact hok

section Behind

variable (h : Ok s live regions ∅) (hm : malloc s len = .ok (a + maSize, s₁))
  (h₁ : Ok s₁ ((a, len) :: live) regions ∅)

include h hm h₁ in
theorem freeBlocks_behind :
    freeBlocks (s₁.giveFront a n i) = insert ⟨a, maSize + n⟩ (take (freeBlocks s) a len) := by
  have hroot : a ∉ s₁.root := fun hmem => h₁.live_ne hmem mem_cons_self rfl
  have hfree := freeBlocks_malloc h (by simp [maSize]) hm
  rw [Nat.add_sub_cancel] at hfree
  rw [freeBlocks_giveFront hroot, hfree]

include hm in
/-- Nothing is written between the header of the block and that of its rest. -/
theorem mem_behind {q : ℕ} (hq : a < q) (hq' : q < a + maSize + len) :
    (s₁.giveFront a n i).mem q = s.mem q := by
  rw [giveFront_mem_of_ne hq.ne', malloc_mem_of_ne hm hq.ne' hq'.ne]

include h hm h₁ in
/-- **When the block behind the front part is a proper block**: the header that was there before says
so. -/
theorem ok_behind_iff {q : ℕ} (hi : i < chunkListSize) (hq : a + maSize + n = q)
    (hq' : q < a + maSize + len) :
    Ok (s₁.giveFront a n i) ((q, (s.mem q).len) :: live) regions ∅ ↔
      s.mem q = ⟨(s.mem q).len, false, q, 0xbeefbeef⟩ ∧
      (∀ x ∈ take (freeBlocks s) a len, Disjoint (blockAt s.mem q).bytes x.bytes) ∧
      (∀ b ∈ live, Disjoint (blockAt s.mem q).bytes (liveBlock b).bytes) ∧
      (blockAt s.mem q).bytes ⊆ covered regions := by
  have hms : 0 < maSize := by decide
  have hok : Ok (s₁.giveFront a n i) live regions ∅ := giveFront_ok h₁ (by omega) hi
  have hmem : (s₁.giveFront a n i).mem q = s.mem q := mem_behind hm (by omega) hq'
  have hfree := freeBlocks_behind (n := n) (i := i) h hm h₁
  have hblock : liveBlock (q, (s.mem q).len) = blockAt s.mem q := rfl
  rw [Ok, Heap.live_cons_iff, hmem, hblock]
  constructor
  · rintro ⟨-, hheader, hapart, hinside⟩
    refine ⟨hheader, fun x hx => ?_, fun b hb => hapart _ (Heap.mem_blocks_of_live hb), hinside⟩
    obtain ⟨b, hb, rfl⟩ : x ∈ freeBlocks (s₁.giveFront a n i) := by
      rw [hfree]
      exact Set.mem_insert_of_mem _ hx
    exact hapart _ (Heap.mem_blocks_of_root hb)
  · rintro ⟨hheader, hrest, hlive, hinside⟩
    refine ⟨hok, hheader, fun x hx => ?_, hinside⟩
    rcases mem_append.1 hx with hx | hx
    · obtain ⟨b, hb, rfl⟩ := mem_map.1 hx
      have hfb := blockAt_mem_freeBlocks hb
      rw [hfree] at hfb
      rcases hfb with heq | hfb
      · -- the front part ends where the block begins
        rw [heq]
        exact (disjoint_bytes (c := blockAt s.mem q)
          (by simp only [blockAt]; omega)).symm
      · exact hrest _ hfb
    · obtain ⟨b, hb, rfl⟩ := mem_map.1 hx
      exact hlive b hb

end Behind

/-! ### The returned block -/

theorem newAddr_lt {old : ℕ} (hal : 0 < alignment) : newAddr alignment old < 2 ^ 64 := by
  rw [newAddr_eq_ite hal]
  split
  · next hlt => exact hlt
  · decide

theorem dvd_newAddr {old : ℕ} (hal : 0 < alignment) : alignment ∣ newAddr alignment old := by
  rw [newAddr_eq_ite hal]
  split
  · exact dvd_roundUp ..
  · exact Nat.dvd_zero _

theorem MemoryArea.eq_mk {ma : MemoryArea} {f : Bool} {b c : ℕ} (hf : ma.free = f)
    (hb : ma.memBase = b) (hc : ma.canary = c) : ma = ⟨ma.len, f, b, c⟩ := by
  rw [← hf, ← hb, ← hc]

/-- If there is room for a header, the front part ends where that header begins. -/
theorem front_end (hal : 0 < alignment) (hp : a + maSize + maSize ≤ newAddr alignment (a + maSize)) :
    a + maSize + oldLen alignment (a + maSize) = newAddr alignment (a + maSize) - maSize := by
  have hlt : newAddr alignment (a + maSize) < 2 ^ 64 := newAddr_lt hal
  rw [oldLen, subSize_of_le hlt (by omega), subSize_of_le (by omega) (by omega)]
  omega

theorem front_covers (hal : 0 < alignment) (ha : a + maSize < 2 ^ 64)
    (hp : a + maSize ≤ newAddr alignment (a + maSize))
    (hp' : newAddr alignment (a + maSize) < a + maSize + maSize) :
    newAddr alignment (a + maSize) - maSize ∈
      (⟨a, maSize + oldLen alignment (a + maSize)⟩ : Span).bytes := by
  have hlt : newAddr alignment (a + maSize) < 2 ^ 64 := newAddr_lt hal
  rw [mem_bytes, oldLen, subSize_of_le hlt (by omega), subSize]
  omega

section Returned

variable (h : Ok s live regions ∅) (hal : 0 < alignment)
  (hm : malloc s len = .ok (a + maSize, s₁)) (h₁ : Ok s₁ ((a, len) :: live) regions ∅)
  (hi : i < chunkListSize)

include h hal hm h₁ hi

/-- A header that was left at the right place serves the returned block. -/
theorem StaleHeader.aligned (hsize : 0 < size)
    (hlow : a + maSize + maSize ≤ newAddr alignment (a + maSize))
    (hhigh : newAddr alignment (a + maSize) + size ≤ a + maSize + len)
    (hst : StaleHeader s live regions a len size (newAddr alignment (a + maSize) - maSize)) :
    Aligned (s₁.giveFront a (oldLen alignment (a + maSize)) i) live regions alignment size
      (a + maSize) len (newAddr alignment (a + maSize)) := by
  have hms : 0 < maSize := by decide
  have hfront := front_end hal hlow
  have hdvd : alignment ∣ newAddr alignment (a + maSize) := dvd_newAddr hal
  generalize newAddr alignment (a + maSize) = p at *
  obtain ⟨q, rfl⟩ : ∃ q, p = q + maSize := ⟨p - maSize, by omega⟩
  generalize oldLen alignment (a + maSize) = n at *
  rw [Nat.add_sub_cancel] at hst hfront
  have hmem : (s₁.giveFront a n i).mem q = s.mem q := mem_behind hm (by omega) (by omega)
  have hok : Ok (s₁.giveFront a n i) ((q, (s.mem q).len) :: live) regions ∅ := by
    refine (ok_behind_iff h hm h₁ hi hfront (by omega)).2 ⟨?_, hst.free, hst.live, hst.inside⟩
    exact MemoryArea.eq_mk hst.used hst.memBase hst.canary
  constructor
  case dvd => exact hdvd
  case inside => omega
  case long =>
    rw [Nat.add_sub_cancel, hmem]
    exact hst.long
  case memBase =>
    rw [Nat.add_sub_cancel, hmem]
    exact hst.memBase
  case used =>
    rw [Nat.add_sub_cancel, hmem]
    exact hst.used
  case behind =>
    rw [Nat.add_sub_cancel, Nat.add_sub_cancel]
    refine (disjoint_bytes ?_).symm
    simp only [blockAt, giveFront_mem, update_self]
    omega
  case consistent =>
    rw [Nat.add_sub_cancel, hmem]
    exact hok
  case returned =>
    rw [Nat.add_sub_cancel, blockAt, hmem]
    exact hok.free_returns

theorem Aligned.stale (ha : a + maSize < 2 ^ 64)
    (hp : Aligned (s₁.giveFront a (oldLen alignment (a + maSize)) i) live regions alignment size
      (a + maSize) len (newAddr alignment (a + maSize))) (hsize : 0 < size) :
    a + maSize + maSize ≤ newAddr alignment (a + maSize) ∧
      newAddr alignment (a + maSize) + size ≤ a + maSize + len ∧
      StaleHeader s live regions a len size (newAddr alignment (a + maSize) - maSize) := by
  have hms : 0 < maSize := by decide
  obtain ⟨hge, hle⟩ := hp.inside
  have hlow : a + maSize + maSize ≤ newAddr alignment (a + maSize) := by
    by_contra hlt
    have hbehind := hp.behind
    rw [Nat.add_sub_cancel, blockAt, blockAt, giveFront_mem, update_self] at hbehind
    refine Set.disjoint_left.1 hbehind ?_ (front_covers hal ha hge (Nat.lt_of_not_le hlt))
    exact ⟨le_refl _, by simp only; omega⟩
  have hfront := front_end hal hlow
  have hmem : (s₁.giveFront a (oldLen alignment (a + maSize)) i).mem
      (newAddr alignment (a + maSize) - maSize) = s.mem (newAddr alignment (a + maSize) - maSize) :=
    mem_behind hm (by omega) (by omega)
  have hcons := hp.consistent
  rw [hmem] at hcons
  obtain ⟨hheader, hrest, hlive, hinside⟩ := (ok_behind_iff h hm h₁ hi hfront (by omega)).1 hcons
  refine ⟨hlow, hle, ?_⟩
  constructor
  case long => exact hmem ▸ hp.long
  case memBase => exact congrArg MemoryArea.memBase hheader
  case used => exact congrArg MemoryArea.free hheader
  case canary => exact congrArg MemoryArea.canary hheader
  case free => exact hrest
  case live => exact hlive
  case inside => exact hinside

end Returned

/-! ### When the returned block can be freed -/

/-- **If `malloc` fails, `memAlign` faults.** -/
theorem memAlign_of_null (hsize : 0 < size)
    (hm : malloc s (memAlignLen alignment size) = .ok (0, s₁)) :
    memAlign s alignment size = .error .unmapped := by
  rw [memAlign_eq hsize hm, carve, if_pos rfl]

theorem meets_iff_of_found (h : Ok s live regions ∅)
    (hregions : ∀ r ∈ regions, r.start + r.len ≤ 2 ^ 64) (hal : 0 < alignment) (hsize : 0 < size)
    (hm : malloc s (memAlignLen alignment size) = .ok (a + maSize, s₁))
    (h₁ : Ok s₁ ((a, memAlignLen alignment size) :: live) regions ∅)
    (hlen : 0 < memAlignLen alignment size) :
    (∃ p s', memAlign s alignment size = .ok (p, s') ∧ (p ≠ 0 →
      Aligned s' live regions alignment size (a + maSize) (memAlignLen alignment size) p)) ↔
    ¬ 2 ^ 32 ∣ oldLen alignment (a + maSize) ∧ (newAddr alignment (a + maSize) = 0 ∨
      a + maSize + maSize ≤ newAddr alignment (a + maSize) ∧
        newAddr alignment (a + maSize) + size ≤ a + maSize + memAlignLen alignment size ∧
        StaleHeader s live regions a (memAlignLen alignment size) size
          (newAddr alignment (a + maSize) - maSize)) := by
  have ha : a + maSize < 2 ^ 64 := by
    have := h₁.live_end_le hregions
    omega
  rw [memAlign_eq hsize hm]
  by_cases harg : 2 ^ 32 ∣ oldLen alignment (a + maSize)
  · refine ⟨?_, fun hr => absurd harg hr.1⟩
    rintro ⟨p, s', hs', -⟩
    rw [carve_error (by simp [maSize]) harg] at hs'
    cases hs'
  obtain ⟨i, hi, hcarve⟩ := carve_eq (s := s₁) ha harg
  rw [hcarve]
  constructor
  · rintro ⟨p, s', heq, hp⟩
    obtain ⟨rfl, rfl⟩ := Prod.mk.inj (Except.ok.inj heq)
    refine ⟨harg, ?_⟩
    by_cases h0 : newAddr alignment (a + maSize) = 0
    · exact Or.inl h0
    · exact Or.inr ((hp h0).stale h hal hm h₁ hi ha hsize)
  · rintro ⟨-, h0 | ⟨hlow, hhigh, hst⟩⟩
    · exact ⟨_, _, rfl, fun hne => absurd h0 hne⟩
    · exact ⟨_, _, rfl, fun _ => hst.aligned h hal hm h₁ hi hsize hlow hhigh⟩

/-- **When the block returned by `memAlign` can be freed.**  In every state of the allocator, for every
alignment and every size: `malloc` has found a block, and an earlier block has left a header that fits
in front of the returned address. -/
theorem memAlign_meets_iff {s : State} (h : Ok s.alloc s.live s.regions ∅)
    (hregions : ∀ r ∈ s.regions, r.start + r.len ≤ 2 ^ 64) (alignment size : ℕ)
    (hal : 0 < alignment) (hsize : 0 < size) :
    MemAlignMeets s.start s.live s.regions alignment size ↔
      MemAlignFits s.start s.live s.regions alignment size := by
  unfold MemAlignMeets MemAlignFits
  by_cases hargs : ∀ l ∈ mallocArgs s.start (memAlignLen alignment size), ¬ 2 ^ 32 ∣ l
  swap
  · have herror : malloc s.start (memAlignLen alignment size) = .error .undefinedClz := by
      refine malloc_error ?_
      simpa only [not_forall, not_not, exists_prop] using hargs
    rw [herror]
    exact ⟨False.elim, fun ⟨a, _, _, hdef, _⟩ => hargs hdef⟩
  obtain ⟨old, s₁, hm, h₁, -⟩ := malloc_ok h.start rfl hargs
  rw [hm]
  rcases malloc_cases hm with ⟨rfl, -, hno⟩ | ⟨a, hlen, hf, rfl, -⟩
  · -- `malloc` has failed
    simp only [if_pos, memAlign_of_null hsize hm, reduceCtorEq, false_iff]
    rintro ⟨a, hlen, hf, -⟩
    rcases hno with h0 | hnone
    · exact absurd h0 hlen
    · rw [hnone] at hf
      cases hf
  · have hne : a + maSize ≠ 0 := by simp [maSize]
    rw [if_neg hne, Nat.add_sub_cancel] at h₁
    simp only [if_neg hne]
    rw [meets_iff_of_found h.start hregions hal hsize hm h₁ (Nat.pos_of_ne_zero hlen)]
    constructor
    · rintro ⟨harg, hrest⟩
      exact ⟨a, hlen, hf, hargs, harg, hrest⟩
    · rintro ⟨b, -, hf', -, harg, hrest⟩
      obtain rfl : a = b := Option.some_inj.1 (hf.symm.trans hf')
      exact ⟨harg, hrest⟩

/-- Three blocks were taken from a page and the first two given back, the second one last: it was joined
with the first one, and its header was left behind. -/
def headerLeft : State :=
  (Transition.run step init [.expandHeap 4096 4096, .malloc 96, .malloc 200, .malloc 50, .free 4192,
    .free 4384]).getD init

theorem ok_headerLeft : Ok headerLeft.alloc headerLeft.live headerLeft.regions ∅ := by
  have hsome : (Transition.run step init [.expandHeap 4096 4096, .malloc 96, .malloc 200, .malloc 50,
      .free 4192, .free 4384]).isSome := by decide +kernel
  obtain ⟨s, hrun⟩ := Option.isSome_iff_exists.1 hsome
  rw [headerLeft, hrun, Option.getD_some]
  exact (oneRegion_run (by decide) (by simp) hrun).ready.sound.ok

theorem staleHeader_headerLeft :
    StaleHeader headerLeft.start headerLeft.live headerLeft.regions 4096 308 100 4288 := by
  have hroot : headerLeft.start.root = [4096, 4730] := by decide +kernel
  have hfirst : (headerLeft.start.mem 4096).len = 392 := by decide +kernel
  have hlen : (headerLeft.start.mem 4288).len = 200 := by decide +kernel
  have hlive : headerLeft.live = [(4584, 50)] := by decide +kernel
  constructor
  case long => rw [hlen]; decide
  case memBase => decide +kernel
  case used => decide +kernel
  case canary => decide +kernel
  case free =>
    rintro x (⟨⟨b, hb, rfl⟩, hne⟩ | ⟨n, ⟨b, hb, heq⟩, hmin, -⟩)
    · rw [hroot] at hb
      simp only [mem_cons, not_mem_nil, or_false] at hb
      have hb : b = 4730 := hb.resolve_left hne
      refine disjoint_bytes ?_
      simp only [blockAt, hlen, hb]
      decide
    · -- the rest of the first block is too small for a block of its own
      simp only [blockAt, Span.mk.injEq] at heq
      obtain ⟨rfl, hn⟩ := heq
      rw [hfirst] at hn
      simp only [minPreserveSize, maSize] at hmin hn
      omega
  case live =>
    intro b hb
    rw [hlive, mem_singleton] at hb
    rw [hb]
    refine disjoint_bytes ?_
    simp only [blockAt, liveBlock, hlen]
    decide
  case inside =>
    have hregions : headerLeft.regions = [⟨4096, 4096⟩] := by decide +kernel
    rw [hregions, blockAt, hlen]
    refine (bytes_subset (c := ⟨4096, 4096⟩) ?_ ?_).trans
      (subset_covered mem_cons_self)
    · decide
    · decide

/-- A hundred bytes aligned to sixteen get the header that was left. -/
theorem memAlign_meets_iff_headerLeft :
    MemAlignFits headerLeft.start headerLeft.live headerLeft.regions 16 100 ∧
      MemAlignMeets headerLeft.start headerLeft.live headerLeft.regions 16 100 := by
  have hfits : MemAlignFits headerLeft.start headerLeft.live headerLeft.regions 16 100 := by
    have hlen : memAlignLen 16 100 = 308 := by decide
    have hp : newAddr 16 (4096 + maSize) = 4384 := by decide +kernel
    simp only [MemAlignFits, hlen]
    refine ⟨4096, by decide, by decide +kernel, by decide +kernel, by decide +kernel, Or.inr ?_⟩
    rw [hp, show 4384 - maSize = 4288 from rfl]
    exact ⟨by decide, by decide, staleHeader_headerLeft⟩
  have hregions : ∀ r ∈ headerLeft.regions, r.start + r.len ≤ 2 ^ 64 := by decide +kernel
  have hiff := memAlign_meets_iff (s := headerLeft) ok_headerLeft hregions 16 100 (by decide)
    (by decide)
  refine ⟨hfits, ?_⟩
  rw [hiff]
  exact hfits

/-- An allocator over one page, none of which is in use. -/
def freshPage : State := (step init (.expandHeap 4096 4096)).getD init

/-- **On a fresh page there is no header** in front of the block that `memAlign` returns: its length
is zero and `free` traps.  A request that does not fit faults. -/
theorem memAlign_leaves_no_header :
    (∃ s, memAlign freshPage.start 16 100 = .ok (4384, s) ∧ getLen s 4384 = 0 ∧
      free s 4384 = .error .ud2) ∧
    ¬ MemAlignMeets freshPage.start freshPage.live freshPage.regions 16 100 ∧
    memAlign freshPage.start 16 5000 = .error .unmapped ∧
    ¬ MemAlignMeets freshPage.start freshPage.live freshPage.regions 16 5000 := by
  obtain ⟨s, hs, hlen, hfree⟩ : ∃ s, memAlign freshPage.start 16 100 = .ok (4384, s) ∧
      getLen s 4384 = 0 ∧ free s 4384 = .error .ud2 := ⟨_, rfl, rfl, rfl⟩
  have hfound : (malloc freshPage.start (memAlignLen 16 100)).toOption.map Prod.fst = some 4192 := by
    decide +kernel
  have hnone : findChunk freshPage.start.mem freshPage.start.chunkList (memAlignLen 16 5000)
      (range chunkListSize) = none := by decide +kernel
  have hm₂ : malloc freshPage.start (memAlignLen 16 5000) = .ok (0, freshPage.start) := by
    rw [malloc, if_neg (by decide), hnone]
  refine ⟨⟨s, hs, hlen, hfree⟩, ?_, memAlign_of_null (by decide) hm₂, ?_⟩
  · intro hmeets
    rw [MemAlignMeets] at hmeets
    cases hm : malloc freshPage.start (memAlignLen 16 100) with
    | error f =>
        rw [hm] at hmeets
        exact hmeets
    | ok r =>
        rw [hm] at hmeets hfound
        have hold : r.1 ≠ 0 := by
          rw [Option.some_inj.1 hfound]
          decide
        simp only [if_neg hold] at hmeets
        obtain ⟨p, s', hs', hp⟩ := hmeets
        obtain ⟨rfl, rfl⟩ := Prod.mk.inj (Except.ok.inj (hs.symm.trans hs'))
        have hlong := (hp (by decide)).long
        rw [getLen, if_neg (by decide)] at hlen
        rw [hlen] at hlong
        exact absurd hlong (by decide)
  · intro hmeets
    simp only [MemAlignMeets, hm₂, if_pos, memAlign_of_null (by decide) hm₂] at hmeets
    cases hmeets

end Alloc

/-
**Coalescing is complete.**

`free` joins the block it is given with its two neighbours in the tree, and `malloc` leaves the rest of
a block where the block was.  So no free block ends where the header of another one begins, in every
state of an allocator over one region.  (Two regions may touch: `expandHeap` joins nothing.)

The buckets need no assumption here.  Every length that reaches `sizeToBucket` is the length of a range
of bytes that belong to blocks, and these lie in the region; a region shorter than `2 ^ 32` bytes has
no room for a length that `__builtin_clz` takes for zero.

Main definitions: `Coalesced`, `OneRegion`.  Main results: `Sound.exists_span`, `coalesced_run`.
-/

import SgxElps.Alloc.Conservation

namespace Alloc

open List
open Transition

/-- **No free block ends where the header of another free block begins.** -/
def Coalesced (s : Allocator) : Prop :=
  ∀ a ∈ s.root, ∀ b ∈ s.root, a + maSize + (s.mem a).len ≠ b

variable {s s' : State} {e : Event}

/-! ### The lengths of blocks -/

/-- A range of bytes that belong to blocks. -/
def Occupied (s : State) (x : Span) : Prop := x.bytes ⊆ owned s

theorem Occupied.join {a m n : ℕ} (h1 : Occupied s ⟨a, m⟩) (h2 : Occupied s ⟨a + m, n⟩) :
    Occupied s ⟨a, m + n⟩ := by
  have hjoin : (⟨a, m + n⟩ : Span).bytes = (⟨a, m⟩ : Span).bytes ∪ (⟨a + m, n⟩ : Span).bytes :=
    Span.bytes_join (b := ⟨a, m⟩) (c := ⟨a + m, n⟩) rfl
  rw [Occupied, hjoin]
  exact Set.union_subset h1 h2

/-- The block at `a`, which is free or is about to be. -/
theorem Sound.occupied (h : Sound s) {b : ℕ × ℕ} (hb : b ∈ s.live) {a : ℕ}
    (ha : a ∈ (s.start.insertRoot b.1).root) :
    Occupied s ⟨a, maSize + (s.alloc.mem a).len⟩ := by
  rcases mem_insertEqual.1 ha with rfl | ha
  · rw [h.ok.liveHeader b hb]
    exact fun y hy => Or.inr ⟨_, mem_map_of_mem hb, hy⟩
  · exact fun y hy => Or.inl ⟨_, blockAt_mem_freeBlocks ha, hy⟩

theorem Sound.occupied_chain (h : Sound s) {b : ℕ × ℕ} (hb : b ∈ s.live) {a l : ℕ}
    (hchain : Chain (s.start.insertRoot b.1) a l) : Occupied s ⟨a, maSize + l⟩ := by
  induction hchain with
  | block ha => exact h.occupied hb ha
  | join _ _ ih1 ih2 =>
    rw [← Nat.add_assoc]
    refine ih1.join ?_
    rwa [← Nat.add_assoc]

/-- **Every length that is passed to `sizeToBucket`** is the length of a range of blocks. -/
theorem Sound.exists_span (h : Sound s) (hs : step s e = some s') {l : ℕ} (hl : l ∈ bucketArgs s e) :
    ∃ a, Occupied s ⟨a, maSize + l⟩ := by
  cases e with
  | malloc len =>
    obtain ⟨a, hf, -, -, rfl⟩ := exists_of_mem_mallocArgs hl
    obtain ⟨ha, -⟩ := h.ok.of_findChunk (s := s.alloc) hf
    refine ⟨a, fun y hy => Or.inl ⟨_, blockAt_mem_freeBlocks ha, ?_⟩⟩
    refine Span.mem_bytes_of_le hy (le_refl _) ?_
    have hle : (s.alloc.mem a).len - len - maSize ≤ (s.alloc.mem a).len :=
      (Nat.sub_le _ _).trans (Nat.sub_le _ _)
    change a + (maSize + ((s.alloc.mem a).len - len - maSize)) ≤ a + (maSize + (s.alloc.mem a).len)
    omega
  | free p =>
    rcases free_of_step hs with rfl | ⟨b, hb, rfl⟩
    · cases hl
    rw [bucketArgs_free] at hl
    obtain ⟨x, hchain⟩ := exists_chain_of_mem_freeArgs (mem_insertEqual.2 (Or.inl rfl)) hl
    exact ⟨x, h.occupied_chain hb hchain⟩
  | expandHeap base len => cases hl

/-- **In a region shorter than `2 ^ 32` bytes all lengths are below `2 ^ 32`.** -/
theorem Sound.lengthsBelow_of_region (h : Sound s) {base L : ℕ} (hregions : s.regions = [⟨base, L⟩])
    (hL : L < 2 ^ 32) (hs : step s e = some s') : LengthsBelow s e := by
  intro l hl
  obtain ⟨a, hx⟩ := h.exists_span hs hl
  have hms : 0 < maSize := by decide
  have hin : ∀ y ∈ (⟨a, maSize + l⟩ : Span).bytes, base ≤ y ∧ y < base + L := by
    intro y hy
    obtain ⟨r, hr, hyr⟩ := h.owned_subset (hx hy)
    rw [hregions, mem_singleton] at hr
    rw [hr] at hyr
    exact hyr
  have hfirst := hin a ⟨le_refl _, by simp only; omega⟩
  have hlast := hin (a + (maSize + l) - 1) ⟨by simp only; omega, by simp only; omega⟩
  omega

/-! ### Whole histories -/

/-- The invariant: one region, and free blocks that are apart. -/
structure OneRegion (base L : ℕ) (s : State) : Prop where
  ready : Ready s
  regions : s.regions = [⟨base, L⟩]

theorem oneRegion_step {base L : ℕ} (h : OneRegion base L s) (hL : L < 2 ^ 32)
    (he : ∀ b l, e ≠ .expandHeap b l) (hs : step s e = some s') : OneRegion base L s' := by
  have hbelow := h.ready.sound.lengthsBelow_of_region h.regions hL hs
  refine ⟨ready_step h.ready hs (h.ready.sound.bucketsDefined hs hbelow), ?_⟩
  rw [← h.regions]
  cases e with
  | malloc len => exact regions_malloc hs
  | free p => exact regions_free hs
  | expandHeap b l => exact absurd rfl (he b l)

theorem OneRegion.coalesced {base L : ℕ} (h : OneRegion base L s) : Coalesced s.alloc := by
  intro a ha b hb hab
  have happart := h.ready.apart (by rw [h.regions]; exact le_refl _)
  refine happart _ (blockAt_mem_freeBlocks ha) _ (blockAt_mem_freeBlocks hb) ?_
  rw [Span.Touches, blockAt, blockAt, ← hab, Nat.add_assoc]

theorem oneRegion_expandHeap {base L : ℕ} (hs : step init (.expandHeap base L) = some s) :
    OneRegion base L s :=
  ⟨ready_step ready_init hs nofun, (owned_expandHeap sound_init hs).2.1⟩

theorem oneRegion_run {base L : ℕ} {es : List Event} (hL : L < 2 ^ 32)
    (hes : ∀ e ∈ es, ∀ b l, e ≠ .expandHeap b l)
    (hrun : run step init (.expandHeap base L :: es) = some s) : OneRegion base L s := by
  obtain ⟨s₁, hs1, hrun1⟩ := run_cons_eq_some.1 hrun
  exact run_induction_of (I := OneRegion base L)
    (Q := fun e => ∀ b l, e ≠ .expandHeap b l) (fun _ _ _ he h hs => oneRegion_step h hL he hs) es hes
    (oneRegion_expandHeap hs1) hrun1

/-- **Coalescing is complete.**  After any sequence of `malloc` and of `free` on live blocks, on an
allocator over one region shorter than `2 ^ 32` bytes, nothing was undefined and no two free blocks
are adjacent. -/
theorem coalesced_run {base L : ℕ} {es : List Event} (hL : L < 2 ^ 32)
    (hes : ∀ e ∈ es, ∀ b l, e ≠ .expandHeap b l)
    (hrun : run step init (.expandHeap base L :: es) = some s) :
    s.fault = none ∧ Coalesced s.alloc := by
  have h := oneRegion_run hL hes hrun
  exact ⟨h.ready.sound.noFault, h.coalesced⟩

/-- Three blocks are taken from a region; the one in the middle is given back last, between two free
blocks. -/
theorem coalesced_run_middle_last :
    ∃ s, run step init [.expandHeap 4096 4096, .malloc 100, .malloc 200, .malloc 300,
        .free 4192, .free 4684, .free 4388] = some s ∧
      s.alloc.root = [4096] ∧ s.fault = none ∧ Coalesced s.alloc := by
  have hroot : (run step init
      [.expandHeap 4096 4096, .malloc 100, .malloc 200, .malloc 300,
        .free 4192, .free 4684, .free 4388]).map (fun s => s.alloc.root) = some [4096] := by
    decide +kernel
  obtain ⟨s, hrun, hs⟩ := Option.map_eq_some_iff.1 hroot
  exact ⟨s, hrun, hs, coalesced_run (by decide) (by simp) hrun⟩

end Alloc

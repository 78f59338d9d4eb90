/-
**Memory is conserved, as long as no rest is dropped.**

`malloc` cuts off the rest of the block it has found if two headers fit into it.  If the rest is
smaller it stays with the block, but `mit->len = len` records the length that was asked for and not
the length of the block.  No header covers the bytes after it from then on: they are in no free
block and in no live one, and a later `free` gives back only the recorded length.

The free and the live blocks make up the supplied regions throughout a history if and only if no
operation in it drops a rest (and all buckets are defined).  For an allocator over one region this is
what decides whether it is whole again once the client has given back all its blocks: the free
blocks of one region never touch each other, so that if they make up the region they are one block.

Main definitions: `dropped`, `Conserving`, `Whole`.  Main results: `conserved_step_iff`, `whole_iff`.
-/

import SgxElps.Alloc.Ledger

namespace Alloc

open Option (ite_none_right_eq_some some_inj)
open Span
open List
open Transition

/-- **The number of bytes that `malloc` drops**: what is left of the block it has found, if this is
too small for a block of its own. -/
def dropped (s : State) : Event → ℕ
  | .malloc len =>
      match findChunk s.alloc.mem s.alloc.chunkList len (range chunkListSize) with
      | some a =>
          if len ≠ 0 ∧ (s.alloc.mem a).len - len < minPreserveSize then (s.alloc.mem a).len - len
          else 0
      | none => 0
  | .free _ => 0
  | .expandHeap _ _ => 0

/-- All buckets of the operation are defined, and no rest is dropped. -/
def Conserving (s : State) (e : Event) : Prop := BucketsDefined s e ∧ dropped s e = 0

/-- The bytes of the free and of the live blocks, headers included. -/
def owned (s : State) : Set ℕ :=
  bytesOf (freeBlocks s.alloc) ∪ covered (s.live.map liveBlock)

/-- The free and the live blocks make up the supplied regions. -/
def Conserved (s : State) : Prop := s.fault = none ∧ owned s = covered s.regions

/-- **The allocator over the region of length `L` at `base` has a single free block.** -/
def Whole (base L : ℕ) (s : State) : Prop :=
  s.fault = none ∧ s.alloc.root = [base] ∧ (s.alloc.mem base).len = L - maSize

variable {s s' : State} {e : Event} {F : Set Span} {a n len : ℕ}

/-! ### The bytes of the blocks -/

theorem owned_eq : owned s = covered (blocks s.alloc.mem s.alloc.root s.live) := by
  ext y
  constructor
  · rintro (⟨_, ⟨a, ha, rfl⟩, hy⟩ | ⟨x, hx, hy⟩)
    · exact ⟨_, Heap.mem_blocks_of_root ha, hy⟩
    · exact ⟨x, mem_append_right _ hx, hy⟩
  · rintro ⟨x, hx, hy⟩
    rcases mem_append.1 hx with hx | hx
    · obtain ⟨a, ha, rfl⟩ := mem_map.1 hx
      exact Or.inl ⟨_, ⟨a, ha, rfl⟩, hy⟩
    · exact Or.inr ⟨x, hx, hy⟩

theorem Sound.owned_subset (h : Sound s) : owned s ⊆ covered s.regions := by
  rw [owned_eq]
  rintro y ⟨x, hx, hy⟩
  exact h.ok.inside x hx hy

/-! ### Taking a block -/

section Take

variable (hmem : (⟨a, maSize + n⟩ : Span) ∈ F) (honly : ∀ x ∈ F, x.start = a → x = ⟨a, maSize + n⟩)
  (hle : len ≤ n)
include hmem honly hle

/-- A block that is taken, and its rest, are parts of a free block. -/
theorem bytesOf_take_subset :
    bytesOf (take F a len) ∪ (liveBlock (a, len)).bytes ⊆ bytesOf F := by
  rintro y (⟨x, ⟨hx, -⟩ | ⟨m, hm, -, rfl⟩, hy⟩ | hy)
  · exact ⟨x, hx, hy⟩
  · have hmn := honly _ hm rfl
    simp only [Span.mk.injEq, true_and] at hmn
    exact ⟨_, hmem, mem_bytes_of_le hy (by omega) (by omega)⟩
  · exact ⟨_, hmem, mem_bytes_of_le hy (le_refl _) (by simp only; omega)⟩

theorem bytesOf_take (hkeep : n - len = 0 ∨ minPreserveSize ≤ n - len) :
    bytesOf (take F a len) ∪ (liveBlock (a, len)).bytes = bytesOf F := by
  refine (bytesOf_take_subset hmem honly hle).antisymm ?_
  rintro y ⟨x, hx, hy⟩
  by_cases hxa : x.start = a
  · rw [honly x hx hxa, mem_bytes] at hy
    -- in the part that is used, or in the rest
    by_cases hused : y < a + (maSize + len)
    · exact Or.inr ⟨hy.1, hused⟩
    · refine Or.inl ⟨⟨a + maSize + len, n - len⟩, Or.inr ⟨n, hmem, ?_, rfl⟩, ?_⟩
      · exact hkeep.resolve_left fun heq => by omega
      · rw [mem_bytes]
        omega
  · exact Or.inl ⟨x, Or.inl ⟨hx, hxa⟩, hy⟩

theorem notMem_bytesOf_take (hdisj : F.PairwiseDisjoint bytes) (hrest : n - len ≠ 0)
    (hdrop : n - len < minPreserveSize) :
    a + maSize + len ∉ bytesOf (take F a len) ∪ (liveBlock (a, len)).bytes := by
  rintro (⟨x, ⟨hx, hxa⟩ | ⟨m, hm, hmin, -⟩, hy⟩ | hy)
  · have hne : x ≠ ⟨a, maSize + n⟩ := fun heq => hxa (congrArg start heq)
    refine Set.disjoint_left.1 (hdisj hx hmem hne) hy ?_
    rw [mem_bytes]
    omega
  · have hmn := honly _ hm rfl
    simp only [Span.mk.injEq, true_and] at hmn
    omega
  · have := hy.2
    simp only [liveBlock] at this
    omega

theorem apart_take (hF : Apart F) (hdisj : F.PairwiseDisjoint bytes)
    (hpos : ∀ x ∈ F, 0 < x.len) : Apart (take F a len) := by
  have hms : 0 < maSize := by decide
  have hrest : ∀ m, (⟨a, maSize + m⟩ : Span) ∈ F → m = n := by
    intro m hm
    have hmn := honly _ hm rfl
    simp only [Span.mk.injEq, true_and] at hmn
    omega
  rintro x (⟨hx, hxa⟩ | ⟨m, hm, hmin, rfl⟩) y (⟨hy, -⟩ | ⟨k, hk, hkmin, rfl⟩) htouch
  · exact hF x hx y hy htouch
  · -- the last byte of `x` would be a byte of the block
    obtain rfl := hrest k hk
    have hne : x ≠ ⟨a, maSize + k⟩ := fun heq => hxa (congrArg start heq)
    have hxpos := hpos x hx
    simp only [Touches] at htouch
    simp only [minPreserveSize] at hkmin
    have hlast : a + maSize + len - 1 ∈ x.bytes := ⟨by omega, by omega⟩
    refine Set.disjoint_left.1 (hdisj hx hmem hne) hlast ?_
    rw [mem_bytes]
    omega
  · obtain rfl := hrest m hm
    refine hF _ hmem y hy ?_
    simp only [Touches] at htouch ⊢
    simp only [minPreserveSize] at hmin
    omega
  · simp only [Touches] at htouch
    simp only [minPreserveSize] at hmin
    omega

end Take

/-! ### The operations -/

/-- The block that `malloc` takes. -/
theorem Sound.step_malloc_cases (h : Sound s) (hs : step s (.malloc len) = some s')
    (hargs : BucketsDefined s (.malloc len)) :
    (owned s' = owned s ∧ freeBlocks s'.alloc = freeBlocks s.alloc ∧ dropped s (.malloc len) = 0) ∨
    ∃ a n, (⟨a, maSize + n⟩ : Span) ∈ freeBlocks s.alloc ∧
      (∀ x ∈ freeBlocks s.alloc, x.start = a → x = ⟨a, maSize + n⟩) ∧ len ≤ n ∧
      dropped s (.malloc len) = (if n - len < minPreserveSize then n - len else 0) ∧
      freeBlocks s'.alloc = take (freeBlocks s.alloc) a len ∧ s'.live = (a, len) :: s.live := by
  cases steps_of_step h.ok hs hargs with | @malloc _ p al hal => ?_
  rcases malloc_cases hal with ⟨rfl, rfl, hno⟩ | ⟨a, hlen, hf, rfl, -⟩
  · refine Or.inl ⟨rfl, rfl, ?_⟩
    have hfind : len = 0 ∨
        findChunk s.alloc.mem s.alloc.chunkList len (range chunkListSize) = none := hno
    rcases hfind with h0 | hnone
    · simp only [dropped, h0]
      split <;> simp
    · simp only [dropped, hnone]
  · obtain ⟨ha, hle⟩ := h.ok.of_findChunk (s := s.alloc) hf
    have hp : a + maSize ≠ 0 := by simp [maSize]
    have hf' : findChunk s.alloc.mem s.alloc.chunkList len (range chunkListSize) = some a := hf
    refine Or.inr ⟨a, (s.alloc.mem a).len, ⟨a, ha, rfl⟩, ?_, hle, ?_, ?_, ?_⟩
    · intro x hx hxa
      rw [eq_blockAt_of_mem hx, hxa]
      rfl
    · simp only [dropped, hf', ne_eq, hlen, not_false_eq_true, true_and]
    · have hfree := freeBlocks_malloc h.ok.start hp hal
      rw [Nat.add_sub_cancel] at hfree
      exact hfree
    · simp only [State.mallocDone, if_neg hp, Nat.add_sub_cancel]

theorem owned_malloc (h : Sound s) (hs : step s (.malloc len) = some s')
    (hargs : BucketsDefined s (.malloc len)) :
    owned s' ⊆ owned s ∧ (owned s' = owned s ↔ dropped s (.malloc len) = 0) := by
  rcases h.step_malloc_cases hs hargs with ⟨howned, -, hdrop⟩ | ⟨a, n, hmem, honly, hle, hdrop, hfree, hlive⟩
  · exact ⟨howned.le, fun _ => hdrop, fun _ => howned⟩
  have howned : owned s' = (bytesOf (take (freeBlocks s.alloc) a len) ∪
      (liveBlock (a, len)).bytes) ∪ covered (s.live.map liveBlock) := by
    rw [owned, hfree, hlive, Set.union_assoc]
    congr 1
    ext y
    exact mem_covered_cons
  have hsub := bytesOf_take_subset hmem honly hle
  refine ⟨?_, ?_, ?_⟩
  · rw [howned]
    exact Set.union_subset_union_left _ hsub
  · intro heq
    by_contra hne
    rw [hdrop] at hne
    split at hne
    case isFalse => exact hne rfl
    case isTrue hsmall =>
      have hold : a + maSize + len ∈ owned s' := by
        rw [heq]
        refine Or.inl ⟨_, hmem, ?_⟩
        rw [mem_bytes]
        omega
      rw [howned] at hold
      rcases hold with hold | ⟨b, hb, hold⟩
      · exact notMem_bytesOf_take hmem honly hle h.ok.pairwiseDisjoint hne hsmall hold
      · -- the block that was taken overlaps no live block
        obtain ⟨c, hc, hcb⟩ := hmem
        have hd := (pairwise_append.1 h.ok.separated).2.2 _ (mem_map_of_mem hc) b hb
        rw [hcb] at hd
        refine Set.disjoint_left.1 hd ?_ hold
        rw [mem_bytes]
        omega
  · intro h0
    rw [howned, bytesOf_take hmem honly hle, owned]
    rw [hdrop] at h0
    split at h0
    · exact Or.inl h0
    · next hbig => exact Or.inr (Nat.le_of_not_lt hbig)

theorem Sound.block_pos (h : Sound s) : ∀ x ∈ freeBlocks s.alloc, 0 < x.len :=
  fun x hx => (Nat.zero_le _).trans_lt (h.long x hx)

/-- `free` of a live pointer. -/
theorem Sound.free_cases (h : Sound s) {p : ℕ} (hs : step s (.free p) = some s')
    (hargs : BucketsDefined s (.free p)) :
    (owned s' = owned s ∧ freeBlocks s'.alloc = freeBlocks s.alloc) ∨
    ∃ b ∈ s.live, freeBlocks s'.alloc = coalesce (freeBlocks s.alloc) (liveBlock b) ∧
      s'.live = s.live.filter fun c => c.1 ≠ b.1 := by
  cases steps_of_step h.ok hs hargs with
  | freeNull => exact Or.inl ⟨rfl, rfl⟩
  | free hb hargs' hal => exact Or.inr ⟨_, hb, freeBlocks_free h.ok.start rfl hb hargs' hal, rfl⟩

theorem owned_free (h : Sound s) {p : ℕ} (hs : step s (.free p) = some s')
    (hargs : BucketsDefined s (.free p)) : owned s' = owned s := by
  rcases h.free_cases hs hargs with ⟨howned, -⟩ | ⟨b, hb, hfree, hlive⟩
  · exact howned
  have hgone : covered (s.live.map liveBlock) =
      (liveBlock b).bytes ∪ covered ((s.live.filter fun c => c.1 ≠ b.1).map liveBlock) := by
    ext y
    constructor
    · rintro ⟨_, hx, hy⟩
      obtain ⟨c, hc, rfl⟩ := mem_map.1 hx
      by_cases hcb : c.1 = b.1
      · rw [live_eq_of_fst_eq h.ok hc hb hcb] at hy
        exact Or.inl hy
      · exact Or.inr ⟨_, mem_map_of_mem (mem_filter.2 ⟨hc, by simpa using hcb⟩), hy⟩
    · rintro (hy | ⟨_, hx, hy⟩)
      · exact ⟨_, mem_map_of_mem hb, hy⟩
      · obtain ⟨c, hc, rfl⟩ := mem_map.1 hx
        exact ⟨_, mem_map_of_mem (mem_filter.1 hc).1, hy⟩
  rw [owned, owned, hfree, hlive, bytesOf_coalesce h.ok.pairwiseDisjoint h.block_pos, hgone]
  rw [Set.union_comm (liveBlock b).bytes, Set.union_assoc]

theorem owned_expandHeap (h : Sound s) {base : ℕ} (hs : step s (.expandHeap base len) = some s') :
    owned s' = (⟨base, len⟩ : Span).bytes ∪ owned s ∧ s'.regions = ⟨base, len⟩ :: s.regions ∧
      Disjoint (⟨base, len⟩ : Span).bytes (covered s.regions) := by
  have hfree := freeBlocks_step h.ok hs nofun
  rw [step, ite_none_right_eq_some, some_inj] at hs
  obtain ⟨⟨-, -, -, hdisj⟩, rfl⟩ := hs
  refine ⟨?_, rfl, ?_⟩
  · rw [owned, hfree, ledger, bytesOf_insert, Set.union_assoc]
    rfl
  · refine Set.disjoint_left.2 ?_
    rintro y ⟨h1, h2⟩ ⟨r, hr, h3, h4⟩
    simp only at h1 h2
    rcases hdisj r hr with h5 | h5 <;> omega

theorem regions_malloc (hs : step s (.malloc len) = some s') : s'.regions = s.regions := by
  rw [step, ite_none_right_eq_some, some_inj] at hs
  obtain ⟨-, rfl⟩ := hs
  cases malloc s.start len <;> rfl

theorem regions_free {p : ℕ} (hs : step s (.free p) = some s') : s'.regions = s.regions := by
  rw [step, ite_none_right_eq_some, some_inj] at hs
  obtain ⟨-, rfl⟩ := hs
  cases free s.start p <;> rfl

/-- **One operation conserves the memory exactly if it drops nothing.** -/
theorem conserved_step_iff (h : Sound s) (hc : Conserved s) (hs : step s e = some s') :
    Conserved s' ↔ Conserving s e := by
  by_cases hargs : BucketsDefined s e
  swap
  · refine ⟨fun hc' => ?_, fun hcons => absurd hcons.1 hargs⟩
    rw [Conserved, fault_step h.ok hs hargs] at hc'
    cases hc'.1
  have hf := (ok_step h.ok hs hargs).1
  cases e with
  | malloc len =>
    have hregions : s'.regions = s.regions := regions_malloc hs
    obtain ⟨-, howned⟩ := owned_malloc h hs hargs
    rw [Conserved, hregions, ← hc.2, howned]
    exact ⟨fun hd => ⟨hargs, hd.2⟩, fun hd => ⟨hf, hd.2⟩⟩
  | free p =>
    have hregions : s'.regions = s.regions := regions_free hs
    refine ⟨fun _ => ⟨hargs, rfl⟩, fun _ => ⟨hf, ?_⟩⟩
    rw [owned_free h hs hargs, hregions, hc.2]
  | expandHeap base len =>
    obtain ⟨howned, hregions, -⟩ := owned_expandHeap h hs
    refine ⟨fun _ => ⟨hargs, rfl⟩, fun _ => ⟨hf, ?_⟩⟩
    rw [howned, hregions, hc.2]
    ext y
    exact mem_covered_cons.symm

theorem conserved_of_step (h : Sound s) (hs : step s e = some s') (hc' : Conserved s') :
    Conserved s := by
  have hargs : BucketsDefined s e := by
    by_contra hargs
    rw [Conserved, fault_step h.ok hs hargs] at hc'
    cases hc'.1
  refine ⟨h.noFault, h.owned_subset.antisymm ?_⟩
  cases e with
  | malloc len =>
    rw [← regions_malloc hs, ← hc'.2]
    exact (owned_malloc h hs hargs).1
  | free p =>
    rw [← regions_free hs, ← hc'.2]
    exact (owned_free h hs hargs).le
  | expandHeap base len =>
    obtain ⟨howned, hregions, hdisj⟩ := owned_expandHeap h hs
    intro y hy
    have hy' : y ∈ owned s' := by
      rw [hc'.2, hregions]
      exact mem_covered_cons.2 (Or.inr hy)
    rw [howned] at hy'
    exact hy'.resolve_left fun hr => Set.disjoint_left.1 hdisj hr hy

/-! ### One region -/

/-- The free blocks of one region do not touch each other. -/
structure Ready (s : State) : Prop where
  sound : Sound s
  apart : s.regions.length ≤ 1 → Span.Apart (freeBlocks s.alloc)

/-- Without a region there is no block. -/
theorem Sound.freeBlocks_eq_empty (h : Sound s) (hregions : s.regions = []) :
    freeBlocks s.alloc = ∅ := by
  refine Set.eq_empty_of_forall_notMem fun x hx => ?_
  have hmem : x.start ∈ owned s := Or.inl ⟨x, hx, le_refl _, by have := h.block_pos x hx; omega⟩
  have hcov := h.owned_subset hmem
  rw [hregions] at hcov
  obtain ⟨r, hr, -⟩ := hcov
  cases hr

theorem ready_step (h : Ready s) (hs : step s e = some s') (hargs : BucketsDefined s e) :
    Ready s' := by
  refine ⟨sound_step h.sound hs hargs, fun hone => ?_⟩
  cases e with
  | malloc len =>
    rw [regions_malloc hs] at hone
    rcases h.sound.step_malloc_cases hs hargs with ⟨-, hfree, -⟩ | ⟨a, n, hmem, honly, hle, -, hfree, -⟩
    · rw [hfree]
      exact h.apart hone
    · rw [hfree]
      exact apart_take hmem honly hle (h.apart hone) h.sound.ok.pairwiseDisjoint h.sound.block_pos
  | free p =>
    rw [regions_free hs] at hone
    rcases h.sound.free_cases hs hargs with ⟨-, hfree⟩ | ⟨b, -, hfree, -⟩
    · rw [hfree]
      exact h.apart hone
    · rw [hfree]
      exact (h.apart hone).coalesce (Nat.add_pos_left (by decide) _)
  | expandHeap base len =>
    obtain ⟨-, hregions, -⟩ := owned_expandHeap h.sound hs
    have hnone : s.regions = [] := by
      rw [hregions, length_cons] at hone
      exact eq_nil_of_length_eq_zero (by omega)
    rw [freeBlocks_step h.sound.ok hs hargs, ledger, h.sound.freeBlocks_eq_empty hnone]
    rw [step, ite_none_right_eq_some] at hs
    obtain ⟨⟨-, hlen, -⟩, -⟩ := hs
    rintro _ (rfl | hx) _ (rfl | hy) htouch
    · simp only [Touches] at htouch
      omega
    · exact hy
    · exact hx
    · exact hx

/-- The invariant, until an operation is undefined. -/
theorem ready_or_fault (h : s.fault = none → Ready s) (hs : step s e = some s') :
    s'.fault = none → Ready s' := by
  intro hf'
  have hready : Ready s := h (fault_eq_none_of_step hs)
  by_cases hargs : BucketsDefined s e
  · exact ready_step hready hs hargs
  · rw [fault_step hready.sound.ok hs hargs] at hf'
    cases hf'

theorem ready_init : Ready init := by
  refine ⟨sound_init, fun _ => ?_⟩
  rw [sound_init.freeBlocks_eq_empty rfl]
  exact nofun

theorem conserved_init : Conserved init := by
  refine ⟨rfl, ?_⟩
  rw [owned, sound_init.freeBlocks_eq_empty rfl]
  ext y
  simp [bytesOf, covered, init]

theorem conserved_iff {es : List Event} (hrun : run step init es = some s) :
    Conserved s ↔ Transition.AllSteps step Conserving init es := by
  have hJ : ∀ s e s', (s.fault = none → Ready s) → step s e = some s' →
      (s'.fault = none → Ready s') := fun s e s' => ready_or_fault
  have hiff : Transition.AllStates step Conserved init es ↔
      Transition.AllSteps step Conserving init es := by
    refine allStates_iff_allSteps hJ ?_ es (fun _ => ready_init) conserved_init
    intro s e s' hr hc hs
    exact conserved_step_iff (hr hc.1).sound hc hs
  rw [← hiff]
  refine ⟨fun hc => ?_, fun hall => hall.last hrun⟩
  refine allStates_of_last hJ ?_ (fun _ => ready_init) hrun hc
  intro s e s' hr hs hc'
  exact conserved_of_step (hr (fault_eq_none_of_step hs)).sound hs hc'

theorem regions_run {es : List Event} (hes : ∀ e ∈ es, ∀ base len, e ≠ .expandHeap base len)
    (hrun : run step s es = some s') : s'.regions = s.regions := by
  refine run_induction_of (I := fun t => t.regions = s.regions)
    (Q := fun e => ∀ base len, e ≠ .expandHeap base len) ?_ es hes rfl hrun
  intro s₁ e s₂ he hs1 hs
  rw [← hs1]
  cases e with
  | malloc len => exact regions_malloc hs
  | free p => exact regions_free hs
  | expandHeap base len => exact absurd rfl (he base len)

theorem Ready.whole (h : Ready s) {base L : ℕ} (hregions : s.regions = [⟨base, L⟩])
    (hlive : s.live = []) (hL : maSize < L) (hc : Conserved s) : Whole base L s := by
  have hcover : bytesOf (freeBlocks s.alloc) = (⟨base, L⟩ : Span).bytes := by
    have howned := hc.2
    rw [owned, hlive, hregions] at howned
    ext y
    have hy := Set.ext_iff.1 howned y
    simpa [covered] using hy
  have hfree : freeBlocks s.alloc = {⟨base, L⟩} :=
    (h.apart (by rw [hregions]; exact le_refl _)).eq_singleton h.sound.ok.pairwiseDisjoint
      h.sound.block_pos ((Nat.zero_le _).trans_lt hL) hcover
  have hblock : ∀ a ∈ s.alloc.root, blockAt s.alloc.mem a = ⟨base, L⟩ := by
    intro a ha
    have hmem := blockAt_mem_freeBlocks ha
    rw [hfree] at hmem
    exact hmem
  have hroot : base ∈ s.alloc.root := by
    obtain ⟨a, ha, heq⟩ : (⟨base, L⟩ : Span) ∈ freeBlocks s.alloc := by
      rw [hfree]
      rfl
    have hab : a = base := congrArg start heq
    exact hab ▸ ha
  refine ⟨hc.1, ?_, ?_⟩
  · have hall : ∀ a ∈ s.alloc.root, a = base := fun a ha => congrArg start (hblock a ha)
    have hrep := eq_replicate_of_mem hall
    have hone : s.alloc.root.length = 1 := by
      have hle : s.alloc.root.length ≤ 1 := by
        have hnodup := h.sound.ok.nodup
        rw [hrep] at hnodup
        exact nodup_replicate.1 hnodup
      exact hle.antisymm (length_pos_of_mem hroot)
    rw [hrep, hone]
    rfl
  · have hlen := congrArg Span.len (hblock base hroot)
    simp only [blockAt] at hlen
    omega

theorem Whole.conserved {base L : ℕ} (h : Whole base L s) (hregions : s.regions = [⟨base, L⟩])
    (hlive : s.live = []) (hL : maSize < L) : Conserved s := by
  obtain ⟨hf, hroot, hlen⟩ := h
  have hlen' : maSize + (L - maSize) = L := by omega
  refine ⟨hf, ?_⟩
  rw [owned_eq, hlive, hroot, hregions]
  simp only [blocks, blockAt, hlen, hlen', map_cons, map_nil, append_nil]

/-- **When the allocator is whole again.**  After any sequence of `malloc` and `free` on an allocator
over one region, with no block live at the end, the allocator has the region as its single free
block if and only if every bucket was defined and no `malloc` has dropped a rest. -/
theorem whole_iff {base L : ℕ} {es : List Event} (hes : ∀ e ∈ es, ∀ b l, e ≠ .expandHeap b l)
    (hrun : run step init (.expandHeap base L :: es) = some s) (hlive : s.live = []) :
    Whole base L s ↔ Transition.AllSteps step Conserving init (.expandHeap base L :: es) := by
  rw [← conserved_iff hrun]
  obtain ⟨s₁, hs₁, hrun₁⟩ := run_cons_eq_some.1 hrun
  have hL : maSize < L := by
    rw [step, Option.ite_none_right_eq_some] at hs₁
    exact hs₁.1.2.1
  have hregions : s.regions = [⟨base, L⟩] := by
    rw [regions_run hes hrun₁]
    exact (owned_expandHeap sound_init hs₁).2.1
  have hready : s.fault = none → Ready s :=
    run_induction (I := fun s => s.fault = none → Ready s)
      (fun _ _ _ => ready_or_fault) _ (fun _ => ready_init) hrun
  exact ⟨fun hw => hw.conserved hregions hlive hL,
    fun hc => (hready hc.1).whole hregions hlive hL hc⟩

/-- A block of 100 bytes is taken from a region of 4096 bytes and given back. -/
theorem whole_iff_large_region :
    ∃ s, run step init [.expandHeap 4096 4096, .malloc 100, .free 4192] = some s ∧
      s.live = [] ∧ (Whole 4096 4096 s ↔ Transition.AllSteps step Conserving init
        [.expandHeap 4096 4096, .malloc 100, .free 4192]) := by
  obtain ⟨s, hrun, hlive⟩ : ∃ s,
      run step init [.expandHeap 4096 4096, .malloc 100, .free 4192] = some s ∧
        s.live = [] := ⟨_, rfl, rfl⟩
  exact ⟨s, hrun, hlive, whole_iff (by simp) hrun hlive⟩

/-- A block of 100 bytes is taken from a region of 300 bytes and given back.  The allocator is left
with a block of 100 bytes, where it had one of 204. -/
theorem malloc_free_loses_rest :
    ∃ s, run step init [.expandHeap 4096 300, .malloc 100, .free 4192] = some s ∧
      s.live = [] ∧ s.fault = none ∧ s.alloc.root = [4096] ∧ (s.alloc.mem 4096).len = 100 ∧
      ¬ Whole 4096 300 s := by
  obtain ⟨s, hrun, hlive, hf, hroot, hlen⟩ : ∃ s,
      run step init [.expandHeap 4096 300, .malloc 100, .free 4192] = some s ∧
        s.live = [] ∧ s.fault = none ∧ s.alloc.root = [4096] ∧ (s.alloc.mem 4096).len = 100 :=
    ⟨_, rfl, rfl, rfl, rfl, rfl⟩
  refine ⟨s, hrun, hlive, hf, hroot, hlen, fun hw => ?_⟩
  rw [hw.2.2] at hlen
  exact absurd hlen (by decide)

end Alloc

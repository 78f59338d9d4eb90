/-
**The invariant of the slab allocator.**

Every slab is a live block of the unsafe `Allocator`, its count of free slots goes with its bitmap, and
it is in the one list of its cache that its count says.  Every object in use has its slot marked in the
bitmap and the address of its slab in the word in front of it, or is a live block of the `Allocator`
itself.

Main definitions: `Inv`, `LinksKept`.  Main results: `inv_step_linksKept`, `inv_run`.
-/

import SgxElps.Slub.Layout

namespace Slub

open Function
open Option (bind_some ite_none_right_eq_some map_eq_some_iff map_some some_inj)
open BitWord (ones)
open List

variable {Cpu : Type}

/-! ### The unsafe Allocator -/

/-- The `Allocator` is in order. -/
def HeapOk (heap : Alloc.State) : Prop :=
  heap.fault = none ∧ Alloc.Ok heap.alloc heap.live heap.regions ∅

/-- The bytes of a live block behind its header. -/
def payload (b : ℕ × ℕ) : Span := ⟨b.1 + Alloc.maSize, b.2⟩

section Heap

variable {heap heap' : Alloc.State} {x y : ℕ × ℕ}

/-- Different live blocks do not overlap. -/
theorem HeapOk.disjoint (h : HeapOk heap) (hx : x ∈ heap.live) (hy : y ∈ heap.live) (hne : x ≠ y) :
    Disjoint (Alloc.liveBlock x).bytes (Alloc.liveBlock y).bytes := by
  have hpair := (pairwise_append.1 h.2.separated).2.1
  rw [pairwise_map] at hpair
  have : Std.Symm fun x y => Disjoint (Alloc.liveBlock x).bytes (Alloc.liveBlock y).bytes :=
    ⟨fun _ _ hd => hd.symm⟩
  exact hpair.forall hx hy hne

theorem payload_subset (x : ℕ × ℕ) : (payload x).bytes ⊆ (Alloc.liveBlock x).bytes :=
  Span.bytes_subset (Nat.le_add_right ..) (by simp only [payload, Alloc.liveBlock]; omega)

theorem maSize_le_of_malloc {al al' : Alloc.Allocator} {len p : ℕ}
    (h : Alloc.malloc al len = .ok (p, al')) (hp : p ≠ 0) : Alloc.maSize ≤ p := by
  unfold Alloc.malloc at h
  split at h
  · cases h
    exact absurd rfl hp
  · split at h
    · cases h
      exact absurd rfl hp
    · next a _ =>
      dsimp only at h
      generalize Alloc.splitRest _ a _ _ = r at h
      cases r with
      | error f => cases h
      | ok al₁ =>
        cases h
        exact Nat.le_add_left ..

/-- A block that `unsafeMalloc` returns is a new live block. -/
theorem unsafeMalloc_spec {len p : ℕ} (h : HeapOk heap)
    (hm : unsafeMalloc heap len = some (p, heap')) :
    HeapOk heap' ∧ ((p = 0 ∧ heap'.live = heap.live) ∨
      (Alloc.maSize ≤ p ∧ heap'.live = (p - Alloc.maSize, len) :: heap.live ∧
        ∀ b ∈ heap.live, b.1 ≠ p - Alloc.maSize)) := by
  unfold unsafeMalloc at hm
  split at hm
  case h_2 => cases hm
  case h_1 q al hal =>
    cases hm
    have hargs : ∀ l ∈ Alloc.mallocArgs heap.start len, ¬ 2 ^ 32 ∣ l := by
      by_contra hbad
      push Not at hbad
      rw [Alloc.malloc_error hbad] at hal
      cases hal
    obtain ⟨p', al', hal', hok, -⟩ := Alloc.malloc_ok h.2.start rfl hargs
    rw [hal] at hal'
    cases hal'
    refine ⟨⟨h.1, hok⟩, ?_⟩
    by_cases hp : p = 0
    · exact .inl ⟨hp, if_pos hp⟩
    · refine .inr ⟨maSize_le_of_malloc hal hp, if_neg hp, fun b hb => ?_⟩
      rw [if_neg hp] at hok
      have hpair := (pairwise_append.1 hok.separated).2.1
      rw [pairwise_map, pairwise_cons] at hpair
      exact (Span.start_ne (hpair.1 b hb) (Nat.add_pos_left (by decide) _)
        (Nat.add_pos_left (by decide) _)).symm

end Heap

/-! ### Slabs and objects -/

theorem Slab.object_sub (sl : Slab Cpu) (k : ℕ) : sl.object k - headerSize = sl.header k :=
  Nat.add_sub_cancel ..

/-- The list that a slab with `n` free slots belongs to. -/
def ListKind.of (n : ℕ) : ListKind :=
  if n = objectsPerSlab then .empty else if n = 0 then .full else .part

/-- The cache and the list a slab belongs to. -/
def Slab.home (sl : Slab Cpu) : Key Cpu × ListKind := (sl.slubCache, .of sl.freeNr)

/-- A slab at `base`: its layout, its block and its count. -/
structure SlabOk (live : List (ℕ × ℕ)) (base : ℕ) (sl : Slab Cpu) : Prop where
  bucket_lt : sl.slubCache.2 < numSlubBuckets
  sizeEach_eq : sl.sizeEach = bucketSize sl.slubCache.2
  mem_eq : sl.mem = slabMem base sl.sizeEach
  maSize_le : Alloc.maSize ≤ base
  block_mem : (base - Alloc.maSize, allocSize sl.sizeEach) ∈ live
  freeNr_add : sl.freeNr + (BitWord.ones sl.bitmap).card = objectsPerSlab

/-- What tells an object from the others. -/
def Object.key (o : Object) : ℕ × Option ℕ :=
  match o.place with
  | .slot base k => (base, some k)
  | .block => (o.ptr, none)

/-- An object in use. -/
inductive ObjectOk (live : List (ℕ × ℕ)) (slab : ℕ → Option (Slab Cpu)) (word : ℕ → ℕ) :
    Object → Prop
  | slot {ptr len base k : ℕ} {sl : Slab Cpu} (hsl : slab base = some sl)
      (hk : k ∈ BitWord.ones sl.bitmap) (hptr : ptr = sl.object k)
      (hword : word (sl.header k) = base) (hlen : bucketOf len = sl.slubCache.2) :
      ObjectOk live slab word ⟨ptr, len, .slot base k⟩
  | block {ptr len : ℕ} (hle : Alloc.maSize ≤ ptr) (hmem : (ptr - Alloc.maSize, len) ∈ live)
      (hno : slab ptr = none) (hlen : maxSlabLen < len) :
      ObjectOk live slab word ⟨ptr, len, .block⟩

/-- The invariant without the lists. -/
structure Core (s : State Cpu) : Prop where
  heap : HeapOk s.heap
  slabs : ∀ base sl, s.slab base = some sl → SlabOk s.heap.live base sl
  objects : ∀ o ∈ s.objects, ObjectOk s.heap.live s.slab s.word o
  distinct : (s.objects.map Object.key).Nodup

/-- **The invariant.** -/
structure Inv (s : State Cpu) : Prop extends Core s where
  lists : Placed s.list (Option.map Slab.home ∘ s.slab)

section Geometry

variable {live live' : List (ℕ × ℕ)} {base k j : ℕ} {sl sl' : Slab Cpu}

/-- The block of a slab. -/
def Slab.block (sl : Slab Cpu) (base : ℕ) : ℕ × ℕ := (base - Alloc.maSize, allocSize sl.sizeEach)

theorem SlabOk.payload_eq (h : SlabOk live base sl) :
    payload (sl.block base) = ⟨base, allocSize sl.sizeEach⟩ := by
  rw [payload, Slab.block, Nat.sub_add_cancel h.maSize_le]

/-- The headers and the objects of a slab begin inside its block. -/
theorem SlabOk.mem_payload (h : SlabOk live base sl) (hk : k < objectsPerSlab) {i : ℕ}
    (hi : i ≤ headerSize) : sl.header k + i ∈ (payload (sl.block base)).bytes := by
  have hle := le_slabMem base (bucketSize sl.slubCache.2)
  have hlt : _ < base + _ := header_le_allocSize h.bucket_lt hk
  rw [h.payload_eq, Span.mem_bytes, Slab.header, h.mem_eq, h.sizeEach_eq]
  generalize k * (bucketSize sl.slubCache.2 + headerSize) = d at *
  omega

theorem lt_of_mem_ones {w : BitVec 64} (hk : k ∈ ones w) : k < objectsPerSlab :=
  Finset.mem_range.1 (BitWord.ones_subset_range w hk)

theorem header_inj (h : sl.header k = sl.header j) : k = j := by
  have hmul : k * (sl.sizeEach + headerSize) = j * (sl.sizeEach + headerSize) :=
    Nat.add_left_cancel h
  exact Nat.eq_of_mul_eq_mul_right (by rw [headerSize]; omega) hmul

theorem SlabOk.block_ne {base' : ℕ} (h : SlabOk live base sl) (h' : SlabOk live base' sl')
    (hne : base ≠ base') : sl.block base ≠ sl'.block base' := by
  have hle := h.maSize_le
  have hle' := h'.maSize_le
  intro heq
  have hfst : base - Alloc.maSize = base' - Alloc.maSize := congrArg Prod.fst heq
  omega

end Geometry

/-! ### Headers -/

/-- **Slabs stay where they are**, and a header that points to its slab goes on doing so. -/
structure LinksKept (s s' : State Cpu) : Prop where
  slab : ∀ base sl, s.slab base = some sl →
    ∃ sl', s'.slab base = some sl' ∧ sl'.mem = sl.mem ∧ sl'.sizeEach = sl.sizeEach
  word : ∀ base sl k, s.slab base = some sl → k < objectsPerSlab → s.word (sl.header k) = base →
    s'.word (sl.header k) = base

section Links

variable {s s' s'' : State Cpu} {base : ℕ} {sl sl' : Slab Cpu}

theorem header_congr (hmem : sl'.mem = sl.mem) (hsize : sl'.sizeEach = sl.sizeEach) (k : ℕ) :
    sl'.header k = sl.header k := by
  rw [Slab.header, Slab.header, hmem, hsize]

theorem LinksKept.of_eq (hslab : s'.slab = s.slab) (hword : s'.word = s.word) : LinksKept s s' where
  slab base sl hsl := ⟨sl, by rw [hslab]; exact hsl, rfl, rfl⟩
  word base sl k _ _ hw := by
    rw [hword]
    exact hw

theorem LinksKept.trans (h : LinksKept s s') (h' : LinksKept s' s'') : LinksKept s s'' where
  slab base sl hsl := by
    obtain ⟨sl₁, hsl1, hmem1, hsize1⟩ := h.slab base sl hsl
    obtain ⟨sl₂, hsl2, hmem2, hsize2⟩ := h'.slab base sl₁ hsl1
    exact ⟨sl₂, hsl2, hmem2.trans hmem1, hsize2.trans hsize1⟩
  word base sl k hsl hk hword := by
    obtain ⟨sl₁, hsl1, hmem1, hsize1⟩ := h.slab base sl hsl
    have hword1 := h.word base sl k hsl hk hword
    rw [← header_congr hmem1 hsize1] at hword1 ⊢
    exact h'.word base sl₁ k hsl1 hk hword1

theorem LinksKept.of_update (hsl : s.slab base = some sl) (hmem : sl'.mem = sl.mem)
    (hsize : sl'.sizeEach = sl.sizeEach)
    (hslab : s'.slab = update s.slab base (some sl')) (hword : s'.word = s.word) :
    LinksKept s s' where
  slab b sl₁ hsl1 := by
    rw [hslab]
    by_cases hb : b = base
    · subst hb
      obtain rfl := some_inj.1 (hsl.symm.trans hsl1)
      exact ⟨sl', update_self .., hmem, hsize⟩
    · exact ⟨sl₁, (update_of_ne hb ..).trans hsl1, rfl, rfl⟩
  word b sl₁ k _ _ hw := by
    rw [hword]
    exact hw

end Links

/-! ### A new slab, and an object from a slab -/

section Core

variable {s s' : State Cpu} {key : Key Cpu} {base k : ℕ} {sl : Slab Cpu}

/-- The headers of different slots are at different addresses. -/
theorem Core.header_ne (h : Core s) {base' k' : ℕ} {sl' : Slab Cpu} (hsl : s.slab base = some sl)
    (hsl' : s.slab base' = some sl') (hk : k < objectsPerSlab) (hk' : k' < objectsPerSlab)
    (hne : base = base' → k ≠ k') : sl.header k ≠ sl'.header k' := by
  have hok := h.slabs base sl hsl
  have hok' := h.slabs base' sl' hsl'
  intro heq
  by_cases hb : base = base'
  · subst hb
    rw [hsl, some_inj] at hsl'
    subst hsl'
    exact hne rfl (header_inj heq)
  · have hd := h.heap.disjoint hok.block_mem hok'.block_mem (hok.block_ne hok' hb)
    have hin := payload_subset _ (hok.mem_payload hk (Nat.zero_le _))
    have hin' := payload_subset _ (hok'.mem_payload hk' (Nat.zero_le _))
    rw [← heq] at hin'
    exact Set.disjoint_left.1 hd hin hin'

/-- The heap grows or loses blocks that are neither slabs nor objects. -/
theorem Core.of_heap (h : Core s) {heap : Alloc.State} (hheap : HeapOk heap)
    (hslabs : ∀ base sl, s.slab base = some sl → sl.block base ∈ heap.live)
    (hblocks : ∀ o ∈ s.objects, o.place = .block → (o.ptr - Alloc.maSize, o.len) ∈ heap.live) :
    Core { s with heap := heap } where
  heap := hheap
  slabs base sl hsl := { h.slabs base sl hsl with block_mem := hslabs base sl hsl }
  objects o ho := by
    have hb := hblocks o ho
    cases h.objects o ho with
    | slot hsl hk hptr hword hlen => exact .slot hsl hk hptr hword hlen
    | block hle hmem hno hlen => exact .block hle (hb rfl) hno hlen
  distinct := h.distinct

theorem Core.of_subset (h : Core s) {heap : Alloc.State} (hheap : HeapOk heap)
    (hsub : s.heap.live ⊆ heap.live) : Core { s with heap := heap } := by
  refine h.of_heap hheap (fun base sl hsl => hsub (h.slabs base sl hsl).block_mem) ?_
  intro o ho hplace
  cases h.objects o ho with
  | slot hsl hk hptr hword hlen => cases hplace
  | block hle hmem hno hlen => exact hsub hmem

/-- What `new_slab` adds. -/
structure NewSlab (s : State Cpu) (key : Key Cpu) (base : ℕ) (s' : State Cpu) (sl : Slab Cpu) :
    Prop where
  old : s.slab base = none
  slab_eq : s'.slab = update s.slab base (some sl)
  list_eq : s'.list = s.list
  objects_eq : s'.objects = s.objects
  word_eq : s'.word = s.word
  cache_eq : sl.slubCache = key
  freeNr_eq : sl.freeNr = objectsPerSlab

theorem NewSlab.kept (h : NewSlab s key base s' sl) : LinksKept s s' where
  slab b sl₁ hsl1 := by
    have hb : b ≠ base := by
      rintro rfl
      rw [h.old] at hsl1
      cases hsl1
    rw [h.slab_eq]
    exact ⟨sl₁, (update_of_ne hb ..).trans hsl1, rfl, rfl⟩
  word b sl₁ k _ _ hw := by
    rw [h.word_eq]
    exact hw

/-- A new slab is a new block of the `Allocator`. -/
theorem newSlab_core (h : Core s) (hkey : key.2 < numSlubBuckets)
    (hn : newSlab s key = some (base, s')) : Core s' ∧ ∃ sl, NewSlab s key base s' sl := by
  unfold newSlab at hn
  split at hn
  case h_1 => cases hn
  case h_2 p heap hm =>
    split at hn
    case isTrue => cases hn
    case isFalse hp =>
      cases hn
      obtain ⟨hheap, hlive⟩ := unsafeMalloc_spec h.heap hm
      obtain ⟨hle, hlive, hfresh⟩ := hlive.resolve_left fun h0 => hp h0.1
      have hsub : s.heap.live ⊆ heap.live := by
        rw [hlive]
        exact subset_cons_self ..
      -- no slab and no object was at this address
      have hnone : s.slab base = none := by
        cases hsl : s.slab base with
        | none => rfl
        | some sl => exact absurd rfl (hfresh _ (h.slabs base sl hsl).block_mem)
      have hcore := h.of_subset hheap hsub
      refine ⟨⟨hheap, ?_, ?_, h.distinct⟩, _, hnone, rfl, rfl, rfl, rfl, rfl, rfl⟩
      · intro b sl hsl
        dsimp only at hsl ⊢
        by_cases hb : b = base
        · subst hb
          rw [update_self, some_inj] at hsl
          subst hsl
          refine ⟨hkey, rfl, rfl, hle, ?_, ?_⟩
          · rw [hlive]
            exact mem_cons_self
          · rw [show (0 : BitVec 64) = 0#64 from rfl, BitWord.ones_zero]
            rfl
        · rw [update_of_ne hb] at hsl
          exact hcore.slabs b sl hsl
      · intro o ho
        cases hcore.objects o ho with
        | slot hsl hk hptr hword hlen =>
          refine .slot ?_ hk hptr hword hlen
          dsimp only at hsl ⊢
          rw [update_of_ne]
          · exact hsl
          · rintro rfl
            rw [hnone] at hsl
            cases hsl
        | @block ptr len hle' hmem hno hlen =>
          refine .block hle' hmem ?_ hlen
          have hne : ptr ≠ base := by
            rintro rfl
            cases h.objects _ ho with
            | block _ hmem' _ _ => exact hfresh _ hmem' rfl
          dsimp only at hno ⊢
          rw [update_of_ne hne]
          exact hno

/-- What `slab_allocate_object` adds. -/
structure NewObject (s : State Cpu) (base : ℕ) (sl : Slab Cpu) (k : ℕ) (s' : State Cpu) : Prop where
  slab_eq : ∃ sl', s'.slab = update s.slab base (some sl') ∧
    sl'.slubCache = sl.slubCache ∧ sl'.freeNr + 1 = sl.freeNr ∧ sl'.object k = sl.object k ∧
    sl'.header k = sl.header k ∧ k ∈ BitWord.ones sl'.bitmap
  word_eq : s'.word (sl.header k) = base
  list_eq : s'.list = s.list
  objects_eq : s'.objects = s.objects
  unused : ∀ o ∈ s.objects, o.key ≠ (base, some k)
  kept : LinksKept s s'

theorem linksKept_slabAllocateObject (h : Core s) (hsl : s.slab base = some sl)
    (ha : slabAllocateObject s base sl = some (k, s')) : LinksKept s s' := by
  unfold slabAllocateObject at ha
  rw [map_eq_some_iff] at ha
  obtain ⟨k', hf, heq⟩ := ha
  obtain ⟨rfl, rfl⟩ := Prod.mk.inj heq
  have hk' := (BitWord.firstClear_spec hf).1
  constructor
  case slab =>
    intro b sl₁ hsl1
    by_cases hb : b = base
    · subst hb
      obtain rfl := some_inj.1 (hsl.symm.trans hsl1)
      exact ⟨_, update_self .., rfl, rfl⟩
    · exact ⟨sl₁, (update_of_ne hb ..).trans hsl1, rfl, rfl⟩
  case word =>
    intro b sl₁ j hsl1 hj hw
    dsimp only
    rw [Slab.object_sub]
    by_cases haddr : sl₁.header j = sl.header k'
    · -- the same address is the same slot
      have hb : b = base := by
        by_contra hne
        exact h.header_ne hsl1 hsl hj hk' (fun heq => absurd heq hne) haddr
      rw [haddr, update_self, hb]
    · rw [update_of_ne haddr]
      exact hw

/-- An object from a slab is in a slot that was not in use. -/
theorem slabAllocateObject_core (h : Core s) (hsl : s.slab base = some sl)
    (ha : slabAllocateObject s base sl = some (k, s')) :
    Core s' ∧ NewObject s base sl k s' := by
  have hkept := linksKept_slabAllocateObject h hsl ha
  unfold slabAllocateObject at ha
  rw [map_eq_some_iff] at ha
  obtain ⟨k', hf, heq⟩ := ha
  cases heq
  obtain ⟨hk, hclear⟩ := BitWord.firstClear_spec hf
  have hok := h.slabs base sl hsl
  have hones := BitWord.ones_set (w := sl.bitmap) hk
  have hcard : (ones (sl.bitmap ||| BitVec.twoPow 64 k)).card
      = (ones sl.bitmap).card + 1 := by
    rw [hones, Finset.card_insert_of_notMem hclear]
  have hle : (ones (sl.bitmap ||| BitVec.twoPow 64 k)).card ≤ objectsPerSlab := by
    have hsub := Finset.card_le_card (BitWord.ones_subset_range (sl.bitmap ||| BitVec.twoPow 64 k))
    rwa [Finset.card_range] at hsub
  have hfree := hok.freeNr_add
  have hunused : ∀ o ∈ s.objects, o.key ≠ (base, some k) := by
    intro o ho hkey
    cases h.objects o ho with
    | @slot ptr len base' k' sl' hsl' hk' hptr hword hlen =>
      rw [Object.key, Prod.mk.injEq, some_inj] at hkey
      obtain ⟨rfl, rfl⟩ := hkey
      rw [hsl, some_inj] at hsl'
      exact hclear (hsl' ▸ hk')
    | block hle hmem hno hlen => simp [Object.key] at hkey
  refine ⟨⟨h.heap, ?_, ?_, h.distinct⟩, ⟨_, rfl, rfl, ?_, rfl, rfl, ?_⟩, ?_, rfl, rfl, hunused, hkept⟩
  · intro b sl' hsl'
    dsimp only at hsl' ⊢
    by_cases hb : b = base
    · subst hb
      rw [update_self, some_inj] at hsl'
      subst hsl'
      refine { hok with freeNr_add := ?_ }
      dsimp only
      omega
    · rw [update_of_ne hb] at hsl'
      exact h.slabs b sl' hsl'
  · intro o ho
    cases h.objects o ho with
    | @slot ptr len base' k' sl' hsl' hk' hptr hword hlen =>
      have hword' := hkept.word base' sl' k' hsl' (lt_of_mem_ones hk') hword
      by_cases hb : base' = base
      · subst hb
        rw [hsl, some_inj] at hsl'
        subst hsl'
        refine .slot (update_self ..) ?_ hptr hword' hlen
        dsimp only
        rw [hones]
        exact Finset.mem_insert_of_mem hk'
      · refine .slot ?_ hk' hptr hword' hlen
        dsimp only
        rwa [update_of_ne hb]
    | @block ptr len hle' hmem hno hlen =>
      refine .block hle' hmem ?_ hlen
      dsimp only
      rw [update_of_ne]
      · exact hno
      · rintro rfl
        rw [hsl] at hno
        cases hno
  · dsimp only
    omega
  · dsimp only
    rw [hones]
    exact Finset.mem_insert_self ..
  · dsimp only
    rw [Slab.object_sub, update_self]

end Core

/-! ### The caches -/

/-- The slot `r` of a slab of the cache `key` is in use. -/
structure Taken (s : State Cpu) (key : Key Cpu) (r : Slot) (sl : Slab Cpu) : Prop where
  slab_eq : s.slab r.base = some sl
  cache_eq : sl.slubCache = key
  mem_ones : r.k ∈ BitWord.ones sl.bitmap
  ptr_eq : r.ptr = sl.object r.k
  word_eq : s.word (sl.header r.k) = r.base

theorem ListKind.of_eq_part {n : ℕ} : ListKind.of n = .part ↔ n ≠ objectsPerSlab ∧ n ≠ 0 := by
  unfold ListKind.of
  split <;> (try split) <;> simp_all

theorem ListKind.of_zero : ListKind.of 0 = .full := rfl

theorem ListKind.of_eq_full {n : ℕ} : ListKind.of n = .full ↔ n = 0 := by
  unfold ListKind.of
  by_cases hfull : n = objectsPerSlab
  · simp [hfull, objectsPerSlab]
  · simp [hfull]

theorem ListKind.of_eq_empty {n : ℕ} : ListKind.of n = .empty ↔ n = objectsPerSlab := by
  unfold ListKind.of
  split <;> (try split) <;> simp_all

section Cache

variable {s s' : State Cpu} {key : Key Cpu} {base k : ℕ} {sl : Slab Cpu} {kind : ListKind}

/-- What an allocation from a cache does. -/
structure Granted (s : State Cpu) (key : Key Cpu) (r : Slot) (s' : State Cpu) : Prop where
  inv : Inv s'
  taken : ∃ sl, Taken s' key r sl
  objects_eq : s'.objects = s.objects
  unused : ∀ o ∈ s.objects, o.key ≠ (r.base, some r.k)
  kept : LinksKept s s'

theorem NewObject.granted (h : NewObject s base sl k s') (hkey : sl.slubCache = key)
    {list : Key Cpu × ListKind → List ℕ} (hinv : Inv { s' with list := list }) :
    Granted s key ⟨sl.object k, base, k⟩ { s' with list := list } := by
  refine ⟨hinv, ?_, h.objects_eq, h.unused, h.kept.slab, h.kept.word⟩
  obtain ⟨sl', hslab, hcache, -, hobj, hhead, hk⟩ := h.slab_eq
  refine ⟨sl', ?_, hcache.trans hkey, hk, hobj.symm, ?_⟩
  · dsimp only
    rw [hslab, update_self]
  · dsimp only
    rw [hhead, h.word_eq]

/-- A slab is made first; `list` are the lists it was put in. -/
theorem Granted.of_newSlab {r : Slot} {s₁ s₂ : State Cpu} (hnew : NewSlab s key base s₁ sl)
    (h : Granted s₂ key r s') (hslab : s₂.slab = s₁.slab) (hword : s₂.word = s₁.word)
    (hobj : s₂.objects = s₁.objects) : Granted s key r s' where
  inv := h.inv
  taken := h.taken
  objects_eq := h.objects_eq.trans (hobj.trans hnew.objects_eq)
  unused o ho := h.unused o (by rwa [hobj, hnew.objects_eq])
  kept := (hnew.kept.trans (.of_eq hslab hword)).trans h.kept

theorem Inv.slab_of_mem (h : Inv s) (hmem : base ∈ s.list (key, kind)) :
    ∃ sl, s.slab base = some sl ∧ sl.slubCache = key ∧ ListKind.of sl.freeNr = kind := by
  have hhome := (h.lists.mem_iff _ _).1 hmem
  rw [comp_apply, map_eq_some_iff] at hhome
  obtain ⟨sl, hsl, heq⟩ := hhome
  cases heq
  exact ⟨sl, hsl, rfl, rfl⟩

/-- The lists after a slab in one of them has changed its count and stays. -/
theorem Inv.lists_stay (h : Inv s) (hsl : s.slab base = some sl) {sl' : Slab Cpu}
    (hhome : sl'.home = sl.home) (hslab : s'.slab = update s.slab base (some sl'))
    (hlist : s'.list = s.list) : Placed s'.list (Option.map Slab.home ∘ s'.slab) := by
  rw [hslab, hlist, comp_update, map_some, hhome]
  refine h.lists.same ?_
  rw [comp_apply, hsl, map_some]

theorem Core.set_list (h : Core s) (list : Key Cpu × ListKind → List ℕ) :
    Core { s with list := list } :=
  ⟨h.heap, h.slabs, h.objects, h.distinct⟩

variable [DecidableEq Cpu]

/-- The lists after a slab in one of them has changed its count and moved. -/
theorem Inv.lists_move (h : Inv s) (hmem : base ∈ s.list (key, kind)) {sl' : Slab Cpu}
    {dst : ListKind} (hhome : sl'.home = (key, dst)) (hslab : s'.slab = update s.slab base
      (some sl')) (hlist : s'.list = s.list) :
    Placed (s'.moveSlab key kind dst base).list
      (Option.map Slab.home ∘ (s'.moveSlab key kind dst base).slab) := by
  have hmove := h.lists.moveFront hmem (key, dst)
  rw [show some (key, dst) = Option.map Slab.home (some sl') by rw [map_some, hhome],
    ← comp_update, ← hslab, ← hlist] at hmove
  exact hmove

theorem slubAllocate_inv (h : Inv s) (hkey : key.2 < numSlubBuckets) {r : Slot}
    (ha : slubAllocate s key = some (r, s')) : Granted s key r s' := by
  unfold slubAllocate at ha
  split at ha
  case h_1 base rest hpart =>
    have hmem : base ∈ s.list (key, .part) := hpart ▸ mem_cons_self
    obtain ⟨sl, hsl, hcache, hkind⟩ := h.slab_of_mem hmem
    rw [hsl, bind_some, map_eq_some_iff] at ha
    obtain ⟨⟨k, s₁⟩, halloc, heq⟩ := ha
    cases heq
    obtain ⟨hcore, hnew⟩ := slabAllocateObject_core h.toCore hsl halloc
    obtain ⟨sl', hslab, hcache', hfree, -⟩ := hnew.slab_eq
    have hn := ListKind.of_eq_part.1 hkind
    split
    · -- the last free slot: the slab is full now
      next hlast =>
      have hhome : sl'.home = (key, .full) := by
        rw [Slab.home, hcache', hcache, show sl'.freeNr = 0 by omega, ListKind.of_zero]
      exact hnew.granted hcache ⟨hcore.set_list _, h.lists_move hmem hhome hslab hnew.list_eq⟩
    · next hmore =>
      have hhome : sl'.home = sl.home := by
        have hlt : sl.freeNr ≤ objectsPerSlab := by
          have := (h.slabs base sl hsl).freeNr_add
          omega
        rw [Slab.home, Slab.home, hcache', hkind, ListKind.of_eq_part.2 ⟨by omega, by omega⟩]
      exact hnew.granted hcache ⟨hcore, h.lists_stay hsl hhome hslab hnew.list_eq⟩
  case h_2 hpart =>
    split at ha
    case h_1 base rest hempty =>
      have hmem : base ∈ s.list (key, .empty) := hempty ▸ mem_cons_self
      obtain ⟨sl, hsl, hcache, hkind⟩ := h.slab_of_mem hmem
      rw [hsl, bind_some, map_eq_some_iff] at ha
      obtain ⟨⟨k, s₁⟩, halloc, heq⟩ := ha
      cases heq
      obtain ⟨hcore, hnew⟩ := slabAllocateObject_core h.toCore hsl halloc
      obtain ⟨sl', hslab, hcache', hfree, -⟩ := hnew.slab_eq
      have hn := ListKind.of_eq_empty.1 hkind
      have hhome : sl'.home = (key, .part) := by
        rw [objectsPerSlab] at hn
        rw [Slab.home, hcache', hcache,
          ListKind.of_eq_part.2 ⟨by rw [objectsPerSlab]; omega, by omega⟩]
      exact hnew.granted hcache ⟨hcore.set_list _, h.lists_move hmem hhome hslab hnew.list_eq⟩
    case h_2 hempty =>
      rw [Option.bind_eq_some_iff] at ha
      obtain ⟨⟨base, s₁⟩, hns, ha⟩ := ha
      obtain ⟨hcore1, sl, hslab1⟩ := newSlab_core h.toCore hkey hns
      dsimp only at ha
      have hsl : s₁.slab base = some sl := by rw [hslab1.slab_eq, update_self]
      rw [hsl, bind_some, map_eq_some_iff] at ha
      obtain ⟨⟨k, s₂⟩, halloc, heq⟩ := ha
      cases heq
      obtain ⟨hcore, hnew⟩ := slabAllocateObject_core
        (hcore1.set_list (update s₁.list (key, .part) [base])) hsl halloc
      obtain ⟨sl', hslab, hcache', hfree, -⟩ := hnew.slab_eq
      have hcache : sl.slubCache = key := hslab1.cache_eq
      refine .of_newSlab hslab1 (hnew.granted hcache ⟨hcore, ?_⟩) rfl rfl rfl
      have hhome : sl'.home = (key, .part) := by
        have hn := hslab1.freeNr_eq
        rw [objectsPerSlab] at hn
        rw [Slab.home, hcache', hcache,
          ListKind.of_eq_part.2 ⟨by rw [objectsPerSlab]; omega, by omega⟩]
      have hpush := h.lists.pushFront (a := base)
        (by rw [comp_apply, hslab1.old]; rfl) (key, .part)
      rw [hpart] at hpush
      rw [hnew.list_eq, hslab, comp_update, map_some, hhome]
      dsimp only
      rw [hslab1.list_eq, hslab1.slab_eq, comp_update, update_idem]
      exact hpush

theorem allocate_inv (h : Inv s) (hkey : key.2 < numSlubBuckets) {r : Slot}
    (ha : allocate s key = some (r, s')) : Granted s key r s' := by
  unfold allocate at ha
  split at ha
  · exact slubAllocate_inv h hkey ha
  · rw [Option.bind_eq_some_iff] at ha
    obtain ⟨⟨base, s₁⟩, hns, ha⟩ := ha
    obtain ⟨hcore1, sl, hslab1⟩ := newSlab_core h.toCore hkey hns
    dsimp only at ha
    -- the first slab of the new cache is empty
    have hhome : sl.home = (key, .empty) := by
      rw [Slab.home, hslab1.cache_eq, ListKind.of_eq_empty.2 hslab1.freeNr_eq]
    have hpush := h.lists.pushFront (a := base)
      (by rw [comp_apply, hslab1.old]; rfl) (key, .empty)
    rw [show some (key, ListKind.empty) = Option.map Slab.home (some sl) by
      rw [map_some, hhome], ← comp_update, ← hslab1.slab_eq,
      ← hslab1.list_eq] at hpush
    have hinv : Inv { s₁ with
        created := update s₁.created key true
        list := update s₁.list (key, .empty) (base :: s₁.list (key, .empty)) } :=
      ⟨⟨hcore1.heap, hcore1.slabs, hcore1.objects, hcore1.distinct⟩, hpush⟩
    exact .of_newSlab hslab1 (slubAllocate_inv hinv hkey ha) rfl rfl rfl

/-! ### The operations -/

/-- `unsafe_slub_malloc` keeps the invariant. -/
theorem unsafeSlubMalloc_inv (h : Inv s) {cpu : Cpu} {len p : ℕ}
    (hm : unsafeSlubMalloc s cpu len = some (p, s')) : Inv s' ∧ LinksKept s s' := by
  unfold unsafeSlubMalloc at hm
  split at hm
  case isTrue hlarge =>
    rw [map_eq_some_iff] at hm
    obtain ⟨⟨q, heap⟩, hmalloc, heq⟩ := hm
    obtain ⟨hheap, hlive⟩ := unsafeMalloc_spec h.heap hmalloc
    dsimp only at heq
    cases heq
    split
    · next hp =>
      obtain ⟨-, hlive⟩ := hlive.resolve_right fun hr => by
        have := hr.1
        rw [hp, Alloc.maSize] at this
        omega
      exact ⟨⟨h.toCore.of_subset hheap (by rw [hlive]; exact List.Subset.refl _), h.lists⟩, .of_eq rfl rfl⟩
    · next hp =>
      obtain ⟨hle, hlive, hfresh⟩ := hlive.resolve_left fun h0 => hp h0.1
      have hcore := h.toCore.of_subset hheap (by rw [hlive]; exact subset_cons_self ..)
      have hlen : maxSlabLen < len := by
        have hiff : bucketOf len < numSlubBuckets ↔ len ≤ maxSlabLen := bucketOf_lt_iff
        omega
      -- the canary of the new block is not in a slab
      have hword : ∀ b sl k, s.slab b = some sl → k < objectsPerSlab → s.word (sl.header k) = b →
          update s.word (p - headerSize) (heap.alloc.mem (p - Alloc.maSize)).canary (sl.header k) = b := by
        intro b sl k hsl hk hw
        have hok := hcore.slabs b sl hsl
        have hin := payload_subset _ (hok.mem_payload hk (Nat.zero_le _))
        have hne : sl.block b ≠ (p - Alloc.maSize, len) := fun heq =>
          hfresh _ (h.slabs b sl hsl).block_mem (congrArg Prod.fst heq)
        have hd := hheap.disjoint hok.block_mem (by rw [hlive]; exact mem_cons_self) hne
        rw [update_of_ne, hw]
        intro heq
        refine Set.disjoint_left.1 hd hin ?_
        rw [heq, Alloc.liveBlock, Span.mem_bytes]
        rw [Alloc.maSize] at *
        rw [headerSize]
        omega
      refine ⟨⟨⟨hheap, hcore.slabs, ?_, ?_⟩, h.lists⟩, fun b sl hsl => ⟨sl, hsl, rfl, rfl⟩, hword⟩
      · intro o ho
        rcases mem_cons.1 ho with rfl | ho
        · refine .block hle ?_ ?_ hlen
          · dsimp only
            rw [hlive]
            exact mem_cons_self
          · cases hsl : s.slab p with
            | none => rfl
            | some sl => exact absurd rfl (hfresh _ (h.slabs p sl hsl).block_mem)
        · cases hcore.objects o ho with
          | slot hsl hk hptr hw hlen' =>
            exact .slot hsl hk hptr (hword _ _ _ hsl (lt_of_mem_ones hk) hw) hlen'
          | block hle' hmem hno hlen' => exact .block hle' hmem hno hlen'
      · rw [map_cons, nodup_cons]
        refine ⟨?_, h.distinct⟩
        intro hmem
        obtain ⟨o, ho, heq⟩ := mem_map.1 hmem
        cases h.objects o ho with
        | slot => simp [Object.key] at heq
        | @block ptr len' hle' hmem' hno hlen' =>
          have hptr : ptr = p := congrArg Prod.fst heq
          exact hfresh _ hmem' (by rw [hptr])
  case isFalse hsmall =>
    rw [map_eq_some_iff] at hm
    obtain ⟨⟨r, s₁⟩, halloc, heq⟩ := hm
    cases heq
    obtain ⟨hinv, ⟨sl, ht⟩, hobj, hunused, hkept⟩ := allocate_inv h (by dsimp only; omega) halloc
    refine ⟨⟨⟨hinv.heap, hinv.slabs, ?_, ?_⟩, hinv.lists⟩, hkept.slab, hkept.word⟩
    · intro o ho
      rcases mem_cons.1 ho with rfl | ho
      · refine .slot ht.slab_eq ht.mem_ones ht.ptr_eq ht.word_eq ?_
        rw [ht.cache_eq]
      · exact hinv.objects o ho
    · rw [map_cons, nodup_cons]
      refine ⟨?_, hinv.distinct⟩
      rw [hobj]
      intro hmem
      obtain ⟨o, ho, heq⟩ := mem_map.1 hmem
      exact hunused o ho heq

/-- What freeing slot `k` of the slab at `base` does: the slot is marked free, the slab is in the list
of its new count, and nothing else has changed. -/
structure FreedSlot (s : State Cpu) (base k : ℕ) (s' : State Cpu) : Prop where
  heap_eq : s'.heap = s.heap
  slab_eq : ∃ sl, s.slab base = some sl ∧ k ∈ BitWord.ones sl.bitmap ∧
    s'.slab = update s.slab base (some { sl with
      freeNr := sl.freeNr + 1, bitmap := sl.bitmap &&& ~~~BitVec.twoPow 64 k })
  lists : Placed s'.list (Option.map Slab.home ∘ s'.slab)
  lists_eq : ∀ b, b ≠ base → ∀ i, b ∈ s'.list i ↔ b ∈ s.list i
  word_eq : s'.word = s.word
  objects_eq : s'.objects = s.objects

theorem mem_moveSlab {src dst : ListKind} {b : ℕ} (hb : b ≠ base) (i : Key Cpu × ListKind) :
    b ∈ (s.moveSlab key src dst base).list i ↔ b ∈ s.list i := by
  have herase : ∀ j, b ∈ update s.list (key, src) ((s.list (key, src)).erase base) j ↔
      b ∈ s.list j := by
    intro j
    by_cases hj : j = (key, src)
    · rw [hj, update_self, mem_erase_of_ne hb]
    · rw [update_of_ne hj]
  by_cases hi : i = (key, dst)
  · rw [hi, State.moveSlab]
    dsimp only
    rw [update_self, mem_cons, herase, or_iff_right hb]
  · rw [State.moveSlab]
    dsimp only
    rw [update_of_ne hi, herase]

/-- **`slub_free` of an object from a slab** frees its slot. -/
theorem slubFree_slot (h : Inv s) {ptr len : ℕ} (ho : ⟨ptr, len, .slot base k⟩ ∈ s.objects) :
    ∃ s', slubFree s ptr = some s' ∧ FreedSlot s base k s' := by
  cases h.objects _ ho with
  | @slot _ _ _ _ sl hsl hk hptr hword hlen =>
    have hhead : ptr - headerSize = sl.header k := by
      rw [hptr, Slab.object_sub]
    have hdiv : (sl.header k - sl.mem) / (sl.sizeEach + headerSize) = k := by
      rw [Slab.header, Nat.add_sub_cancel_left]
      exact Nat.mul_div_cancel _ (by rw [headerSize]; omega)
    have hfree : slabFreeObject s base sl (sl.header k) = { s with
        slab := update s.slab base (some { sl with
          freeNr := sl.freeNr + 1, bitmap := sl.bitmap &&& ~~~BitVec.twoPow 64 k }) } := by
      rw [slabFreeObject, hdiv]
    have hcard := (h.slabs base sl hsl).freeNr_add
    have hpos : 0 < (ones sl.bitmap).card := Finset.card_pos.2 ⟨k, hk⟩
    have hmem : base ∈ s.list (sl.slubCache, ListKind.of sl.freeNr) := by
      rw [h.lists.mem_iff, comp_apply, hsl]
      rfl
    rw [slubFree, hhead]
    dsimp only
    rw [hword, hsl, map_some, hfree]
    refine ⟨_, rfl, ?_⟩
    split
    · next hone =>
      -- the slab was full
      rw [show ListKind.of sl.freeNr = .full by rw [show sl.freeNr = 0 by omega]; rfl] at hmem
      exact ⟨rfl, ⟨sl, hsl, hk, rfl⟩, h.lists_move hmem (by
        rw [Slab.home]; dsimp only; rw [hone]; rfl) rfl rfl, fun b hb i => mem_moveSlab hb i, rfl,
        rfl⟩
    · next hone =>
      have hpart : ListKind.of sl.freeNr = .part :=
        ListKind.of_eq_part.2 ⟨by omega, by omega⟩
      split
      · next hall =>
        -- the last object of the slab
        rw [hpart] at hmem
        exact ⟨rfl, ⟨sl, hsl, hk, rfl⟩, h.lists_move hmem (by
          rw [Slab.home]; dsimp only; rw [hall]; rfl) rfl rfl, fun b hb i => mem_moveSlab hb i, rfl,
          rfl⟩
      · next hall =>
        refine ⟨rfl, ⟨sl, hsl, hk, rfl⟩, h.lists_stay hsl ?_ rfl rfl, fun _ _ _ => Iff.rfl, rfl, rfl⟩
        rw [Slab.home, Slab.home, hpart, ListKind.of_eq_part.2 ⟨hall, by omega⟩]

omit [DecidableEq Cpu] in
/-- The invariant after an object from a slab is freed. -/
theorem FreedSlot.inv (hf : FreedSlot s base k s') (h : Inv s) {ptr len : ℕ}
    (ho : ⟨ptr, len, .slot base k⟩ ∈ s.objects) :
    Inv { s' with objects := s'.objects.erase ⟨ptr, len, .slot base k⟩ } := by
  obtain ⟨sl, hsl, hk, hslab⟩ := hf.slab_eq
  have hones := BitWord.ones_clear (w := sl.bitmap) (k := k)
  have hnodup : s.objects.Nodup := h.distinct.of_map
  refine ⟨⟨?_, ?_, ?_, ?_⟩, hf.lists⟩
  · dsimp only
    rw [hf.heap_eq]
    exact h.heap
  · intro b sl' hsl'
    dsimp only at hsl' ⊢
    rw [hf.heap_eq]
    rw [hslab] at hsl'
    by_cases hb : b = base
    · subst hb
      rw [update_self, some_inj] at hsl'
      subst hsl'
      have hok := h.slabs b sl hsl
      have hcard := Finset.card_erase_of_mem hk
      have hpos : 0 < (ones sl.bitmap).card := Finset.card_pos.2 ⟨k, hk⟩
      have hadd := hok.freeNr_add
      refine { hok with freeNr_add := ?_ }
      dsimp only
      rw [hones]
      omega
    · rw [update_of_ne hb] at hsl'
      exact h.slabs b sl' hsl'
  · intro o hmem
    dsimp only at hmem ⊢
    rw [hf.objects_eq, hnodup.mem_erase_iff] at hmem
    rw [hf.heap_eq, hf.word_eq, hslab]
    -- another object is in another slot
    have hne : o.key ≠ (base, some k) := fun hkey =>
      hmem.1 (inj_on_of_nodup_map h.distinct hmem.2 ho hkey)
    cases h.objects o hmem.2 with
    | @slot ptr' len' base' k' sl' hsl' hk' hptr hword hlen =>
      by_cases hb : base' = base
      · subst hb
        rw [hsl, some_inj] at hsl'
        subst hsl'
        have hkk : k' ≠ k := by
          rintro rfl
          exact hne rfl
        refine .slot (update_self ..) ?_ hptr hword hlen
        dsimp only
        rw [hones]
        exact Finset.mem_erase_of_ne_of_mem hkk hk'
      · refine .slot ?_ hk' hptr hword hlen
        rwa [update_of_ne hb]
    | @block ptr' len' hle' hmem' hno hlen =>
      refine .block hle' hmem' ?_ hlen
      rw [update_of_ne]
      · exact hno
      · rintro rfl
        rw [hsl] at hno
        cases hno
  · dsimp only
    rw [hf.objects_eq]
    exact h.distinct.sublist (erase_sublist.map _)

omit [DecidableEq Cpu] in
theorem mem_live_of_step {heap heap' : Alloc.State} {e : Alloc.Event} {b : ℕ × ℕ}
    (hs : Alloc.step heap e = some heap') (hfault : heap'.fault = none) (hb : b ∈ heap.live)
    (hfree : ∀ p, e = .free p → b.1 + Alloc.maSize ≠ p) : b ∈ heap'.live := by
  cases e with
  | malloc len =>
    rw [Alloc.step, ite_none_right_eq_some, some_inj] at hs
    obtain ⟨-, rfl⟩ := hs
    cases hm : Alloc.malloc heap.start len with
    | error f =>
      rw [hm] at hfault
      cases hfault
    | ok r =>
      dsimp only [Alloc.State.mallocDone]
      split
      · exact hb
      · exact mem_cons_of_mem _ hb
  | free p =>
    rw [Alloc.step, ite_none_right_eq_some, some_inj] at hs
    obtain ⟨-, rfl⟩ := hs
    cases hm : Alloc.free heap.start p with
    | error f =>
      rw [hm] at hfault
      cases hfault
    | ok al =>
      exact mem_filter.2 ⟨hb, by simpa using hfree p rfl⟩
  | expandHeap base len =>
    rw [Alloc.step, ite_none_right_eq_some, some_inj] at hs
    obtain ⟨-, rfl⟩ := hs
    exact hb

omit [DecidableEq Cpu] in
theorem heap_inv (h : Inv s) {e : Alloc.Event} {heap : Alloc.State} (hfor : s.Foreign e)
    (hs : Alloc.step s.heap e = some heap) (hfault : heap.fault = none) :
    Inv { s with heap := heap } := by
  have hok : HeapOk heap := ⟨hfault, Alloc.valid_step (fun _ => h.heap.2) hs hfault⟩
  refine ⟨h.toCore.of_heap hok ?_ ?_, h.lists⟩
  · intro base sl hsl
    have hslab := h.slabs base sl hsl
    refine mem_live_of_step hs hfault hslab.block_mem ?_
    rintro p rfl hp
    rw [Slab.block, Nat.sub_add_cancel hslab.maSize_le] at hp
    rw [hp, hfor.1] at hsl
    cases hsl
  · intro o ho hplace
    cases h.objects o ho with
    | slot hsl hk hptr hword hlen => cases hplace
    | block hle hmem hno hlen =>
      refine mem_live_of_step hs hfault hmem ?_
      rintro p rfl hp
      rw [Nat.sub_add_cancel hle] at hp
      exact hfor.2 _ ho hp

/-- **Every step keeps the invariant**, and the header of a slot points to its slab for ever. -/
theorem inv_step_linksKept {e : Event Cpu} (h : Inv s) (hs : step s e = some s') :
    Inv s' ∧ LinksKept s s' := by
  cases e with
  | malloc cpu len =>
    rw [step, map_eq_some_iff] at hs
    obtain ⟨⟨p, s₁⟩, hm, rfl⟩ := hs
    exact unsafeSlubMalloc_inv h hm
  | free o =>
    rw [step, ite_none_right_eq_some, map_eq_some_iff] at hs
    obtain ⟨⟨ho, hlen⟩, s₁, hf, rfl⟩ := hs
    obtain ⟨ptr, len, place⟩ := o
    cases place with
    | slot base k =>
      obtain ⟨s₂, hf2, hfreed⟩ := slubFree_slot h ho
      rw [unsafeSlubFree, hf2, some_inj] at hf
      subst hf
      obtain ⟨sl, hsl, -, hslab⟩ := hfreed.slab_eq
      refine ⟨hfreed.inv h ho, .of_update hsl ?_ ?_ hslab hfreed.word_eq⟩ <;> rfl
    | block =>
      cases h.objects _ ho with
      | block hle hmem hno hlarge => exact absurd hlen (by dsimp only; omega)
  | heap e =>
    rw [step, ite_none_right_eq_some] at hs
    obtain ⟨hfor, hs⟩ := hs
    split at hs
    · next heap hheap =>
      rw [ite_none_right_eq_some, some_inj] at hs
      obtain ⟨hfault, rfl⟩ := hs
      exact ⟨heap_inv h hfor hheap hfault, .of_eq rfl rfl⟩
    · cases hs

theorem inv_step {e : Event Cpu} (h : Inv s) (hs : step s e = some s') : Inv s' :=
  (inv_step_linksKept h hs).1

omit [DecidableEq Cpu] in
theorem inv_init : Inv (init : State Cpu) where
  heap := ⟨rfl, Alloc.valid_init rfl⟩
  slabs := nofun
  objects := nofun
  distinct := nodup_nil
  lists := Placed.nil

/-- **The invariant holds in every state that is reached.** -/
theorem inv_run {es : List (Event Cpu)} (hrun : Transition.run step init es = some s) : Inv s :=
  Transition.run_induction (fun _ _ _ h hs => inv_step h hs) es inv_init hrun

end Cache

end Slub

/-
**Who owns an object, and where it goes when it is freed.**

An object that was served from a slab goes back to its slot when it is freed, at any later time, and
it owns its bytes unless it is in the last slot of a slab of the largest size and hangs over the end of
the slab.  An object that was too long for the slabs owns its bytes, but `unsafe_slub_free` takes the
canary in front of it for the address of a slab and never returns it.

Main definitions: `Owned`, `FreedExactly`.  Main result: `owned_and_freedExactly_iff`.
-/

import SgxElps.Slub.Invariant

namespace Slub

open Transition

variable {Cpu : Type}

/-! ### Ownership -/

/-- The bytes that were asked for. -/
def Object.bytes (o : Object) : Set ℕ := (⟨o.ptr, o.len⟩ : Span).bytes

/-- The bytes of an object with the header in front of it. -/
def Object.extent (o : Object) : Span := ⟨o.ptr - headerSize, headerSize + o.len⟩

/-- The bytes of the object lie in one live block of the unsafe `Allocator` and are apart from the
structure of every slab and from the other objects in that block. -/
def Owned (s : State Cpu) (o : Object) : Prop :=
  ∃ b ∈ s.heap.live, o.bytes ⊆ (payload b).bytes ∧
    (∀ base, s.slab base ≠ none → Disjoint o.bytes (⟨base, slabSize⟩ : Span).bytes) ∧
    ∀ o' ∈ s.objects, o' ≠ o → o'.ptr ∈ (payload b).bytes → Disjoint o.bytes o'.extent.bytes

section Owned

variable {s : State Cpu} {ptr len base k : ℕ}

theorem SlabOk.struct_subset {live : List (ℕ × ℕ)} {sl : Slab Cpu} (h : SlabOk live base sl) :
    (⟨base, slabSize⟩ : Span).bytes ⊆ (payload (sl.block base)).bytes := by
  rw [h.payload_eq]
  refine Span.bytes_subset (le_refl _) ?_
  dsimp only
  rw [slabSize, allocSize]
  omega

theorem ptr_mem_payload (hle : Alloc.maSize ≤ ptr) (hlen : 0 < len) :
    ptr ∈ (payload (ptr - Alloc.maSize, len)).bytes := by
  rw [payload, Span.mem_bytes]
  dsimp only
  omega

theorem Object.mem_bytes {place : Place} {x : ℕ} :
    x ∈ (⟨ptr, len, place⟩ : Object).bytes ↔ ptr ≤ x ∧ x < ptr + len := Iff.rfl

theorem disjoint_slots {sl : Slab Cpu} {k' len' : ℕ} (hlen : len ≤ sl.sizeEach)
    (hlen' : len' ≤ sl.sizeEach) (hne : k ≠ k') :
    Disjoint (⟨sl.object k, len⟩ : Span).bytes (⟨sl.header k', headerSize + len'⟩ : Span).bytes := by
  rw [Set.disjoint_left]
  intro x hx hx'
  rw [Span.mem_bytes, Slab.object, Slab.header] at hx
  rw [Span.mem_bytes, Slab.header] at hx'
  rcases Nat.lt_or_gt_of_ne hne with hlt | hlt
  · have hmul := Nat.mul_le_mul_right (sl.sizeEach + headerSize) hlt
    rw [Nat.succ_mul] at hmul
    omega
  · have hmul := Nat.mul_le_mul_right (sl.sizeEach + headerSize) hlt
    rw [Nat.succ_mul] at hmul
    omega

theorem Inv.disjoint_of_block (h : Inv s) {b b' : ℕ × ℕ} (hb : b ∈ s.heap.live)
    (hb' : b' ∈ s.heap.live) (hne : b ≠ b') {x : ℕ} (hx : x ∈ (payload b).bytes) :
    x ∉ (payload b').bytes := fun hx' =>
  Set.disjoint_left.1 (h.heap.disjoint hb hb' hne) (payload_subset b hx) (payload_subset b' hx')

/-- `b` is the block that the object came from: that of its slab, or one of its own. -/
inductive Home (s : State Cpu) : Object → ℕ × ℕ → Prop
  | slot {len base k : ℕ} {sl : Slab Cpu} (hsl : s.slab base = some sl) (hk : k < objectsPerSlab)
      (hlen : bucketOf len = sl.slubCache.2) : Home s ⟨sl.object k, len, .slot base k⟩ (sl.block base)
  | block {ptr len : ℕ} (hle : Alloc.maSize ≤ ptr) (hno : s.slab ptr = none) :
      Home s ⟨ptr, len, .block⟩ (ptr - Alloc.maSize, len)

variable {o o' : Object} {b : ℕ × ℕ}

theorem Inv.exists_home (h : Inv s) (ho : o ∈ s.objects) :
    ∃ b ∈ s.heap.live, Home s o b ∧ o.ptr ∈ (payload b).bytes := by
  cases h.objects o ho with
  | @slot _ len base k sl hsl hk hptr hword hlen =>
    have hok := h.slabs base sl hsl
    subst hptr
    exact ⟨_, hok.block_mem, .slot hsl (lt_of_mem_ones hk) hlen,
      hok.mem_payload (lt_of_mem_ones hk) le_rfl⟩
  | block hle hmem hno hlen => exact ⟨_, hmem, .block hle hno, ptr_mem_payload hle (by omega)⟩

theorem Inv.home_of_mem (h : Inv s) (ho : o ∈ s.objects) (hb : b ∈ s.heap.live)
    (hptr : o.ptr ∈ (payload b).bytes) : Home s o b := by
  obtain ⟨b', hb', hhome, hptr'⟩ := h.exists_home ho
  by_cases hbb : b' = b
  · exact hbb ▸ hhome
  · exact absurd hptr (h.disjoint_of_block hb' hb hbb hptr')

theorem Inv.block_ne_of_none (h : Inv s) {sl : Slab Cpu} (hsl : s.slab base = some sl)
    (hle : Alloc.maSize ≤ ptr) (hno : s.slab ptr = none) : sl.block base ≠ (ptr - Alloc.maSize, len) := by
  intro heq
  have hfst : base - Alloc.maSize = ptr - Alloc.maSize := congrArg Prod.fst heq
  have hbase := (h.slabs base sl hsl).maSize_le
  rw [show ptr = base by omega, hsl] at hno
  cases hno

/-- Different objects from one block are in different slots of a slab. -/
theorem Inv.slots_of_home (h : Inv s) (ho : o ∈ s.objects) (ho' : o' ∈ s.objects) (hne : o' ≠ o)
    (hb : Home s o b) (hb' : Home s o' b) : ∃ sl base k k' len len', s.slab base = some sl ∧ k ≠ k' ∧
      o = ⟨sl.object k, len, .slot base k⟩ ∧ o' = ⟨sl.object k', len', .slot base k'⟩ ∧
      bucketOf len = sl.slubCache.2 ∧ bucketOf len' = sl.slubCache.2 := by
  cases hb with
  | @slot len base k sl hsl hk hlen =>
    generalize hbb : sl.block base = b' at hb'
    cases hb' with
    | @slot len' base' k' sl' hsl' hk' hlen' =>
      obtain rfl : base = base' := by
        by_contra hne'
        exact (h.slabs _ _ hsl).block_ne (h.slabs _ _ hsl') hne' hbb
      rw [hsl, Option.some_inj] at hsl'
      subst hsl'
      refine ⟨sl, base, k, k', len, len', hsl, ?_, rfl, rfl, hlen, hlen'⟩
      rintro rfl
      exact hne (List.inj_on_of_nodup_map h.distinct ho' ho rfl)
    | block hle hno => exact absurd hbb (h.block_ne_of_none hsl hle hno)
  | @block ptr len hle hno =>
    generalize hbb : (ptr - Alloc.maSize, len) = b' at hb'
    cases hb' with
    | slot hsl' hk' hlen' => exact absurd hbb.symm (h.block_ne_of_none hsl' hle hno)
    | @block ptr' len' hle' hno' =>
      have hptr : ptr - Alloc.maSize = ptr' - Alloc.maSize := congrArg Prod.fst hbb
      obtain rfl : ptr = ptr' := by omega
      exact absurd (List.inj_on_of_nodup_map h.distinct ho' ho rfl) hne

/-- Objects in use are at different addresses. -/
theorem Inv.ptr_inj (h : Inv s) (ho : o ∈ s.objects) (ho' : o' ∈ s.objects) (hptr : o'.ptr = o.ptr) :
    o' = o := by
  by_contra hne
  obtain ⟨b, hb, hhome, hmem⟩ := h.exists_home ho
  have hhome' := h.home_of_mem ho' hb (hptr ▸ hmem)
  obtain ⟨sl, base, k, k', len, len', -, hk, rfl, rfl, -⟩ := h.slots_of_home ho ho' hne hhome hhome'
  exact hk (header_inj (Nat.add_right_cancel hptr)).symm

/-- An object owns its bytes exactly if they lie in the block it came from. -/
theorem owned_iff_subset (h : Inv s) (ho : o ∈ s.objects) (hb : b ∈ s.heap.live) (hhome : Home s o b)
    (hptr : o.ptr ∈ (payload b).bytes) : Owned s o ↔ o.bytes ⊆ (payload b).bytes := by
  constructor
  · rintro ⟨b', hb', hsub, -⟩ x hx
    have hx' : o.ptr ∈ o.bytes := ⟨le_refl _, lt_of_le_of_lt hx.1 hx.2⟩
    by_cases hbb : b' = b
    · exact hbb ▸ hsub hx
    · exact absurd hptr (h.disjoint_of_block hb' hb hbb (hsub hx'))
  · intro hsub
    refine ⟨b, hb, hsub, fun base hsl => ?_, fun o' ho' hne hptr' => ?_⟩
    · obtain ⟨sl, hsl⟩ := Option.ne_none_iff_exists'.1 hsl
      have hok := h.slabs base sl hsl
      by_cases hbb : b = sl.block base
      · cases hhome with
        | @slot len base' k sl' hsl' hk hlen =>
          -- the structure is in front of the slots
          obtain rfl : base' = base := by
            by_contra hne
            exact (h.slabs _ _ hsl').block_ne hok hne hbb
          have hle := le_slabMem base' sl'.sizeEach
          refine (Span.disjoint_bytes ?_).symm
          rw [Slab.object, Slab.header, (h.slabs _ _ hsl').mem_eq]
          generalize k * (sl'.sizeEach + headerSize) = d at *
          dsimp only
          omega
        | block hle hno => exact absurd hbb.symm (h.block_ne_of_none hsl hle hno)
      · exact Set.disjoint_left.2 fun x hx hx' =>
          h.disjoint_of_block hb hok.block_mem hbb (hsub hx) (hok.struct_subset hx')
    · have hhome' := h.home_of_mem ho' hb hptr'
      obtain ⟨sl, base, k, k', len, len', hsl, hk, rfl, rfl, hlen, hlen'⟩ :=
        h.slots_of_home ho ho' hne hhome hhome'
      have hok := h.slabs base sl hsl
      have hsize : ∀ {n}, bucketOf n = sl.slubCache.2 → n ≤ sl.sizeEach := fun hn => by
        rw [hok.sizeEach_eq, ← hn]
        exact len_le_bucketSize (by rw [hn]; exact hok.bucket_lt)
      rw [Object.bytes, Object.extent]
      dsimp only
      rw [Slab.object_sub]
      exact disjoint_slots (hsize hlen) (hsize hlen') hk

/-- **Ownership in a slab**: exactly if the object ends inside the slab. -/
theorem owned_slot_iff (h : Inv s) (ho : ⟨ptr, len, .slot base k⟩ ∈ s.objects) :
    Owned s ⟨ptr, len, .slot base k⟩ ↔ Fits len base k := by
  obtain ⟨b, hb, hhome, hmem⟩ := h.exists_home ho
  rw [owned_iff_subset h ho hb hhome hmem]
  cases hhome with
  | @slot _ _ _ sl hsl hk hlen =>
    have hok := h.slabs base sl hsl
    have hlt : bucketOf len < numSlubBuckets := by rw [hlen]; exact hok.bucket_lt
    have hend : sl.object k + len ≤ base + allocSize sl.sizeEach ↔ Fits len base k := by
      rw [← slot_le_allocSize_iff hlt hk, Slab.object, Slab.header, hok.mem_eq, hok.sizeEach_eq, hlen]
    rw [hok.payload_eq] at hmem ⊢
    have hle : base ≤ sl.object k := hmem.1
    rw [← hend]
    constructor
    · intro hsub
      by_cases hfit : len ≤ 3500
      · exact hend.2 (.inl hfit)
      have hlast := hsub (Object.mem_bytes.2 (show sl.object k ≤ sl.object k + len - 1 ∧ _ by omega))
      rw [Span.mem_bytes] at hlast
      omega
    · exact fun hin x hx => Span.mem_bytes_of_le hx hle hin

/-- A block of the `Allocator` owns its bytes. -/
theorem owned_block (h : Inv s) (ho : ⟨ptr, len, .block⟩ ∈ s.objects) : Owned s ⟨ptr, len, .block⟩ := by
  obtain ⟨b, hb, hhome, hmem⟩ := h.exists_home ho
  refine (owned_iff_subset h ho hb hhome hmem).2 ?_
  cases hhome with
  | block hle hno =>
    rw [payload, Nat.sub_add_cancel hle]
    exact subset_rfl

/-- **Who owns its bytes.** -/
theorem owned_iff (h : Inv s) (ho : o ∈ s.objects) :
    Owned s o ↔ ∀ base k, o.place = .slot base k → Fits o.len base k := by
  obtain ⟨ptr, len, place⟩ := o
  cases place with
  | slot base k =>
    rw [owned_slot_iff h ho]
    refine ⟨fun hfit base' k' heq => ?_, fun hs => hs base k rfl⟩
    cases heq
    exact hfit
  | block => exact iff_of_true (owned_block h ho) fun base k heq => by cases heq

/-- Objects that own their bytes do not overlap. -/
theorem disjoint_of_owned (h : Inv s) (ho' : o' ∈ s.objects) (hne : o' ≠ o) (hown : Owned s o)
    (hown' : Owned s o') : Disjoint o.bytes o'.bytes := by
  obtain ⟨b, hb, hsub, -, hothers⟩ := hown
  obtain ⟨b', hb', hsub', -⟩ := hown'
  refine Set.disjoint_left.2 fun x hx hx' => ?_
  by_cases hbb : b' = b
  · have hptr : o'.ptr ∈ o'.bytes := ⟨le_refl _, lt_of_le_of_lt hx'.1 hx'.2⟩
    refine Set.disjoint_left.1 (hothers o' ho' hne (hbb ▸ hsub' hptr)) hx ?_
    exact Span.mem_bytes_of_le hx' (Nat.sub_le ..) (by omega)
  · exact h.disjoint_of_block hb hb' (Ne.symm hbb) (hsub hx) (hsub' hx')

end Owned

/-! ### Freeing -/

/-- The unsafe `Allocator` frees the block of an object, and the slabs stay as they are. -/
structure FreedBlock (s : State Cpu) (ptr : ℕ) (s' : State Cpu) : Prop where
  heap_eq : Alloc.step s.heap (.free ptr) = some s'.heap
  slab_eq : s'.slab = s.slab
  list_eq : s'.list = s.list

section Freed

variable [DecidableEq Cpu]

/-- `unsafe_slub_free` returns the object to where it came from. -/
def FreedExactly (s : State Cpu) (o : Object) : Prop :=
  ∃ s', unsafeSlubFree s o.ptr = some s' ∧
    match o.place with
    | .slot base k => FreedSlot s base k s'
    | .block => FreedBlock s o.ptr s'

variable {s s' : State Cpu} {ptr len base k : ℕ}

theorem freedExactly_slot (h : Inv s) (ho : ⟨ptr, len, .slot base k⟩ ∈ s.objects) :
    FreedExactly s ⟨ptr, len, .slot base k⟩ :=
  slubFree_slot h ho

theorem unsafeSlubFree_frame (hf : unsafeSlubFree s ptr = some s') :
    s'.heap = s.heap ∧ s'.objects = s.objects := by
  rw [unsafeSlubFree, slubFree, Option.map_eq_some_iff] at hf
  obtain ⟨sl, -, rfl⟩ := hf
  split
  · exact ⟨rfl, rfl⟩
  · split <;> exact ⟨rfl, rfl⟩

/-- A block is not returned. -/
theorem not_freedExactly_block (h : Inv s) (ho : ⟨ptr, len, .block⟩ ∈ s.objects) :
    ¬ FreedExactly s ⟨ptr, len, .block⟩ := by
  rintro ⟨s', hf, hfreed⟩
  cases h.objects _ ho with
  | block hle hmem hno hlen =>
    have hstep := hfreed.heap_eq
    rw [(unsafeSlubFree_frame hf).1, Alloc.step, Option.ite_none_right_eq_some, Option.some_inj] at hstep
    obtain ⟨-, heq⟩ := hstep
    cases hfree : Alloc.free s.heap.start ptr with
    | error f =>
      have hfault := congrArg Alloc.State.fault heq
      rw [hfree, h.heap.1] at hfault
      cases hfault
    | ok al =>
      have hlive := congrArg Alloc.State.live heq
      rw [hfree] at hlive
      rw [← hlive] at hmem
      have hne := (List.mem_filter.1 hmem).2
      simp only [ne_eq, decide_not, Bool.not_eq_eq_eq_not, Bool.not_true,
        decide_eq_false_iff_not] at hne
      exact hne (Nat.sub_add_cancel hle)

/-- The pointers are freed one after the other, and each object is returned to where it came from. -/
inductive FreedAll : State Cpu → List ℕ → Prop
  | nil {s : State Cpu} : FreedAll s []
  | cons {s s' : State Cpu} {o : Object} {ps : List ℕ} (ho : o ∈ s.objects) (hfreed : FreedExactly s o)
      (hf : unsafeSlubFree s o.ptr = some s')
      (hthen : FreedAll { s' with objects := s'.objects.erase o } ps) : FreedAll s (o.ptr :: ps)

/-- Exactly the objects of at most 4096 bytes are returned. -/
theorem freedExactly_iff (h : Inv s) {o : Object} (ho : o ∈ s.objects) :
    FreedExactly s o ↔ o.len ≤ maxSlabLen := by
  obtain ⟨ptr, len, place⟩ := o
  cases place with
  | slot base k =>
    refine iff_of_true (freedExactly_slot h ho) ?_
    cases h.objects _ ho with
    | slot hsl hk hptr hword hlen =>
      rw [← bucketOf_lt_iff, hlen]
      exact (h.slabs _ _ hsl).bucket_lt
  | block =>
    refine iff_of_false (not_freedExactly_block h ho) ?_
    cases h.objects _ ho with
    | block hle hmem hno hlen => exact not_le.2 hlen

/-- **Freeing several objects**, each once and in any order. -/
theorem freedAll_iff (h : Inv s) {os : List Object} (hos : os ⊆ s.objects) (hnodup : os.Nodup)
    {ps : List ℕ} (hps : ps.Perm (os.map Object.ptr)) :
    FreedAll s ps ↔ ∀ o ∈ os, o.len ≤ maxSlabLen := by
  induction ps generalizing s os with
  | nil =>
    rw [List.map_eq_nil_iff.1 hps.nil_eq.symm]
    exact iff_of_true .nil fun _ ho => absurd ho List.not_mem_nil
  | cons p ps ih =>
    obtain ⟨o, ho, rfl⟩ := List.mem_map.1 (hps.subset (List.mem_cons_self ..))
    have hperm := List.perm_cons_erase ho
    have hrest : ps.Perm ((os.erase o).map Object.ptr) := (hps.trans (hperm.map _)).cons_inv
    -- a free that returns the object leaves the others in use
    have hnext : ∀ s', o.len ≤ maxSlabLen → unsafeSlubFree s o.ptr = some s' →
        (FreedAll { s' with objects := s'.objects.erase o } ps ↔
          ∀ o' ∈ os.erase o, o'.len ≤ maxSlabLen) := by
      intro s' hlen hf
      have hstep : step s (.free o) = some { s' with objects := s'.objects.erase o } := by
        rw [step, if_pos ⟨hos ho, hlen⟩, hf]
        rfl
      refine ih (inv_step h hstep) (fun o' ho' => ?_) (hnodup.erase o) hrest
      have hne : o' ≠ o := fun heq => hnodup.not_mem_erase (heq ▸ ho')
      rw [(unsafeSlubFree_frame hf).2]
      exact (List.mem_erase_of_ne hne).2 (hos (List.mem_of_mem_erase ho'))
    have hall : (∀ o' ∈ os, o'.len ≤ maxSlabLen) ↔
        o.len ≤ maxSlabLen ∧ ∀ o' ∈ os.erase o, o'.len ≤ maxSlabLen :=
      (forall_congr' fun o' => imp_congr_left hperm.mem_iff).trans List.forall_mem_cons
    rw [hall]
    constructor
    · generalize hp : o.ptr = p
      intro hall
      cases hall with
      | cons ho' hfreed hf hthen =>
        obtain rfl := h.ptr_inj (hos ho) ho' hp.symm
        have hlen := (freedExactly_iff h ho').1 hfreed
        exact ⟨hlen, (hnext _ hlen hf).1 hthen⟩
    · rintro ⟨hlen, hothers⟩
      obtain ⟨s', hf, hplace⟩ := (freedExactly_iff h (hos ho)).2 hlen
      exact .cons (hos ho) ⟨s', hf, hplace⟩ hf ((hnext s' hlen hf).2 hothers)

/-! ### When both hold -/

/-- The length is served from a slab and the object ends inside it. -/
def Sound (o : Object) : Prop :=
  o.len ≤ maxSlabLen ∧ ∀ base k, o.place = .slot base k → Fits o.len base k

/-- **When an object is owned and returned.**  In every state that is reached, an object that
`unsafe_slub_malloc` returned and that is still in use owns its bytes and is returned by
`unsafe_slub_free` to where it came from if and only if its length is at most 4096 and, if it is in
the last slot of its slab, at most `3500 + (base + 76) % 8200`. -/
theorem owned_and_freedExactly_iff {es : List (Event Cpu)}
    (hrun : run step init es = some s) {o : Object} (ho : o ∈ s.objects) :
    Owned s o ∧ FreedExactly s o ↔ Sound o := by
  have h := inv_run hrun
  rw [owned_iff h ho, freedExactly_iff h ho, and_comm, Sound]

end Freed

/-! ### Two requests -/

/-- A megabyte of unsafe memory is supplied, and `len` bytes are asked for. -/
def request (len : ℕ) : List (Event Unit) := [.heap (.expandHeap 4096 (2 ^ 20)), .malloc () len]

/-- A request for 100 bytes gets slot 0 of a slab. -/
theorem owned_and_freedExactly_hundred :
    ∃ s, run step init (request 100) = some s ∧
      Owned s ⟨4496, 100, .slot 4192 0⟩ ∧ FreedExactly s ⟨4496, 100, .slot 4192 0⟩ := by
  obtain ⟨s, hs, ho⟩ : ∃ s, run step init (request 100) = some s ∧
      s.objects = [⟨4496, 100, .slot 4192 0⟩] := ⟨_, rfl, rfl⟩
  refine ⟨s, hs, (owned_and_freedExactly_iff hs (by rw [ho]; exact List.mem_singleton_self _)).2 ?_⟩
  refine ⟨by decide, fun base k _ => .inl (by decide)⟩

/-- A request for 5000 bytes is served by the `Allocator`, and the block is not returned. -/
theorem not_freedExactly_five_thousand :
    ∃ s, run step init (request 5000) = some s ∧ ⟨4192, 5000, .block⟩ ∈ s.objects ∧
      ¬ (Owned s ⟨4192, 5000, .block⟩ ∧ FreedExactly s ⟨4192, 5000, .block⟩) := by
  obtain ⟨s, hs, ho⟩ : ∃ s, run step init (request 5000) = some s ∧
      s.objects = [⟨4192, 5000, .block⟩] := ⟨_, rfl, rfl⟩
  have hmem : ⟨4192, 5000, .block⟩ ∈ s.objects := by rw [ho]; exact List.mem_singleton_self _
  exact ⟨s, hs, hmem, fun hboth => not_freedExactly_block (inv_run hs) hmem hboth.2⟩

end Slub

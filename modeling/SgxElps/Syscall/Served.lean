/-
**Requests whose blocks come from the slab allocator.**

The blocks of a request are objects of `unsafe_slub_malloc`, and the request itself is a block that
`Singleton::getRequest` has taken from the unsafe `Allocator`.  So what the copies need, that they do not
overlap, depends on whether each object owns its bytes; and the calls of `unsafe_slub_free` that
`~SyscallRequest` makes are operations on the slabs, which return the objects of at most 4096 bytes only.

Main definitions: `Prepared.Served`, `Prepared.Released`.
Main results: `Prepared.gathered_iff`, `Prepared.released_iff`.
-/

import SgxElps.Slub.Ownership
import SgxElps.Syscall.Release

namespace Syscall

open Bytes
open Span
open List
open Slub (Object Owned maxSlabLen)
open Submission (requestMem)

namespace Prepared

variable {Cpu : Type}

section Defs

variable [DecidableEq Cpu] (c : Prepared) (s : Slub.State Cpu)

/-- The blocks of a new request are the objects `os`, all in use in a state that was reached.  The memory of
the unsafe `Allocator` is not in the enclave. -/
structure Served (os : List Object) : Prop where
  reached : ∃ es, Transition.run Slub.step Slub.init es = some s
  objects : os ⊆ s.objects
  nodup : os.Nodup
  blocks_eq : c.fill.blocks = os.map fun o => ⟨o.ptr, o.len⟩
  request_le : Alloc.maSize ≤ c.req
  request_mem : (c.req - Alloc.maSize, requestSize) ∈ s.heap.live
  request_foreign : s.Foreign (.free c.req)
  regions_unsafe : ∀ r ∈ s.heap.regions, Disjoint r.bytes c.enclave
  regions_le : ∀ r ∈ s.heap.regions, r.start + r.len ≤ 2 ^ 64
  arg_lt : ∀ i, c.arg i < 2 ^ 64
  data_eq : ∀ i < 6, dataAt c.mem c.req i = 0

/-- Every block is freed exactly once and not used afterwards, and each call of `unsafe_slub_free` returns
the object to where it came from. -/
structure Released (m : Mem) : Prop extends c.Balanced m where
  freed : Slub.FreedAll s (frees (destructor m c.req))

end Defs

/-! ### The copies -/

section Served

variable [DecidableEq Cpu] {c : Prepared} {s : Slub.State Cpu} {os : List Object} {o : Object}
  (hs : c.Served s os)

include hs

theorem Served.inv : Slub.Inv s := by
  obtain ⟨es, hrun⟩ := hs.reached
  exact Slub.inv_run hrun

theorem Served.mem_regions {b : ℕ × ℕ} (hb : b ∈ s.heap.live) {x : ℕ}
    (hx : x ∈ (Slub.payload b).bytes) : x ∈ covered s.heap.regions :=
  hs.inv.heap.2.inside (Alloc.liveBlock b) (mem_append_right _ (mem_map_of_mem hb))
    (Slub.payload_subset b hx)

theorem Served.notMem_enclave {x : ℕ} (hx : x ∈ covered s.heap.regions) : x ∉ c.enclave := by
  obtain ⟨r, hr, hxr⟩ := hx
  exact Set.disjoint_left.1 (hs.regions_unsafe r hr) hxr

theorem Served.ptr_placed (ho : o ∈ os) : o.ptr ∉ c.enclave ∧ o.ptr ≠ 0 ∧ o.ptr < 2 ^ 64 := by
  obtain ⟨b, hb, -, hptr⟩ := hs.inv.exists_home (hs.objects ho)
  have hin := hs.mem_regions hb hptr
  refine ⟨hs.notMem_enclave hin, ?_, ?_⟩
  · have hle : b.1 + Alloc.maSize ≤ o.ptr := hptr.1
    rw [Alloc.maSize] at hle
    omega
  · obtain ⟨r, hr, hxr⟩ := hin
    have hle := hs.regions_le r hr
    have hlt : o.ptr < r.start + r.len := hxr.2
    omega

/-- The request is in a block of its own. -/
theorem Served.notMem_request {x : ℕ} (ho : o ∈ os) (hown : Owned s o) (hx : x ∈ o.bytes) :
    x ∉ c.request := by
  obtain ⟨hno, hother⟩ := hs.request_foreign
  obtain ⟨b, hb, hsub, -⟩ := hown
  have hptr : o.ptr ∈ o.bytes := ⟨le_refl _, lt_of_le_of_lt hx.1 hx.2⟩
  have hhome := hs.inv.home_of_mem (hs.objects ho) hb (hsub hptr)
  have hne : b ≠ (c.req - Alloc.maSize, requestSize) := by
    intro heq
    cases hhome with
    | slot hsl hk hlen => exact hs.inv.block_ne_of_none hsl hs.request_le hno heq
    | @block ptr len hle hno' =>
      have hfst : ptr - Alloc.maSize = c.req - Alloc.maSize := congrArg Prod.fst heq
      have hle' := hs.request_le
      exact hother _ (hs.objects ho) (show ptr = c.req by omega)
  have hnot := hs.inv.disjoint_of_block hb hs.request_mem hne (hsub hx)
  rw [Slub.payload, Nat.sub_add_cancel hs.request_le] at hnot
  exact hnot

theorem Served.fresh (hown : ∀ o ∈ os, Owned s o) :
    Fresh (c.enclave ∪ c.request) c.fill.blocks := by
  rw [hs.blocks_eq]
  refine ⟨?_, fun b hb x hx => ?_, fun b hb => ?_⟩
  · refine pairwise_map.2 (hs.nodup.imp_of_mem fun {o o'} ho ho' hne => ?_)
    exact Slub.disjoint_of_owned hs.inv (hs.objects ho') (Ne.symm hne) (hown o ho) (hown o' ho')
  · obtain ⟨o, ho, rfl⟩ := mem_map.1 hb
    obtain ⟨d, hd, hsub, -⟩ := hown o ho
    rintro (hin | hin)
    · exact hs.notMem_enclave (hs.mem_regions hd (hsub hx)) hin
    · exact hs.notMem_request ho (hown o ho) hx hin
  · obtain ⟨o, ho, rfl⟩ := mem_map.1 hb
    exact (hs.ptr_placed ho).2.2

theorem Served.placed : ∀ b ∈ c.fill.blocks, b.start ∉ c.enclave ∧ b.start ≠ 0 := by
  rw [hs.blocks_eq]
  intro b hb
  obtain ⟨o, ho, rfl⟩ := mem_map.1 hb
  exact ⟨(hs.ptr_placed ho).1, (hs.ptr_placed ho).2.1⟩

/-- If the objects own their bytes, the call has what the results about copies ask for. -/
def Served.submission (hown : ∀ o ∈ os, Owned s o) : Submission where
  toPrepared := c
  fresh := hs.fresh hown
  arg_lt := hs.arg_lt
  data_eq := hs.data_eq
  placed := hs.placed

theorem Served.starts_eq : c.fill.blocks.map start = os.map Object.ptr := by
  rw [hs.blocks_eq, map_map]
  rfl

theorem Served.starts_nodup : (c.fill.blocks.map start).Nodup := by
  rw [hs.starts_eq]
  exact hs.nodup.map_on fun o ho o' ho' heq => hs.inv.ptr_inj (hs.objects ho') (hs.objects ho) heq

end Served

/-! ### Concrete requests -/

/-- A megabyte of unsafe memory is supplied, and the first block of it is a request. -/
def supplied : List (Slub.Event Unit) :=
  [.heap (.expandHeap 0x8e000 (2 ^ 20)), .heap (.malloc requestSize)]

/-- The request is in use, and no other memory was supplied. -/
def Supplied (s : Slub.State Unit) : Prop :=
  (0x8e000, requestSize) ∈ s.heap.live ∧ s.Foreign (.free 0x8e060) ∧
    s.heap.regions = [⟨0x8e000, 2 ^ 20⟩]

instance : DecidablePred Supplied := fun _ => inferInstanceAs (Decidable (_ ∧ _))

theorem supplied_below_enclave : ∀ x ∈ bytes ⟨0x8e060, requestSize⟩, x ∉ bytes ⟨2 ^ 32, enclaveLen⟩ := by
  intro x hx
  rw [mem_bytes, requestSize] at hx
  rw [mem_bytes]
  omega

theorem types_of_lt {types : List ArgType} {f : ℕ → ℕ}
    (h : ∀ i < types.length, ∀ t, types[i]? = some t → f i = t.code) (i : ℕ) (t : ArgType)
    (ht : types[i]? = some t) : f i = t.code :=
  h i (List.getElem?_eq_some_iff.1 ht).1 t ht

/-- The call with that request, if it gets blocks at the addresses `ptrs`.  The enclave is at `2 ^ 32`. -/
def ofPtrs (n : ℕ) (types : List ArgType) (args : List ℕ) (mem : Mem) (ptrs : List ℕ)
    (supported : interpretSyscall n = some types) (syscallNum_eq : syscallNum mem 0x8e060 = n)
    (types_eq : ∀ i < types.length, ∀ t, types[i]? = some t → typesAt mem 0x8e060 i = t.code)
    (arg_eq : ∀ i < types.length, argAt mem 0x8e060 i = args.getD i 0) : Prepared where
  n := n
  types := types
  mem := mem
  arg i := args.getD i 0
  base := 2 ^ 32
  req := 0x8e060
  alloc blocks _ := ptrs.getD blocks.length 0
  supported := supported
  syscallNum_eq := syscallNum_eq
  types_eq := types_of_lt types_eq
  arg_eq := arg_eq
  request_unsafe := supplied_below_enclave

theorem types_writev : interpretSyscall sysWritev = some [.nonPtr, .iovecPtr, .nonPtr] := rfl

theorem types_write : interpretSyscall sysWrite = some [.nonPtr, .charPtr, .nonPtr] := rfl

/-- The memory of `writev` with `len₀` times `a` and `len₁` times `b`. -/
def lettersMem (len₀ len₁ : ℕ) : Mem :=
  let m := requestMem 0x8e060 sysWritev [.nonPtr, .iovecPtr, .nonPtr] [1, 2 ^ 32, 2]
  let m := write (write m (2 ^ 32) 8 (2 ^ 32 + 0x1000)) (2 ^ 32 + 8) 8 len₀
  let m := write (write m (2 ^ 32 + 16) 8 (2 ^ 32 + 0x3000)) (2 ^ 32 + 24) 8 len₁
  Bytes.fill (Bytes.fill m (2 ^ 32 + 0x1000) 0x61 len₀) (2 ^ 32 + 0x3000) 0x62 len₁

theorem served_of_run {c : Prepared} {s : Slub.State Unit} {os : List Object} {es : List (Slub.Event Unit)}
    (hrun : Transition.run Slub.step Slub.init es = some s) (hreq : c.req = 0x8e060)
    (hbase : c.base = 2 ^ 32) (h : Supplied s) (hobjects : ∀ o ∈ os, o ∈ s.objects) (hnodup : os.Nodup)
    (hblocks : c.fill.blocks = os.map fun o => ⟨o.ptr, o.len⟩) (harg : ∀ i, c.arg i < 2 ^ 64)
    (hdata : ∀ i < 6, dataAt c.mem 0x8e060 i = 0) : c.Served s os where
  reached := ⟨es, hrun⟩
  objects := hobjects
  nodup := hnodup
  blocks_eq := hblocks
  request_le := by rw [hreq]; decide
  request_mem := by rw [hreq]; exact h.1
  request_foreign := by rw [hreq]; exact h.2.1
  regions_unsafe := by
    rw [h.2.2, forall_mem_singleton]
    refine disjoint_bytes ?_
    rw [hbase]
    decide
  regions_le := by rw [h.2.2, forall_mem_singleton]; decide
  arg_lt := harg
  data_eq := by rw [hreq]; exact hdata

theorem small_of_letters {c : Prepared} (hn : c.n = sysWritev) (hbase : c.base = 2 ^ 32)
    (hgiven : c.given = (2 ^ 32, 2)) (hsegment : ∀ j < 2, 2 ^ 32 ≤ baseAt c.mem (2 ^ 32) j ∧
      baseAt c.mem (2 ^ 32) j ≤ 2 ^ 32 + 0x3000 ∧ lenAt c.mem (2 ^ 32) j ≤ 5000) : c.Small := by
  have hnot : c.n ≠ sysSendmsg := by rw [hn]; decide
  have hin : ∀ a len, 2 ^ 32 ≤ a → a ≤ 2 ^ 32 + 0x3000 → len ≤ 5000 → bytes ⟨a, len⟩ ⊆ c.enclave := by
    intro a len h1 h2 h3 x hx
    rw [enclave, hbase, enclaveLen]
    exact mem_bytes_of_le hx (by omega) (by omega)
  have harg : c.arg 1 = 2 ^ 32 := (congrArg Prod.fst (given_writev hn)).symm.trans (congrArg Prod.fst hgiven)
  refine ⟨fun _ _ => by rw [harg]; decide, fun h => absurd h hnot, ?_, ?_, ?_, fun h => absurd h hnot,
    fun h => absurd h hnot, fun h => absurd h hnot, fun h => absurd h hnot⟩
  · rw [hgiven]
    exact hin _ _ (le_refl _) (by decide) (by decide)
  · rw [hgiven]
    exact fun j hj => hin _ _ (hsegment j hj).1 (hsegment j hj).2.1 (hsegment j hj).2.2
  · rw [hgiven]
    exact fun j hj => lt_of_le_of_lt (hsegment j hj).2.2 (by decide)

/-! ### What the host gathers -/

/-- **What the host gathers.**  For `writev` and `sendmsg` the host finds what the caller passed, in blocks
that belong to the request alone, if and only if no block is in the last slot of a slab and longer than
`3500 + (base + 76) % 8200`. -/
theorem gathered_iff [DecidableEq Cpu] (c : Prepared) {s : Slub.State Cpu} {os : List Object}
    (hs : c.Served s os) (hn : c.n = sysWritev ∨ c.n = sysSendmsg) (h : c.Small) :
    (c.Gathered ∧ ∀ o ∈ os, Owned s o) ↔
      ∀ o ∈ os, ∀ base k, o.place = .slot base k → Slub.Fits o.len base k := by
  have hiff : (∀ o ∈ os, Owned s o) ↔
      ∀ o ∈ os, ∀ base k, o.place = .slot base k → Slub.Fits o.len base k :=
    forall₂_congr fun o ho => Slub.owned_iff hs.inv (hs.objects ho)
  rw [← hiff]
  exact ⟨And.right, fun hown => ⟨gathered (hs.submission hown) hn h, hown⟩⟩

/-- `writev` of 5000 times `a` and 4096 times `b`. -/
def letters : Prepared :=
  ofPtrs sysWritev [.nonPtr, .iovecPtr, .nonPtr] [1, 2 ^ 32, 2] (lettersMem 5000 4096)
    [582128, 590328, 598608] types_writev (by decide +kernel) (by decide +kernel) (by decide +kernel)

theorem gathered_iff_letters : ∃ (s : Slub.State Unit) (os : List Object),
    letters.Served s os ∧ letters.Small ∧ letters.Gathered ∧ ∀ o ∈ os, Owned s o := by
  obtain ⟨s, hrun, h, hobjects⟩ : ∃ s ∈ Transition.run Slub.step Slub.init
      (supplied ++ [.malloc () 32, .malloc () 5000, .malloc () 4096]),
      Supplied s ∧ s.objects = [⟨598608, 4096, .slot 595424 0⟩,
          ⟨590328, 5000, .block⟩, ⟨582128, 32, .slot 582040 0⟩] := by decide +kernel
  have hs : letters.Served s s.objects.reverse := by
    refine served_of_run hrun rfl rfl h (fun o ho => mem_reverse.1 ho) ?_ ?_
      (Submission.getD_lt (by decide)) (by decide +kernel)
    · rw [hobjects]; decide
    · rw [hobjects]; decide +kernel
  have hsmall : letters.Small := small_of_letters rfl rfl (by decide +kernel) (by decide +kernel)
  refine ⟨s, _, hs, hsmall, (gathered_iff letters hs (.inl rfl) hsmall).2 ?_⟩
  rw [hobjects]
  simp [Slub.Fits]

/-- The same call while 63 objects of 4096 bytes are in use. -/
def hanging : Prepared :=
  ofPtrs sysWritev [.nonPtr, .iovecPtr, .nonPtr] [1, 2 ^ 32, 2] (lettersMem 5000 4096)
    [582200, 1118808, 1115208] types_writev (by decide +kernel) (by decide +kernel) (by decide +kernel)

/-- The copy of the second segment hangs over the end of the slab, and the first byte that the host finds
in the first segment is a `b`. -/
theorem hanging_not_gathered : ∃ (s : Slub.State Unit) (os : List Object),
    Transition.run Slub.step Slub.init (supplied ++ .malloc () 32 :: replicate 63 (.malloc () 4096) ++
      [.malloc () 32, .malloc () 5000, .malloc () 4096]) = some s ∧
    hanging.Served s os ∧ hanging.Small ∧
    (gather hanging.mem hanging.given.1 hanging.given.2).head? = some 0x61 ∧
    (gather hanging.fill.mem hanging.seen.1 hanging.seen.2).head? = some 0x62 ∧ ¬ hanging.Gathered := by
  obtain ⟨s, hrun, h, hobjects⟩ : ∃ s ∈ Transition.run Slub.step Slub.init
      (supplied ++ .malloc () 32 :: replicate 63 (.malloc () 4096) ++
        [.malloc () 32, .malloc () 5000, .malloc () 4096]),
      Supplied s ∧ ∀ o ∈ [⟨582200, 32, .slot 582040 1⟩,
          ⟨1118808, 5000, .block⟩, ⟨1115208, 4096, .slot 590328 63⟩], o ∈ s.objects := by decide +kernel
  have hs : hanging.Served s [⟨582200, 32, .slot 582040 1⟩, ⟨1118808, 5000, .block⟩,
      ⟨1115208, 4096, .slot 590328 63⟩] :=
    served_of_run hrun rfl rfl h hobjects (by decide) (by decide +kernel)
      (Submission.getD_lt (by decide)) (by decide +kernel)
  have hsmall : hanging.Small := small_of_letters rfl rfl (by decide +kernel) (by decide +kernel)
  have hgiven : (gather hanging.mem hanging.given.1 hanging.given.2).head? = some 0x61 := by decide +kernel
  have hseen : (gather hanging.fill.mem hanging.seen.1 hanging.seen.2).head? = some 0x62 := by
    decide +kernel
  refine ⟨s, _, hrun, hs, hsmall, hgiven, hseen, fun hall => ?_⟩
  rw [hall.gather_eq, hgiven] at hseen
  exact absurd hseen (by decide)

/-! ### The end of a request -/

/-- **The end of a request**: `~SyscallRequest` releases what `fillArgs` has taken if and only if no block is
longer than 4096 bytes. -/
theorem released_iff [DecidableEq Cpu] (c : Prepared) {s : Slub.State Cpu} {os : List Object}
    (hs : c.Served s os) (hfit : ∀ o ∈ os, ∀ base k, o.place = .slot base k → Slub.Fits o.len base k)
    (hw : c.Walkable) {m : Mem} (hu : c.Unaltered m) :
    c.Released s m ↔ ∀ b ∈ c.fill.blocks, b.len ≤ maxSlabLen := by
  have hown : ∀ o ∈ os, Owned s o := fun o ho => (Slub.owned_iff hs.inv (hs.objects ho)).2 (hfit o ho)
  have hbal : c.Balanced m := balanced (hs.submission hown) m hw hu hs.starts_nodup
  have hperm := hbal.perm
  rw [hs.starts_eq] at hperm
  have hfreed := Slub.freedAll_iff hs.inv hs.objects hs.nodup hperm
  rw [hs.blocks_eq, forall_mem_map, ← hfreed]
  exact ⟨fun h => h.freed, fun hf => { hbal with freed := hf }⟩

/-- `writev` of three times `a` and nothing. -/
def shortLetters : Prepared :=
  ofPtrs sysWritev [.nonPtr, .iovecPtr, .nonPtr] [1, 2 ^ 32, 2] (lettersMem 3 0)
    [582128, 590432, 590456] types_writev (by decide +kernel) (by decide +kernel) (by decide +kernel)

theorem released_iff_shortLetters : ∃ (s : Slub.State Unit) (os : List Object),
    shortLetters.Served s os ∧ shortLetters.Walkable ∧
    shortLetters.Unaltered shortLetters.fill.mem ∧ shortLetters.Released s shortLetters.fill.mem := by
  obtain ⟨s, hrun, h, hobjects⟩ : ∃ s ∈ Transition.run Slub.step Slub.init
      (supplied ++ [.malloc () 32, .malloc () 3, .malloc () 0]),
      Supplied s ∧ s.objects = [⟨590456, 0, .slot 590328 1⟩,
          ⟨590432, 3, .slot 590328 0⟩, ⟨582128, 32, .slot 582040 0⟩] := by decide +kernel
  have hs : shortLetters.Served s s.objects.reverse := by
    refine served_of_run hrun rfl rfl h (fun o ho => mem_reverse.1 ho) ?_ ?_
      (Submission.getD_lt (by decide)) (by decide +kernel)
    · rw [hobjects]; decide
    · rw [hobjects]; decide +kernel
  have hw : shortLetters.Walkable :=
    (small_of_letters rfl rfl (by decide +kernel) (by decide +kernel)).walkable (.inl rfl)
  have hu : shortLetters.Unaltered shortLetters.fill.mem :=
    ⟨fun _ _ _ => rfl, fun _ _ _ => rfl, fun _ _ _ => rfl, fun _ _ _ => rfl⟩
  refine ⟨s, _, hs, hw, hu, (released_iff shortLetters hs ?_ hw hu).2 ?_⟩
  · rw [hobjects]
    simp [Slub.Fits]
  · rw [hs.blocks_eq, hobjects]
    decide

/-- `write(1, 2 ^ 32, 5000)`. -/
def longWrite : Prepared :=
  ofPtrs sysWrite [.nonPtr, .charPtr, .nonPtr] [1, 2 ^ 32, 5000]
    (requestMem 0x8e060 sysWrite [.nonPtr, .charPtr, .nonPtr] [1, 2 ^ 32, 5000]) [582040] types_write
    (by decide +kernel) (by decide +kernel) (by decide +kernel)

/-- The copy is a block of the `Allocator`, and `unsafe_slub_free` takes its canary for a slab. -/
theorem longWrite_not_released : ∃ (s : Slub.State Unit) (os : List Object),
    Transition.run Slub.step Slub.init (supplied ++ [.malloc () 5000]) = some s ∧
    longWrite.Served s os ∧ longWrite.Walkable ∧
    frees (destructor longWrite.fill.mem longWrite.req) = [582040] ∧
    s.word (582040 - Slub.headerSize) = 0xbeefbeef ∧ Slub.unsafeSlubFree s 582040 = none ∧
    ¬ longWrite.Released s longWrite.fill.mem := by
  obtain ⟨s, hrun, h, hobjects, hword, hnone⟩ :
      ∃ s ∈ Transition.run Slub.step Slub.init (supplied ++ [.malloc () 5000]),
      Supplied s ∧ s.objects = [⟨582040, 5000, .block⟩] ∧
        s.word (582040 - Slub.headerSize) = 0xbeefbeef ∧ (Slub.unsafeSlubFree s 582040).isNone := by
    decide +kernel
  have hs : longWrite.Served s s.objects := by
    refine served_of_run hrun rfl rfl h (fun o ho => ho) ?_ ?_
      (Submission.getD_lt (by decide)) (by decide +kernel)
    · rw [hobjects]; decide
    · rw [hobjects]; decide +kernel
  have hw : longWrite.Walkable := by
    refine ⟨⟨fun h => absurd h (by decide), fun h => absurd h (by decide), fun h => absurd h (by decide)⟩,
      fun h => absurd h (by decide)⟩
  have hfrees : frees (destructor longWrite.fill.mem longWrite.req) = [582040] := by decide +kernel
  refine ⟨s, _, hrun, hs, hw, hfrees, hword, Option.isNone_iff_eq_none.1 hnone, fun hall => ?_⟩
  have hfreed := hall.freed
  rw [hfrees, Slub.freedAll_iff hs.inv hs.objects hs.nodup (by rw [hobjects]; rfl), hobjects] at hfreed
  exact absurd hfreed (by decide)

end Prepared

end Syscall

/-
**The way of the arguments to unsafe memory.**

`fillArgs` replaces each pointer among the arguments of a request by the address of a copy in unsafe
memory.  The length of a copy follows from the other arguments or from the type (`getSize`); the
`iovec` array of `writev` and the `msghdr` of `sendmsg` and `recvmsg` are followed further (`deepCopy`).
Nothing here looks at the direction of an argument: what the call only writes is copied as well.

The host does nothing before the request is pushed, so the fields of the request that `fillArgs` reads
are those `__async_syscall` has stored there; they are parameters here.

Main definitions: `fillArgs`, `Copied`, `HeaderCopied`.
-/

import SgxElps.Syscall.Basic

namespace Syscall

open Bytes
open Span
open List

/-! ### The copies -/

def sysSendmsg : ℕ := 46

/-- `unsafe_slub_malloc`: where the next block is, given the blocks handed out before. -/
abbrev Alloc := List Span → ℕ → ℕ

/-- The memory and the blocks handed out, in their order. -/
structure Fill where
  mem : Mem
  blocks : List Span

/-- The next block. -/
def Fill.block (alloc : Alloc) (s : Fill) (size : ℕ) : Span := ⟨alloc s.blocks size, size⟩

/-- `memberCopy`: the member at offset `tar` of the object `des` gets a copy of what the one of `src`
points to; its length is the member at offset `len`, a number of `width` bytes, times `fac`. -/
def memberCopy (alloc : Alloc) (s : Fill) (src des tar len width fac : ℕ) : Fill :=
  let b := s.block alloc (intToSize (read s.mem (src + len) width * fac))
  let m := write s.mem (des + tar) 8 b.start
  ⟨copy m b.start (read m (src + tar) 8) b.len, s.blocks ++ [b]⟩

/-- The loop over the elements of an `iovec` array. -/
def copySegments (alloc : Alloc) (s : Fill) (src des : ℕ) : ℕ → Fill
  | 0 => s
  | k + 1 => copySegments alloc (memberCopy alloc s src des 0 8 8 1) (src + 16) (des + 16) k

/-- The name, the `iovec` array and the control data of a `msghdr`. -/
def copyHeader (alloc : Alloc) (s : Fill) (src des : ℕ) : Fill :=
  let s := memberCopy alloc s src des 0 8 4 1
  let s := memberCopy alloc s src des 16 24 8 16
  memberCopy alloc s src des 32 40 8 1

/-- `deepCopy`; `count` is the argument after the one copied, a `long`. -/
def deepCopy (alloc : Alloc) (s : Fill) (n src des count : ℕ) : Fill :=
  if n = sysWritev then
    copySegments alloc s src des (if count < 2 ^ 63 then count else 0)
  else if n = sysRecvmsg ∨ n = sysSendmsg then
    let s := copyHeader alloc s src des
    copySegments alloc s (read s.mem (src + 16) 8) (read s.mem (des + 16) 8)
      (read s.mem (src + 24) 8)
  else s

/-- One round of `fillArgs`. -/
def fillArg (alloc : Alloc) (req n : ℕ) (types : List ArgType) (arg : ℕ → ℕ) (s : Fill) (i : ℕ) :
    Fill :=
  if types[i]?.getD .nonPtr = .nonPtr then s
  else
    let size := getSize n types arg s.mem i
    let b := s.block alloc size
    let m := write (write s.mem (req + 92 + 4 * i) 4 size) (req + 128 + 16 * i) 8 b.start
    let m := if arg i = 0 then m else copy m b.start (arg i) size
    let s := deepCopy alloc ⟨m, s.blocks ++ [b]⟩ n (arg i) b.start (arg (i + 1))
    ⟨write s.mem (req + 120 + 16 * i) 8 b.start, s.blocks⟩

/-- The loop of `fillArgs` over the first `k` arguments. -/
def fillUpTo (alloc : Alloc) (m : Mem) (req n : ℕ) (types : List ArgType) (arg : ℕ → ℕ) : ℕ → Fill
  | 0 => ⟨m, []⟩
  | k + 1 => fillArg alloc req n types arg (fillUpTo alloc m req n types arg k) k

/-- `SyscallRequest::fillArgs`. -/
def fillArgs (alloc : Alloc) (m : Mem) (req n : ℕ) (types : List ArgType) (arg : ℕ → ℕ) : Fill :=
  fillUpTo alloc m req n types arg types.length

/-! ### What the copies change -/

variable {alloc : Alloc} {s : Fill} {m : Mem}

theorem blocks_le_memberCopy (s : Fill) (src des tar len width fac : ℕ) :
    s.blocks <+: (memberCopy alloc s src des tar len width fac).blocks :=
  prefix_append ..

theorem blocks_le_copySegments (s : Fill) (src des k : ℕ) :
    s.blocks <+: (copySegments alloc s src des k).blocks := by
  induction k generalizing s src des with
  | zero => exact prefix_rfl
  | succ k ih => exact (blocks_le_memberCopy ..).trans (ih ..)

theorem blocks_le_copyHeader (s : Fill) (src des : ℕ) :
    s.blocks <+: (copyHeader alloc s src des).blocks :=
  (blocks_le_memberCopy ..).trans
    ((blocks_le_memberCopy ..).trans (blocks_le_memberCopy ..))

theorem blocks_le_deepCopy (s : Fill) (n src des count : ℕ) :
    s.blocks <+: (deepCopy alloc s n src des count).blocks := by
  unfold deepCopy
  split
  · exact blocks_le_copySegments ..
  · split
    · exact (blocks_le_copyHeader ..).trans (blocks_le_copySegments ..)
    · exact prefix_rfl

theorem blocks_le_fillArg (req n : ℕ) (types : List ArgType) (arg : ℕ → ℕ) (s : Fill) (i : ℕ) :
    s.blocks <+: (fillArg alloc req n types arg s i).blocks := by
  unfold fillArg
  split
  · exact prefix_rfl
  · dsimp only
    refine List.IsPrefix.trans ?_ (blocks_le_deepCopy ..)
    exact prefix_append ..

theorem blocks_le_fillUpTo {req n : ℕ} {types : List ArgType} {arg : ℕ → ℕ} {k j : ℕ}
    (h : k ≤ j) : (fillUpTo alloc m req n types arg k).blocks <+:
      (fillUpTo alloc m req n types arg j).blocks := by
  induction j, h using Nat.le_induction with
  | base => exact prefix_rfl
  | succ j _ ih => exact ih.trans (blocks_le_fillArg ..)

theorem getElem?_of_le {l l' : List Span} {b : Span} {j : ℕ} (h : l <+: l') (hj : l[j]? = some b) :
    l'[j]? = some b := by
  obtain ⟨t, rfl⟩ := h
  obtain ⟨hlt, -⟩ := List.getElem?_eq_some_iff.1 hj
  rw [getElem?_append_left hlt, hj]

/-- The spans of a list are among those of a longer one. -/
theorem covered_mono {l l' : List Span} (h : l <+: l') : covered l ⊆ covered l' := by
  rintro x ⟨b, hb, hx⟩
  exact ⟨b, h.subset hb, hx⟩

/-! ### Fresh blocks -/

/-- The blocks do not overlap each other or what is in `E`. -/
structure Fresh (E : Set ℕ) (l : List Span) : Prop where
  separated : Span.Separated l
  apart : ∀ b ∈ l, ∀ x ∈ b.bytes, x ∉ E
  start_lt : ∀ b ∈ l, b.start < 2 ^ 64

variable {E : Set ℕ} {l l' : List Span} {b : Span}

theorem Fresh.mono (h : Fresh E l) (hl : l' <+: l) : Fresh E l' :=
  ⟨h.separated.sublist hl.sublist, fun b hb => h.apart b (hl.subset hb),
    fun b hb => h.start_lt b (hl.subset hb)⟩

theorem Fresh.notMem_covered (h : Fresh E l) {x : ℕ} (hx : x ∈ E) : x ∉ covered l := by
  rintro ⟨b, hb, hxb⟩
  exact h.apart b hb x hxb hx

/-- The last block does not overlap the ones before. -/
theorem Fresh.notMem_last (h : Fresh E (l ++ [b])) {x : ℕ} (hx : x ∈ covered l) : x ∉ b.bytes := by
  obtain ⟨d, hd, hxd⟩ := hx
  intro hxb
  have hdisj := (pairwise_append.1 h.separated).2.2 d hd b (mem_singleton_self _)
  exact Set.disjoint_left.1 hdisj hxd hxb

theorem Fresh.disjoint_of_ne (h : Fresh E l) {i j : ℕ} {d : Span} (hi : l[i]? = some b)
    (hj : l[j]? = some d) (hij : i ≠ j) : Disjoint b.bytes d.bytes := by
  obtain ⟨hilt, rfl⟩ := List.getElem?_eq_some_iff.1 hi
  obtain ⟨hjlt, rfl⟩ := List.getElem?_eq_some_iff.1 hj
  have hsep := pairwise_iff_getElem.1 h.separated
  rcases Nat.lt_or_gt_of_ne hij with hlt | hlt
  · exact hsep i j hilt hjlt hlt
  · exact (hsep j i hjlt hilt hlt).symm

/-- What one `memberCopy` does: the pointer at `patch` becomes that of the new block `b`, which holds what
was at `p`. -/
structure Copied (E : Set ℕ) (s s' : Fill) (patch : ℕ) (b : Span) (p : ℕ) : Prop where
  blocks : s'.blocks = s.blocks ++ [b]
  kept : ∀ x ∈ E, s'.mem x = s.mem x
  old : ∀ x ∈ covered s.blocks, x ∉ bytes ⟨patch, 8⟩ → s'.mem x = s.mem x
  pointer : read s'.mem patch 8 = b.start
  content : ∀ o < b.len, p + o ∈ E → s'.mem (b.start + o) = s.mem (p + o)

theorem copied_memberCopy {src des tar len width fac : ℕ}
    (hfresh : Fresh E (memberCopy alloc s src des tar len width fac).blocks)
    (hdes : bytes ⟨des + tar, 8⟩ ⊆ covered s.blocks)
    (hsrc : bytes ⟨src + tar, 8⟩ ⊆ E) :
    Copied E s (memberCopy alloc s src des tar len width fac) (des + tar)
      (s.block alloc (intToSize (read s.mem (src + len) width * fac)))
      (read s.mem (src + tar) 8) := by
  unfold memberCopy at hfresh ⊢
  dsimp only at hfresh ⊢
  generalize s.block alloc _ = b at hfresh ⊢
  have hold : Fresh E s.blocks := hfresh.mono (prefix_append ..)
  -- the patch is in an old block, so neither in the new one nor in `E`
  have hpatch : ∀ x ∈ bytes ⟨des + tar, 8⟩, x ∉ b.bytes ∧ x ∉ E := fun x hx =>
    ⟨hfresh.notMem_last (hdes hx), fun hE => hold.notMem_covered hE (hdes hx)⟩
  have hwrite : ∀ x ∈ E, write s.mem (des + tar) 8 b.start x = s.mem x := by
    intro x hx
    refine write_of_notMem ?_
    by_contra hin
    exact (hpatch x (mem_bytes.2 (by omega))).2 hx
  have hp : read (write s.mem (des + tar) 8 b.start) (src + tar) 8 = read s.mem (src + tar) 8 :=
    read_congr fun x h1 h2 => hwrite x (hsrc ⟨h1, h2⟩)
  have hcopy : ∀ x, x ∉ b.bytes →
      copy (write s.mem (des + tar) 8 b.start) b.start (read s.mem (src + tar) 8) b.len x
        = write s.mem (des + tar) 8 b.start x := by
    intro x hx
    refine copy_of_notMem ?_
    by_contra hin
    exact hx (show x ∈ bytes ⟨b.start, b.len⟩ from mem_bytes.2 (by omega))
  rw [hp]
  refine ⟨rfl, ?_, ?_, ?_, ?_⟩
  · intro x hx
    exact (hcopy x fun hb => hfresh.apart b (by simp) x hb hx).trans (hwrite x hx)
  · intro x hx hnot
    refine (hcopy x (hfresh.notMem_last hx)).trans (write_of_notMem ?_)
    by_contra hin
    exact hnot (mem_bytes.2 (by omega))
  · have hlt := hfresh.start_lt b (by simp)
    rw [read_congr fun x h1 h2 => hcopy x (hpatch x ⟨h1, h2⟩).1, read_write_self,
      Nat.mod_eq_of_lt (by omega)]
  · intro o ho hE
    exact (copy_add ho).trans (hwrite _ hE)

/-- Block number `j` is a copy of `sp`. -/
def HoldsCopy (E : Set ℕ) (s s' : Fill) (j : ℕ) (sp : Span) : Prop :=
  ∃ b, s'.blocks[j]? = some b ∧ b.len = sp.len ∧
    ∀ o < sp.len, sp.start + o ∈ E → s'.mem (b.start + o) = s.mem (sp.start + o)

theorem HoldsCopy.of_kept {s₁ s' : Fill} {j : ℕ} {sp : Span} (h : HoldsCopy E s₁ s' j sp)
    (hkept : ∀ x ∈ E, s₁.mem x = s.mem x) : HoldsCopy E s s' j sp := by
  obtain ⟨b, hb, hlen, hcontent⟩ := h
  exact ⟨b, hb, hlen, fun o ho hE => (hcontent o ho hE).trans (hkept _ hE)⟩

/-- A copy stays if its block is not written. -/
theorem HoldsCopy.mono {s₁ s' : Fill} {j : ℕ} {sp : Span} (h : HoldsCopy E s s₁ j sp)
    (hpre : s₁.blocks <+: s'.blocks)
    (hold : ∀ b, s₁.blocks[j]? = some b → ∀ x ∈ b.bytes, s'.mem x = s₁.mem x) :
    HoldsCopy E s s' j sp := by
  obtain ⟨b, hb, hlen, hcontent⟩ := h
  refine ⟨b, getElem?_of_le hpre hb, hlen, fun o ho hE => ?_⟩
  rw [hold b hb _ (add_mem_bytes (hlen ▸ ho)), hcontent o ho hE]

theorem Copied.holdsCopy {s' : Fill} {patch p : ℕ} (h : Copied E s s' patch b p) :
    HoldsCopy E s s' s.blocks.length ⟨p, b.len⟩ :=
  ⟨b, by simp [h.blocks], rfl, h.content⟩

/-- What the loop over the segments does. -/
structure SegmentsCopied (E : Set ℕ) (s s' : Fill) (src des k : ℕ) : Prop where
  kept : ∀ x ∈ E, s'.mem x = s.mem x
  old : ∀ x ∈ covered s.blocks, (∀ j < k, x ∉ bytes ⟨des + 16 * j, 8⟩) →
    s'.mem x = s.mem x
  content : ∀ j < k, HoldsCopy E s s' (s.blocks.length + j)
    ⟨read s.mem (src + 16 * j) 8, intToSize (read s.mem (src + 16 * j + 8) 8)⟩
  pointer : ∀ j < k, ∃ b, s'.blocks[s.blocks.length + j]? = some b ∧
    read s'.mem (des + 16 * j) 8 = b.start

theorem segmentsCopied_copySegments {src des k : ℕ}
    (hfresh : Fresh E (copySegments alloc s src des k).blocks)
    (hdes : bytes ⟨des, 16 * k⟩ ⊆ covered s.blocks)
    (hsrc : bytes ⟨src, 16 * k⟩ ⊆ E) :
    SegmentsCopied E s (copySegments alloc s src des k) src des k := by
  induction k generalizing s src des with
  | zero => exact ⟨fun _ _ => rfl, fun _ _ _ => rfl, by simp, by simp⟩
  | succ k ih =>
    have hstep : Copied E s (memberCopy alloc s src des 0 8 8 1) (des + 0) _ _ :=
      copied_memberCopy (hfresh.mono (blocks_le_copySegments ..))
        (fun x hx => hdes (mem_bytes_of_le hx (by omega) (by omega)))
        (fun x hx => hsrc (mem_bytes_of_le hx (by omega) (by omega)))
    rw [Nat.add_zero, Nat.add_zero, Nat.mul_one] at hstep
    have hfirst : Fresh E (memberCopy alloc s src des 0 8 8 1).blocks :=
      hfresh.mono (blocks_le_copySegments ..)
    rw [hstep.blocks] at hfirst
    generalize hb : s.block alloc (intToSize (read s.mem (src + 8) 8)) = b at hstep hfirst
    have hlen : b.len = intToSize (read s.mem (src + 8) 8) := by simp only [← hb, Fill.block]
    rw [copySegments] at hfresh ⊢
    generalize memberCopy alloc s src des 0 8 8 1 = s₁ at hfresh hstep ⊢
    have hsub : covered s.blocks ⊆ covered s₁.blocks :=
      covered_mono (hstep.blocks ▸ prefix_append ..)
    have hdes' : ∀ x ∈ bytes ⟨des + 16, 16 * k⟩, x ∈ covered s.blocks := fun x hx =>
      hdes (mem_bytes_of_le hx (by omega) (by omega))
    obtain ⟨hkept, hold, hcontent, hpointer⟩ := ih hfresh (fun x hx => hsub (hdes' x hx)) fun x hx =>
      hsrc (mem_bytes_of_le hx (by omega) (by omega))
    refine ⟨fun x hx => (hkept x hx).trans (hstep.kept x hx), fun x hx hnot => ?_, fun j hj => ?_,
      fun j hj => ?_⟩
    · rw [hold x (hsub hx), hstep.old x hx]
      · simpa using hnot 0 (by omega)
      · intro j hj
        have := hnot (j + 1) (by omega)
        rwa [Nat.mul_succ, Nat.add_comm (16 * j), ← Nat.add_assoc] at this
    · cases j with
      | zero =>
        have hcopy := hstep.holdsCopy
        rw [hlen] at hcopy
        refine hcopy.mono (blocks_le_copySegments ..) fun d hd x hx => ?_
        obtain rfl : d = b := by
          rw [hstep.blocks, getElem?_concat_length] at hd
          exact (Option.some.inj hd).symm
        -- the rest of the loop does not touch the block
        refine hold x (subset_covered (mem_of_getElem? hd) hx) fun j hj hin => ?_
        exact hfirst.notMem_last (hdes' _ (mem_bytes_of_le hin (by omega) (by omega))) hx
      | succ j =>
        have hread : ∀ a, a + 8 ≤ 16 * (k + 1) → read s₁.mem (src + a) 8 = read s.mem (src + a) 8 :=
          fun a ha => read_congr fun x h1 h2 => hstep.kept x (hsrc (mem_bytes.2 (by omega)))
        have hnext := (hcontent j (by omega)).of_kept hstep.kept
        rw [show src + 16 + 16 * j = src + 16 * (j + 1) by omega, hread _ (by omega), Nat.add_assoc src,
          hread _ (by omega), ← Nat.add_assoc, hstep.blocks, length_append,
          length_singleton, Nat.add_assoc, Nat.add_comm 1 j] at hnext
        exact hnext
    · cases j with
      | zero =>
        refine ⟨b, getElem?_of_le (blocks_le_copySegments ..) ?_, ?_⟩
        · rw [hstep.blocks, Nat.add_zero, getElem?_concat_length]
        · -- the rest of the loop patches other elements
          rw [Nat.mul_zero, Nat.add_zero, ← hstep.pointer]
          refine read_congr fun x h1 h2 => hold x (hsub (hdes (mem_bytes.2 (by omega)))) fun i _ hin => ?_
          rw [mem_bytes] at hin
          omega
      | succ j =>
        obtain ⟨d, hd, hread⟩ := hpointer j (by omega)
        refine ⟨d, ?_, ?_⟩
        · rw [← hd, hstep.blocks, length_append, length_singleton, Nat.add_assoc, Nat.add_comm 1 j]
        · rw [← hread, Nat.mul_succ, Nat.add_comm (16 * j), ← Nat.add_assoc]

theorem length_copySegments (s : Fill) (src des k : ℕ) :
    (copySegments alloc s src des k).blocks.length = s.blocks.length + k := by
  induction k generalizing s src des with
  | zero => rfl
  | succ k ih =>
    rw [copySegments, ih, memberCopy, length_append, length_singleton]
    omega

/-- What the copy of a header does; `b` is the block of the `iovec` array. -/
structure HeaderCopied (E : Set ℕ) (s s' : Fill) (src des : ℕ) (b : Span) : Prop where
  kept : ∀ x ∈ E, s'.mem x = s.mem x
  old : ∀ x ∈ covered s.blocks, (∀ o ∈ [0, 16, 32], x ∉ bytes ⟨des + o, 8⟩) →
    s'.mem x = s.mem x
  blocks : ∃ b₁ b₃, s'.blocks = s.blocks ++ [b₁, b, b₃] ∧ read s'.mem des 8 = b₁.start ∧
    read s'.mem (des + 32) 8 = b₃.start
  new : ∀ x ∈ covered s.blocks, x ∉ b.bytes
  len_eq : b.len = intToSize (read s.mem (src + 24) 8 * 16)
  pointer : read s'.mem (des + 16) 8 = b.start
  content : ∀ o < b.len, read s.mem (src + 16) 8 + o ∈ E →
    s'.mem (b.start + o) = s.mem (read s.mem (src + 16) 8 + o)
  name : HoldsCopy E s s' s.blocks.length ⟨read s.mem src 8, intToSize (read s.mem (src + 8) 4)⟩
  control : HoldsCopy E s s' (s.blocks.length + 2)
    ⟨read s.mem (src + 32) 8, intToSize (read s.mem (src + 40) 8)⟩

theorem HeaderCopied.mem_blocks {s' : Fill} {src des : ℕ} (h : HeaderCopied E s s' src des b) :
    b ∈ s'.blocks := by
  obtain ⟨b₁, b₃, hblocks, -⟩ := h.blocks
  simp [hblocks]

theorem field_subset_covered {s' : Fill} {des tar : ℕ}
    (hdes : bytes ⟨des, 56⟩ ⊆ covered s.blocks) (hpre : s.blocks <+: s'.blocks)
    (htar : tar + 8 ≤ 56) : bytes ⟨des + tar, 8⟩ ⊆ covered s'.blocks := fun x hx =>
  covered_mono hpre (hdes (mem_bytes_of_le hx (by omega) (by omega)))

/-- The three copies one after the other. -/
theorem copied_copyHeader {src des : ℕ} (hfresh : Fresh E (copyHeader alloc s src des).blocks)
    (hdes : bytes ⟨des, 56⟩ ⊆ covered s.blocks) (hsrc : bytes ⟨src, 56⟩ ⊆ E) :
    ∃ s₁ s₂ b₁ b₂ b₃, Copied E s s₁ (des + 0) b₁ (read s.mem (src + 0) 8) ∧
      Copied E s₁ s₂ (des + 16) b₂ (read s₁.mem (src + 16) 8) ∧
      Copied E s₂ (copyHeader alloc s src des) (des + 32) b₃ (read s₂.mem (src + 32) 8) ∧
      b₁.len = intToSize (read s.mem (src + 8) 4) ∧
      b₂.len = intToSize (read s₁.mem (src + 24) 8 * 16) ∧
      b₃.len = intToSize (read s₂.mem (src + 40) 8) := by
  have hsrc' : ∀ tar, tar + 8 ≤ 56 → bytes ⟨src + tar, 8⟩ ⊆ E := fun tar htar x hx =>
    hsrc (mem_bytes_of_le hx (by omega) (by omega))
  rw [copyHeader] at hfresh ⊢
  have h1 : Copied E s (memberCopy alloc s src des 0 8 4 1) (des + 0) _ _ := copied_memberCopy
    (hfresh.mono ((blocks_le_memberCopy ..).trans (blocks_le_memberCopy ..)))
    (field_subset_covered hdes prefix_rfl (by omega)) (hsrc' 0 (by omega))
  generalize hb1 : s.block alloc _ = b₁ at h1
  generalize memberCopy alloc s src des 0 8 4 1 = s₁ at hfresh h1 ⊢
  have hpre1 : s.blocks <+: s₁.blocks := h1.blocks ▸ prefix_append ..
  have h2 : Copied E s₁ (memberCopy alloc s₁ src des 16 24 8 16) (des + 16) _ _ := copied_memberCopy
    (hfresh.mono (blocks_le_memberCopy ..)) (field_subset_covered hdes hpre1 (by omega)) (hsrc' 16 (by omega))
  generalize hb2 : s₁.block alloc _ = b₂ at h2
  generalize memberCopy alloc s₁ src des 16 24 8 16 = s₂ at hfresh h2 ⊢
  have hpre2 : s₁.blocks <+: s₂.blocks := h2.blocks ▸ prefix_append ..
  have h3 : Copied E s₂ (memberCopy alloc s₂ src des 32 40 8 1) (des + 32) _ _ := copied_memberCopy
    hfresh (field_subset_covered hdes (hpre1.trans hpre2) (by omega)) (hsrc' 32 (by omega))
  generalize hb3 : s₂.block alloc _ = b₃ at h3
  refine ⟨s₁, s₂, b₁, b₂, b₃, h1, h2, h3, ?_, ?_, ?_⟩
  · simp only [← hb1, Fill.block, Nat.mul_one]
  · simp only [← hb2, Fill.block]
  · simp only [← hb3, Fill.block, Nat.mul_one]

theorem headerCopied_copyHeader {src des : ℕ} (hfresh : Fresh E (copyHeader alloc s src des).blocks)
    (hdes : bytes ⟨des, 56⟩ ⊆ covered s.blocks) (hsrc : bytes ⟨src, 56⟩ ⊆ E) :
    ∃ b, HeaderCopied E s (copyHeader alloc s src des) src des b := by
  have hdes' : ∀ {s' : Fill}, s.blocks <+: s'.blocks → ∀ tar, tar + 8 ≤ 56 →
      bytes ⟨des + tar, 8⟩ ⊆ covered s'.blocks :=
    fun hpre _ => field_subset_covered hdes hpre
  obtain ⟨s₁, s₂, b₁, b, b₃, h1, h2, h3, hlen1, hlen, hlen3⟩ := copied_copyHeader hfresh hdes hsrc
  generalize copyHeader alloc s src des = s₃ at hfresh h3 ⊢
  have hpre1 : s.blocks <+: s₁.blocks := h1.blocks ▸ prefix_append ..
  have hpre2 : s₁.blocks <+: s₂.blocks := h2.blocks ▸ prefix_append ..
  have hpre3 : s₂.blocks <+: s₃.blocks := h3.blocks ▸ prefix_append ..
  have hkept2 : ∀ x ∈ E, s₂.mem x = s.mem x := fun x hx => (h2.kept x hx).trans (h1.kept x hx)
  have hread : ∀ {s' : Fill}, (∀ x ∈ E, s'.mem x = s.mem x) → ∀ o, o + 8 ≤ 56 →
      read s'.mem (src + o) 8 = read s.mem (src + o) 8 := fun hkept o ho =>
    read_congr fun x h h' => hkept x (hsrc (mem_bytes.2 (by omega)))
  have hfresh1 : Fresh E (s.blocks ++ [b₁]) := h1.blocks ▸ hfresh.mono (hpre2.trans hpre3)
  have hfresh2 : Fresh E (s₁.blocks ++ [b]) := h2.blocks ▸ hfresh.mono hpre3
  refine ⟨b, ?_, ?_, ⟨b₁, b₃, ?_, ?_, h3.pointer⟩,
    fun x hx => hfresh2.notMem_last (covered_mono hpre1 hx), ?_, ?_, ?_, ?_, ?_⟩
  · intro x hx
    rw [h3.kept x hx, hkept2 x hx]
  · intro x hx hnot
    rw [h3.old x (covered_mono (hpre1.trans hpre2) hx) (hnot 32 (by simp)),
      h2.old x (covered_mono hpre1 hx) (hnot 16 (by simp)), h1.old x hx (hnot 0 (by simp))]
  · rw [h3.blocks, h2.blocks, h1.blocks, append_assoc, append_assoc]
    rfl
  · rw [← h1.pointer, Nat.add_zero]
    refine read_congr fun x hx hx' => ?_
    have hin : x ∈ covered s₁.blocks := hdes' hpre1 0 (by omega) ⟨hx, hx'⟩
    rw [h3.old x (covered_mono hpre2 hin), h2.old x hin]
    all_goals
      rw [mem_bytes]
      omega
  · rw [hlen, hread h1.kept 24 (by omega)]
  · rw [← h2.pointer]
    refine read_congr fun x hx hx' => h3.old x ?_ ?_
    · exact hdes' (hpre1.trans hpre2) 16 (by omega) ⟨hx, hx'⟩
    · rw [mem_bytes]
      omega
  · intro o ho hE
    have hmem : b.start + o ∈ b.bytes := add_mem_bytes ho
    have hin : b.start + o ∈ covered s₂.blocks :=
      subset_covered (by simp [h2.blocks]) hmem
    rw [h3.old _ hin, h2.content o ho (by rwa [hread h1.kept 16 (by omega)]), hread h1.kept 16 (by omega),
      h1.kept _ hE]
    intro hx
    exact hfresh2.notMem_last (hdes' hpre1 32 (by omega) hx) hmem
  · have hcopy := h1.holdsCopy
    rw [hlen1, Nat.add_zero] at hcopy
    refine hcopy.mono (hpre2.trans hpre3) fun d hd x hx => ?_
    obtain rfl : d = b₁ := by
      rw [h1.blocks, getElem?_concat_length] at hd
      exact (Option.some.inj hd).symm
    have hin : x ∈ covered s₁.blocks := subset_covered (mem_of_getElem? hd) hx
    have hpatch : ∀ tar, tar + 8 ≤ 56 → x ∉ bytes ⟨des + tar, 8⟩ := fun tar htar hmem =>
      hfresh1.notMem_last (hdes' prefix_rfl tar htar hmem) hx
    rw [h3.old x (covered_mono hpre2 hin) (hpatch 32 (by omega)), h2.old x hin (hpatch 16 (by omega))]
  · have hcopy := h3.holdsCopy.of_kept hkept2
    rw [hlen3, hread hkept2 32 (by omega), hread hkept2 40 (by omega), h2.blocks, h1.blocks,
      length_append, length_append] at hcopy
    exact hcopy

/-- The message whose header is at `src` has an `iovec` array of less than `2 ^ 31` bytes. -/
structure MessageFits (E : Set ℕ) (m : Mem) (src : ℕ) : Prop where
  header : bytes ⟨src, 56⟩ ⊆ E
  array : bytes ⟨read m (src + 16) 8, 16 * read m (src + 24) 8⟩ ⊆ E
  array_lt : 16 * read m (src + 24) 8 < 2 ^ 31

end Syscall

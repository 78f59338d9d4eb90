/-
**What the host sees of the enclave.**

`fillArgs` copies by type: every pointer argument is copied out, whether the call reads or writes the
buffer, and a string is copied with a fixed length.  This module compares two runs on memories that differ
in secret bytes only: bytes of buffers that the call only writes, and bytes behind the end of a path.  What
the call reads, its arguments and the headers, is not secret.

Main definitions: `secret`, `Confidential`.  Main results: `same_fillTo`, `confidential_iff`.
-/

import SgxElps.Syscall.Frame
import SgxElps.Syscall.Message

namespace Syscall

open Bytes
open Span
open List
open Function
open Prepared Marshalling

/-! ### Secret bytes -/

def sysOpen : ℕ := 2
def sysAccess : ℕ := 21
def sysOpenat : ℕ := 257

/-- The buffers that a call only writes. -/
def onlyWritten (n i : ℕ) : Bool :=
  ((n = sysRead || n = sysRecvfrom || n = sysAccept || n = sysGetsockname || n = sysGetpeername ||
    n = sysEpollWait || n = sysEpollPwait || n = sysClockGettime || n = sysGetrlimit) && i = 1) ||
  ((n = sysPipe || n = sysPipe2) && i = 0)

/-- The paths. -/
def isPath (n i : ℕ) : Bool :=
  ((n = sysOpen || n = sysAccess) && i = 0) || (n = sysOpenat && i = 1)

/-- The buffers of an `iovec` array, with the lengths that `memberCopy` copies. -/
def vectorSpans (m : Mem) (iov k : ℕ) : List Span :=
  (range k).map fun j => ⟨read m (iov + 16 * j) 8, intToSize (read m (iov + 16 * j + 8) 8)⟩

/-- The name, the `iovec` array and the control data of a `msghdr`. -/
def headerSpans (m : Mem) (src : ℕ) : List Span :=
  [⟨read m src 8, intToSize (read m (src + 8) 4)⟩,
    ⟨read m (src + 16) 8, intToSize (read m (src + 24) 8 * 16)⟩,
    ⟨read m (src + 32) 8, intToSize (read m (src + 40) 8)⟩]

/-- What `deepCopy` copies. -/
def nestedSpans (m : Mem) (n src count : ℕ) : List Span :=
  if n = sysWritev then vectorSpans m src (if count < 2 ^ 63 then count else 0)
  else if n = sysRecvmsg ∨ n = sysSendmsg then
    headerSpans m src ++ vectorSpans m (read m (src + 16) 8) (read m (src + 24) 8)
  else []

namespace Invocation

variable (c : Invocation)

/-- What the call reads besides its buffers: the arguments and the headers. -/
def metadata : Set ℕ := bytes ⟨c.enclaveArgs, 48⟩ ∪ covered (headers c.n c.arg c.mem)

/-- The bytes of the enclave that are in a buffer that the call only writes, or behind the end of a
path. -/
def secret : Set ℕ := { x | x ∈ c.enclave ∧ x ∉ c.metadata ∧
  ((∃ i, onlyWritten c.n i = true ∧
      x ∈ bytes ⟨c.arg i, outputLength c.n c.types c.arg c.mem i⟩) ∨
    (c.n = sysRecvmsg ∧ ∃ k < read c.mem (c.arg 1 + 24) 8,
      x ∈ (segment c.mem (read c.mem (c.arg 1 + 16) 8) k).bytes) ∨
    ∃ i, isPath c.n i = true ∧ ∃ p, c.arg i ≤ p ∧ c.mem p = 0 ∧ p < x) }

/-- The bytes that are copied. -/
def copied : Set ℕ := { x |
  (∃ i, c.IsPointer i ∧ c.arg i ≠ 0 ∧ x ∈ bytes ⟨c.arg i, c.size i⟩) ∨
    x ∈ covered (nestedSpans c.mem c.n (c.arg 1) (c.arg 2)) }

end Invocation

/-- The same call on a memory that differs in secret bytes only. -/
structure Twin (c c' : Invocation) : Prop where
  n_eq : c'.n = c.n
  types_eq : c'.types = c.types
  base_eq : c'.base = c.base
  req_eq : c'.req = c.req
  enclaveArgs_eq : c'.enclaveArgs = c.enclaveArgs
  alloc_eq : c'.alloc = c.alloc
  agree : AgreeOff c.secret c.mem c'.mem

/-- After `fillArgs` unsafe memory is the same whatever the secret bytes are. -/
def Confidential (c : Invocation) : Prop :=
  ∀ c', Twin c c' → ∀ x, x ∉ c.enclave → c'.fill.mem x = c.fill.mem x

/-! ### Nested copies in step -/

/-- Two runs that have handed out the same blocks and agree outside `T`. -/
structure Same (T : Set ℕ) (s s' : Fill) : Prop where
  blocks : s'.blocks = s.blocks
  agree : AgreeOff T s.mem s'.mem

/-- Either nothing that is copied is in `T`, or `T` has every byte outside `E` and the blocks of `l`. -/
def Clean (E T : Set ℕ) (l spans : List Span) : Prop :=
  (∀ x ∈ covered spans, x ∉ T) ∨ ∀ x, x ∉ E → x ∉ covered l → x ∈ T

section Nested

variable {alloc : Alloc} {E T : Set ℕ} {l : List Span} {s s' : Fill}

theorem Same.memberCopy {src des tar len width fac : ℕ} (h : Same T s s') (hl : l <+: s.blocks)
    (hfresh : Fresh E (memberCopy alloc s src des tar len width fac).blocks)
    (hdes : bytes ⟨des + tar, 8⟩ ⊆ covered s.blocks)
    (hsrc : bytes ⟨src + tar, 8⟩ ⊆ E) (hptr : ∀ x ∈ bytes ⟨src + tar, 8⟩, x ∉ T)
    (hlen : ∀ x ∈ bytes ⟨src + len, width⟩, x ∉ T)
    (hclean : Clean E T l
      [⟨read s.mem (src + tar) 8, intToSize (read s.mem (src + len) width * fac)⟩]) :
    Same T (memberCopy alloc s src des tar len width fac)
      (memberCopy alloc s' src des tar len width fac) := by
  have hblock : s'.block alloc (intToSize (read s'.mem (src + len) width * fac)) =
      s.block alloc (intToSize (read s.mem (src + len) width * fac)) := by
    rw [h.agree.read_eq hlen, Fill.block, Fill.block, h.blocks]
  have hold : Fresh E s.blocks := hfresh.mono (prefix_append ..)
  unfold Syscall.memberCopy at hfresh ⊢
  dsimp only at hfresh ⊢
  rw [hblock]
  generalize hb : s.block alloc _ = b at hfresh ⊢
  have hwrite := h.agree.write_both (a := des + tar) (n := 8) (v := b.start)
  rw [hwrite.read_eq hptr]
  have hread : read (write s.mem (des + tar) 8 b.start) (src + tar) 8 = read s.mem (src + tar) 8 := by
    refine read_congr fun x h1 h2 => write_of_notMem ?_
    by_contra hin
    exact hold.notMem_covered (hsrc ⟨h1, h2⟩) (hdes (mem_bytes.2 (by omega)))
  rw [hread]
  refine ⟨by rw [h.blocks], hwrite.copy_both ?_⟩
  rcases hclean with hspan | hall
  · left
    intro x hx
    refine hspan x (subset_covered (mem_singleton_self _) ?_)
    rwa [← hb] at hx
  · right
    intro x hx
    refine hall x (hfresh.apart b (by simp) x hx) fun hcov => ?_
    exact hfresh.notMem_last (covered_mono hl hcov) hx

theorem nestedSpans_message {n : ℕ} (hmsg : n = sysRecvmsg ∨ n = sysSendmsg) (m : Mem) (src count : ℕ) :
    nestedSpans m n src count =
      headerSpans m src ++ vectorSpans m (read m (src + 16) 8) (read m (src + 24) 8) := by
  have hw : n ≠ sysWritev := by
    rcases hmsg with rfl | rfl <;> decide
  rw [nestedSpans, if_neg hw, if_pos hmsg]

theorem Clean.mono {spans spans' : List Span} (h : Clean E T l spans)
    (hsub : ∀ sp ∈ spans', sp ∈ spans) : Clean E T l spans' := by
  refine h.imp_left fun hspan x hx => ?_
  obtain ⟨sp, hsp, hmem⟩ := hx
  exact hspan x ⟨sp, hsub sp hsp, hmem⟩

theorem vectorSpans_succ (m : Mem) (iov k : ℕ) : vectorSpans m iov (k + 1) =
    ⟨read m iov 8, intToSize (read m (iov + 8) 8)⟩ :: vectorSpans m (iov + 16) k := by
  simp only [vectorSpans, range_succ_eq_map, map_cons, map_map, Nat.mul_zero, Nat.add_zero]
  refine congrArg _ (map_congr_left fun j _ => ?_)
  simp only [comp, Nat.succ_eq_add_one]
  rw [show iov + 16 * (j + 1) = iov + 16 + 16 * j by omega]

theorem vectorSpans_congr {m m' : Mem} {iov k : ℕ} (h : ∀ x ∈ bytes ⟨iov, 16 * k⟩, m' x = m x) :
    vectorSpans m' iov k = vectorSpans m iov k := by
  refine map_congr_left fun j hj => ?_
  rw [mem_range] at hj
  rw [read_congr fun x h1 h2 => h x (mem_bytes.2 (by omega)),
    read_congr (a := iov + 16 * j + 8) fun x h1 h2 => h x (mem_bytes.2 (by omega))]

theorem Same.copySegments {src des k : ℕ} (h : Same T s s') (hl : l <+: s.blocks)
    (hfresh : Fresh E (copySegments alloc s src des k).blocks)
    (hdes : bytes ⟨des, 16 * k⟩ ⊆ covered s.blocks)
    (hsrc : bytes ⟨src, 16 * k⟩ ⊆ E) (hT : ∀ x ∈ bytes ⟨src, 16 * k⟩, x ∉ T)
    (hclean : Clean E T l (vectorSpans s.mem src k)) :
    Same T (copySegments alloc s src des k) (copySegments alloc s' src des k) := by
  induction k generalizing s s' src des with
  | zero => exact h
  | succ k ih =>
    have hfirst : Fresh E (Syscall.memberCopy alloc s src des 0 8 8 1).blocks :=
      hfresh.mono (blocks_le_copySegments ..)
    have hpre : s.blocks <+: (Syscall.memberCopy alloc s src des 0 8 8 1).blocks :=
      blocks_le_memberCopy ..
    have hdes0 : bytes ⟨des + 0, 8⟩ ⊆ covered s.blocks := fun x hx =>
      hdes (mem_bytes_of_le hx (by omega) (by omega))
    have hsrc0 : bytes ⟨src + 0, 8⟩ ⊆ E := fun x hx =>
      hsrc (mem_bytes_of_le hx (by omega) (by omega))
    have hstep := h.memberCopy hl hfirst hdes0 hsrc0
      (fun x hx => hT x (mem_bytes_of_le hx (by omega) (by omega)))
      (fun x hx => hT x (mem_bytes_of_le hx (by omega) (by omega)))
      (hclean.mono fun sp hsp => by
        rw [mem_singleton, Nat.add_zero, Nat.mul_one] at hsp
        rw [hsp, vectorSpans_succ]
        exact mem_cons_self ..)
    have hkept := (copied_memberCopy hfirst hdes0 hsrc0).kept
    refine ih hstep (hl.trans hpre) hfresh ?_ ?_ ?_ (hclean.mono fun sp hsp => ?_)
    · exact fun x hx => covered_mono hpre (hdes (mem_bytes_of_le hx (by omega) (by omega)))
    · exact fun x hx => hsrc (mem_bytes_of_le hx (by omega) (by omega))
    · exact fun x hx => hT x (mem_bytes_of_le hx (by omega) (by omega))
    · rw [vectorSpans_congr fun x hx => hkept x
        (hsrc (mem_bytes_of_le hx (by omega) (by omega)))] at hsp
      rw [vectorSpans_succ]
      exact mem_cons_of_mem _ hsp

theorem Same.copyHeader {src des : ℕ} (h : Same T s s') (hl : l <+: s.blocks)
    (hfresh : Fresh E (copyHeader alloc s src des).blocks)
    (hdes : bytes ⟨des, 56⟩ ⊆ covered s.blocks) (hsrc : bytes ⟨src, 56⟩ ⊆ E)
    (hT : ∀ x ∈ bytes ⟨src, 56⟩, x ∉ T) (hclean : Clean E T l (headerSpans s.mem src)) :
    Same T (copyHeader alloc s src des) (copyHeader alloc s' src des) := by
  -- one member, after others that have left `E` alone
  have hmember : ∀ {s₁ s₁' : Fill} tar len width fac, Same T s₁ s₁' → s.blocks <+: s₁.blocks →
      (∀ x ∈ E, s₁.mem x = s.mem x) → Fresh E (Syscall.memberCopy alloc s₁ src des tar len width fac).blocks →
      tar + 8 ≤ 56 → len + width ≤ 56 →
      ⟨read s.mem (src + tar) 8, intToSize (read s.mem (src + len) width * fac)⟩ ∈ headerSpans s.mem src →
      Same T (Syscall.memberCopy alloc s₁ src des tar len width fac)
          (Syscall.memberCopy alloc s₁' src des tar len width fac) ∧
        ∀ x ∈ E, (Syscall.memberCopy alloc s₁ src des tar len width fac).mem x = s.mem x := by
    intro s₁ s₁' tar len width fac h1 hpre hkept hf htar hlen hmem
    have hdes1 : bytes ⟨des + tar, 8⟩ ⊆ covered s₁.blocks := fun x hx =>
      covered_mono hpre (hdes (mem_bytes_of_le hx (by omega) (by omega)))
    have hsrc1 : bytes ⟨src + tar, 8⟩ ⊆ E := fun x hx =>
      hsrc (mem_bytes_of_le hx (by omega) (by omega))
    have hread : ∀ o w, o + w ≤ 56 → read s₁.mem (src + o) w = read s.mem (src + o) w := fun o w ho =>
      read_congr fun x hx hx' => hkept x (hsrc (mem_bytes.2 (by omega)))
    refine ⟨h1.memberCopy (hl.trans hpre) hf hdes1 hsrc1 ?_ ?_ (hclean.mono fun sp hsp => ?_), ?_⟩
    · exact fun x hx => hT x (mem_bytes_of_le hx (by omega) (by omega))
    · exact fun x hx => hT x (mem_bytes_of_le hx (by omega) (by omega))
    · rw [mem_singleton, hread tar 8 htar, hread len width hlen] at hsp
      exact hsp ▸ hmem
    · exact fun x hx => ((copied_memberCopy hf hdes1 hsrc1).kept x hx).trans (hkept x hx)
  rw [Syscall.copyHeader] at hfresh
  obtain ⟨h1, hkept1⟩ := hmember 0 8 4 1 h prefix_rfl (fun _ _ => rfl)
    (hfresh.mono ((blocks_le_memberCopy ..).trans (blocks_le_memberCopy ..))) (by omega) (by omega)
    (by simp [headerSpans])
  obtain ⟨h2, hkept2⟩ := hmember 16 24 8 16 h1 (blocks_le_memberCopy ..) hkept1
    (hfresh.mono (blocks_le_memberCopy ..)) (by omega) (by omega) (by simp [headerSpans])
  obtain ⟨h3, -⟩ := hmember 32 40 8 1 h2 ((blocks_le_memberCopy ..).trans (blocks_le_memberCopy ..)) hkept2
    hfresh (by omega) (by omega) (by simp [headerSpans])
  exact h3

theorem Same.deepCopy_message {n src des count count' : ℕ} (hn : n = sysRecvmsg ∨ n = sysSendmsg)
    (h : Same T s s') (hl : l <+: s.blocks)
    (hfresh : Fresh E (deepCopy alloc s n src des count).blocks)
    (hdes : bytes ⟨des, 56⟩ ⊆ covered s.blocks) (hsrc : MessageFits E s.mem src)
    (hdesT : ∀ x ∈ bytes ⟨des, 56⟩, x ∉ T) (hsrcT : ∀ x ∈ bytes ⟨src, 56⟩, x ∉ T)
    (harrayT : ∀ x ∈ bytes ⟨read s.mem (src + 16) 8, 16 * read s.mem (src + 24) 8⟩, x ∉ T)
    (hclean : Clean E T l (nestedSpans s.mem n src count)) :
    Same T (deepCopy alloc s n src des count) (deepCopy alloc s' n src des count') := by
  have hw : n ≠ sysWritev := by
    rcases hn with rfl | rfl <;> decide
  rw [nestedSpans_message hn] at hclean
  rw [deepCopy, if_neg hw, if_pos hn] at hfresh ⊢
  rw [deepCopy, if_neg hw, if_pos hn]
  dsimp only at hfresh ⊢
  have hpre : s.blocks <+: (Syscall.copyHeader alloc s src des).blocks := blocks_le_copyHeader ..
  have hfresh1 := hfresh.mono (blocks_le_copySegments ..)
  obtain ⟨b, hb⟩ : ∃ b, HeaderCopied E s (Syscall.copyHeader alloc s src des) src des b :=
    headerCopied_copyHeader hfresh1 hdes hsrc.header
  have h1 := h.copyHeader hl hfresh1 hdes hsrc.header hsrcT
    (hclean.mono fun sp hsp => mem_append_left _ hsp)
  generalize Syscall.copyHeader alloc s src des = s₁ at *
  have hread : ∀ o, o + 8 ≤ 56 → read s₁.mem (src + o) 8 = read s.mem (src + o) 8 := fun o ho =>
    read_congr fun x h1 h2 => hb.kept x (hsrc.header (mem_bytes.2 (by omega)))
  have hsame : ∀ a, (∀ x ∈ bytes ⟨a, 56⟩, x ∉ T) → ∀ o, o + 8 ≤ 56 →
      read (Syscall.copyHeader alloc s' src des).mem (a + o) 8 = read s₁.mem (a + o) 8 := fun a ha o ho =>
    h1.agree.read_eq fun x hx => ha x (mem_bytes_of_le hx (by omega) (by omega))
  rw [hsame src hsrcT 16 (by omega), hsame des hdesT 16 (by omega), hsame src hsrcT 24 (by omega)]
  rw [hread 16 (by omega), hread 24 (by omega), hb.pointer] at hfresh ⊢
  refine h1.copySegments (hl.trans hpre) hfresh ?_ hsrc.array harrayT (hclean.mono fun sp hsp => ?_)
  · have hlt := hsrc.array_lt
    have hlen : b.len = 16 * read s.mem (src + 24) 8 := by
      rw [hb.len_eq, intToSize_of_lt (by omega), Nat.mul_comm]
    rw [← hlen]
    exact subset_covered hb.mem_blocks
  · rw [vectorSpans_congr fun x hx => hb.kept x (hsrc.array hx)] at hsp
    exact mem_append_right _ hsp

end Nested

/-! ### Two runs in step -/

section Fill

variable {c : Invocation} {T : Set ℕ} {i k : ℕ}

/-- The header of a message, which is read again after it has been copied. -/
def Invocation.HeaderBlock (c : Invocation) (x : ℕ) : Prop :=
  (c.n = sysRecvmsg ∨ c.n = sysSendmsg) ∧ x ∈ (c.block 1).bytes

/-- `T` leaves out what is looked at: the arguments and the headers, and the copy of a message header.
Either nothing that is copied is in `T`, or `T` has all other unsafe bytes. -/
structure Tracked (c : Invocation) (T : Set ℕ) : Prop where
  metadata : ∀ x ∈ c.metadata, x ∉ T
  header : ∀ x, c.HeaderBlock x → x ∉ T
  clean : (∀ x ∈ c.copied, x ∉ T) ∨ ∀ x, x ∉ c.enclave ∪ c.request → ¬ c.HeaderBlock x → x ∈ T

theorem Tracked.headers (h : Tracked c T) : ∀ x ∈ covered (headers c.n c.arg c.mem), x ∉ T :=
  fun x hx => h.metadata x (.inr hx)

theorem nestedSpans_congr {m : Mem} (hmsg : c.IsMessage)
    (hm : ∀ x ∈ covered (Syscall.headers c.n c.arg c.mem), m x = c.mem x) (count : ℕ) :
    nestedSpans m c.n (c.arg 1) count = nestedSpans c.mem c.n (c.arg 1) count := by
  have hread : ∀ o w, o + w ≤ 56 → read m (c.arg 1 + o) w = read c.mem (c.arg 1 + o) w := fun o w ho =>
    read_congr fun x h1 h2 => hm x ⟨⟨c.arg 1, 56⟩, by rw [headers_message hmsg]; simp,
      mem_bytes.2 (by omega)⟩
  have hread0 := hread 0 8 (by omega)
  rw [Nat.add_zero] at hread0
  rw [nestedSpans_message hmsg, nestedSpans_message hmsg, headerSpans, headerSpans, hread0,
    hread 8 4 (by omega), hread 16 8 (by omega), hread 24 8 (by omega), hread 32 8 (by omega),
    hread 40 8 (by omega)]
  exact congrArg _ (vectorSpans_congr fun x hx => hm x ⟨_, array_mem_headers hmsg, hx⟩)

theorem same_deep {s' : Fill} {count : ℕ} (ht : Tracked c T) (hp : c.IsPointer k)
    (h : Same T (c.shallow k) s') (hcount : c.n = sysWritev → count = c.arg (k + 1)) :
    Same T (c.deep k) (deepCopy c.alloc s' c.n (c.arg k) (c.block k).start count) := by
  have hkept := shallow_kept hp (fillTo_kept c.intact k)
  have hfresh := fresh_deep hp
  by_cases hw : c.n = sysWritev
  · obtain rfl := eq_one_of_isPointer (types_of_eq hw rfl) hp
    have hhead := headers_writev hw
    have hlt := header_len_lt hhead
    have hif : (if c.arg 2 < 2 ^ 63 then c.arg 2 else 0) = c.arg 2 := if_pos (by omega)
    rw [deep, deepCopy, if_pos hw, hif] at hfresh ⊢
    rw [deepCopy, if_pos hw, hcount hw, hif]
    refine h.copySegments (l := []) nil_prefix hfresh ?_ (fun x hx => .inl (header_subset hhead hx))
      (fun x hx => ht.headers x ⟨_, hhead, hx⟩) ?_
    · rw [← size_writev hw]
      exact c.block_subset_shallow 1
    · rw [vectorSpans_congr fun x hx => hkept x (header_subset hhead hx)]
      refine ht.clean.imp (fun hcopied x hx => hcopied x (.inr ?_)) fun hall x hE _ => hall x hE ?_
      · rw [nestedSpans, if_pos hw, hif]
        exact hx
      · rintro ⟨hmsg, -⟩
        rcases hmsg with hmsg | hmsg <;>
          · rw [hw] at hmsg
            exact absurd hmsg (by decide)
  · by_cases hmsg : c.IsMessage
    · obtain rfl := eq_one_of_isPointer hmsg.types hp
      have hsize := hmsg.size
      have harray := array_mem_headers hmsg
      refine h.deepCopy_message hmsg prefix_rfl hfresh ?_ (messageFits hmsg) ?_ ?_ ?_ ?_
      · rw [← hsize]
        exact c.block_subset_shallow 1
      · rw [← hsize]
        exact fun x hx => ht.header x ⟨hmsg, hx⟩
      · exact fun x hx => ht.headers x ⟨_, by rw [headers_message hmsg]; simp, hx⟩
      · rw [header_read hmsg hkept (by omega), header_read hmsg hkept (by omega)]
        exact fun x hx => ht.headers x ⟨_, harray, hx⟩
      · rw [nestedSpans_congr hmsg fun x hx => hkept x (headers_subset c hx), shallow_one_blocks hmsg.types]
        refine ht.clean.imp (fun hcopied x hx => hcopied x (.inr hx)) fun hall x hE hx => hall x hE ?_
        exact fun hheader => hx (subset_covered (mem_singleton_self _) hheader.2)
    · have hflat : c.Flat := ⟨hw, fun hn => hmsg (.inl hn), fun hn => hmsg (.inr hn)⟩
      rw [flat_deep hflat, deepCopy, if_neg hw, if_neg (not_or.2 hflat.2)]
      exact h

theorem same_shallow {s' : Fill} (ht : Tracked c T) (hp : c.IsPointer k) (h : Same T (c.fillTo k) s') :
    Same T (c.shallow k)
      ⟨if c.arg k = 0 then
          write (write s'.mem (c.req + 92 + 4 * k) 4 (c.size k)) (c.req + 128 + 16 * k) 8 (c.block k).start
        else
          copy (write (write s'.mem (c.req + 92 + 4 * k) 4 (c.size k)) (c.req + 128 + 16 * k) 8
            (c.block k).start) (c.block k).start (c.arg k) (c.size k),
        s'.blocks ++ [c.block k]⟩ := by
  have hwrite := (h.agree.write_both (a := c.req + 92 + 4 * k) (n := 4) (v := c.size k)).write_both
    (a := c.req + 128 + 16 * k) (n := 8) (v := (c.block k).start)
  refine ⟨congrArg (· ++ [c.block k]) h.blocks, ?_⟩
  unfold shallow
  dsimp only
  split
  · exact hwrite
  · rename_i harg
    refine hwrite.copy_both ?_
    by_cases hmsg : c.IsMessage
    · obtain rfl := eq_one_of_isPointer hmsg.types hp
      left
      rw [hmsg.size]
      exact fun x hx => ht.headers x ⟨_, by rw [headers_message hmsg]; simp, hx⟩
    · refine ht.clean.imp (fun hcopied x hx => hcopied x (.inl ⟨k, hp, harg, hx⟩)) fun hall x hx => ?_
      refine hall x ?_ fun hheader => hmsg hheader.1
      exact block_apart hp hx

/-- **Two runs in step.** -/
theorem same_fillTo {m : Mem} (ht : Tracked c T) (hm : AgreeOff T c.mem m) (k : ℕ) :
    Same T (c.fillTo k) (fillUpTo c.alloc m c.req c.n c.types (enclaveArg m c.enclaveArgs) k) := by
  have harg : ∀ j < 6, enclaveArg m c.enclaveArgs j = c.arg j := fun j hj =>
    (hm.read_eq fun x hx => ht.metadata x (.inl (mem_bytes_of_le hx (by omega) (by omega)))).trans
      (c.arg_apply j).symm
  induction k with
  | zero => exact ⟨rfl, hm⟩
  | succ k ih =>
    by_cases hp : c.IsPointer k
    · rw [fillUpTo, fillTo_succ hp, fillArg, if_neg hp]
      generalize fillUpTo c.alloc m c.req c.n c.types (enclaveArg m c.enclaveArgs) k = s' at ih
      have hsize : getSize c.n c.types (enclaveArg m c.enclaveArgs) s'.mem k = c.size k :=
        getSize_congr hp harg fun x hx => ih.agree x (ht.headers x hx)
      have hblock : s'.block c.alloc (c.size k) = c.block k := by
        rw [Fill.block, ih.blocks]
        rfl
      dsimp only
      rw [hsize, hblock, harg k hp.lt_six]
      have hdeep : Same T (c.deep k) (deepCopy c.alloc _ c.n (c.arg k) (c.block k).start
          (enclaveArg m c.enclaveArgs (k + 1))) :=
        same_deep ht hp (same_shallow ht hp ih) fun hw => by
          obtain rfl := eq_one_of_isPointer (types_of_eq hw rfl) hp
          exact harg 2 (by omega)
      exact ⟨hdeep.blocks, hdeep.agree.write_both⟩
    · rw [fillTo_succ_of_not hp, fillUpTo, fillArg, if_pos (not_not.1 hp)]
      exact ih

end Fill

/-! ### What is copied reaches unsafe memory -/

section Leak

variable {c : Invocation}

theorem nestedSpans_cases {m : Mem} {src j : ℕ} {sp : Span}
    (hj : (headerSpans m src ++ vectorSpans m (read m (src + 16) 8) (read m (src + 24) 8))[j]? = some sp)
    (hne : j ≠ 1) :
    (j = 0 ∧ sp = ⟨read m src 8, intToSize (read m (src + 8) 4)⟩) ∨
      (j = 2 ∧ sp = ⟨read m (src + 32) 8, intToSize (read m (src + 40) 8)⟩) ∨
      ∃ q < read m (src + 24) 8, j = q + 3 ∧ sp = ⟨read m (read m (src + 16) 8 + 16 * q) 8,
        intToSize (read m (read m (src + 16) 8 + 16 * q + 8) 8)⟩ := by
  rw [headerSpans] at hj
  rcases j with _ | _ | _ | q
  · simp only [cons_append, getElem?_cons_zero, Option.some.injEq] at hj
    exact .inl ⟨rfl, hj.symm⟩
  · exact absurd rfl hne
  · simp only [cons_append, getElem?_cons_succ, getElem?_cons_zero,
      Option.some.injEq] at hj
    exact .inr (.inl ⟨rfl, hj.symm⟩)
  · simp only [cons_append, nil_append, getElem?_cons_succ] at hj
    obtain ⟨hlt, hsp⟩ := getElem?_range_map.1 hj
    exact .inr (.inr ⟨q, hlt, rfl, hsp.symm⟩)

/-- The buffers of a message are in the blocks after that of the header. -/
theorem fill_nested (hmsg : c.IsMessage) {j count : ℕ} {sp : Span}
    (hj : (nestedSpans c.mem c.n (c.arg 1) count)[j]? = some sp) (hne : j ≠ 1) :
    ∃ a, c.Points a (j + 1) sp := by
  have hf := c.followed
  have hfilled := messageFilled hmsg (hf.header hmsg) (hf.array hmsg) (hf.message_len hmsg)
  rw [nestedSpans_message hmsg] at hj
  rcases nestedSpans_cases hj hne with ⟨rfl, rfl⟩ | ⟨rfl, rfl⟩ | ⟨q, hq, rfl, rfl⟩
  · exact ⟨_, hfilled.name⟩
  · exact ⟨_, hfilled.control⟩
  · have hpoints := hfilled.vector.points q hq
    rw [Nat.add_comm 4 q] at hpoints
    exact ⟨_, hpoints⟩

/-- `T` for two runs of which one has a secret byte changed. -/
def Invocation.visible (c : Invocation) : Set ℕ :=
  c.secret ∪ { x | x ∉ c.enclave ∪ c.request ∧ ¬ c.HeaderBlock x }

theorem metadata_subset (c : Invocation) : c.metadata ⊆ c.enclave := by
  rintro x (hx | hx)
  · exact c.args_enclave hx
  · exact headers_subset c hx

theorem notMem_enclave_of_headerBlock {x : ℕ} (h : c.HeaderBlock x) : x ∉ c.enclave := fun hx =>
  block_apart (IsMessage.isPointer h.1) h.2 (.inl hx)

theorem tracked_visible (c : Invocation) : Tracked c c.visible := by
  refine ⟨?_, ?_, .inr fun x hE hnot => .inr ⟨hE, hnot⟩⟩
  · rintro x hx (hs | ⟨hE, -⟩)
    · exact hs.2.1 hx
    · exact hE (.inl (metadata_subset c hx))
  · rintro x hx (hs | ⟨-, hnot⟩)
    · exact notMem_enclave_of_headerBlock hx hs.1
    · exact hnot hx

theorem tracked_secret (h : ∀ x ∈ c.secret, x ∉ c.copied) : Tracked c c.secret :=
  ⟨fun _ hx hs => hs.2.1 hx, fun _ hx hs => notMem_enclave_of_headerBlock hx hs.1,
    .inl fun x hx hs => h x hs hx⟩

end Leak

/-! ### Confidential calls -/

section Confidential

variable {c : Invocation} {m : Mem}

section

variable (hm : AgreeOff c.secret c.mem m)

include hm

theorem enclaveArg_eq {i : ℕ} (hi : i < 6) : enclaveArg m c.enclaveArgs i = c.arg i := by
  rw [c.arg_apply]
  exact hm.read_eq fun _ hx hs =>
    hs.2.1 (.inl (mem_bytes_of_le hx (by omega) (by omega)))

theorem headers_eq :
    headers c.n (enclaveArg m c.enclaveArgs) m = headers c.n c.arg c.mem := by
  unfold headers
  rw [enclaveArg_eq hm (by omega), enclaveArg_eq hm (by omega), enclaveArg_eq hm (by omega)]
  split_ifs with h1 h2 h3 hmsg
  · rfl
  · rfl
  · rfl
  · have hread : ∀ o, o + 8 ≤ 56 → read m (c.arg 1 + o) 8 = read c.mem (c.arg 1 + o) 8 := fun o ho =>
      hm.read_eq fun x hx hs => hs.2.1 (.inr ⟨⟨c.arg 1, 56⟩, by rw [headers_message hmsg]; simp,
        mem_bytes_of_le hx (by omega) (by omega)⟩)
    rw [hread 16 (by omega), hread 24 (by omega)]
  · rfl

theorem read_request_eq {o w : ℕ} (ho : o + w ≤ requestSize) :
    read m (c.req + o) w = read c.mem (c.req + o) w :=
  hm.read_eq fun x hx hs =>
    c.request_unsafe x (mem_bytes_of_le hx (by omega) (by omega)) hs.1

theorem syscallNum_withMem : syscallNum m c.req = c.n :=
  (read_request_eq hm (by decide)).trans c.syscallNum_eq

theorem argsNum_withMem : argsNum m c.req = c.types.length :=
  (read_request_eq hm (by decide)).trans c.argsNum_eq

theorem typesAt_withMem (i : ℕ) (t : ArgType)
    (ht : c.types[i]? = some t) : typesAt m c.req i = t.code := by
  obtain ⟨hi, -⟩ := List.getElem?_eq_some_iff.1 ht
  have hlen := c.types_length_le
  rw [← c.types_eq i t ht, typesAt, typesAt, Nat.add_assoc]
  exact read_request_eq hm (by rw [requestSize]; omega)

theorem argAt_withMem (i : ℕ) (hi : i < c.types.length) :
    argAt m c.req i = enclaveArg m c.enclaveArgs i := by
  have hlen := c.types_length_le
  rw [enclaveArg_eq hm (by omega), ← c.arg_eq i hi, argAt, argAt, Nat.add_assoc]
  exact read_request_eq hm (by rw [requestSize]; omega)

theorem headers_enclave_withMem :
    ∀ b ∈ headers c.n (enclaveArg m c.enclaveArgs) m, b.bytes ⊆ bytes ⟨c.base, enclaveLen⟩ := by
  rw [headers_eq hm]
  exact c.headers_enclave

theorem headers_apart_withMem :
    ∀ b ∈ headers c.n (enclaveArg m c.enclaveArgs) m,
      ∀ x ∈ bytes ⟨c.enclaveArgs, 48⟩, x ∉ b.bytes := by
  rw [headers_eq hm]
  exact c.headers_apart

theorem fresh_withMem :
    Fresh (bytes ⟨c.base, enclaveLen⟩ ∪ bytes ⟨c.req, requestSize⟩)
      (fillArgs c.alloc m c.req c.n c.types (enclaveArg m c.enclaveArgs)).blocks := by
  have hsame := same_fillTo (tracked_visible c) (hm.mono Set.subset_union_left) c.types.length
  rw [fillArgs, hsame.blocks]
  exact c.fresh

end

theorem interpretSyscall_eq (c : Invocation) : interpretSyscall c.n = some c.types := c.supported

theorem request_notMem (c : Invocation) :
    ∀ x ∈ bytes ⟨c.req, requestSize⟩, x ∉ bytes ⟨c.base, enclaveLen⟩ := c.request_unsafe

/-- The same call on another memory. -/
def Invocation.withMem (c : Invocation) (m : Mem) (hm : AgreeOff c.secret c.mem m) : Invocation where
  n := c.n
  types := c.types
  arg := enclaveArg m c.enclaveArgs
  mem := m
  base := c.base
  req := c.req
  enclaveArgs := c.enclaveArgs
  arg_enclave := rfl
  alloc := c.alloc
  supported := interpretSyscall_eq c
  syscallNum_eq := syscallNum_withMem hm
  argsNum_eq := argsNum_withMem hm
  types_eq := typesAt_withMem hm
  arg_eq := argAt_withMem hm
  args_enclave := c.args_enclave
  request_unsafe := request_notMem c
  headers_enclave := headers_enclave_withMem hm
  headers_apart := headers_apart_withMem hm
  fresh := fresh_withMem hm

theorem twin_withMem (hm : AgreeOff c.secret c.mem m) : Twin c (c.withMem m hm) :=
  ⟨rfl, rfl, rfl, rfl, rfl, rfl, hm⟩

theorem confidential_of_uncopied (h : ∀ x ∈ c.secret, x ∉ c.copied) : Confidential c := by
  rintro c' ⟨hn, htypes, -, hreq, hargs, halloc, hm⟩ x hx
  have hsame := same_fillTo (tracked_secret h) hm c.types.length
  have hfill : c'.fill = fillUpTo c.alloc c'.mem c.req c.n c.types (enclaveArg c'.mem c.enclaveArgs)
      c.types.length := by
    rw [← hn, ← htypes, ← hreq, ← hargs, ← halloc, ← c'.arg_enclave]
    rfl
  rw [hfill]
  exact hsame.agree x fun hs => hx hs.1

/-- Calls with secret bytes are not `writev` or `sendmsg`. -/
theorem ne_of_mem_secret {x : ℕ} (hx : x ∈ c.secret) : c.n ≠ sysWritev ∧ c.n ≠ sysSendmsg := by
  have hcall : ∀ n ∈ [sysWritev, sysSendmsg], n ≠ sysRecvmsg ∧
      ∀ i, onlyWritten n i = false ∧ isPath n i = false := by
    intro n hn
    simp only [mem_cons, not_mem_nil, or_false] at hn
    rcases hn with rfl | rfl <;> exact ⟨by decide, fun i => ⟨rfl, rfl⟩⟩
  have hnot : c.n ∉ [sysWritev, sysSendmsg] := by
    intro hmem
    obtain ⟨hr, hbuf⟩ := hcall c.n hmem
    rcases hx.2.2 with ⟨i, hi, -⟩ | ⟨hn, -⟩ | ⟨i, hi, -⟩
    · rw [(hbuf i).1] at hi
      exact Bool.noConfusion hi
    · exact hr hn
    · rw [(hbuf i).2] at hi
      exact Bool.noConfusion hi
  simpa using hnot

section

variable (hm : AgreeOff c.secret c.mem m)

include hm

theorem same_withMem (i : ℕ) : Same c.visible (c.fillTo i) ((c.withMem m hm).fillTo i) :=
  same_fillTo (tracked_visible c) (hm.mono Set.subset_union_left) i

theorem size_withMem {i : ℕ} (hp : c.IsPointer i) :
    (c.withMem m hm).size i = c.size i := by
  have hsame := same_withMem hm i
  change getSize c.n c.types (enclaveArg m c.enclaveArgs) _ i = _
  generalize (c.withMem m hm).fillTo i = s at *
  exact getSize_congr hp (fun _ hj => enclaveArg_eq hm hj) fun x hx =>
    hsame.agree x ((tracked_visible c).headers x hx)

theorem block_withMem {i : ℕ} (hp : c.IsPointer i) :
    (c.withMem m hm).block i = c.block i := by
  rw [block, size_withMem hm hp, Fill.block, (same_withMem hm i).blocks]
  rfl

theorem exists_visible_argument {x i : ℕ} (hs : x ∈ c.secret)
    (hp : c.IsPointer i) (harg : c.arg i ≠ 0) (hx : x ∈ bytes ⟨c.arg i, c.size i⟩) :
    ∃ y, y ∉ c.enclave ∧ c.fill.mem y = c.mem x ∧ (c.withMem m hm).fill.mem y = m x := by
  obtain ⟨hw, hsend⟩ := ne_of_mem_secret hs
  have hr : c.n ≠ sysRecvmsg := by
    intro hr
    have hmsg : c.IsMessage := .inl hr
    obtain rfl := eq_one_of_isPointer hmsg.types hp
    rw [hmsg.size] at hx
    exact hs.2.1 (.inr ⟨_, by rw [headers_message hmsg]; simp, hx⟩)
  obtain ⟨h1, h2⟩ := mem_bytes.1 hx
  obtain ⟨o, rfl⟩ := Nat.exists_eq_add_of_le h1
  have ho : o < c.size i := by omega
  have hflat : c.Flat := ⟨hw, hr, hsend⟩
  refine ⟨(c.block i).start + o, fun hy => ?_, content_fill hflat hp harg ho hs.1, ?_⟩
  · exact block_apart hp (add_mem_bytes ho) (.inl hy)
  · have harg' : (c.withMem m hm).arg i = c.arg i := enclaveArg_eq hm hp.lt_six
    have hcontent := content_fill (c := (c.withMem m hm).toMarshalling) hflat hp
      (by rw [harg']; exact harg) (by rw [size_withMem hm hp]; exact ho) (by rw [harg']; exact hs.1)
    rw [block_withMem hm hp, harg'] at hcontent
    exact hcontent

/-- A secret byte of a message that is copied is in unsafe memory. -/
theorem exists_visible_nested {x : ℕ} (hs : x ∈ c.secret)
    (hx : x ∈ covered (nestedSpans c.mem c.n (c.arg 1) (c.arg 2))) :
    ∃ y, y ∉ c.enclave ∧ c.fill.mem y = c.mem x ∧ (c.withMem m hm).fill.mem y = m x := by
  obtain ⟨hw, -⟩ := ne_of_mem_secret hs
  obtain ⟨sp, hsp, hmem⟩ := hx
  have hmsg : c.n = sysRecvmsg ∨ c.n = sysSendmsg := by
    by_contra hmsg
    rw [nestedSpans, if_neg hw, if_neg hmsg] at hsp
    exact not_mem_nil hsp
  obtain ⟨j, hj⟩ := getElem?_of_mem hsp
  have hne : j ≠ 1 := by
    rintro rfl
    have hlt := header_len_lt (array_mem_headers hmsg)
    rw [nestedSpans_message hmsg, headerSpans, cons_append, cons_append,
      getElem?_cons_succ, getElem?_cons_zero, intToSize_of_lt (by omega), Nat.mul_comm] at hj
    rw [← Option.some.inj hj] at hmem
    exact hs.2.1 (.inr ⟨_, array_mem_headers hmsg, hmem⟩)
  obtain ⟨o, hxo⟩ := Nat.exists_eq_add_of_le hmem.1
  have ho : o < sp.len := by
    have := hmem.2
    omega
  obtain ⟨-, b, hb, -, hlen, hcontent⟩ := fill_nested hmsg hj hne
  have hspans : nestedSpans m c.n ((c.withMem m hm).arg 1) (c.arg 2) =
      nestedSpans c.mem c.n (c.arg 1) (c.arg 2) := by
    rw [show (c.withMem m hm).arg 1 = c.arg 1 from enclaveArg_eq hm (by omega)]
    exact nestedSpans_congr hmsg (fun y hy => hm y fun hs => hs.2.1 (.inr hy)) _
  have hj' : (nestedSpans m c.n ((c.withMem m hm).arg 1) (c.arg 2))[j]? = some sp := by
    rw [hspans]
    exact hj
  obtain ⟨-, b', hb', -, -, hcontent'⟩ := fill_nested (c := c.withMem m hm) hmsg hj' hne
  have hblocks : (c.withMem m hm).fill.blocks = c.fill.blocks := (same_withMem hm c.types.length).blocks
  obtain rfl : b' = b := by
    rw [hblocks, hb] at hb'
    exact (Option.some.inj hb').symm
  rw [hxo] at hs ⊢
  refine ⟨b'.start + o, fun hy => ?_, hcontent o ho hs.1, hcontent' o ho hs.1⟩
  exact c.fresh.apart b' (mem_of_getElem? hb) _
    (add_mem_bytes (hlen ▸ ho)) (.inl hy)

end

/-- A call that copies a secret byte is not confidential. -/
theorem not_confidential_of_copied {x : ℕ} (hs : x ∈ c.secret) (hx : x ∈ c.copied) : ¬ Confidential c := by
  intro h
  -- the other run has the byte changed
  have hm : AgreeOff c.secret c.mem (update c.mem x (c.mem x + 1)) := by
    intro y hy
    refine update_of_ne ?_ ..
    rintro rfl
    exact hy hs
  obtain ⟨y, hy, h1, h2⟩ : ∃ y, y ∉ c.enclave ∧ c.fill.mem y = c.mem x ∧
      (c.withMem _ hm).fill.mem y = update c.mem x (c.mem x + 1) x := by
    rcases hx with ⟨i, hp, harg, hin⟩ | hin
    · exact exists_visible_argument hm hs hp harg hin
    · exact exists_visible_nested hm hs hin
  have hsame := h _ (twin_withMem hm) y hy
  rw [h1, h2, update_self] at hsame
  simp at hsame

/-- **Confidential calls** are those that copy no secret byte. -/
theorem confidential_iff (c : Invocation) : Confidential c ↔ ∀ x ∈ c.secret, x ∉ c.copied :=
  ⟨fun h _ hs hx => not_confidential_of_copied hs hx h, confidential_of_uncopied⟩

/-- The old contents of the buffer of a `recvfrom` are visible to the host. -/
theorem recvfrom_leaks_buffer : ¬ Confidential recvfromData := by
  have harg : recvfromData.arg 1 = 0x1100 := by decide +kernel
  have hlen : outputLength recvfromData.n recvfromData.types recvfromData.arg recvfromData.mem 1 = 4 := by
    decide +kernel
  have hsize : recvfromData.size 1 = 4 := by decide +kernel
  refine not_confidential_of_copied (x := 0x1100) ⟨mem_bytes.2 ?_, ?_, .inl ⟨1, by decide, ?_⟩⟩
    (.inl ⟨1, by decide, by rw [harg]; decide, ?_⟩)
  · change 0x1000 ≤ 0x1100 ∧ 0x1100 < 0x1000 + 2 ^ 31
    omega
  · rintro (hx | ⟨b, hb, hx⟩)
    · change 0x1000 ≤ 0x1100 ∧ 0x1100 < 0x1000 + 48 at hx
      omega
    · change b ∈ headers sysRecvfrom (enclaveArg recvfromMem 0x1000) recvfromMem at hb
      rw [headers_recvfromMem, mem_singleton] at hb
      rw [hb, mem_bytes] at hx
      omega
  · rw [harg, hlen, mem_bytes]
    omega
  · rw [harg, hsize, mem_bytes]
    omega

end Confidential

end Syscall

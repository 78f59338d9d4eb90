/-
**Messages.**

`recvmsg` is the one call whose outputs are reached through pointers: the header leads to the name, to the
control data and to an array of segments.  `fillArgs` copies all of them, and `writeBack` copies the buffers
and the lengths of the segments back, but nothing of the header itself, where the kernel leaves the lengths
of the name and of the control data and the flags of the message.

Main definition: `MessageCopied`.  Main results: `messageCopied`, `complete_iff_writtenBack`.
-/

import SgxElps.Syscall.Complete

namespace Syscall

open Bytes
open Span
open List
open Prepared Marshalling

variable {c : Invocation} {extra : ℕ → ℕ → ℕ} {i : ℕ}

/-! ### The copy of a message -/

/-- The copy of a message: `b` is the block of the `iovec` array. -/
structure MessageCopied (c : Invocation) (b : Span) : Prop where
  mem_blocks : b ∈ c.fill.blocks
  new : ∀ x ∈ (c.block 1).bytes, x ∉ b.bytes
  len_eq : b.len = 16 * read c.mem (c.arg 1 + 24) 8
  pointer : read c.fill.mem ((c.block 1).start + 16) 8 = b.start
  iovlen : read c.fill.mem ((c.block 1).start + 24) 8 = read c.mem (c.arg 1 + 24) 8
  lengths : ∀ k < read c.mem (c.arg 1 + 24) 8, read c.fill.mem (b.start + 16 * k + 8) 8 =
    read c.mem (read c.mem (c.arg 1 + 16) 8 + 16 * k + 8) 8

/-- **What `fillArgs` leaves of a message.** -/
theorem messageCopied (hmsg : c.IsMessage) (harg : c.arg 1 ≠ 0) : ∃ b, MessageCopied c b := by
  have hlen := c.followed.message_len hmsg
  have hlt : 16 * iovlenOf c.mem (c.arg 1) < 2 ^ 31 := header_len_lt (array_mem_headers hmsg)
  obtain ⟨b₁, b₂, b₃, hpre, -, hlen2, -⟩ := message_lengths hmsg (c.followed.header hmsg)
  have hfilled := messageFilled hmsg (c.followed.header hmsg) (c.followed.array hmsg) hlen
  obtain ⟨b, hb, hpointer⟩ := hfilled.array
  obtain rfl : b₂ = b := Option.some_inj.1 ((getElem?_of_le hpre rfl).symm.trans hb)
  refine ⟨b₂, mem_of_getElem? hb, fun x hx => ?_, ?_, hpointer, ?_, fun k hk => ?_⟩
  · have hfirst : c.fill.blocks[0]? = some (c.block 1) := getElem?_of_le hpre rfl
    exact Set.disjoint_left.1 (c.fresh.disjoint_of_ne hfirst hb (by decide)) hx
  · rw [hlen2, intToSize_of_lt (by omega), Nat.mul_comm]
    rfl
  · refine read_eq_of_shift fun j hj => ?_
    rw [Nat.add_assoc, hfilled.rest harg _ (by omega), Nat.add_assoc]
    intro p hp
    simp only [mem_cons, not_mem_nil, or_false] at hp
    omega
  · rw [← hpointer]
    exact hfilled.vector.length k hk

/-! ### `recvmsg` -/

section Recvmsg

variable (hn : c.n = sysRecvmsg)

include hn

theorem buffers_recvmsg : c.buffers extra =
    ⟨c.arg 1, 56⟩ :: ⟨read c.mem (c.arg 1 + 16) 8, 16 * read c.mem (c.arg 1 + 24) 8⟩ ::
      messageSpans c.mem (c.arg 1) :=
  if_pos hn

theorem mem_messageSpans {b : Span} (hb : b ∈ outputSpans c.n c.types c.arg c.mem) :
    b ∈ messageSpans c.mem (c.arg 1) := by
  have hone : ∀ i < 3, isOutput sysRecvmsg i = true → i = 1 := by decide
  obtain ⟨i, hi, hb⟩ := mem_flatMap.1 hb
  rw [IsMessage.types (.inl hn), mem_range] at hi
  split at hb
  · rename_i hout
    rw [hn] at hout
    obtain rfl := hone i hi hout
    exact hb
  · exact absurd hb (not_mem_nil)

theorem Valid.covered_enclave (hv : Valid extra c) :
    covered (outputSpans c.n c.types c.arg c.mem) ⊆ c.enclave := by
  rintro x ⟨b, hb, hx⟩
  refine hv.inside b ?_ hx
  rw [buffers_recvmsg hn]
  exact mem_cons_of_mem _ (mem_cons_of_mem _ (mem_messageSpans hn hb))

/-- The arguments, the header and the array are apart from the output buffers. -/
theorem Valid.notMem_covered (hv : Valid extra c) {s : Span}
    (hs : s = ⟨c.enclaveArgs, 48⟩ ∨ s = ⟨c.arg 1, 56⟩ ∨
      s = ⟨read c.mem (c.arg 1 + 16) 8, 16 * read c.mem (c.arg 1 + 24) 8⟩) :
    ∀ x ∈ s.bytes, x ∉ covered (outputSpans c.n c.types c.arg c.mem) := by
  rintro x hx ⟨b, hb, hxb⟩
  have hap := hv.apart
  rw [buffers_recvmsg hn] at hap
  obtain ⟨h1, hap⟩ := Separated.cons_iff.1 hap
  obtain ⟨h2, hap⟩ := Separated.cons_iff.1 hap
  obtain ⟨h3, -⟩ := Separated.cons_iff.1 hap
  have hb := mem_messageSpans hn hb
  rcases hs with rfl | rfl | rfl
  · exact Set.disjoint_left.1 (h1 b (mem_cons_of_mem _ (mem_cons_of_mem _ hb))) hx hxb
  · exact Set.disjoint_left.1 (h2 b (mem_cons_of_mem _ hb)) hx hxb
  · exact Set.disjoint_left.1 (h3 b hb) hx hxb

theorem Valid.message_len_lt (hv : Valid extra c) {b : Span} (hb : b ∈ messageSpans c.mem (c.arg 1)) :
    b.len < 2 ^ 31 := by
  have hmem : b ∈ c.buffers extra := by
    rw [buffers_recvmsg hn]
    exact mem_cons_of_mem _ (mem_cons_of_mem _ hb)
  exact len_lt_of_apart (hv.inside b hmem) fun x hx =>
    Set.disjoint_left.1 ((Separated.cons_iff.1 hv.apart).1 b hmem) hx

end Recvmsg

/-- The call when it is pushed. -/
def pushed (c : Invocation) (hn : c.n = sysRecvmsg) (hv : Valid extra c) : Call where
  n := c.n
  types := c.types
  mem := c.mem
  enclave := c.enclave
  req := c.req
  enclaveArgs := c.enclaveArgs
  supported := c.supported
  request_unsafe := c.request_unsafe
  args_enclave := c.args_enclave
  args_fresh := by
    rw [← c.arg_enclave]
    exact hv.notMem_covered hn (.inl rfl)
  request_fresh := by
    rw [← c.arg_enclave]
    exact fun x hx hout => c.request_unsafe x hx (hv.covered_enclave hn hout)

theorem arg_pushed (hn : c.n = sysRecvmsg) (hv : Valid extra c) : (pushed c hn hv).arg = c.arg :=
  c.arg_enclave.symm

theorem outputs_pushed (hn : c.n = sysRecvmsg) (hv : Valid extra c) :
    (pushed c hn hv).outputs = covered (outputSpans c.n c.types c.arg c.mem) := by
  rw [Call.outputs, arg_pushed]
  rfl

section Recvmsg

variable {m : Mem}

theorem kept_pushed (hn : c.n = sysRecvmsg) (hv : Valid extra c)
    (hin : ∀ x ∈ c.enclave ∪ c.request, m x = c.fill.mem x) : Kept (pushed c hn hv) m := by
  have hlen := c.types_length_le
  have hread : ∀ o w, o + w ≤ requestSize → read m (c.req + o) w = read c.fill.mem (c.req + o) w :=
    fun o w ho => read_congr fun x h1 h2 => hin x (.inr (mem_bytes.2 (by omega)))
  have hformat : ∀ o w, o + w ≤ 92 → read m (c.req + o) w = read c.mem (c.req + o) w := fun o w ho =>
    (hread o w (by rw [requestSize]; omega)).trans (format_fill c.intact (by omega) (by omega))
  refine ⟨(hformat 56 4 (by omega)).trans c.syscallNum_eq, (hformat 64 4 (by omega)).trans c.argsNum_eq,
    fun i t ht => ?_, fun i t ht hne => ?_⟩
  · obtain ⟨hi, -⟩ := List.getElem?_eq_some_iff.1 ht
    change i < c.types.length at hi
    have htype := hformat (68 + 4 * i) 4 (by omega)
    rw [← Nat.add_assoc] at htype
    exact htype.trans (c.types_eq i t ht)
  · have hi : c.IsPointer i := by
      rw [IsPointer, show c.types[i]? = some t from ht]
      exact hne
    have hlt := hi.lt
    have hsize := hread (92 + 4 * i) 4 (by rw [requestSize]; omega)
    rw [← Nat.add_assoc] at hsize
    rw [arg_pushed]
    exact hsize.trans ((sizesAt_fill c.intact hi).trans (size_eq_getSize hi))

theorem messageKept_pushed (hn : c.n = sysRecvmsg) (hv : Valid extra c)
    (hm : ∀ x, x ≠ (c.block 1).start + 48 → m x = c.fill.mem x) :
    MessageKept (pushed c hn hv) m (c.block 1).start (c.arg 1) := by
  have hmsg : c.IsMessage := .inl hn
  have hp := hmsg.isPointer
  have hsize : (c.block 1).len = 56 := hmsg.size
  obtain ⟨b, hb⟩ := messageCopied hmsg (hv.nonNull 1 hp)
  -- blocks are not in the enclave, where the buffers are
  have hout := outputs_pushed hn hv
  have hapart : ∀ d ∈ c.fill.blocks, ∀ x ∈ d.bytes, x ∉ (pushed c hn hv).outputs := by
    rw [hout]
    exact fun d hd x hx hout => c.fresh.apart d hd x hx (.inl (hv.covered_enclave hn hout))
  have hflags : (c.block 1).start + 48 ∈ (c.block 1).bytes :=
    add_mem_bytes (by omega)
  have hheader : ∀ o w, o + w ≤ 48 →
      read m ((c.block 1).start + o) w = read c.fill.mem ((c.block 1).start + o) w := fun o w ho =>
    read_congr fun x h1 h2 => hm x (by omega)
  have harray : ∀ x ∈ b.bytes, m x = c.fill.mem x := fun x hx =>
    hm x fun heq => hb.new _ hflags (heq ▸ hx)
  have hname : ⟨read c.mem (c.arg 1) 8, read c.mem (c.arg 1 + 8) 4⟩ ∈
      messageSpans c.mem (c.arg 1) := mem_cons_self ..
  have hnamelen := hv.message_len_lt hn hname
  have hcontrol : ⟨read c.mem (c.arg 1 + 32) 8, read c.mem (c.arg 1 + 40) 8⟩ ∈
      messageSpans c.mem (c.arg 1) := mem_cons_of_mem _ (mem_cons_self ..)
  have hcontrollen := hv.message_len_lt hn hcontrol
  exact {
    header_enclave := header_message_subset hmsg
    header_apart := hout ▸ hv.notMem_covered hn (.inr (.inl rfl))
    iov_enclave := header_subset (array_mem_headers hmsg)
    iov_apart := hout ▸ hv.notMem_covered hn (.inr (.inr rfl))
    namelen_lt := hnamelen
    controllen_lt := hcontrollen
    iov_len_lt := fun k hk => hv.message_len_lt hn (mem_cons_of_mem _ (mem_cons_of_mem _
      (mem_map.2 ⟨k, mem_range.2 hk, rfl⟩)))
    src_apart := by
      rw [← hsize]
      exact hapart _ (block_mem_fill hp)
    iovlen_eq := (hheader 24 8 (by omega)).trans hb.iovlen
    iovlen_lt := by
      have hlt := header_len_lt (array_mem_headers hmsg)
      change read c.mem (c.arg 1 + 24) 8 < _
      omega
    srcIov_apart := by
      rw [hheader 16 8 (by omega), hb.pointer]
      change ∀ a ∈ bytes ⟨b.start, 16 * read c.mem (c.arg 1 + 24) 8⟩, _
      rw [← hb.len_eq]
      exact hapart b hb.mem_blocks
    srcIov_len := fun k hk => by
      change k < read c.mem (c.arg 1 + 24) 8 at hk
      have hlen := hb.len_eq
      rw [hheader 16 8 (by omega), hb.pointer]
      refine Eq.trans (read_congr fun x h1 h2 => harray x ?_) (hb.lengths k hk)
      exact show x ∈ bytes ⟨b.start, b.len⟩ from mem_bytes.2 (by omega) }

/-- If of the copies only the first byte of `msg_flags` has changed, `fillEnclave` writes into the buffers of
the message only. -/
theorem frame_recvmsg (hn : c.n = sysRecvmsg) (hv : Valid extra c)
    (hm : ∀ x, x ≠ (c.block 1).start + 48 → m x = c.fill.mem x)
    (hin : ∀ x ∈ c.enclave ∪ c.request, m x = c.fill.mem x) : Frame (pushed c hn hv) m := by
  have hp := IsMessage.isPointer (.inl hn)
  have hsrc : argAt m c.req 1 = (c.block 1).start := by
    rw [← argAt_fill_of_pointer hp]
    exact read_congr fun x h1 h2 => hin x (.inr (mem_bytes.2 (by rw [requestSize]; omega)))
  refine frame_of_kept (fun x hx => (hin x (.inl hx)).trans (fill_kept c.intact x hx)) (kept_pushed hn hv hin)
    fun _ => ?_
  change MessageKept _ _ (argAt m c.req 1) _
  rw [hsrc, arg_pushed]
  exact messageKept_pushed hn hv hm

/-- **`recvmsg` is not complete**: the flags are lost. -/
theorem not_complete_recvmsg (hn : c.n = sysRecvmsg) (hv : Valid extra c) : ¬ Complete extra c := by
  intro hcomplete
  have hmsg : c.IsMessage := .inl hn
  have hp := hmsg.isPointer
  have hsize := hmsg.size
  have hin : c.arg 1 + 48 ∈ bytes ⟨c.arg 1, 56⟩ := mem_bytes.2 (by omega)
  have ha : c.arg 1 + 48 ∈ c.enclave := header_message_subset hmsg hin
  have hflags : (c.block 1).start + 48 ∉ c.enclave ∪ c.request :=
    block_apart hp (add_mem_bytes (by rw [show (c.block 1).len = 56 from hsize]; omega))
  -- the kernel changes the first byte of the flags
  obtain ⟨v, hv'⟩ : ∃ v, v ≠ c.mem (c.arg 1 + 48) := ⟨c.mem (c.arg 1 + 48) + 1, by simp⟩
  let new : ℕ → ℕ → Option UInt8 := fun j o => if j = 2 ∧ o = 0 then some v else none
  have hm : ∀ x, x ≠ (c.block 1).start + 48 → c.hosted extra new x = c.fill.mem x := by
    intro x hx
    rw [Invocation.hosted]
    split
    · rfl
    · rw [outputs, if_pos hn]
      refine overwrite_of_none fun k b hk hxb => if_neg ?_
      rintro ⟨rfl, ho⟩
      obtain rfl : b = ⟨argAt c.fill.mem c.req 1 + 48, 4⟩ := (Option.some.inj hk).symm
      rw [argAt_fill_of_pointer hp, mem_bytes] at hxb
      rw [argAt_fill_of_pointer hp] at ho
      dsimp only at ho
      omega
  have hframe : Frame (pushed c hn hv) (c.hosted extra new) := frame_recvmsg hn hv hm fun x hx =>
    hm x fun heq => hflags (heq ▸ hx)
  have hleft : (fillEnclave (c.hosted extra new) c.req c.enclaveArgs).mem (c.arg 1 + 48) =
      c.mem (c.arg 1 + 48) := by
    refine (hframe _ ha (outputs_pushed hn hv ▸ hv.notMem_covered hn (.inr (.inl rfl)) _ hin)).trans ?_
    rw [hm _ fun heq => hflags (.inl (heq ▸ ha)), fill_kept c.intact _ ha]
  have hdirect : c.direct extra new (c.arg 1 + 48) = v := by
    rw [Invocation.direct, outputs, if_pos hn]
    rw [overwrite_cons_of_notMem (by rw [mem_bytes]; omega),
      overwrite_cons_of_notMem (by rw [mem_bytes]; omega),
      overwrite_cons_of_mem (mem_bytes.2 (by omega))]
    simp [new]
  exact hv' (hdirect.symm.trans ((hcomplete new _ ha).symm.trans hleft))

end Recvmsg

/-! ### The calls that are complete -/

theorem not_complete_of_lost {n : ℕ} {types : List ArgType} (hv : Valid extra c) (h : c.n = n)
    (ht : interpretSyscall n = some types) (hn : n ≠ sysRecvmsg) (hi : i < types.length)
    (hpos : ∀ arg mem, 0 < outputBytes extra n types arg mem i)
    (hsize : ∀ arg mem, 0 < getSize n types arg mem i) (hback : needWriteBack n i = false) :
    ¬ Complete extra c := by
  have htypes := types_of_eq h ht
  refine not_complete_of_not_isBack hv (h ▸ hn) (by rwa [htypes]) (by rw [htypes, h]; exact hpos _ _)
    (by rw [h]; exact hback) fun _ => ?_
  rw [size, htypes, h]
  exact hsize _ _

theorem not_complete_recvfrom (hv : Valid extra c) (h : c.n = sysRecvfrom) (harg : c.arg 2 ≠ 0) :
    ¬ Complete extra c := by
  have hn : c.n ≠ sysRecvmsg := by rw [h]; decide
  have htypes : c.types = [.nonPtr, .charPtr, .nonPtr, .nonPtr, .sokaddrPtr, .intPtr] :=
    types_of_eq h rfl
  have hi : 1 < c.types.length := by rw [htypes]; decide
  have hout : outputBytes extra c.n c.types c.arg c.mem 1 = c.arg 2 := by
    rw [h]
    rfl
  have hlt := len_lt_of_apart (hv.output_subset hn hi) (hv.output_args hn hi)
  rw [Invocation.output, hout] at hlt
  dsimp only at hlt
  have hsize : c.size 1 = c.arg 2 % 2 ^ 32 := by
    rw [size, h]
    rfl
  refine not_complete_of_not_isBack hv hn hi (by omega) (by rw [h]; rfl) fun _ => ?_
  rw [hsize, Nat.mod_eq_of_lt (by omega)]
  omega

theorem not_complete_ioctl (hv : Valid extra c) (h : c.n = sysIoctl ∨ c.n = sysFcntl)
    (hextra : extra c.n (c.arg 1) ≠ 0) : ¬ Complete extra c := by
  have hn : c.n ≠ sysRecvmsg := by rcases h with h | h <;> rw [h] <;> decide
  have htypes : c.types = [.nonPtr, .nonPtr, .nonPtr] := by
    rcases h with h | h <;> exact types_of_eq h rfl
  have hout : outputBytes extra c.n c.types c.arg c.mem 2 = extra c.n (c.arg 1) := by
    rw [outputBytes, if_pos h, if_pos rfl]
  refine not_complete_of_not_isBack hv hn (i := 2) (by rw [htypes]; decide) (by omega) ?_ ?_
  · rcases h with h | h <;> rw [h] <;> rfl
  · rw [IsPointer, htypes]
    exact fun h => absurd rfl h

theorem isBack_of_writtenBack (h : WrittenBack extra c) (hi : i < c.types.length)
    (hpos : outputBytes extra c.n c.types c.arg c.mem i ≠ 0) : c.IsBack i := by
  obtain ⟨⟨-, haccept4, hfstat, huname, hgetrusage, hgettimeofday⟩, hrecvfrom, hioctl⟩ := h
  refine ⟨hi, ?_⟩
  rw [outputBytes] at hpos
  split at hpos
  · rename_i hio
    split at hpos
    · exact absurd (hioctl hio) hpos
    · exact absurd rfl hpos
  · split at hpos
    · rename_i hout
      simp only [isOutput, Bool.or_eq_true, Bool.and_eq_true, decide_eq_true_eq] at hout
      rcases hout with (((((hout | ⟨hn, rfl⟩) | ⟨hn, -⟩) | ⟨hn, -⟩) | ⟨hn, -⟩) | hn) | ⟨hn, -⟩
      · exact hout
      · rw [outputLength, if_pos (.inr ⟨hn, rfl⟩)] at hpos
        exact absurd (hrecvfrom hn) hpos
      · exact absurd hn haccept4
      · exact absurd hn huname
      · exact absurd hn hgetrusage
      · exact absurd hn hgettimeofday
      · exact absurd hn hfstat
    · exact absurd rfl hpos

/-- **The calls that are complete**: those of which every output is written back. -/
theorem complete_iff_writtenBack (extra : ℕ → ℕ → ℕ) (c : Invocation) (hv : Valid extra c) :
    Complete extra c ↔ WrittenBack extra c := by
  constructor
  · intro hc
    refine ⟨⟨fun h => ?_, fun h => ?_, fun h => ?_, fun h => ?_, fun h => ?_, fun h => ?_⟩,
      fun h => ?_, fun h => ?_⟩
    · exact not_complete_recvmsg h hv hc
    · exact not_complete_of_lost hv h rfl (by decide) (i := 2) (by decide) (fun _ _ => Nat.succ_pos 3)
        (fun _ _ => Nat.succ_pos 3) rfl hc
    · exact not_complete_of_lost hv h rfl (by decide) (i := 1) (by decide) (fun _ _ => Nat.succ_pos 143)
        (fun _ _ => Nat.succ_pos 143) rfl hc
    · exact not_complete_of_lost hv h rfl (by decide) (i := 0) (by decide) (fun _ _ => Nat.succ_pos 389)
        (fun _ _ => Nat.succ_pos 324) rfl hc
    · exact not_complete_of_lost hv h rfl (by decide) (i := 1) (by decide) (fun _ _ => Nat.succ_pos 143)
        (fun _ _ => Nat.succ_pos 143) rfl hc
    · exact not_complete_of_lost hv h rfl (by decide) (i := 0) (by decide) (fun _ _ => Nat.succ_pos 15)
        (fun _ _ => Nat.succ_pos 15) rfl hc
    · by_contra harg
      exact not_complete_recvfrom hv h harg hc
    · by_contra hextra
      exact not_complete_ioctl hv h hextra hc
  · intro h
    exact complete_of_isBack hv h.1.1 fun i hi hpos => isBack_of_writtenBack h hi hpos

/-! ### A call of `recvfrom` -/

/-- The memory of a call of `recvfrom(3, 0x1100, 4, 0, 0x1200, 0x1300)`: the arguments are at `0x1000`, the
request is at `0x100`, and the address length is 16. -/
def recvfromMem : Mem :=
  let format := write (write (write (write (write (fun _ => 0) 0x138 4 sysRecvfrom) 0x140 4 6) 0x148 4 1)
    0x154 4 7) 0x158 4 4
  let put : Mem → ℕ → ℕ → Mem := fun m i v =>
    write (write m (0x178 + 16 * i) 8 v) (0x1000 + 8 * i) 8 v
  write (put (put (put (put (put format 0 3) 1 0x1100) 2 4) 4 0x1200) 5 0x1300) 0x1300 4 16

def recvfromTypes : List ArgType := [.nonPtr, .charPtr, .nonPtr, .nonPtr, .sokaddrPtr, .intPtr]

/-- Blocks are handed out one page after the other, above the enclave. -/
def pages : Alloc := fun l _ => 2 ^ 32 + 0x1000 * l.length

theorem blocks_recvfromMem :
    (fillArgs pages recvfromMem 0x100 sysRecvfrom recvfromTypes (enclaveArg recvfromMem 0x1000)).blocks =
      [⟨2 ^ 32, 4⟩, ⟨2 ^ 32 + 0x1000, 16⟩, ⟨2 ^ 32 + 0x2000, 4⟩] := by decide +kernel

theorem headers_recvfromMem :
    headers sysRecvfrom (enclaveArg recvfromMem 0x1000) recvfromMem = [⟨0x1300, 4⟩] := by decide +kernel

theorem fresh_recvfromMem :
    Fresh (bytes ⟨0x1000, enclaveLen⟩ ∪ bytes ⟨0x100, requestSize⟩)
      (fillArgs pages recvfromMem 0x100 sysRecvfrom recvfromTypes
        (enclaveArg recvfromMem 0x1000)).blocks := by
  rw [blocks_recvfromMem]
  refine ⟨Separated.of_ends (by decide), fun b hb x hx => ?_, by decide⟩
  have hlow : ∀ b ∈ [(⟨2 ^ 32, 4⟩ : Span), ⟨2 ^ 32 + 0x1000, 16⟩, ⟨2 ^ 32 + 0x2000, 4⟩],
      2 ^ 32 ≤ b.start := by decide
  have hx : 2 ^ 32 ≤ x := (hlow b hb).trans hx.1
  rw [Set.mem_union, mem_bytes, mem_bytes, enclaveLen, requestSize]
  omega

theorem headers_enclave_recvfromMem :
    ∀ b ∈ headers sysRecvfrom (enclaveArg recvfromMem 0x1000) recvfromMem,
      b.bytes ⊆ bytes ⟨0x1000, enclaveLen⟩ := by
  intro b hb x hx
  rw [headers_recvfromMem, mem_singleton] at hb
  subst hb
  rw [mem_bytes, enclaveLen] at *
  omega

theorem headers_apart_recvfromMem :
    ∀ b ∈ headers sysRecvfrom (enclaveArg recvfromMem 0x1000) recvfromMem,
      ∀ x ∈ bytes ⟨0x1000, 48⟩, x ∉ b.bytes := by
  intro b hb x hx
  rw [headers_recvfromMem, mem_singleton] at hb
  subst hb
  rw [mem_bytes] at *
  omega

theorem args_enclave_recvfromMem :
    bytes ⟨0x1000, 48⟩ ⊆ bytes ⟨0x1000, enclaveLen⟩ := by
  intro x h
  rw [mem_bytes, enclaveLen] at *
  omega

/-- The call of `recvfrom` in an enclave that begins at `0x1000`. -/
def recvfromData : Invocation where
  n := sysRecvfrom
  types := recvfromTypes
  mem := recvfromMem
  base := 0x1000
  req := 0x100
  arg := enclaveArg recvfromMem 0x1000
  enclaveArgs := 0x1000
  arg_enclave := rfl
  alloc := pages
  supported := rfl
  syscallNum_eq := by decide +kernel
  argsNum_eq := by decide +kernel
  types_eq i t h := by
    have hall : ∀ i < 6, ∀ t, recvfromTypes[i]? = some t → typesAt recvfromMem 0x100 i = t.code := by
      decide +kernel
    obtain ⟨hi, -⟩ := List.getElem?_eq_some_iff.1 h
    exact hall i hi t h
  arg_eq := by decide +kernel
  args_enclave := args_enclave_recvfromMem
  request_unsafe := request_below_enclave
  headers_enclave := headers_enclave_recvfromMem
  headers_apart := headers_apart_recvfromMem
  fresh := fresh_recvfromMem

theorem recvfromData_valid : Valid (fun _ _ => 0) recvfromData := by
  have hout : recvfromData.buffers (fun _ _ => 0) =
      [⟨3, 0⟩, ⟨0x1100, 4⟩, ⟨4, 0⟩, ⟨0, 0⟩, ⟨0x1200, 16⟩, ⟨0x1300, 4⟩] := by decide +kernel
  refine ⟨fun i hi => ?_, ?_, ?_⟩
  · have hall : ∀ i < 6, recvfromTypes[i]?.getD .nonPtr ≠ .nonPtr → enclaveArg recvfromMem 0x1000 i ≠ 0 := by
      decide +kernel
    exact hall i hi.lt hi
  · rw [hout]
    intro b hb x hx
    have hends : ∀ b ∈ [(⟨3, 0⟩ : Span), ⟨0x1100, 4⟩, ⟨4, 0⟩, ⟨0, 0⟩, ⟨0x1200, 16⟩, ⟨0x1300, 4⟩],
        b.len = 0 ∨ 0x1000 ≤ b.start ∧ b.start + b.len ≤ 0x2000 := by decide
    have hb := hends b hb
    obtain ⟨h1, h2⟩ := hx
    exact mem_bytes.2 (by rw [enclaveLen]; change 0x1000 ≤ x ∧ x < 0x1000 + 2 ^ 31; omega)
  · rw [hout]
    exact Separated.of_ends (by decide)

/-- The data that `recvfrom` receives does not reach the enclave. -/
theorem recvfrom_loses_data : Valid (fun _ _ => 0) recvfromData ∧ ¬ Complete (fun _ _ => 0) recvfromData :=
  ⟨recvfromData_valid, not_complete_recvfrom recvfromData_valid rfl (by decide +kernel)⟩

theorem complete_iff_writtenBack_recvfromData : Valid (fun _ _ => 0) recvfromData ∧
    (Complete (fun _ _ => 0) recvfromData ↔ WrittenBack (fun _ _ => 0) recvfromData) :=
  ⟨recvfromData_valid, complete_iff_writtenBack _ _ recvfromData_valid⟩

end Syscall

/-
**Which calls bring all their results back.**

The kernel acts on the unsafe copies, and `fillEnclave` copies back what `needWriteBack` names.  A call is
complete if the enclave then holds what a direct call on the caller's own buffers would have left,
whatever the kernel writes into the output arguments that its definition allows.  The kernel cannot write
into the enclave.

For `ioctl` and `fcntl` the number of bytes written through the third argument depends on the request; it
is a parameter here.

Main definitions: `Complete`, `WrittenBack`.  Main result: `fillEnclave_wroteBack`.
-/

import SgxElps.Syscall.Frame
import SgxElps.Syscall.Invocation

namespace Syscall

open Bytes
open Span
open List
open Prepared Marshalling

/-! ### The kernel -/

def sysFstat : ℕ := 5
def sysIoctl : ℕ := 16
def sysUname : ℕ := 63
def sysFcntl : ℕ := 72
def sysGettimeofday : ℕ := 96
def sysGetrusage : ℕ := 98
def sysAccept4 : ℕ := 288

/-- The number of bytes the kernel may write through argument `i`; `extra` tells it for the requests of
`ioctl` and `fcntl`.  `uname` fills a `struct new_utsname`. -/
def outputBytes (extra : ℕ → ℕ → ℕ) (n : ℕ) (types : List ArgType) (arg : ℕ → ℕ) (mem : Mem)
    (i : ℕ) : ℕ :=
  if n = sysIoctl ∨ n = sysFcntl then if i = 2 then extra n (arg 1) else 0
  else if n = sysUname then if i = 0 then 390 else 0
  else if isOutput n i then outputLength n types arg mem i
  else 0

/-- Where the kernel may write.  For `recvmsg` these are `msg_namelen`, `msg_controllen` and `msg_flags` in
the header, and the buffers the header leads to. -/
def outputs (extra : ℕ → ℕ → ℕ) (n : ℕ) (types : List ArgType) (arg : ℕ → ℕ) (mem : Mem) : List Span :=
  if n = sysRecvmsg then
    ⟨arg 1 + 8, 4⟩ :: ⟨arg 1 + 40, 8⟩ :: ⟨arg 1 + 48, 4⟩ :: messageSpans mem (arg 1)
  else (range types.length).map fun i => ⟨arg i, outputBytes extra n types arg mem i⟩

namespace Invocation

variable (extra : ℕ → ℕ → ℕ) (c : Invocation)

/-- The memory after a direct call. -/
def direct (new : ℕ → ℕ → Option UInt8) : Mem :=
  overwrite (outputs extra c.n c.types c.arg c.mem) new c.mem

/-- The memory after the kernel has executed the request that `fillArgs` has built. -/
def hosted (new : ℕ → ℕ → Option UInt8) : Mem := fun x =>
  if c.base ≤ x ∧ x < c.base + enclaveLen then c.fill.mem x
  else overwrite (outputs extra c.n c.types (argAt c.fill.mem c.req) c.fill.mem) new c.fill.mem x

/-- The caller's buffers that the kernel writes or follows. -/
def buffers : List Span :=
  if c.n = sysRecvmsg then
    ⟨c.arg 1, 56⟩ :: ⟨read c.mem (c.arg 1 + 16) 8, 16 * read c.mem (c.arg 1 + 24) 8⟩ ::
      messageSpans c.mem (c.arg 1)
  else outputs extra c.n c.types c.arg c.mem

end Invocation

/-- The buffers are in the enclave and do not overlap. -/
structure Valid (extra : ℕ → ℕ → ℕ) (c : Invocation) : Prop where
  nonNull : ∀ i, c.IsPointer i → c.arg i ≠ 0
  inside : ∀ b ∈ c.buffers extra, b.bytes ⊆ c.enclave
  apart : Span.Separated (⟨c.enclaveArgs, 48⟩ :: c.buffers extra)

/-- After `fillEnclave` the enclave holds what a direct call would have left. -/
def Complete (extra : ℕ → ℕ → ℕ) (c : Invocation) : Prop :=
  ∀ new, ∀ a ∈ c.enclave,
    (fillEnclave (c.hosted extra new) c.req c.enclaveArgs).mem a = c.direct extra new a

/-- The calls whose results are all written back. -/
def WrittenBack (extra : ℕ → ℕ → ℕ) (c : Invocation) : Prop :=
  (c.n ≠ sysRecvmsg ∧ c.n ≠ sysAccept4 ∧ c.n ≠ sysFstat ∧ c.n ≠ sysUname ∧ c.n ≠ sysGetrusage ∧
    c.n ≠ sysGettimeofday) ∧
  (c.n = sysRecvfrom → c.arg 2 = 0) ∧
  (c.n = sysIoctl ∨ c.n = sysFcntl → extra c.n (c.arg 1) = 0)

variable {c : Invocation} {extra : ℕ → ℕ → ℕ} {i : ℕ}

/-! ### What `fillEnclave` does -/

namespace Invocation

/-- The argument is written back. -/
def IsBack (c : Invocation) (i : ℕ) : Prop := i < c.types.length ∧ needWriteBack c.n i = true

/-- The caller's buffer for the copy of argument `i`. -/
def target (c : Invocation) (i : ℕ) : Span := ⟨c.arg i, c.size i⟩

end Invocation

/-- The buffers that are written back are in the enclave and do not overlap. -/
structure BackApart (c : Invocation) : Prop where
  inside : ∀ i, c.IsBack i → (c.target i).bytes ⊆ c.enclave
  args : ∀ i, c.IsBack i → ∀ x ∈ bytes ⟨c.enclaveArgs, 48⟩, x ∉ (c.target i).bytes
  disjoint : ∀ i j, c.IsBack i → c.IsBack j → i ≠ j → ∀ x ∈ (c.target i).bytes, x ∉ (c.target j).bytes

/-- The memory `m'` after the first `k` arguments have been written back from `m`. -/
structure WroteBack (c : Invocation) (m m' : Mem) (k : ℕ) : Prop where
  off : ∀ x, (∀ i < k, c.IsBack i → x ∉ (c.target i).bytes) → m' x = m x
  on : ∀ i < k, c.IsBack i → ∀ o < c.size i, m' (c.arg i + o) = m ((c.block i).start + o)

theorem Invocation.IsBack.isPointer (h : c.IsBack i) : c.IsPointer i := by
  obtain ⟨hi, hback⟩ := h
  have ht : c.types[i]? = some c.types[i] := getElem?_eq_getElem hi
  rw [IsPointer, ht]
  exact type_ne_nonPtr c.supported hback ht

theorem Invocation.IsBack.notMem {l : List ℕ} (h : c.IsBack i)
    (hl : ∀ n ∈ l, ∀ i < 6, needWriteBack n i = false) : c.n ∉ l := by
  intro hmem
  have hfalse := hl c.n hmem i (lt_of_lt_of_le h.1 (c.types_length_le))
  rw [h.2] at hfalse
  exact Bool.noConfusion hfalse

section WriteBack

variable {m m' : Mem} {k : ℕ}

theorem WroteBack.read_request (h : WroteBack c m m' k) (hap : BackApart c)
    (hm : ∀ x ∈ c.enclave ∪ c.request, m x = c.fill.mem x) {a w : ℕ}
    (hreq : bytes ⟨a, w⟩ ⊆ c.request) : read m' a w = read c.fill.mem a w := by
  refine read_congr fun x h1 h2 => ?_
  have hx : x ∈ c.request := hreq ⟨h1, h2⟩
  rw [h.off x fun i _ hi hin => c.request_unsafe x hx (hap.inside i hi hin), hm x (.inr hx)]

theorem WroteBack.read_format (h : WroteBack c m m' k) (hap : BackApart c)
    (hm : ∀ x ∈ c.enclave ∪ c.request, m x = c.fill.mem x) {o w : ℕ} (ho : o + w ≤ 92) :
    read m' (c.req + o) w = read c.mem (c.req + o) w := by
  rw [h.read_request hap hm fun x hx => mem_bytes_of_le hx (by omega) (by rw [requestSize]; omega),
    format_fill c.intact (by omega) (by omega)]

theorem WroteBack.round (h : WroteBack c m m' k) (hap : BackApart c)
    (hm : ∀ x ∈ c.enclave ∪ c.request, m x = c.fill.mem x) (hn : c.n ≠ sysRecvmsg)
    (hk : c.IsBack k) :
    ∃ m'', writeBack m' c.req c.enclaveArgs k = .returned m'' ∧ WroteBack c m m'' (k + 1) := by
  have hp := hk.isPointer
  have hlt := hk.1
  have hlen := c.types_length_le
  have hsub : ∀ o w, o + w ≤ requestSize → bytes ⟨c.req + o, w⟩ ⊆ c.request := fun o w ho x hx =>
    mem_bytes_of_le hx (by omega) (by omega)
  have htype : typesAt m' c.req k ≠ ArgType.nonPtr.code := by
    have ht : c.types[k]? = some c.types[k] := getElem?_eq_getElem hlt
    have hne : c.types[k] ≠ .nonPtr := type_ne_nonPtr c.supported hk.2 ht
    rw [typesAt, Nat.add_assoc, h.read_format hap hm (by omega), ← Nat.add_assoc]
    change typesAt c.mem c.req k ≠ _
    rw [c.types_eq k _ ht]
    intro heq
    apply hne
    revert heq
    cases c.types[k] <;> decide
  have hnum : syscallNum m' c.req = c.n := (h.read_format hap hm (by omega)).trans c.syscallNum_eq
  have harg : argAt m' c.req k = (c.block k).start := by
    rw [argAt, Nat.add_assoc, h.read_request hap hm (hsub _ _ (by rw [requestSize]; omega)),
      ← Nat.add_assoc]
    exact argAt_fill_of_pointer hp
  have hsize : sizesAt m' c.req k = c.size k := by
    rw [sizesAt, Nat.add_assoc, h.read_request hap hm (hsub _ _ (by rw [requestSize]; omega)),
      ← Nat.add_assoc]
    exact sizesAt_fill c.intact hp
  have henclave : enclaveArg m' c.enclaveArgs k = c.arg k := by
    rw [c.arg_apply]
    refine read_congr fun x h1 h2 => ?_
    have hx : x ∈ bytes ⟨c.enclaveArgs, 48⟩ := mem_bytes.2 (by omega)
    have hin : x ∈ c.enclave := c.args_enclave hx
    rw [h.off x fun i _ hi => hap.args i hi x hx, hm x (.inl hin), fill_kept c.intact x hin]
  refine ⟨copy m' (c.arg k) (c.block k).start (c.size k), ?_, ?_, ?_⟩
  · rw [writeBack, if_neg htype, hnum, if_neg hn, henclave, harg, hsize]
  · intro x hx
    rw [copy_of_notMem, h.off x fun i hi => hx i (Nat.lt_succ_of_lt hi)]
    by_contra hin
    exact hx k (Nat.lt_succ_self k) hk (mem_bytes.2 (by omega))
  · intro j hj hb o ho
    rcases Nat.lt_succ_iff_lt_or_eq.1 hj with hjk | rfl
    · have hmem : c.arg j + o ∈ (c.target j).bytes := add_mem_bytes ho
      have hout := hap.disjoint j k hb hk hjk.ne _ hmem
      rw [copy_of_notMem, h.on j hjk hb o ho]
      by_contra hin
      exact hout (mem_bytes.2 (by omega))
    · -- the block is not in the enclave, so it is as the kernel left it
      have hblock : (c.block j).start + o ∉ c.enclave := fun hin =>
        block_apart hp (add_mem_bytes ho) (.inl hin)
      rw [copy_add ho, h.off _ fun i _ hi hin => hblock (hap.inside i hi hin)]

/-- **What `fillEnclave` does** when the request is as it was built. -/
theorem fillEnclave_wroteBack (hap : BackApart c)
    (hm : ∀ x ∈ c.enclave ∪ c.request, m x = c.fill.mem x) (hn : c.n ≠ sysRecvmsg) :
    WroteBack c m (fillEnclave m c.req c.enclaveArgs).mem c.types.length := by
  -- induction on the arguments left
  have hloop : ∀ r k m', c.types.length - k = r → k ≤ c.types.length → WroteBack c m m' k →
      WroteBack c m (fillEnclaveFrom m' c.req c.enclaveArgs k).mem c.types.length := by
    intro r
    induction r with
    | zero =>
      intro k m' hr hk h
      obtain rfl : k = c.types.length := by omega
      have hargs : argsNum m' c.req = c.types.length :=
        (h.read_format hap hm (by omega)).trans c.argsNum_eq
      rw [fillEnclaveFrom, hargs, if_neg (lt_irrefl _)]
      exact h
    | succ r ih =>
      intro k m' hr hk h
      have hargs : argsNum m' c.req = c.types.length :=
        (h.read_format hap hm (by omega)).trans c.argsNum_eq
      have hnum : syscallNum m' c.req = c.n := (h.read_format hap hm (by omega)).trans c.syscallNum_eq
      rw [fillEnclaveFrom, hargs, if_pos (by omega), hnum]
      by_cases hback : needWriteBack c.n k = true
      · obtain ⟨m'', hw, h'⟩ := h.round hap hm hn ⟨by omega, hback⟩
        rw [if_pos hback, hw]
        exact ih (k + 1) m'' (by omega) (by omega) h'
      · rw [if_neg hback]
        refine ih (k + 1) m' (by omega) (by omega) ⟨fun x hx => ?_, fun j hj hb => ?_⟩
        · exact h.off x fun i hi => hx i (Nat.lt_succ_of_lt hi)
        · rcases Nat.lt_succ_iff_lt_or_eq.1 hj with hj | rfl
          · exact h.on j hj hb
          · exact absurd hb.2 hback
  exact hloop _ 0 m rfl (Nat.zero_le _) ⟨fun _ _ => rfl, fun i hi => absurd hi (Nat.not_lt_zero i)⟩

end WriteBack

/-! ### The buffers of the calls -/

/-- A span of the outputs of a call other than `recvmsg`. -/
theorem mem_outputs (hn : c.n ≠ sysRecvmsg) (hi : i < c.types.length) :
    ⟨c.arg i, outputBytes extra c.n c.types c.arg c.mem i⟩ ∈ c.buffers extra := by
  rw [Invocation.buffers, if_neg hn, outputs, if_neg hn]
  exact mem_map.2 ⟨i, mem_range.2 hi, rfl⟩

theorem read_fill_length (hv : Valid extra c) (hflat : c.Flat) {j : ℕ} (hj : c.IsPointer j)
    (hsize : c.size j = 4) (hout : outputBytes extra c.n c.types c.arg c.mem j = 4) :
    read c.fill.mem (argAt c.fill.mem c.req j) 4 = read c.mem (c.arg j) 4 := by
  have hin : bytes ⟨c.arg j, 4⟩ ⊆ c.enclave := by
    rw [← hout]
    exact hv.inside _ (mem_outputs hflat.2.1 hj.lt)
  rw [argAt_fill_of_pointer hj]
  exact read_eq_of_shift fun o ho => content_fill hflat hj (hv.nonNull j hj) (by omega)
    (hin (mem_bytes.2 (by omega)))

theorem lengthPointer {j : ℕ} (h : (c.n = sysRecvfrom ∧ j = 5) ∨
    ((c.n = sysAccept ∨ c.n = sysAccept4 ∨ c.n = sysGetsockname ∨ c.n = sysGetpeername) ∧ j = 2)) :
    c.Flat ∧ c.IsPointer j ∧ c.size j = 4 ∧ outputBytes extra c.n c.types c.arg c.mem j = 4 := by
  rcases h with ⟨h, rfl⟩ | ⟨h | h | h | h, rfl⟩ <;>
    · refine ⟨?_, ?_, ?_, ?_⟩
      · rw [Flat, h]
        decide
      · rw [IsPointer, types_of_eq h rfl]
        decide
      · rw [size, types_of_eq h rfl, h]
        rfl
      · rw [types_of_eq h rfl, h]
        rfl

theorem outputLength_fill (hv : Valid extra c) (hi : i < c.types.length)
    (hout : isOutput c.n i = true) :
    outputLength c.n c.types (argAt c.fill.mem c.req) c.fill.mem i =
      outputLength c.n c.types c.arg c.mem i := by
  have hlen := c.types_length_le
  have hone : ∀ n ∈ [sysRead, sysEpollWait, sysEpollPwait], ∀ i < 6, isOutput n i = true → i = 1 := by
    decide
  have hnum : c.types[2]? = some .nonPtr → argAt c.fill.mem c.req 2 = c.arg 2 := by
    intro ht
    obtain ⟨hlt, -⟩ := List.getElem?_eq_some_iff.1 ht
    exact argAt_fill_of_not c.intact (by rw [IsPointer, ht]; exact fun h => h rfl) hlt
  have hread : ∀ j, ((c.n = sysRecvfrom ∧ j = 5) ∨ ((c.n = sysAccept ∨ c.n = sysAccept4 ∨
      c.n = sysGetsockname ∨ c.n = sysGetpeername) ∧ j = 2)) →
      read c.fill.mem (argAt c.fill.mem c.req j) 4 = read c.mem (c.arg j) 4 := by
    intro j hj
    obtain ⟨hflat, hp, hsize, hbytes⟩ := lengthPointer hj
    exact read_fill_length hv hflat hp hsize hbytes
  unfold outputLength
  dsimp only
  split_ifs with h1 h2 h3 h4 h5 h6
  · rcases h1 with h | ⟨h, rfl⟩
    · obtain rfl : i = 1 := hone c.n (by simp [h]) i (by omega) hout
      exact hnum (by rw [types_of_eq h rfl]; rfl)
    · exact hnum (by rw [types_of_eq h rfl]; rfl)
  · rw [h3]
    exact hread 5 (.inl ⟨h2, rfl⟩)
  · rfl
  · rw [h5]
    exact hread 2 (.inr ⟨h4, rfl⟩)
  · rfl
  · obtain rfl : i = 1 := hone c.n (by simp [h6]) i (by omega) hout
    rcases h6 with h | h
    · rw [hnum (by rw [types_of_eq h rfl]; rfl)]
    · rw [hnum (by rw [types_of_eq h rfl]; rfl)]
  · rfl

theorem outputBytes_fill (hv : Valid extra c) (hi : i < c.types.length) :
    outputBytes extra c.n c.types (argAt c.fill.mem c.req) c.fill.mem i =
      outputBytes extra c.n c.types c.arg c.mem i := by
  unfold outputBytes
  split_ifs with h1 h2 h3 h4 h5
  · have htypes : c.types = [.nonPtr, .nonPtr, .nonPtr] := by
      rcases h1 with h | h <;> exact types_of_eq h rfl
    rw [argAt_fill_of_not c.intact (by rw [IsPointer, htypes]; decide) (by rw [htypes]; decide)]
  · rfl
  · rfl
  · rfl
  · exact outputLength_fill hv hi h5
  · rfl

/-! ### Calls without nested buffers -/

namespace Invocation

/-- What the kernel may write through argument `i`. -/
def output (extra : ℕ → ℕ → ℕ) (c : Invocation) (i : ℕ) : Span :=
  ⟨c.arg i, outputBytes extra c.n c.types c.arg c.mem i⟩

end Invocation

section Flat

variable {j : ℕ}

section

variable (hv : Valid extra c)

include hv

theorem Valid.output_subset (hn : c.n ≠ sysRecvmsg) (hi : i < c.types.length) :
    (c.output extra i).bytes ⊆ c.enclave :=
  hv.inside _ (mem_outputs hn hi)

theorem Valid.output_args (hn : c.n ≠ sysRecvmsg) (hi : i < c.types.length) :
    ∀ x ∈ bytes ⟨c.enclaveArgs, 48⟩, x ∉ (c.output extra i).bytes := fun _ hx =>
  Set.disjoint_left.1 ((Separated.cons_iff.1 hv.apart).1 _ (mem_outputs hn hi)) hx

theorem Valid.output_disjoint (hn : c.n ≠ sysRecvmsg) (hi : i < c.types.length)
    (hj : j < c.types.length) (hij : i ≠ j) :
    Disjoint (c.output extra i).bytes (c.output extra j).bytes := by
  have hsep := (Separated.cons_iff.1 hv.apart).2
  rw [Invocation.buffers, if_neg hn, outputs, if_neg hn, Separated, pairwise_map,
    pairwise_iff_getElem] at hsep
  have hlt : ∀ a b, a < b → b < c.types.length →
      Disjoint (c.output extra a).bytes (c.output extra b).bytes := by
    intro a b hab hb
    have := hsep a b (by rw [length_range]; omega) (by rw [length_range]; omega) hab
    rwa [getElem_range, getElem_range] at this
  rcases Nat.lt_or_gt_of_ne hij with h | h
  · exact hlt i j h hj
  · exact (hlt j i h hi).symm

/-- The whole of an output that is written back has been copied out. -/
theorem Valid.size_eq (hn : c.n ≠ sysRecvmsg) (hb : c.IsBack i) :
    outputBytes extra c.n c.types c.arg c.mem i = c.size i := by
  have hne : c.n ∉ [sysIoctl, sysFcntl, sysUname] := hb.notMem (by decide)
  simp only [mem_cons, not_mem_nil, or_false, not_or] at hne
  have hout : isOutput c.n i = true := by simp [isOutput, hb.2]
  have hbytes : outputBytes extra c.n c.types c.arg c.mem i = outputLength c.n c.types c.arg c.mem i := by
    rw [outputBytes, if_neg (not_or.2 ⟨hne.1, hne.2.1⟩), if_neg hne.2.2, if_pos hout]
  have hlt := len_lt_of_apart (hv.output_subset hn hb.1) (hv.output_args hn hb.1)
  rw [Invocation.output, hbytes] at hlt
  dsimp only at hlt
  rw [hbytes, size_eq_getSize hb.isPointer, getSize_eq_outputLength_mod c.types c.arg c.mem hb.2 hn,
    Nat.mod_eq_of_lt (by omega)]

theorem Valid.target_eq (hn : c.n ≠ sysRecvmsg) (hb : c.IsBack i) :
    c.target i = c.output extra i := by
  rw [Invocation.output, hv.size_eq hn hb, Invocation.target]

theorem Valid.backApart (hn : c.n ≠ sysRecvmsg) : BackApart c := by
  refine ⟨fun i hi => ?_, fun i hi => ?_, fun i j hi hj hij x hx => ?_⟩
  · rw [hv.target_eq hn hi]
    exact hv.output_subset hn hi.1
  · rw [hv.target_eq hn hi]
    exact hv.output_args hn hi.1
  · rw [hv.target_eq hn hi] at hx
    rw [hv.target_eq hn hj]
    exact Set.disjoint_left.1 (hv.output_disjoint hn hi.1 hj.1 hij) hx

end

theorem getElem?_range_map {f : ℕ → Span} {n k : ℕ} {b : Span} :
    ((range n).map f)[k]? = some b ↔ k < n ∧ f k = b := by
  rw [getElem?_map]
  by_cases hk : k < n
  · rw [getElem?_range hk, Option.map_some, Option.some.injEq]
    exact (and_iff_right hk).symm
  · rw [getElem?_eq_none (by rw [length_range]; omega)]
    simp [hk]

theorem flat_of_isBack (hn : c.n ≠ sysRecvmsg) (hb : c.IsBack i) : c.Flat := by
  have hne : c.n ∉ [sysWritev, sysSendmsg] := hb.notMem (by decide)
  simp only [mem_cons, not_mem_nil, or_false, not_or] at hne
  exact ⟨hne.1, hn, hne.2⟩

section

variable (hv : Valid extra c)

include hv

theorem outputs_fill (hn : c.n ≠ sysRecvmsg) :
    outputs extra c.n c.types (argAt c.fill.mem c.req) c.fill.mem =
      (range c.types.length).map fun i =>
        ⟨argAt c.fill.mem c.req i, outputBytes extra c.n c.types c.arg c.mem i⟩ := by
  rw [outputs, if_neg hn]
  refine map_congr_left fun i hi => ?_
  rw [outputBytes_fill hv (mem_range.1 hi)]

/-- The kernel leaves the request alone. -/
theorem hosted_kept (hn : c.n ≠ sysRecvmsg) {new : ℕ → ℕ → Option UInt8}
    (hnew : ∀ i < c.types.length, ∀ o < outputBytes extra c.n c.types c.arg c.mem i,
      new i o ≠ none → argAt c.fill.mem c.req i + o ∉ c.request) :
    ∀ x ∈ c.enclave ∪ c.request, c.hosted extra new x = c.fill.mem x := by
  intro x hx
  rw [Invocation.hosted]
  split
  · rfl
  · rename_i hout
    have hreq : x ∈ c.request := hx.resolve_left hout
    rw [outputs_fill hv hn]
    refine overwrite_of_none fun k b hk hxb => ?_
    obtain ⟨hlt, rfl⟩ := getElem?_range_map.1 hk
    obtain ⟨h1, h2⟩ := mem_bytes.1 hxb
    by_contra hne
    refine hnew k hlt (x - argAt c.fill.mem c.req k) (by omega) hne ?_
    rw [Nat.add_sub_cancel' h1]
    exact hreq

theorem direct_output (hn : c.n ≠ sysRecvmsg) (hi : i < c.types.length)
    (new : ℕ → ℕ → Option UInt8) {o : ℕ} (ho : o < outputBytes extra c.n c.types c.arg c.mem i) :
    c.direct extra new (c.arg i + o) = (new i o).getD (c.mem (c.arg i + o)) := by
  rw [Invocation.direct, outputs, if_neg hn]
  refine overwrite_of_mem (getElem?_range_map.2 ⟨hi, rfl⟩) ho fun k b hk hb hin => ?_
  obtain ⟨hlt, rfl⟩ := getElem?_range_map.1 hb
  have hbyte : c.arg i + o ∈ (c.output extra i).bytes :=
    add_mem_bytes ho
  exact Set.disjoint_left.1 (hv.output_disjoint hn hi hlt hk.ne') hbyte hin

theorem hosted_block (hn : c.n ≠ sysRecvmsg)
    (hall : ∀ i < c.types.length, outputBytes extra c.n c.types c.arg c.mem i ≠ 0 → c.IsBack i)
    (hb : c.IsBack i) (new : ℕ → ℕ → Option UInt8) {o : ℕ} (ho : o < c.size i) :
    c.hosted extra new ((c.block i).start + o) = (new i o).getD (c.fill.mem ((c.block i).start + o)) := by
  have hp := hb.isPointer
  have hbyte : (c.block i).start + o ∈ (c.block i).bytes :=
    add_mem_bytes ho
  have hnot : (c.block i).start + o ∉ c.enclave := fun hin =>
    block_apart hp hbyte (.inl hin)
  rw [Invocation.hosted, if_neg (by exact hnot), outputs_fill hv hn]
  refine overwrite_of_mem (getElem?_range_map.2 ⟨hb.1, ?_⟩) ho fun k b hk hkb hin => ?_
  · rw [argAt_fill_of_pointer hp, hv.size_eq hn hb]
  · obtain ⟨hlt, rfl⟩ := getElem?_range_map.1 hkb
    have hkback : c.IsBack k := hall k hlt fun h0 => by
      rw [h0, mem_bytes] at hin
      omega
    have hkp := hkback.isPointer
    rw [argAt_fill_of_pointer hkp, hv.size_eq hn hkback] at hin
    exact block_new hp hbyte (subset_covered (block_mem_fillTo hkp hk) hin)

/-- A call is complete if its outputs are written back. -/
theorem complete_of_isBack (hn : c.n ≠ sysRecvmsg)
    (hall : ∀ i < c.types.length, outputBytes extra c.n c.types c.arg c.mem i ≠ 0 → c.IsBack i) :
    Complete extra c := by
  intro new a ha
  have hkept : ∀ x ∈ c.enclave ∪ c.request, c.hosted extra new x = c.fill.mem x := by
    refine hosted_kept hv hn fun i hi o ho _ hreq => ?_
    have hb : c.IsBack i := hall i hi (by omega)
    rw [hv.size_eq hn hb] at ho
    rw [argAt_fill_of_pointer hb.isPointer] at hreq
    exact block_apart hb.isPointer (add_mem_bytes ho) (.inr hreq)
  have hback := fillEnclave_wroteBack (hv.backApart hn) hkept hn
  by_cases hin : ∃ i, i < c.types.length ∧ a ∈ (c.output extra i).bytes
  · obtain ⟨i, hi, h1, h2⟩ := hin
    obtain ⟨o, rfl⟩ := Nat.exists_eq_add_of_le h1
    have ho : o < outputBytes extra c.n c.types c.arg c.mem i := Nat.lt_of_add_lt_add_left h2
    have hb : c.IsBack i := hall i hi (by omega)
    have ho' : o < c.size i := by
      rwa [hv.size_eq hn hb] at ho
    have hflat : c.Flat := flat_of_isBack hn hb
    change (fillEnclave _ c.req c.enclaveArgs).mem (c.arg i + o) = c.direct extra new (c.arg i + o)
    rw [hback.on i hi hb o ho', hosted_block hv hn hall hb new ho', direct_output hv hn hi new ho]
    rw [show c.fill.mem ((c.block i).start + o) = c.mem (c.arg i + o) from
      content_fill hflat hb.isPointer (hv.nonNull i hb.isPointer) ho' ha]
  · have hout : ∀ i < c.types.length, a ∉ (c.output extra i).bytes := fun i hi hmem => hin ⟨i, hi, hmem⟩
    have hdirect : c.direct extra new a = c.mem a := by
      rw [Invocation.direct, outputs, if_neg hn]
      refine overwrite_of_notMem fun hcov => ?_
      obtain ⟨i, hi, hmem⟩ := mem_covered_map.1 hcov
      exact hout i (mem_range.1 hi) hmem
    rw [hdirect, hback.off a fun i hi hb => by rw [hv.target_eq hn hb]; exact hout i hi,
      hkept a (.inl ha), fill_kept c.intact a ha]

/-- A call is not complete if an output is not written back. -/
theorem not_complete_of_not_isBack (hn : c.n ≠ sysRecvmsg)
    (hi : i < c.types.length) (hpos : 0 < outputBytes extra c.n c.types c.arg c.mem i)
    (hnot : needWriteBack c.n i = false) (hsize : c.IsPointer i → 0 < c.size i) :
    ¬ Complete extra c := by
  intro hcomplete
  have hin : c.arg i ∈ (c.output extra i).bytes := ⟨le_refl _, Nat.lt_add_of_pos_right hpos⟩
  have ha : c.arg i ∈ c.enclave := hv.output_subset hn hi hin
  -- the kernel changes the first byte of the output
  obtain ⟨v, hv'⟩ : ∃ v, v ≠ c.mem (c.arg i) := ⟨c.mem (c.arg i) + 1, by simp⟩
  let new : ℕ → ℕ → Option UInt8 := fun j o => if j = i ∧ o = 0 then some v else none
  have hkept : ∀ x ∈ c.enclave ∪ c.request, c.hosted extra new x = c.fill.mem x := by
    refine hosted_kept hv hn fun j hj o _ hnew hreq => ?_
    obtain ⟨rfl, rfl⟩ : j = i ∧ o = 0 := by
      by_contra hne
      exact hnew (if_neg hne)
    rw [Nat.add_zero] at hreq
    by_cases hp : c.IsPointer j
    · rw [argAt_fill_of_pointer hp] at hreq
      exact block_apart hp ⟨le_refl _, Nat.lt_add_of_pos_right (hsize hp)⟩ (.inr hreq)
    · rw [argAt_fill_of_not c.intact hp hj] at hreq
      exact c.request_unsafe _ hreq ha
  have hback := fillEnclave_wroteBack (hv.backApart hn) hkept hn
  have hleft : (fillEnclave (c.hosted extra new) c.req c.enclaveArgs).mem (c.arg i) = c.mem (c.arg i) := by
    rw [hback.off, hkept _ (.inl ha), fill_kept c.intact _ ha]
    intro j hj hb
    have hne : i ≠ j := by
      rintro rfl
      rw [hb.2] at hnot
      exact Bool.noConfusion hnot
    rw [hv.target_eq hn hb]
    exact Set.disjoint_left.1 (hv.output_disjoint hn hi hj hne) hin
  have hdirect : c.direct extra new (c.arg i + 0) = v := by
    have hnew : new i 0 = some v := if_pos ⟨rfl, rfl⟩
    rw [direct_output hv hn hi new hpos, hnew, Option.getD_some]
  rw [Nat.add_zero] at hdirect
  exact hv' (hdirect.symm.trans ((hcomplete new _ ha).symm.trans hleft))

end

end Flat

end Syscall

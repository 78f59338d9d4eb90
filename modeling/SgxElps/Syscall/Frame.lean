/-
**What `fillEnclave` may write, and a host that keeps to its side.**

The caller of a system call gives the extents of its output buffers by its own arguments: the counts,
the address lengths, and for `recvmsg` the lengths in the `msghdr` and its `iovec` array.  `Frame` says
that `fillEnclave` changes no other byte of the enclave.  It holds if the host leaves the format of the
request as it was built, and for `recvmsg` the segment lengths of the unsafe copy; the data and the
pointers to the copies may be anything.

Main definitions: `Frame`, `Kept`.  Main result: `frame_of_kept`.
-/

import SgxElps.Syscall.Basic

namespace Syscall

open Bytes
open Span
open List

/-! ### The output buffers -/

/-- The arguments a call only or also writes. -/
def isOutput (n i : ℕ) : Bool :=
  needWriteBack n i || (n = sysRecvfrom && i = 1) || (n = 288 && (i = 1 || i = 2)) ||
  (n = 63 && i = 0) || (n = 98 && i = 1) || n = 96 || (n = 5 && i = 1)

/-- The length of an output buffer as the caller gave it. -/
def outputLength (n : ℕ) (types : List ArgType) (arg : ℕ → ℕ) (mem : Mem) (i : ℕ) : ℕ :=
  let byPointer := read mem (arg (i + 1)) 4
  let byType := ((types[i]?).bind typeTable).getD 0
  if n = sysRead ∨ (n = sysRecvfrom ∧ i = 1) then arg (i + 1)
  else if n = sysRecvfrom then if i = 4 then byPointer else 4
  else if n = sysAccept ∨ n = 288 ∨ n = sysGetsockname ∨ n = sysGetpeername then
    if i = 1 then byPointer else 4
  else if n = sysEpollWait ∨ n = sysEpollPwait then byType * arg (i + 1)
  else byType

/-- The segment `k` of an `iovec` array. -/
def segment (mem : Mem) (iov k : ℕ) : Span :=
  ⟨read mem (iov + 16 * k) 8, read mem (iov + 16 * k + 8) 8⟩

/-- The buffers of a `msghdr`: the name, the control data and the segments. -/
def messageSpans (mem : Mem) (des : ℕ) : List Span :=
  ⟨read mem des 8, read mem (des + 8) 4⟩ :: ⟨read mem (des + 32) 8, read mem (des + 40) 8⟩ ::
    (range (read mem (des + 24) 8)).map (segment mem (read mem (des + 16) 8))

/-- The output buffers of a call. -/
def outputSpans (n : ℕ) (types : List ArgType) (arg : ℕ → ℕ) (mem : Mem) : List Span :=
  (range types.length).flatMap fun i =>
    if isOutput n i then
      if n = sysRecvmsg then messageSpans mem (arg i)
      else [⟨arg i, outputLength n types arg mem i⟩]
    else []

/-! ### A pushed call -/

/-- A call whose request has been pushed: `mem` is the memory then.  The request is in unsafe memory,
`enclave_args` is a local array of `__async_syscall`, and the caller's buffers are apart from both. -/
structure Call where
  n : ℕ
  types : List ArgType
  mem : Mem
  enclave : Set ℕ
  req : ℕ
  enclaveArgs : ℕ
  supported : interpretSyscall n = some types
  request_unsafe : ∀ a ∈ bytes ⟨req, requestSize⟩, a ∉ enclave
  args_enclave : bytes ⟨enclaveArgs, 48⟩ ⊆ enclave
  args_fresh : ∀ a ∈ bytes ⟨enclaveArgs, 48⟩,
    a ∉ covered (outputSpans n types (enclaveArg mem enclaveArgs) mem)
  request_fresh : ∀ a ∈ bytes ⟨req, requestSize⟩,
    a ∉ covered (outputSpans n types (enclaveArg mem enclaveArgs) mem)

namespace Call

variable (c : Call)

/-- The arguments the caller gave. -/
def arg (i : ℕ) : ℕ := enclaveArg c.mem c.enclaveArgs i

/-- The bytes of the caller's output buffers. -/
def outputs : Set ℕ := covered (outputSpans c.n c.types c.arg c.mem)

end Call

/-- The host has rewritten unsafe memory and nothing else. -/
def Rewriting (c : Call) (m : Mem) : Prop := ∀ a ∈ c.enclave, m a = c.mem a

/-- `fillEnclave` changes no byte of the enclave outside the output buffers. -/
def Frame (c : Call) (m : Mem) : Prop :=
  ∀ a ∈ c.enclave, a ∉ c.outputs → (fillEnclave m c.req c.enclaveArgs).mem a = m a

/-! ### A host that keeps the format -/

/-- The format is as `interpretSyscall` and `fillArgs` left it. -/
structure Kept (c : Call) (m : Mem) : Prop where
  syscallNum_eq : syscallNum m c.req = c.n
  argsNum_eq : argsNum m c.req = c.types.length
  types_eq : ∀ i t, c.types[i]? = some t → typesAt m c.req i = t.code
  sizes_eq : ∀ i t, c.types[i]? = some t → t ≠ .nonPtr →
    sizesAt m c.req i = getSize c.n c.types c.arg c.mem i

/-- The message of a `recvmsg` call: the caller's header and `iovec` array are apart from its buffers
and its lengths fit an `int`; in the unsafe copy the host kept the number of segments and their
lengths. -/
structure MessageKept (c : Call) (m : Mem) (src des : ℕ) : Prop where
  header_enclave : bytes ⟨des, 56⟩ ⊆ c.enclave
  header_apart : ∀ a ∈ bytes ⟨des, 56⟩, a ∉ c.outputs
  iov_enclave : bytes ⟨read c.mem (des + 16) 8, 16 * read c.mem (des + 24) 8⟩ ⊆ c.enclave
  iov_apart : ∀ a ∈ bytes ⟨read c.mem (des + 16) 8, 16 * read c.mem (des + 24) 8⟩,
    a ∉ c.outputs
  namelen_lt : read c.mem (des + 8) 4 < 2 ^ 31
  controllen_lt : read c.mem (des + 40) 8 < 2 ^ 31
  iov_len_lt : ∀ k < read c.mem (des + 24) 8, (segment c.mem (read c.mem (des + 16) 8) k).len < 2 ^ 31
  src_apart : ∀ a ∈ bytes ⟨src, 56⟩, a ∉ c.outputs
  iovlen_eq : read m (src + 24) 8 = read c.mem (des + 24) 8
  iovlen_lt : read c.mem (des + 24) 8 < 2 ^ 32
  srcIov_apart : ∀ a ∈ bytes ⟨read m (src + 16) 8, 16 * read c.mem (des + 24) 8⟩,
    a ∉ c.outputs
  srcIov_len : ∀ k < read c.mem (des + 24) 8, (segment m (read m (src + 16) 8) k).len
    = (segment c.mem (read c.mem (des + 16) 8) k).len

/-! ### The write-back of a message -/

section Write

variable {c : Call} {m m' : Mem}

/-- What the enclave holds outside the output buffers is read as at the time of the call. -/
theorem read_eq_of_apart (hm : Rewriting c m) (h : AgreeOff c.outputs m m') {a n : ℕ}
    (hin : bytes ⟨a, n⟩ ⊆ c.enclave)
    (hout : ∀ x ∈ bytes ⟨a, n⟩, x ∉ c.outputs) : read m' a n = read c.mem a n := by
  rw [h.read_eq hout]
  exact read_congr fun x h1 h2 => hm x (hin ⟨h1, h2⟩)

section Message

variable {src des : ℕ}

/-- One round of the loop writes only into the caller's segment. -/
theorem iovecWriteBack_agree (hm : Rewriting c m) (hk : MessageKept c m src des)
    (hspans : ∀ b ∈ messageSpans c.mem des, b.bytes ⊆ c.outputs) {k : ℕ}
    (hlt : k < read c.mem (des + 24) 8) (h : AgreeOff c.outputs m m') :
    AgreeOff c.outputs m (iovecWriteBack m' (read m (src + 16) 8 + 16 * k)
      (read c.mem (des + 16) 8 + 16 * k)) := by
  set iov := read c.mem (des + 16) 8
  set srcIov := read m (src + 16) 8
  have hapart : ∀ x ∈ bytes ⟨iov + 16 * k, 16⟩, x ∉ c.outputs := fun x hx =>
    hk.iov_apart x (mem_bytes_of_le hx (by omega) (by omega))
  have hencl : bytes ⟨iov + 16 * k, 16⟩ ⊆ c.enclave := fun x hx =>
    hk.iov_enclave (mem_bytes_of_le hx (by omega) (by omega))
  have hbase : read m' (iov + 16 * k) 8 = (segment c.mem iov k).start :=
    read_eq_of_apart hm h (fun x hx => hencl (mem_bytes_of_le hx (by omega) (by omega)))
      fun x hx => hapart x (mem_bytes_of_le hx (by omega) (by omega))
  have hlen : ∀ {m''}, AgreeOff c.outputs m m'' →
      read m'' (iov + 16 * k + 8) 8 = (segment c.mem iov k).len := fun h' =>
    read_eq_of_apart hm h' (fun x hx => hencl (mem_bytes_of_le hx (by omega) (by omega)))
      fun x hx => hapart x (mem_bytes_of_le hx (by omega) (by omega))
  have hseg : (segment c.mem iov k).bytes ⊆ c.outputs := by
    refine hspans _ ?_
    simp only [messageSpans, mem_cons, mem_map, mem_range]
    exact .inr (.inr ⟨k, hlt, rfl⟩)
  have hcopy : AgreeOff c.outputs m (copy m' (read m' (iov + 16 * k) 8)
      (read m' (srcIov + 16 * k) 8) (intToSize (read m' (iov + 16 * k + 8) 8))) := by
    rw [hbase, hlen h, intToSize_of_lt (hk.iov_len_lt k hlt)]
    exact h.copy hseg
  rw [iovecWriteBack]
  generalize copy m' _ _ _ = m₁ at hcopy ⊢
  -- the length stored is the one the host kept, so the store changes nothing
  have hstore : read m₁ (srcIov + 16 * k + 8) 8 = read m₁ (iov + 16 * k + 8) 8 := by
    rw [hlen hcopy, ← hk.srcIov_len k hlt, hcopy.read_eq fun x hx =>
      hk.srcIov_apart x (mem_bytes_of_le hx (by omega) (by omega))]
    rfl
  rw [hstore, write_read_self]
  exact hcopy

theorem iovecLoop_agree (hm : Rewriting c m) (hk : MessageKept c m src des)
    (hspans : ∀ b ∈ messageSpans c.mem des, b.bytes ⊆ c.outputs) {k : ℕ}
    (hle : k ≤ read c.mem (des + 24) 8) (h : AgreeOff c.outputs m m') :
    AgreeOff c.outputs m (iovecLoop m' src (read m (src + 16) 8 + 16 * k)
      (read c.mem (des + 16) 8 + 16 * k) k).mem := by
  -- induction on the rounds left; the invariant is that only output bytes have changed
  induction hr : read c.mem (des + 24) 8 - k generalizing k m' with
  | zero =>
    have hN : read m' (src + 24) 8 = read c.mem (des + 24) 8 := by
      rw [h.read_eq fun x hx => hk.src_apart x (mem_bytes_of_le hx (by omega) (by omega)),
        hk.iovlen_eq]
    rw [iovecLoop, if_neg (by omega)]
    exact h
  | succ r ih =>
    have hN : read m' (src + 24) 8 = read c.mem (des + 24) 8 := by
      rw [h.read_eq fun x hx => hk.src_apart x (mem_bytes_of_le hx (by omega) (by omega)),
        hk.iovlen_eq]
    rw [iovecLoop, if_pos (by omega)]
    split
    · have hwrap : (k + 1) % 2 ^ 32 = k + 1 := Nat.mod_eq_of_lt (by have := hk.iovlen_lt; omega)
      rw [hwrap, add_assoc, add_assoc, ← Nat.mul_succ]
      exact ih (by omega) (iovecWriteBack_agree hm hk hspans (by omega) h) (by omega)
    · exact h

theorem recvmsgWriteBack_agree (hm : Rewriting c m) (hk : MessageKept c m src des)
    (hspans : ∀ b ∈ messageSpans c.mem des, b.bytes ⊆ c.outputs) (h : AgreeOff c.outputs m m') :
    AgreeOff c.outputs m (recvmsgWriteBack m' src des).mem := by
  have hdes : ∀ {m''} (o n : ℕ), o + n ≤ 56 → AgreeOff c.outputs m m'' →
      read m'' (des + o) n = read c.mem (des + o) n := fun o n hle h' =>
    read_eq_of_apart hm h' (fun x hx => hk.header_enclave (mem_bytes_of_le hx (by omega) (by omega)))
      fun x hx => hk.header_apart x (mem_bytes_of_le hx (by omega) (by omega))
  have hname : AgreeOff c.outputs m (copy m' (read m' des 8) (read m' src 8)
      (intToSize (read m' (des + 8) 4))) := by
    have hdes0 := hdes 0 8 (by omega) h
    rw [add_zero] at hdes0
    rw [hdes 8 4 (by omega) h, hdes0, intToSize_of_lt hk.namelen_lt]
    exact h.copy (hspans _ (by simp [messageSpans]))
  rw [recvmsgWriteBack]
  generalize copy m' _ _ _ = m₁ at hname ⊢
  have hcontrol : AgreeOff c.outputs m (copy m₁ (read m₁ (des + 32) 8) (read m₁ (src + 32) 8)
      (intToSize (read m₁ (des + 40) 8))) := by
    rw [hdes 40 8 (by omega) hname, hdes 32 8 (by omega) hname, intToSize_of_lt hk.controllen_lt]
    exact hname.copy (hspans _ (by simp [messageSpans]))
  generalize copy m₁ _ _ _ = m₂ at hcontrol ⊢
  have hsrc : read m₂ (src + 16) 8 = read m (src + 16) 8 :=
    hcontrol.read_eq fun x hx => hk.src_apart x (mem_bytes_of_le hx (by omega) (by omega))
  rw [hsrc, hdes 16 8 (by omega) hcontrol]
  have hloop := iovecLoop_agree hm hk hspans (Nat.zero_le _) hcontrol
  rwa [Nat.mul_zero, add_zero, add_zero] at hloop

end Message

/-! ### The loop over the arguments -/

/-- The length of the copy is the length the caller gave, kept in an `unsigned int`. -/
theorem getSize_eq_outputLength_mod {n i : ℕ} (types : List ArgType) (arg : ℕ → ℕ) (mem : Mem)
    (hneed : needWriteBack n i = true) (hn : n ≠ sysRecvmsg) :
    getSize n types arg mem i = outputLength n types arg mem i % 2 ^ 32 := by
  have hread : ∀ a, read mem a 4 % 4294967296 = read mem a 4 := fun a => Nat.mod_eq_of_lt (read_lt mem a 4)
  have htype : ∀ t : Option ArgType, (t.bind typeTable).getD 0 % 4294967296 = (t.bind typeTable).getD 0 :=
    fun t => Nat.mod_eq_of_lt (typeSize_lt t)
  simp only [needWriteBack, Bool.or_eq_true, Bool.and_eq_true, decide_eq_true_eq] at hneed
  rcases hneed with
    ((((((((((((((⟨rfl, rfl⟩ | ⟨rfl, rfl⟩) | ⟨rfl, rfl⟩) | ⟨rfl, rfl⟩) | ⟨rfl, rfl⟩) | ⟨rfl, rfl⟩) |
      ⟨rfl, rfl⟩) | ⟨rfl, rfl⟩) | ⟨rfl, rfl⟩) | ⟨rfl, rfl⟩) | rfl) | ⟨rfl, rfl⟩) | ⟨rfl, rfl⟩) |
      ⟨rfl, rfl⟩) | ⟨rfl, rfl⟩) | ⟨rfl, rfl⟩
  all_goals
    simp [getSize, outputLength, sysRead, sysWrite, sysBind, sysSetsockopt, sysSendto, sysConnect,
      sysRecvfrom, sysAccept, sysGetsockname, sysGetpeername, sysEpollPwait, sysEpollWait, sysWritev,
      sysRecvmsg, sysPipe, sysPipe2, sysClockGettime, sysGetrlimit, hread, htype] at hn ⊢

/-- The arguments that are written back are pointers. -/
theorem type_ne_nonPtr {n i : ℕ} {types : List ArgType} {t : ArgType}
    (hsup : interpretSyscall n = some types) (hneed : needWriteBack n i = true)
    (ht : types[i]? = some t) : t ≠ .nonPtr := by
  have htable : ∀ e ∈ syscallTable, ∀ i < e.2.length, needWriteBack e.1 i = true →
      e.2[i]? ≠ some .nonPtr := by decide
  have hmem := mem_syscallTable hsup
  obtain ⟨hi, -⟩ := List.getElem?_eq_some_iff.1 ht
  rintro rfl
  exact htable _ hmem i hi hneed ht

theorem span_subset_outputs (c : Call) {i : ℕ} (hi : i < c.types.length)
    (hneed : needWriteBack c.n i = true) {b : Span}
    (hb : b ∈ if c.n = sysRecvmsg then messageSpans c.mem (c.arg i)
      else [⟨c.arg i, outputLength c.n c.types c.arg c.mem i⟩]) : b.bytes ⊆ c.outputs := by
  refine subset_covered (mem_flatMap.2 ⟨i, mem_range.2 hi, ?_⟩)
  rwa [if_pos (by simp [isOutput, hneed])]

theorem types_length_le (c : Call) : c.types.length ≤ 6 :=
  types_length_le_of_supported c.supported

/-- The format stays as it is while only output bytes change. -/
theorem Kept.of_agree (hk : Kept c m) (h : AgreeOff c.outputs m m') : Kept c m' := by
  have hlen := types_length_le c
  have hread : ∀ o n, o + n ≤ requestSize → read m' (c.req + o) n = read m (c.req + o) n :=
    fun o n hle => h.read_eq fun x hx =>
      c.request_fresh x (mem_bytes_of_le hx (by omega) (by omega))
  refine ⟨?_, ?_, ?_, ?_⟩
  · rw [← hk.syscallNum_eq, syscallNum, hread 56 4 (by decide), syscallNum]
  · rw [← hk.argsNum_eq, argsNum, hread 64 4 (by decide), argsNum]
  · intro i t ht
    obtain ⟨hi, -⟩ := List.getElem?_eq_some_iff.1 ht
    rw [← hk.types_eq i t ht, typesAt, add_assoc, hread _ 4 (by rw [requestSize]; omega), typesAt,
      add_assoc]
  · intro i t ht hne
    obtain ⟨hi, -⟩ := List.getElem?_eq_some_iff.1 ht
    rw [← hk.sizes_eq i t ht hne, sizesAt, add_assoc, hread _ 4 (by rw [requestSize]; omega), sizesAt,
      add_assoc]

/-- One round of the loop of `fillEnclave` changes only output bytes. -/
theorem writeBack_agree (hm : Rewriting c m) (hk : Kept c m)
    (hmsg : c.n = sysRecvmsg → MessageKept c m (argAt m c.req 1) (c.arg 1)) {i : ℕ}
    (hi : i < c.types.length) (hneed : needWriteBack c.n i = true)
    (h : AgreeOff c.outputs m m') :
    AgreeOff c.outputs m (writeBack m' c.req c.enclaveArgs i).mem := by
  have hk' := hk.of_agree h
  have hlen := types_length_le c
  have ht : c.types[i]? = some c.types[i] := getElem?_eq_getElem hi
  have hne := type_ne_nonPtr c.supported hneed ht
  have harg : enclaveArg m' c.enclaveArgs i = c.arg i :=
    read_eq_of_apart hm h
      (fun x hx => c.args_enclave (mem_bytes_of_le hx (by omega) (by omega)))
      fun x hx => c.args_fresh x (mem_bytes_of_le hx (by omega) (by omega))
  have hcode : typesAt m' c.req i ≠ ArgType.nonPtr.code := by
    rw [hk'.types_eq i _ ht]
    intro heq
    apply hne
    revert heq
    cases c.types[i] <;> decide
  rw [writeBack, if_neg hcode, hk'.syscallNum_eq, harg]
  by_cases hn : c.n = sysRecvmsg
  · obtain rfl : i = 1 := by
      rw [hn] at hneed
      simpa [needWriteBack, sysRecvmsg, sysRead, sysEpollWait, sysEpollPwait, sysGetsockname,
        sysAccept, sysRecvfrom, sysPipe, sysPipe2, sysGetpeername, sysClockGettime,
        sysGetrlimit] using hneed
    have hsrc : argAt m' c.req 1 = argAt m c.req 1 := h.read_eq fun x hx =>
      c.request_fresh x (mem_bytes_of_le hx (by omega) (by rw [requestSize]; omega))
    rw [if_pos hn, hsrc]
    refine recvmsgWriteBack_agree hm (hmsg hn) (fun b hb => ?_) h
    exact span_subset_outputs c hi hneed (by rwa [if_pos hn])
  · rw [if_neg hn, hk'.sizes_eq i _ ht hne, Outcome.mem_returned]
    have hle : getSize c.n c.types c.arg c.mem i ≤ outputLength c.n c.types c.arg c.mem i := by
      rw [getSize_eq_outputLength_mod c.types c.arg c.mem hneed hn]
      exact Nat.mod_le ..
    have hout : bytes ⟨c.arg i, outputLength c.n c.types c.arg c.mem i⟩ ⊆ c.outputs :=
      span_subset_outputs c hi hneed (by rw [if_neg hn]; exact mem_singleton_self _)
    generalize getSize c.n c.types c.arg c.mem i = size at hle ⊢
    exact h.copy fun x hx => hout (mem_bytes_of_le hx (le_refl _) (by omega))

/-- **A host that keeps the format**, and the segment lengths of a message, cannot make
`fillEnclave` change anything but output buffers. -/
theorem frame_of_kept (hm : Rewriting c m) (hk : Kept c m)
    (hmsg : c.n = sysRecvmsg → MessageKept c m (argAt m c.req 1) (c.arg 1)) : Frame c m := by
  -- induction on the arguments left; the invariant is that only output bytes have changed
  have hloop : ∀ r i m', c.types.length - i = r → AgreeOff c.outputs m m' →
      AgreeOff c.outputs m (fillEnclaveFrom m' c.req c.enclaveArgs i).mem := by
    intro r
    induction r with
    | zero =>
      intro i m' hr h
      rw [fillEnclaveFrom, (hk.of_agree h).argsNum_eq, if_neg (by omega)]
      exact h
    | succ r ih =>
      intro i m' hr h
      rw [fillEnclaveFrom, (hk.of_agree h).argsNum_eq, if_pos (by omega),
        (hk.of_agree h).syscallNum_eq]
      split
      · next hneed =>
        have hw := writeBack_agree hm hk hmsg (by omega) hneed h
        split
        · next m₁ heq =>
          rw [heq] at hw
          exact ih (i + 1) m₁ (by omega) hw
        · next m₁ heq =>
          rw [heq] at hw
          exact hw
      · exact ih (i + 1) m' (by omega) h
  intro a _ ha
  exact hloop _ 0 m rfl (AgreeOff.refl _ _) a ha

end Write

end Syscall

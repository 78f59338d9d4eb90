/-
**Calls whose headers lie in the enclave.**

The arguments of an invocation are also in `enclave_args`, a local array of `__async_syscall`, and what
`getSize` and `deepCopy` look at lies in the enclave, apart from that array.

Main definition: `Invocation`.  Main result: `Invocation.intact`.
-/

import SgxElps.Syscall.Nested
import Mathlib.Tactic.SplitIfs

namespace Syscall

open Bytes
open Span
open List
open Prepared Marshalling

/-- What `getSize` and `deepCopy` look at: address lengths, `iovec` arrays and message headers. -/
def headers (n : ℕ) (arg : ℕ → ℕ) (mem : Mem) : List Span :=
  if n = sysAccept ∨ n = sysGetsockname ∨ n = sysGetpeername then [⟨arg 2, 4⟩]
  else if n = sysRecvfrom then [⟨arg 5, 4⟩]
  else if n = sysWritev then [⟨arg 1, 16 * arg 2⟩]
  else if n = sysRecvmsg ∨ n = sysSendmsg then
    [⟨arg 1, 56⟩, ⟨read mem (arg 1 + 16) 8, 16 * read mem (arg 1 + 24) 8⟩]
  else []

/-- A call whose arguments are in the array at `enclaveArgs` and whose headers lie in the enclave. -/
structure Invocation extends Marshalling where
  enclaveArgs : ℕ
  arg_enclave : arg = enclaveArg mem enclaveArgs
  argsNum_eq : argsNum mem req = types.length
  args_enclave : bytes ⟨enclaveArgs, 48⟩ ⊆ bytes ⟨base, enclaveLen⟩
  headers_enclave : ∀ b ∈ headers n arg mem, b.bytes ⊆ bytes ⟨base, enclaveLen⟩
  headers_apart : ∀ b ∈ headers n arg mem, ∀ x ∈ bytes ⟨enclaveArgs, 48⟩, x ∉ b.bytes

variable {c : Invocation} {i : ℕ}

theorem Invocation.arg_apply (c : Invocation) (i : ℕ) : c.arg i = enclaveArg c.mem c.enclaveArgs i :=
  congrFun c.arg_enclave i

/-! ### Headers -/

/-- A span of the enclave that leaves out a part of it is shorter than `2 ^ 31`. -/
theorem len_lt_of_apart {b : Span} (hb : b.bytes ⊆ c.enclave)
    (hapart : ∀ x ∈ bytes ⟨c.enclaveArgs, 48⟩, x ∉ b.bytes) : b.len < 2 ^ 31 := by
  by_contra hlen
  have hargs : c.enclaveArgs ∈ bytes ⟨c.enclaveArgs, 48⟩ := mem_bytes.2 (by omega)
  have hin : c.enclaveArgs ∈ bytes ⟨c.base, enclaveLen⟩ := c.args_enclave hargs
  have hfirst : b.start ∈ bytes ⟨c.base, enclaveLen⟩ :=
    hb (show b.start ∈ bytes ⟨b.start, b.len⟩ from mem_bytes.2 (by omega))
  have hlast : b.start + (2 ^ 31 - 1) ∈ bytes ⟨c.base, enclaveLen⟩ :=
    hb (show _ ∈ bytes ⟨b.start, b.len⟩ from mem_bytes.2 (by omega))
  rw [mem_bytes, enclaveLen] at hin hfirst hlast
  exact hapart _ hargs (show _ ∈ bytes ⟨b.start, b.len⟩ from mem_bytes.2 (by omega))

theorem header_subset {a len : ℕ} (h : ⟨a, len⟩ ∈ headers c.n c.arg c.mem) :
    bytes ⟨a, len⟩ ⊆ c.enclave :=
  c.headers_enclave _ h

theorem headers_subset (c : Invocation) : covered (headers c.n c.arg c.mem) ⊆ c.enclave := by
  rintro x ⟨b, hb, hx⟩
  exact c.headers_enclave b hb hx

theorem header_len_lt {a len : ℕ} (h : ⟨a, len⟩ ∈ headers c.n c.arg c.mem) : len < 2 ^ 31 := by
  have hlt := len_lt_of_apart (header_subset h) (c.headers_apart _ h)
  exact hlt

/-- `getSize` looks at the arguments and at the headers. -/
theorem getSize_congr {m m' : Mem} {arg : ℕ → ℕ} (hi : c.IsPointer i) (harg : ∀ j < 6, arg j = c.arg j)
    (hm : ∀ x ∈ covered (headers c.n c.arg c.mem), m x = m' x) :
    getSize c.n c.types arg m i = getSize c.n c.types c.arg m' i := by
  -- only `recvfrom` has a pointer as argument 5, an address length of 4 bytes
  have hlast : c.n ≠ sysRecvfrom → i < 5 := by
    have htable : ∀ e ∈ syscallTable, e.1 ≠ sysRecvfrom → ∀ i < 6,
        e.2[i]?.getD .nonPtr ≠ .nonPtr → i < 5 := by
      decide
    intro hn
    exact htable (c.n, c.types) (mem_syscallTable c.supported) hn i hi.lt_six hi
  have hread : ⟨c.arg (i + 1), 4⟩ ∈ headers c.n c.arg c.mem →
      read m (c.arg (i + 1)) 4 = read m' (c.arg (i + 1)) 4 := fun hmem =>
    read_congr fun x h1 h2 => hm x ⟨_, hmem, h1, h2⟩
  unfold getSize
  dsimp only
  by_cases hn : c.n = sysRecvfrom
  · by_cases hlt : i < 5
    · rw [harg (i + 1) (by omega)]
      split_ifs with h1 h2 h3 <;> try rfl
      refine hread ?_
      rw [headers, hn, h3]
      simp [sysRecvfrom, sysAccept, sysGetsockname, sysGetpeername]
    · have h1 : ¬ (c.n = sysRead ∨ c.n = sysWrite ∨ c.n = sysBind ∨ c.n = sysSetsockopt ∨
          c.n = sysSendto ∨ c.n = sysConnect) := by
        rw [hn]
        decide
      rw [if_neg h1, if_neg h1, if_pos hn, if_pos hn, if_neg (by omega), if_neg (by omega), if_neg (by omega),
        if_neg (by omega)]
  · rw [harg (i + 1) (Nat.succ_lt_succ (hlast hn)), if_neg hn, if_neg hn]
    split_ifs with h1 h2 h3 <;> try rfl
    refine hread ?_
    rw [headers, if_pos h2, h3]
    exact mem_singleton_self _

/-! ### Vectors and messages -/

theorem headers_writev (hw : c.n = sysWritev) : ⟨c.arg 1, 16 * c.arg 2⟩ ∈ headers c.n c.arg c.mem := by
  rw [headers, hw]
  simp [sysWritev, sysAccept, sysGetsockname, sysGetpeername, sysRecvfrom]

theorem size_writev (hw : c.n = sysWritev) : c.size 1 = 16 * c.arg 2 := by
  have hlt := header_len_lt (headers_writev hw)
  have htypes : c.types = [.nonPtr, .iovecPtr, .nonPtr] := types_of_eq hw rfl
  rw [size, getSize, htypes, hw]
  simp [sysWritev, sysAccept, sysGetsockname, sysGetpeername, sysRecvfrom, sysRead, sysWrite, sysBind,
    sysSetsockopt, sysSendto, sysConnect, sysEpollPwait, sysEpollWait, typeTable]
  omega

section Message

variable (hmsg : c.IsMessage)

include hmsg

theorem headers_message : headers c.n c.arg c.mem =
    [⟨c.arg 1, 56⟩, ⟨read c.mem (c.arg 1 + 16) 8, 16 * read c.mem (c.arg 1 + 24) 8⟩] := by
  rcases hmsg with hn | hn <;> rw [headers, hn] <;>
    simp [sysWritev, sysAccept, sysGetsockname, sysGetpeername, sysRecvfrom, sysRecvmsg, sysSendmsg]

theorem header_message_subset : bytes ⟨c.arg 1, 56⟩ ⊆ c.enclave :=
  header_subset (by rw [headers_message hmsg]; simp)

theorem array_mem_headers :
    ⟨read c.mem (c.arg 1 + 16) 8, 16 * read c.mem (c.arg 1 + 24) 8⟩ ∈ headers c.n c.arg c.mem := by
  rw [headers_message hmsg]
  simp

theorem header_read {m : Mem} (hm : ∀ x ∈ c.enclave, m x = c.mem x) {o w : ℕ} (ho : o + w ≤ 56) :
    read m (c.arg 1 + o) w = read c.mem (c.arg 1 + o) w :=
  read_congr fun x h1 h2 => hm x (header_message_subset hmsg (mem_bytes.2 (by omega)))

theorem messageFits : MessageFits (c.enclave ∪ c.request) (c.shallow 1).mem (c.arg 1) := by
  have hkept := kept_one hmsg.types (by decide)
  refine ⟨fun x hx => .inl (header_message_subset hmsg hx), ?_, ?_⟩
  · rw [header_read hmsg hkept (by omega), header_read hmsg hkept (by omega)]
    exact fun x hx => .inl (header_subset (array_mem_headers hmsg) hx)
  · rw [header_read hmsg hkept (by omega)]
    exact header_len_lt (array_mem_headers hmsg)

end Message

/-- What the nested copies follow is among the headers. -/
theorem Invocation.followed (c : Invocation) : c.Followed where
  vector hw x hx := by
    refine header_subset (headers_writev hw) (mem_bytes_of_le hx (le_refl _) ?_)
    unfold rounds
    split <;> omega
  header := header_message_subset
  array hmsg := header_subset (array_mem_headers hmsg)

/-- **What `fillArgs` leaves**: the enclave is as it was, and so is what belongs to no pointer. -/
theorem Invocation.intact (c : Invocation) : c.Intact := c.followed.intact

theorem size_eq_getSize (hi : c.IsPointer i) : c.size i = getSize c.n c.types c.arg c.mem i :=
  getSize_congr hi (fun _ _ => rfl) fun x hx => fillTo_kept c.intact i x (headers_subset c hx)

theorem argAt_fill_of_pointer (hi : c.IsPointer i) : argAt c.fill.mem c.req i = (c.block i).start :=
  (fields_fill c.intact hi).1

end Syscall

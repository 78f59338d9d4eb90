/-
**System call requests and the write-back of their results.**

`__async_syscall` builds a `SyscallRequest` in unsafe memory: the number of the call, the number of
arguments with their types and sizes (`format_t`), and the arguments themselves, the pointers among
them replaced by unsafe copies.  When the host has set the request done, `fillEnclave` copies the
results back into the enclave (`libOS/syscall_format.cpp`).  The request is still in unsafe memory
then, so everything `fillEnclave` reads of it is what the host left there.  The model therefore works
on one flat memory: the fields of the request, of the argument array on the enclave's stack and of
the `msghdr` and `iovec` structures are read from it at their offsets.

Main definitions: `interpretSyscall`, `getSize`, `fillEnclave`.  Main result: `getSize_lt`.
-/

import SgxElps.Lib.Bytes

namespace Syscall

open Bytes

/-! ### The registered calls -/

/-- The argument types of `syscall_format.h`, in the order of their codes. -/
inductive ArgType where
  | nonPtr | charPtr | eventPtr | sockaddrPtr | intPtr | iovecPtr | iocPtr | sokaddrPtr | msghdrPtr
  | sigsetPtr | timespecPtr | oldUtsnamePtr | statPtr | timevalPtr | timezonePtr | addrPtr
  | fdPairPtr | rusagePtr | rlimitPtr
deriving DecidableEq

/-- The code stored in `format_t`. -/
def ArgType.code (t : ArgType) : ℕ := t.ctorIdx

/-- `type_table`.  `SOCKADDR_PTR` is not in it. -/
def typeTable : ArgType → Option ℕ
  | .charPtr => some 256
  | .eventPtr => some 12
  | .intPtr => some 4
  | .addrPtr => some 8
  | .iovecPtr => some 16
  | .iocPtr => some 8
  | .sokaddrPtr => some 16
  | .msghdrPtr => some 56
  | .sigsetPtr => some 128
  | .timespecPtr => some 16
  | .oldUtsnamePtr => some 325
  | .statPtr => some 144
  | .timevalPtr => some 16
  | .timezonePtr => some 8
  | .fdPairPtr => some 8
  | .rusagePtr => some 144
  | .rlimitPtr => some 16
  | .nonPtr | .sockaddrPtr => none

def sysRead : ℕ := 0
def sysWrite : ℕ := 1
def sysWritev : ℕ := 20
def sysPipe : ℕ := 22
def sysConnect : ℕ := 42
def sysAccept : ℕ := 43
def sysSendto : ℕ := 44
def sysRecvfrom : ℕ := 45
def sysRecvmsg : ℕ := 47
def sysBind : ℕ := 49
def sysGetsockname : ℕ := 51
def sysGetpeername : ℕ := 52
def sysSetsockopt : ℕ := 54
def sysGetrlimit : ℕ := 97
def sysClockGettime : ℕ := 228
def sysEpollWait : ℕ := 232
def sysEpollPwait : ℕ := 281
def sysPipe2 : ℕ := 293

open ArgType in
/-- `syscall_table` as `initSyscallTable` fills it, in its order; `emplace` keeps the first entry of a
number. -/
def syscallTable : List (ℕ × List ArgType) :=
  [(104, []), (102, []), (107, []), (108, []), (39, []),
    (3, [nonPtr]), (12, [addrPtr]), (213, [nonPtr]), (32, [nonPtr]), (291, [nonPtr]), (60, [nonPtr]),
    (63, [oldUtsnamePtr]), (32, [nonPtr]), (sysPipe, [fdPairPtr]),
    (98, [nonPtr, rusagePtr]), (96, [timevalPtr, timezonePtr]), (50, [nonPtr, nonPtr]),
    (sysClockGettime, [nonPtr, timespecPtr]), (21, [charPtr, nonPtr]), (5, [nonPtr, statPtr]),
    (sysPipe2, [fdPairPtr, nonPtr]), (sysGetrlimit, [nonPtr, rlimitPtr]),
    (160, [nonPtr, rlimitPtr]),
    (sysAccept, [nonPtr, sokaddrPtr, intPtr]), (sysBind, [nonPtr, sokaddrPtr, nonPtr]),
    (sysConnect, [nonPtr, sokaddrPtr, nonPtr]), (sysGetsockname, [nonPtr, sockaddrPtr, intPtr]),
    (sysGetpeername, [nonPtr, sockaddrPtr, intPtr]), (16, [nonPtr, nonPtr, nonPtr]),
    (10, [nonPtr, nonPtr, nonPtr]), (72, [nonPtr, nonPtr, nonPtr]), (2, [charPtr, nonPtr, nonPtr]),
    (sysRead, [nonPtr, charPtr, nonPtr]), (41, [nonPtr, nonPtr, nonPtr]),
    (sysWrite, [nonPtr, charPtr, nonPtr]), (sysWritev, [nonPtr, iovecPtr, nonPtr]),
    (46, [nonPtr, msghdrPtr, nonPtr]), (sysRecvmsg, [nonPtr, msghdrPtr, nonPtr]),
    (257, [nonPtr, charPtr, nonPtr, nonPtr]), (288, [nonPtr, sokaddrPtr, intPtr, nonPtr]),
    (233, [nonPtr, nonPtr, nonPtr, eventPtr]), (sysEpollWait, [nonPtr, eventPtr, nonPtr, nonPtr]),
    (sysSetsockopt, [nonPtr, nonPtr, nonPtr, charPtr, nonPtr]),
    (sysSendto, [nonPtr, charPtr, nonPtr, nonPtr, sokaddrPtr, nonPtr]),
    (sysRecvfrom, [nonPtr, charPtr, nonPtr, nonPtr, sokaddrPtr, intPtr]),
    (sysEpollPwait, [nonPtr, eventPtr, nonPtr, nonPtr, sigsetPtr, nonPtr])]

/-- The argument types `interpretSyscall` finds for a call. -/
def interpretSyscall (n : ℕ) : Option (List ArgType) := syscallTable.lookup n

theorem mem_syscallTable {n : ℕ} {types : List ArgType} (h : interpretSyscall n = some types) :
    (n, types) ∈ syscallTable := by
  obtain ⟨l₁, l₂, htab, -⟩ := List.lookup_eq_some_iff.1 h
  rw [htab]
  simp

theorem types_length_le_of_supported {n : ℕ} {types : List ArgType}
    (h : interpretSyscall n = some types) : types.length ≤ 6 := by
  have htable : ∀ e ∈ syscallTable, e.2.length ≤ 6 := by decide
  exact htable (n, types) (mem_syscallTable h)

/-- `getSize`: the length of the unsafe copy of argument `i`, an `unsigned int`.  `arg` are the
arguments of the caller, `mem` its memory. -/
def getSize (n : ℕ) (types : List ArgType) (arg : ℕ → ℕ) (mem : Mem) (i : ℕ) : ℕ :=
  let byLength := arg (i + 1) % 2 ^ 32
  let byPointer := read mem (arg (i + 1)) 4
  let byType := ((types[i]?).bind typeTable).getD 0
  if n = sysRead ∨ n = sysWrite ∨ n = sysBind ∨ n = sysSetsockopt ∨ n = sysSendto ∨
      n = sysConnect then
    byLength
  else if n = sysRecvfrom then
    if i = 1 then byLength else if i = 4 then byPointer else 4
  else if n = sysAccept ∨ n = sysGetsockname ∨ n = sysGetpeername then
    if i = 1 then byPointer else 4
  else if n = sysEpollPwait then
    if i = 4 then byLength else byType * byLength % 2 ^ 32
  else if n = sysEpollWait ∨ n = sysWritev then
    byType * byLength % 2 ^ 32
  else
    byType

theorem typeSize_lt (t : Option ArgType) : (t.bind typeTable).getD 0 < 2 ^ 32 := by
  cases t with
  | none => decide
  | some t => cases t <;> decide

theorem getSize_lt (n : ℕ) (types : List ArgType) (arg : ℕ → ℕ) (mem : Mem) (i : ℕ) :
    getSize n types arg mem i < 2 ^ 32 := by
  have hmod : ∀ a : ℕ, a % 2 ^ 32 < 2 ^ 32 := fun a => Nat.mod_lt _ (by decide)
  have hread : read mem (arg (i + 1)) 4 < 2 ^ 32 := read_lt mem (arg (i + 1)) 4
  have htype := typeSize_lt types[i]?
  unfold getSize
  split_ifs <;> first | exact hmod _ | exact hread | exact htype | decide

/-- The arguments that are written back. -/
def needWriteBack (n i : ℕ) : Bool :=
  (n = sysRead && i = 1) || (n = sysEpollWait && i = 1) || (n = sysEpollPwait && i = 1) ||
  (n = sysGetsockname && i = 1) || (n = sysGetsockname && i = 2) ||
  (n = sysAccept && i = 1) || (n = sysAccept && i = 2) ||
  (n = sysRecvfrom && i = 4) || (n = sysRecvfrom && i = 5) || (n = sysRecvmsg && i = 1) ||
  n = sysPipe || (n = sysPipe2 && i = 0) || (n = sysGetpeername && i = 1) ||
  (n = sysClockGettime && i = 1) || (n = sysGetpeername && i = 2) || (n = sysGetrlimit && i = 1)

/-! ### The layout of a request -/

/-- `sizeof(SyscallRequest)`. -/
def requestSize : ℕ := 216

section Layout

variable (m : Mem) (req : ℕ)

/-- `fm_list.syscall_num`. -/
def syscallNum : ℕ := read m (req + 56) 4

/-- `fm_list.args_num`. -/
def argsNum : ℕ := read m (req + 64) 4

/-- `fm_list.types[i]`. -/
def typesAt (i : ℕ) : ℕ := read m (req + 68 + 4 * i) 4

/-- `fm_list.sizes[i]`. -/
def sizesAt (i : ℕ) : ℕ := read m (req + 92 + 4 * i) 4

/-- `args[i].arg`. -/
def argAt (i : ℕ) : ℕ := read m (req + 120 + 16 * i) 8

end Layout

/-- `enclave_args[i]`. -/
def enclaveArg (m : Mem) (enclaveArgs i : ℕ) : ℕ := read m (enclaveArgs + 8 * i) 8

/-! ### The way back -/

/-- The memory a piece of code leaves: it returned, or it stopped at an access past the end of the
address space. -/
inductive Outcome where
  | returned (m : Mem)
  | faulted (m : Mem)

def Outcome.mem : Outcome → Mem
  | .returned m => m
  | .faulted m => m

@[simp] theorem Outcome.mem_returned (m : Mem) : (Outcome.returned m).mem = m := rfl

/-- The `int len` of `memberWriteBack`, as the `size_t` that `memcpy` gets. -/
def intToSize (len : ℕ) : ℕ :=
  if len % 2 ^ 32 < 2 ^ 31 then len % 2 ^ 32 else len % 2 ^ 32 + (2 ^ 64 - 2 ^ 32)

theorem intToSize_of_lt {len : ℕ} (h : len < 2 ^ 31) : intToSize len = len := by
  rw [intToSize, Nat.mod_eq_of_lt (by omega), if_pos h]

/-- One round of the loop over the segments of a message. -/
def iovecWriteBack (m : Mem) (srcT desT : ℕ) : Mem :=
  let m := copy m (read m desT 8) (read m srcT 8) (intToSize (read m (desT + 8) 8))
  write m (desT + 8) 8 (read m (srcT + 8) 8)

/-- The loop over the segments of a message: `src->msg_iovlen` is read again in every round, `i` is an
`unsigned int`. -/
def iovecLoop (m : Mem) (src srcT desT i : ℕ) : Outcome :=
  if i < read m (src + 24) 8 then
    if srcT + 16 ≤ 2 ^ 64 then
      iovecLoop (iovecWriteBack m srcT desT) src (srcT + 16) (desT + 16) ((i + 1) % 2 ^ 32)
    else .faulted m
  else .returned m
termination_by 2 ^ 64 - srcT

/-- `writeBack` for `recvmsg`. -/
def recvmsgWriteBack (m : Mem) (src des : ℕ) : Outcome :=
  let m := copy m (read m des 8) (read m src 8) (intToSize (read m (des + 8) 4))
  let m := copy m (read m (des + 32) 8) (read m (src + 32) 8) (intToSize (read m (des + 40) 8))
  iovecLoop m src (read m (src + 16) 8) (read m (des + 16) 8) 0

def writeBack (m : Mem) (req enclaveArgs i : ℕ) : Outcome :=
  if typesAt m req i = ArgType.nonPtr.code then
    .returned (write m (enclaveArgs + 8 * i) 8 (argAt m req i))
  else if syscallNum m req = sysRecvmsg then
    recvmsgWriteBack m (argAt m req i) (enclaveArg m enclaveArgs i)
  else
    .returned (copy m (enclaveArg m enclaveArgs i) (argAt m req i) (sizesAt m req i))

/-- The loop of `fillEnclave` from argument `i` on; every field of the request is read again in every
round. -/
def fillEnclaveFrom (m : Mem) (req enclaveArgs i : ℕ) : Outcome :=
  if i < argsNum m req then
    if needWriteBack (syscallNum m req) i then
      match writeBack m req enclaveArgs i with
      | .returned m' => fillEnclaveFrom m' req enclaveArgs (i + 1)
      | .faulted m' => .faulted m'
    else fillEnclaveFrom m req enclaveArgs (i + 1)
  else .returned m
termination_by 2 ^ 32 - i
decreasing_by
  all_goals
    have : argsNum m req < 256 ^ 4 := read_lt ..
    omega

/-- `SyscallRequest::fillEnclave`. -/
def fillEnclave (m : Mem) (req enclaveArgs : ℕ) : Outcome := fillEnclaveFrom m req enclaveArgs 0

end Syscall

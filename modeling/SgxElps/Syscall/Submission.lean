/-
**Calls with whatever arguments.**

A submission is a call about to be marshalled in a new request, in which no `data` is set.  The blocks that
`unsafe_slub_malloc` hands out begin outside the enclave.

Main definitions: `Submission`, `ofBlocks`.
-/

import SgxElps.Syscall.Nested

namespace Syscall

open Bytes
open Span
open List
open Prepared

/-- A call before `fillArgs` has put its copies into blocks outside the enclave. -/
structure Submission extends Marshalling where
  arg_lt : ∀ i, arg i < 2 ^ 64
  data_eq : ∀ i < 6, dataAt mem req i = 0
  placed : ∀ b ∈ (fillArgs alloc mem req n types arg).blocks,
    b.start ∉ bytes ⟨base, enclaveLen⟩ ∧ b.start ≠ 0

namespace Submission

theorem block_placed {c : Submission} {k : ℕ} (h : c.IsPointer k) :
    (c.block k).start ∉ c.enclave ∧ (c.block k).start ≠ 0 :=
  c.placed _ (block_mem_fill h)

/-! ### Concrete calls -/

/-- The fields of a request, in an otherwise empty memory. -/
def requestMem (req n : ℕ) (types : List ArgType) (args : List ℕ) : Mem :=
  let m := write (write (fun _ => 0) (req + 56) 4 n) (req + 64) 4 types.length
  let m := types.zipIdx.foldl (fun m t => write m (req + 68 + 4 * t.2) 4 t.1.code) m
  args.zipIdx.foldl (fun m a => write m (req + 120 + 16 * a.2) 8 a.1) m

theorem getD_lt {args : List ℕ} (h : ∀ a ∈ args, a < 2 ^ 64) (i : ℕ) : args.getD i 0 < 2 ^ 64 := by
  rw [getD_eq_getElem?_getD]
  cases hi : args[i]? with
  | none => decide
  | some a => exact h a (mem_of_getElem? hi)

section Blocks

variable {blocks : List Span} (placed : ∀ b ∈ blocks, 2 ^ 32 ≤ b.start ∧ b.start < 2 ^ 64)
include placed

theorem fresh_of_placed (ends : blocks.Pairwise fun b d =>
      b.len = 0 ∨ d.len = 0 ∨ b.start + b.len ≤ d.start ∨ d.start + d.len ≤ b.start) :
    Fresh (bytes ⟨0x1000, enclaveLen⟩ ∪ bytes ⟨0x100, requestSize⟩) blocks := by
  refine ⟨Span.Separated.of_ends ends, fun b hb x hx => ?_, fun b hb => (placed b hb).2⟩
  have hlow := (placed b hb).1
  have hle := hx.1
  rw [Set.mem_union, mem_bytes, mem_bytes, enclaveLen, requestSize]
  omega

theorem start_notMem_of_placed : ∀ b ∈ blocks,
    b.start ∉ bytes ⟨0x1000, enclaveLen⟩ ∧ b.start ≠ 0 := by
  intro b hb
  have hlow := (placed b hb).1
  rw [mem_bytes, enclaveLen]
  omega

end Blocks

/-- The call whose request is at `0x100` and whose enclave is at `0x1000`, if it gets the given blocks. -/
def ofBlocks (n : ℕ) (types : List ArgType) (args : List ℕ) (mem : Mem) (alloc : Alloc) (blocks : List Span)
    (supported : interpretSyscall n = some types) (args_lt : ∀ a ∈ args, a < 2 ^ 64)
    (syscallNum_eq : syscallNum mem 0x100 = n)
    (types_eq : ∀ i < types.length, ∀ t, types[i]? = some t → typesAt mem 0x100 i = t.code)
    (arg_eq : ∀ i < types.length, argAt mem 0x100 i = args.getD i 0)
    (data_eq : ∀ i < 6, dataAt mem 0x100 i = 0)
    (blocks_eq : (fillArgs alloc mem 0x100 n types fun i => args.getD i 0).blocks = blocks)
    (ends : blocks.Pairwise fun b d =>
      b.len = 0 ∨ d.len = 0 ∨ b.start + b.len ≤ d.start ∨ d.start + d.len ≤ b.start)
    (placed : ∀ b ∈ blocks, 2 ^ 32 ≤ b.start ∧ b.start < 2 ^ 64) : Submission where
  n := n
  types := types
  arg i := args.getD i 0
  mem := mem
  base := 0x1000
  req := 0x100
  alloc := alloc
  supported := supported
  arg_lt := getD_lt args_lt
  syscallNum_eq := syscallNum_eq
  types_eq i t h := types_eq i (List.getElem?_eq_some_iff.1 h).1 t h
  arg_eq := arg_eq
  data_eq := data_eq
  request_unsafe := request_below_enclave
  fresh := by
    rw [blocks_eq]
    exact fresh_of_placed placed ends
  placed := by
    rw [blocks_eq]
    exact start_notMem_of_placed placed

end Submission

end Syscall

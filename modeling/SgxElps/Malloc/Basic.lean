/-
**`malloc`, `free`, `realloc` and `calloc` of the library OS.**

The functions of `libOS/malloc.cpp` stand between the program and three components with failure
conventions of their own.  `malloc` asks the allocator, which returns null if it finds no block; it then
asks `libos_mmap` for pages, which returns -1 if it finds none, gives them to the allocator and asks
it once more.  `realloc` copies as many bytes as the old block has, and `calloc` multiplies in 64 bits.

The state is that of the allocator, of the page manager, and the bytes in memory.  The headers of the
allocator are kept apart from the bytes: an operation of the allocator leaves arbitrary bytes (`image`)
at the headers it may have written to, and does not touch the others.

Main definitions: `expandHeap`, `malloc`, `realloc`, `calloc`, `step`.
-/

import SgxElps.Lib.Bytes
import SgxElps.Alloc.MemAlign
import SgxElps.Mmap.Reserve

namespace Malloc

/-- What stops a call. -/
inductive Stop where
  /-- The trap at the beginning of `malloc`. -/
  | ud2
  /-- An operation of the allocator was undefined or failed a check. -/
  | undefined (f : Alloc.Fault)
  /-- The loop of `allocPages` does not end. -/
  | hang
  /-- A store to address zero, where nothing is mapped. -/
  | nullStore
deriving DecidableEq

/-- `safeAllocator` with the blocks it has handed out, `pageManager`, and the memory. -/
structure Heap where
  heap : Alloc.State
  pm : Mmap.PageManager
  bytes : Bytes.Mem

/-- The longest request for which `malloc` does not trap. -/
def maxLen : ℕ := 0x10000000

/-- `((len + 4095UL) & (~4095UL)) * 2UL`. -/
def expandBy (len : ℕ) : ℕ := Mmap.pageFloor ((len + 4095) % 2 ^ 64) * 2 % 2 ^ 64

/-- The memory after an operation of the allocator. -/
def stored (image : Alloc.Allocator → Bytes.Mem) (al : Alloc.Allocator) (m : Bytes.Mem) : Bytes.Mem :=
  fun y => if ∃ t ∈ al.touched, t ≤ y ∧ y < t + Alloc.maSize then image al y else m y

section Calls

variable (image : Alloc.Allocator → Bytes.Mem)

/-- `safeAllocator->malloc(len)`. -/
def attempt (h : Heap) (len : ℕ) : Except Stop (ℕ × Heap) :=
  match Alloc.malloc h.heap.start len with
  | .error f => .error (.undefined f)
  | .ok (p, al) =>
      .ok (p, { h with
        heap := h.heap.mallocDone len (.ok (p, al))
        bytes := stored image al h.bytes })

/-- The length that `expandHeap` subtracts the size of a header from; it wraps for shorter regions. -/
def wrappedLen (len : ℕ) : ℕ := if len < Alloc.maSize then len + 2 ^ 64 else len

/-- `safeAllocator->expandHeap(base, len)`. -/
def expandHeap (h : Heap) (base len : ℕ) : Heap :=
  let al := Alloc.expandHeap h.heap.start base (wrappedLen len)
  { h with
    heap := { h.heap with
      alloc := al
      bystanders := h.heap.live
      regions := ⟨base, len⟩ :: h.heap.regions }
    bytes := stored image al h.bytes }

/-- `malloc` after its first try has returned null.  `expandHeap` stores a header at the address it is given,
which is null if no pages were asked for. -/
def expandAndRetry (h : Heap) (len : ℕ) : Except Stop (ℕ × Heap) :=
  (Mmap.libosMmap h.pm 0 (expandBy len)).elim (.error .hang) fun r =>
    if r.2 = Mmap.mapFailed then .ok (0, { h with pm := r.1 })
    else if r.2 = 0 then .error .nullStore
    else attempt image (expandHeap image { h with pm := r.1 } r.2 (expandBy len)) len

/-- `malloc`: the pointer returned, and the heap. -/
def malloc (h : Heap) (len : ℕ) : Except Stop (ℕ × Heap) :=
  if maxLen < len then .error .ud2
  else
    (attempt image h len).bind fun r => if r.1 ≠ 0 then .ok r else expandAndRetry image r.2 len

def free (h : Heap) (ptr : ℕ) : Except Stop Heap :=
  match Alloc.free h.heap.start ptr with
  | .error f => .error (.undefined f)
  | .ok al =>
      .ok { h with heap := h.heap.freeDone ptr (.ok al), bytes := stored image al h.bytes }

/-- `realloc`: the pointer returned, the range that `memcpy` has written to, and the heap. -/
def realloc (h : Heap) (ptr newSize : ℕ) : Except Stop (ℕ × Span × Heap) :=
  (malloc image h newSize).map fun r =>
    let len := Alloc.getLen r.2.heap.alloc ptr
    (r.1, ⟨r.1, len⟩, { r.2 with bytes := Bytes.copy r.2.bytes r.1 ptr len })

/-- The product that `calloc` computes. -/
def total (m n : ℕ) : ℕ := m * n % 2 ^ 64

def calloc (h : Heap) (m n : ℕ) : Except Stop (ℕ × Heap) :=
  (malloc image h (total m n)).map fun r =>
    if r.1 = 0 then r
    else (r.1, { r.2 with bytes := Bytes.fill r.2.bytes r.1 0 (total m n) })

/-- `initSafeMalloc`, on a fresh page manager; `allocatorSize` is `sizeof(Allocator)`.  `libos_panic`
writes its message and returns. -/
def initSafeMalloc (allocatorSize : ℕ) (pm : Mmap.PageManager) (bytes : Bytes.Mem) (len : ℕ) :
    Option Heap :=
  (Mmap.libosMmap pm 0 len).map fun r =>
    expandHeap image ⟨Alloc.init, r.1, bytes⟩ ((r.2 + allocatorSize) % 2 ^ 64)
      (Alloc.subSize len allocatorSize)

/-! ### Whole histories -/

inductive Call where
  | malloc (len : ℕ)
  | calloc (m n : ℕ)
  | free (ptr : ℕ)

/-- A call that returns.  `free` is called on null and on live blocks. -/
def step (h : Heap) : Call → Option Heap
  | .malloc len => (malloc image h len).toOption.map Prod.snd
  | .calloc m n => (calloc image h m n).toOption.map Prod.snd
  | .free ptr =>
      if ptr = 0 ∨ ptr ∈ h.heap.live.map fun b => b.1 + Alloc.maSize then
        (free image h ptr).toOption
      else none

end Calls

end Malloc

/-
**The slab allocator for unsafe memory.**

`libOS/slub.cpp` serves small requests for unsafe memory from slabs.  A slab is a block of the unsafe
`Allocator` that begins with a `struct slab` and holds 64 slots of one size, each an object behind a
header that points back to the slab.  For each CPU and each of ten sizes a cache keeps its slabs in
three lists: those with no object in use, those with some and those with all.  A request that is too
long for the largest size goes to the unsafe `Allocator` itself; `unsafe_slub_free` has only the
pointer and always follows the word in front of it to a slab.

The model runs on the model of the `Allocator`.  `slab` is the `struct slab` at an address where one
was constructed, `word` the word in front of an object, which for a block of the `Allocator` is the
canary of its header.

Main definitions: `unsafeSlubMalloc`, `unsafeSlubFree`, `step`.
-/

import SgxElps.Alloc.Safety
import SgxElps.Lib.BitWord
import SgxElps.Lib.Placed

namespace Slub

open Function

variable {Cpu : Type}

/-! ### Sizes -/

/-- `OBJECTS_PER_SLAB`. -/
def objectsPerSlab : ℕ := 64

/-- `NUM_SLUB_BUCKETS`. -/
def numSlubBuckets : ℕ := 10

/-- `sizeof(object_header)`. -/
def headerSize : ℕ := 8

/-- `sizeof(slab)`: the first cache line, and the bitmap with its lock.  All of it is packed. -/
def slabSize : ℕ := 77

/-- `__builtin_clzl`, for a number that is not 0. -/
def builtinClzl (x : ℕ) : ℕ := 63 - Nat.log2 x

/-- The bucket of `unsafe_slub_malloc`. -/
def bucketOf (len : ℕ) : ℕ := if len ≤ 8 then 0 else 64 - builtinClzl (len - 1) - 3

/-- The object size of a bucket, `8 << (i + 1)`. -/
def bucketSize (i : ℕ) : ℕ := 8 * 2 ^ (i + 1)

/-- `alloc_size` in `new_slab`. -/
def allocSize (size : ℕ) : ℕ := (objectsPerSlab * (size + headerSize) - 1) / 4096 * 4096 + 4096

/-- `ret->mem` in `new_slab`. -/
def slabMem (base size : ℕ) : ℕ :=
  (base + slabSize - 1) / (size + headerSize) * (size + headerSize) + (size + headerSize)

/-! ### The state -/

/-- A cache: a CPU and a bucket. -/
abbrev Key (Cpu : Type) := Cpu × ℕ

/-- The three lists of a cache. -/
inductive ListKind where
  | empty | part | full
deriving DecidableEq

structure Slab (Cpu : Type) where
  mem : ℕ
  freeNr : ℕ
  sizeEach : ℕ
  slubCache : Key Cpu
  bitmap : BitVec 64

/-- The address of the header in slot `k`. -/
def Slab.header (sl : Slab Cpu) (k : ℕ) : ℕ := sl.mem + k * (sl.sizeEach + headerSize)

/-- The address of the object in slot `k`. -/
def Slab.object (sl : Slab Cpu) (k : ℕ) : ℕ := sl.header k + headerSize

/-- Where an object came from: slot `k` of the slab at `base`, or a block of the `Allocator`. -/
inductive Place where
  | slot (base k : ℕ)
  | block
deriving DecidableEq

/-- An object in use: its address, the length that was asked for and where it came from. -/
structure Object where
  ptr : ℕ
  len : ℕ
  place : Place
deriving DecidableEq

structure State (Cpu : Type) where
  heap : Alloc.State
  slab : ℕ → Option (Slab Cpu)
  list : Key Cpu × ListKind → List ℕ
  created : Key Cpu → Bool
  word : ℕ → ℕ
  objects : List Object

/-- Before the unsafe `Allocator` gets its memory. -/
def init : State Cpu where
  heap := Alloc.init
  slab _ := none
  list _ := []
  created _ := false
  word _ := 0
  objects := []

/-! ### Slabs -/

/-- `unsafeMalloc`; `none` if the `Allocator` runs into undefined behaviour. -/
def unsafeMalloc (heap : Alloc.State) (len : ℕ) : Option (ℕ × Alloc.State) :=
  match Alloc.malloc heap.start len with
  | .ok (p, al) => some (p, heap.mallocDone len (.ok (p, al)))
  | .error _ => none

variable [DecidableEq Cpu]

/-- `new_slab`, and the assignment of `slub_cache` by its callers.  The placement `new` writes to the
memory without looking whether there is any. -/
def newSlab (s : State Cpu) (key : Key Cpu) : Option (ℕ × State Cpu) :=
  match unsafeMalloc s.heap (allocSize (bucketSize key.2)) with
  | none => none
  | some (base, heap) =>
      if base = 0 then none
      else
        some (base,
          { s with
            heap := heap
            slab := update s.slab base (some
              { mem := slabMem base (bucketSize key.2)
                freeNr := objectsPerSlab
                sizeEach := bucketSize key.2
                slubCache := key
                bitmap := 0 }) })

/-- `slab_allocate_object` on the slab `sl` at `base`: the slot, and the state. -/
def slabAllocateObject (s : State Cpu) (base : ℕ) (sl : Slab Cpu) : Option (ℕ × State Cpu) :=
  (BitWord.firstClear sl.bitmap).map fun k =>
    (k, { s with
      slab := update s.slab base (some
        { sl with freeNr := sl.freeNr - 1, bitmap := sl.bitmap ||| BitVec.twoPow 64 k })
      word := update s.word (sl.object k - headerSize) base })

/-- `list_del` from one list of a cache and `list_add_head` to another. -/
def State.moveSlab (s : State Cpu) (key : Key Cpu) (src dst : ListKind) (base : ℕ) : State Cpu :=
  let list := update s.list (key, src) ((s.list (key, src)).erase base)
  { s with list := update list (key, dst) (base :: list (key, dst)) }

/-- What an allocation from a slab returns. -/
structure Slot where
  ptr : ℕ
  base : ℕ
  k : ℕ

/-- `slub_allocate_per_cpu`. -/
def slubAllocate (s : State Cpu) (key : Key Cpu) : Option (Slot × State Cpu) :=
  match s.list (key, .part) with
  | base :: _ =>
      (s.slab base).bind fun sl =>
        (slabAllocateObject s base sl).map fun (k, s) =>
          (⟨sl.object k, base, k⟩,
            if sl.freeNr - 1 = 0 then s.moveSlab key .part .full base else s)
  | [] =>
      match s.list (key, .empty) with
      | base :: _ =>
          (s.slab base).bind fun sl =>
            (slabAllocateObject s base sl).map fun (k, s) =>
              (⟨sl.object k, base, k⟩, s.moveSlab key .empty .part base)
      | [] =>
          (newSlab s key).bind fun (base, s) =>
            let s := { s with list := update s.list (key, .part) [base] }
            (s.slab base).bind fun sl =>
              (slabAllocateObject s base sl).map fun (k, s) => (⟨sl.object k, base, k⟩, s)

/-- `SlubCache::allocate` makes the cache of a CPU, with one slab, when it is first needed. -/
def allocate (s : State Cpu) (key : Key Cpu) : Option (Slot × State Cpu) :=
  if s.created key then slubAllocate s key
  else
    (newSlab s key).bind fun (base, s) =>
      slubAllocate
        { s with
          created := update s.created key true
          list := update s.list (key, .empty) (base :: s.list (key, .empty)) } key

/-- `slab_free_object` on the slab `sl` at `base`. -/
def slabFreeObject (s : State Cpu) (base : ℕ) (sl : Slab Cpu) (header : ℕ) : State Cpu :=
  let k := (header - sl.mem) / (sl.sizeEach + headerSize)
  { s with
    slab := update s.slab base (some
      { sl with freeNr := sl.freeNr + 1, bitmap := sl.bitmap &&& ~~~BitVec.twoPow 64 k }) }

/-- `slub_free`: the slab is the one the word in front of the object points to. -/
def slubFree (s : State Cpu) (ptr : ℕ) : Option (State Cpu) :=
  let base := s.word (ptr - headerSize)
  (s.slab base).map fun sl =>
    let s := slabFreeObject s base sl (ptr - headerSize)
    if sl.freeNr + 1 = 1 then s.moveSlab sl.slubCache .full .part base
    else if sl.freeNr + 1 = objectsPerSlab then s.moveSlab sl.slubCache .part .empty base
    else s

/-! ### The entry points -/

/-- `unsafe_slub_malloc` on a CPU: the pointer, and the state. -/
def unsafeSlubMalloc (s : State Cpu) (cpu : Cpu) (len : ℕ) : Option (ℕ × State Cpu) :=
  if numSlubBuckets ≤ bucketOf len then
    (unsafeMalloc s.heap len).map fun (p, heap) =>
      (p, if p = 0 then { s with heap := heap }
        else
          { s with
            heap := heap
            word := update s.word (p - headerSize)
              (heap.alloc.mem (p - Alloc.maSize)).canary
            objects := ⟨p, len, .block⟩ :: s.objects })
  else
    (allocate s (cpu, bucketOf len)).map fun (r, s) =>
      (r.ptr, { s with objects := ⟨r.ptr, len, .slot r.base r.k⟩ :: s.objects })

/-- `unsafe_slub_free`. -/
def unsafeSlubFree (s : State Cpu) (ptr : ℕ) : Option (State Cpu) := slubFree s ptr

/-- The largest length that is served from a slab. -/
def maxSlabLen : ℕ := 4096

/-- The operations, and the use that others make of the unsafe `Allocator`. -/
inductive Event (Cpu : Type) where
  | malloc (cpu : Cpu) (len : ℕ)
  | free (o : Object)
  | heap (e : Alloc.Event)

/-- Whether an operation of another client of the `Allocator` leaves slabs and objects alone. -/
def State.Foreign (s : State Cpu) : Alloc.Event → Prop
  | .free p => s.slab p = none ∧ ∀ o ∈ s.objects, o.ptr ≠ p
  | .malloc _ | .expandHeap _ _ => True

instance (s : State Cpu) (e : Alloc.Event) : Decidable (s.Foreign e) := by
  cases e <;> unfold State.Foreign
  · exact inferInstance
  · exact @instDecidableAnd _ _ (decidable_of_iff (s.slab _ |>.isNone) Option.isNone_iff_eq_none) _
  · exact inferInstance

/-- A step.  Objects that are in use are freed, of those that were served from a slab; the history
ends where the `Allocator` runs into undefined behaviour. -/
def step (s : State Cpu) : Event Cpu → Option (State Cpu)
  | .malloc cpu len => (unsafeSlubMalloc s cpu len).map Prod.snd
  | .free o =>
      if o ∈ s.objects ∧ o.len ≤ maxSlabLen then
        (unsafeSlubFree s o.ptr).map fun s => { s with objects := s.objects.erase o }
      else none
  | .heap e =>
      if s.Foreign e then
        match Alloc.step s.heap e with
        | some heap => if heap.fault = none then some { s with heap := heap } else none
        | none => none
      else none

end Slub

/-
**The heap allocator of the library OS.**

`Allocator` of `libOS/allocator.cpp` keeps its free blocks in a red-black tree ordered by address and
in forty chunk lists.  Every block, free or not, begins with a `MemoryArea` header inside the
managed memory.  `malloc` takes the first block that is long enough from the first list that is not
skipped, cuts off the rest if two headers fit into it and otherwise only records the shorter length;
`free` inserts the block in the tree and joins it with its two neighbours there.

The tree is modelled by the sequence of its blocks and a chunk list by its sequence of blocks, with
the operations of the intrusive containers: `insert_equal` inserts at the upper bound of the key,
`erase` on a list takes a node out of the ring it is in, whichever list object it is called on.  The
headers are a map from addresses; `touched` collects the headers an operation may have written to.
The list and tree roots lie in the `Allocator` object, outside the managed regions.

`sizeToBucket` counts the leading zeros of a length as a 32-bit number.  The result of
`__builtin_clz` is undefined for zero, so is everything that follows, and the model stops with
`Fault.undefinedClz`.

Main definitions: `malloc`, `free`, `expandHeap`, `step`.
-/

import SgxElps.Lib.Transition
import SgxElps.Lib.Span
import Mathlib.Logic.Function.Basic
import Mathlib.Algebra.Group.Nat.Defs
import Mathlib.Data.Nat.Log

namespace Alloc

/-- `sizeof(MemoryArea)`: length, flag, base, the hooks of the list and of the tree, checksum, magic
number and canary. -/
def maSize : ℕ := 96

/-- `CHUNK_LIST_SIZE`. -/
def chunkListSize : ℕ := 40

/-- `MIN_PRESERVE_SIZE`. -/
def minPreserveSize : ℕ := 2 * maSize

/-- What stops an operation. -/
inductive Fault where
  /-- `__builtin_clz(0)`. -/
  | undefinedClz
  /-- A failed `assert`. -/
  | assertion
  /-- The trap of `checkWholeTree`. -/
  | ud2
  /-- A store to an address that is never mapped. -/
  | unmapped
deriving DecidableEq

/-! ### Buckets -/

/-- `__builtin_clz` on the low 32 bits of its argument. -/
def builtinClz (x : ℕ) : Except Fault ℕ :=
  if x % 2 ^ 32 = 0 then .error .undefinedClz else .ok (31 - Nat.log2 (x % 2 ^ 32))

def myLog2 (x : ℕ) : Except Fault ℕ := (builtinClz x).map fun c => 32 - c - 1

def sizeToBucket (len : ℕ) : Except Fault ℕ :=
  (myLog2 len).map fun n => if 0 < n then n - 1 else n

/-! ### Headers and lists -/

/-- The header of a block. -/
structure MemoryArea where
  len : ℕ
  free : Bool
  memBase : ℕ
  canary : ℕ

/-- The constructor of `MemoryArea`. -/
def MemoryArea.new (l : ℕ) (vm : ℕ) : MemoryArea := ⟨l, true, vm, 0xbeefbeef⟩

structure Allocator where
  mem : ℕ → MemoryArea
  root : List ℕ
  chunkList : ℕ → List ℕ
  touched : List ℕ

/-- The key-ordered insertion of `insert_equal`, before the first greater key. -/
def insertEqual (key : ℕ → ℕ) (a : ℕ) : List ℕ → List ℕ
  | [] => [a]
  | b :: l => if key a < key b then a :: b :: l else b :: insertEqual key a l

/-- `std::next` of the node `a`. -/
def nextOf (a : ℕ) : List ℕ → Option ℕ
  | [] => none
  | b :: l => if b = a then l.head? else nextOf a l

/-- `std::prev` of the node `a`; there is none if `a` is `root.begin()`. -/
def prevOf (a : ℕ) : List ℕ → Option ℕ
  | b :: c :: l => if c = a then some b else prevOf a (c :: l)
  | _ => none

namespace Allocator

def setHeader (s : Allocator) (a : ℕ) (ma : MemoryArea) : Allocator :=
  { s with mem := Function.update s.mem a ma, touched := s.touched ++ [a] }

/-- `root.insert_equal`; rebalancing may write to any node. -/
def insertRoot (s : Allocator) (a : ℕ) : Allocator :=
  { s with
    root := insertEqual (fun b => (s.mem b).memBase) a s.root
    touched := s.touched ++ a :: s.root }

/-- `root.erase`. -/
def eraseRoot (s : Allocator) (a : ℕ) : Allocator :=
  { s with root := s.root.erase a, touched := s.touched ++ s.root }

/-- `chunkList[i].push_back`. -/
def pushBack (s : Allocator) (i : ℕ) (a : ℕ) : Allocator :=
  { s with
    chunkList := Function.update s.chunkList i (s.chunkList i ++ [a])
    touched := s.touched ++ a :: s.chunkList i }

/-- `erase` on a chunk list: the node leaves the ring it is in. -/
def unlink (s : Allocator) (a : ℕ) : Allocator :=
  { s with
    chunkList := fun i => (s.chunkList i).erase a
    touched := s.touched ++
      (List.range chunkListSize).flatMap fun i => if a ∈ s.chunkList i then s.chunkList i else [] }

end Allocator

/-! ### The operations -/

/-- The members of `Allocator` before the body of the constructor. -/
def Allocator.empty : Allocator where
  mem _ := ⟨0, false, 0, 0⟩
  root := []
  chunkList _ := []
  touched := []

/-- `expandHeap`; it is also the body of the constructor. -/
def expandHeap (s : Allocator) (base : ℕ) (len : ℕ) : Allocator :=
  ((s.setHeader base (.new (len - maSize) base)).pushBack (chunkListSize - 1) base).insertRoot base

/-- The two loops of `malloc`, over the lists `is`: the first block that is long enough in the first
list that is not skipped. -/
def findChunk (mem : ℕ → MemoryArea) (chunkList : ℕ → List ℕ) (len : ℕ) : List ℕ → Option ℕ
  | [] => none
  | i :: is =>
      if 2 ^ (i + 2) ≤ len then findChunk mem chunkList len is
      else
        match (chunkList i).find? fun a => len ≤ (mem a).len with
        | some a => some a
        | none => findChunk mem chunkList len is

/-- Cutting off the rest of a block of length `oldLen` of which `len` bytes are used. -/
def splitRest (s : Allocator) (a : ℕ) (oldLen len : ℕ) : Except Fault Allocator :=
  if minPreserveSize ≤ oldLen - len then
    let curBase := a + maSize + len
    let s := (s.setHeader curBase (.new (oldLen - len - maSize) curBase)).insertRoot curBase
    if (s.mem curBase).len = 1 then .ok (s.pushBack 0 curBase)
    else (sizeToBucket (oldLen - len - maSize)).map fun i => s.pushBack i curBase
  else .ok s

/-- `malloc`: the pointer returned, and the allocator. -/
def malloc (s : Allocator) (len : ℕ) : Except Fault (ℕ × Allocator) :=
  if len = 0 then .ok (0, s)
  else
    match findChunk s.mem s.chunkList len (List.range chunkListSize) with
    | none => .ok (0, s)
    | some a =>
        let oldLen := (s.mem a).len
        let s := s.setHeader a { s.mem a with free := false, len := len }
        (splitRest ((s.eraseRoot a).unlink a) a oldLen len).map fun s => (a + maSize, s)

/-- The part of `free` that joins the block `a` with its successor in the tree. -/
def mergeNext (s : Allocator) (a : ℕ) : Option ℕ → Except Fault Allocator
  | none => .ok s
  | some b =>
      if (s.mem b).free = false then .error .assertion
      else if a + maSize + (s.mem a).len = b then
        (sizeToBucket (s.mem b).len).map fun _ =>
          ((s.unlink b).setHeader a
            { s.mem a with len := (s.mem a).len + (maSize + (s.mem b).len) }).eraseRoot b
      else .ok s

/-- `checkWholeTree`. -/
def checkWholeTree (s : Allocator) : Except Fault Unit :=
  if ∀ a ∈ s.root, (s.mem a).canary = 0xbeefbeef then .ok () else .error .ud2

/-- The end of `free` for a block that is not joined with its predecessor. -/
def linkFreed (s : Allocator) (a : ℕ) : Except Fault Allocator :=
  (sizeToBucket (s.mem a).len).bind fun i =>
    let s := (s.pushBack i a).setHeader a { s.mem a with free := true }
    (checkWholeTree s).map fun _ => s

/-- The part of `free` that joins the block `a` with its predecessor in the tree. -/
def mergePrev (s : Allocator) (a : ℕ) : Option ℕ → Except Fault Allocator
  | none => linkFreed s a
  | some p =>
      if (s.mem p).free = false then .error .assertion
      else if p + maSize + (s.mem p).len = a then
        (sizeToBucket (s.mem p).len).bind fun _ =>
          let s := ((s.unlink p).setHeader p
            { s.mem p with len := (s.mem p).len + (maSize + (s.mem a).len) }).eraseRoot a
          (sizeToBucket (s.mem p).len).map fun i => s.pushBack i p
      else linkFreed s a

def free (s : Allocator) (baseAddr : ℕ) : Except Fault Allocator :=
  if baseAddr = 0 then .ok s
  else
    let a := baseAddr - maSize
    let s := s.insertRoot a
    let mitNext := nextOf a s.root
    let mitPrev := prevOf a s.root
    (mergeNext s a mitNext).bind fun s =>
      (checkWholeTree s).bind fun _ => mergePrev s a mitPrev

/-! ### The allocator with its client -/

/-- `live` are the headers and lengths of the blocks handed out and not yet freed, `bystanders` those
of them that the last operation neither returned nor freed, `regions` the memory supplied so far. -/
structure State where
  alloc : Allocator
  live : List (ℕ × ℕ)
  bystanders : List (ℕ × ℕ)
  regions : List Span
  fault : Option Fault

/-- Before the constructor, whose body is the first `expandHeap`. -/
def init : State := ⟨.empty, [], [], [], none⟩

inductive Event where
  | malloc (len : ℕ)
  | free (p : ℕ)
  | expandHeap (base : ℕ) (len : ℕ)

/-- The range of the block with its header at `a`. -/
def blockAt (mem : ℕ → MemoryArea) (a : ℕ) : Span := ⟨a, maSize + (mem a).len⟩

/-- The range of the block that was handed out with its header at `b.1` and length `b.2`. -/
def liveBlock (b : ℕ × ℕ) : Span := ⟨b.1, maSize + b.2⟩

/-- The allocator at the beginning of an operation. -/
def State.start (s : State) : Allocator := { s.alloc with touched := [] }

/-- The effect of `malloc` on the client's blocks. -/
def State.mallocDone (s : State) (len : ℕ) : Except Fault (ℕ × Allocator) → State
  | .error f => { s with fault := some f }
  | .ok (p, al) =>
      { s with
        alloc := al
        live := if p = 0 then s.live else (p - maSize, len) :: s.live
        bystanders := s.live }

/-- The effect of `free` on the client's blocks. -/
def State.freeDone (s : State) (p : ℕ) : Except Fault Allocator → State
  | .error f => { s with fault := some f }
  | .ok al =>
      let live := s.live.filter fun b => b.1 + maSize ≠ p
      { s with alloc := al, live := live, bystanders := live }

/-- An operation.  `free` is called on pointers that `malloc` has returned and that were not freed
since; `expandHeap` on regions that are larger than a header, end below `2 ^ 64` and are disjoint
from the earlier ones. -/
def step (s : State) : Event → Option State
  | .malloc len => if s.fault = none then some (s.mallocDone len (malloc s.start len)) else none
  | .free p =>
      if s.fault = none ∧ (p = 0 ∨ p ∈ s.live.map fun b => b.1 + maSize) then
        some (s.freeDone p (free s.start p))
      else none
  | .expandHeap base len =>
      if s.fault = none ∧ maSize < len ∧ base + len ≤ 2 ^ 64 ∧
          ∀ r ∈ s.regions, base + len ≤ r.start ∨ r.start + r.len ≤ base then
        some
          { s with
            alloc := expandHeap s.start base len
            bystanders := s.live
            regions := ⟨base, len⟩ :: s.regions }
      else none

/-! ### The arguments of `sizeToBucket` -/

/-- The lengths that `free` passes to `sizeToBucket` once the block `a` is in the tree. -/
def freeArgs (s : Allocator) (a : ℕ) : List ℕ :=
  let next := (nextOf a s.root).filter fun b => a + maSize + (s.mem a).len = b
  let prev := (prevOf a s.root).filter fun p => p + maSize + (s.mem p).len = a
  let len := (s.mem a).len + (next.elim 0 fun b => maSize + (s.mem b).len)
  let nextArgs := next.elim [] fun b => [(s.mem b).len]
  let prevArgs := prev.elim [len] fun p => [(s.mem p).len, (s.mem p).len + (maSize + len)]
  nextArgs ++ prevArgs

/-- The length that `malloc` passes to `sizeToBucket` if it cuts a block. -/
def mallocArgs (s : Allocator) (len : ℕ) : List ℕ :=
  match findChunk s.mem s.chunkList len (List.range chunkListSize) with
  | some a =>
      if len ≠ 0 ∧ minPreserveSize ≤ (s.mem a).len - len then [(s.mem a).len - len - maSize] else []
  | none => []

/-- **The lengths an operation passes to `sizeToBucket`.** -/
def bucketArgs (s : State) : Event → List ℕ
  | .malloc len => mallocArgs s.start len
  | .free p => if p = 0 then [] else freeArgs (s.start.insertRoot (p - maSize)) (p - maSize)
  | .expandHeap _ _ => []

end Alloc

/-
**One cache of slabs, in memory.**

`Slub/Basic.lean` has the slabs of a cache as records and its three lists as sequences.  Here the same
functions of `libOS/slub.cpp` run on bytes: the fields of a `struct slab` are read and stored at their
offsets, the lists are the links that `list_add_head` and `list_del` leave in memory, and the header of
an object is a word in front of it.  Nothing keeps the header of one slab off the fields of another,
except that `mapper` returns fresh memory and that a slab stays inside what it was given.

The object size is a parameter.  `slab::size_each` is an `int32_t`, which the computation of a slot
extends to 64 bits.  For sizes below `2 ^ 57` no computation of `new_slab` wraps around.

Main definitions: `newSlubPerCpu`, `slubAllocatePerCpu`, `slubFree`, `step`.
-/

import SgxElps.Lib.Bytes
import SgxElps.Slub.Basic

namespace Slub.PerCpu

open Bytes
open Function

/-- The object size of a cache, and the address of its `slub_per_cpu`. -/
structure Config where
  size : ℕ
  self : ℕ

/-! ### `struct slab` -/

def next (m : Mem) (b : ℕ) : ℕ := read m b 8

def prev (m : Mem) (b : ℕ) : ℕ := read m (b + 8) 8

/-- The field `mem`. -/
def slots (m : Mem) (b : ℕ) : ℕ := read m (b + 16) 8

def freeNr (m : Mem) (b : ℕ) : ℕ := read m (b + 24) 4

def sizeEach (m : Mem) (b : ℕ) : ℕ := read m (b + 28) 4

def slubCache (m : Mem) (b : ℕ) : ℕ := read m (b + 32) 8

def bitmap (m : Mem) (b : ℕ) : BitVec 64 := BitVec.ofNat 64 (read m (b + 64) 8)

def setNext (m : Mem) (b v : ℕ) : Mem := write m b 8 v

def setPrev (m : Mem) (b v : ℕ) : Mem := write m (b + 8) 8 v

def setSlots (m : Mem) (b v : ℕ) : Mem := write m (b + 16) 8 v

def setFreeNr (m : Mem) (b v : ℕ) : Mem := write m (b + 24) 4 v

def setSizeEach (m : Mem) (b v : ℕ) : Mem := write m (b + 28) 4 v

def setSlubCache (m : Mem) (b v : ℕ) : Mem := write m (b + 32) 8 v

def setBitmap (m : Mem) (b : ℕ) (w : BitVec 64) : Mem := write m (b + 64) 8 w.toNat

/-- `size_each + sizeof(object_header)`: the `int32_t` is extended to 64 bits. -/
def stride (size : ℕ) : ℕ :=
  (if size < 2 ^ 31 then size + headerSize else size + (2 ^ 64 - 2 ^ 32) + headerSize) % 2 ^ 64

/-! ### The lists -/

/-- `list_add_head`: the memory, and the head of the list. -/
def listAddHead (m : Mem) (head obj : ℕ) : Mem × ℕ :=
  let m := setNext m obj head
  let m := if next m obj ≠ 0 then setPrev m (next m obj) obj else m
  (setPrev m obj 0, obj)

/-- `list_del`: the memory, and the head of the list. -/
def listDel (m : Mem) (head obj : ℕ) : Mem × ℕ :=
  let r := if prev m obj ≠ 0 then (setNext m (prev m obj) (next m obj), head) else (m, next m obj)
  let m := r.1
  let m := if next m obj ≠ 0 then setPrev m (next m obj) (prev m obj) else m
  (setNext (setPrev m obj 0) obj 0, r.2)

/-! ### Slabs -/

/-- `new_slab` in the memory at `base`: the members are initialised, then set. -/
def newSlab (cfg : Config) (m : Mem) (base : ℕ) : Mem :=
  let m := setPrev (setNext m base 0) base 0
  let m := setSizeEach (setFreeNr (setSlots m base 0) base objectsPerSlab) base 0
  let m := setBitmap (setSlubCache m base 0) base 0
  let m := write m (base + 72) 4 0
  setSizeEach (setFreeNr (setSlots m base (slabMem base cfg.size)) base objectsPerSlab) base cfg.size

/-- `slab_allocate_object`: the memory, and the object; `none` if no slot is free. -/
def slabAllocateObject (m : Mem) (b : ℕ) : Option (Mem × ℕ) :=
  (BitWord.firstClear (bitmap m b)).map fun slot =>
    let m := setBitmap m b (bitmap m b ||| BitVec.twoPow 64 slot)
    let ret := (slots m b + slot * stride (sizeEach m b) + headerSize) % 2 ^ 64
    let m := write m ((ret + (2 ^ 64 - headerSize)) % 2 ^ 64) 8 b
    (setFreeNr m b (freeNr m b + (2 ^ 32 - 1)), ret)

/-- The slot that `slab_free_object` computes. -/
def slotOf (m : Mem) (b header : ℕ) : ℕ :=
  (header + (2 ^ 64 - slots m b)) % 2 ^ 64 / stride (sizeEach m b) % 2 ^ 32

/-- `slab_free_object`; `none` if it clears a bit outside the bitmap. -/
def slabFreeObject (m : Mem) (b header : ℕ) : Option Mem :=
  let slot := slotOf m b header
  if slot < objectsPerSlab then
    let m := setBitmap m b (bitmap m b &&& ~~~BitVec.twoPow 64 slot)
    some (setFreeNr m b (freeNr m b + 1))
  else none

/-! ### The cache -/

/-- The memory and the heads of the three lists; the slabs created and the objects in use so far.
`fault` is set when a null pointer, or what is no cache, is dereferenced. -/
structure State where
  mem : Mem
  head : ListKind → ℕ
  slabs : List ℕ
  live : List ℕ
  fault : Bool

/-- `list_del` from one list and `list_add_head` to another. -/
def State.move (s : State) (src dst : ListKind) (b : ℕ) : State :=
  let r := listDel s.mem (s.head src) b
  let head := update s.head src r.2
  let r := listAddHead r.1 (head dst) b
  { s with mem := r.1, head := update head dst r.2 }

/-- `new_slab`, and the assignment of `slub_cache` by its callers. -/
def mapSlab (cfg : Config) (m : Mem) (base : ℕ) : Mem :=
  setSlubCache (newSlab cfg m base) base cfg.self

/-- `new_slub_per_cpu`, whose first slab is mapped at `base`. -/
def newSlubPerCpu (cfg : Config) (m : Mem) (base : ℕ) : State :=
  let r := listAddHead (mapSlab cfg m base) 0 base
  { mem := r.1
    head := update (fun _ => 0) .empty r.2
    slabs := [base]
    live := []
    fault := false }

/-- `slub_allocate_per_cpu`, if `mapper` returns `base` when it is called: the object, and the state. -/
def slubAllocatePerCpu (cfg : Config) (s : State) (base : ℕ) : Option (ℕ × State) :=
  if s.head .part ≠ 0 then
    (slabAllocateObject s.mem (s.head .part)).map fun (m, ret) =>
      let s' := { s with mem := m }
      (ret, if freeNr m (s.head .part) = 0 then s'.move .part .full (s.head .part) else s')
  else if s.head .empty ≠ 0 then
    (slabAllocateObject s.mem (s.head .empty)).map fun (m, ret) =>
      (ret, { s with mem := m }.move .empty .part (s.head .empty))
  else
    (slabAllocateObject (mapSlab cfg s.mem base) base).map fun (m, ret) =>
      (ret, { s with
        mem := m
        head := update s.head .part base
        slabs := base :: s.slabs })

/-- `slub_free`. -/
def slubFree (cfg : Config) (s : State) (obj : ℕ) : Option State :=
  let header := (obj + (2 ^ 64 - headerSize)) % 2 ^ 64
  let parent := read s.mem header 8
  if parent = 0 ∨ slubCache s.mem parent ≠ cfg.self then none
  else
    (slabFreeObject s.mem parent header).map fun m =>
      let s := { s with mem := m }
      let parent := read m header 8
      if freeNr m parent = 1 then s.move .full .part parent
      else if freeNr m parent = objectsPerSlab then s.move .part .empty parent
      else s

/-! ### The cache with its clients and its mapper -/

inductive Event where
  /-- `base` is what `mapper` returns if it is called. -/
  | allocate (base : ℕ)
  | free (obj : ℕ)

/-- The memory that `mapper` returns: not null, below the end of the address space, and in no slab. -/
def Fresh (cfg : Config) (slabs : List ℕ) (base : ℕ) : Prop :=
  base ≠ 0 ∧ base + allocSize cfg.size < 2 ^ 64 ∧
    ∀ b ∈ slabs, base + allocSize cfg.size ≤ b ∨ b + allocSize cfg.size ≤ base

instance (cfg : Config) (slabs : List ℕ) (base : ℕ) : Decidable (Fresh cfg slabs base) := by
  unfold Fresh
  exact inferInstance

/-- A step.  Objects that are in use are freed. -/
def step (cfg : Config) (s : State) : Event → Option State
  | .allocate base =>
      if s.fault = false ∧ (s.head .part ≠ 0 ∨ s.head .empty ≠ 0 ∨ Fresh cfg s.slabs base) then
        match slubAllocatePerCpu cfg s base with
        | some (ret, s') => some { s' with live := ret :: s.live }
        | none => some { s with fault := true }
      else none
  | .free obj =>
      if s.fault = false ∧ obj ∈ s.live then
        match slubFree cfg s obj with
        | some s' => some { s' with live := s.live.erase obj }
        | none => some { s with fault := true }
      else none

end Slub.PerCpu

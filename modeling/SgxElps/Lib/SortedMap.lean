/-
**Sorted maps.**

A map with ordered keys, as the list of its entries in increasing order of the keys.  The map carries
the proof that it is sorted, so that an operation shows it once and its users not at all.  Besides the
entry that is put in, this module has the neighbours of a key: the first entry after it, and the last one
that is not after it.

Main definitions: `SortedMap`, `floor`, `insert`.  Main results: `floor_eq_some`, `mem_insert`.
-/

import Mathlib.Order.Lattice
import Mathlib.Data.List.Pairwise

structure SortedMap (K V : Type) [LinearOrder K] where
  entries : List (K × V)
  sorted : entries.Pairwise fun e f => e.1 < f.1

namespace SortedMap

open List

variable {K V : Type} [LinearOrder K] {m : SortedMap K V} {k : K} {v : V} {e f : K × V}

def empty : SortedMap K V := ⟨[], List.Pairwise.nil⟩

/-! ### Neighbours of a key -/

/-- The first entry with a key greater than `k`. -/
def upperBound (m : SortedMap K V) (k : K) : Option (K × V) := m.entries.find? fun e => k < e.1

/-- The last entry with a key not greater than `k`: the one before the upper bound. -/
def floor (m : SortedMap K V) (k : K) : Option (K × V) :=
  (m.entries.filter fun e => e.1 ≤ k).getLast?

theorem upperBound_eq_none (h : m.upperBound k = none) (he : e ∈ m.entries) : e.1 ≤ k := by
  have := find?_eq_none.1 h e he
  simpa using this

/-- Every entry with a greater key is the upper bound or comes after it. -/
theorem upperBound_eq_some (h : m.upperBound k = some e) :
    e ∈ m.entries ∧ k < e.1 ∧ ∀ f ∈ m.entries, k < f.1 → e = f ∨ e.1 < f.1 := by
  obtain ⟨hk, l₁, l₂, heq, hl1⟩ := find?_eq_some_iff_append.1 h
  have hsorted := m.sorted
  rw [heq] at hsorted ⊢
  refine ⟨by simp, by simpa using hk, fun f hf hkf => ?_⟩
  rw [mem_append, mem_cons] at hf
  rcases hf with hf | rfl | hf
  · have := hl1 f hf
    simp [hkf] at this
  · exact .inl rfl
  · exact .inr ((pairwise_cons.1 (pairwise_append.1 hsorted).2.1).1 f hf)

theorem floor_eq_none (h : m.floor k = none) (he : e ∈ m.entries) : k < e.1 := by
  rw [floor, getLast?_eq_none_iff, filter_eq_nil_iff] at h
  simpa using h e he

/-- Every entry with a key that is not greater is the floor or comes before it. -/
theorem floor_eq_some (h : m.floor k = some e) :
    e ∈ m.entries ∧ e.1 ≤ k ∧ ∀ f ∈ m.entries, f.1 ≤ k → f = e ∨ f.1 < e.1 := by
  obtain ⟨l, hl⟩ := getLast?_eq_some_iff.1 h
  have hmem : ∀ f, f ∈ m.entries ∧ f.1 ≤ k ↔ f ∈ l ∨ f = e := by
    intro f
    have : f ∈ m.entries.filter (fun e => e.1 ≤ k) ↔ f ∈ l ++ [e] := by rw [hl]
    simpa using this
  have hsorted := m.sorted.filter fun e => e.1 ≤ k
  rw [hl] at hsorted
  obtain ⟨he, hek⟩ := (hmem e).2 (.inr rfl)
  refine ⟨he, hek, fun f hf hfk => ?_⟩
  rcases (hmem f).1 ⟨hf, hfk⟩ with hfl | rfl
  · exact .inr ((pairwise_append.1 hsorted).2.2 f hfl e (mem_singleton_self e))
  · exact .inl rfl

/-! ### Putting an entry in -/

/-- The entry goes to its place; one with the same key is replaced. -/
def insertEntry (k : K) (v : V) : List (K × V) → List (K × V)
  | [] => [(k, v)]
  | e :: l =>
      if e.1 < k then e :: insertEntry k v l
      else if e.1 = k then (k, v) :: l
      else (k, v) :: e :: l

theorem mem_insertEntry {l : List (K × V)} (hl : l.Pairwise fun e f => e.1 < f.1) :
    f ∈ insertEntry k v l ↔ f = (k, v) ∨ f ∈ l ∧ f.1 ≠ k := by
  induction l with
  | nil => simp [insertEntry]
  | cons e l ih =>
    obtain ⟨hel, hl⟩ := pairwise_cons.1 hl
    unfold insertEntry
    split
    · next hlt =>
      rw [mem_cons, ih hl, mem_cons]
      constructor
      · rintro (rfl | h | h)
        · exact .inr ⟨.inl rfl, hlt.ne⟩
        · exact .inl h
        · exact .inr ⟨.inr h.1, h.2⟩
      · rintro (h | ⟨rfl | h, hk⟩)
        · exact .inr (.inl h)
        · exact .inl rfl
        · exact .inr (.inr ⟨h, hk⟩)
    · next hnlt =>
      split
      · next heq =>
        -- the entry is replaced, and the later ones have greater keys
        rw [mem_cons, mem_cons]
        constructor
        · rintro (h | h)
          · exact .inl h
          · exact .inr ⟨.inr h, heq ▸ (hel f h).ne'⟩
        · rintro (h | ⟨rfl | h, hk⟩)
          · exact .inl h
          · exact absurd heq hk
          · exact .inr h
      · next hne =>
        have hgt : k < e.1 := lt_of_le_of_ne (not_lt.1 hnlt) (Ne.symm hne)
        rw [mem_cons, mem_cons]
        constructor
        · rintro (h | rfl | h)
          · exact .inl h
          · exact .inr ⟨.inl rfl, hne⟩
          · exact .inr ⟨.inr h, (hgt.trans (hel f h)).ne'⟩
        · rintro (h | ⟨h, -⟩)
          · exact .inl h
          · exact .inr h

theorem sorted_insertEntry {l : List (K × V)} (hl : l.Pairwise fun e f => e.1 < f.1) :
    (insertEntry k v l).Pairwise fun e f => e.1 < f.1 := by
  induction l with
  | nil => simp [insertEntry]
  | cons e l ih =>
    obtain ⟨hel, hl'⟩ := pairwise_cons.1 hl
    unfold insertEntry
    split
    · next hlt =>
      refine pairwise_cons.2 ⟨fun f hf => ?_, ih hl'⟩
      rcases (mem_insertEntry hl').1 hf with rfl | ⟨hf, -⟩
      · exact hlt
      · exact hel f hf
    · next hnlt =>
      split
      · next heq => exact pairwise_cons.2 ⟨fun f hf => heq ▸ hel f hf, hl'⟩
      · next hne =>
        have hgt : k < e.1 := lt_of_le_of_ne (not_lt.1 hnlt) (Ne.symm hne)
        refine pairwise_cons.2 ⟨fun f hf => ?_, hl⟩
        rcases mem_cons.1 hf with rfl | hf
        · exact hgt
        · exact hgt.trans (hel f hf)

def insert (m : SortedMap K V) (k : K) (v : V) : SortedMap K V :=
  ⟨insertEntry k v m.entries, sorted_insertEntry m.sorted⟩

/-- **The entries afterwards.** -/
theorem mem_insert : f ∈ (m.insert k v).entries ↔ f = (k, v) ∨ f ∈ m.entries ∧ f.1 ≠ k :=
  mem_insertEntry m.sorted

end SortedMap

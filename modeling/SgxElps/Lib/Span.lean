/-
**Half-open ranges of addresses.**

A span is a range `[start, start + len)`.  A list of spans is *separated* if no two of its entries
have a byte in common.  Memory managers cut spans into parts, join neighbours and hand spans from
one owner to another; this module has the rules for these moves.

Main definitions: `Span`, `bytes`, `covered`, `Separated`.
Main results: `disjoint_bytes`, `Separated.join`.
-/

import Mathlib.Data.List.Perm.Basic
import Mathlib.Data.List.Pairwise
import Mathlib.Order.CompletePartialOrder
import Mathlib.Order.Interval.Set.Disjoint

/-- The range `[start, start + len)`. -/
structure Span where
  start : ℕ
  len : ℕ
deriving DecidableEq

namespace Span

/-- The addresses in the range. -/
def bytes (b : Span) : Set ℕ := Set.Ico b.start (b.start + b.len)

theorem mem_bytes {a n x : ℕ} : x ∈ (⟨a, n⟩ : Span).bytes ↔ a ≤ x ∧ x < a + n := Iff.rfl

theorem add_mem_bytes {b : Span} {o : ℕ} (h : o < b.len) : b.start + o ∈ b.bytes :=
  ⟨Nat.le_add_right .., Nat.add_lt_add_left h _⟩

theorem mem_bytes_of_le {a n b k x : ℕ} (hx : x ∈ (⟨a, n⟩ : Span).bytes) (h1 : b ≤ a)
    (h2 : a + n ≤ b + k) : x ∈ (⟨b, k⟩ : Span).bytes := by
  rw [mem_bytes] at *
  omega

variable {b c d : Span}

theorem bytes_subset (h1 : c.start ≤ b.start) (h2 : b.start + b.len ≤ c.start + c.len) :
    b.bytes ⊆ c.bytes :=
  Set.Ico_subset_Ico h1 h2

theorem disjoint_bytes (h : b.start + b.len ≤ c.start) : Disjoint b.bytes c.bytes := by
  rw [Set.disjoint_left]
  rintro x ⟨-, hb⟩ ⟨hc, -⟩
  omega

/-- Spans that are not empty and do not overlap begin at different addresses. -/
theorem start_ne (h : Disjoint b.bytes c.bytes) (hb : 0 < b.len) (hc : 0 < c.len) :
    b.start ≠ c.start := by
  intro heq
  have hxb : b.start ∈ b.bytes := ⟨le_refl _, by omega⟩
  have hxc : b.start ∈ c.bytes := ⟨heq.ge, by omega⟩
  exact Set.disjoint_left.1 h hxb hxc

/-- Of two spans that do not overlap, the one that begins first ends before the other begins. -/
theorem end_le_start (h : Disjoint b.bytes c.bytes) (hc : 0 < c.len) (hlt : b.start < c.start) :
    b.start + b.len ≤ c.start := by
  by_contra hend
  have hxb : c.start ∈ b.bytes := ⟨hlt.le, by omega⟩
  have hxc : c.start ∈ c.bytes := ⟨le_refl _, by omega⟩
  exact Set.disjoint_left.1 h hxb hxc

/-- A span that is not empty is determined by its addresses. -/
theorem eq_of_bytes_eq (hb : 0 < b.len) (hc : 0 < c.len) (h : b.bytes = c.bytes) : b = c := by
  have hb1 : b.start ∈ c.bytes := h ▸ ⟨le_refl _, by omega⟩
  have hc1 : c.start ∈ b.bytes := h ▸ ⟨le_refl _, by omega⟩
  have hb2 : b.start + b.len - 1 ∈ c.bytes := h ▸ ⟨by omega, by omega⟩
  have hc2 : c.start + c.len - 1 ∈ b.bytes := h ▸ ⟨by omega, by omega⟩
  obtain ⟨x, n⟩ := b
  obtain ⟨y, m⟩ := c
  rw [mem_bytes] at hb1 hc1 hb2 hc2
  simp only at hb hc hb1 hc1 hb2 hc2
  simp only [mk.injEq]
  omega

/-- Two spans of which the second begins where the first ends. -/
theorem bytes_join (h : b.start + b.len = c.start) :
    (⟨b.start, b.len + c.len⟩ : Span).bytes = b.bytes ∪ c.bytes := by
  unfold bytes
  rw [← h, Set.Ico_union_Ico_eq_Ico (Nat.le_add_right ..) (Nat.le_add_right ..), Nat.add_assoc]

/-- The addresses in any of the ranges. -/
def covered (l : List Span) : Set ℕ := { x | ∃ b ∈ l, x ∈ b.bytes }

theorem mem_covered_cons {l : List Span} {x : ℕ} :
    x ∈ covered (b :: l) ↔ x ∈ b.bytes ∨ x ∈ covered l :=
  List.exists_mem_cons_iff ..

theorem mem_covered_map {α : Type} {f : α → Span} {l : List α} {x : ℕ} :
    x ∈ covered (l.map f) ↔ ∃ a ∈ l, x ∈ (f a).bytes := by
  simp [covered]

theorem subset_covered {l : List Span} (hb : b ∈ l) : b.bytes ⊆ covered l := fun _ hx => ⟨b, hb, hx⟩

/-- No two entries of the list overlap. -/
def Separated (l : List Span) : Prop := l.Pairwise fun b c => Disjoint b.bytes c.bytes

namespace Separated

variable {l l' n : List Span}

theorem perm (h : Separated l) (hp : l.Perm l') : Separated l' :=
  (hp.pairwise_iff fun hd => hd.symm).1 h

theorem sublist (h : Separated l) (hs : l'.Sublist l) : Separated l' :=
  List.Pairwise.sublist hs h

theorem cons_iff : Separated (b :: l) ↔ (∀ c ∈ l, Disjoint b.bytes c.bytes) ∧ Separated l :=
  List.pairwise_cons

/-- Separation by the end points, which can be decided. -/
theorem of_ends (h : l.Pairwise fun b c =>
    b.len = 0 ∨ c.len = 0 ∨ b.start + b.len ≤ c.start ∨ c.start + c.len ≤ b.start) : Separated l := by
  refine h.imp fun {b c} hends => Set.disjoint_left.2 ?_
  rintro x ⟨hb1, hb2⟩ ⟨hc1, hc2⟩
  omega

theorem replace (h : Separated (b :: l)) (hn : Separated n) (hin : ∀ c ∈ n, c.bytes ⊆ b.bytes) :
    Separated (n ++ l) := by
  obtain ⟨hb, hl⟩ := cons_iff.1 h
  refine List.pairwise_append.2 ⟨hn, hl, fun c hc d hd => ?_⟩
  exact (hb d hd).mono_left (hin c hc)

theorem join (h : Separated (b :: c :: l)) (hbc : b.start + b.len = c.start) :
    Separated (⟨b.start, b.len + c.len⟩ :: l) := by
  obtain ⟨hb, hl⟩ := cons_iff.1 h
  obtain ⟨hc, hl⟩ := cons_iff.1 hl
  refine cons_iff.2 ⟨fun d hd => ?_, hl⟩
  rw [bytes_join hbc, Set.disjoint_union_left]
  exact ⟨hb d (List.mem_cons_of_mem _ hd), hc d hd⟩

end Separated

end Span

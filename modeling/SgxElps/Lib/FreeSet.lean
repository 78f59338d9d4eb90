/-
**Sets of free spans.**

A memory manager that joins what it gets back with the neighbouring free spans keeps its free spans
apart: none of them begins where another one ends.  This module states that operation on sets of
spans, without an order and without a data structure, and proves what it is for: the free addresses
are those there were and those given back, and as soon as the free spans together are one range
there is only one of them.

Main results:

* `Span.bytesOf_coalesce` — **joining spans neither loses nor adds addresses**;
* `Span.Apart.coalesce` — **joined spans stay apart**;
* `Span.Apart.eq_singleton` — **spans that are apart and together make up a range are that range**.
-/

import SgxElps.Lib.Span
import Mathlib.Data.Set.Pairwise.Lattice

namespace Span

variable {F : Set Span} {b c x : Span}

/-- The second span begins where the first one ends. -/
def Touches (b c : Span) : Prop := b.start + b.len = c.start

/-- The addresses in a set of spans. -/
def bytesOf (F : Set Span) : Set ℕ := { y | ∃ b ∈ F, y ∈ b.bytes }

/-- The free spans that `b` touches. -/
def neighbours (F : Set Span) (b : Span) : Set Span := { c ∈ F | b.Touches c ∨ c.Touches b }

/-- The free spans after `b` was given back: `b` and the spans it touches have become one. -/
def coalesce (F : Set Span) (b : Span) : Set Span :=
  { x | x ∈ F \ neighbours F b ∨ x.bytes = bytesOf (insert b (neighbours F b)) }

/-- No two spans touch. -/
def Apart (F : Set Span) : Prop := ∀ b ∈ F, ∀ c ∈ F, ¬ b.Touches c

theorem bytesOf_insert : bytesOf (insert b F) = b.bytes ∪ bytesOf F := by
  ext y
  simp [bytesOf]

theorem bytesOf_union {G : Set Span} : bytesOf (F ∪ G) = bytesOf F ∪ bytesOf G := by
  ext y
  simp only [bytesOf, Set.mem_union, Set.mem_ofPred_eq, or_and_right, exists_or]

/-- A span is not changed by giving back one that does not touch it. -/
theorem mem_coalesce_of_not_touches (hx : x ∈ F) (h1 : ¬ b.Touches x) (h2 : ¬ x.Touches b) :
    x ∈ coalesce F b :=
  Or.inl ⟨hx, fun h => h.2.elim h1 h2⟩

/-! ### Joined spans -/

/-- What begins at the end of a joined span begins at the end of a part of it. -/
theorem exists_touches_of_bytes_eq (hpos : 0 < x.len) (hx : x.bytes = bytesOf F)
    (h : x.Touches c) : ∃ p ∈ F, p.Touches c := by
  have hlast : x.start + x.len - 1 ∈ bytesOf F := hx ▸ ⟨by omega, by omega⟩
  obtain ⟨p, hp, hlo, hhi⟩ := hlast
  refine ⟨p, hp, ?_⟩
  have hend : p.start + p.len - 1 ∈ x.bytes := hx ▸ ⟨p, hp, by omega, by omega⟩
  have := hend.2
  unfold Touches at *
  omega

/-- What ends at the beginning of a joined span ends at the beginning of a part of it. -/
theorem exists_touches_of_eq_bytes (hpos : 0 < x.len) (hx : x.bytes = bytesOf F)
    (h : c.Touches x) : ∃ p ∈ F, c.Touches p := by
  have hfirst : x.start ∈ bytesOf F := hx ▸ ⟨le_refl _, by omega⟩
  obtain ⟨p, hp, hlo, hhi⟩ := hfirst
  refine ⟨p, hp, ?_⟩
  have hstart : p.start ∈ x.bytes := hx ▸ ⟨p, hp, le_refl _, by omega⟩
  have := hstart.1
  unfold Touches at *
  omega

theorem pos_of_bytes_eq (hb : 0 < b.len) (hx : x.bytes = bytesOf (insert b F)) : 0 < x.len := by
  have hmem : b.start ∈ x.bytes := by
    rw [hx]
    exact ⟨b, Set.mem_insert .., le_refl _, by omega⟩
  obtain ⟨h1, h2⟩ := hmem
  omega

/-- Joining on one side first and then on the other: the addresses … -/
theorem bytes_eq_of_joins {b' y : Span} (hstart : b'.start = b.start)
    (h1 : b'.bytes = bytesOf (insert b { c ∈ F | b.Touches c }))
    (h2 : y.bytes = bytesOf (insert b' { c ∈ F | ¬ b.Touches c ∧ c.Touches b' })) :
    y.bytes = bytesOf (insert b (neighbours F b)) := by
  have htouch : ∀ c : Span, c.Touches b' ↔ c.Touches b := fun c => by rw [Touches, Touches, hstart]
  simp only [htouch] at h2
  have hparts : neighbours F b =
      { c ∈ F | b.Touches c } ∪ { c ∈ F | ¬ b.Touches c ∧ c.Touches b } := by
    ext c
    simp only [neighbours, Set.mem_ofPred_eq, Set.mem_union]
    tauto
  rw [h2, bytesOf_insert, h1, bytesOf_insert, bytesOf_insert, hparts, bytesOf_union, Set.union_assoc]

/-- … and the free spans. -/
theorem coalesce_eq {b' y : Span} (hb : 0 < b.len) (hstart : b'.start = b.start)
    (h1 : b'.bytes = bytesOf (insert b { c ∈ F | b.Touches c }))
    (h2 : y.bytes = bytesOf (insert b' { c ∈ F | ¬ b.Touches c ∧ c.Touches b' })) :
    coalesce F b = insert y { c ∈ F | ¬ b.Touches c ∧ ¬ c.Touches b' } := by
  have hy := bytes_eq_of_joins hstart h1 h2
  have htouch : ∀ c : Span, c.Touches b' ↔ c.Touches b := fun c => by rw [Touches, Touches, hstart]
  simp only [htouch]
  ext x
  constructor
  · rintro (⟨hx, hn⟩ | hx)
    · exact Or.inr ⟨hx, fun h => hn ⟨hx, Or.inl h⟩, fun h => hn ⟨hx, Or.inr h⟩⟩
    · exact Or.inl (eq_of_bytes_eq (pos_of_bytes_eq hb hx) (pos_of_bytes_eq hb hy) (hx.trans hy.symm))
  · rintro (rfl | ⟨hx, hn1, hn2⟩)
    · exact Or.inr hy
    · exact mem_coalesce_of_not_touches hx hn1 hn2

/-- The same for a manager that puts `b` among its free spans before it joins them. -/
theorem coalesce_of_joins {G : Set Span} {b' y : Span} (hb : 0 < b.len) (hb' : 0 < b'.len)
    (hF : ∀ c ∈ F, c.start ≠ b.start) (hstart : b'.start = b.start)
    (h1 : b'.bytes = bytesOf (insert b { c ∈ insert b F | b.Touches c }))
    (hG : G = insert b' { c ∈ insert b F | c.start ≠ b.start ∧ ¬ b.Touches c })
    (h2 : y.bytes = bytesOf (insert b' { c ∈ G | c.Touches b' })) :
    insert y { c ∈ G | c.start ≠ b.start ∧ ¬ c.Touches b' } = coalesce F b := by
  have hself : ∀ {x : Span}, 0 < x.len → ¬ x.Touches x := by
    intro x hx htouch
    unfold Touches at htouch
    omega
  have hnext : { c ∈ insert b F | b.Touches c } = { c ∈ F | b.Touches c } := by
    ext c
    refine ⟨fun hc => ⟨hc.1.resolve_left fun heq => hself hb (heq ▸ hc.2), hc.2⟩, fun hc => ?_⟩
    exact ⟨Or.inr hc.1, hc.2⟩
  have hmem : ∀ c, c ∈ G ↔ c = b' ∨ (c ∈ F ∧ ¬ b.Touches c) := by
    intro c
    rw [hG]
    constructor
    · rintro (rfl | ⟨rfl | hc, hne, hnt⟩)
      · exact Or.inl rfl
      · exact absurd rfl hne
      · exact Or.inr ⟨hc, hnt⟩
    · rintro (rfl | ⟨hc, hnt⟩)
      · exact Or.inl rfl
      · exact Or.inr ⟨Or.inr hc, hF c hc, hnt⟩
  have hprev : { c ∈ G | c.Touches b' } = { c ∈ F | ¬ b.Touches c ∧ c.Touches b' } := by
    ext c
    constructor
    · rintro ⟨hc, htouch⟩
      rcases (hmem c).1 hc with rfl | ⟨hcF, hnt⟩
      · exact absurd htouch (hself hb')
      · exact ⟨hcF, hnt, htouch⟩
    · rintro ⟨hc, hnt, htouch⟩
      exact ⟨(hmem c).2 (Or.inr ⟨hc, hnt⟩), htouch⟩
  rw [hnext] at h1
  rw [hprev] at h2
  rw [coalesce_eq hb hstart h1 h2]
  congr 1
  ext c
  constructor
  · rintro ⟨hc, hne, htouch⟩
    rcases (hmem c).1 hc with rfl | ⟨hcF, hnt⟩
    · exact absurd hstart hne
    · exact ⟨hcF, hnt, htouch⟩
  · rintro ⟨hc, hnt, htouch⟩
    exact ⟨(hmem c).2 (Or.inr ⟨hc, hnt⟩), hF c hc, htouch⟩

/-- A span and its only neighbour on one side. -/
theorem bytesOf_insert_unique {P : Span → Prop} (hc : c ∈ F) (hP : P c)
    (hunique : ∀ d ∈ F, P d → d = c) :
    bytesOf (insert b { d ∈ F | P d }) = b.bytes ∪ c.bytes := by
  have hset : { d ∈ F | P d } = {c} := by
    refine Set.eq_singleton_iff_unique_mem.2 ⟨⟨hc, hP⟩, fun d hd => hunique d hd.1 hd.2⟩
  rw [hset, bytesOf_insert]
  congr 1
  ext y
  simp [bytesOf]

theorem bytesOf_insert_empty {P : Span → Prop} (hP : ∀ d ∈ F, ¬ P d) :
    bytesOf (insert b { d ∈ F | P d }) = b.bytes := by
  have hset : { d ∈ F | P d } = ∅ := Set.eq_empty_of_forall_notMem fun d hd => hP d hd.1 hd.2
  rw [hset, bytesOf_insert]
  ext y
  simp [bytesOf]

/-- Of free spans that do not overlap, a span has at most one neighbour on each side; it can be
joined with them. -/
theorem exists_joined (hdisj : F.PairwiseDisjoint bytes) (hpos : ∀ c ∈ F, 0 < c.len) :
    ∃ y : Span, y.bytes = bytesOf (insert b (neighbours F b)) := by
  have hsame : ∀ c ∈ F, ∀ d ∈ F, ∀ y, y ∈ c.bytes → y ∈ d.bytes → c = d := by
    intro c hc d hd y hyc hyd
    by_contra hne
    exact Set.disjoint_left.1 (hdisj hc hd hne) hyc hyd
  -- on the right
  obtain ⟨b', hstart, h1⟩ : ∃ b' : Span, b'.start = b.start ∧
      b'.bytes = bytesOf (insert b { c ∈ F | b.Touches c }) := by
    by_cases hex : ∃ c ∈ F, b.Touches c
    · obtain ⟨c, hc, hbc⟩ := hex
      refine ⟨⟨b.start, b.len + c.len⟩, rfl, ?_⟩
      rw [bytes_join hbc, bytesOf_insert_unique hc hbc]
      intro d hd hbd
      have hcd : c.start = d.start := hbc.symm.trans hbd
      exact hsame d hd c hc d.start ⟨le_refl _, by have := hpos d hd; omega⟩
        ⟨hcd.le, by have := hpos c hc; omega⟩
    · exact ⟨b, rfl, (bytesOf_insert_empty fun c hc hbc => hex ⟨c, hc, hbc⟩).symm⟩
  -- on the left
  obtain ⟨y, h2⟩ : ∃ y : Span,
      y.bytes = bytesOf (insert b' { c ∈ F | ¬ b.Touches c ∧ c.Touches b' }) := by
    by_cases hex : ∃ c ∈ F, ¬ b.Touches c ∧ c.Touches b'
    · obtain ⟨c, hc, hnt, hcb⟩ := hex
      refine ⟨⟨c.start, c.len + b'.len⟩, ?_⟩
      rw [bytes_join hcb, bytesOf_insert_unique hc ⟨hnt, hcb⟩, Set.union_comm]
      rintro d hd ⟨-, hdb⟩
      have hcp := hpos c hc
      have hdp := hpos d hd
      unfold Touches at hcb hdb
      exact hsame d hd c hc (b'.start - 1) ⟨by omega, by omega⟩ ⟨by omega, by omega⟩
    · exact ⟨b', (bytesOf_insert_empty fun c hc hcb => hex ⟨c, hc, hcb⟩).symm⟩
  exact ⟨y, bytes_eq_of_joins hstart h1 h2⟩

/-- **Joining spans neither loses nor adds addresses.** -/
theorem bytesOf_coalesce (hdisj : F.PairwiseDisjoint bytes) (hpos : ∀ c ∈ F, 0 < c.len) :
    bytesOf (coalesce F b) = b.bytes ∪ bytesOf F := by
  obtain ⟨y, hy⟩ := exists_joined (b := b) hdisj hpos
  ext z
  constructor
  · rintro ⟨x, hx | hx, hz⟩
    · exact Or.inr ⟨x, hx.1, hz⟩
    · rw [hx] at hz
      obtain ⟨p, rfl | hp, hz⟩ := hz
      · exact Or.inl hz
      · exact Or.inr ⟨p, hp.1, hz⟩
  · rintro (hz | ⟨c, hc, hz⟩)
    · exact ⟨y, Or.inr hy, hy ▸ ⟨b, Set.mem_insert .., hz⟩⟩
    · by_cases hn : c ∈ neighbours F b
      · exact ⟨y, Or.inr hy, hy ▸ ⟨c, Set.mem_insert_of_mem _ hn, hz⟩⟩
      · exact ⟨c, Or.inl ⟨hc, hn⟩, hz⟩

/-- **Joined spans stay apart.** -/
theorem Apart.coalesce (hF : Apart F) (hb : 0 < b.len) : Apart (coalesce F b) := by
  -- a part of the joined span touches no span that was left alone
  have hright : ∀ p ∈ insert b (neighbours F b), ∀ c ∈ F \ neighbours F b, ¬ p.Touches c := by
    intro p hp c hc htouch
    rcases hp with rfl | hp
    · exact hc.2 ⟨hc.1, Or.inl htouch⟩
    · exact hF p hp.1 c hc.1 htouch
  have hleft : ∀ p ∈ insert b (neighbours F b), ∀ c ∈ F \ neighbours F b, ¬ c.Touches p := by
    intro p hp c hc htouch
    rcases hp with rfl | hp
    · exact hc.2 ⟨hc.1, Or.inr htouch⟩
    · exact hF c hc.1 p hp.1 htouch
  intro x hx y hy htouch
  rcases hx with hx | hx
  · rcases hy with hy | hy
    · exact hF x hx.1 y hy.1 htouch
    · obtain ⟨p, hp, hpt⟩ := exists_touches_of_eq_bytes (pos_of_bytes_eq hb hy) hy htouch
      exact hleft p hp x hx hpt
  · have hxpos := pos_of_bytes_eq hb hx
    rcases hy with hy | hy
    · obtain ⟨p, hp, hpt⟩ := exists_touches_of_bytes_eq hxpos hx htouch
      exact hright p hp y hy hpt
    · obtain rfl := eq_of_bytes_eq hxpos (pos_of_bytes_eq hb hy) (hx.trans hy.symm)
      unfold Touches at htouch
      omega

/-- **Spans that are apart and together make up a range are that range.** -/
theorem Apart.eq_singleton (hF : Apart F) (hdisj : F.PairwiseDisjoint bytes)
    (hpos : ∀ c ∈ F, 0 < c.len) {r : Span} (hr : 0 < r.len) (hcover : bytesOf F = r.bytes) :
    F = {r} := by
  have hsub : ∀ c ∈ F, ∀ y ∈ c.bytes, y ∈ r.bytes := fun c hc y hy => hcover ▸ ⟨c, hc, hy⟩
  have hstart : ∀ c ∈ F, c.start ∈ c.bytes := fun c hc =>
    ⟨le_refl _, by have := hpos c hc; omega⟩
  -- the span at the beginning of the range …
  obtain ⟨b, hb, hbr⟩ : r.start ∈ bytesOf F := hcover ▸ ⟨le_refl _, by omega⟩
  have hb1 : b.start = r.start := by
    have h1 := (hsub b hb _ (hstart b hb)).1
    have h2 := hbr.1
    omega
  have hlast : b.start + b.len - 1 ∈ r.bytes :=
    hsub b hb _ ⟨by have := hpos b hb; omega, by have := hpos b hb; omega⟩
  have hshared : ∀ c ∈ F, c.start ∈ b.bytes → c = b := by
    intro c hc hcb
    by_contra hne
    exact Set.disjoint_left.1 (hdisj hc hb hne) (hstart c hc) hcb
  -- … ends where the range ends, or the next one would touch it
  have hb2 : b.start + b.len = r.start + r.len := by
    by_contra hend
    have hle := hlast.2
    obtain ⟨c, hc, hcb⟩ : b.start + b.len ∈ bytesOf F :=
      hcover ▸ ⟨by omega, by have := hpos b hb; omega⟩
    by_cases htouch : b.start + b.len = c.start
    · exact hF b hb c hc htouch
    · have hcs : c.start ∈ b.bytes := by
        have h1 := (hsub c hc _ (hstart c hc)).1
        have h2 := hcb.1
        exact ⟨by omega, by omega⟩
      obtain rfl := hshared c hc hcs
      have := hcb.2
      omega
  have hbr : b = r := by
    obtain ⟨y, n⟩ := b
    obtain ⟨z, m⟩ := r
    simp only at hb1 hb2
    simp only [mk.injEq]
    omega
  rw [← hbr]
  refine Set.eq_singleton_iff_unique_mem.2 ⟨hb, fun c hc => hshared c hc ?_⟩
  rw [hbr]
  exact hsub c hc _ (hstart c hc)

end Span

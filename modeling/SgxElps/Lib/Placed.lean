/-
**Queues that hold each element at most once.**

An intrusive list keeps its links inside the elements, so an element is in at most one list and at
most once.  Here a family of queues is described by a partial function `home` from the elements to
the queues: a queue holds, without repetition, exactly the elements it is the home of.  Where only
the elements matter and not the queue each is in, a predicate says which elements are in some queue.

Main definitions: `Placed`, `Located`.  Main results: `Placed.push`, `Placed.erase`, `Located.move`.
-/

import Mathlib.Algebra.Order.BigOperators.Group.Finset
import Mathlib.Data.Fintype.Card
import Mathlib.Data.List.Nodup
import Mathlib.Logic.Function.Basic

variable {ι α : Type} {queues : ι → List α} {home : α → Option ι} {a : α} {i j : ι} {l : List α}

/-- Queue `i` holds exactly the elements with home `i`, each once. -/
structure Placed (queues : ι → List α) (home : α → Option ι) : Prop where
  mem_iff : ∀ i a, a ∈ queues i ↔ home a = some i
  nodup : ∀ i, (queues i).Nodup

open List

namespace Placed

open Function (update update_idem update_of_ne update_self)

theorem nil : Placed (fun _ : ι => ([] : List α)) fun _ => none := by
  constructor <;> simp

theorem eq_of_mem (h : Placed queues home) (hi : a ∈ queues i) (hj : a ∈ queues j) : i = j := by
  rw [h.mem_iff] at hi hj
  exact Option.some_inj.1 (hi.symm.trans hj)

theorem notMem (h : Placed queues home) (ha : home a = none) (i : ι) : a ∉ queues i := by
  rw [h.mem_iff, ha]
  exact nofun

variable [DecidableEq ι] [DecidableEq α]

omit [DecidableEq ι] in
/-- An element keeps its home. -/
theorem same (h : Placed queues home) {x : Option ι} (hx : home a = x) :
    Placed queues (Function.update home a x) := by
  rw [← hx, Function.update_eq_self]
  exact h

section

variable (h : Placed queues home)

include h

/-- An element that is in no queue is linked at the back of queue `i`. -/
theorem push (ha : home a = none) (i : ι) :
    Placed (update queues i (queues i ++ [a])) (update home a (some i)) where
  mem_iff k b := by
    by_cases hb : b = a
    · subst hb
      by_cases hk : k = i
      · simp [hk]
      · simp [hk, h.notMem ha, Ne.symm hk]
    · rw [update_of_ne hb, ← h.mem_iff]
      by_cases hk : k = i
      · simp [hk, hb]
      · simp [hk]
  nodup k := by
    by_cases hk : k = i
    · subst hk
      rw [update_self, ← concat_eq_append, nodup_concat]
      exact ⟨h.notMem ha k, h.nodup k⟩
    · rw [update_of_ne hk]
      exact h.nodup k

/-- An element that is in no queue is linked at the front of queue `i`. -/
theorem pushFront (ha : home a = none) (i : ι) :
    Placed (update queues i (a :: queues i)) (update home a (some i)) := by
  have hback := h.push ha i
  refine ⟨fun k b => ?_, fun k => ?_⟩
  · rw [← hback.mem_iff]
    by_cases hk : k = i
    · simp [hk, or_comm]
    · simp [hk]
  · by_cases hk : k = i
    · subst hk
      rw [update_self, nodup_cons]
      exact ⟨h.notMem ha k, h.nodup k⟩
    · rw [update_of_ne hk]
      exact h.nodup k

/-- An element of queue `i` is unlinked. -/
theorem erase (ha : a ∈ queues i) :
    Placed (update queues i ((queues i).erase a)) (update home a none) where
  mem_iff k b := by
    by_cases hk : k = i
    · subst hk
      rw [update_self, (h.nodup k).mem_erase_iff, h.mem_iff]
      by_cases hb : b = a
      · simp [hb]
      · simp [hb]
    · rw [update_of_ne hk]
      by_cases hb : b = a
      · subst hb
        simp only [update_self, reduceCtorEq, iff_false]
        exact fun hmem => hk (h.eq_of_mem hmem ha)
      · rw [update_of_ne hb, h.mem_iff]
  nodup k := by
    by_cases hk : k = i
    · subst hk
      rw [update_self]
      exact (h.nodup k).erase a
    · rw [update_of_ne hk]
      exact h.nodup k

theorem moveFront (ha : a ∈ queues i) (j : ι) :
    Placed (update (update queues i ((queues i).erase a)) j
        (a :: update queues i ((queues i).erase a) j))
      (update home a (some j)) := by
  have hmoved := (h.erase ha).pushFront (update_self ..) j
  rwa [update_idem] at hmoved

/-- The front of queue `i` is unlinked. -/
theorem pop (hq : queues i = a :: l) :
    Placed (update queues i l) (update home a none) := by
  have ha : a ∈ queues i := hq ▸ mem_cons_self
  have hl : (queues i).erase a = l := by rw [hq, erase_cons_head]
  rw [← hl]
  exact h.erase ha

end

end Placed

/-! ### Elements with a property -/

/-- Each element with `P` is in exactly one queue, once, and no other element is in any queue. -/
structure Located (queues : ι → List α) (P : α → Prop) : Prop where
  mem_iff : ∀ a, (∃ i, a ∈ queues i) ↔ P a
  nodup : ∀ i, (queues i).Nodup
  unique : ∀ a i j, a ∈ queues i → a ∈ queues j → i = j

namespace Located

variable {queues' : ι → List α} {P P' : α → Prop}

section

variable (h : Located queues P)

include h

theorem of_mem (ha : a ∈ queues i) : P a :=
  (h.mem_iff a).1 ⟨i, ha⟩

theorem notMem (ha : ¬ P a) (i : ι) : a ∉ queues i :=
  fun hmem => ha (h.of_mem hmem)

theorem congr (hP : ∀ a, P' a ↔ P a) : Located queues P' :=
  { h with mem_iff := fun a => (h.mem_iff a).trans (hP a).symm }

/-- An element that is in no queue is put in queue `i`. -/
theorem add (ha : ¬ P a) (hi : (queues' i).Perm (a :: queues i))
    (hoff : ∀ j, j ≠ i → queues' j = queues j) (hP : ∀ b, P' b ↔ b = a ∨ P b) :
    Located queues' P' := by
  have hmem : ∀ j b, b ∈ queues' j ↔ (j = i ∧ b = a) ∨ b ∈ queues j := by
    intro j b
    by_cases hj : j = i
    · subst hj
      simp [hi.mem_iff]
    · simp [hoff j hj, hj]
  refine ⟨fun b => ?_, fun j => ?_, fun b j k hj hk => ?_⟩
  · rw [hP, ← h.mem_iff]
    simp only [hmem, exists_or, exists_and_right, exists_eq, true_and]
  · by_cases hj : j = i
    · subst hj
      rw [hi.nodup_iff, nodup_cons]
      exact ⟨h.notMem ha j, h.nodup j⟩
    · rw [hoff j hj]
      exact h.nodup j
  · rw [hmem] at hj hk
    rcases hj with ⟨rfl, rfl⟩ | hj
    · rcases hk with ⟨rfl, -⟩ | hk
      · rfl
      · exact absurd hk (h.notMem ha k)
    · rcases hk with ⟨rfl, rfl⟩ | hk
      · exact absurd hj (h.notMem ha j)
      · exact h.unique b j k hj hk

/-- An element of queue `i` is taken from it. -/
theorem remove (hi : (queues i).Perm (a :: queues' i))
    (hoff : ∀ j, j ≠ i → queues' j = queues j) (hP : ∀ b, P' b ↔ b ≠ a ∧ P b) :
    Located queues' P' := by
  have ha : a ∈ queues i := hi.mem_iff.2 mem_cons_self
  have hnodup := hi.nodup_iff.1 (h.nodup i)
  have hmem : ∀ j b, b ∈ queues' j ↔ b ≠ a ∧ b ∈ queues j := by
    intro j b
    by_cases hj : j = i
    · subst hj
      rw [hi.mem_iff, mem_cons]
      have := (nodup_cons.1 hnodup).1
      refine ⟨fun hb => ⟨fun hba => this (hba ▸ hb), Or.inr hb⟩, ?_⟩
      rintro ⟨hne, hb⟩
      exact hb.resolve_left hne
    · rw [hoff j hj]
      refine ⟨fun hb => ⟨?_, hb⟩, And.right⟩
      rintro rfl
      exact hj (h.unique b j i hb ha)
  refine ⟨fun b => ?_, fun j => ?_, fun b j k hj hk => ?_⟩
  · rw [hP, ← h.mem_iff]
    simp only [hmem, exists_and_left]
  · by_cases hj : j = i
    · exact hj ▸ (nodup_cons.1 hnodup).2
    · rw [hoff j hj]
      exact h.nodup j
  · exact h.unique b j k ((hmem j b).1 hj).2 ((hmem k b).1 hk).2

/-- An element is taken from queue `i` and put in queue `j`. -/
theorem move [DecidableEq ι] (hij : i ≠ j)
    (hi : (queues i).Perm (a :: queues' i)) (hj : (queues' j).Perm (a :: queues j))
    (hoff : ∀ k, k ≠ i → k ≠ j → queues' k = queues k) : Located queues' P := by
  have ha : P a := h.of_mem (hi.mem_iff.2 mem_cons_self)
  -- first out of `i`, then into `j`
  have hout : Located (Function.update queues i (queues' i)) fun b => b ≠ a ∧ P b := by
    refine h.remove (i := i) ?_ (fun k hk => Function.update_of_ne hk ..) fun b => Iff.rfl
    rwa [Function.update_self]
  refine hout.add (i := j) (fun hb => hb.1 rfl) ?_ (fun k hk => ?_) fun b => ?_
  · rwa [Function.update_of_ne hij.symm]
  · by_cases hki : k = i
    · rw [hki, Function.update_self]
    · rw [Function.update_of_ne hki, hoff k hki hk]
  · by_cases hb : b = a
    · simp [hb, ha]
    · simp [hb]

end

/-- How many elements a finite set of queues holds, if a function tells them apart. -/
theorem sum_length {β : Type} [DecidableEq α] [DecidableEq β] (h : Located queues P) (I : Finset ι)
    (f : α → β) (hf : ∀ i ∈ I, ∀ a ∈ queues i, ∀ j ∈ I, ∀ b ∈ queues j, f a = f b → a = b) :
    ∑ i ∈ I, (queues i).length = ((I.biUnion fun i => (queues i).toFinset).image f).card := by
  have hdisjoint : (I : Set ι).PairwiseDisjoint fun i => (queues i).toFinset := by
    intro i _ j _ hij
    rw [Function.onFun, Finset.disjoint_left]
    intro a hi hj
    exact hij (h.unique a i j (mem_toFinset.1 hi) (mem_toFinset.1 hj))
  rw [Finset.card_image_of_injOn, Finset.card_biUnion hdisjoint]
  · exact Finset.sum_congr rfl fun i _ => (toFinset_card_of_nodup (h.nodup i)).symm
  · intro a ha b hb hab
    simp only [Finset.coe_biUnion, Set.mem_iUnion, Finset.mem_coe, mem_toFinset] at ha hb
    obtain ⟨i, hi, ha⟩ := ha
    obtain ⟨j, hj, hb⟩ := hb
    exact hf i hi a ha j hj b hb hab

end Located

/-
**Sequences of insertions and removals.**

From the empty tree on, the memory holds a red-black search tree whose nodes are the objects that were
inserted and not erased, exactly as long as every removal of a node with two children finds a successor
with the colour of the node.  Otherwise the invariants are lost, or `delete_fixup` reads a field of the
sentinel that was never written.

Main definitions: `Consistent`, `SuccessorAgrees`.  Main result: `allStates_consistent_iff`.
-/

import SgxElps.Rbtree.Erase
import Mathlib.Data.Nat.Basic

namespace Rbtree

open RedBlack RedBlack.CTree
open List
open Transition

variable {N K : Type} [LinearOrder K] {key : N → K} {s s' : State N} {n : N}

/-! ### The invariant -/

/-- No operation has failed, and the memory holds a red-black search tree with the live objects. -/
def Consistent (key : N → K) (s : State N) : Prop :=
  s.fault = false ∧
    ∃ t, Holds s.mem t ∧ Sorted key t ∧ Valid t ∧ ∀ n, n ∈ t.inorder ↔ n ∈ s.live

/-- A node with two children that is erased has the colour of its successor. -/
def SuccessorAgrees [DecidableEq N] (s : State N) : Event N → Prop
  | .insert _ => True
  | .erase n => ∀ l r y, s.mem.child .left (.node n) = some l → s.mem.child .right (.node n) = some r →
      l ≠ .sentinel → r ≠ .sentinel → s.mem.leftmost s.fuel r = some y →
      s.mem.color y = s.mem.color (.node n)

theorem consistent_init (objects : N → Cell N) : Consistent key (init objects) := by
  refine ⟨rfl, .nil, ⟨trivial, rfl, nodup_nil, rfl, fun _ => rfl⟩, List.Pairwise.nil, ?_, ?_⟩
  · exact ⟨rfl, 0, .nil⟩
  · exact fun n => Iff.rfl

/-- The loops have enough rounds. -/
theorem fuel_eq {t : CTree N} (hnd : s.live.Nodup) (h : Holds s.mem t)
    (hmem : ∀ n, n ∈ t.inorder ↔ n ∈ s.live) : s.fuel = 2 * t.inorder.length + 4 := by
  rw [State.fuel, ((perm_ext_iff_of_nodup h.nodup hnd).2 hmem).length_eq]

variable [DecidableEq N]

theorem nodup_step {e : Event N} (hnd : s.live.Nodup) (hs : step key s e = some s') :
    s'.live.Nodup := by
  cases e with
  | insert n =>
    simp only [step, Option.ite_none_right_eq_some] at hs
    obtain ⟨⟨-, hn⟩, hs⟩ := hs
    split at hs <;> cases hs
    · exact hnd
    · exact nodup_cons.2 ⟨hn, hnd⟩
    · exact hnd
  | erase n =>
    simp only [step, Option.ite_none_right_eq_some] at hs
    obtain ⟨-, hs⟩ := hs
    split at hs <;> cases hs
    · exact hnd
    · exact hnd.erase n

/-! ### The operations -/

theorem insert_consistent (hnd : s.live.Nodup) (h : Consistent key s)
    (hs : step key s (.insert n) = some s') : Consistent key s' := by
  obtain ⟨hf, t, ht, hsorted, hv, hmem⟩ := h
  simp only [step, Option.ite_none_right_eq_some] at hs
  obtain ⟨⟨-, hn⟩, hs⟩ := hs
  have hfuel := fuel_eq hnd ht hmem
  rcases insert_spec ht hsorted hv (mt (hmem n).1 hn) (show _ ≤ s.fuel by omega) with
    ⟨m', hrun, h', -⟩ | ⟨m', t', hrun, h', hsorted', hv', hmem'⟩
  · rw [hrun] at hs
    cases hs
    exact ⟨hf, t, h', hsorted, hv, hmem⟩
  · rw [hrun] at hs
    cases hs
    refine ⟨hf, t', h', hsorted', hv', fun k => ?_⟩
    rw [hmem', hmem, mem_cons]

/-- What `__erase` returns and leaves, if the colours agree. -/
theorem erase_of_agrees {t : CTree N} (hnd : s.live.Nodup) (ht : Holds s.mem t) (hv : Valid t)
    (hmem : ∀ n, n ∈ t.inorder ↔ n ∈ s.live) (hn : n ∈ s.live)
    (hagree : SuccessorAgrees s (.erase n)) :
    ∃ m' t' A B, t.inorder = A ++ n :: B ∧
      s.mem.erase s.fuel (.node n) = some (m', B.head?.map .node) ∧ Holds m' t' ∧ Valid t' ∧
      t'.inorder = A ++ B := by
  have hfuel := fuel_eq hnd ht hmem
  obtain ⟨C, c, l, r, rfl⟩ := exists_zip_of_mem ((hmem n).2 hn)
  have hcolor : l ≠ .nil → r ≠ .nil → ∀ y, s.mem.leftmost s.fuel (addr r) = some y →
      s.mem.color y = c := by
    intro hl hr y hy
    have hcol : s.mem.color (.node n) = c := ht.color
    rw [← hcol]
    exact hagree _ _ y (Holds.child (d := .left) ht) (Holds.child (d := .right) ht)
      (mt addr_eq_sentinel.1 hl) (mt addr_eq_sentinel.1 hr) hy
  obtain ⟨m', t', hrun, h', hv', hin⟩ := erase_spec ht hv (by omega) hcolor
  refine ⟨m', t', before C ++ l.inorder, r.inorder ++ after C, ?_, hrun, h', hv', hin⟩
  simp [inorder_zip, inorder]

theorem erase_consistent (hnd : s.live.Nodup) (h : Consistent key s)
    (hs : step key s (.erase n) = some s') (hagree : SuccessorAgrees s (.erase n)) :
    Consistent key s' := by
  obtain ⟨hf, t, ht, hsorted, hv, hmem⟩ := h
  simp only [step, Option.ite_none_right_eq_some] at hs
  obtain ⟨⟨-, hn⟩, hs⟩ := hs
  obtain ⟨m', t', A, B, hold, hrun, h', hv', hin⟩ := erase_of_agrees hnd ht hv hmem hn hagree
  rw [hrun] at hs
  cases hs
  refine ⟨hf, t', h', ?_, hv', fun k => ?_⟩
  · rw [Sorted, hin]
    rw [Sorted, hold] at hsorted
    exact hsorted.sublist ((sublist_cons_self ..).append_left _)
  · have hndt := ht.nodup
    rw [hold, perm_middle.nodup_iff, nodup_cons] at hndt
    rw [hnd.mem_erase_iff, ← hmem, hin, hold]
    simp only [mem_append, mem_cons] at hndt ⊢
    constructor
    · intro hk
      refine ⟨?_, by tauto⟩
      rintro rfl
      exact hndt.1 hk
    · tauto

theorem agrees_of_erase_consistent (hnd : s.live.Nodup) (h : Consistent key s)
    (hs : step key s (.erase n) = some s') (h' : Consistent key s') :
    SuccessorAgrees s (.erase n) := by
  obtain ⟨-, t, ht, -, hv, hmem⟩ := h
  obtain ⟨hf', t', ht', -, hv', -⟩ := h'
  simp only [step, Option.ite_none_right_eq_some] at hs
  obtain ⟨⟨-, hn⟩, hs⟩ := hs
  have hfuel := fuel_eq hnd ht hmem
  obtain ⟨C, c, l, r, rfl⟩ := exists_zip_of_mem ((hmem n).2 hn)
  intro u v y hu hv₁ hul hvr hy
  obtain rfl : addr l = u := Option.some.inj ((Holds.child (d := .left) ht).symm.trans hu)
  obtain rfl : addr r = v := Option.some.inj ((Holds.child (d := .right) ht).symm.trans hv₁)
  have hcol : s.mem.color (.node n) = c := ht.color
  by_contra hne
  split at hs <;> cases hs
  · cases hf'
  · next hrun =>
    refine erase_of_ne ht hv (by omega) (mt addr_eq_sentinel.2 hul) (mt addr_eq_sentinel.2 hvr) hy ?_
      hrun ht' hv'
    rwa [← hcol]

/-- **The invariant holds in every state** exactly if every removal of a node with two children finds a
successor with the colour of the node. -/
theorem allStates_consistent_iff (key : N → K) (objects : N → Cell N) (evs : List (Event N)) :
    Transition.AllStates (step key) (Consistent key) (init objects) evs ↔
      Transition.AllSteps (step key) SuccessorAgrees (init objects) evs := by
  refine allStates_iff_allSteps (J := fun s => s.live.Nodup)
    (fun _ _ _ hnd hs => nodup_step hnd hs) ?_ evs nodup_nil (consistent_init objects)
  intro s e s' hnd hI hs
  cases e with
  | insert n => exact iff_of_true (insert_consistent hnd hI hs) trivial
  | erase n => exact ⟨agrees_of_erase_consistent hnd hI hs, erase_consistent hnd hI hs⟩

/-- A hook that is in no tree. -/
def unlinked : Cell ℕ := ⟨.red, fun _ => none, none⟩

/-- Eight insertions, and the removal of a black root with a black successor. -/
def eraseRoot : List (Event ℕ) :=
  [4, 2, 6, 1, 3, 5, 7, 8].map .insert ++ [.erase 4]

theorem allSteps_eraseRoot : Transition.AllSteps (step id) SuccessorAgrees
    (init fun _ => unlinked) eraseRoot := by
  refine allSteps_append_singleton ?_ fun s hs => ?_
  · intro e he s
    obtain ⟨n, -, rfl⟩ := mem_map.1 he
    trivial
  · obtain ⟨s₁, h1, hl, hr, hleft, hc, hc'⟩ : ∃ s₁, run (step id)
        (init fun _ => unlinked) ([4, 2, 6, 1, 3, 5, 7, 8].map .insert) = some s₁ ∧
        s₁.mem.child .left (.node 4) = some (.node 2) ∧
        s₁.mem.child .right (.node 4) = some (.node 6) ∧
        s₁.mem.leftmost s₁.fuel (.node 6) = some (.node 5) ∧
        s₁.mem.color (.node 5) = .black ∧ s₁.mem.color (.node 4) = .black :=
      ⟨_, rfl, rfl, rfl, rfl, rfl, rfl⟩
    obtain rfl : s₁ = s := Option.some.inj (h1.symm.trans hs)
    intro l r y hl' hr' _ _ hy
    obtain rfl : .node 6 = r := Option.some.inj (hr.symm.trans hr')
    obtain rfl : .node 5 = y := Option.some.inj (hleft.symm.trans hy)
    rw [hc, hc']

theorem allStates_consistent_eraseRoot :
    Transition.AllStates (step id) (Consistent id) (init fun _ => unlinked)
      eraseRoot :=
  (allStates_consistent_iff id _ _).2 allSteps_eraseRoot

/-- The removal of a black root with a red successor: `delete_fixup` reads a child of the sentinel. -/
theorem not_consistent_after_erase : ¬ ∀ (evs : List (Event ℕ)) (s : State ℕ),
    run (step id) (init fun _ => unlinked) evs = some s →
      Consistent id s := by
  intro h
  obtain ⟨s, hrun, hfault⟩ : ∃ s, run (step id)
      (init fun _ => unlinked)
      [.insert 1, .insert 2, .insert 3, .erase 2] = some s ∧ s.fault = true := ⟨_, rfl, rfl⟩
  have hok := (h _ s hrun).1
  rw [hfault] at hok
  cases hok

end Rbtree

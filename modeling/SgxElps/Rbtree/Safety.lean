/-
**Sequences of all the operations.**

The operations `insert`, `erase`, `lookup`, `begin` and `next` may come in any order and with any
objects.  An operation that fails an assertion, follows a null pointer, reads a field of the sentinel or
of an object that was not written, or does not end, is a fault.  There is none as long as the objects of
`erase` and `next` are linked, those of `insert` are not (or are alone in the tree), and a removal of a
node with two children finds a successor with the colour of the node.  Under the same condition the
traversal, the lookups and the results of the removals are what they should be.

`delete_fixup` may stand at the sentinel and read its parent.  That this field was written by the same
removal is said by running the removal in a memory in which the field is not initialised.

Main definitions: `Safe`, `EraseReturnsNext`.
Main results: `allStates_safe`, `allStates_traversed`, `allStates_lookupLogarithmic`.
-/

import SgxElps.Rbtree.Traverse
import SgxElps.Rbtree.Duplicate

namespace Rbtree

open RedBlack
open Transition

variable {N K : Type}

/-! ### All the operations -/

inductive Op (N K : Type) where
  | insert (n : N)
  | erase (n : N)
  | lookup (v : K)
  | begin
  | next (n : N)

/-- The state after an operation that changes nothing. -/
def State.read {α : Type} (s : State N) (result : Option α) : State N :=
  match result with
  | none => { s with fault := true }
  | some _ => s

def opStep [DecidableEq N] [LinearOrder K] (key : N → K) (s : State N) (op : Op N K) :
    Option (State N) :=
  if s.fault = false then
    match op with
    | .insert n =>
        match s.mem.insert key s.fuel n with
        | none => some { s with fault := true }
        | some (m, true) => some { s with mem := m, live := n :: s.live }
        | some (m, false) => some { s with mem := m }
    | .erase n =>
        match s.mem.erase s.fuel (.node n) with
        | none => some { s with fault := true }
        | some (m, _) => some { s with mem := m, live := s.live.erase n }
    | .lookup v => some (s.read (MallocRbtree.lookup s.mem s.fuel key v))
    | .begin => some (s.read (MallocRbtree.begin s.mem s.fuel))
    | .next n => some (s.read (MallocRbtree.next s.mem s.fuel n))
  else none

/-- No operation has failed, the sentinel is black, and its `left` and `right` were not written, so that
reading them would have been a fault. -/
structure Safe (s : State N) : Prop where
  fault : s.fault = false
  color : s.mem.color .sentinel = .black
  child : ∀ d, s.mem.child d .sentinel = none

/-- The memory in which the field `parent` of the sentinel is not initialised. -/
def Mem.forgetParent [DecidableEq N] (m : Mem N) : Mem N :=
  { m with cell := Function.update m.cell .sentinel { m.cell .sentinel with parent := none } }

/-- A removal does not read the parent of the sentinel before it has written it. -/
def ParentWritten [DecidableEq N] (s : State N) : Op N K → Prop
  | .erase n => (s.mem.forgetParent.erase s.fuel (.node n)).isSome
  | _ => True

/-- The object of `erase` or `next` is linked, that of `insert` is not, or is alone in the tree, and the
colours agree in a removal. -/
def Proper [DecidableEq N] (s : State N) : Op N K → Prop
  | .insert n => n ∉ s.live ∨ s.live = [n]
  | .erase n => n ∈ s.live ∧ SuccessorAgrees s (.erase n)
  | .next n => n ∈ s.live
  | .lookup _ | .begin => True

/-! ### One operation -/

section Forget

variable [DecidableEq N] {m : Mem N} {t : CTree N}

theorem cell_forgetParent (a : Addr N) : m.forgetParent.cell a =
    if a = .sentinel then { m.cell .sentinel with parent := none } else m.cell a :=
  Function.update_apply ..

theorem child_forgetParent (d : Side) (a : Addr N) : m.forgetParent.child d a = m.child d a := by
  rw [Mem.child, cell_forgetParent]
  split
  · next h => rw [h]; rfl
  · rfl

theorem color_forgetParent (a : Addr N) : m.forgetParent.color a = m.color a := by
  rw [Mem.color, cell_forgetParent]
  split
  · next h => rw [h]; rfl
  · rfl

theorem leftmost_forgetParent (fuel : ℕ) (a : Addr N) :
    m.forgetParent.leftmost fuel a = m.leftmost fuel a := by
  induction fuel generalizing a with
  | zero => rfl
  | succ fuel ih => simp only [Mem.leftmost, child_forgetParent, ih]

theorem Holds.forgetParent (h : Holds m t) : Holds m.forgetParent t where
  stored := h.stored.congr fun n _ => (cell_forgetParent (.node n)).trans (if_neg nofun)
  root := h.root
  nodup := h.nodup
  sentinel_color := (color_forgetParent _).trans h.sentinel_color
  sentinel_child d := (child_forgetParent ..).trans (h.sentinel_child d)

end Forget

variable [LinearOrder K] [DecidableEq N] {key : N → K} {s s' : State N} {n : N}

omit [DecidableEq N] in
theorem Consistent.safe (h : Consistent key s) : Safe s := by
  obtain ⟨hf, t, ht, -⟩ := h
  exact ⟨hf, ht.sentinel_color, ht.sentinel_child⟩

theorem Consistent.parentWritten (hnd : s.live.Nodup) (h : Consistent key s) (hn : n ∈ s.live)
    (hagree : SuccessorAgrees s (.erase n)) :
    (s.mem.forgetParent.erase s.fuel (.node n)).isSome := by
  obtain ⟨-, t, ht, -, hv, hmem⟩ := h
  have hagree' : SuccessorAgrees { s with mem := s.mem.forgetParent } (.erase n) := by
    intro l r y hl hr hlnil hrnil hy
    rw [child_forgetParent] at hl hr
    rw [color_forgetParent, color_forgetParent]
    exact hagree l r y hl hr hlnil hrnil ((leftmost_forgetParent ..).symm.trans hy)
  obtain ⟨m', t', A, B, -, hrun, -⟩ :=
    erase_of_agrees (s := { s with mem := s.mem.forgetParent }) hnd ht.forgetParent hv hmem hn hagree'
  rw [Option.isSome_iff_exists]
  exact ⟨_, hrun⟩

theorem insert_alone (hnd : s.live.Nodup) (h : Consistent key s) (halone : s.live = [n])
    (hs : opStep key s (.insert n) = some s') : s'.live.Nodup ∧ Consistent key s' := by
  obtain ⟨hf, t, ht, hsorted, hv, hmem⟩ := h
  have hn : n ∈ t.inorder := by simp [hmem, halone]
  have hfuel := fuel_eq hnd ht hmem
  have hrun := insert_present (n := n) ht hsorted ⟨n, hn, rfl⟩ (show _ ≤ s.fuel by omega)
  have hsingle : t.inorder = [n] := by
    have hperm := (List.perm_ext_iff_of_nodup ht.nodup hnd).2 hmem
    rw [halone] at hperm
    exact List.perm_singleton.1 hperm
  obtain ⟨hroot, hsent, hcell⟩ := (unchanged_reset_iff ht).2 (.inr hsingle)
  simp only [opStep, hf, ↓reduceIte, hrun] at hs
  cases hs
  exact ⟨hnd, rfl, t, ht.frame hcell hsent hroot, hsorted, hv, hmem⟩

omit [LinearOrder K] [DecidableEq N] in
theorem State.read_some {α : Type} {r : Option α} {a : α} (h : r = some a) : s.read r = s := by
  rw [h]
  rfl

/-- **An operation keeps the invariant**, under the condition. -/
theorem opStep_consistent {op : Op N K} (hnd : s.live.Nodup) (h : Consistent key s)
    (hs : opStep key s op = some s') (hP : Proper s op) : s'.live.Nodup ∧ Consistent key s' := by
  have hf := h.1
  have htrav := h.traversed hnd
  cases op with
  | insert n =>
    by_cases hn : n ∈ s.live
    · exact insert_alone hnd h (hP.resolve_left (not_not.2 hn)) hs
    · have hs' : step key s (.insert n) = some s' := by
        rw [step, if_pos ⟨hf, hn⟩, ← hs]
        exact (if_pos hf).symm
      exact ⟨nodup_step hnd hs', insert_consistent hnd h hs'⟩
  | erase n =>
    have hs' : step key s (.erase n) = some s' := by
      rw [step, if_pos ⟨hf, hP.1⟩, ← hs]
      exact (if_pos hf).symm
    exact ⟨nodup_step hnd hs', erase_consistent hnd h hs' hP.2⟩
  | lookup v =>
    rw [opStep, if_pos hf] at hs
    rcases htrav.lookup v with ⟨n, -, -, hrun⟩ | ⟨-, hrun⟩
    · cases (Option.some.inj hs).symm.trans (State.read_some hrun)
      exact ⟨hnd, h⟩
    · cases (Option.some.inj hs).symm.trans (State.read_some hrun)
      exact ⟨hnd, h⟩
  | begin =>
    obtain ⟨-, t, ht, -, -, hmem⟩ := id h
    have hfuel := fuel_eq hnd ht hmem
    have hrun := begin_spec ht (show _ ≤ s.fuel by omega)
    rw [opStep, if_pos hf] at hs
    cases (Option.some.inj hs).symm.trans (State.read_some hrun)
    exact ⟨hnd, h⟩
  | next n =>
    obtain ⟨-, t, ht, -, -, hmem⟩ := id h
    have hfuel := fuel_eq hnd ht hmem
    obtain ⟨A, B, hin⟩ := List.append_of_mem ((hmem n).2 hP)
    have hrun := next_of_inorder ht hin (show _ ≤ s.fuel by omega)
    rw [opStep, if_pos hf] at hs
    cases (Option.some.inj hs).symm.trans (State.read_some hrun)
    exact ⟨hnd, h⟩

/-! ### Every run -/

/-- The invariant along a run, under the condition. -/
theorem allStates_opStep (key : N → K) (objects : N → Cell N) (ops : List (Op N K))
    (h : Transition.AllSteps (opStep key) Proper (init objects) ops) :
    Transition.AllStates (opStep key) (fun s => s.live.Nodup ∧ Consistent key s) (init objects) ops :=
  allStates_of_allSteps (J := fun _ => True) (P := Proper) (fun _ _ _ _ _ => trivial)
    (fun _ _ _ _ hI hs hP => opStep_consistent hI.1 hI.2 hs hP) ops trivial
    ⟨List.nodup_nil, consistent_init objects⟩ h

/-- **No fault in any run**, if the objects of `erase` and `next` are linked, those of `insert` are not
or are alone, and the colours agree in every removal. -/
theorem allStates_safe (key : N → K) (objects : N → Cell N) (ops : List (Op N K))
    (h : Transition.AllSteps (opStep key) Proper (init objects) ops) :
    Transition.AllStates (opStep key) Safe (init objects) ops ∧
      Transition.AllSteps (opStep key) ParentWritten (init objects) ops := by
  have hinv := allStates_opStep key objects ops h
  refine ⟨hinv.mono fun s hs => hs.2.safe, hinv.allSteps h fun s op s' hI _ hP => ?_⟩
  cases op with
  | erase n => exact hI.2.parentWritten hI.1 hP.1 hP.2
  | insert n | lookup v | begin | next n => trivial

/-- Four insertions, reads, the removal of the root and of two more objects, and an insertion of the object
that is alone. -/
def smallTree : List (Op ℕ ℕ) :=
  [.insert 1, .insert 2, .insert 3, .insert 4, .lookup 2, .begin, .next 1, .erase 2, .erase 1, .erase 4,
    .insert 3]

theorem allSteps_smallTree : Transition.AllSteps (opStep id) Proper
    (init fun _ => unlinked) smallTree := by
  refine (allSteps_cons_iff rfl).2 ⟨.inl (by decide), ?_⟩
  refine (allSteps_cons_iff rfl).2 ⟨.inl (by decide), ?_⟩
  refine (allSteps_cons_iff rfl).2 ⟨.inl (by decide), ?_⟩
  refine (allSteps_cons_iff rfl).2 ⟨.inl (by decide), ?_⟩
  refine (allSteps_cons_iff rfl).2 ⟨trivial, ?_⟩
  refine (allSteps_cons_iff rfl).2 ⟨trivial, ?_⟩
  refine (allSteps_cons_iff rfl).2 ⟨show 1 ∈ [4, 3, 2, 1] by decide, ?_⟩
  refine (allSteps_cons_iff rfl).2 ⟨⟨show 2 ∈ [4, 3, 2, 1] by decide, ?_⟩, ?_⟩
  · -- the root has two children, and it and its successor are black
    intro l r y hl hr _ _ hy
    obtain rfl := Option.some.inj hr
    obtain rfl := Option.some.inj hy
    rfl
  refine (allSteps_cons_iff rfl).2 ⟨⟨show 1 ∈ [4, 3, 1] by decide, ?_⟩, ?_⟩
  · -- the other two nodes that are erased have no left child
    intro l r y hl _ hne
    exact absurd (Option.some.inj hl).symm hne
  refine (allSteps_cons_iff rfl).2 ⟨⟨show 4 ∈ [4, 3] by decide, ?_⟩, ?_⟩
  · intro l r y hl _ hne
    exact absurd (Option.some.inj hl).symm hne
  exact (allSteps_cons_iff rfl).2 ⟨.inr rfl, trivial⟩

theorem allStates_safe_smallTree :
    Transition.AllStates (opStep id) Safe (init fun _ => unlinked) smallTree ∧
      Transition.AllSteps (opStep id) ParentWritten (init fun _ => unlinked)
        smallTree :=
  allStates_safe id _ _ allSteps_smallTree

/-- The removal of the root of three objects is a fault: `delete_fixup` reads a child of the sentinel. -/
theorem erase_root_faults : ¬ ∀ (ops : List (Op ℕ ℕ)) (s : State ℕ),
    run (opStep id) (init fun _ => unlinked) ops = some s → Safe s := by
  intro h
  obtain ⟨s, hrun, hfault⟩ : ∃ s, run (opStep id)
      (init fun _ => unlinked)
      [.insert 1, .insert 2, .insert 3, .erase 2] = some s ∧ s.fault = true := ⟨_, rfl, rfl⟩
  have hok := (h _ s hrun).fault
  rw [hfault] at hok
  cases hok

/-- Every removal of the run returns the object with the next larger key. -/
def EraseReturnsNext (key : N → K) (s : State N) : Op N K → Prop
  | .erase n => ReturnsNext key s n
  | _ => True

/-- **Traversal, lookup and the result of a removal along every run**, under the same condition. -/
theorem allStates_traversed (key : N → K) (objects : N → Cell N) (ops : List (Op N K))
    (h : Transition.AllSteps (opStep key) Proper (init objects) ops) :
    Transition.AllStates (opStep key) (Traversed key) (init objects) ops ∧
      Transition.AllSteps (opStep key) (EraseReturnsNext key) (init objects) ops := by
  have hinv := allStates_opStep key objects ops h
  refine ⟨hinv.mono fun s hs => hs.2.traversed hs.1, hinv.allSteps h fun s op s' hI _ hP => ?_⟩
  cases op with
  | erase n => exact hI.2.returnsNext hI.1 hP.1 hP.2
  | insert n | lookup v | begin | next n => trivial

theorem allStates_traversed_smallTree :
    Transition.AllStates (opStep id) (Traversed id) (init fun _ => unlinked)
        smallTree ∧
      Transition.AllSteps (opStep id) (EraseReturnsNext id)
        (init fun _ => unlinked) smallTree :=
  allStates_traversed id _ _ allSteps_smallTree

/-- **Lookups take logarithmic time along every run**, under the same condition. -/
theorem allStates_lookupLogarithmic (key : N → K) (objects : N → Cell N) (ops : List (Op N K))
    (h : Transition.AllSteps (opStep key) Proper (init objects) ops) :
    Transition.AllStates (opStep key) (LookupLogarithmic key) (init objects) ops :=
  (allStates_opStep key objects ops h).mono fun _ hs => hs.2.lookupLogarithmic hs.1

theorem allStates_lookupLogarithmic_smallTree :
    Transition.AllStates (opStep id) (LookupLogarithmic id) (init fun _ => unlinked)
      smallTree :=
  allStates_lookupLogarithmic id _ _ allSteps_smallTree

/-- The removal of the root of three objects returns nothing. -/
theorem erase_root_returns_nothing : ¬ ∀ (ops : List (Op ℕ ℕ)) (s : State ℕ) (n : ℕ),
    run (opStep id) (init fun _ => unlinked) ops = some s →
      n ∈ s.live → ReturnsNext id s n := by
  intro h
  obtain ⟨s, hrun, hn, hnone⟩ : ∃ s, run (opStep id)
      (init fun _ => unlinked) [.insert 1, .insert 2, .insert 3] = some s ∧
      2 ∈ s.live ∧ MallocRbtree.erase s.mem s.fuel 2 = none :=
    ⟨_, rfl, .tail _ (.head _), rfl⟩
  obtain ⟨m', next, heq, -⟩ := h _ s 2 hrun hn
  rw [hnone] at heq
  cases heq

end Rbtree

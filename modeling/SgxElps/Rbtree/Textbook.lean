/-
**`__insert` and the textbook insertion.**

In the textbook the two halves of the repair loop are mirror images: an inner grandchild is brought to
the outside by a rotation of its parent, and then the grandparent is rotated away.  In `__insert` the
half for a parent that is a right child never finds the inner grandchild.  It rotates the grandparent
away at once, which leaves a red node below a red parent, and the next round takes the other half.  The
numbers of rounds differ, the trees do not: both loops compute the function `RedBlack.repair`.

Main definition: `textbookInsert`.  Main result: `insert_same_tree_as_textbook`.
-/

import SgxElps.Rbtree.Insert

namespace Rbtree

open RedBlack RedBlack.CTree
open Option (bind_eq_bind bind_some)

variable {N K : Type} [DecidableEq N]

/-! ### The textbook insertion -/

namespace Mem

def textbookLoop : (fuel : ℕ) → Mem N → (cur : Addr N) → Option (Mem N)
  | 0, _, _ => none
  | fuel + 1, m, cur => do
      let p ← m.parent cur
      if m.color p = .red then
        let (m, cur) ← m.textbookRound cur p
        textbookLoop fuel m cur
      else some m

def textbookInsert [LinearOrder K] (m : Mem N) (key : N → K) (fuel : ℕ) (node : N) :
    Option (Mem N × Bool) :=
  let a : Addr N := .node node
  let m := ((m.setParent a .sentinel).setChild .left a .sentinel).setChild .right a .sentinel
  match m.insertBst key fuel node with
  | none => none
  | some (m, false) => some (m, false)
  | some (m, true) => do
      let m ← textbookLoop fuel m a
      let root ← m.root
      some (m.setColor root .black, true)

end Mem

theorem repairLoop_textbookLoop : RepairLoop (N := N) Mem.textbookLoop fun m => m.textbookRound where
  loop_succ _ _ _ := rfl
  repaired := textbookRound_spec

/-! ### The two insertions -/

variable [LinearOrder K]

/-- **A node with a new key is inserted as in the textbook**: both loops end, and the two memories hold
the same tree, with the same shape and the same colours. -/
theorem insert_same_tree_as_textbook (key : N → K) (n : N) (fuel : ℕ) (m : Mem N) (t : CTree N)
    (h : Holds m t) (hs : Sorted key t) (hv : Valid t) (hnew : ∀ x ∈ t.inorder, key x ≠ key n)
    (hfuel : 2 * t.inorder.length + 2 ≤ fuel) :
    ∃ m₁ m₂ t', m.insert key fuel n = some (m₁, true) ∧ m.textbookInsert key fuel n = some (m₂, true) ∧
      Holds m₁ t' ∧ Holds m₂ t' := by
  have hn : n ∉ t.inorder := fun hmem => hnew n hmem rfl
  rcases insertBst_spec (h.reset hn) hs hn (show _ < fuel by omega) with
    ⟨-, x, hx, hkey⟩ | ⟨m₀, C, hbst, rfl, -, hlink⟩
  · exact absurd hkey (hnew x hx)
  · obtain ⟨m₁, r₁, hrun₁, hroot₁, h₁, -⟩ := repairLoop_insertLoop.of_link hv hlink hfuel
    obtain ⟨m₂, r₂, hrun₂, hroot₂, h₂, -⟩ := repairLoop_textbookLoop.of_link hv hlink hfuel
    refine ⟨_, _, _, ?_, ?_, h₁, h₂⟩
    · simp only [Mem.insert, hbst, hrun₁, bind_eq_bind, bind_some, hroot₁]
    · simp only [Mem.textbookInsert, hbst, hrun₂, bind_eq_bind, bind_some, hroot₂]

/-- The key between the two goes to the place of an inner grandchild. -/
theorem insert_same_tree_as_textbook_twoNodes :
    ∃ m₁ m₂ t', twoNodes.insert id 6 2 = some (m₁, true) ∧
      twoNodes.textbookInsert id 6 2 = some (m₂, true) ∧ Holds m₁ t' ∧ Holds m₂ t' := by
  refine insert_same_tree_as_textbook id 2 6 twoNodes
    (.node .black .nil 1 (.node .red .nil 3 .nil)) ?_ ?_ ?_ ?_ ?_
  · exact holds_twoNodes
  · simp [Sorted, inorder]
  · exact ⟨rfl, 1, .black .nil (.red .nil .nil rfl rfl)⟩
  · simp [inorder]
  · decide

end Rbtree

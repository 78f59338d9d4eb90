/-
**Insertion of a key that is in the tree.**

`insert_bst` finds the key at the end of its descent and `__insert` returns false.  Before the descent
`__insert` has reset `parent`, `left` and `right` of the node it was given.  A node that is not in the
tree may be reset; a node of the tree loses its place, unless it is the only one.

Main definition: `Unchanged`.  Main result: `insert_present_iff`.
-/

import SgxElps.Rbtree.Insert

namespace Rbtree

open RedBlack RedBlack.CTree
open List

variable {N K : Type} [LinearOrder K] {key : N → K} {m m' : Mem N} {t : CTree N} {n : N} {fuel : ℕ}

/-- The links and colours of the tree are the same in the two memories. -/
def Unchanged (m m' : Mem N) (t : CTree N) : Prop :=
  m'.root = m.root ∧ m'.cell .sentinel = m.cell .sentinel ∧
    ∀ k ∈ t.inorder, m'.cell (.node k) = m.cell (.node k)

theorem descend_finds (hoff : ∀ k ≠ n, m'.cell (.node k) = m.cell (.node k)) :
    ∀ {fuel : ℕ} {par p : Addr N}, Stored m t par → Sorted key t →
      (∃ x ∈ t.inorder, key x = key n) → t.inorder.length ≤ fuel →
      m'.descend key n fuel (some (addr t)) p = some none := by
  induction t with
  | nil =>
    rintro fuel par p - - ⟨x, hx, -⟩
    cases hx
  | node c l k r ihl ihr =>
    rintro fuel par p ⟨hk, hl, hr⟩ hs ⟨x, hx, hkey⟩ hfuel
    simp only [inorder, length_append, length_cons] at hfuel
    obtain ⟨fuel, rfl⟩ : ∃ j, fuel = j + 1 := ⟨fuel - 1, by omega⟩
    obtain ⟨hsl, hkr, hlk⟩ := pairwise_append.1 hs
    obtain ⟨hr', hsr⟩ := pairwise_cons.1 hkr
    have hchild : key n ≠ key k → ∀ d, m'.child d (.node k) =
        some (if d = .left then addr l else addr r) := by
      intro hne d
      rw [Mem.child, hoff k fun heq => hne (heq ▸ rfl), hk]
      rfl
    rw [inorder, mem_append, mem_cons] at hx
    simp only [addr, Mem.descend]
    rcases lt_trichotomy (key n) (key k) with hlt | heq | hgt
    · rw [if_pos hlt, hchild hlt.ne, Option.bind_some]
      refine ihl hl hsl ⟨x, ?_, hkey⟩ (by omega)
      rcases hx with hx | rfl | hx
      · exact hx
      · exact absurd hkey hlt.ne'
      · exact absurd hkey (hlt.trans (hr' x hx)).ne'
    · rw [if_neg heq.not_lt, if_neg heq.not_gt]
    · rw [if_neg hgt.not_gt, if_pos hgt, hchild hgt.ne', Option.bind_some]
      refine ihr hr hsr ⟨x, ?_, hkey⟩ (by omega)
      rcases hx with hx | rfl | hx
      · exact absurd hkey ((hlk x hx k mem_cons_self).trans hgt).ne
      · exact absurd hkey hgt.ne
      · exact hx

variable [DecidableEq N]

/-- `__insert` finds the key and returns with the memory after the reset. -/
theorem insert_present (h : Holds m t) (hs : Sorted key t) (hkey : ∃ x ∈ t.inorder, key x = key n)
    (hfuel : t.inorder.length ≤ fuel) :
    m.insert key fuel n = some (((m.setParent (.node n) .sentinel).setChild .left (.node n)
      .sentinel).setChild .right (.node n) .sentinel, false) := by
  obtain ⟨m', hm'⟩ : ∃ m', m' = ((m.setParent (.node n) .sentinel).setChild .left (.node n)
      .sentinel).setChild .right (.node n) .sentinel := ⟨_, rfl⟩
  have ht : t ≠ .nil := by
    rintro rfl
    obtain ⟨x, hx, -⟩ := hkey
    cases hx
  have hroot : m'.root = some (addr t) := by
    rw [hm']
    exact h.root_eq ht
  have hdesc : m'.descend key n fuel m'.root .sentinel = some none := by
    rw [hroot]
    refine descend_finds (fun k hk => ?_) h.stored hs hkey hfuel
    simp [hm', hk]
  simp only [Mem.insert, ← hm', Mem.insertBst, hdesc]

/-- The reset of a node of the tree. -/
theorem unchanged_reset_iff (h : Holds m t) :
    Unchanged m (((m.setParent (.node n) .sentinel).setChild .left (.node n) .sentinel).setChild .right
      (.node n) .sentinel) t ↔ n ∉ t.inorder ∨ t.inorder = [n] := by
  constructor
  · rintro ⟨-, -, hcell⟩
    by_cases hn : n ∈ t.inorder
    · right
      obtain ⟨C, c, l, r, rfl⟩ := exists_zip_of_mem hn
      have hold : m.cell (.node n) = cellOf .left c (addr l) (addr r) (top C) :=
        Holds.cell (d := .left) h
      have hnew := (hcell n hn).trans hold
      -- the fields of the node are those the reset has written
      have hpar := congrArg Cell.parent hnew
      have hl := congrFun (congrArg Cell.child hnew) .left
      have hr := congrFun (congrArg Cell.child hnew) .right
      simp only [cell_setChild, cell_setParent, ↓reduceIte, cellOf, Option.some.injEq,
        Function.update_self, ne_eq, reduceCtorEq, not_false_eq_true, Function.update_of_ne] at hpar hl hr
      obtain rfl := addr_eq_sentinel.1 hl.symm
      obtain rfl := addr_eq_sentinel.1 hr.symm
      cases C with
      | nil => rfl
      | cons f C => cases hpar
    · exact .inl hn
  · rintro (hn | hsingle)
    · refine ⟨rfl, by simp, fun k hk => ?_⟩
      have hkn : k ≠ n := fun heq => hn (heq ▸ hk)
      simp [hkn]
    · refine ⟨rfl, by simp, fun k hk => ?_⟩
      obtain ⟨C, c, l, r, rfl⟩ := exists_zip_of_mem (show n ∈ t.inorder by simp [hsingle])
      have hlen := length_add_length_le C (.node c l n r)
      rw [hsingle] at hlen hk
      simp only [inorder, length_append, length_cons, length_nil] at hlen
      obtain rfl : C = [] := length_eq_zero_iff.1 (by omega)
      obtain rfl := mem_singleton.1 hk
      have hl : addr l = .sentinel := by
        cases l with
        | nil => rfl
        | node => simp [inorder] at hlen; omega
      have hr : addr r = .sentinel := by
        cases r with
        | nil => rfl
        | node => simp [inorder] at hlen; omega
      have hold : m.cell (.node k) = cellOf .left c (addr l) (addr r) .sentinel :=
        Holds.cell (d := .left) (C := []) h
      simp only [cell_setChild, cell_setParent, ↓reduceIte, hold, cellOf, hl, hr]
      congr 1
      funext e
      cases e <;> simp

/-- **Insertion of a key that is in the tree.**  The insertion fails; the tree is unchanged if and only
if the object was not linked in it, or was the only object in it. -/
theorem insert_present_iff (key : N → K) (n : N) (fuel : ℕ) (m : Mem N) (t : CTree N) (h : Holds m t)
    (hs : Sorted key t) (hkey : ∃ x ∈ t.inorder, key x = key n) (hfuel : t.inorder.length ≤ fuel) :
    (∃ m', m.insert key fuel n = some (m', false) ∧ Unchanged m m' t) ↔
      (n ∉ t.inorder ∨ t.inorder = [n]) := by
  rw [insert_present h hs hkey hfuel, ← unchanged_reset_iff h]
  constructor
  · rintro ⟨m', heq, hsame⟩
    cases heq
    exact hsame
  · exact fun hsame => ⟨_, rfl, hsame⟩

/-- An object with the key of a linked one. -/
theorem insert_present_iff_twoNodes :
    ∃ m', twoNodes.insert (· % 10) 6 13 = some (m', false) ∧
      Unchanged twoNodes m' (.node .black .nil 1 (.node .red .nil 3 .nil)) :=
  (insert_present_iff (· % 10) 13 6 twoNodes _ holds_twoNodes (by simp [Sorted, inorder])
    ⟨3, by simp [inorder], rfl⟩ (by decide)).2 (.inl (by decide))

/-- The root is inserted once more and loses its child. -/
theorem insert_linked_changes : ¬ ∀ (key : ℕ → ℕ) (n fuel : ℕ) (m : Mem ℕ) (t : CTree ℕ), Holds m t →
    Sorted key t → (∃ x ∈ t.inorder, key x = key n) → t.inorder.length ≤ fuel →
    ∃ m', m.insert key fuel n = some (m', false) ∧ Unchanged m m' t := by
  intro hall
  obtain ⟨m', hrun, -, -, hcell⟩ := hall id 1 6 twoNodes _ holds_twoNodes (by simp [Sorted, inorder])
    ⟨1, by simp [inorder], rfl⟩ (by decide)
  obtain ⟨m'', hrun', hlost⟩ : ∃ m'', twoNodes.insert id 6 1 = some (m'', false) ∧
      m''.child .right (.node 1) = some .sentinel := ⟨_, rfl, rfl⟩
  obtain rfl : m' = m'' := congrArg Prod.fst (Option.some.inj (hrun.symm.trans hrun'))
  rw [Mem.child, hcell 1 (by simp [inorder])] at hlost
  cases hlost

end Rbtree

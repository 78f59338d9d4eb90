/-
**The memory of the nodes and the tree it holds.**

A memory holds a tree if every node of the tree has the colour, the children and the parent that it has
in the tree, with the sentinel for a missing child and for the parent of the root.  A subtree and its
context give a view of the memory from a node, and what the code reads through a pointer and what a
rotation does can be said in terms of this view.

Main definitions: `Stored`, `Holds`.  Main results: `stored_zip`, `Holds.unique`, `Holds.rotation`.
-/

import SgxElps.Rbtree.Basic

namespace Rbtree

open RedBlack RedBlack.CTree
open List
open Function

variable {N : Type}

/-! ### Cells -/

/-- The pointer to a tree. -/
def addr : CTree N → Addr N
  | .nil => .sentinel
  | .node _ _ n _ => .node n

/-- The pointer to the parent of a subtree. -/
def top : Ctx N → Addr N
  | [] => .sentinel
  | f :: _ => .node f.value

/-- A node with the child `a` on side `d` and `b` on the other. -/
def cellOf (d : Side) (c : Color) (a b parent : Addr N) : Cell N :=
  ⟨c, fun e => some (if e = d then a else b), some parent⟩

theorem cellOf_other (d : Side) (c : Color) (a b parent : Addr N) :
    cellOf d.other c a b parent = cellOf d c b a parent := by
  unfold cellOf
  congr 1
  funext e
  cases d <;> cases e <;> rfl

@[simp] theorem addr_bin (d : Side) (c : Color) (a : CTree N) (n : N) (b : CTree N) :
    addr (bin d c a n b) = .node n := by cases d <;> rfl

@[simp] theorem addr_plug (f : Frame N) (t : CTree N) : addr (f.plug t) = .node f.value :=
  addr_bin ..

theorem addr_eq_sentinel {t : CTree N} : addr t = .sentinel ↔ t = .nil := by
  cases t <;> simp [addr]

theorem addr_ne_node {t : CTree N} {n : N} (h : n ∉ t.inorder) : addr t ≠ .node n := by
  cases t with
  | nil => exact nofun
  | node c l k r =>
    rintro ⟨⟩
    exact h (by simp [inorder])

theorem mem_of_addr {t : CTree N} {n : N} (h : addr t = .node n) : n ∈ t.inorder := by
  by_contra hn
  exact addr_ne_node hn h

theorem top_ne_node {C : Ctx N} {n : N} (h : n ∉ outside C) : top C ≠ .node n := by
  cases C with
  | nil => exact nofun
  | cons f C =>
    rintro ⟨⟩
    exact h ((outside_cons f C).mem_iff.2 mem_cons_self)

theorem exists_addr_zip (f : Frame N) (C : Ctx N) (t : CTree N) :
    ∃ n ∈ outside (f :: C), addr (zip (f :: C) t) = .node n := by
  induction C generalizing f t with
  | nil => exact ⟨f.value, (outside_cons f []).mem_iff.2 mem_cons_self, addr_plug f t⟩
  | cons g C ih =>
    obtain ⟨n, hn, heq⟩ := ih g (f.plug t)
    refine ⟨n, (outside_cons f (g :: C)).mem_iff.2 ?_, heq⟩
    simp [hn]

theorem addr_zip_ne {f : Frame N} {C : Ctx N} {t : CTree N} (hnd : (zip (f :: C) t).inorder.Nodup) :
    addr (zip (f :: C) t) ≠ addr t := by
  obtain ⟨n, hn, heq⟩ := exists_addr_zip f C t
  rw [heq]
  exact (addr_ne_node fun hmem => (nodup_zip.1 hnd).2.2 hmem hn).symm

/-- The nodes of the tree have their cells. -/
def Stored (m : Mem N) : CTree N → Addr N → Prop
  | .nil, _ => True
  | .node c l n r, par =>
      m.cell (.node n) = cellOf .left c (addr l) (addr r) par ∧ Stored m l (.node n) ∧
        Stored m r (.node n)

/-- The nodes of the context have their cells, with `hole` for the subtree. -/
def StoredCtx (m : Mem N) : Ctx N → Addr N → Prop
  | [], hole => m.root.getD .sentinel = hole
  | f :: C, hole =>
      m.cell (.node f.value) = cellOf f.side f.color hole (addr f.sib) (top C) ∧
        Stored m f.sib (.node f.value) ∧ StoredCtx m C (.node f.value)

/-- **The memory holds the tree.** -/
structure Holds (m : Mem N) (t : CTree N) : Prop where
  stored : Stored m t .sentinel
  root : m.root.getD .sentinel = addr t
  nodup : t.inorder.Nodup
  sentinel_color : m.color .sentinel = .black
  sentinel_child : ∀ d, m.child d .sentinel = none

variable {m m' : Mem N} {d : Side} {c c' : Color} {t a b e : CTree N} {n p q : N} {par hole : Addr N}
  {C : Ctx N}

theorem stored_bin : Stored m (bin d c a n b) par ↔
    m.cell (.node n) = cellOf d c (addr a) (addr b) par ∧ Stored m a (.node n) ∧
      Stored m b (.node n) := by
  cases d with
  | left => exact Iff.rfl
  | right =>
    rw [show Side.right = Side.left.other from rfl, cellOf_other, bin_other]
    exact and_congr_right fun _ => and_comm

/-- **The cells of a tree, from a subtree.** -/
theorem stored_zip : Stored m (zip C t) .sentinel ∧ m.root.getD .sentinel = addr (zip C t) ↔
    Stored m t (top C) ∧ StoredCtx m C (addr t) := by
  induction C generalizing t with
  | nil => exact Iff.rfl
  | cons f C ih =>
    rw [zip_cons, ih, addr_plug, Frame.plug, stored_bin]
    simp only [StoredCtx, top]
    tauto

theorem Stored.congr (h : Stored m t par)
    (heq : ∀ n ∈ t.inorder, m'.cell (.node n) = m.cell (.node n)) : Stored m' t par := by
  induction t generalizing par with
  | nil => trivial
  | node c l n r ihl ihr =>
    obtain ⟨hn, hl, hr⟩ := h
    refine ⟨?_, ihl hl fun k hk => heq k ?_, ihr hr fun k hk => heq k ?_⟩
    · rw [heq n (by simp [inorder]), hn]
    · simp [inorder, hk]
    · simp [inorder, hk]

/-- A subtree gets another parent. -/
theorem Stored.reparent [DecidableEq N] (h : Stored m t par) (hnd : t.inorder.Nodup) {par' : Addr N}
    (heq : ∀ n ∈ t.inorder, m'.cell (.node n) =
      if .node n = addr t then { m.cell (.node n) with parent := some par' } else m.cell (.node n)) :
    Stored m' t par' := by
  cases t with
  | nil => trivial
  | node c l n r =>
    obtain ⟨hn, hl, hr⟩ := h
    obtain ⟨-, -, hnl, hnr, -⟩ := (nodup_bin (d := .left)).1 hnd
    have hoff : ∀ k ∈ (node c l n r).inorder, k ≠ n → m'.cell (.node k) = m.cell (.node k) := by
      intro k hk hkn
      rw [heq k hk, if_neg]
      rintro ⟨⟩
      exact hkn rfl
    refine ⟨?_, hl.congr fun k hk => hoff k ?_ ?_, hr.congr fun k hk => hoff k ?_ ?_⟩
    · have hself := heq n (by simp [inorder])
      simpa [addr, hn, cellOf] using hself
    · simp [inorder, hk]
    · exact fun h => hnl (h ▸ hk)
    · simp [inorder, hk]
    · exact fun h => hnr (h ▸ hk)

theorem StoredCtx.congr (h : StoredCtx m C hole)
    (heq : ∀ n ∈ outside C, m'.cell (.node n) = m.cell (.node n)) (hroot : m'.root = m.root) :
    StoredCtx m' C hole := by
  induction C generalizing hole with
  | nil => rwa [StoredCtx, hroot]
  | cons f C ih =>
    obtain ⟨hf, hs, hc⟩ := h
    have hmem := fun n => (outside_cons f C).mem_iff (a := n)
    refine ⟨?_, hs.congr fun k hk => heq k ?_, ih hc fun k hk => heq k ?_⟩
    · rw [heq f.value ((hmem _).2 mem_cons_self), hf]
    · rw [hmem]
      simp [hk]
    · rw [hmem]
      simp [hk]

/-! ### Reading -/

section Read

theorem Holds.parts (h : Holds m (zip C t)) : Stored m t (top C) ∧ StoredCtx m C (addr t) :=
  stored_zip.1 ⟨h.stored, h.root⟩

section

variable (h : Holds m (zip C (bin d c a n b)))

include h

theorem Holds.cell :
    m.cell (.node n) = cellOf d c (addr a) (addr b) (top C) :=
  (stored_bin.1 h.parts.1).1

theorem Holds.child :
    m.child d (.node n) = some (addr a) := by
  simp [Mem.child, h.cell, cellOf]

theorem Holds.child_other :
    m.child d.other (.node n) = some (addr b) := by
  simp [Mem.child, h.cell, cellOf, d.other_ne]

theorem Holds.parent :
    m.parent (.node n) = some (top C) := by
  simp [Mem.parent, h.cell, cellOf]

end

theorem Holds.parent_addr (h : Holds m (zip C t)) (ht : t ≠ .nil) :
    m.parent (addr t) = some (top C) := by
  cases t with
  | nil => exact absurd rfl ht
  | node c l n r => exact Holds.parent (d := .left) h

/-- The colour of a subtree, the empty one included. -/
theorem Holds.color (h : Holds m (zip C t)) : m.color (addr t) = t.color := by
  cases t with
  | nil => exact h.sentinel_color
  | node c l n r =>
    have := Holds.cell (d := .left) h
    simp [Mem.color, addr, this, cellOf, CTree.color]

theorem Holds.color_other (h : Holds m (zip C (bin d c a n b))) : m.color (addr b) = b.color := by
  refine Holds.color (C := ⟨d.other, c, n, a⟩ :: C) ?_
  rwa [zip_cons, Frame.plug, bin_other]

theorem Holds.color_top (h : Holds m (zip C t)) : m.color (top C) = topColor C := by
  cases C with
  | nil => exact h.sentinel_color
  | cons f C =>
    have := Holds.color (C := C) (t := f.plug t) h
    rwa [addr_plug, Frame.color_plug] at this

/-- `root` points to a tree that is not empty. -/
theorem Holds.root_eq (h : Holds m t) (ht : t ≠ .nil) : m.root = some (addr t) := by
  have hroot := h.root
  cases hr : m.root with
  | none =>
    rw [hr] at hroot
    exact absurd (addr_eq_sentinel.1 hroot.symm) ht
  | some a =>
    rw [hr] at hroot
    exact congrArg some hroot

theorem Stored.unique {t' : CTree N} {par' : Addr N} (h : Stored m t par) (h' : Stored m t' par')
    (heq : addr t = addr t') : t = t' := by
  induction t generalizing t' par par' with
  | nil => exact (addr_eq_sentinel.1 heq.symm).symm
  | node c l n r ihl ihr =>
    cases t' with
    | nil => cases heq
    | node c' l' n' r' =>
      obtain rfl : n = n' := Addr.node.inj heq
      obtain ⟨hn, hl, hr⟩ := h
      obtain ⟨hn', hl', hr'⟩ := h'
      obtain ⟨rfl, hchild, -⟩ := Cell.mk.inj (hn.symm.trans hn')
      rw [ihl hl hl' (Option.some.inj (congrFun hchild .left)),
        ihr hr hr' (Option.some.inj (congrFun hchild .right))]

/-- The memory says which tree it holds. -/
theorem Holds.unique {t' : CTree N} (h : Holds m t) (h' : Holds m t') : t = t' :=
  h.stored.unique h'.stored (h.root.symm.trans h'.root)

/-- Two subtrees of a tree with the same pointer. -/
theorem Holds.addr_ne (h : Holds m (zip C (bin d c a n b))) (ha : a ≠ .nil) : addr a ≠ addr b := by
  intro heq
  obtain ⟨-, -, -, -, hdisj⟩ := nodup_bin.1 (nodup_zip.1 h.nodup).1
  cases ha' : addr a with
  | sentinel => exact ha (addr_eq_sentinel.1 ha')
  | node k => exact hdisj (mem_of_addr ha') (mem_of_addr (heq ▸ ha'))

end Read

/-! ### Writing -/

section Write

variable {x y z : Addr N}

theorem setChild_cellOf (d : Side) (c : Color) (u v w par : Addr N) :
    { cellOf d c u v par with child := update (cellOf d c u v par).child d (some w) }
      = cellOf d c w v par := by
  unfold cellOf
  dsimp only
  congr 1
  funext e
  by_cases he : e = d <;> simp [he]

theorem setChild_other_cellOf (d : Side) (c : Color) (u v w par : Addr N) :
    { cellOf d c u v par with child := update (cellOf d c u v par).child d.other (some w) }
      = cellOf d c u w par := by
  rw [← cellOf_other, setChild_cellOf, cellOf_other]

/-- A subtree is replaced by one with the same values. -/
theorem Holds.replace (h : Holds m (zip C t)) {t' : CTree N} (hin : t'.inorder = t.inorder)
    (ht : Stored m' t' (top C)) (hc : StoredCtx m' C (addr t'))
    (hs : m'.cell .sentinel = m.cell .sentinel) : Holds m' (zip C t') := by
  obtain ⟨hstored, hroot⟩ := stored_zip.2 ⟨ht, hc⟩
  refine ⟨hstored, hroot, ?_, ?_, fun d => ?_⟩
  · rw [inorder_zip_congr C hin]
    exact h.nodup
  · rw [Mem.color, hs]
    exact h.sentinel_color
  · rw [Mem.child, hs]
    exact h.sentinel_child d

/-- A change outside the tree. -/
theorem Holds.frame {m' : Mem N} {t : CTree N} (h : Holds m t)
    (heq : ∀ k ∈ t.inorder, m'.cell (.node k) = m.cell (.node k))
    (hs : m'.cell .sentinel = m.cell .sentinel) (hroot : m'.root = m.root) : Holds m' t :=
  h.replace (C := []) rfl (h.stored.congr heq) (by rw [StoredCtx, hroot]; exact h.root) hs

variable [DecidableEq N]

@[simp] theorem cell_setColor (c : Color) : (m.setColor x c).cell y =
    if y = x then { m.cell x with color := c } else m.cell y := update_apply ..

@[simp] theorem cell_setParent : (m.setParent x z).cell y =
    if y = x then { m.cell x with parent := some z } else m.cell y := update_apply ..

@[simp] theorem cell_setChild (d : Side) : (m.setChild d x z).cell y =
    if y = x then { m.cell x with child := update (m.cell x).child d (some z) }
    else m.cell y := update_apply ..

@[simp] theorem child_setColor (c : Color) : (m.setColor x c).child d y = m.child d y := by
  rw [Mem.child, cell_setColor]
  split
  · next h => rw [h]; rfl
  · rfl

/-- Recolouring a node. -/
theorem Holds.setColor (h : Holds m (zip C (bin d c a n b))) (c' : Color) :
    Holds (m.setColor (.node n) c') (zip C (bin d c' a n b)) := by
  obtain ⟨hnd, -, hdisj⟩ := nodup_zip.1 h.nodup
  obtain ⟨-, -, hna, hnb, -⟩ := nodup_bin.1 hnd
  obtain ⟨ht, hc⟩ := h.parts
  obtain ⟨hn, ha, hb⟩ := stored_bin.1 ht
  have hoff : ∀ k, k ≠ n → (m.setColor (.node n) c').cell (.node k) = m.cell (.node k) := by
    intro k hk
    simp [hk]
  refine h.replace (inorder_bin_color ..) (stored_bin.2 ⟨?_, ?_, ?_⟩) ?_ (by simp)
  · simp [hn, cellOf]
  · exact ha.congr fun k hk => hoff k fun heq => hna (heq ▸ hk)
  · exact hb.congr fun k hk => hoff k fun heq => hnb (heq ▸ hk)
  · rw [addr_bin] at hc ⊢
    refine hc.congr (fun k hk => hoff k fun heq => ?_) rfl
    exact hdisj (mem_bin.2 (.inl heq)) hk

theorem Holds.setColor_addr (h : Holds m (zip C t)) (ht : t ≠ .nil) (c : Color) :
    Holds (m.setColor (addr t) c) (zip C (t.setColor c)) := by
  cases t with
  | nil => exact absurd rfl ht
  | node c' l n r => exact Holds.setColor (d := .left) h c

/-! ### Rotations -/

/-- The parent of a subtree, or the root, is made to point to `x`. -/
def relink (m : Mem N) : Ctx N → Addr N → Mem N
  | [], x => m.setRoot x
  | f :: _, x => m.setChild f.side (.node f.value) x

theorem cell_relink (hy : y ≠ top C) : (relink m C x).cell y = m.cell y := by
  cases C with
  | nil => rfl
  | cons f C => simp [relink, show y ≠ .node f.value from hy]

theorem cell_relink_sentinel : (relink m C x).cell .sentinel = m.cell .sentinel := by
  cases C with
  | nil => rfl
  | cons f C => simp [relink]

/-- The cells of the context, in a memory that agrees on them except for the pointer to the subtree. -/
theorem StoredCtx.relink (h : StoredCtx m C hole) (hnd : (outside C).Nodup)
    (hcell : ∀ n ∈ outside C, m'.cell (.node n) = (relink m C x).cell (.node n))
    (hroot : m'.root = (Rbtree.relink m C x).root) : StoredCtx m' C x := by
  cases C with
  | nil => simp [StoredCtx, hroot, Rbtree.relink, Mem.setRoot]
  | cons f C =>
    obtain ⟨hf, hs, hc⟩ := h
    have hperm := outside_cons f C
    obtain ⟨hfv, -⟩ := nodup_cons.1 (hperm.nodup_iff.1 hnd)
    have hmem : ∀ k ∈ f.sib.inorder ++ outside C,
        m'.cell (.node k) = m.cell (.node k) := by
      intro k hk
      have hne : k ≠ f.value := fun heq => hfv (heq ▸ hk)
      rw [hcell k (hperm.mem_iff.2 (mem_cons_of_mem _ hk))]
      simp [Rbtree.relink, hne]
    refine ⟨?_, hs.congr fun k hk => hmem k ?_, hc.congr (fun k hk => hmem k ?_) ?_⟩
    · rw [hcell _ (hperm.mem_iff.2 mem_cons_self)]
      simp only [Rbtree.relink, cell_setChild, ↓reduceIte, hf, cellOf]
      congr 1
      funext e
      by_cases he : e = f.side <;> simp [he]
    · simp [hk]
    · simp [hk]
    · rw [hroot]
      rfl

theorem relink_congr {m₁ : Mem N} (h : m₁.cell (.node n) = m.cell (.node n)) :
    (relink m₁ C x).cell (.node n) = (relink m C x).cell (.node n) := by
  cases C with
  | nil => exact h
  | cons f C =>
    by_cases hn : n = f.value
    · subst hn
      simp [relink, h]
    · simp [relink, hn, h]

theorem root_relink {m₁ : Mem N} (h : m₁.root = m.root) :
    (relink m₁ C x).root = (relink m C x).root := by
  cases C with
  | nil => rfl
  | cons f C => exact h

theorem replaceChild_eq {m₁ : Mem N} (h : StoredCtx m C (.node p)) (hp : p ∉ outside C)
    (hcell : ∀ n ∈ outside C, m₁.cell (.node n) = m.cell (.node n)) :
    m₁.replaceChild (top C) (.node p) x = some (relink m₁ C x) := by
  cases C with
  | nil => rfl
  | cons f C =>
    have hf := (hcell f.value ((outside_cons f C).mem_iff.2 mem_cons_self)).trans h.1
    have hsib : addr f.sib ≠ .node p := by
      refine addr_ne_node fun hmem => hp ?_
      rw [(outside_cons f C).mem_iff]
      simp [hmem]
    rcases f with ⟨_ | _, c, v, sib⟩
    · simp [Mem.replaceChild, top, Mem.child, hf, cellOf, relink]
    · simp [Mem.replaceChild, top, Mem.child, hf, cellOf, relink, hsib, libosAssert]

theorem cell_setParent_unless : (if x ≠ .sentinel then m.setParent x z else m).cell y =
    if y = x ∧ x ≠ .sentinel then { m.cell y with parent := some z } else m.cell y := by
  by_cases hx : x = .sentinel
  · simp [hx]
  · by_cases hy : y = x <;> simp [hx, hy]

theorem root_setParent_unless : (if x ≠ .sentinel then m.setParent x z else m).root = m.root := by
  split <;> rfl

/-- **A rotation of a subtree.** -/
theorem Holds.rotation (h : Holds m (zip C (bin d c a p (bin d c' b q e)))) :
    ∃ m', m.rotation d (.node p) = some m' ∧
      Holds m' (zip C (bin d c' (bin d c a p b) q e)) ∧
      m'.cell .sentinel = m.cell .sentinel := by
  obtain ⟨hnd, hout, hdisj⟩ := nodup_zip.1 h.nodup
  obtain ⟨-, hnd', hpa, hpq, hda⟩ := nodup_bin.1 hnd
  obtain ⟨hndb, -, hqb, hqe, hbe⟩ := nodup_bin.1 hnd'
  obtain ⟨ht, hc⟩ := h.parts
  rw [addr_bin] at hc
  obtain ⟨hp, ha, ht'⟩ := stored_bin.1 ht
  obtain ⟨hq, hb, he⟩ := stored_bin.1 ht'
  rw [addr_bin] at hp
  simp only [mem_bin, not_or] at hpq
  obtain ⟨hne, hpb, hpe⟩ := hpq
  have hmem : ∀ k, k = p ∨ k ∈ a.inorder ∨ k = q ∨ k ∈ b.inorder ∨ k ∈ e.inorder →
      k ∉ outside C := fun k hk hk' => hdisj (by simpa only [mem_bin] using hk) hk'
  -- the memory, write by write
  let m₁ := m.setChild d.other (.node p) (addr b)
  let m₂ := if addr b ≠ .sentinel then m₁.setParent (addr b) (.node p) else m₁
  let m₃ := m₂.setParent (.node q) (top C)
  let m₄ := relink m₃ C (.node q)
  let m₅ := (m₄.setChild d (.node q) (.node p)).setParent (.node p) (.node q)
  have h2 : ∀ k, k ≠ p → m₂.cell (.node k) = if .node k = addr b then
      { m.cell (.node k) with parent := some (.node p) } else m.cell (.node k) := by
    intro k hk
    rw [show m₂.cell (.node k) = _ from cell_setParent_unless]
    by_cases hkb : .node k = addr b
    · rw [if_pos ⟨hkb, by rw [← hkb]; exact nofun⟩, if_pos hkb]
      simp [m₁, hk]
    · rw [if_neg fun h => hkb h.1, if_neg hkb]
      simp [m₁, hk]
  have h₂p : m₂.cell (.node p) = cellOf d c (addr a) (addr b) (top C) := by
    rw [show m₂.cell (.node p) = _ from cell_setParent_unless,
      if_neg fun heq => addr_ne_node hpb heq.1.symm]
    simp only [m₁, cell_setChild, ↓reduceIte, hp]
    exact setChild_other_cellOf ..
  have h₂q : m₂.cell (.node q) = cellOf d c' (addr b) (addr e) (.node p) := by
    rw [h2 q (Ne.symm hne), if_neg (addr_ne_node hqb).symm, hq]
  have h3 : ∀ k ∈ outside C, m₃.cell (.node k) = m.cell (.node k) := by
    intro k hk
    have hkp : k ≠ p := fun heq => hmem k (.inl heq) hk
    have hkq : k ≠ q := fun heq => hmem k (.inr (.inr (.inl heq))) hk
    have hkb : .node k ≠ addr b := (addr_ne_node fun hkb => hmem k (by simp [hkb]) hk).symm
    simp [m₃, hkq, h2 k hkp, hkb]
  have h5 : ∀ k, k ≠ p → k ≠ q → k ∉ outside C → m₅.cell (.node k) = m₂.cell (.node k) := by
    intro k hkp hkq hkc
    simp [m₅, m₄, m₃, hkp, hkq, cell_relink (top_ne_node hkc).symm]
  have hrun : m.rotation d (.node p) = some m₅ := by
    have hpar : m₂.parent (.node p) = some (top C) := by simp [Mem.parent, h₂p, cellOf]
    have hrep := replaceChild_eq (x := .node q) hc (hmem p (.inl rfl)) h3
    have hcp : m.child d.other (.node p) = some (.node q) := by
      simp [Mem.child, hp, cellOf, d.other_ne]
    have hcq : m.child d (.node q) = some (addr b) := by simp [Mem.child, hq, cellOf]
    simp only [Mem.rotation, libosAssert, hcp, hcq, reduceCtorEq, ne_eq, not_false_eq_true,
      decide_true, ↓reduceIte, Option.bind_eq_bind, Option.bind_some]
    rw [show m₂.parent (.node p) = _ from hpar, Option.bind_some,
      show m₃.replaceChild (top C) (.node p) (.node q) = _ from hrep, Option.bind_some]
  have h₅p : m₅.cell (.node p) = cellOf d c (addr a) (addr b) (.node q) := by
    have hptop := (top_ne_node (hmem p (.inl rfl))).symm
    simp [m₅, m₄, m₃, hne, cell_relink hptop, h₂p, cellOf]
  have h₅q : m₅.cell (.node q) = cellOf d c' (.node p) (addr e) (top C) := by
    have hqtop := (top_ne_node (hmem q (by simp))).symm
    simp only [m₅, m₄, m₃, cell_setParent, cell_setChild, cell_relink hqtop, h₂q, ↓reduceIte,
      Addr.node.injEq, Ne.symm hne]
    exact setChild_cellOf d c' (addr b) (addr e) (.node p) (top C)
  have hsent : m₅.cell .sentinel = m.cell .sentinel := by
    have h₂s : m₂.cell .sentinel = m.cell .sentinel := by
      rw [show m₂.cell .sentinel = _ from cell_setParent_unless, if_neg fun h => h.2 h.1.symm]
      simp [m₁]
    simp [m₅, m₄, m₃, cell_relink_sentinel, h₂s]
  refine ⟨m₅, hrun, h.replace (inorder_rotate ..) ?_ ?_ hsent, hsent⟩
  · refine stored_bin.2 ⟨by rw [h₅q, addr_bin], stored_bin.2 ⟨h₅p, ?_, ?_⟩, ?_⟩
    · refine ha.congr fun k hk => ?_
      have hkp : k ≠ p := fun heq => hpa (heq ▸ hk)
      have hkt := fun hk' => hda hk (mem_bin.2 hk')
      rw [h5 k hkp (fun heq => hkt (.inl heq)) (hmem k (by simp [hk])), h2 k hkp, if_neg]
      exact (addr_ne_node fun hkb => hkt (.inr (.inl hkb))).symm
    · refine hb.reparent hndb fun k hk => ?_
      have hkp : k ≠ p := fun heq => hpb (heq ▸ hk)
      rw [h5 k hkp (fun heq => hqb (heq ▸ hk)) (hmem k (by simp [hk])), h2 k hkp]
    · refine he.congr fun k hk => ?_
      have hkp : k ≠ p := fun heq => hpe (heq ▸ hk)
      rw [h5 k hkp (fun heq => hqe (heq ▸ hk)) (hmem k (by simp [hk])), h2 k hkp, if_neg]
      exact (addr_ne_node fun hkb => hbe hkb hk).symm
  · rw [addr_bin]
    refine hc.relink hout (fun k hk => ?_) ?_
    · have hkp : k ≠ p := fun heq => hmem k (.inl heq) hk
      have hkq : k ≠ q := fun heq => hmem k (by simp [heq]) hk
      rw [← relink_congr (h3 k hk)]
      simp [m₅, m₄, hkp, hkq]
    · exact root_relink root_setParent_unless

end Write

end Rbtree

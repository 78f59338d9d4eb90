/-
**Removal from the tree.**

`__erase` takes a node out of the tree; a node with two children is replaced by its successor.  The
paths through the place that was emptied may now lack a black node, and `delete_fixup` moves this
deficit up or removes it by rotations.  While it does, the subtree may be empty, and its parent is then
read from the field `parent` of the sentinel: no rotation writes to it.

`y_original_color` is the colour of the node that is erased.  What is taken from the tree when the node
has two children is the colour of its successor, so the repair is the right one if the two agree.

Main definitions: `At`, `Detached`, `Taken`.  Main results: `erase_eq`, `erase_spec`, `erase_of_ne`.
-/

import SgxElps.Rbtree.Insert

namespace Rbtree

open RedBlack RedBlack.CTree
open Option (bind_eq_bind bind_some)
open List hiding zip zip_append

variable {N : Type} {m m' : Mem N} {C C' : Ctx N} {c cy : Color} {d : Side} {x t l r v w a b : CTree N}
  {n p y z : N} {par hole : Addr N} {fuel : ℕ}

/-! ### The successor -/

/-- `__begin` finds the first node of a subtree. -/
theorem leftmost_spec [DecidableEq N] {t : CTree N} : ∀ {fuel : ℕ} {C : Ctx N}, Holds m (zip C t) →
    t ≠ .nil → t.inorder.length ≤ fuel →
    ∃ C' c y r, m.leftmost fuel (addr t) = some (.node y) ∧ t = zip C' (.node c .nil y r) ∧
      before C' = [] := by
  induction t with
  | nil => intro fuel C _ ht; exact absurd rfl ht
  | node c l n r ihl _ =>
    intro fuel C h _ hfuel
    simp only [inorder, length_append, length_cons] at hfuel
    obtain ⟨fuel, rfl⟩ : ∃ k, fuel = k + 1 := ⟨fuel - 1, by omega⟩
    have hl : m.child .left (.node n) = some (addr l) := Holds.child (d := .left) h
    rw [show addr (.node c l n r) = .node n from rfl]
    simp only [Mem.leftmost, hl, bind_eq_bind, bind_some]
    by_cases hnil : l = .nil
    · subst hnil
      exact ⟨[], c, n, r, rfl, rfl, rfl⟩
    · rw [if_pos fun heq => hnil (addr_eq_sentinel.1 heq)]
      have hlen : l.inorder.length ≤ fuel := by omega
      obtain ⟨C', c', y, r', hrun, heq, hfirst⟩ :=
        ihl (C := ⟨.left, c, n, r⟩ :: C) h hnil hlen
      refine ⟨C' ++ [⟨.left, c, n, r⟩], c', y, r', hrun, ?_, ?_⟩
      · rw [zip_append, ← heq]
        rfl
      · rw [before_append, hfirst]
        rfl

theorem climb_spec [DecidableEq N] : ∀ {fuel : ℕ} {C : Ctx N} {t : CTree N}, Holds m (zip C t) →
    t ≠ .nil → C.length < fuel → m.climb fuel (addr t) = some ((after C).head?.map .node) := by
  intro fuel
  induction fuel with
  | zero => intro C t _ _ hfuel; omega
  | succ fuel ih =>
    intro C t h ht hfuel
    simp only [Mem.climb, h.parent_addr ht, bind_eq_bind, bind_some]
    cases C with
    | nil => rfl
    | cons f C =>
      have hplug : Holds m (zip C (f.plug t)) := h
      have hne : f.plug t ≠ .nil := bin_ne_nil _ _ _ _ _
      have hlen : C.length < fuel := by simpa using hfuel
      rcases f with ⟨_ | _, c, k, sib⟩
      · have hleft : m.child .left (.node k) = some (addr t) := hplug.child
        simp only [top, hleft, bind_some, ne_eq, reduceCtorEq, not_false_eq_true,
          ↓reduceIte]
        rfl
      · have hleft : m.child .left (.node k) = some (addr sib) := hplug.child_other
        have hnot : addr t ≠ addr sib := Holds.addr_ne (d := .right) hplug ht
        simp only [top, hleft, bind_some, ne_eq, reduceCtorEq, not_false_eq_true,
          ↓reduceIte, if_neg hnot]
        exact ih hplug hne hlen

/-- **`__next`** finds the node that follows in the order of the tree, or null. -/
theorem next_spec [DecidableEq N] (h : Holds m (zip C (.node c l z r)))
    (hfuel : (zip C (.node c l z r)).inorder.length ≤ fuel) :
    m.next fuel (.node z) = some ((r.inorder ++ after C).head?.map .node) := by
  have hlen := length_add_length_le C (.node c l z r)
  simp only [inorder, length_append, length_cons] at hlen
  have hr : m.child .right (.node z) = some (addr r) := Holds.child_other (d := .left) h
  simp only [Mem.next, hr, bind_eq_bind, bind_some]
  by_cases hnil : r = .nil
  · subst hnil
    exact climb_spec h node_ne_nil (by omega)
  · rw [if_pos fun heq => hnil (addr_eq_sentinel.1 heq)]
    have hlen' : r.inorder.length ≤ fuel := by omega
    obtain ⟨C', c', y, r', hrun, heq, hfirst⟩ :=
      leftmost_spec (C := ⟨.right, c, z, l⟩ :: C) h hnil hlen'
    rw [hrun, heq, inorder_zip, hfirst]
    rfl

/-! ### A subtree and the pointer to its parent -/

/-- The memory holds the tree around `x`, and the parent of `x` can be read, also if `x` is empty. -/
structure At (m : Mem N) (x : CTree N) (C : Ctx N) : Prop where
  holds : Holds m (zip C x)
  parent : m.parent (addr x) = some (top C)

theorem At.of_holds (h : At m x C) (h' : Holds m' (zip C' x)) (htop : top C' = top C)
    (hs : m'.cell .sentinel = m.cell .sentinel) : At m' x C' := by
  refine ⟨h', ?_⟩
  cases x with
  | nil =>
    have hpar := h.parent
    rw [addr, Mem.parent] at hpar ⊢
    rw [hs, hpar, htop]
  | node c l n r => exact h'.parent_addr node_ne_nil

theorem At.of_ne_nil (h : Holds m (zip C x)) (hx : x ≠ .nil) : At m x C := ⟨h, h.parent_addr hx⟩

theorem At.sib (h : At m x (⟨d, c, p, w⟩ :: C)) : m.child d.other (.node p) = some (addr w) :=
  Holds.child_other (C := C) h.holds

/-- The sibling, as the subtree at which one stands. -/
theorem At.holds_sib (h : At m x (⟨d, c, p, w⟩ :: C)) :
    Holds m (zip (⟨d.other, c, p, x⟩ :: C) w) := by
  rw [zip_cons, Frame.plug, bin_other]
  exact h.holds

/-- The sentinel is as the constructor left it, but for its parent. -/
def SentinelOk (m : Mem N) : Prop := m.color .sentinel = .black ∧ ∀ d, m.child d .sentinel = none

theorem Holds.sentinelOk (h : Holds m t) : SentinelOk m := ⟨h.sentinel_color, h.sentinel_child⟩

theorem SentinelOk.of_cell (h : SentinelOk m) (heq : m'.cell .sentinel = m.cell .sentinel) :
    SentinelOk m' := by
  refine ⟨?_, fun d => ?_⟩
  · rw [Mem.color, heq]
    exact h.1
  · rw [Mem.child, heq]
    exact h.2 d

theorem holds_zip (ht : Stored m t (top C)) (hc : StoredCtx m C (addr t))
    (hnd : (zip C t).inorder.Nodup) (hs : SentinelOk m) : Holds m (zip C t) :=
  have hzip := stored_zip.2 ⟨ht, hc⟩
  ⟨hzip.1, hzip.2, hnd, hs.1, hs.2⟩

/-! ### Taking the node out of the tree -/

variable [DecidableEq N]

theorem SentinelOk.setParent (h : SentinelOk m) (u v : Addr N) : SentinelOk (m.setParent u v) := by
  refine ⟨?_, fun d => ?_⟩
  · rw [Mem.color, cell_setParent]
    split
    · next heq => rw [← heq]; exact h.1
    · exact h.1
  · rw [Mem.child, cell_setParent]
    split
    · next heq => rw [← heq]; exact h.2 d
    · exact h.2 d

/-- The tests of `transplant` find the pointer to the subtree. -/
theorem transplant_eq (h : StoredCtx m C (.node n)) (hn : n ∉ outside C)
    (hp : m.parent (.node n) = some (top C)) (u : Addr N) :
    m.transplant (.node n) u = some ((relink m C u).setParent u (top C)) := by
  cases C with
  | nil => simp [Mem.transplant, hp, top, relink]
  | cons f C =>
    have hf := h.1
    have hsib : addr f.sib ≠ .node n := by
      refine addr_ne_node fun hmem => hn ?_
      rw [(outside_cons f C).mem_iff]
      simp [hmem]
    rcases f with ⟨_ | _, c, k, sib⟩
    · simp [Mem.transplant, hp, top, Mem.child, hf, cellOf, relink]
    · simp [Mem.transplant, hp, top, Mem.child, hf, cellOf, relink, hsib.symm]

theorem at_transplant (hv : Stored m v par) (hc : StoredCtx m C hole)
    (hnd : (zip C v).inorder.Nodup) (hs : SentinelOk m) :
    At ((relink m C (addr v)).setParent (addr v) (top C)) v C := by
  obtain ⟨hndv, hout, hdisj⟩ := nodup_zip.1 hnd
  obtain ⟨m', hm'⟩ : ∃ m', m' = (relink m C (addr v)).setParent (addr v) (top C) := ⟨_, rfl⟩
  have hstored : Stored m' v (top C) := by
    refine hv.reparent hndv fun k hk => ?_
    have hktop := (top_ne_node fun hk' => hdisj hk hk').symm
    rw [hm', cell_setParent]
    by_cases hkv : .node k = addr v
    · rw [if_pos hkv, if_pos hkv, ← hkv, cell_relink hktop]
    · rw [if_neg hkv, if_neg hkv, cell_relink hktop]
  have hctx : StoredCtx m' C (addr v) := by
    refine hc.relink hout (fun k hk => ?_) (by rw [hm']; rfl)
    have hkv : .node k ≠ addr v := (addr_ne_node fun hk' => hdisj hk' hk).symm
    rw [hm', cell_setParent, if_neg hkv]
  have hsent : SentinelOk m' := hm' ▸ (hs.of_cell cell_relink_sentinel).setParent _ _
  rw [← hm']
  refine ⟨holds_zip hstored hctx hnd hsent, ?_⟩
  simp [hm', Mem.parent]

/-- `transplant` of a node by one of its children. -/
theorem Holds.transplant (h : Holds m (zip C (bin d c a n b))) :
    ∃ m', m.transplant (.node n) (addr b) = some m' ∧ At m' b C ∧
      m'.root = some (addr (zip C b)) ∧
      ∀ k, k ∉ outside C → k ∉ b.inorder → m'.cell (.node k) = m.cell (.node k) := by
  obtain ⟨hnd, hout, hdisj⟩ := nodup_zip.1 h.nodup
  obtain ⟨-, hndb, -, -, -⟩ := nodup_bin.1 hnd
  obtain ⟨ht, hc⟩ := h.parts
  obtain ⟨-, -, hb⟩ := stored_bin.1 ht
  rw [addr_bin] at hc
  have hn : n ∉ outside C := hdisj (mem_bin.2 (.inl rfl))
  have hbC : b.inorder.Disjoint (outside C) := fun k hk => hdisj (mem_bin.2 (.inr (.inr hk)))
  have hat := at_transplant hb hc (nodup_zip.2 ⟨hndb, hout, hbC⟩) h.sentinelOk
  refine ⟨_, transplant_eq hc hn h.parent (addr b), hat, ?_, fun k hk hkb => ?_⟩
  · cases C with
    | nil => rfl
    | cons f C => exact hat.holds.root_eq (zip_ne_nil (C := C) (bin_ne_nil _ _ _ _ _))
  · rw [cell_setParent, if_neg (addr_ne_node hkb).symm, cell_relink (top_ne_node hk).symm]

/-- The node `z` is still in its place, and its right subtree is now `r`, below `y`. -/
structure Detached (m : Mem N) (C : Ctx N) (c : Color) (l : CTree N) (z y : N) (r : CTree N) : Prop where
  node : ∃ zr, m.cell (.node z) = cellOf .left c (addr l) zr (top C)
  left : Stored m l (.node z)
  right : Stored m r (.node y)
  child : m.child .right (.node y) = some (addr r)
  ctx : StoredCtx m C (.node z)
  sentinel : SentinelOk m

/-- The successor takes the place of the node. -/
theorem Detached.putInPlace (h : Detached m C c l z y r) (hlnil : l ≠ .nil)
    (hnd : (zip C (.node c l y r)).inorder.Nodup) (hzn : z ∉ (zip C (.node c l y r)).inorder) :
    ∃ m', m.putInPlace (.node z) (.node y) = some m' ∧ Holds m' (zip C (.node c l y r)) ∧
      m'.cell .sentinel = m.cell .sentinel := by
  obtain ⟨⟨zr, hz⟩, hl, hr, hyr, hc, hs⟩ := h
  obtain ⟨hnd', hout, hdisj⟩ := nodup_zip.1 hnd
  obtain ⟨hndl, hndr, hyl, hyr', hlr⟩ := (nodup_bin (d := .left)).1 hnd'
  have hznot : z ∉ outside C ∧ z ≠ y ∧ z ∉ l.inorder ∧ z ∉ r.inorder := by
    simp only [inorder_zip, inorder, mem_append, mem_cons, not_or] at hzn
    simp only [outside, mem_append, not_or]
    tauto
  obtain ⟨hzC, hzy, hzl, -⟩ := hznot
  have hyC : y ∉ outside C := hdisj (by simp [inorder])
  have hpar : m.parent (.node z) = some (top C) := by simp [Mem.parent, hz, cellOf]
  have hlsent : addr l ≠ .sentinel := fun heq => hlnil (addr_eq_sentinel.1 heq)
  -- the memory, write by write
  obtain ⟨m₁, hm1⟩ : ∃ m₁, m₁ = (relink m C (.node y)).setParent (.node y) (top C) := ⟨_, rfl⟩
  obtain ⟨m', hm'⟩ : ∃ m', m' = ((m₁.setChild .left (.node y) (addr l)).setParent (addr l)
      (.node y)).setColor (.node y) c := ⟨_, rfl⟩
  have h₁z : m₁.cell (.node z) = m.cell (.node z) := by
    rw [hm1, cell_setParent, if_neg (by simp [hzy]), cell_relink (top_ne_node hzC).symm]
  have hoff : ∀ k, k ≠ y → .node k ≠ addr l → m'.cell (.node k) = (relink m C (.node y)).cell
      (.node k) := by
    intro k hky hkl
    simp [hm', hm1, hky, hkl]
  have hrun : m.putInPlace (.node z) (.node y) = some m' := by
    have hzl' : m₁.child .left (.node z) = some (addr l) := by simp [Mem.child, h₁z, hz, cellOf]
    have hcol : ((m₁.setChild .left (.node y) (addr l)).setParent (addr l) (.node y)).color
        (.node z) = c := by
      simp [Mem.color, hzy, (addr_ne_node hzl).symm, h₁z, hz, cellOf]
    simp only [Mem.putInPlace, transplant_eq hc hzC hpar, ← hm1, hzl', hcol, ← hm',
      bind_eq_bind, bind_some]
  have hy : m'.cell (.node y) = cellOf .left c (addr l) (addr r) (top C) := by
    have hyl' : .node y ≠ addr l := (addr_ne_node hyl).symm
    have hcell : m₁.cell (.node y) = { m.cell (.node y) with parent := some (top C) } := by
      rw [hm1, cell_setParent, if_pos rfl, cell_relink (top_ne_node hyC).symm]
    simp only [hm', cell_setColor, cell_setParent, cell_setChild, ↓reduceIte, if_neg hyl', hcell,
      cellOf]
    congr 1
    funext e
    cases e with
    | left => simp
    | right => simpa [Mem.child] using hyr
  have hleft : Stored m' l (.node y) := by
    refine hl.reparent hndl fun k hk => ?_
    have hky : k ≠ y := fun heq => hyl (heq ▸ hk)
    have hkC : k ∉ outside C := hdisj (by simp [inorder, hk])
    have hk1 : m₁.cell (.node k) = m.cell (.node k) := by
      rw [hm1, cell_setParent, if_neg (by simp [hky]), cell_relink (top_ne_node hkC).symm]
    by_cases hkl : .node k = addr l
    · rw [if_pos hkl]
      simp [hm', hky, ← hkl, hk1]
    · rw [if_neg hkl, hoff k hky hkl, cell_relink (top_ne_node hkC).symm]
  have hright : Stored m' r (.node y) := by
    refine hr.congr fun k hk => ?_
    have hky : k ≠ y := fun heq => hyr' (heq ▸ hk)
    have hkl : .node k ≠ addr l := (addr_ne_node fun hk' => hlr hk' hk).symm
    have hkC : k ∉ outside C := hdisj (by simp [inorder, hk])
    rw [hoff k hky hkl, cell_relink (top_ne_node hkC).symm]
  have hctx : StoredCtx m' C (.node y) := by
    refine hc.relink hout (fun k hk => ?_) (by rw [hm', hm1]; rfl)
    have hky : k ≠ y := fun heq => hyC (heq ▸ hk)
    exact hoff k hky (addr_ne_node fun hk' => hdisj (by simp [inorder, hk']) hk).symm
  have hsent : m'.cell .sentinel = m.cell .sentinel := by
    simp [hm', hm1, hlsent.symm, cell_relink_sentinel]
  exact ⟨m', hrun, holds_zip ⟨hy, hleft, hright⟩ hctx hnd (hs.of_cell hsent), hsent⟩

theorem takeSuccessor_child (h : Holds m (zip C (.node c l z (.node cy .nil y r)))) :
    ∃ m', m.takeSuccessor (.node z) (.node y) (addr r) = some m' ∧ Detached m' C c l z y r ∧
      m'.parent (addr r) = some (.node y) := by
  have hy : Holds m (zip (⟨.right, c, z, l⟩ :: C) (bin .right cy r y .nil)) := h
  obtain ⟨ht, hc⟩ := h.parts
  obtain ⟨hz, hl, -, -, hr⟩ := ht
  have hsame : ∀ k, (m.setParent (addr r) (.node y)).cell (.node k) = m.cell (.node k) := by
    intro k
    rw [cell_setParent]
    split
    · next heq =>
      have hpar : m.parent (addr r) = some (.node y) := by
        refine Holds.parent_addr (C := ⟨.right, cy, y, .nil⟩ :: ⟨.right, c, z, l⟩ :: C) h ?_
        rintro rfl
        cases heq
      rw [← hpar, ← heq]
      rfl
    · rfl
  refine ⟨m.setParent (addr r) (.node y), ?_, ⟨⟨_, (hsame z).trans hz⟩, ?_, ?_, ?_, ?_, ?_⟩, ?_⟩
  · simp [Mem.takeSuccessor, hy.parent, top]
  · exact hl.congr fun k _ => hsame k
  · exact hr.congr fun k _ => hsame k
  · rw [Mem.child, hsame]
    exact hy.child
  · exact hc.congr (fun k _ => hsame k) rfl
  · exact h.sentinelOk.setParent _ _
  · simp [Mem.parent]

/-- The successor is further down. -/
theorem takeSuccessor_inner {f : Frame N}
    (h : Holds m (zip C (.node c l z (zip (f :: C') (.node cy .nil y r))))) :
    ∃ m', m.takeSuccessor (.node z) (.node y) (addr r) = some m' ∧
      Detached m' C c l z y (zip (f :: C') r) ∧ m'.parent (addr r) = some (.node f.value) := by
  have hy : Holds m (zip ((f :: C') ++ ⟨.right, c, z, l⟩ :: C) (bin .left cy .nil y r)) := by
    rw [zip_append]
    exact h
  obtain ⟨hnd, hout, hdisj⟩ := nodup_zip.1 hy.nodup
  obtain ⟨-, -, -, hyr, -⟩ := nodup_bin.1 hnd
  have hyout := hdisj (mem_bin.2 (.inl rfl))
  obtain ⟨m₁, hrun, hat, -, hkeep⟩ := hy.transplant
  have hycell := hkeep y hyout hyr
  have h1 : Holds m₁ (zip C (.node c l z (zip (f :: C') r))) := by
    have := hat.holds
    rwa [zip_append] at this
  have hynot : y ∉ (zip C (.node c l z (zip (f :: C') r))).inorder := by
    intro hmem
    have hzip : y ∈ (zip ((f :: C') ++ ⟨.right, c, z, l⟩ :: C) r).inorder := by
      rw [zip_append]
      exact hmem
    exact (mem_zip.1 hzip).elim hyr hyout
  obtain ⟨R, hR⟩ : ∃ R, R = zip (f :: C') r := ⟨_, rfl⟩
  rw [← hR] at h1 hynot ⊢
  obtain ⟨hnd1, -, hdisj1⟩ := nodup_zip.1 h1.nodup
  obtain ⟨-, hndR, -, hzR, hlR⟩ := (nodup_bin (d := .left)).1 hnd1
  obtain ⟨⟨hz, hl, hRz⟩, hc⟩ := h1.parts
  rw [mem_zip, not_or] at hynot
  have hyne : y ≠ z ∧ y ∉ l.inorder ∧ y ∉ R.inorder := by
    simpa [inorder, not_or, and_left_comm] using hynot.1
  -- the memory after the last two writes
  obtain ⟨m', hm'⟩ : ∃ m', m' = (m₁.setChild .right (.node y) (addr R)).setParent (addr R)
      (.node y) := ⟨_, rfl⟩
  have hoff : ∀ k, k ≠ y → .node k ≠ addr R → m'.cell (.node k) = m₁.cell (.node k) := by
    intro k hky hkR
    simp [hm', hky, hkR]
  have hfz : f.value ≠ z := by
    rintro rfl
    rw [hR, mem_zip, not_or] at hzR
    exact hzR.2 ((outside_cons f C').mem_iff.2 mem_cons_self)
  have hzr : m₁.child .right (.node z) = some (addr R) := Holds.child_other (d := .left) h1
  refine ⟨m', ?_, ⟨⟨_, (hoff z hyne.1.symm (addr_ne_node hzR).symm).trans hz⟩, ?_, ?_, ?_, ?_, ?_⟩,
    ?_⟩
  · have hpar : m.parent (.node y) = some (.node f.value) := hy.parent
    simp [Mem.takeSuccessor, hpar, hfz, hrun, hzr, hm']
  · refine hl.congr fun k hk => hoff k ?_ ?_
    · exact fun heq => hyne.2.1 (heq ▸ hk)
    · exact (addr_ne_node fun hkR => hlR hk hkR).symm
  · refine hRz.reparent hndR fun k hk => ?_
    have hky : k ≠ y := fun heq => hyne.2.2 (heq ▸ hk)
    by_cases hkR : .node k = addr R
    · rw [if_pos hkR]
      simp [hm', ← hkR, hky]
    · rw [if_neg hkR, hoff k hky hkR]
  · have hyR : .node y ≠ addr R := (addr_ne_node hyne.2.2).symm
    simp [hm', Mem.child, hyR]
  · refine hc.congr (fun k hk => hoff k ?_ ?_) (by rw [hm']; rfl)
    · exact fun heq => hynot.2 (heq ▸ hk)
    · exact (addr_ne_node fun hkR => hdisj1 (by simp [inorder, hkR]) hk).symm
  · rw [hm']
    refine SentinelOk.setParent (SentinelOk.of_cell h1.sentinelOk ?_) _ _
    simp
  · have hpar : (m₁.cell (addr r)).parent = some (.node f.value) := hat.parent
    have hrR : addr r ≠ addr R := by
      rw [hR]
      exact (addr_zip_ne (hR ▸ hndR)).symm
    have hry : addr r ≠ .node y := addr_ne_node hyr
    rw [Mem.parent]
    simpa [hm', hrR, hry] using hpar

/-- What `__erase` leaves to `delete_fixup`: `taken` is the colour that was taken from the tree. -/
structure Unlinked (m : Mem N) (old : CTree N) (A B : List N) (x : CTree N) (C : Ctx N)
    (taken : Color) : Prop where
  view : At m x C
  root : m.root = some (addr (zip C x))
  inorder : (zip C x).inorder = A ++ B
  deficit : Valid old → taken = .black → Deficit x C
  valid : Valid old → taken = .red → x = .nil ∧ Valid (zip C x)

/-- The third case of `__erase`. -/
theorem replaceBySuccessor_spec (h : Holds m (zip C (.node c l z (zip C' (.node cy .nil y r)))))
    (hfirst : before C' = []) (hl : l ≠ .nil) :
    ∃ m', m.replaceBySuccessor (.node z) (.node y) = some (m', addr r) ∧
      Unlinked m' (zip C (.node c l z (zip C' (.node cy .nil y r)))) (before C ++ l.inorder)
        ((zip C' (.node cy .nil y r)).inorder ++ after C) r (C' ++ ⟨.right, c, y, l⟩ :: C) cy := by
  have hold : (zip C (.node c l z (zip C' (.node cy .nil y r)))).inorder =
      (before C ++ l.inorder) ++ z :: ((zip C' (.node cy .nil y r)).inorder ++ after C) := by
    simp [inorder_zip, inorder]
  have hnew : (zip C (.node c l y (zip C' r))).inorder =
      (before C ++ l.inorder) ++ ((zip C' (.node cy .nil y r)).inorder ++ after C) := by
    simp [inorder_zip, inorder, hfirst]
  have hnd : z ∉ (zip C (.node c l y (zip C' r))).inorder ∧
      (zip C (.node c l y (zip C' r))).inorder.Nodup := by
    have := h.nodup
    rwa [hold, perm_middle.nodup_iff, ← hnew, nodup_cons] at this
  have hyr : m.child .right (.node y) = some (addr r) := by
    have hy : Holds m (zip (C' ++ ⟨.right, c, z, l⟩ :: C) (bin .right cy r y .nil)) := by
      rw [zip_append]
      exact h
    exact hy.child
  obtain ⟨m₁, hrun1, hdet, hpar⟩ : ∃ m₁, m.takeSuccessor (.node z) (.node y) (addr r) = some m₁ ∧
      Detached m₁ C c l z y (zip C' r) ∧
      m₁.parent (addr r) = some (top (C' ++ ⟨.right, c, y, l⟩ :: C)) := by
    cases C' with
    | nil => exact takeSuccessor_child h
    | cons f C' => exact takeSuccessor_inner h
  obtain ⟨m', hrun', h', hsent⟩ := hdet.putInPlace hl hnd.2 hnd.1
  have hzip : zip (C' ++ ⟨.right, c, y, l⟩ :: C) r = zip C (.node c l y (zip C' r)) := by
    rw [zip_append]
    rfl
  have hrename : SameShape (C' ++ ⟨.right, c, z, l⟩ :: C) (C' ++ ⟨.right, c, y, l⟩ :: C) :=
    rel_append (forall₂_same.2 fun _ _ => ⟨rfl, rfl⟩)
      (.cons ⟨rfl, rfl⟩ (forall₂_same.2 fun _ _ => ⟨rfl, rfl⟩))
  have hremove : Valid (zip C (.node c l z (zip C' (.node cy .nil y r)))) →
      (cy = .black → Deficit r (C' ++ ⟨.right, c, z, l⟩ :: C)) ∧
        (cy = .red → r = .nil ∧ Valid (zip (C' ++ ⟨.right, c, z, l⟩ :: C) r)) := by
    intro hv
    refine Valid.remove (d := .left) (n := y) ?_
    rw [zip_append]
    exact hv
  refine ⟨m', ?_, ⟨⟨hzip ▸ h', ?_⟩, ?_, ?_, ?_, ?_⟩⟩
  · simp only [Mem.replaceBySuccessor, hyr, hrun1, hrun', bind_eq_bind, bind_some]
  · cases r with
    | nil =>
      rw [addr, Mem.parent, hsent]
      exact hpar
    | node => exact Holds.parent_addr (hzip ▸ h') node_ne_nil
  · rw [hzip]
    exact h'.root_eq (zip_ne_nil node_ne_nil)
  · rw [hzip, hnew]
  · exact fun hv hcy => ((hremove hv).1 hcy).rename hrename
  · exact fun hv hcy => ((hremove hv).2 hcy).imp_right fun hv' => hv'.rename hrename

/-- The colour that is taken from the tree with a node of colour `c` is its own or, if it has two
children, that of its successor. -/
def Taken (m : Mem N) (fuel : ℕ) (c : Color) (l r : CTree N) (C' : Ctx N) (taken : Color) : Prop :=
  (l = .nil ∨ r = .nil) ∧ taken = c ∨ l ≠ .nil ∧ r ≠ .nil ∧ C' ≠ [] ∧
    ∃ y, m.leftmost fuel (addr r) = some y ∧ m.color y = taken

/-- **The node is taken out of the tree.** -/
theorem unlink_spec (h : Holds m (zip C (.node c l z r)))
    (hfuel : (zip C (.node c l z r)).inorder.length ≤ fuel) :
    ∃ m' x C' taken, m.unlink fuel (.node z) = some (m', addr x) ∧
      Unlinked m' (zip C (.node c l z r)) (before C ++ l.inorder) (r.inorder ++ after C) x C' taken ∧
      Taken m fuel c l r C' taken := by
  have hl : m.child .left (.node z) = some (addr l) := Holds.child (d := .left) h
  have hr : m.child .right (.node z) = some (addr r) := Holds.child (d := .right) h
  simp only [Mem.unlink, hl, hr, bind_eq_bind, bind_some]
  by_cases hlnil : l = .nil
  · subst hlnil
    obtain ⟨m', hrun, hat, hroot, -⟩ := Holds.transplant (d := .left) h
    refine ⟨m', r, C, c, ?_, ⟨hat, hroot, ?_, ?_, ?_⟩, .inl ⟨.inl rfl, rfl⟩⟩
    · rw [if_pos (show addr .nil = .sentinel from rfl), hrun, bind_some]
    · simp [inorder_zip, inorder]
    · exact fun hv => (Valid.remove (d := .left) hv).1
    · exact fun hv => (Valid.remove (d := .left) hv).2
  · rw [if_neg (mt addr_eq_sentinel.1 hlnil)]
    by_cases hrnil : r = .nil
    · subst hrnil
      obtain ⟨m', hrun, hat, hroot, -⟩ := Holds.transplant (d := .right) h
      refine ⟨m', l, C, c, ?_, ⟨hat, hroot, ?_, ?_, ?_⟩, .inl ⟨.inr rfl, rfl⟩⟩
      · rw [if_pos (show addr .nil = .sentinel from rfl), hrun, bind_some]
      · simp [inorder_zip, inorder]
      · exact fun hv => (Valid.remove (d := .right) hv).1
      · exact fun hv => (Valid.remove (d := .right) hv).2
    · rw [if_neg (mt addr_eq_sentinel.1 hrnil)]
      have hlen : r.inorder.length ≤ fuel := by
        have := length_add_length_le C (.node c l z r)
        simp only [inorder, length_append, length_cons] at this
        omega
      obtain ⟨C', cy, y, r', hleft, rfl, hfirst⟩ :=
        leftmost_spec (C := ⟨.right, c, z, l⟩ :: C) h hrnil hlen
      obtain ⟨m', hrun, hun⟩ := replaceBySuccessor_spec h hfirst hlnil
      refine ⟨m', r', _, cy, ?_, hun, .inr ⟨hlnil, hrnil, by simp, _, hleft, ?_⟩⟩
      · rw [hleft, bind_some, hrun]
      · have hy : Holds m (zip (C' ++ ⟨.right, c, z, l⟩ :: C) (.node cy .nil y r')) := by
          rw [zip_append]
          exact h
        exact hy.color

/-! ### `delete_fixup` -/

theorem At.setColor_parent (h : At m x (⟨d, c, p, w⟩ :: C)) (c' : Color) :
    At (m.setColor (.node p) c') x (⟨d, c', p, w⟩ :: C) :=
  h.of_holds (Holds.setColor (C := C) h.holds c') rfl (by simp)

/-- Recolouring the sibling. -/
theorem At.setColor_sib (h : At m x (⟨d, c, p, w⟩ :: C)) (hw : w ≠ .nil) (c' : Color) :
    At (m.setColor (addr w) c') x (⟨d, c, p, w.setColor c'⟩ :: C) := by
  refine h.of_holds ?_ rfl ?_
  · have := h.holds_sib.setColor_addr hw c'
    rwa [zip_cons, Frame.plug, bin_other] at this
  · have hne : addr w ≠ .sentinel := mt addr_eq_sentinel.1 hw
    simp [hne.symm]

theorem At.rotation {c' : Color} (h : At m x (⟨d, c, p, bin d c' a n b⟩ :: C)) :
    ∃ m', m.rotation d (.node p) = some m' ∧ At m' x (⟨d, c, p, a⟩ :: ⟨d, c', n, b⟩ :: C) := by
  obtain ⟨m', hrun, h', hs⟩ := Holds.rotation (C := C) h.holds
  exact ⟨m', hrun, h.of_holds h' rfl hs⟩

/-- The first part of a round: the sibling is black afterwards. -/
theorem redSibling_spec (h : At m x (⟨d, c, p, w⟩ :: C)) (hdef : Deficit x (⟨d, c, p, w⟩ :: C)) :
    ∃ m' c' C' a n b, m.redSibling d (addr x) = some (m', .node n) ∧
      At m' x (⟨d, c', p, bin d .black a n b⟩ :: C') ∧
      Deficit x (⟨d, c', p, bin d .black a n b⟩ :: C') ∧
      (zip (⟨d, c', p, bin d .black a n b⟩ :: C') x).inorder =
        (zip (⟨d, c, p, w⟩ :: C) x).inorder ∧ (c' = .red ∨ C' = C) := by
  have hpar : m.parent (addr x) = some (.node p) := h.parent
  obtain ⟨a, n, b, hw⟩ := hdef.exists_sib
  have hcol : m.color (addr w) = w.color := h.holds_sib.color
  simp only [Mem.redSibling, hpar, h.sib, hcol, bind_eq_bind, bind_some]
  cases hwc : w.color with
  | black =>
    rw [hwc] at hw
    subst hw
    refine ⟨m, c, C, a, n, b, ?_, h, hdef, rfl, .inr rfl⟩
    rw [if_neg (by decide), addr_bin]
  | red =>
    rw [hwc] at hw
    subst hw
    obtain ⟨rfl, ca, hdef'⟩ := hdef.redSibling
    obtain ⟨a₁, n₁, b₁, ha⟩ := hdef'.exists_sib
    rw [ca] at ha
    have h1 := h.setColor_sib (bin_ne_nil _ _ _ _ _) .black
    rw [setColor_bin] at h1
    have h2 := h1.setColor_parent .red
    obtain ⟨m₃, hrun, h3⟩ := h2.rotation
    have hpar1 : (m.setColor (addr (bin d .red a n b)) .black).parent (addr x) =
      some (.node p) := h1.parent
    have hpar3 : m₃.parent (addr x) = some (.node p) := h3.parent
    subst ha
    refine ⟨m₃, .red, ⟨d, .black, n, b⟩ :: C, a₁, n₁, b₁, ?_, h3, hdef', ?_, .inl rfl⟩
    · rw [if_pos rfl, hpar1, bind_some, hrun, bind_some, hpar3, bind_some,
        h3.sib, bind_some, addr_bin]
    · exact inorder_zip_congr C (inorder_rotate ..)

/-- In a round with a red child of the sibling: the far child is red afterwards. -/
theorem redFar_spec (h : At m x (⟨d, c, p, bin d .black a n b⟩ :: C))
    (hdef : Deficit x (⟨d, c, p, bin d .black a n b⟩ :: C)) (hx : x.color = .black)
    (hred : ¬ (a.color = .black ∧ b.color = .black)) :
    ∃ m' a' n' b', m.redFar d (addr x) (.node n) = some (m', .node n') ∧
      At m' x (⟨d, c, p, bin d .black a' n' b'⟩ :: C) ∧ b'.color = .red ∧
      Valid (zip C (bin d c (bin d .black x p a') n' (b'.setColor .black))) ∧
      (bin d .black a' n' b').inorder = (bin d .black a n b).inorder := by
  have hfar : m.child d.other (.node n) = some (addr b) := h.holds_sib.child_other
  have hnear : m.child d (.node n) = some (addr a) := h.holds_sib.child
  have hcol : m.color (addr b) = b.color := h.holds_sib.color_other
  simp only [Mem.redFar, hfar, hcol, bind_eq_bind, bind_some]
  cases hb : b.color with
  | red => exact ⟨m, a, n, b, by rw [if_neg (by decide)], h, hb, hdef.far hx hb, rfl⟩
  | black =>
    -- the near child is red, and is brought above the sibling
    obtain ⟨a₁, k, a₂, rfl⟩ : ∃ a₁ k a₂, a = bin d .red a₁ k a₂ := by
      cases a with
      | nil => exact absurd ⟨rfl, hb⟩ hred
      | node ca l k r =>
        obtain rfl : ca = .red := by
          cases ca with
          | red => rfl
          | black => exact absurd ⟨rfl, hb⟩ hred
        obtain ⟨a₁, a₂, heq⟩ := exists_bin d .red l k r
        exact ⟨a₁, k, a₂, heq⟩
    rw [addr_bin] at hnear
    have h1 := Holds.setColor (C := ⟨d, .black, n, b⟩ :: ⟨d.other, c, p, x⟩ :: C) h.holds_sib .black
    have h2 := Holds.setColor (C := ⟨d.other, c, p, x⟩ :: C) h1 .red
    rw [← bin_other, ← bin_other d .black] at h2
    obtain ⟨m₃, hrun, h3, hs⟩ := h2.rotation
    rw [bin_other, bin_other, zip_cons, Frame.plug, bin_other] at h3
    have hat : At m₃ x (⟨d, c, p, bin d .black a₁ k (bin d .red a₂ n b)⟩ :: C) := by
      refine h.of_holds h3 rfl (hs.trans ?_)
      simp
    have hpar : m₃.parent (addr x) = some (.node p) := hat.parent
    refine ⟨m₃, a₁, k, bin d .red a₂ n b, ?_, hat, color_bin .., ?_, ?_⟩
    · rw [if_pos rfl, hnear, bind_some, hrun, bind_some, hpar, bind_some,
        hat.sib, bind_some, addr_bin]
    · rw [setColor_bin]
      exact hdef.near hx
    · exact (inorder_rotate ..).symm

theorem fixup_close (h : At m x (⟨d, c, p, bin d .black a n b⟩ :: C)) (hb : b.color = .red) :
    ∃ m', (((m.setColor (.node n) c).setColor (.node p) .black).setColor (addr b) .black).rotation d
        (.node p) = some m' ∧
      Holds m' (zip C (bin d c (bin d .black x p a) n (b.setColor .black))) := by
  have hbnil : b ≠ .nil := by
    rintro rfl
    cases hb
  have h1 := h.setColor_sib (bin_ne_nil _ _ _ _ _) c
  rw [setColor_bin, addr_bin] at h1
  have h2 := h1.setColor_parent .black
  have h3 : Holds ((m.setColor (.node n) c).setColor (.node p) .black)
      (zip (⟨d.other, c, n, a⟩ :: ⟨d.other, .black, p, x⟩ :: C) b) := by
    rw [zip_cons, Frame.plug, bin_other]
    exact h2.holds_sib
  have h4 := h3.setColor_addr hbnil .black
  rw [zip_cons, Frame.plug, bin_other, zip_cons, Frame.plug, bin_other] at h4
  obtain ⟨m', hrun, h', -⟩ := h4.rotation
  exact ⟨m', hrun, h'⟩

/-- **A round of `delete_fixup`**: the deficit is further up or at a red node, or there is none. -/
theorem fixupRound_spec (h : At m x (⟨d, c, p, w⟩ :: C)) (hdef : Deficit x (⟨d, c, p, w⟩ :: C))
    (hx : x.color = .black) :
    ∃ m' t C', m.fixupRound d (addr x) = some (m', addr t) ∧ t ≠ .nil ∧ Holds m' (zip C' t) ∧
      (zip C' t).inorder = (zip (⟨d, c, p, w⟩ :: C) x).inorder ∧
      (Deficit t C' ∧ (t.color = .red ∨ C' = C) ∨ C' = [] ∧ Valid t) := by
  obtain ⟨m₁, c₁, C₁, a, n, b, hrun1, h1, hdef1, hin1, hor⟩ := redSibling_spec h hdef
  have hnear : m₁.child d (.node n) = some (addr a) := h1.holds_sib.child
  have hfar : m₁.child d.other (.node n) = some (addr b) := h1.holds_sib.child_other
  have hcola : m₁.color (addr a) = a.color :=
    Holds.color (C := ⟨d, .black, n, b⟩ :: ⟨d.other, c₁, p, x⟩ :: C₁) h1.holds_sib
  have hcolb : m₁.color (addr b) = b.color := h1.holds_sib.color_other
  simp only [Mem.fixupRound, hrun1, hnear, hfar, hcola, hcolb, bind_eq_bind,
    bind_some]
  by_cases hblack : a.color = .black ∧ b.color = .black
  · have h2 := h1.setColor_sib (bin_ne_nil _ _ _ _ _) .red
    rw [setColor_bin, addr_bin] at h2
    have hpar : (m₁.setColor (.node n) .red).parent (addr x) = some (.node p) := h2.parent
    refine ⟨_, bin d c₁ x p (bin d .red a n b), C₁, ?_, bin_ne_nil _ _ _ _ _, h2.holds, ?_, .inl ⟨?_, ?_⟩⟩
    · rw [if_pos hblack, hpar, bind_some, addr_bin]
    · rw [← hin1]
      exact inorder_zip_congr C₁ (by cases d <;> rfl)
    · exact hdef1.up hx hblack.1 hblack.2
    · rwa [color_bin]
  · obtain ⟨m₂, a₂, n₂, b₂, hrun2, h2, hred, hv, hin2⟩ := redFar_spec h1 hdef1 hx hblack
    obtain ⟨m₃, hrun3, h3⟩ := fixup_close h2 hred
    have hpar : m₂.parent (addr x) = some (.node p) := h2.parent
    have hcolp : m₂.color (.node p) = c₁ := h2.holds.color_top
    have hfar2 : m₂.child d.other (.node n₂) = some (addr b₂) := h2.holds_sib.child_other
    have hne : zip C₁ (bin d c₁ (bin d .black x p a₂) n₂ (b₂.setColor .black)) ≠ .nil :=
      zip_ne_nil (bin_ne_nil _ _ _ _ _)
    refine ⟨m₃, _, [], ?_, hne, h3, ?_, .inr ⟨rfl, hv⟩⟩
    · rw [if_neg hblack, hrun2]
      simp only [bind_some, hpar, hcolp, child_setColor, hfar2, hrun3, h3.root_eq hne]
    · rw [zip_nil, ← hin1]
      refine inorder_zip_congr C₁ ?_
      calc (bin d c₁ (bin d .black x p a₂) n₂ (b₂.setColor .black)).inorder
          = (bin d c₁ (bin d .black x p a₂) n₂ b₂).inorder :=
            inorder_bin_congr d c₁ n₂ rfl (inorder_setColor ..)
        _ = (bin d c₁ x p (bin d .black a₂ n₂ b₂)).inorder := inorder_rotate ..
        _ = (bin d c₁ x p (bin d .black a n b)).inorder := inorder_bin_congr d c₁ p rfl hin2

theorem At.exists_left (h : At m x (⟨d, c, p, w⟩ :: C)) (hw : w ≠ .nil) :
    ∃ u, m.child .left (.node p) = some u ∧ (if addr x = u then Side.left else Side.right) = d := by
  cases d with
  | left => exact ⟨addr x, Holds.child (C := C) h.holds, if_pos rfl⟩
  | right => exact ⟨addr w, h.sib, if_neg (Holds.addr_ne (C := C) (d := .left) h.holds hw).symm⟩

theorem Holds.setColor_black (h : Holds m (zip C t)) :
    Holds (m.setColor (addr t) .black) (zip C (t.setColor .black)) := by
  cases t with
  | nil =>
    refine h.frame (fun k _ => by simp [addr]) ?_ rfl
    have hcol : (m.cell .sentinel).color = .black := h.sentinel_color
    rw [addr, cell_setColor, if_pos rfl, ← hcol]
  | node => exact h.setColor_addr node_ne_nil .black

theorem deleteFixup_done (h : Holds m (zip C x)) (hroot : m.root = some (addr (zip C x)))
    (hend : x.color = .red ∨ C = []) :
    Mem.deleteFixup (fuel + 1) m (addr x) = some (m.setColor (addr x) .black) := by
  rw [Mem.deleteFixup, if_neg]
  rintro ⟨hr, hb⟩
  rcases hend with hred | rfl
  · rw [h.color, hred] at hb
    cases hb
  · exact hr hroot

/-- **`delete_fixup` ends with a red-black tree.** -/
theorem deleteFixup_spec : ∀ {fuel : ℕ} {m : Mem N} {x : CTree N} {C : Ctx N}, At m x C →
    m.root = some (addr (zip C x)) → Deficit x C → C.length + 2 ≤ fuel →
    ∃ m' t, Mem.deleteFixup fuel m (addr x) = some m' ∧ Holds m' t ∧
      t.inorder = (zip C x).inorder ∧ Valid t := by
  intro fuel
  induction fuel with
  | zero => intro m x C _ _ _ hfuel; omega
  | succ fuel ih =>
    intro m x C h hroot hdef hfuel
    by_cases hend : x.color = .red ∨ C = []
    · exact ⟨_, _, deleteFixup_done h.holds hroot hend, h.holds.setColor_black,
        inorder_zip_congr C (inorder_setColor ..), hdef.valid hend⟩
    · obtain ⟨hx, hC⟩ := not_or.1 hend
      replace hx : x.color = .black := by
        cases hxc : x.color with
        | red => exact absurd hxc hx
        | black => rfl
      obtain ⟨⟨d, c, p, w⟩, C, rfl⟩ := exists_cons_of_ne_nil hC
      obtain ⟨m₁, t, C₁, hrun, ht, h1, hin, hok⟩ := fixupRound_spec h hdef hx
      have hstep : Mem.deleteFixup (fuel + 1) m (addr x) = Mem.deleteFixup fuel m₁ (addr t) := by
        obtain ⟨u, hu, hside⟩ := h.exists_left hdef.sib_ne_nil
        have hpar : m.parent (addr x) = some (.node p) := h.parent
        have hnot : m.root ≠ some (addr x) := by
          rw [hroot, ne_eq, Option.some_inj]
          exact addr_zip_ne h.holds.nodup
        simp only [Mem.deleteFixup, h.holds.color, hx, hpar, hu, hside, hrun, hnot, ne_eq,
          not_false_eq_true, and_self, ↓reduceIte, bind_eq_bind, bind_some]
      rw [hstep, ← hin]
      simp only [length_cons] at hfuel
      have hroot1 : m₁.root = some (addr (zip C₁ t)) := h1.root_eq (zip_ne_nil ht)
      rcases hok with ⟨hdef1, hred | rfl⟩ | ⟨rfl, hv⟩
      · -- the next test ends the loop
        obtain ⟨fuel, rfl⟩ : ∃ k, fuel = k + 1 := ⟨fuel - 1, by omega⟩
        exact ⟨_, _, deleteFixup_done h1 hroot1 (.inl hred), h1.setColor_black,
          inorder_zip_congr C₁ (inorder_setColor ..), hdef1.valid (.inl hred)⟩
      · exact ih (.of_ne_nil h1 ht) hroot1 hdef1 (by omega)
      · obtain ⟨fuel, rfl⟩ : ∃ k, fuel = k + 1 := ⟨fuel - 1, by omega⟩
        refine ⟨_, _, deleteFixup_done h1 hroot1 (.inr rfl), h1.setColor_black,
          inorder_setColor .., ?_⟩
        rw [zip_nil, ← hv.1, setColor_color]
        exact hv

/-- Where no black node is missing at an empty place, the sibling is the sentinel after the first part
of a round. -/
theorem fixupRound_of_valid (h : At m .nil (⟨d, c, p, w⟩ :: C))
    (hv : Valid (zip (⟨d, c, p, w⟩ :: C) .nil)) : m.fixupRound d .sentinel = none := by
  obtain ⟨m', hrun, hchild⟩ : ∃ m', m.redSibling d .sentinel = some (m', .sentinel) ∧
      m'.child d .sentinel = none := by
    have hpar : m.parent .sentinel = some (.node p) := h.parent
    have hcol : m.color (addr w) = w.color := h.holds_sib.color
    simp only [Mem.redSibling, hpar, h.sib, hcol, bind_eq_bind, bind_some]
    rcases hv.sib_of_nil with rfl | ⟨n, rfl⟩
    · exact ⟨m, rfl, h.holds.sentinel_child d⟩
    · have h1 := h.setColor_sib (bin_ne_nil _ _ _ _ _) .black
      rw [setColor_bin] at h1
      obtain ⟨m₃, hrot, h3⟩ := (h1.setColor_parent .red).rotation
      have hpar1 : (m.setColor (addr (bin d .red .nil n .nil)) .black).parent .sentinel =
        some (.node p) := h1.parent
      have hpar3 : m₃.parent .sentinel = some (.node p) := h3.parent
      refine ⟨m₃, ?_, h3.holds.sentinel_child d⟩
      rw [color_bin, if_pos rfl, hpar1, bind_some, hrot, bind_some, hpar3, bind_some, h3.sib, bind_some]
      rfl
  simp only [Mem.fixupRound, hrun, hchild, bind_eq_bind, bind_some, Option.bind_none]

/-- **`delete_fixup` without a deficit** reads a child of the sentinel. -/
theorem deleteFixup_of_valid (h : At m .nil (⟨d, c, p, w⟩ :: C))
    (hroot : m.root = some (addr (zip (⟨d, c, p, w⟩ :: C) .nil)))
    (hv : Valid (zip (⟨d, c, p, w⟩ :: C) .nil)) : Mem.deleteFixup fuel m .sentinel = none := by
  cases fuel with
  | zero => rfl
  | succ fuel =>
    -- between two empty places the left one is repaired
    obtain ⟨e, u, hu, hside, he, hve⟩ : ∃ e u, m.child .left (.node p) = some u ∧
        (if .sentinel = u then Side.left else Side.right) = e ∧ At m .nil (⟨e, c, p, w⟩ :: C) ∧
        Valid (zip (⟨e, c, p, w⟩ :: C) .nil) := by
      by_cases hw : w = .nil
      · subst hw
        have hleft : At m .nil (⟨.left, c, p, .nil⟩ :: C) := by
          cases d <;> exact ⟨h.holds, h.parent⟩
        refine ⟨.left, .sentinel, Holds.child (C := C) hleft.holds, if_pos rfl, hleft, ?_⟩
        cases d <;> exact hv
      · obtain ⟨u, hu, hside⟩ := h.exists_left hw
        exact ⟨d, u, hu, hside, h, hv⟩
    have hpar : m.parent .sentinel = some (.node p) := h.parent
    have hnot : m.root ≠ some .sentinel := by
      rw [hroot, ne_eq, Option.some_inj]
      exact addr_zip_ne h.holds.nodup
    simp only [Mem.deleteFixup, h.holds.sentinel_color, hpar, hu, hside, hnot, fixupRound_of_valid he hve,
      ne_eq, not_false_eq_true, and_self, ↓reduceIte, bind_eq_bind, bind_some, Option.bind_none]

/-! ### The removal -/

/-- `__erase`, up to the repair. -/
theorem erase_eq (h : Holds m (zip C (.node c l z r)))
    (hfuel : (zip C (.node c l z r)).inorder.length ≤ fuel) :
    ∃ m' x C' taken, m.erase fuel (.node z) =
        (if c = .black then Mem.deleteFixup fuel m' (addr x) else some m').map
          (·, (r.inorder ++ RedBlack.after C).head?.map .node) ∧
      Unlinked m' (zip C (.node c l z r)) (before C ++ l.inorder) (r.inorder ++ after C) x C' taken ∧
      Taken m fuel c l r C' taken := by
  obtain ⟨m', x, C', taken, hunlink, hun, hor⟩ := unlink_spec h hfuel
  have hcol : m.color (.node z) = c := h.color
  refine ⟨m', x, C', taken, ?_, hun, hor⟩
  simp only [Mem.erase, next_spec h hfuel, hunlink, hcol, bind_eq_bind, bind_some]
  split
  · exact Option.map_eq_bind.symm
  · rfl

/-- **`__erase`** takes the node out of the tree and keeps the invariants, if the colour of a successor
that takes the place of the node is the colour of the node. -/
theorem erase_spec (h : Holds m (zip C (.node c l z r))) (hv : Valid (zip C (.node c l z r)))
    (hfuel : (zip C (.node c l z r)).inorder.length + 2 ≤ fuel)
    (hcolor : l ≠ .nil → r ≠ .nil → ∀ y, m.leftmost fuel (addr r) = some y → m.color y = c) :
    ∃ m' t, m.erase fuel (.node z) = some (m', (r.inorder ++ after C).head?.map .node) ∧ Holds m' t ∧
      Valid t ∧ t.inorder = before C ++ l.inorder ++ (r.inorder ++ after C) := by
  have hfuel' : (zip C (.node c l z r)).inorder.length ≤ fuel := by omega
  obtain ⟨m₁, x, C₁, taken, herase, hun, hor⟩ := erase_eq h hfuel'
  obtain rfl : taken = c := by
    rcases hor with ⟨-, rfl⟩ | ⟨hl, hr, -, y, hy, rfl⟩
    · rfl
    · exact hcolor hl hr y hy
  have hlen : C₁.length + 2 ≤ fuel := by
    have hle := length_add_length_le C₁ x
    simp only [hun.inorder, inorder_zip, inorder, length_append, length_cons] at hle hfuel
    omega
  rw [herase]
  cases taken with
  | red => exact ⟨m₁, zip C₁ x, rfl, hun.view.holds, (hun.valid hv rfl).2, hun.inorder⟩
  | black =>
    obtain ⟨m', t, hrun, h', hin, hv'⟩ :=
      deleteFixup_spec hun.view hun.root (hun.deficit hv rfl) hlen
    refine ⟨m', t, ?_, h', hv', hin.trans hun.inorder⟩
    rw [if_pos rfl, hrun, Option.map_some]

/-- **With a successor of another colour** it does not keep them: either a black node is missing and
`delete_fixup` is not called, or none is missing and it is. -/
theorem erase_of_ne (h : Holds m (zip C (.node c l z r))) (hv : Valid (zip C (.node c l z r)))
    (hfuel : (zip C (.node c l z r)).inorder.length ≤ fuel) (hl : l ≠ .nil) (hr : r ≠ .nil)
    {y : Addr N} (hy : m.leftmost fuel (addr r) = some y) (hcolor : m.color y ≠ c)
    {ret : Option (Addr N)} (hrun : m.erase fuel (.node z) = some (m', ret)) (ht : Holds m' t) :
    ¬ Valid t := by
  obtain ⟨m₁, x, C₁, taken, herase, hun, ⟨hnil, -⟩ | ⟨-, -, hC, y', hy', htaken⟩⟩ := erase_eq h hfuel
  · exact absurd hnil (not_or.2 ⟨hl, hr⟩)
  obtain rfl : y = y' := Option.some.inj (hy.symm.trans hy')
  rw [htaken] at hcolor
  rw [herase] at hrun
  cases c with
  | red =>
    obtain rfl : taken = .black := by cases taken <;> trivial
    obtain ⟨rfl, -⟩ : m₁ = m' ∧ _ := by simpa using hrun
    rw [ht.unique hun.view.holds]
    exact (hun.deficit hv rfl).not_valid hC
  | black =>
    obtain rfl : taken = .red := by cases taken <;> trivial
    obtain ⟨rfl, hv'⟩ := hun.valid hv rfl
    obtain ⟨⟨d, c, p, w⟩, C, rfl⟩ := exists_cons_of_ne_nil hC
    rw [if_pos rfl, addr, deleteFixup_of_valid hun.view hun.root hv'] at hrun
    cases hrun

end Rbtree

/-
**Insertion keeps the red-black invariants.**

`insert_bst` goes down to an empty place and links the node there, red.  The loop of `__insert` then
stands at a red node whose parent may be red too, and each round moves this fault up, or removes it by
rotations.  In the half of the loop for a parent that is a right child, the test for an inner
grandchild compares with the wrong node and never succeeds.  The single rotation that is made instead
turns the nodes so that the next round finds an inner grandchild on the other side, and the result is
the same as with two rotations.

Main definitions: `Sorted`, `RepairLoop`.  Main results: `RepairLoop.spec`, `insert_spec`.
-/

import SgxElps.Rbtree.Memory
import Mathlib.Order.Basic
import Mathlib.Data.Nat.Basic

namespace Rbtree

open RedBlack RedBlack.CTree
open Option (bind_eq_bind bind_some)
open List hiding zip

variable {N K : Type} [LinearOrder K] {key : N → K} {m : Mem N}

/-- The keys increase from left to right. -/
def Sorted (key : N → K) (t : CTree N) : Prop := t.inorder.Pairwise fun x y => key x < key y

/-! ### Finding the place -/

/-- The place of the context is the place for the key of `n`. -/
def Fits (key : N → K) (n : N) (C : Ctx N) : Prop :=
  (∀ x ∈ before C, key x < key n) ∧ ∀ x ∈ after C, key n < key x

theorem descend_spec {n : N} {t : CTree N} : ∀ {fuel : ℕ} {C : Ctx N}, Holds m (zip C t) →
    Sorted key (zip C t) → Fits key n C → t.inorder.length < fuel →
    (m.descend key n fuel (some (addr t)) (top C) = some none ∧ ∃ x ∈ t.inorder, key x = key n) ∨
    ∃ C', m.descend key n fuel (some (addr t)) (top C) = some (some (top C')) ∧
      zip C' .nil = zip C t ∧ Fits key n C' := by
  induction t with
  | nil =>
    intro fuel C _ _ hfits hfuel
    obtain ⟨fuel, rfl⟩ : ∃ k, fuel = k + 1 := ⟨fuel - 1, by simp [inorder] at hfuel; omega⟩
    exact .inr ⟨C, rfl, rfl, hfits⟩
  | node c l k r ihl ihr =>
    intro fuel C h hs hfits hfuel
    obtain ⟨fuel, rfl⟩ : ∃ k, fuel = k + 1 := ⟨fuel - 1, by omega⟩
    have hlen : l.inorder.length < fuel ∧ r.inorder.length < fuel := by
      simp only [inorder, length_append, length_cons] at hfuel
      omega
    have hsub : (l.inorder ++ k :: r.inorder).Pairwise fun x y => key x < key y := by
      rw [Sorted, inorder_zip] at hs
      exact (pairwise_append.1 (pairwise_append.1 hs).1).2.1
    obtain ⟨-, hkr, hlk⟩ := pairwise_append.1 hsub
    simp only [addr, Mem.descend]
    rcases lt_trichotomy (key n) (key k) with hlt | heq | hgt
    · -- down to the left: the node and its right subtree have larger keys
      have hfits' : Fits key n (⟨.left, c, k, r⟩ :: C) := by
        refine ⟨hfits.1, forall_mem_append.2 ⟨forall_mem_cons.2 ⟨hlt, ?_⟩, hfits.2⟩⟩
        exact fun x hx => hlt.trans ((pairwise_cons.1 hkr).1 x hx)
      rw [if_pos hlt, Holds.child (d := .left) h, bind_some]
      rcases ihl (C := ⟨.left, c, k, r⟩ :: C) h hs hfits' hlen.1 with ⟨hd, x, hx, hkey⟩ | hd
      · exact .inl ⟨hd, x, by simp [inorder, hx], hkey⟩
      · exact .inr hd
    · rw [if_neg heq.not_lt, if_neg heq.not_gt]
      exact .inl ⟨rfl, k, by simp [inorder], heq.symm⟩
    · have hfits' : Fits key n (⟨.right, c, k, l⟩ :: C) := by
        refine ⟨forall_mem_append.2 ⟨hfits.1, forall_mem_append.2 ⟨?_, ?_⟩⟩, hfits.2⟩
        · exact fun x hx => (hlk x hx k mem_cons_self).trans hgt
        · simpa using hgt
      rw [if_neg hgt.not_gt, if_pos hgt, Holds.child (d := .right) h, bind_some]
      rcases ihr (C := ⟨.right, c, k, l⟩ :: C) h hs hfits' hlen.2 with ⟨hd, x, hx, hkey⟩ | hd
      · exact .inl ⟨hd, x, by simp [inorder, hx], hkey⟩
      · exact .inr hd

theorem descend_root {t : CTree N} (h : Holds m t) {n : N} {fuel : ℕ} :
    m.descend key n fuel m.root .sentinel = m.descend key n fuel (some (addr t)) .sentinel := by
  rw [← h.root]
  cases hr : m.root with
  | none => cases fuel <;> rfl
  | some a => rfl

/-! ### The nodes around a red node below a red parent -/

variable {c₁ c₂ : Color} {d d₁ d₂ : Side} {t s u : CTree N} {p g : N} {C : Ctx N} {cur : Addr N}

/-- The rounds the loop has left: each goes up two levels or turns an inner grandchild. -/
def rounds : Ctx N → ℕ
  | f :: ⟨.right, c, n, sib⟩ :: C => 2 * (f :: ⟨.right, c, n, sib⟩ :: C).length + 1
  | C => 2 * C.length

theorem rounds_le (C : Ctx N) : rounds C ≤ 2 * C.length + 1 := by
  unfold rounds
  split <;> omega

theorem le_rounds (C : Ctx N) : 2 * C.length ≤ rounds C := by
  unfold rounds
  split <;> omega

/-- What a round leaves: the fault is further up or turned, or there is none. -/
def RoundOk (old : Ctx N) (t : CTree N) (C : Ctx N) : Prop :=
  RedAt t C ∧ rounds C < rounds old ∨ t ≠ .nil ∧ topColor C = .black ∧ Valid (zip C t)

section Round

variable (h : Holds m (zip (⟨d₁, .red, p, s⟩ :: ⟨d₂, .black, g, u⟩ :: C) t))
include h

theorem Holds.parent_eq_grandparent : m.parent (.node p) = some (.node g) :=
  Holds.parent (C := ⟨d₂, .black, g, u⟩ :: C) h

theorem Holds.child_grandparent : m.child d₂ (.node g) = some (.node p) := by
  have := Holds.child (C := C) h
  rwa [addr_plug] at this

theorem Holds.uncle : m.child d₂.other (.node g) = some (addr u) ∧ m.color (addr u) = u.color :=
  ⟨Holds.child_other (C := C) h, Holds.color_other (C := C) h⟩

/-- The subtree and its uncle are different nodes. -/
theorem Holds.addr_ne_uncle (ht : t ≠ .nil) : addr t ≠ addr u ∧ .node p ≠ addr u := by
  obtain ⟨-, -, -, -, hdisj⟩ := nodup_bin.1 (nodup_zip (C := C).1 h.nodup).1
  have hp : p ∉ u.inorder := fun hmem => hdisj (mem_bin.2 (.inl rfl)) hmem
  refine ⟨fun heq => ?_, (addr_ne_node hp).symm⟩
  cases hu : addr t with
  | sentinel => exact ht (addr_eq_sentinel.1 hu)
  | node k => exact hdisj (mem_bin.2 (.inr (.inl (mem_of_addr hu)))) (mem_of_addr (heq ▸ hu))

/-- The inner child of the parent of an outer grandchild. -/
theorem Holds.inner_ne (ht : t ≠ .nil) : m.child d₁.other (.node p) = some (addr s) ∧ addr t ≠ addr s :=
  ⟨Holds.child_other (C := ⟨d₂, .black, g, u⟩ :: C) h, Holds.addr_ne (C := ⟨d₂, .black, g, u⟩ :: C) h ht⟩

end Round

/-! ### Linking the node -/

theorem Fits.sorted {n : N} (hfits : Fits key n C) (hs : Sorted key (zip C .nil)) :
    Sorted key (zip C (.node .red .nil n .nil)) := by
  simp only [Sorted, inorder_zip, inorder, nil_append, append_nil, append_assoc,
    singleton_append] at hs ⊢
  obtain ⟨hb, ha, hba⟩ := pairwise_append.1 hs
  refine pairwise_append.2 ⟨hb, pairwise_cons.2 ⟨hfits.2, ha⟩, fun x hx => ?_⟩
  exact forall_mem_cons.2 ⟨hfits.1 x hx, hba x hx⟩

/-- An empty place of a red-black tree takes a red node. -/
theorem redAt_leaf {n : N} (hv : Valid (zip C .nil)) : RedAt (.node .red .nil n .nil) C := by
  obtain ⟨k, hc, hnil, -⟩ := hv.split
  cases hnil with
  | nil => exact ⟨rfl, 0, .red .nil .nil rfl rfl, hc⟩

/-! ### Loops of rounds -/

/-- What a round at `t` leads to: a state of the repair of the same tree. -/
def Repaired (r : Option (Mem N × Addr N)) (old : Ctx N) (t : CTree N) : Prop :=
  ∃ m' t' C', r = some (m', addr t') ∧ Holds m' (zip C' t') ∧
    (zip C' t').inorder = (zip old t).inorder ∧ repair C' t' = repair old t ∧ RoundOk old t' C'

/-- A loop that makes a round as long as the parent is red. -/
structure RepairLoop (loop : ℕ → Mem N → Addr N → Option (Mem N))
    (round : Mem N → Addr N → Addr N → Option (Mem N × Addr N)) : Prop where
  loop_succ : ∀ fuel m cur, loop (fuel + 1) m cur = (m.parent cur).bind fun p =>
    if m.color p = .red then (round m cur p).bind fun r => loop fuel r.1 r.2 else some m
  repaired : ∀ {m d₁ d₂ p g s u C t}, Holds m (zip (⟨d₁, .red, p, s⟩ :: ⟨d₂, .black, g, u⟩ :: C) t) →
    RedAt t (⟨d₁, .red, p, s⟩ :: ⟨d₂, .black, g, u⟩ :: C) →
    Repaired (round m (addr t) (.node p)) (⟨d₁, .red, p, s⟩ :: ⟨d₂, .black, g, u⟩ :: C) t

namespace RepairLoop

variable {loop : ℕ → Mem N → Addr N → Option (Mem N)}
  {round : Mem N → Addr N → Addr N → Option (Mem N × Addr N)} (hloop : RepairLoop loop round)

include hloop

theorem done {fuel : ℕ} (h : Holds m (zip C t)) (ht : t ≠ .nil) (htop : topColor C = .black) :
    loop (fuel + 1) m (addr t) = some m := by
  simp [hloop.loop_succ, h.parent_addr ht, h.color_top, htop]

/-- **The loop ends with the repaired tree**, a red-black tree but for the colour of the root. -/
theorem spec : ∀ {fuel : ℕ} {m : Mem N} {t : CTree N} {C : Ctx N},
    Holds m (zip C t) → RedAt t C → rounds C < fuel →
    ∃ m', loop fuel m (addr t) = some m' ∧ Holds m' (repair C t) ∧
      (repair C t).inorder = (zip C t).inorder ∧ Valid ((repair C t).setColor .black) := by
  intro fuel
  induction fuel with
  | zero => intro m t C _ _ hfuel; omega
  | succ fuel ih =>
    intro m t C h hred hfuel
    have ht := hred.ne_nil
    cases htop : topColor C with
    | black =>
      rw [repair_of_black htop]
      exact ⟨m, hloop.done h ht htop, h, rfl, hred.valid htop⟩
    | red =>
      -- the parent is red, so there is a black grandparent
      obtain ⟨⟨d₁, c₁, p, s⟩, C, rfl⟩ : ∃ f C', C = f :: C' := by
        cases C with
        | nil => cases htop
        | cons f C => exact ⟨f, C, rfl⟩
      obtain rfl : c₁ = .red := htop
      obtain ⟨⟨d₂, c₂, g, u⟩, C, rfl, rfl, -⟩ := hred.exists_grandparent rfl
      obtain ⟨m₁, t₁, C₁, hround, h1, hin, hrepair, hok⟩ := hloop.repaired h hred
      have hstep : loop (fuel + 1) m (addr t) = loop fuel m₁ (addr t₁) := by
        have hpar : m.parent (addr t) = some (.node p) := h.parent_addr ht
        have hcol : m.color (.node p) = .red := h.color_top
        simp [hloop.loop_succ, hpar, hcol, hround]
      rw [hstep, ← hin, ← hrepair]
      rcases hok with ⟨hred1, hlt⟩ | ⟨ht1, htop1, hv⟩
      · exact ih h1 hred1 (by omega)
      · obtain ⟨fuel, rfl⟩ : ∃ k, fuel = k + 1 := by
          refine ⟨fuel - 1, ?_⟩
          have hge := le_rounds (⟨d₁, .red, p, s⟩ :: ⟨d₂, .black, g, u⟩ :: C)
          simp only [length_cons] at hge
          omega
        rw [repair_of_black htop1]
        refine ⟨m₁, hloop.done h1 ht1 htop1, h1, rfl, ?_⟩
        rw [← hv.1, setColor_color]
        exact hv

end RepairLoop

/-! ### The new node in memory -/

variable [DecidableEq N]

theorem link_eq {n : N} (hfits : Fits key n C) :
    m.link key n (top C) =
      (((relink (m.setParent (.node n) (top C)) C (.node n)).setChild .left (.node n)
        .sentinel).setChild .right (.node n) .sentinel).setColor (.node n) .red := by
  cases C with
  | nil => rfl
  | cons f C =>
    rcases f with ⟨_ | _, c, k, sib⟩
    · have hlt : key n < key k := hfits.2 k mem_cons_self
      simp only [Mem.link, top, hlt, ↓reduceIte, relink]
    · have hlt : key k < key n := hfits.1 k (by simp [before])
      simp only [Mem.link, top, hlt.not_gt, ↓reduceIte, relink]

theorem Holds.link {n : N} (h : Holds m (zip C .nil)) (hn : n ∉ outside C)
    (hfits : Fits key n C) :
    Holds (m.link key n (top C)) (zip C (.node .red .nil n .nil)) := by
  obtain ⟨-, hout, -⟩ := nodup_zip.1 h.nodup
  obtain ⟨-, hc⟩ := h.parts
  obtain ⟨m', hm'⟩ : ∃ m', m' = (((relink (m.setParent (.node n) (top C)) C
      (.node n)).setChild .left (.node n) .sentinel).setChild .right (.node n) .sentinel).setColor
      (.node n) .red := ⟨_, rfl⟩
  rw [link_eq hfits, ← hm']
  have hnode : m'.cell (.node n) = cellOf .left .red .sentinel .sentinel (top C) := by
    simp only [hm', cell_setColor, cell_setChild, cell_relink (top_ne_node hn).symm, cell_setParent,
      ↓reduceIte, cellOf]
    congr 1
    funext e
    cases e <;> simp
  have hctx : StoredCtx m' C (.node n) := by
    refine hc.relink hout (fun k hk => ?_) (by rw [hm']; exact root_relink rfl)
    have hkn : k ≠ n := fun heq => hn (heq ▸ hk)
    have hcell := relink_congr (C := C) (x := .node n)
      (show (m.setParent (.node n) (top C)).cell (.node k) = m.cell (.node k) by simp [hkn])
    simpa [hm', hkn] using hcell
  have hsent : m'.cell .sentinel = m.cell .sentinel := by simp [hm', cell_relink_sentinel]
  have htree : Stored m' (.node .red .nil n .nil) (top C) := ⟨hnode, trivial, trivial⟩
  obtain ⟨hstored, hroot⟩ := stored_zip.2 ⟨htree, hctx⟩
  refine ⟨hstored, hroot, nodup_zip.2 ⟨nodup_singleton n, hout, ?_⟩, ?_, fun d => ?_⟩
  · simpa [inorder] using hn
  · rw [Mem.color, hsent]
    exact h.sentinel_color
  · rw [Mem.child, hsent]
    exact h.sentinel_child d

/-! ### A round of the loop -/

/-- A round of the textbook loop below the red parent `p` of `cur`, on the side of `p`. -/
def Mem.textbookRound (m : Mem N) (cur p : Addr N) : Option (Mem N × Addr N) := do
  let g ← m.parent p
  let gl ← m.child .left g
  let d : Side := if p = gl then .left else .right
  let uncle ← m.child d.other g
  if m.color uncle = .red then
    some (((m.setColor g .red).setColor p .black).setColor uncle .black, g)
  else
    let inner ← m.child d.other p
    if cur = inner then
      let m ← m.rotation d p
      let m ← m.rotateGrandparent d.other p
      some (m, p)
    else
      let m ← m.rotateGrandparent d.other cur
      some (m, cur)

/-- The end of a round: the parent of `cur` becomes black, the grandparent red and is rotated away. -/
theorem Holds.rotateGrandparent {a b : CTree N} (hp : m.parent cur = some (.node p))
    (h : Holds m (zip C (bin d c₂ (bin d c₁ a p b) g u))) :
    ∃ m', m.rotateGrandparent d.other cur = some m' ∧
      Holds m' (zip C (bin d .black a p (bin d .red b g u))) := by
  have h1 := Holds.setColor (C := ⟨d, c₂, g, u⟩ :: C) h .black
  have hg : (m.setColor (.node p) .black).parent (.node p) = some (.node g) := Holds.parent h1
  have h2 := Holds.setColor (C := C) h1 .red
  -- the same tree, written from the other side
  rw [← bin_other, ← bin_other d .black] at h2
  obtain ⟨m', hrot, h3, -⟩ := h2.rotation
  rw [bin_other, bin_other] at h3
  refine ⟨m', ?_, h3⟩
  simp only [Mem.rotateGrandparent, hp, bind_eq_bind, bind_some, hg, hrot]

section Round

variable (h : Holds m (zip (⟨d₁, .red, p, s⟩ :: ⟨d₂, .black, g, u⟩ :: C) t))
include h

/-- The three changes of colour when the uncle is red. -/
theorem Holds.recolor (hu : u ≠ .nil) :
    Holds (((m.setColor (.node g) .red).setColor (.node p) .black).setColor (addr u) .black)
      (zip C (bin d₂ .red (bin d₁ .black t p s) g (u.setColor .black))) := by
  have h1 := Holds.setColor (C := C) h .red
  have h2 := Holds.setColor (C := ⟨d₂, .red, g, u⟩ :: C) h1 .black
  have h3 : Holds ((m.setColor (.node g) .red).setColor (.node p) .black)
      (zip (⟨d₂.other, .red, g, bin d₁ .black t p s⟩ :: C) u) := by
    rwa [zip_cons, Frame.plug, bin_other]
  have h4 := h3.setColor_addr hu .black
  rwa [zip_cons, Frame.plug, bin_other] at h4

/-- The test finds the side of the parent. -/
theorem Holds.exists_left_grandparent (ht : t ≠ .nil) : ∃ gl, m.child .left (.node g) = some gl ∧
    (if .node p = gl then Side.left else Side.right) = d₂ := by
  cases d₂ with
  | left => exact ⟨.node p, h.child_grandparent, if_pos rfl⟩
  | right => exact ⟨addr u, h.uncle.1, if_neg (h.addr_ne_uncle ht).2⟩

theorem Holds.textbookRound_recolor (ht : t ≠ .nil) (hu : u.color = .red) :
    m.textbookRound (addr t) (.node p) = some
      (((m.setColor (.node g) .red).setColor (.node p) .black).setColor (addr u) .black, .node g) := by
  obtain ⟨gl, hgl, hside⟩ := h.exists_left_grandparent ht
  obtain ⟨huncle, hcol⟩ := h.uncle
  simp only [Mem.textbookRound, h.parent_eq_grandparent, hgl, hside, huncle, hcol, hu,
    bind_eq_bind, bind_some, ↓reduceIte]

theorem Holds.textbookRound_black (ht : t ≠ .nil) (hu : u.color = .black) :
    m.textbookRound (addr t) (.node p) = (m.child d₂.other (.node p)).bind fun inner =>
      if addr t = inner then
        (m.rotation d₂ (.node p)).bind fun m =>
          (m.rotateGrandparent d₂.other (.node p)).bind fun m => some (m, .node p)
      else (m.rotateGrandparent d₂.other (addr t)).bind fun m => some (m, addr t) := by
  obtain ⟨gl, hgl, hside⟩ := h.exists_left_grandparent ht
  obtain ⟨huncle, hcol⟩ := h.uncle
  simp only [Mem.textbookRound, h.parent_eq_grandparent, hgl, hside, huncle, hcol, hu,
    bind_eq_bind, bind_some, reduceCtorEq, ↓reduceIte]

theorem Holds.insertRound_recolor (ht : t ≠ .nil) (hu : u.color = .red) :
    m.insertRound (addr t) (.node p) = some
      (((m.setColor (.node g) .red).setColor (.node p) .black).setColor (addr u) .black, .node g) := by
  have hg := h.parent_eq_grandparent
  have hp := h.child_grandparent
  obtain ⟨huncle, hcol⟩ := h.uncle
  rw [hu] at hcol
  have hne := (h.addr_ne_uncle ht).2
  cases d₂ with
  | left =>
    simp only [Side.other] at huncle
    simp [Mem.insertRound, hg, hp, huncle, hcol]
  | right =>
    simp only [Side.other] at huncle
    simp [Mem.insertRound, hg, hp, huncle, hcol, hne, libosAssert]

theorem Holds.insertRound_left (hd : d₂ = .left) (hu : u.color = .black) :
    m.insertRound (addr t) (.node p) = (m.child .right (.node p)).bind fun pr =>
      if addr t = pr then
        (m.rotationLeft (.node p)).bind fun m =>
          (m.rotateGrandparent .right (.node p)).bind fun m => some (m, .node p)
      else (m.rotateGrandparent .right (addr t)).bind fun m => some (m, addr t) := by
  subst hd
  obtain ⟨huncle, hcol⟩ := h.uncle
  simp only [Side.other] at huncle
  simp [Mem.insertRound, h.parent_eq_grandparent, h.child_grandparent, huncle, hcol, hu]

/-- The round when the uncle is black and the parent is a right child: the test compares with the
uncle. -/
theorem Holds.insertRound_right (hd : d₂ = .right) (ht : t ≠ .nil) (hu : u.color = .black) :
    m.insertRound (addr t) (.node p) =
      (m.rotateGrandparent .left (addr t)).bind fun m => some (m, addr t) := by
  subst hd
  obtain ⟨huncle, hcol⟩ := h.uncle
  obtain ⟨hne, hne'⟩ := h.addr_ne_uncle ht
  simp only [Side.other] at huncle
  simp [Mem.insertRound, h.parent_eq_grandparent, h.child_grandparent, huncle, hcol, hu, hne, hne',
    libosAssert]

end Round

/-- **A round of the textbook loop** is a step of the repair. -/
theorem textbookRound_spec (h : Holds m (zip (⟨d₁, .red, p, s⟩ :: ⟨d₂, .black, g, u⟩ :: C) t))
    (hred : RedAt t (⟨d₁, .red, p, s⟩ :: ⟨d₂, .black, g, u⟩ :: C)) :
    Repaired (m.textbookRound (addr t) (.node p)) (⟨d₁, .red, p, s⟩ :: ⟨d₂, .black, g, u⟩ :: C) t := by
  have ht := hred.ne_nil
  have hpar : m.parent (addr t) = some (.node p) := h.parent_addr ht
  cases hu : u.color with
  | red =>
    have hu' : u ≠ .nil := by
      rintro rfl
      cases hu
    refine ⟨_, _, C, ?_, h.recolor hu', inorder_zip_congr C ?_, (repair_recolor hu).symm,
      .inl ⟨hred.recolor hu, ?_⟩⟩
    · rw [h.textbookRound_recolor ht hu, addr_bin]
    · cases d₁ <;> cases d₂ <;> simp [Frame.plug, bin, inorder]
    · have hle := rounds_le C
      have hge := le_rounds (⟨d₁, .red, p, s⟩ :: ⟨d₂, .black, g, u⟩ :: C)
      simp only [length_cons] at hge
      omega
  | black =>
    rw [h.textbookRound_black ht hu]
    by_cases hd : d₁ = d₂
    · -- an outer grandchild: one rotation
      subst hd
      obtain ⟨m', hrot, h'⟩ := Holds.rotateGrandparent (d := d₁) hpar h
      obtain ⟨hinner, hne⟩ := h.inner_ne ht
      refine ⟨m', t, ⟨d₁, .black, p, bin d₁ .red s g u⟩ :: C, ?_, h', inorder_zip_congr C ?_, ?_,
        .inr ⟨ht, rfl, hred.outer hu⟩⟩
      · rw [hinner, bind_some, if_neg hne, hrot, bind_some]
      · cases d₁ <;> simp [Frame.plug, bin, inorder]
      · rw [repair_of_black rfl, repair_outer hu]
        rfl
    · -- an inner grandchild, written from the side of the parent: two rotations
      obtain rfl : d₁ = d₂.other := by
        revert hd
        cases d₁ <;> cases d₂ <;> simp [Side.other]
      obtain ⟨a, n, b, rfl⟩ : ∃ a n b, t = bin d₂ .red a n b := by
        cases t with
        | nil => exact absurd rfl ht
        | node c l n r =>
          obtain rfl : c = .red := hred.1
          obtain ⟨a, b, heq⟩ := exists_bin d₂ .red l n r
          exact ⟨a, n, b, heq⟩
      have hinner : m.child d₂.other (.node p) = some (addr (bin d₂ .red a n b)) :=
        Holds.child (C := ⟨d₂, .black, g, u⟩ :: C) h
      have hp : Holds m (zip (⟨d₂, .black, g, u⟩ :: C) (bin d₂ .red s p (bin d₂ .red a n b))) := by
        have h0 := h
        rwa [zip_cons, Frame.plug, bin_other] at h0
      obtain ⟨m₁, hrot1, h1, -⟩ := hp.rotation
      have hpar1 : m₁.parent (.node p) = some (.node n) :=
        Holds.parent (C := ⟨d₂, .red, n, b⟩ :: ⟨d₂, .black, g, u⟩ :: C) h1
      obtain ⟨m₂, hrot2, h2⟩ := Holds.rotateGrandparent (d := d₂) (C := C) hpar1 h1
      refine ⟨m₂, bin d₂ .red s p a, ⟨d₂, .black, n, bin d₂ .red b g u⟩ :: C, ?_, h2,
        inorder_zip_congr C ?_, ?_, .inr ⟨bin_ne_nil _ _ _ _ _, rfl, hred.inner hu⟩⟩
      · rw [hinner, bind_some, if_pos rfl, hrot1, bind_some, hrot2, bind_some,
          addr_bin]
      · cases d₂ <;> simp [Frame.plug, bin, inorder, Side.other]
      · rw [repair_of_black rfl, repair_inner hu, twoRotations_bin]
        rfl

/-- **A round of the loop** is one of the textbook loop, but for an inner grandchild below a right child,
which the test does not recognise. -/
theorem insertRound_spec (h : Holds m (zip (⟨d₁, .red, p, s⟩ :: ⟨d₂, .black, g, u⟩ :: C) t))
    (hred : RedAt t (⟨d₁, .red, p, s⟩ :: ⟨d₂, .black, g, u⟩ :: C)) :
    Repaired (m.insertRound (addr t) (.node p)) (⟨d₁, .red, p, s⟩ :: ⟨d₂, .black, g, u⟩ :: C) t := by
  have ht := hred.ne_nil
  have htextbook := textbookRound_spec h hred
  cases hu : u.color with
  | red =>
    rw [h.textbookRound_recolor ht hu] at htextbook
    rwa [h.insertRound_recolor ht hu]
  | black =>
    rw [h.textbookRound_black ht hu] at htextbook
    cases d₂ with
    | left =>
      rw [h.insertRound_left rfl hu]
      exact htextbook
    | right =>
      rw [h.insertRound_right rfl ht hu]
      cases d₁ with
      | right =>
        obtain ⟨hinner, hne⟩ := h.inner_ne ht
        rwa [hinner, bind_some, if_neg hne] at htextbook
      | left =>
        obtain ⟨m', hrot, h'⟩ := Holds.rotateGrandparent (d := .right) (h.parent_addr ht) h
        obtain ⟨hred', hs⟩ := hred.turn (d := .right) hu
        refine ⟨m', t, ⟨.right, .red, g, u⟩ :: ⟨.left, .black, p, s⟩ :: C, ?_, h',
          inorder_zip_congr C ?_, repair_turn (d := .right) hu hs, .inl ⟨hred', ?_⟩⟩
        · rw [show Side.left = Side.right.other from rfl, hrot, bind_some]
        · simp [Frame.plug, bin, inorder]
        · simp [rounds]

/-- Once the node is linked, the loop repairs the tree. -/
theorem RepairLoop.of_link {loop : ℕ → Mem N → Addr N → Option (Mem N)}
    {round : Mem N → Addr N → Addr N → Option (Mem N × Addr N)} (hloop : RepairLoop loop round)
    {fuel : ℕ} {n : N} (hv : Valid (zip C .nil))
    (hlink : Holds m (zip C (.node .red .nil n .nil)))
    (hfuel : 2 * (zip C .nil).inorder.length + 2 ≤ fuel) :
    ∃ m' root, loop fuel m (.node n) = some m' ∧ m'.root = some root ∧
      Holds (m'.setColor root .black) ((repair C (.node .red .nil n .nil)).setColor .black) ∧
      (repair C (.node .red .nil n .nil)).inorder = (zip C (.node .red .nil n .nil)).inorder ∧
      Valid ((repair C (.node .red .nil n .nil)).setColor .black) := by
  have hrounds : rounds C < fuel := by
    have hle := rounds_le C
    have hlen := length_add_length_le C .nil
    simp only [inorder, length_nil] at hlen
    omega
  obtain ⟨m₂, hrun, h2, hin, hv2⟩ := hloop.spec hlink (redAt_leaf hv) hrounds
  have ht2 : repair C (.node .red .nil n .nil) ≠ .nil := by
    intro heq
    simp [heq, inorder_zip, inorder] at hin
  exact ⟨m₂, _, hrun, h2.root_eq ht2, Holds.setColor_addr (C := []) h2 ht2 .black, hin, hv2⟩

theorem repairLoop_insertLoop : RepairLoop (N := N) Mem.insertLoop fun m => m.insertRound where
  loop_succ _ _ _ := rfl
  repaired := insertRound_spec

/-! ### The insertion -/

/-- What `__insert` does to the node first. -/
theorem Holds.reset {n : N} (h : Holds m t) (hn : n ∉ t.inorder) :
    Holds (((m.setParent (.node n) .sentinel).setChild .left (.node n) .sentinel).setChild .right
      (.node n) .sentinel) t := by
  refine h.frame (fun k hk => ?_) (by simp) rfl
  have hkn : k ≠ n := fun heq => hn (heq ▸ hk)
  simp [hkn]

/-- **`insert_bst`** finds the key, or links the node at the place for it. -/
theorem insertBst_spec {fuel : ℕ} {n : N} (h : Holds m t) (hs : Sorted key t) (hn : n ∉ t.inorder)
    (hfuel : t.inorder.length < fuel) :
    (m.insertBst key fuel n = some (m, false) ∧ ∃ x ∈ t.inorder, key x = key n) ∨
    ∃ m' C, m.insertBst key fuel n = some (m', true) ∧ zip C .nil = t ∧ Fits key n C ∧
      Holds m' (zip C (.node .red .nil n .nil)) := by
  have hroot : m.descend key n fuel m.root .sentinel
      = m.descend key n fuel (some (addr t)) .sentinel := descend_root h
  have hempty : Fits key n [] := ⟨nofun, nofun⟩
  rw [Mem.insertBst, hroot]
  rcases descend_spec (C := []) h hs hempty hfuel with ⟨hd, hkey⟩ | ⟨C, hd, hzip, hfits⟩
  · rw [show m.descend key n fuel (some (addr t)) .sentinel = _ from hd]
    exact .inl ⟨rfl, hkey⟩
  · rw [show m.descend key n fuel (some (addr t)) .sentinel = _ from hd]
    obtain rfl : zip C .nil = t := hzip
    refine .inr ⟨_, C, rfl, rfl, hfits, h.link ?_ hfits⟩
    simpa [mem_zip, inorder] using hn

/-- **`__insert`** leaves the tree as it is if the key is there, and adds the node otherwise. -/
theorem insert_spec {fuel : ℕ} {n : N} (h : Holds m t) (hs : Sorted key t) (hv : Valid t)
    (hn : n ∉ t.inorder) (hfuel : 2 * t.inorder.length + 2 ≤ fuel) :
    (∃ m', m.insert key fuel n = some (m', false) ∧ Holds m' t ∧ ∃ x ∈ t.inorder, key x = key n) ∨
    ∃ m' t', m.insert key fuel n = some (m', true) ∧ Holds m' t' ∧ Sorted key t' ∧ Valid t' ∧
      ∀ x, x ∈ t'.inorder ↔ x = n ∨ x ∈ t.inorder := by
  have h1 := h.reset hn
  rcases insertBst_spec h1 hs hn (show _ < fuel by omega) with
    ⟨hbst, hkey⟩ | ⟨m₁, C, hbst, rfl, hfits, hlink⟩
  · refine .inl ⟨_, ?_, h1, hkey⟩
    simp only [Mem.insert, hbst]
  · obtain ⟨m', root, hrun, hroot, h', hin, hv'⟩ := repairLoop_insertLoop.of_link hv hlink hfuel
    refine .inr ⟨_, _, ?_, h', ?_, hv', fun x => ?_⟩
    · simp only [Mem.insert, hbst, hrun, bind_eq_bind, bind_some, hroot]
    · rw [Sorted, inorder_setColor, hin]
      exact hfits.sorted hs
    · rw [inorder_setColor, hin]
      simp [inorder_zip, inorder, or_left_comm]

/-- A tree of two nodes: a black root with a red right child. -/
def twoNodes : Mem ℕ where
  cell
    | .node 1 => cellOf .left .black .sentinel (.node 3) .sentinel
    | .node 3 => cellOf .left .red .sentinel .sentinel (.node 1)
    | _ => ⟨.black, fun _ => none, none⟩
  root := some (.node 1)

theorem holds_twoNodes : Holds twoNodes (.node .black .nil 1 (.node .red .nil 3 .nil)) :=
  ⟨⟨rfl, trivial, rfl, trivial, trivial⟩, rfl, by decide, rfl, fun _ => rfl⟩

end Rbtree

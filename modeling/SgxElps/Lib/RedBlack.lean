/-
**Red-black trees, seen from a node inside them.**

An imperative red-black tree is repaired from the inside: a loop stands at a node, looks at its
parent, its sibling or its uncle, recolours, rotates and moves up.  A tree with a distinguished
subtree is a pair of the subtree and its *context*, the list of the frames from the subtree up to the
root.  This module has the invariants for such pairs and the rules for the repairs after an insertion
and after a removal.

Each repair comes in two mirror images.  A node is therefore also written `bin d c a n b`, with the
child `a` on side `d` and the child `b` on the other, and a rule is stated once for both sides.

Main results:

* `RedBlack.valid_zip`, `RedBlack.Valid.split` — a valid tree, and its parts;
* `RedBlack.RedAt.recolor`, `RedBlack.RedAt.outer`, `RedBlack.RedAt.inner` — the repairs after an
  insertion;
* `RedBlack.Deficit.redSibling`, `RedBlack.Deficit.up`, `RedBlack.Deficit.far`,
  `RedBlack.Deficit.near` — the repairs after a removal.
-/

import Mathlib.Algebra.Group.Nat.Defs
import Mathlib.Data.List.Nodup
import Mathlib.Data.Nat.Log

namespace RedBlack

open List

inductive Color where
  | red
  | black
deriving DecidableEq

inductive Side where
  | left
  | right
deriving DecidableEq

def Side.other : Side → Side
  | .left => .right
  | .right => .left

@[simp] theorem Side.other_other (d : Side) : d.other.other = d := by cases d <;> rfl

theorem Side.other_ne (d : Side) : d.other ≠ d := by cases d <;> simp [other]

/-! ### Trees -/

inductive CTree (α : Type) where
  | nil
  | node (color : Color) (left : CTree α) (value : α) (right : CTree α)

variable {α : Type}

namespace CTree

theorem node_ne_nil {c : Color} {l r : CTree α} {n : α} : node c l n r ≠ nil := by
  intro h
  cases h

def color : CTree α → Color
  | nil => .black
  | node c _ _ _ => c

def setColor (c : Color) : CTree α → CTree α
  | nil => nil
  | node _ l n r => node c l n r

def inorder : CTree α → List α
  | nil => []
  | node _ l n r => l.inorder ++ n :: r.inorder

/-- The node with the child `a` on side `d` and the child `b` on the other side. -/
def bin : Side → Color → CTree α → α → CTree α → CTree α
  | .left, c, a, n, b => node c a n b
  | .right, c, a, n, b => node c b n a

@[simp] theorem color_bin (d : Side) (c : Color) (a : CTree α) (n : α) (b : CTree α) :
    (bin d c a n b).color = c := by cases d <;> rfl

@[simp] theorem setColor_bin (d : Side) (c c' : Color) (a : CTree α) (n : α) (b : CTree α) :
    (bin d c a n b).setColor c' = bin d c' a n b := by cases d <;> rfl

theorem bin_ne_nil (d : Side) (c : Color) (a : CTree α) (n : α) (b : CTree α) :
    bin d c a n b ≠ nil := by cases d <;> exact nofun

/-- The two ways to write a node. -/
theorem bin_other (d : Side) (c : Color) (a : CTree α) (n : α) (b : CTree α) :
    bin d.other c a n b = bin d c b n a := by cases d <;> rfl

/-- A node can be written from either side. -/
theorem exists_bin (d : Side) (c : Color) (l : CTree α) (n : α) (r : CTree α) :
    ∃ a b, node c l n r = bin d c a n b := by
  cases d with
  | left => exact ⟨l, r, rfl⟩
  | right => exact ⟨r, l, rfl⟩

@[simp] theorem inorder_setColor (c : Color) (t : CTree α) : (t.setColor c).inorder = t.inorder := by
  cases t <;> rfl

theorem setColor_color (t : CTree α) : t.setColor t.color = t := by
  cases t <;> rfl

theorem inorder_bin_color (d : Side) (c c' : Color) (a : CTree α) (n : α) (b : CTree α) :
    (bin d c a n b).inorder = (bin d c' a n b).inorder := by cases d <;> rfl

theorem inorder_bin_congr (d : Side) (c : Color) (n : α) {a a' b b' : CTree α}
    (ha : a.inorder = a'.inorder) (hb : b.inorder = b'.inorder) :
    (bin d c a n b).inorder = (bin d c a' n b').inorder := by
  cases d <;> simp [bin, inorder, ha, hb]

theorem mem_bin {d : Side} {c : Color} {a b : CTree α} {n x : α} :
    x ∈ (bin d c a n b).inorder ↔ x = n ∨ x ∈ a.inorder ∨ x ∈ b.inorder := by
  cases d with
  | left => simp [bin, inorder, or_left_comm]
  | right => simp only [bin, inorder, mem_append, mem_cons]; tauto

theorem nodup_bin {d : Side} {c : Color} {a b : CTree α} {n : α} :
    (bin d c a n b).inorder.Nodup ↔ a.inorder.Nodup ∧ b.inorder.Nodup ∧ n ∉ a.inorder ∧
      n ∉ b.inorder ∧ a.inorder.Disjoint b.inorder := by
  have hperm : (bin d c a n b).inorder.Perm (n :: (a.inorder ++ b.inorder)) := by
    cases d with
    | left => exact perm_middle
    | right => exact perm_middle.trans (perm_append_comm.cons n)
  rw [hperm.nodup_iff, nodup_cons, mem_append, nodup_append']
  tauto

/-- A rotation does not change the order of the values. -/
theorem inorder_rotate (d : Side) (c₁ c₂ c₃ c₄ : Color) (a : CTree α) (p : α) (b : CTree α) (q : α)
    (e : CTree α) :
    (bin d c₁ (bin d c₂ a p b) q e).inorder = (bin d c₃ a p (bin d c₄ b q e)).inorder := by
  cases d <;> simp [bin, inorder]

end CTree

open CTree

/-! ### Contexts -/

/-- A node without the child on side `side`. -/
structure Frame (α : Type) where
  side : Side
  color : Color
  value : α
  sib : CTree α

/-- The frames from a subtree up to the root. -/
abbrev Ctx (α : Type) := List (Frame α)

def Frame.plug (f : Frame α) (t : CTree α) : CTree α := bin f.side f.color t f.value f.sib

@[simp] theorem Frame.color_plug (f : Frame α) (t : CTree α) : (f.plug t).color = f.color :=
  color_bin ..

/-- The tree around a subtree. -/
def zip : Ctx α → CTree α → CTree α
  | [], t => t
  | f :: C, t => zip C (f.plug t)

@[simp] theorem zip_nil (t : CTree α) : zip [] t = t := rfl

theorem zip_cons (f : Frame α) (C : Ctx α) (t : CTree α) : zip (f :: C) t = zip C (f.plug t) :=
  rfl

theorem zip_append (C C' : Ctx α) (t : CTree α) : zip (C ++ C') t = zip C' (zip C t) := by
  induction C generalizing t with
  | nil => rfl
  | cons f C ih => exact ih (f.plug t)

theorem zip_ne_nil {C : Ctx α} {t : CTree α} (ht : t ≠ .nil) : zip C t ≠ .nil := by
  induction C generalizing t with
  | nil => exact ht
  | cons f C ih => exact ih (bin_ne_nil _ _ _ _ _)

/-- The subtree at a node. -/
theorem exists_zip_of_mem {n : α} {t : CTree α} (hn : n ∈ t.inorder) :
    ∃ C c l r, t = zip C (.node c l n r) := by
  induction t with
  | nil => cases hn
  | node c l k r ihl ihr =>
    simp only [inorder, mem_append, mem_cons] at hn
    rcases hn with hl | rfl | hr
    · obtain ⟨C, c', l', r', rfl⟩ := ihl hl
      exact ⟨C ++ [⟨.left, c, k, r⟩], c', l', r', by rw [zip_append]; rfl⟩
    · exact ⟨[], c, l, r, rfl⟩
    · obtain ⟨C, c', l', r', rfl⟩ := ihr hr
      exact ⟨C ++ [⟨.right, c, k, l⟩], c', l', r', by rw [zip_append]; rfl⟩

/-- The values to the left of the subtree. -/
def before : Ctx α → List α
  | [] => []
  | ⟨.left, _, _, _⟩ :: C => before C
  | ⟨.right, _, n, sib⟩ :: C => before C ++ (sib.inorder ++ [n])

/-- The values to the right of the subtree. -/
def after : Ctx α → List α
  | [] => []
  | ⟨.left, _, n, sib⟩ :: C => n :: sib.inorder ++ after C
  | ⟨.right, _, _, _⟩ :: C => after C

theorem inorder_zip (C : Ctx α) (t : CTree α) :
    (zip C t).inorder = before C ++ t.inorder ++ after C := by
  induction C generalizing t with
  | nil => simp [before, after]
  | cons f C ih =>
    rcases f with ⟨_ | _, c, n, sib⟩
    · simp [zip, ih, Frame.plug, bin, inorder, before, after]
    · simp [zip, ih, Frame.plug, bin, inorder, before, after]

theorem before_append (C C' : Ctx α) : before (C ++ C') = before C' ++ before C := by
  induction C with
  | nil => simp [before]
  | cons f C ih => rcases f with ⟨_ | _, c, n, sib⟩ <;> simp [before, ih]

/-- Subtrees with the same values in the same order. -/
theorem inorder_zip_congr (C : Ctx α) {t t' : CTree α} (h : t.inorder = t'.inorder) :
    (zip C t).inorder = (zip C t').inorder := by
  rw [inorder_zip, inorder_zip, h]

/-- The values of the context: those in the tree that are not in the subtree. -/
def outside (C : Ctx α) : List α := before C ++ after C

theorem outside_cons (f : Frame α) (C : Ctx α) :
    (outside (f :: C)).Perm (f.value :: (f.sib.inorder ++ outside C)) := by
  rcases f with ⟨_ | _, c, n, sib⟩
  · refine perm_middle.trans (List.Perm.cons n ?_)
    exact perm_append_comm_assoc ..
  · have hmid : (sib.inorder ++ [n] ++ outside C).Perm (n :: (sib.inorder ++ outside C)) := by
      rw [append_assoc]
      exact perm_middle
    refine List.Perm.trans ?_ hmid
    simp only [outside, before, after, append_assoc]
    exact perm_append_comm_assoc (before C) sib.inorder _ |>.trans
      ((perm_append_comm_assoc (before C) [n] _).append_left _)

theorem mem_zip {C : Ctx α} {t : CTree α} {x : α} :
    x ∈ (zip C t).inorder ↔ x ∈ t.inorder ∨ x ∈ outside C := by
  rw [inorder_zip, outside]
  simp only [mem_append]
  tauto

theorem nodup_zip {C : Ctx α} {t : CTree α} : (zip C t).inorder.Nodup ↔
    t.inorder.Nodup ∧ (outside C).Nodup ∧ t.inorder.Disjoint (outside C) := by
  have hperm : (zip C t).inorder.Perm (t.inorder ++ outside C) := by
    rw [inorder_zip, outside, append_assoc]
    exact perm_append_comm_assoc ..
  rw [hperm.nodup_iff, nodup_append']

/-- A frame adds a node to the tree. -/
theorem length_add_length_le (C : Ctx α) (t : CTree α) :
    C.length + t.inorder.length ≤ (zip C t).inorder.length := by
  induction C generalizing t with
  | nil => simp
  | cons f C ih =>
    have hplug : t.inorder.length + 1 ≤ (f.plug t).inorder.length := by
      rcases f with ⟨_ | _, c, n, sib⟩ <;> simp [Frame.plug, bin, inorder]
    have := ih (f.plug t)
    rw [zip_cons, length_cons]
    omega

/-- The colour of the parent; the root has a black one. -/
def topColor : Ctx α → Color
  | [] => .black
  | f :: _ => f.color

/-! ### The invariants -/

/-- No red node has a red child, and there are `h` black nodes on every path down from the root. -/
inductive CTree.RB : CTree α → ℕ → Prop
  | nil : RB nil 0
  | red {l r : CTree α} {n : α} {h : ℕ} (hl : RB l h) (hr : RB r h) (cl : l.color = .black)
      (cr : r.color = .black) : RB (node .red l n r) h
  | black {l r : CTree α} {n : α} {h : ℕ} (hl : RB l h) (hr : RB r h) :
      RB (node .black l n r) (h + 1)

/-- A black subtree with `h` black nodes on its paths may stand in the context. -/
inductive CtxRB : Ctx α → ℕ → Prop
  | nil {h : ℕ} : CtxRB [] h
  | red {d : Side} {n : α} {sib : CTree α} {g : Frame α} {C : Ctx α} {h : ℕ} (hs : sib.RB h)
      (cs : sib.color = .black) (cg : g.color = .black) (hc : CtxRB (g :: C) h) :
      CtxRB (⟨d, .red, n, sib⟩ :: g :: C) h
  | black {d : Side} {n : α} {sib : CTree α} {C : Ctx α} {h : ℕ} (hs : sib.RB h)
      (hc : CtxRB C (h + 1)) : CtxRB (⟨d, .black, n, sib⟩ :: C) h

/-- A red-black tree. -/
def Valid (t : CTree α) : Prop := t.color = .black ∧ ∃ h, t.RB h

variable {d : Side} {c : Color} {a b t w x : CTree α} {n p g : α} {h : ℕ} {C : Ctx α}

theorem CTree.RB.bin_red (ha : a.RB h) (hb : b.RB h) (ca : a.color = .black)
    (cb : b.color = .black) : (bin d .red a n b).RB h := by
  cases d with
  | left => exact .red ha hb ca cb
  | right => exact .red hb ha cb ca

theorem CTree.RB.bin_black (ha : a.RB h) (hb : b.RB h) : (bin d .black a n b).RB (h + 1) := by
  cases d with
  | left => exact .black ha hb
  | right => exact .black hb ha

theorem CTree.RB.of_bin_red (ht : (bin d .red a n b).RB h) :
    a.RB h ∧ b.RB h ∧ a.color = .black ∧ b.color = .black := by
  cases d with
  | left => cases ht with | red hl hr cl cr => exact ⟨hl, hr, cl, cr⟩
  | right => cases ht with | red hl hr cl cr => exact ⟨hr, hl, cr, cl⟩

theorem CTree.RB.of_bin_black (ht : (bin d .black a n b).RB h) :
    ∃ k, h = k + 1 ∧ a.RB k ∧ b.RB k := by
  cases d with
  | left => cases ht with | black hl hr => exact ⟨_, rfl, hl, hr⟩
  | right => cases ht with | black hl hr => exact ⟨_, rfl, hr, hl⟩

/-- The root may be coloured black. -/
theorem CTree.RB.valid_black (ht : t.RB h) : Valid (t.setColor .black) := by
  cases ht with
  | nil => exact ⟨rfl, _, .nil⟩
  | red hl hr _ _ | black hl hr => exact ⟨rfl, _, .black hl hr⟩

theorem CTree.RB.red_black (ht : t.RB h) (hred : t.color = .red) :
    (t.setColor .black).RB (h + 1) := by
  cases ht with
  | nil | black _ _ => cases hred
  | red hl hr _ _ => exact .black hl hr

theorem CTree.RB.height_eq {h' : ℕ} (ht : t.RB h) (ht' : t.RB h') : h = h' := by
  induction ht generalizing h' with
  | nil => cases ht'; rfl
  | red _ _ _ _ ih _ => cases ht' with | red hl => exact ih hl
  | black _ _ ih _ => cases ht' with | black hl => rw [ih hl]

theorem CTree.RB.eq_nil (ht : t.RB 0) (hblack : t.color = .black) : t = .nil := by
  cases ht with
  | nil => rfl
  | red => cases hblack

theorem CtxRB.sib {f : Frame α} (hc : CtxRB (f :: C) h) : f.sib.RB h := by
  cases hc with
  | red hs | black hs => exact hs

/-! ### The depth -/

def CTree.depth : CTree α → ℕ
  | nil => 0
  | node _ l _ r => max l.depth r.depth + 1

theorem CTree.RB.depth_le (ht : t.RB h) :
    t.depth ≤ 2 * h + 1 ∧ (t.color = .black → t.depth ≤ 2 * h) ∧ 2 ^ h ≤ t.inorder.length + 1 := by
  induction ht with
  | nil => simp [depth, inorder]
  | red hl hr cl cr ihl ihr =>
    have := ihl.2.1 cl
    have := ihr.2.1 cr
    simp only [depth, color, inorder, length_append, length_cons]
    exact ⟨by omega, by simp, by omega⟩
  | black hl hr ihl ihr =>
    simp only [depth, inorder, length_append, length_cons, Nat.pow_succ]
    omega

/-- **A red-black tree is balanced.** -/
theorem Valid.depth_le (ht : Valid t) : t.depth ≤ 2 * Nat.log 2 (t.inorder.length + 1) := by
  obtain ⟨hblack, h, hrb⟩ := ht
  obtain ⟨-, hle, hpow⟩ := hrb.depth_le
  have := Nat.le_log_of_pow_le Nat.one_lt_two hpow
  have := hle hblack
  omega

/-- **Plugging a subtree into a context.** -/
theorem valid_zip (hc : CtxRB C h) (ht : t.RB h)
    (hred : t.color = .red → ∃ f C', C = f :: C' ∧ f.color = .black) :
    Valid (zip C t) := by
  induction hc generalizing t with
  | nil =>
    refine ⟨?_, _, ht⟩
    cases hcol : t.color with
    | black => exact hcol
    | red =>
      obtain ⟨f, C', heq, -⟩ := hred hcol
      cases heq
  | @red d n sib g C h hs cs cg hc ih =>
    have hblack : t.color = .black := by
      cases hcol : t.color with
      | black => rfl
      | red =>
        obtain ⟨f, C', heq, hf⟩ := hred hcol
        obtain ⟨rfl, -⟩ := List.cons.inj heq
        cases hf
    exact ih (ht.bin_red hs hblack cs) fun _ => ⟨g, C, rfl, cg⟩
  | @black d n sib C h hs hc ih =>
    refine ih (ht.bin_black hs) fun hcol => ?_
    rw [Frame.color_plug] at hcol
    cases hcol

theorem valid_zip_black (hc : CtxRB C h) (ht : t.RB h) (hblack : t.color = .black) :
    Valid (zip C t) :=
  valid_zip hc ht fun hred => by rw [hblack] at hred; cases hred

/-- **Taking a valid tree apart.** -/
theorem Valid.split (hv : Valid (zip C t)) :
    ∃ h, CtxRB C h ∧ t.RB h ∧
      (t.color = .red → ∃ f C', C = f :: C' ∧ f.color = .black) := by
  induction C generalizing t with
  | nil =>
    obtain ⟨hblack, h, ht⟩ := hv
    refine ⟨h, .nil, ht, fun hred => ?_⟩
    rw [zip_nil, hred] at hblack
    cases hblack
  | cons f C ih =>
    obtain ⟨h, hc, hplug, hred⟩ := ih hv
    rcases f with ⟨d, c, n, sib⟩
    cases c with
    | red =>
      obtain ⟨ht, hs, ct, cs⟩ := hplug.of_bin_red
      obtain ⟨g, C', rfl, cg⟩ := hred (color_bin ..)
      refine ⟨h, .red hs cs cg hc, ht, fun hcol => ?_⟩
      rw [ct] at hcol
      cases hcol
    | black =>
      obtain ⟨k, rfl, ht, hs⟩ := hplug.of_bin_black
      exact ⟨k, .black hs hc, ht, fun _ => ⟨_, C, rfl, rfl⟩⟩

/-- Contexts that may differ in the values of their frames and in the sides. -/
def SameShape : Ctx α → Ctx α → Prop :=
  List.Forall₂ fun f g => f.color = g.color ∧ f.sib = g.sib

theorem CtxRB.rename {C' : Ctx α} (hc : CtxRB C h) (heq : SameShape C C') : CtxRB C' h := by
  induction hc generalizing C' with
  | nil =>
    cases heq
    exact .nil
  | red hs cs cg _ ih =>
    rcases heq with _ | @⟨_, ⟨d', c', n', sib'⟩, _, _, ⟨rfl, rfl⟩, heq⟩
    rcases id heq with _ | ⟨⟨hg, -⟩, -⟩
    exact .red hs cs (hg ▸ cg) (ih heq)
  | black hs _ ih =>
    rcases heq with _ | @⟨_, ⟨d', c', n', sib'⟩, _, _, ⟨rfl, rfl⟩, heq⟩
    exact .black hs (ih heq)

theorem Valid.rename {C' : Ctx α} (hv : Valid (zip C t)) (heq : SameShape C C') :
    Valid (zip C' t) := by
  obtain ⟨h, hc, ht, hred⟩ := hv.split
  refine valid_zip (hc.rename heq) ht fun hcol => ?_
  obtain ⟨f, C₀, rfl, hf⟩ := hred hcol
  rcases heq with _ | @⟨_, g, _, C₁, ⟨hfg, -⟩, -⟩
  exact ⟨g, C₁, rfl, hfg ▸ hf⟩

/-! ### Repairs after an insertion -/

/-- The subtree is red, and the only fault of the tree may be that the parent is red as well. -/
def RedAt (t : CTree α) (C : Ctx α) : Prop := t.color = .red ∧ ∃ h, t.RB h ∧ CtxRB C h

theorem RedAt.ne_nil (h : RedAt t C) : t ≠ .nil := by
  rintro rfl
  cases h.1

/-- With a black parent there is no fault, except that the root may be red. -/
theorem RedAt.valid (h : RedAt t C) (htop : topColor C = .black) :
    Valid ((zip C t).setColor .black) := by
  obtain ⟨hred, k, ht, hc⟩ := h
  cases C with
  | nil => exact ht.valid_black
  | cons f C =>
    have hv : Valid (zip (f :: C) t) := valid_zip hc ht fun _ => ⟨f, C, rfl, htop⟩
    have hcol := setColor_color (zip (f :: C) t)
    rw [hv.1] at hcol
    rw [hcol]
    exact hv

/-- Below a red parent there is a black grandparent. -/
theorem RedAt.exists_grandparent {f : Frame α} (h : RedAt t (f :: C)) (hf : f.color = .red) :
    ∃ g C', C = g :: C' ∧ g.color = .black ∧ f.sib.color = .black := by
  obtain ⟨-, k, -, hc⟩ := h
  cases hc with
  | @red _ _ _ g C' _ hs cs cg _ => exact ⟨g, C', rfl, cg, cs⟩
  | black _ _ => cases hf

variable {d₁ d₂ : Side} {s u : CTree α}

theorem RedAt.parts (h : RedAt t (⟨d₁, .red, p, s⟩ :: ⟨d₂, .black, g, u⟩ :: C)) :
    ∃ k, t.RB k ∧ s.RB k ∧ u.RB k ∧ s.color = .black ∧ CtxRB C (k + 1) := by
  obtain ⟨-, k, ht, hc⟩ := h
  cases hc with
  | red hs cs cg hc =>
    cases hc with
    | black hu hc => exact ⟨k, ht, hs, hu, cs, hc⟩

/-- The uncle is red: the fault moves up. -/
theorem RedAt.recolor (h : RedAt t (⟨d₁, .red, p, s⟩ :: ⟨d₂, .black, g, u⟩ :: C))
    (hu : u.color = .red) :
    RedAt (bin d₂ .red (bin d₁ .black t p s) g (u.setColor .black)) C := by
  obtain ⟨k, ht, hs, hu', -, hc⟩ := h.parts
  refine ⟨color_bin .., k + 1, ?_, hc⟩
  refine (ht.bin_black hs).bin_red (hu'.red_black hu) (color_bin ..) ?_
  cases u <;> rfl

/-- The uncle is black and the subtree is an outer grandchild: one rotation. -/
theorem RedAt.outer (h : RedAt t (⟨d, .red, p, s⟩ :: ⟨d, .black, g, u⟩ :: C))
    (hu : u.color = .black) : Valid (zip C (bin d .black t p (bin d .red s g u))) := by
  obtain ⟨k, ht, hs, hu', cs, hc⟩ := h.parts
  exact valid_zip_black hc (ht.bin_black (hs.bin_red hu' cs hu)) (color_bin ..)

/-- The uncle is black and the subtree is an inner grandchild: two rotations. -/
theorem RedAt.inner (h : RedAt (bin d .red a n b)
      (⟨d.other, .red, p, s⟩ :: ⟨d, .black, g, u⟩ :: C)) (hu : u.color = .black) :
    Valid (zip C (bin d .black (bin d .red s p a) n (bin d .red b g u))) := by
  obtain ⟨k, ht, hs, hu', cs, hc⟩ := h.parts
  obtain ⟨ha, hb, ca, cb⟩ := ht.of_bin_red
  exact valid_zip_black hc ((hs.bin_red ha cs ca).bin_black (hb.bin_red hu' cb hu)) (color_bin ..)

/-- One rotation at the grandparent of an inner grandchild keeps the fault where it is, with an uncle
that is black. -/
theorem RedAt.turn (h : RedAt t (⟨d.other, .red, p, s⟩ :: ⟨d, .black, g, u⟩ :: C))
    (hu : u.color = .black) :
    RedAt t (⟨d, .red, g, u⟩ :: ⟨d.other, .black, p, s⟩ :: C) ∧ s.color = .black := by
  obtain ⟨k, ht, hs, hu', cs, hc⟩ := h.parts
  exact ⟨⟨h.1, k, ht, .red hu' hu rfl (.black hs hc)⟩, cs⟩

/-- Two rotations bring the inner grandchild `t` above its parent `p` and its grandparent `g`. -/
def twoRotations : Side → (s : CTree α) → (p : α) → (t : CTree α) → (g : α) → (u : CTree α) → CTree α
  | .left, s, p, .node _ a n b, g, u => bin .left .black (bin .left .red s p a) n (bin .left .red b g u)
  | .right, s, p, .node _ b n a, g, u =>
      bin .right .black (bin .right .red s p a) n (bin .right .red b g u)
  | _, _, _, .nil, _, _ => .nil

theorem twoRotations_bin : twoRotations d s p (bin d c a n b) g u =
    bin d .black (bin d .red s p a) n (bin d .red b g u) := by
  cases d <;> rfl

/-- The two rotations give the same tree from either side. -/
theorem twoRotations_other : twoRotations d.other u g t p s = twoRotations d s p t g u := by
  cases t with
  | nil => cases d <;> rfl
  | node c l n r => cases d <;> rfl

/-- **The textbook repair after an insertion.**  Below a red parent, a red uncle moves the fault up.  With
a black uncle, an inner grandchild is first brought to the outside by a rotation of the parent, and the
grandparent is then rotated away. -/
def repair : Ctx α → CTree α → CTree α
  | ⟨d₁, .red, p, s⟩ :: ⟨d₂, _, g, u⟩ :: C, t =>
      if u.color = .red then repair C (bin d₂ .red (bin d₁ .black t p s) g (u.setColor .black))
      else if d₁ = d₂ then zip C (bin d₂ .black t p (bin d₂ .red s g u))
      else zip C (twoRotations d₂ s p t g u)
  | C, t => zip C t

theorem repair_of_black (htop : topColor C = .black) : repair C t = zip C t := by
  cases C with
  | nil => rfl
  | cons f C =>
    rcases f with ⟨d, _ | _, n, sib⟩
    · cases htop
    · cases C <;> rfl

theorem repair_recolor (hu : u.color = .red) :
    repair (⟨d₁, .red, p, s⟩ :: ⟨d₂, c, g, u⟩ :: C) t =
      repair C (bin d₂ .red (bin d₁ .black t p s) g (u.setColor .black)) := by
  rw [repair, if_pos hu]

theorem repair_outer (hu : u.color = .black) :
    repair (⟨d, .red, p, s⟩ :: ⟨d, c, g, u⟩ :: C) t = zip C (bin d .black t p (bin d .red s g u)) := by
  rw [repair, if_neg (by rw [hu]; exact nofun), if_pos rfl]

theorem repair_inner (hu : u.color = .black) :
    repair (⟨d.other, .red, p, s⟩ :: ⟨d, c, g, u⟩ :: C) t = zip C (twoRotations d s p t g u) := by
  rw [repair, if_neg (by rw [hu]; exact nofun), if_neg d.other_ne]

/-- One rotation at the grandparent of an inner grandchild leads to the same tree as the repair. -/
theorem repair_turn {c' : Color} (hu : u.color = .black) (hs : s.color = .black) :
    repair (⟨d, .red, g, u⟩ :: ⟨d.other, c', p, s⟩ :: C) t =
      repair (⟨d.other, .red, p, s⟩ :: ⟨d, c, g, u⟩ :: C) t := by
  have hturn := repair_inner (d := d.other) (c := c') (p := g) (s := u) (g := p) (C := C) (t := t) hs
  rw [Side.other_other] at hturn
  rw [hturn, repair_inner hu, twoRotations_other]

/-! ### Repairs after a removal -/

/-- One black node is missing on the paths through the subtree, unless its root is red, which then only
has to be coloured black. -/
def Deficit (x : CTree α) (C : Ctx α) : Prop :=
  ∃ h, CtxRB C (h + 1) ∧
    (x.color = .black ∧ x.RB h ∨ x.color = .red ∧ (x.setColor .black).RB (h + 1))

theorem Deficit.rename {C' : Ctx α} (h : Deficit x C) (heq : SameShape C C') : Deficit x C' := by
  obtain ⟨k, hc, hx⟩ := h
  exact ⟨k, hc.rename heq, hx⟩

/-- A node with one child is replaced by it: a black node leaves a deficit, and a red one has no
child. -/
theorem Valid.remove (hv : Valid (zip C (bin d c .nil n x))) :
    (c = .black → Deficit x C) ∧ (c = .red → x = .nil ∧ Valid (zip C x)) := by
  obtain ⟨k, hc, ht, -⟩ := hv.split
  refine ⟨?_, ?_⟩
  · rintro rfl
    obtain ⟨k, rfl, -, hx⟩ := ht.of_bin_black
    refine ⟨k, hc, ?_⟩
    cases hcol : x.color with
    | red => exact .inr ⟨rfl, hx.red_black hcol⟩
    | black => exact .inl ⟨rfl, hx⟩
  · rintro rfl
    obtain ⟨hnil, hx, -, cx⟩ := ht.of_bin_red
    cases hnil
    exact ⟨hx.eq_nil cx, valid_zip_black hc hx cx⟩

/-- Beside an empty place there is at most a red node. -/
theorem Valid.sib_of_nil (hv : Valid (zip (⟨d, c, p, w⟩ :: C) .nil)) :
    w = .nil ∨ ∃ n, w = bin d .red .nil n .nil := by
  obtain ⟨k, hc, hnil, -⟩ := hv.split
  cases hnil
  have hw : w.RB 0 := hc.sib
  cases hw with
  | nil => exact .inl rfl
  | @red l r n _ hl hr cl cr =>
    rw [hl.eq_nil cl, hr.eq_nil cr]
    exact .inr ⟨n, by cases d <;> rfl⟩

/-- Below the root a deficit has to be repaired. -/
theorem Deficit.not_valid (h : Deficit x C) (hC : C ≠ []) : ¬ Valid (zip C x) := by
  intro hv
  obtain ⟨f, C, rfl⟩ := exists_cons_of_ne_nil hC
  obtain ⟨k, hc, hx⟩ := h
  obtain ⟨j, hc', hx', -⟩ := hv.split
  obtain rfl : j = k + 1 := hc'.sib.height_eq hc.sib
  rcases hx with ⟨-, hx⟩ | ⟨hred, hx⟩
  · have := hx.height_eq hx'
    omega
  · have := (hx'.red_black hred).height_eq hx
    omega

/-- At the root, or with a red root of the subtree, colouring black ends the repair. -/
theorem Deficit.valid (h : Deficit x C) (hend : x.color = .red ∨ C = []) :
    Valid (zip C (x.setColor .black)) := by
  obtain ⟨k, hc, ⟨hblack, hx⟩ | ⟨hred, hx⟩⟩ := h
  · rcases hend with hend | rfl
    · rw [hblack] at hend
      cases hend
    · exact hx.valid_black
  · refine valid_zip_black hc hx ?_
    cases x <;> rfl

theorem Deficit.sib_ne_nil (h : Deficit x (⟨d, c, p, w⟩ :: C)) : w ≠ .nil := by
  rintro rfl
  obtain ⟨k, hc, -⟩ := h
  cases hc.sib

theorem Deficit.exists_sib (h : Deficit x (⟨d, c, p, w⟩ :: C)) :
    ∃ a n b, w = bin d w.color a n b := by
  cases w with
  | nil => exact absurd rfl h.sib_ne_nil
  | node cw l n r =>
    obtain ⟨a, b, heq⟩ := exists_bin d cw l n r
    exact ⟨a, n, b, heq⟩

/-- The sibling is red: a rotation gives a black one. -/
theorem Deficit.redSibling (h : Deficit x (⟨d, c, p, bin d .red a n b⟩ :: C)) :
    c = .black ∧ a.color = .black ∧
      Deficit x (⟨d, .red, p, a⟩ :: ⟨d, .black, n, b⟩ :: C) := by
  obtain ⟨k, hc, hx⟩ := h
  cases hc with
  | red hs cs _ _ =>
    rw [color_bin] at cs
    cases cs
  | black hs hc =>
    obtain ⟨ha, hb, ca, cb⟩ := hs.of_bin_red
    exact ⟨rfl, ca, k, .red ha ca rfl (.black hb hc), hx⟩

theorem Deficit.parts (h : Deficit x (⟨d, c, p, bin d .black a n b⟩ :: C))
    (hx : x.color = .black) : ∃ k, x.RB k ∧ a.RB k ∧ b.RB k ∧
      (c = .black ∧ CtxRB C (k + 2) ∨
        c = .red ∧ CtxRB C (k + 1) ∧ ∃ f C', C = f :: C' ∧ f.color = .black) := by
  obtain ⟨k, hc, ⟨-, hx⟩ | ⟨hred, -⟩⟩ := h
  · cases hc with
    | red hs _ cg hc =>
      obtain ⟨k', hk, ha, hb⟩ := hs.of_bin_black
      obtain rfl : k = k' := by omega
      exact ⟨k, hx, ha, hb, .inr ⟨rfl, hc, _, _, rfl, cg⟩⟩
    | black hs hc =>
      obtain ⟨k', hk, ha, hb⟩ := hs.of_bin_black
      obtain rfl : k = k' := by omega
      exact ⟨k, hx, ha, hb, .inl ⟨rfl, hc⟩⟩
  · rw [hx] at hred
    cases hred

/-- The sibling and its children are black: the deficit moves up. -/
theorem Deficit.up (h : Deficit x (⟨d, c, p, bin d .black a n b⟩ :: C)) (hx : x.color = .black)
    (ha : a.color = .black) (hb : b.color = .black) :
    Deficit (bin d c x p (bin d .red a n b)) C := by
  obtain ⟨k, hx', ha', hb', ⟨rfl, hc⟩ | ⟨rfl, hc, -⟩⟩ := h.parts hx
  · exact ⟨k + 1, hc, .inl ⟨color_bin .., hx'.bin_black (ha'.bin_red hb' ha hb)⟩⟩
  · refine ⟨k, hc, .inr ⟨color_bin .., ?_⟩⟩
    rw [setColor_bin]
    exact hx'.bin_black (ha'.bin_red hb' ha hb)

/-- The end of the repair: the subtree that takes the place of the parent has its colour. -/
theorem Deficit.close {y z : CTree α} {m : α} {k : ℕ} (hy : y.RB (k + 1)) (hz : z.RB (k + 1))
    (cy : y.color = .black) (cz : z.color = .black)
    (hc : c = .black ∧ CtxRB C (k + 2) ∨
      c = .red ∧ CtxRB C (k + 1) ∧ ∃ f C', C = f :: C' ∧ f.color = .black) :
    Valid (zip C (bin d c y m z)) := by
  obtain ⟨rfl, hc⟩ | ⟨rfl, hc, htop⟩ := hc
  · exact valid_zip_black hc (hy.bin_black hz) (color_bin ..)
  · exact valid_zip hc (hy.bin_red hz cy cz) fun _ => htop

/-- The far child of the black sibling is red: one rotation. -/
theorem Deficit.far (h : Deficit x (⟨d, c, p, bin d .black a n b⟩ :: C)) (hx : x.color = .black)
    (hb : b.color = .red) :
    Valid (zip C (bin d c (bin d .black x p a) n (b.setColor .black))) := by
  obtain ⟨k, hx', ha', hb', hc⟩ := h.parts hx
  refine Deficit.close (hx'.bin_black ha') (hb'.red_black hb) (color_bin ..) ?_ hc
  cases b <;> rfl

/-- The near child of the black sibling is red and the far one black: two rotations. -/
theorem Deficit.near {m : α} {e : CTree α}
    (h : Deficit x (⟨d, c, p, bin d .black (bin d .red a m b) n e⟩ :: C))
    (hx : x.color = .black) :
    Valid (zip C (bin d c (bin d .black x p a) m (bin d .black b n e))) := by
  obtain ⟨k, hx', hm, he, hc⟩ := h.parts hx
  obtain ⟨ha', hb', -, -⟩ := hm.of_bin_red
  exact Deficit.close (hx'.bin_black ha') (hb'.bin_black he) (color_bin ..) (color_bin ..) hc

end RedBlack

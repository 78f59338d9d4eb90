/-
**Traversal and lookup.**

`malloc_rbtree` wraps the functions on nodes for the objects that contain them.  In a memory that holds
a tree, `begin` and repeated calls of `next` list the values of the tree in its order, `lookup` finds
the object with a key, and `erase` returns the object that follows.

Main definitions: `traverse`, `Traversed`, `ReturnsNext`.  Main results: `traverse_spec`, `lookup_spec`.
-/

import SgxElps.Rbtree.Invariant

namespace Rbtree

open RedBlack RedBlack.CTree
open List

variable {N K : Type}

/-! ### The operations on objects -/

/-- `container_of`: the sentinel is in no object. -/
def containerOf : Addr N → Option N
  | .sentinel => none
  | .node n => some n

/-- A node that is returned, as an object; null stays null. -/
def toObject : Option (Addr N) → Option (Option N)
  | none => some none
  | some a => (containerOf a).map some

@[simp] theorem toObject_map_node (o : Option N) : toObject (o.map .node) = some o := by
  cases o <;> rfl

namespace MallocRbtree

variable [DecidableEq N] (m : Mem N) (fuel : ℕ)

def begin : Option (Option N) := (m.begin fuel m.root).bind toObject

def next (obj : N) : Option (Option N) := (m.next fuel (.node obj)).bind toObject

def lookup [LinearOrder K] (key : N → K) (v : K) : Option (Option N) :=
  (m.lookup key fuel v).bind toObject

def erase (obj : N) : Option (Mem N × Option N) :=
  (m.erase fuel (.node obj)).bind fun r => (toObject r.2).map fun o => (r.1, o)

end MallocRbtree

/-- The objects from `obj` on, until `next` yields null. -/
def visit [DecidableEq N] (m : Mem N) (fuel : ℕ) : (steps : ℕ) → (obj : Option N) → Option (List N)
  | 0, _ => none
  | _ + 1, none => some []
  | k + 1, some n => do
      let obj ← MallocRbtree.next m fuel n
      let rest ← visit m fuel k obj
      some (n :: rest)

/-- The objects that `begin` and then repeated calls of `next` visit. -/
def traverse [DecidableEq N] (m : Mem N) (fuel : ℕ) : Option (List N) :=
  (MallocRbtree.begin m fuel).bind (visit m fuel fuel)

/-! ### In a memory that holds a tree -/

section Tree

variable [DecidableEq N] {m : Mem N} {t : CTree N} {fuel : ℕ}

theorem begin_spec (h : Holds m t) (hfuel : t.inorder.length ≤ fuel) :
    MallocRbtree.begin m fuel = some t.inorder.head? := by
  cases t with
  | nil =>
    have hroot : m.root = none ∨ m.root = some .sentinel := by
      have := h.root
      cases hr : m.root with
      | none => exact .inl rfl
      | some a =>
        rw [hr] at this
        exact .inr (congrArg some this)
    rcases hroot with hr | hr
    · simp [MallocRbtree.begin, hr, Mem.begin, toObject, inorder]
    · simp [MallocRbtree.begin, hr, Mem.begin, toObject, inorder]
  | node c l n r =>
    obtain ⟨C, c', y, r', hrun, heq, hfirst⟩ := leftmost_spec (C := []) h node_ne_nil hfuel
    have hrun' : m.leftmost fuel (.node n) = some (.node y) := hrun
    rw [heq, inorder_zip, hfirst, MallocRbtree.begin, h.root_eq node_ne_nil]
    simp [addr, Mem.begin, hrun', toObject, containerOf, inorder]

/-- `next` goes to the object that follows in the order of the tree. -/
theorem next_of_inorder {A B : List N} {n : N} (h : Holds m t) (hin : t.inorder = A ++ n :: B)
    (hfuel : t.inorder.length ≤ fuel) : MallocRbtree.next m fuel n = some B.head? := by
  obtain ⟨C, c, l, r, rfl⟩ := exists_zip_of_mem (show n ∈ t.inorder by simp [hin])
  have hin' : (zip C (.node c l n r)).inorder =
      (before C ++ l.inorder) ++ n :: (r.inorder ++ after C) := by
    simp [inorder_zip, inorder]
  have hnd := h.nodup
  rw [hin, nodup_append', nodup_cons] at hnd
  have hnA : n ∉ A := fun hmem => hnd.2.2 hmem mem_cons_self
  obtain ⟨-, -, rfl⟩ := (append_cons_inj_of_notMem hnA hnd.2.1.1).1 (hin.symm.trans hin')
  rw [MallocRbtree.next, next_spec h hfuel]
  simp

theorem visit_spec {B : List N} : ∀ {A : List N} {steps : ℕ}, Holds m t → t.inorder = A ++ B →
    t.inorder.length ≤ fuel → B.length < steps → visit m fuel steps B.head? = some B := by
  induction B with
  | nil =>
    intro A steps _ _ _ hsteps
    obtain ⟨steps, rfl⟩ : ∃ k, steps = k + 1 := ⟨steps - 1, by omega⟩
    rfl
  | cons n B ih =>
    intro A steps h hin hfuel hsteps
    rw [length_cons] at hsteps
    obtain ⟨steps, rfl⟩ : ∃ k, steps = k + 1 := ⟨steps - 1, by omega⟩
    have hrest := ih (A := A ++ [n]) h (by simpa using hin) hfuel (show B.length < steps by omega)
    simp only [head?_cons, visit, next_of_inorder h hin hfuel, Option.bind_eq_bind,
      Option.bind_some, hrest]

/-- **The traversal lists the tree in its order.** -/
theorem traverse_spec (h : Holds m t) (hfuel : t.inorder.length < fuel) :
    traverse m fuel = some t.inorder := by
  rw [traverse, begin_spec h hfuel.le, Option.bind_some]
  exact visit_spec (A := []) h rfl hfuel.le hfuel

variable [LinearOrder K] {key : N → K} {v : K}

omit [DecidableEq N] in
theorem search_spec : ∀ {fuel : ℕ} {par : Addr N}, Stored m t par → Sorted key t →
    t.depth < fuel →
    (∃ x ∈ t.inorder, key x = v ∧ m.search key v fuel (some (addr t)) = some (some (.node x))) ∨
      (∀ x ∈ t.inorder, key x ≠ v) ∧ m.search key v fuel (some (addr t)) = some none := by
  induction t with
  | nil =>
    intro fuel par _ _ hfuel
    obtain ⟨fuel, rfl⟩ : ∃ k, fuel = k + 1 := ⟨fuel - 1, by omega⟩
    exact .inr ⟨nofun, rfl⟩
  | node c l k r ihl ihr =>
    rintro fuel par ⟨hk, hl, hr⟩ hs hfuel
    simp only [depth] at hfuel
    obtain ⟨fuel, rfl⟩ : ∃ j, fuel = j + 1 := ⟨fuel - 1, by omega⟩
    obtain ⟨hsl, hkr, hlk⟩ := pairwise_append.1 hs
    obtain ⟨hr', hsr⟩ := pairwise_cons.1 hkr
    have hleft : m.child .left (.node k) = some (addr l) := by rw [Mem.child, hk]; rfl
    have hright : m.child .right (.node k) = some (addr r) := by rw [Mem.child, hk]; rfl
    simp only [addr, Mem.search, inorder, mem_append, mem_cons]
    rcases lt_trichotomy v (key k) with hlt | rfl | hgt
    · rw [if_pos hlt, hleft, Option.bind_some]
      rcases ihl hl hsl (show _ < fuel by omega) with ⟨x, hx, hkey, hrun⟩ | ⟨hnone, hrun⟩
      · exact .inl ⟨x, .inl hx, hkey, hrun⟩
      · refine .inr ⟨?_, hrun⟩
        rintro x (hx | rfl | hx)
        · exact hnone x hx
        · exact hlt.ne'
        · exact (hlt.trans (hr' x hx)).ne'
    · rw [if_neg (lt_irrefl _), if_pos (lt_irrefl _)]
      exact .inl ⟨k, .inr (.inl rfl), rfl, rfl⟩
    · rw [if_neg hgt.not_gt, if_neg (not_not.2 hgt), hright, Option.bind_some]
      rcases ihr hr hsr (show _ < fuel by omega) with ⟨x, hx, hkey, hrun⟩ | ⟨hnone, hrun⟩
      · exact .inl ⟨x, .inr (.inr hx), hkey, hrun⟩
      · refine .inr ⟨?_, hrun⟩
        rintro x (hx | rfl | hx)
        · exact ((hlk x hx k mem_cons_self).trans hgt).ne
        · exact hgt.ne
        · exact hnone x hx

omit [DecidableEq N] in
/-- **`lookup`** returns the object with the key, or null if there is none. -/
theorem lookup_spec (h : Holds m t) (hs : Sorted key t) (hfuel : t.depth < fuel) (v : K) :
    (∃ x ∈ t.inorder, key x = v ∧ MallocRbtree.lookup m fuel key v = some (some x)) ∨
      (∀ x ∈ t.inorder, key x ≠ v) ∧ MallocRbtree.lookup m fuel key v = some none := by
  have hroot : m.lookup key fuel v = m.search key v fuel (some (addr t)) := by
    rw [Mem.lookup, ← h.root]
    cases hr : m.root with
    | none => cases fuel <;> rfl
    | some a => rfl
  rw [MallocRbtree.lookup, hroot]
  rcases search_spec h.stored hs hfuel with ⟨x, hx, hkey, hrun⟩ | ⟨hnone, hrun⟩
  · exact .inl ⟨x, hx, hkey, by rw [hrun]; rfl⟩
  · exact .inr ⟨hnone, by rw [hrun]; rfl⟩

end Tree

/-! ### In a state that meets the invariant -/

variable [LinearOrder K] [DecidableEq N] {key : N → K} {s s' : State N} {n : N}

/-- The traversal visits the live objects in increasing order of their keys, and lookups find them. -/
structure Traversed (key : N → K) (s : State N) : Prop where
  traversal : ∃ l, traverse s.mem s.fuel = some l ∧ l.Pairwise (fun x y => key x < key y) ∧
    ∀ n, n ∈ l ↔ n ∈ s.live
  lookup : ∀ v, (∃ n ∈ s.live, key n = v ∧
      MallocRbtree.lookup s.mem s.fuel key v = some (some n)) ∨
    (∀ n ∈ s.live, key n ≠ v) ∧ MallocRbtree.lookup s.mem s.fuel key v = some none

/-- With `n` objects in the tree, a lookup takes at most `2 * log (n + 1) + 1` rounds. -/
def LookupLogarithmic (key : N → K) (s : State N) : Prop :=
  ∀ v fuel, 2 * Nat.log 2 (s.live.length + 1) < fuel →
    (∃ n ∈ s.live, key n = v ∧ MallocRbtree.lookup s.mem fuel key v = some (some n)) ∨
      (∀ n ∈ s.live, key n ≠ v) ∧ MallocRbtree.lookup s.mem fuel key v = some none

/-- The object with the next larger key, or null. -/
def IsNext (key : N → K) (live : List N) (n : N) : Option N → Prop
  | none => ∀ x ∈ live, key x ≤ key n
  | some y => y ∈ live ∧ key n < key y ∧ ∀ x ∈ live, key n < key x → key y ≤ key x

/-- The object is linked in the tree. -/
def Linked (m : Mem N) (n : N) : Prop := ∃ t, Holds m t ∧ n ∈ t.inorder

/-- `erase` returns the object with the next larger key, which is still linked. -/
def ReturnsNext (key : N → K) (s : State N) (n : N) : Prop :=
  ∃ m' next, MallocRbtree.erase s.mem s.fuel n = some (m', next) ∧ IsNext key s.live n next ∧
    ∀ y, next = some y → Linked m' y

omit [DecidableEq N] in
theorem Consistent.lookupLogarithmic (hnd : s.live.Nodup) (h : Consistent key s) :
    LookupLogarithmic key s := by
  intro v fuel hfuel
  obtain ⟨-, t, ht, hsorted, hv, hmem⟩ := h
  have hlen := ((perm_ext_iff_of_nodup ht.nodup hnd).2 hmem).length_eq
  rcases lookup_spec ht hsorted (hv.depth_le.trans_lt (hlen ▸ hfuel)) v with
    ⟨x, hx, hkey, hrun⟩ | ⟨hnone, hrun⟩
  · exact .inl ⟨x, (hmem x).1 hx, hkey, hrun⟩
  · exact .inr ⟨fun x hx => hnone x ((hmem x).2 hx), hrun⟩

theorem Consistent.traversed (hnd : s.live.Nodup) (h : Consistent key s) : Traversed key s := by
  refine ⟨?_, fun v => h.lookupLogarithmic hnd v _ ?_⟩
  · obtain ⟨-, t, ht, hsorted, hv, hmem⟩ := h
    have hfuel := fuel_eq hnd ht hmem
    exact ⟨_, traverse_spec ht (by omega), hsorted, hmem⟩
  · have := Nat.log_le_self 2 (s.live.length + 1)
    rw [State.fuel]
    omega

omit [DecidableEq N] in
theorem isNext_head? {l A B : List N} (hl : l.Pairwise fun x y => key x < key y)
    (hin : l = A ++ n :: B) : IsNext key l n B.head? := by
  subst hin
  obtain ⟨-, hB, hA⟩ := pairwise_append.1 hl
  obtain ⟨hnB, hB⟩ := pairwise_cons.1 hB
  cases B with
  | nil =>
    intro x hx
    rw [mem_append, mem_singleton] at hx
    rcases hx with hx | rfl
    · exact (hA x hx n mem_cons_self).le
    · exact le_rfl
  | cons y B =>
    refine ⟨by simp, hnB y mem_cons_self, fun x hx hlt => ?_⟩
    simp only [mem_append, mem_cons] at hx
    rcases hx with hx | rfl | rfl | hx
    · exact absurd (hlt.trans (hA x hx n mem_cons_self)) (lt_irrefl _)
    · exact absurd hlt (lt_irrefl _)
    · exact le_rfl
    · exact ((pairwise_cons.1 hB).1 x hx).le

omit [DecidableEq N] in
theorem IsNext.congr {l l' : List N} (h : ∀ x, x ∈ l ↔ x ∈ l') {next : Option N}
    (hnext : IsNext key l n next) : IsNext key l' n next := by
  cases next with
  | none => exact fun x hx => hnext x ((h x).2 hx)
  | some y => exact ⟨(h y).1 hnext.1, hnext.2.1, fun x hx => hnext.2.2 x ((h x).2 hx)⟩

theorem Consistent.returnsNext (hnd : s.live.Nodup) (h : Consistent key s) (hn : n ∈ s.live)
    (hagree : SuccessorAgrees s (.erase n)) : ReturnsNext key s n := by
  obtain ⟨-, t, ht, hsorted, hv, hmem⟩ := h
  obtain ⟨m', t', A, B, hold, hrun, h', -, hin⟩ := erase_of_agrees hnd ht hv hmem hn hagree
  refine ⟨m', B.head?, ?_, (isNext_head? hsorted hold).congr hmem, fun y hy => ⟨t', h', ?_⟩⟩
  · rw [MallocRbtree.erase, hrun, Option.bind_some, toObject_map_node]
    rfl
  · rw [hin, mem_append]
    exact .inr (mem_of_head? hy)

end Rbtree

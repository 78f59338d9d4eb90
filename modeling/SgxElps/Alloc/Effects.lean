/-
**What the operations of the allocator do to its free blocks.**

The free blocks are a set of spans, whatever order the tree keeps them in and whichever lists they
are linked in.  `malloc` takes one of them and puts the rest back if it is large enough (`Alloc.take`);
`free` gives a block back and joins it with the blocks it touches (`Span.coalesce`); `expandHeap` adds
a block.  That `free` looks at two neighbours in the tree only is enough because the tree is ordered
and the blocks do not overlap.

Main definition: `freeBlocks`.  Main results: `malloc_cases`, `free_cases`, `freeBlocks_free`.
-/

import SgxElps.Lib.FreeSet
import SgxElps.Lib.Except
import SgxElps.Alloc.Operations

namespace Alloc

open Except (bind_eq_ok map_eq_ok)
open Function (update update_of_ne update_self)
open List
open Span

variable {s s' : Allocator} {live : List (ℕ × ℕ)} {regions : List Span} {a len : ℕ} {out : Set ℕ}

/-! ### Operations that succeed -/

/-- The rest of a block is put in the tree and in the list of its bucket. -/
def Allocator.addRest (s : Allocator) (base len i : ℕ) : Allocator :=
  ((s.setHeader base (.new len base)).insertRoot base).pushBack i base

/-- The block `a` is taken out of the tree and of its list, with the length asked for. -/
def Allocator.takeOut (s : Allocator) (a len : ℕ) : Allocator :=
  ((s.setHeader a { s.mem a with free := false, len := len }).eraseRoot a).unlink a

/-- The block `a` grows over `b`, which leaves the tree; the block `c`, one of the two, leaves its
list. -/
def Allocator.absorb (s : Allocator) (a b c : ℕ) : Allocator :=
  ((s.unlink c).setHeader a
    { s.mem a with len := (s.mem a).len + (maSize + (s.mem b).len) }).eraseRoot b

theorem splitRest_cases {oldLen : ℕ} (h : splitRest s a oldLen len = .ok s') :
    (oldLen - len < minPreserveSize ∧ s' = s) ∨
      (minPreserveSize ≤ oldLen - len ∧ ∃ i, sizeToBucket (oldLen - len - maSize) = .ok i ∧
        s' = s.addRest (a + maSize + len) (oldLen - len - maSize) i) := by
  unfold splitRest at h
  split at h
  case isFalse hmin => exact Or.inl ⟨Nat.lt_of_not_le hmin, (Except.ok.inj h).symm⟩
  case isTrue hmin =>
    refine Or.inr ⟨hmin, ?_⟩
    have hlen : oldLen - len - maSize ≠ 1 := by
      simp only [minPreserveSize, maSize] at hmin ⊢
      omega
    simp only [Allocator.insertRoot, Allocator.setHeader, update_self, MemoryArea.new,
      if_neg hlen] at h
    obtain ⟨i, hi, rfl⟩ := map_eq_ok.1 h
    exact ⟨i, hi, rfl⟩

theorem malloc_cases {p : ℕ} (h : malloc s len = .ok (p, s')) :
    (p = 0 ∧ s' = s ∧
      (len = 0 ∨ findChunk s.mem s.chunkList len (range chunkListSize) = none)) ∨
    ∃ a, len ≠ 0 ∧ findChunk s.mem s.chunkList len (range chunkListSize) = some a ∧
      p = a + maSize ∧ splitRest (s.takeOut a len) a (s.mem a).len len = .ok s' := by
  unfold malloc at h
  split at h
  · next h0 =>
    obtain ⟨rfl, rfl⟩ := Prod.mk.inj (Except.ok.inj h)
    exact Or.inl ⟨rfl, rfl, Or.inl h0⟩
  · next h0 =>
    cases hf : findChunk s.mem s.chunkList len (range chunkListSize) with
    | none =>
      rw [hf] at h
      obtain ⟨rfl, rfl⟩ := Prod.mk.inj (Except.ok.inj h)
      exact Or.inl ⟨rfl, rfl, Or.inr rfl⟩
    | some a =>
      rw [hf] at h
      obtain ⟨s₁, hs1, heq⟩ := map_eq_ok.1 h
      obtain ⟨rfl, rfl⟩ := Prod.mk.inj heq
      exact Or.inr ⟨a, h0, rfl, rfl, hs1⟩

theorem mergeNext_cases {next : Option ℕ} (h : mergeNext s a next = .ok s') :
    ((∀ b, next = some b → a + maSize + (s.mem a).len ≠ b) ∧ s' = s) ∨
      ∃ b, next = some b ∧ a + maSize + (s.mem a).len = b ∧ s' = s.absorb a b b := by
  cases next with
  | none => exact Or.inl ⟨nofun, (Except.ok.inj h).symm⟩
  | some b =>
    rw [mergeNext] at h
    split at h
    · cases h
    · split at h
      · next hadj =>
        obtain ⟨i, -, rfl⟩ := map_eq_ok.1 h
        exact Or.inr ⟨b, rfl, hadj, rfl⟩
      · next hadj =>
        refine Or.inl ⟨fun c hc => ?_, (Except.ok.inj h).symm⟩
        rw [← Option.some_inj.1 hc]
        exact hadj

theorem linkFreed_cases (h : linkFreed s a = .ok s') :
    ∃ i, sizeToBucket (s.mem a).len = .ok i ∧
      s' = (s.pushBack i a).setHeader a { s.mem a with free := true } := by
  obtain ⟨i, hi, h⟩ := bind_eq_ok.1 h
  obtain ⟨-, -, rfl⟩ := map_eq_ok.1 h
  exact ⟨i, hi, rfl⟩

theorem mergePrev_cases {prev : Option ℕ} (h : mergePrev s a prev = .ok s') :
    ((∀ p, prev = some p → p + maSize + (s.mem p).len ≠ a) ∧
      ∃ i, sizeToBucket (s.mem a).len = .ok i ∧
        s' = (s.pushBack i a).setHeader a { s.mem a with free := true }) ∨
    ∃ p i, prev = some p ∧ p + maSize + (s.mem p).len = a ∧
      sizeToBucket ((s.mem p).len + (maSize + (s.mem a).len)) = .ok i ∧
      s' = (s.absorb p a p).pushBack i p := by
  cases prev with
  | none => exact Or.inl ⟨nofun, linkFreed_cases h⟩
  | some p =>
    rw [mergePrev] at h
    split at h
    · cases h
    · split at h
      · next hadj =>
        obtain ⟨-, -, h⟩ := bind_eq_ok.1 h
        obtain ⟨i, hi, rfl⟩ := map_eq_ok.1 h
        simp only [Allocator.eraseRoot, Allocator.setHeader, update_self] at hi
        exact Or.inr ⟨p, i, rfl, hadj, hi, rfl⟩
      · next hadj =>
        refine Or.inl ⟨fun q hq => ?_, linkFreed_cases h⟩
        rw [← Option.some_inj.1 hq]
        exact hadj

theorem free_cases (h : free s (a + maSize) = .ok s') :
    ∃ s₁, mergeNext (s.insertRoot a) a (nextOf a (s.insertRoot a).root) = .ok s₁ ∧
      mergePrev s₁ a (prevOf a (s.insertRoot a).root) = .ok s' := by
  rw [free_eq] at h
  obtain ⟨s₁, hs1, h⟩ := bind_eq_ok.1 h
  obtain ⟨-, -, h⟩ := bind_eq_ok.1 h
  exact ⟨s₁, hs1, h⟩

/-! ### The free blocks -/

/-- The blocks in the tree. -/
def freeBlocks (s : Allocator) : Set Span := { x | ∃ a ∈ s.root, blockAt s.mem a = x }

/-- The free blocks after `len` bytes of the block at `a` were handed out. -/
def take (F : Set Span) (a len : ℕ) : Set Span :=
  { x | (x ∈ F ∧ x.start ≠ a) ∨ ∃ n, ⟨a, maSize + n⟩ ∈ F ∧ minPreserveSize ≤ n - len ∧
    x = ⟨a + maSize + len, n - len⟩ }

theorem blockAt_mem_freeBlocks (ha : a ∈ s.root) : blockAt s.mem a ∈ freeBlocks s := ⟨a, ha, rfl⟩

/-- A free block is determined by its address. -/
theorem eq_blockAt_of_mem {x : Span} (hx : x ∈ freeBlocks s) : x = blockAt s.mem x.start := by
  obtain ⟨a, -, rfl⟩ := hx
  rfl

theorem freeBlocks_insertRoot :
    freeBlocks (s.insertRoot a) = insert (blockAt s.mem a) (freeBlocks s) := by
  ext x
  constructor
  · rintro ⟨b, hb, rfl⟩
    rcases mem_insertEqual.1 hb with rfl | hb
    · exact Or.inl rfl
    · exact Or.inr ⟨b, hb, rfl⟩
  · rintro (rfl | ⟨b, hb, rfl⟩)
    · exact ⟨a, mem_insertEqual.2 (Or.inl rfl), rfl⟩
    · exact ⟨b, mem_insertEqual.2 (Or.inr hb), rfl⟩

theorem freeBlocks_setHeader (ha : a ∉ s.root) (ma : MemoryArea) :
    freeBlocks (s.setHeader a ma) = freeBlocks s := by
  ext x
  have hother : ∀ b ∈ s.root, blockAt (update s.mem a ma) b = blockAt s.mem b := by
    intro b hb
    have hne : b ≠ a := fun h => ha (h ▸ hb)
    rw [blockAt, blockAt, update_of_ne hne]
  constructor
  · rintro ⟨b, hb, rfl⟩
    exact ⟨b, hb, (hother b hb).symm⟩
  · rintro ⟨b, hb, rfl⟩
    exact ⟨b, hb, hother b hb⟩

theorem freeBlocks_addRest (ha : a ∉ s.root) (i : ℕ) :
    freeBlocks (s.addRest a len i) = insert ⟨a, maSize + len⟩ (freeBlocks s) := by
  change freeBlocks ((s.setHeader a (.new len a)).insertRoot a) = _
  rw [freeBlocks_insertRoot, freeBlocks_setHeader ha]
  simp only [Allocator.setHeader, blockAt, update_self, MemoryArea.new]

theorem freeBlocks_takeOut (hs : s.root.Nodup) :
    freeBlocks (s.takeOut a len) = { x ∈ freeBlocks s | x.start ≠ a } := by
  have hother : ∀ b ≠ a, blockAt (s.takeOut a len).mem b = blockAt s.mem b := by
    intro b hb
    simp only [Allocator.takeOut, Allocator.unlink, Allocator.eraseRoot, Allocator.setHeader, blockAt]
    rw [update_of_ne hb]
  ext x
  constructor
  · rintro ⟨b, hb, rfl⟩
    obtain ⟨hba, hb⟩ := hs.mem_erase_iff.1 hb
    rw [hother b hba]
    exact ⟨⟨b, hb, rfl⟩, hba⟩
  · rintro ⟨⟨b, hb, rfl⟩, hba⟩
    exact ⟨b, hs.mem_erase_iff.2 ⟨hba, hb⟩, hother b hba⟩

/-- The block `a` has grown over `b`. -/
theorem freeBlocks_absorb (hs : s.root.Nodup) {b c : ℕ} (ha : a ∈ s.root) (hab : a ≠ b) :
    freeBlocks (s.absorb a b c) =
      insert ⟨a, (maSize + (s.mem a).len) + (maSize + (s.mem b).len)⟩
        { x ∈ freeBlocks s | x.start ≠ a ∧ x.start ≠ b } := by
  have hself : blockAt (s.absorb a b c).mem a =
      ⟨a, (maSize + (s.mem a).len) + (maSize + (s.mem b).len)⟩ := by
    simp only [Allocator.absorb, Allocator.unlink, Allocator.eraseRoot, Allocator.setHeader, blockAt,
      update_self, Nat.add_assoc]
  have hother : ∀ x ≠ a, blockAt (s.absorb a b c).mem x = blockAt s.mem x := by
    intro x hx
    simp only [Allocator.absorb, Allocator.unlink, Allocator.eraseRoot, Allocator.setHeader, blockAt]
    rw [update_of_ne hx]
  ext x
  constructor
  · rintro ⟨y, hy, rfl⟩
    obtain ⟨hyb, hy⟩ := hs.mem_erase_iff.1 hy
    by_cases hya : y = a
    · rw [hya, hself]
      exact Or.inl rfl
    · rw [hother y hya]
      exact Or.inr ⟨⟨y, hy, rfl⟩, hya, hyb⟩
  · rintro (rfl | ⟨⟨y, hy, rfl⟩, hya, hyb⟩)
    · exact ⟨a, hs.mem_erase_iff.2 ⟨hab, ha⟩, hself⟩
    · exact ⟨y, hs.mem_erase_iff.2 ⟨hyb, hy⟩, hother y hya⟩

/-! ### `malloc` and `expandHeap` -/

theorem freeBlocks_malloc (h : Ok s live regions ∅) {p : ℕ} (hp : p ≠ 0)
    (hs : malloc s len = .ok (p, s')) :
    freeBlocks s' = take (freeBlocks s) (p - maSize) len := by
  rcases malloc_cases hs with ⟨h0, -⟩ | ⟨a, -, hf, rfl, hsplit⟩
  · exact absurd h0 hp
  obtain ⟨ha, hle⟩ := h.of_findChunk hf
  rw [Nat.add_sub_cancel]
  -- the block that is taken is the only one that begins at `a`
  have honly : ∀ n, (⟨a, maSize + n⟩ : Span) ∈ freeBlocks s → n = (s.mem a).len := by
    rintro n ⟨b, -, hb⟩
    simp only [blockAt, Span.mk.injEq] at hb
    obtain ⟨rfl, hlen⟩ := hb
    omega
  rcases splitRest_cases hsplit with ⟨hmin, rfl⟩ | ⟨hmin, i, -, rfl⟩
  · rw [freeBlocks_takeOut h.nodup]
    ext x
    refine ⟨Or.inl, ?_⟩
    rintro (hx | ⟨n, hn, hnmin, -⟩)
    · exact hx
    · rw [honly n hn] at hnmin
      omega
  · have hbig : 2 * maSize ≤ (s.mem a).len - len := hmin
    have hfresh : a + maSize + len ∉ (s.takeOut a len).root := by
      obtain ⟨-, hfresh⟩ := (Heap.unlink (a := a) h).take ha (Set.mem_insert ..) hle
      refine hfresh.not_mem_root ?_
      simp only [maSize] at hbig ⊢
      omega
    have hrest : maSize + ((s.mem a).len - len - maSize) = (s.mem a).len - len := by omega
    rw [freeBlocks_addRest hfresh, freeBlocks_takeOut h.nodup, hrest]
    ext x
    constructor
    · rintro (rfl | hx)
      · exact Or.inr ⟨(s.mem a).len, ⟨a, ha, rfl⟩, hmin, rfl⟩
      · exact Or.inl hx
    · rintro (hx | ⟨n, hn, -, rfl⟩)
      · exact Or.inr hx
      · rw [honly n hn]
        exact Or.inl rfl

theorem freeBlocks_expandHeap (h : Ok s live regions ∅) {base : ℕ} (hlen : maSize < len)
    (hregions : ∀ r ∈ regions, Disjoint (⟨base, len⟩ : Span).bytes r.bytes) :
    freeBlocks (expandHeap s base len) = insert ⟨base, len⟩ (freeBlocks s) := by
  have hroot : base ∉ s.root := by
    intro hmem
    obtain ⟨r, hr, hxr⟩ := h.inside _ (Heap.mem_blocks_of_root hmem)
      (show base ∈ (blockAt s.mem base).bytes from
        ⟨le_refl _, by simp only [blockAt, maSize]; omega⟩)
    exact Set.disjoint_left.1 (hregions r hr) ⟨le_refl _, by simp only; omega⟩ hxr
  change freeBlocks (((s.setHeader base (.new (len - maSize) base)).pushBack _ base).insertRoot base) = _
  rw [freeBlocks_insertRoot]
  change insert _ (freeBlocks (s.setHeader base (.new (len - maSize) base))) = _
  rw [freeBlocks_setHeader hroot]
  have hlen' : maSize + (len - maSize) = len := by omega
  simp only [Allocator.setHeader, Allocator.pushBack, blockAt, update_self, MemoryArea.new,
    hlen']

/-! ### `free` -/

section Order

variable {x : Span} (h : Ok s live regions out)
include h

theorem Ok.pairwiseDisjoint : (freeBlocks s).PairwiseDisjoint bytes := by
  have hsep : Span.Separated (s.root.map (blockAt s.mem)) :=
    h.separated.sublist (sublist_append_left ..)
  have hsymm : Std.Symm fun x y : Span => Disjoint x.bytes y.bytes := ⟨fun _ _ hd => hd.symm⟩
  rintro _ ⟨b, hb, rfl⟩ _ ⟨c, hc, rfl⟩ hne
  exact hsep.forall (mem_map_of_mem hb) (mem_map_of_mem hc) hne

theorem Ok.end_le {b : ℕ} (ha : a ∈ s.root) (hb : b ∈ s.root) (hab : a < b) :
    a + maSize + (s.mem a).len ≤ b := by
  have hne : blockAt s.mem a ≠ blockAt s.mem b := fun heq => hab.ne (congrArg start heq)
  have hdisj : Disjoint (blockAt s.mem a).bytes (blockAt s.mem b).bytes :=
    h.pairwiseDisjoint ⟨a, ha, rfl⟩ ⟨b, hb, rfl⟩ hne
  have hend := end_le_start hdisj (Nat.add_pos_left (by decide) _) hab
  simp only [blockAt] at hend
  omega

theorem Ok.touches_next (ha : a ∈ s.root) (hx : x ∈ freeBlocks s) :
    (blockAt s.mem a).Touches x ↔
      nextOf a s.root = some x.start ∧ a + maSize + (s.mem a).len = x.start := by
  obtain ⟨c, hc, rfl⟩ := hx
  have htouch : (blockAt s.mem a).Touches (blockAt s.mem c) ↔ a + maSize + (s.mem a).len = c := by
    simp only [Span.Touches, blockAt, Nat.add_assoc]
  rw [htouch]
  refine ⟨fun hadj => ⟨?_, hadj⟩, And.right⟩
  have hac : a < c := by
    have : 0 < maSize := by decide
    omega
  obtain ⟨b, hb, hbc⟩ := exists_nextOf_le h.sorted ha hc hac
  have hab := h.end_le ha (nextOf_mem hb) (lt_of_nextOf h.sorted hb)
  rw [hb, Option.some_inj]
  simp only [blockAt]
  omega

theorem Ok.touches_prev (ha : a ∈ s.root) (hx : x ∈ freeBlocks s) :
    x.Touches (blockAt s.mem a) ↔ prevOf a s.root = some x.start ∧ x.start + x.len = a := by
  obtain ⟨c, hc, rfl⟩ := hx
  refine ⟨fun hadj => ⟨?_, hadj⟩, And.right⟩
  have hca : c < a := by
    have : 0 < maSize := by decide
    simp only [Span.Touches, blockAt] at hadj
    omega
  obtain ⟨b, hb, hcb⟩ := exists_le_prevOf h.sorted ha hc hca
  -- a block strictly between the two would begin before `c` ends
  rcases hcb.lt_or_eq with hlt | rfl
  · have hcb := h.end_le hc (prevOf_mem hb) hlt
    have hba := lt_of_prevOf h.sorted hb
    simp only [Span.Touches, blockAt] at hadj
    omega
  · exact hb

end Order

/-- Two blocks of which the second begins where the first one ends. -/
theorem bytes_absorb {mem : ℕ → MemoryArea} {b : ℕ} (hadj : a + maSize + (mem a).len = b) :
    (⟨a, (maSize + (mem a).len) + (maSize + (mem b).len)⟩ : Span).bytes =
      (blockAt mem a).bytes ∪ (blockAt mem b).bytes := by
  refine bytes_join (b := blockAt mem a) (c := blockAt mem b) ?_
  simp only [blockAt]
  omega

theorem freeBlocks_mergeNext {s₁ : Allocator} (h : Ok s live regions {a}) (ha : a ∈ s.root)
    (hs : mergeNext s a (nextOf a s.root) = .ok s₁) :
    (blockAt s₁.mem a).bytes =
        bytesOf (insert (blockAt s.mem a) { c ∈ freeBlocks s | (blockAt s.mem a).Touches c }) ∧
      freeBlocks s₁ = insert (blockAt s₁.mem a)
        { c ∈ freeBlocks s | c.start ≠ a ∧ ¬ (blockAt s.mem a).Touches c } := by
  rcases mergeNext_cases hs with ⟨hno, rfl⟩ | ⟨b, hb, hadj, rfl⟩
  · -- no block begins where `a` ends
    have hnone : ∀ c ∈ freeBlocks s₁, ¬ (blockAt s₁.mem a).Touches c := by
      intro c hc htouch
      obtain ⟨hn, hadj⟩ := (h.touches_next ha hc).1 htouch
      exact hno _ hn hadj
    constructor
    · exact (bytesOf_insert_empty hnone).symm
    · ext x
      constructor
      · intro hx
        by_cases hxa : x.start = a
        · obtain ⟨c, -, rfl⟩ := hx
          exact Or.inl (congrArg _ hxa)
        · exact Or.inr ⟨hx, hxa, hnone x hx⟩
      · rintro (rfl | ⟨hx, -⟩)
        · exact blockAt_mem_freeBlocks ha
        · exact hx
  · have hab : a < b := lt_of_nextOf h.sorted hb
    have hself : blockAt (s.absorb a b b).mem a =
        ⟨a, (maSize + (s.mem a).len) + (maSize + (s.mem b).len)⟩ := by
      simp only [Allocator.absorb, Allocator.unlink, Allocator.eraseRoot, Allocator.setHeader, blockAt,
        update_self, Nat.add_assoc]
    -- the block that begins where `a` ends is `b`
    have htouch : ∀ c ∈ freeBlocks s, (blockAt s.mem a).Touches c ↔ c.start = b := by
      intro c hc
      rw [h.touches_next ha hc, hb, Option.some_inj]
      exact ⟨fun hc => hc.1.symm, fun hc => ⟨hc.symm, hc ▸ hadj⟩⟩
    constructor
    · rw [hself, bytes_absorb hadj, bytesOf_insert_unique
        (blockAt_mem_freeBlocks (nextOf_mem hb)) ((htouch _ ⟨b, nextOf_mem hb, rfl⟩).2 rfl)]
      intro c hc hct
      rw [eq_blockAt_of_mem hc, (htouch c hc).1 hct]
    · rw [hself, freeBlocks_absorb h.nodup ha hab.ne]
      congr 1
      ext c
      refine ⟨fun hc => ⟨hc.1, hc.2.1, ?_⟩, fun hc => ⟨hc.1, hc.2.1, ?_⟩⟩
      · exact fun ht => hc.2.2 ((htouch c hc.1).1 ht)
      · exact fun hcb => hc.2.2 ((htouch c hc.1).2 hcb)

theorem freeBlocks_mergePrev (h : Ok s live regions {a}) (ha : a ∈ s.root) {prev : Option ℕ}
    (hprev : ∀ x ∈ freeBlocks s, x.Touches (blockAt s.mem a) ↔
      prev = some x.start ∧ x.start + x.len = a)
    (hmem : ∀ p, prev = some p → p ∈ s.root) (hs : mergePrev s a prev = .ok s') :
    ∃ y : Span, y.bytes =
        bytesOf (insert (blockAt s.mem a) { c ∈ freeBlocks s | c.Touches (blockAt s.mem a) }) ∧
      freeBlocks s' = insert y
        { c ∈ freeBlocks s | c.start ≠ a ∧ ¬ c.Touches (blockAt s.mem a) } := by
  rcases mergePrev_cases hs with ⟨hno, i, -, rfl⟩ | ⟨p, i, hp, hadj, -, rfl⟩
  · have hnone : ∀ c ∈ freeBlocks s, ¬ c.Touches (blockAt s.mem a) := by
      intro c hc htouch
      obtain ⟨hn, hend⟩ := (hprev c hc).1 htouch
      obtain ⟨d, -, rfl⟩ := hc
      refine hno _ hn ?_
      simp only [blockAt] at hend ⊢
      omega
    refine ⟨blockAt s.mem a, ?_, ?_⟩
    · exact (bytesOf_insert_empty hnone).symm
    · have hblock : ∀ c, blockAt ((s.pushBack i a).setHeader a { s.mem a with free := true }).mem c =
          blockAt s.mem c := by
        intro c
        by_cases hca : c = a
        · rw [hca]
          simp only [Allocator.pushBack, Allocator.setHeader, blockAt, update_self]
        · simp only [Allocator.pushBack, Allocator.setHeader, blockAt]
          rw [update_of_ne hca]
      ext x
      constructor
      · rintro ⟨c, hc, rfl⟩
        rw [hblock]
        by_cases hca : c = a
        · rw [hca]
          exact Or.inl rfl
        · exact Or.inr ⟨⟨c, hc, rfl⟩, hca, hnone _ ⟨c, hc, rfl⟩⟩
      · rintro (rfl | ⟨⟨c, hc, rfl⟩, -⟩)
        · exact ⟨a, ha, hblock a⟩
        · exact ⟨c, hc, hblock c⟩
  · have hproot := hmem p hp
    have hpa : p ≠ a := by
      have : 0 < maSize := by decide
      omega
    -- the block that ends where `a` begins is `p`
    have htouch : ∀ c ∈ freeBlocks s, c.Touches (blockAt s.mem a) ↔ c.start = p := by
      intro c hc
      rw [hprev c hc, hp, Option.some_inj]
      refine ⟨fun hc => hc.1.symm, fun hcp => ⟨hcp.symm, ?_⟩⟩
      obtain ⟨d, -, rfl⟩ := hc
      obtain rfl : d = p := hcp
      simp only [blockAt]
      omega
    refine ⟨⟨p, (maSize + (s.mem p).len) + (maSize + (s.mem a).len)⟩, ?_, ?_⟩
    · rw [bytes_absorb hadj, bytesOf_insert_unique (blockAt_mem_freeBlocks hproot)
        ((htouch _ ⟨p, hproot, rfl⟩).2 rfl), Set.union_comm]
      intro c hc hct
      rw [eq_blockAt_of_mem hc, (htouch c hc).1 hct]
    · change freeBlocks (s.absorb p a p) = _
      rw [freeBlocks_absorb h.nodup hproot hpa]
      congr 1
      ext c
      refine ⟨fun hc => ⟨hc.1, hc.2.2, ?_⟩, fun hc => ⟨hc.1, ?_, hc.2.1⟩⟩
      · exact fun ht => hc.2.1 ((htouch c hc.1).1 ht)
      · exact fun hcp => hc.2.2 ((htouch c hc.1).2 hcp)

/-- **The free blocks after `free`.** -/
theorem freeBlocks_free (h : Ok s live regions ∅) (ht : s.touched = []) {b : ℕ × ℕ} (hb : b ∈ live)
    (hargs : ∀ l ∈ freeArgs (s.insertRoot b.1) b.1, ¬ 2 ^ 32 ∣ l)
    (hs : free s (b.1 + maSize) = .ok s') :
    freeBlocks s' = coalesce (freeBlocks s) (liveBlock b) := by
  obtain ⟨s₁, hs1, hs'⟩ := free_cases hs
  obtain ⟨h0, hq⟩ := insertRoot_ok h hb
  have ha : b.1 ∈ (s.insertRoot b.1).root := mem_insertEqual.2 (Or.inl rfl)
  have hc0 : Confined (live.filter fun c => c.1 ≠ b.1) (s.insertRoot b.1) :=
    ((h.confined ht).mono filter_sublist.subset).insertRoot hq
  obtain ⟨s₂, hs2, h1, ha1, -, -, hbefore⟩ := mergeNext_ok h0 ha hc0
    (fun n hn hadj => hargs _ (mem_freeArgs_of_next hn hadj))
  obtain rfl : s₂ = s₁ := Except.ok.inj (hs2.symm.trans hs1)
  obtain ⟨hbytes, hfree⟩ := freeBlocks_mergeNext h0 ha hs1
  -- the block in the tree, before anything is joined
  have hblock : blockAt (s.insertRoot b.1).mem b.1 = liveBlock b := by
    change (⟨b.1, maSize + (s.mem b.1).len⟩ : Span) = _
    rw [h.liveHeader b hb]
    rfl
  have hpos : 0 < (liveBlock b).len := Nat.add_pos_left (by decide) _
  have hne : ∀ c ∈ freeBlocks s, c.start ≠ b.1 := by
    rintro c ⟨d, hd, rfl⟩ hdb
    exact h.live_ne hd hb hdb.symm
  have hstart : (blockAt s₂.mem b.1).start = (liveBlock b).start := rfl
  rw [freeBlocks_insertRoot, show blockAt s.mem b.1 = liveBlock b from hblock, hblock] at hbytes hfree
  have hprev : ∀ x ∈ freeBlocks s₂, x.Touches (blockAt s₂.mem b.1) ↔
      prevOf b.1 (s.insertRoot b.1).root = some x.start ∧ x.start + x.len = b.1 := by
    intro x hx
    rw [hfree] at hx
    rcases hx with rfl | ⟨hx, -⟩
    · have hlen : 0 < (blockAt s₂.mem b.1).len := Nat.add_pos_left (by decide) _
      simp only [Span.Touches, hstart, liveBlock]
      constructor <;> intro <;> omega
    · have hx0 : x ∈ freeBlocks (s.insertRoot b.1) := by
        rw [freeBlocks_insertRoot, show blockAt s.mem b.1 = liveBlock b from hblock]
        exact hx
      exact h0.touches_prev ha hx0
  obtain ⟨y, hy, hfree'⟩ := freeBlocks_mergePrev h1 ha1 hprev
    (fun p hp => (hbefore p (prevOf_mem hp) (lt_of_prevOf h0.sorted hp)).1) hs'
  rw [hfree']
  exact coalesce_of_joins hpos (Nat.add_pos_left (by decide) _) hne hstart hbytes hfree hy

end Alloc

/-
**The heap invariant of the allocator.**

The free blocks, in the tree and in the chunk lists, and the live blocks, in the hands of the client,
do not overlap and lie in the supplied regions.  The operations move blocks between these places in
small steps: a block is put in the tree or taken out of it, is linked in a chunk list or unlinked,
grows over its neighbour, or changes hands.  In the middle of an operation a block can be in the
tree and in no chunk list; the invariant has a set `out` of such blocks as a parameter.

Main definitions: `Heap`, `Fresh`.  Main results: `Heap.join`, `Heap.take`, `Heap.release`.
-/

import SgxElps.Alloc.Basic
import Mathlib.Data.Set.Insert
import Mathlib.Data.List.Nodup

namespace Alloc

open Function (update update_of_ne update_self)
open Span
open List

/-! ### Buckets -/

theorem log2_mod_lt {len : ℕ} (h : len % 2 ^ 32 ≠ 0) : Nat.log2 (len % 2 ^ 32) < 32 :=
  (Nat.log2_lt h).2 (Nat.mod_lt _ (by decide))

/-- The bucket is one less than the logarithm of the low 32 bits. -/
theorem sizeToBucket_eq {len : ℕ} (h : len % 2 ^ 32 ≠ 0) :
    sizeToBucket len = .ok (Nat.log2 (len % 2 ^ 32) - 1) := by
  have hlt := log2_mod_lt h
  rw [sizeToBucket, myLog2, builtinClz, if_neg h]
  refine congrArg Except.ok ?_
  dsimp only
  split <;> omega

/-- A bucket is defined for every length that is not a multiple of `2 ^ 32`. -/
theorem sizeToBucket_ok {len : ℕ} (h : ¬ 2 ^ 32 ∣ len) :
    ∃ i < chunkListSize, sizeToBucket len = .ok i := by
  have hne : len % 2 ^ 32 ≠ 0 := fun h0 => h (Nat.dvd_of_mod_eq_zero h0)
  have hlt := log2_mod_lt hne
  exact ⟨_, by rw [chunkListSize]; omega, sizeToBucket_eq hne⟩

theorem sizeToBucket_error {len : ℕ} (h : 2 ^ 32 ∣ len) :
    sizeToBucket len = .error .undefinedClz := by
  rw [sizeToBucket, myLog2, builtinClz, if_pos (Nat.mod_eq_zero_of_dvd h)]
  rfl

/-! ### The sequence of the tree -/

section Sequence

variable {key : ℕ → ℕ} {a b : ℕ} {l : List ℕ}

theorem insertEqual_perm : (insertEqual key a l).Perm (a :: l) := by
  induction l with
  | nil => exact List.Perm.refl _
  | cons b l ih =>
    rw [insertEqual]
    split
    · exact List.Perm.refl _
    · exact (ih.cons b).trans (List.Perm.swap ..)

theorem mem_insertEqual {x : ℕ} : x ∈ insertEqual key a l ↔ x = a ∨ x ∈ l := by
  rw [insertEqual_perm.mem_iff, mem_cons]

theorem insertEqual_sorted (hkey : ∀ b ∈ a :: l, key b = b) (ha : a ∉ l)
    (hl : l.Pairwise (· < ·)) : (insertEqual key a l).Pairwise (· < ·) := by
  induction l with
  | nil => simp [insertEqual]
  | cons b l ih =>
    obtain ⟨hb, hl'⟩ := pairwise_cons.1 hl
    have hka : key a = a := hkey a (by simp)
    have hkb : key b = b := hkey b (by simp)
    have hab : a ≠ b := fun h => ha (h ▸ mem_cons_self)
    rw [insertEqual, hka, hkb]
    split
    · next hlt =>
      refine pairwise_cons.2 ⟨fun x hx => ?_, hl⟩
      rcases mem_cons.1 hx with rfl | hx
      · exact hlt
      · exact hlt.trans (hb x hx)
    · next hge =>
      have hal : a ∉ l := fun h => ha (mem_cons_of_mem _ h)
      have hkey' : ∀ x ∈ a :: l, key x = x := by
        intro x hx
        rcases mem_cons.1 hx with rfl | hx
        · exact hka
        · exact hkey x (by simp [hx])
      refine pairwise_cons.2 ⟨fun x hx => ?_, ih hkey' hal hl'⟩
      rcases mem_insertEqual.1 hx with rfl | hx
      · exact lt_of_le_of_ne (Nat.le_of_not_lt hge) hab.symm
      · exact hb x hx

theorem nextOf_mem (h : nextOf a l = some b) : b ∈ l := by
  induction l with
  | nil => cases h
  | cons c l ih =>
    rw [nextOf] at h
    split at h
    · exact mem_cons_of_mem _ (mem_of_mem_head? h)
    · exact mem_cons_of_mem _ (ih h)

theorem prevOf_mem (h : prevOf a l = some b) : b ∈ l := by
  induction l with
  | nil => cases h
  | cons c l ih =>
    cases l with
    | nil => cases h
    | cons d l =>
      rw [prevOf] at h
      split at h
      · rw [Option.some_inj] at h
        exact h ▸ mem_cons_self
      · exact mem_cons_of_mem _ (ih h)

/-- In an ordered sequence the successor is greater … -/
theorem lt_of_nextOf (hl : l.Pairwise (· < ·)) (h : nextOf a l = some b) : a < b := by
  induction l with
  | nil => cases h
  | cons c l ih =>
    obtain ⟨hc, hl⟩ := pairwise_cons.1 hl
    rw [nextOf] at h
    split at h
    · next hca => exact hca ▸ hc b (mem_of_mem_head? h)
    · exact ih hl h

/-- … and the predecessor smaller. -/
theorem lt_of_prevOf (hl : l.Pairwise (· < ·)) (h : prevOf a l = some b) : b < a := by
  induction l with
  | nil => cases h
  | cons c l ih =>
    cases l with
    | nil => cases h
    | cons d l =>
      obtain ⟨hc, hl⟩ := pairwise_cons.1 hl
      rw [prevOf] at h
      split at h
      · next hda =>
        rw [Option.some_inj] at h
        exact h ▸ hc a (hda ▸ mem_cons_self)
      · exact ih hl h

theorem exists_nextOf_le {x : ℕ} (hl : l.Pairwise (· < ·)) (ha : a ∈ l) (hx : x ∈ l) (hax : a < x) :
    ∃ b, nextOf a l = some b ∧ b ≤ x := by
  induction l with
  | nil => cases ha
  | cons c l ih =>
    obtain ⟨hc, hl⟩ := pairwise_cons.1 hl
    rw [nextOf]
    by_cases hca : c = a
    · have hxl : x ∈ l := (mem_cons.1 hx).resolve_left (by omega)
      rw [if_pos hca]
      cases l with
      | nil => cases hxl
      | cons d l =>
        refine ⟨d, rfl, ?_⟩
        rcases mem_cons.1 hxl with rfl | hxl
        · exact le_refl _
        · exact ((pairwise_cons.1 hl).1 x hxl).le
    · have hal : a ∈ l := (mem_cons.1 ha).resolve_left (Ne.symm hca)
      have hca' := hc a hal
      rw [if_neg hca]
      exact ih hl hal ((mem_cons.1 hx).resolve_left (by omega))

theorem exists_le_prevOf {x : ℕ} (hl : l.Pairwise (· < ·)) (ha : a ∈ l) (hx : x ∈ l) (hxa : x < a) :
    ∃ b, prevOf a l = some b ∧ x ≤ b := by
  induction l generalizing x with
  | nil => cases ha
  | cons c l ih =>
    obtain ⟨hc, hl1⟩ := pairwise_cons.1 hl
    have hca : c < a := by
      rcases mem_cons.1 hx with rfl | hxl
      · exact hxa
      · exact (hc x hxl).trans hxa
    have hal : a ∈ l := (mem_cons.1 ha).resolve_left (by omega)
    cases l with
    | nil => cases hal
    | cons d l =>
      rw [prevOf]
      by_cases hda : d = a
      · rw [if_pos hda]
        refine ⟨c, rfl, ?_⟩
        rcases mem_cons.1 hx with rfl | hxl
        · exact le_refl _
        · rcases mem_cons.1 hxl with rfl | hxl
          · omega
          · have := (pairwise_cons.1 hl1).1 x hxl
            omega
      · have hdlt : d < a := (pairwise_cons.1 hl1).1 a
          ((mem_cons.1 hal).resolve_left (Ne.symm hda))
        rw [if_neg hda]
        rcases mem_cons.1 hx with rfl | hxl
        · obtain ⟨b, hb, hdb⟩ := ih hl1 hal mem_cons_self hdlt
          exact ⟨b, hb, (hc d mem_cons_self).le.trans hdb⟩
        · exact ih hl1 hal hxl hxa

end Sequence

/-! ### The invariant -/

/-- The ranges of all blocks, free and live. -/
def blocks (mem : ℕ → MemoryArea) (root : List ℕ) (live : List (ℕ × ℕ)) : List Span :=
  root.map (blockAt mem) ++ live.map liveBlock

/-- **The heap invariant.**  The blocks `out` are in the tree and in no chunk list. -/
structure Heap (mem : ℕ → MemoryArea) (root : List ℕ) (chunkList : ℕ → List ℕ)
    (live : List (ℕ × ℕ)) (regions : List Span) (out : Set ℕ) : Prop where
  separated : Span.Separated (blocks mem root live)
  inside : ∀ b ∈ blocks mem root live, b.bytes ⊆ covered regions
  liveHeader : ∀ b ∈ live, mem b.1 = ⟨b.2, false, b.1, 0xbeefbeef⟩
  memBase : ∀ a ∈ root, (mem a).memBase = a
  canary : ∀ a ∈ root, (mem a).canary = 0xbeefbeef
  free : ∀ a ∈ root, a ∉ out → (mem a).free = true
  sorted : root.Pairwise (· < ·)
  chunk_lt : ∀ {i a}, a ∈ chunkList i → i < chunkListSize
  chunk_mem : ∀ {i a}, a ∈ chunkList i → a ∈ root ∧ a ∉ out
  chunk_nodup : ∀ i, (chunkList i).Nodup
  chunk_unique : ∀ {i j a}, a ∈ chunkList i → a ∈ chunkList j → i = j
  chunk_exists : ∀ a ∈ root, a ∉ out → ∃ i, a ∈ chunkList i

namespace Heap

variable {mem : ℕ → MemoryArea} {root : List ℕ} {chunkList : ℕ → List ℕ}
  {live : List (ℕ × ℕ)} {regions : List Span} {out : Set ℕ} {a b : ℕ}

/-- The span overlaps no block and lies in the regions. -/
def Fresh (mem : ℕ → MemoryArea) (root : List ℕ) (live : List (ℕ × ℕ))
    (regions : List Span) (x : Span) : Prop :=
  (∀ b ∈ blocks mem root live, Disjoint x.bytes b.bytes) ∧ x.bytes ⊆ covered regions

theorem nodup (h : Heap mem root chunkList live regions out) : root.Nodup :=
  h.sorted.imp fun hlt => Nat.ne_of_lt hlt

theorem mem_blocks_of_root (ha : a ∈ root) : blockAt mem a ∈ blocks mem root live :=
  mem_append_left _ (mem_map_of_mem ha)

theorem mem_blocks_of_live {b : ℕ × ℕ} (hb : b ∈ live) : liveBlock b ∈ blocks mem root live :=
  mem_append_right _ (mem_map_of_mem hb)

/-- No block is both free and live. -/
theorem live_ne (h : Heap mem root chunkList live regions out) (ha : a ∈ root) {b : ℕ × ℕ}
    (hb : b ∈ live) : b.1 ≠ a := by
  have hd := (pairwise_append.1 h.separated).2.2 _ (mem_map_of_mem ha) _
    (mem_map_of_mem hb)
  exact (start_ne hd (Nat.add_pos_left (by decide) _) (Nat.add_pos_left (by decide) _)).symm

theorem Fresh.not_mem_root {x : Span} (hx : Fresh mem root live regions x) (hpos : 0 < x.len) :
    x.start ∉ root := by
  intro hmem
  have hd := hx.1 _ (mem_blocks_of_root hmem)
  exact start_ne hd hpos (Nat.add_pos_left (by decide) _) rfl

theorem Fresh.live_ne {x : Span} (hx : Fresh mem root live regions x) (hpos : 0 < x.len)
    {b : ℕ × ℕ} (hb : b ∈ live) : b.1 ≠ x.start := by
  have hd := hx.1 _ (mem_blocks_of_live hb)
  exact (start_ne hd hpos (Nat.add_pos_left (by decide) _)).symm

theorem Fresh.of_subset {x y : Span} (hx : Fresh mem root live regions x)
    (hyx : y.bytes ⊆ x.bytes) : Fresh mem root live regions y := by
  exact ⟨fun b hb => (hx.1 b hb).mono_left hyx, hyx.trans hx.2⟩

/-- The header of a block that is not in the list does not matter. -/
theorem map_blockAt_update {l : List ℕ} (ha : a ∉ l) (ma : MemoryArea) :
    l.map (blockAt (update mem a ma)) = l.map (blockAt mem) := by
  refine map_congr_left fun b hb => ?_
  have hne : b ≠ a := fun h => ha (h ▸ hb)
  rw [blockAt, blockAt, update_of_ne hne]

/-! ### The small steps -/

section

variable (h : Heap mem root chunkList live regions out)

include h

/-- `root.insert_equal` of a block with a new header in fresh memory. -/
theorem insert {ma : MemoryArea}
    (hx : Fresh mem root live regions ⟨a, maSize + ma.len⟩) (hbase : ma.memBase = a)
    (hcanary : ma.canary = 0xbeefbeef) :
    Heap (update mem a ma)
      (insertEqual (fun b => (update mem a ma b).memBase) a root) chunkList live regions
      (Insert.insert a out) := by
  have hpos : 0 < maSize + ma.len := Nat.add_pos_left (by decide) _
  have hroot : a ∉ root := hx.not_mem_root hpos
  have hlive : ∀ b ∈ live, b.1 ≠ a := fun b hb => hx.live_ne hpos hb
  have hblock : blockAt (update mem a ma) a = ⟨a, maSize + ma.len⟩ := by
    rw [blockAt, update_self]
  have hperm : (blocks (update mem a ma)
      (insertEqual (fun b => (update mem a ma b).memBase) a root) live).Perm
      (⟨a, maSize + ma.len⟩ :: blocks mem root live) := by
    have hins : (insertEqual (fun b => (update mem a ma b).memBase) a root).Perm
        (a :: root) := insertEqual_perm
    have hmap := hins.map (blockAt (update mem a ma))
    rw [map_cons, hblock, map_blockAt_update hroot] at hmap
    exact hmap.append_right _
  have hother : ∀ b ∈ root, update mem a ma b = mem b := fun b hb =>
    update_of_ne (show b ≠ a from fun hba => hroot (hba ▸ hb)) ..
  constructor
  case separated => exact (Separated.cons_iff.2 ⟨hx.1, h.separated⟩).perm hperm.symm
  case inside =>
    intro b hb
    rcases mem_cons.1 (hperm.mem_iff.1 hb) with rfl | hb
    · exact hx.2
    · exact h.inside b hb
  case liveHeader =>
    intro b hb
    rw [update_of_ne (hlive b hb)]
    exact h.liveHeader b hb
  case memBase =>
    intro b hb
    rcases mem_insertEqual.1 hb with rfl | hb
    · rw [update_self]
      exact hbase
    · rw [hother b hb]
      exact h.memBase b hb
  case canary =>
    intro b hb
    rcases mem_insertEqual.1 hb with rfl | hb
    · rw [update_self]
      exact hcanary
    · rw [hother b hb]
      exact h.canary b hb
  case free =>
    intro b hb hout
    rw [Set.mem_insert_iff, not_or] at hout
    have hb := (mem_insertEqual.1 hb).resolve_left hout.1
    rw [hother b hb]
    exact h.free b hb hout.2
  case sorted =>
    refine insertEqual_sorted (fun b hb => ?_) hroot h.sorted
    rcases mem_cons.1 hb with rfl | hb
    · rw [update_self]
      exact hbase
    · rw [hother b hb]
      exact h.memBase b hb
  case chunk_lt => exact h.chunk_lt
  case chunk_mem =>
    intro i b hb
    obtain ⟨hbr, hbo⟩ := h.chunk_mem hb
    refine ⟨mem_insertEqual.2 (Or.inr hbr), ?_⟩
    rw [Set.mem_insert_iff, not_or]
    exact ⟨fun hba => hroot (hba ▸ hbr), hbo⟩
  case chunk_nodup => exact h.chunk_nodup
  case chunk_unique => exact h.chunk_unique
  case chunk_exists =>
    intro b hb hout
    rw [Set.mem_insert_iff, not_or] at hout
    exact h.chunk_exists b ((mem_insertEqual.1 hb).resolve_left hout.1) hout.2

/-- `push_back` of a block that was in no chunk list. -/
theorem link {i : ℕ} (hi : i < chunkListSize)
    (ha : a ∈ root) (hout : a ∈ out) (hfree : (mem a).free = true) :
    Heap mem root (update chunkList i (chunkList i ++ [a])) live regions (out \ {a}) := by
  have hnot : ∀ j, a ∉ chunkList j := fun j hj => (h.chunk_mem hj).2 hout
  have hmem : ∀ {j b}, b ∈ update chunkList i (chunkList i ++ [a]) j ↔
      b ∈ chunkList j ∨ (j = i ∧ b = a) := by
    intro j b
    by_cases hj : j = i
    · rw [hj, update_self]
      simp
    · rw [update_of_ne hj]
      simp [hj]
  refine { h with
      free := ?free, chunk_lt := ?chunk_lt, chunk_mem := ?chunk_mem, chunk_nodup := ?chunk_nodup
      chunk_unique := ?chunk_unique, chunk_exists := ?chunk_exists }
  case free =>
    intro b hb hbo
    by_cases hba : b = a
    · rw [hba]
      exact hfree
    · exact h.free b hb fun hb' => hbo ⟨hb', hba⟩
  case chunk_lt =>
    intro j b hb
    rcases hmem.1 hb with hb | ⟨rfl, -⟩
    · exact h.chunk_lt hb
    · exact hi
  case chunk_mem =>
    intro j b hb
    rcases hmem.1 hb with hb | ⟨-, rfl⟩
    · exact ⟨(h.chunk_mem hb).1, fun hbo => (h.chunk_mem hb).2 hbo.1⟩
    · exact ⟨ha, fun hbo => hbo.2 rfl⟩
  case chunk_nodup =>
    intro j
    by_cases hj : j = i
    · rw [hj, update_self, nodup_append]
      refine ⟨h.chunk_nodup i, by simp, ?_⟩
      intro x hx y hy hxy
      rw [mem_singleton] at hy
      exact hnot i (hy ▸ hxy ▸ hx)
    · rw [update_of_ne hj]
      exact h.chunk_nodup j
  case chunk_unique =>
    intro j k b hj hk
    rcases hmem.1 hj with hj | ⟨hji, hba⟩
    · rcases hmem.1 hk with hk | ⟨-, hba⟩
      · exact h.chunk_unique hj hk
      · exact absurd (hba ▸ hj) (hnot j)
    · rcases hmem.1 hk with hk | ⟨hki, -⟩
      · exact absurd (hba ▸ hk) (hnot k)
      · rw [hji, hki]
  case chunk_exists =>
    intro b hb hbo
    by_cases hba : b = a
    · exact ⟨i, hmem.2 (Or.inr ⟨rfl, hba⟩)⟩
    · obtain ⟨j, hj⟩ := h.chunk_exists b hb fun hb' => hbo ⟨hb', hba⟩
      exact ⟨j, hmem.2 (Or.inl hj)⟩

/-- `erase` on a chunk list. -/
theorem unlink :
    Heap mem root (fun i => (chunkList i).erase a) live regions (Insert.insert a out) := by
  have hmem : ∀ {i b}, b ∈ (chunkList i).erase a ↔ b ∈ chunkList i ∧ b ≠ a := by
    intro i b
    rw [(h.chunk_nodup i).mem_erase_iff, and_comm]
  refine { h with
      free := ?free, chunk_lt := ?chunk_lt, chunk_mem := ?chunk_mem, chunk_nodup := ?chunk_nodup
      chunk_unique := ?chunk_unique, chunk_exists := ?chunk_exists }
  case free => exact fun b hb hbo => h.free b hb fun hb' => hbo (Set.mem_insert_of_mem _ hb')
  case chunk_lt => exact fun hb => h.chunk_lt (hmem.1 hb).1
  case chunk_mem =>
    intro i b hb
    obtain ⟨hb, hba⟩ := hmem.1 hb
    refine ⟨(h.chunk_mem hb).1, ?_⟩
    rw [Set.mem_insert_iff, not_or]
    exact ⟨hba, (h.chunk_mem hb).2⟩
  case chunk_nodup => exact fun i => (h.chunk_nodup i).erase a
  case chunk_unique => exact fun hi hj => h.chunk_unique (hmem.1 hi).1 (hmem.1 hj).1
  case chunk_exists =>
    intro b hb hbo
    rw [Set.mem_insert_iff, not_or] at hbo
    obtain ⟨i, hi⟩ := h.chunk_exists b hb hbo.2
    exact ⟨i, hmem.2 ⟨hi, hbo.1⟩⟩

/-- A block grows over its neighbour, which leaves the tree. -/
theorem join (ha : a ∈ root) (hb : b ∈ root)
    (hbo : b ∈ out) (hab : a + maSize + (mem a).len = b) :
    Heap (update mem a { mem a with len := (mem a).len + (maSize + (mem b).len) })
      (root.erase b) chunkList live regions (out \ {b}) := by
  have hne : a ≠ b := by
    have : 0 < maSize := by decide
    omega
  have hmem : ∀ {x}, x ∈ root.erase b ↔ x ∈ root ∧ x ≠ b := by
    intro x
    rw [h.nodup.mem_erase_iff, and_comm]
  have hrest : a ∉ (root.erase b).erase a := (h.nodup.erase b).not_mem_erase
  -- both neighbours, and the block that replaces them, in front of the other blocks
  have hperm : (blocks mem root live).Perm (blockAt mem a :: blockAt mem b ::
      (((root.erase b).erase a).map (blockAt mem) ++ live.map liveBlock)) := by
    have h1 : root.Perm (b :: root.erase b) := perm_cons_erase hb
    have h2 : (root.erase b).Perm (a :: (root.erase b).erase a) :=
      perm_cons_erase (hmem.2 ⟨ha, hne⟩)
    exact ((h1.trans ((h2.cons b).trans (List.Perm.swap ..))).map (blockAt mem)).append_right _
  have hperm' : (blocks (update mem a
      { mem a with len := (mem a).len + (maSize + (mem b).len) }) (root.erase b) live).Perm
      (⟨a, (maSize + (mem a).len) + (maSize + (mem b).len)⟩ ::
        (((root.erase b).erase a).map (blockAt mem) ++ live.map liveBlock)) := by
    have h2 : (root.erase b).Perm (a :: (root.erase b).erase a) :=
      perm_cons_erase (hmem.2 ⟨ha, hne⟩)
    have h3 := (h2.map (blockAt (update mem a
      { mem a with len := (mem a).len + (maSize + (mem b).len) }))).append_right
        (live.map liveBlock)
    rw [map_cons, map_blockAt_update hrest, blockAt, update_self] at h3
    rw [Nat.add_assoc maSize]
    exact h3
  have hstop : (blockAt mem a).start + (blockAt mem a).len = (blockAt mem b).start := by
    simp only [blockAt]
    omega
  have hother : ∀ x, x ≠ a → update mem a
      { mem a with len := (mem a).len + (maSize + (mem b).len) } x = mem x := fun x hx =>
    update_of_ne hx ..
  refine { h with
      separated := ?separated, inside := ?inside, liveHeader := ?liveHeader, memBase := ?memBase
      canary := ?canary, free := ?free, sorted := ?sorted, chunk_mem := ?chunk_mem
      chunk_exists := ?chunk_exists }
  case separated => exact ((h.separated.perm hperm).join hstop).perm hperm'.symm
  case inside =>
    intro x hx
    rcases mem_cons.1 (hperm'.mem_iff.1 hx) with rfl | hx
    · have hjoin := bytes_join hstop
      simp only [blockAt] at hjoin
      rw [hjoin, Set.union_subset_iff]
      exact ⟨h.inside _ (mem_blocks_of_root ha), h.inside _ (mem_blocks_of_root hb)⟩
    · exact h.inside x (hperm.mem_iff.2 (mem_cons_of_mem _ (mem_cons_of_mem _ hx)))
  case liveHeader =>
    intro x hx
    rw [hother _ (h.live_ne ha hx)]
    exact h.liveHeader x hx
  case memBase =>
    intro x hx
    by_cases hxa : x = a
    · rw [hxa, update_self]
      exact h.memBase a ha
    · rw [hother x hxa]
      exact h.memBase x (hmem.1 hx).1
  case canary =>
    intro x hx
    by_cases hxa : x = a
    · rw [hxa, update_self]
      exact h.canary a ha
    · rw [hother x hxa]
      exact h.canary x (hmem.1 hx).1
  case free =>
    intro x hx hxo
    have hxb : x ∉ out := fun hx' => hxo ⟨hx', (hmem.1 hx).2⟩
    by_cases hxa : x = a
    · rw [hxa, update_self]
      exact h.free a ha (hxa ▸ hxb)
    · rw [hother x hxa]
      exact h.free x (hmem.1 hx).1 hxb
  case sorted => exact h.sorted.sublist erase_sublist
  case chunk_mem =>
    intro i x hx
    obtain ⟨hxr, hxo⟩ := h.chunk_mem hx
    exact ⟨hmem.2 ⟨hxr, fun hxb => hxo (hxb ▸ hbo)⟩, fun hx' => hxo hx'.1⟩
  case chunk_exists =>
    intro x hx hxo
    exact h.chunk_exists x (hmem.1 hx).1 fun hx' => hxo ⟨hx', (hmem.1 hx).2⟩

/-- A free block changes hands.  The bytes after its first `len` are fresh. -/
theorem take (ha : a ∈ root) (hout : a ∈ out)
    {len : ℕ} (hlen : len ≤ (mem a).len) :
    Heap (update mem a { mem a with free := false, len := len }) (root.erase a) chunkList
        ((a, len) :: live) regions (out \ {a}) ∧
      Fresh (update mem a { mem a with free := false, len := len }) (root.erase a)
        ((a, len) :: live) regions ⟨a + maSize + len, (mem a).len - len⟩ := by
  have hmem : ∀ {x}, x ∈ root.erase a ↔ x ∈ root ∧ x ≠ a := by
    intro x
    rw [h.nodup.mem_erase_iff, and_comm]
  have hrest : a ∉ root.erase a := h.nodup.not_mem_erase
  have hperm : (blocks mem root live).Perm (blockAt mem a :: blocks mem (root.erase a) live) :=
    ((perm_cons_erase ha).map (blockAt mem)).append_right _
  have hblocks : ∀ ma, blocks (update mem a ma) (root.erase a) ((a, len) :: live) =
      (root.erase a).map (blockAt mem) ++ liveBlock (a, len) :: live.map liveBlock := by
    intro ma
    rw [blocks, map_blockAt_update hrest, map_cons]
  have hperm' : ∀ ma, (blocks (update mem a ma) (root.erase a) ((a, len) :: live)).Perm
      (liveBlock (a, len) :: blocks mem (root.erase a) live) := by
    intro ma
    rw [hblocks]
    exact perm_middle
  -- the used part and the rest, as parts of the old block
  have hused : (liveBlock (a, len)).bytes ⊆ (blockAt mem a).bytes :=
    bytes_subset (le_refl _) (by simp only [liveBlock, blockAt]; omega)
  have hleft : (⟨a + maSize + len, (mem a).len - len⟩ : Span).bytes ⊆ (blockAt mem a).bytes :=
    bytes_subset (by simp only [blockAt]; omega) (by simp only [blockAt]; omega)
  have hsep : Separated ([liveBlock (a, len), ⟨a + maSize + len, (mem a).len - len⟩] ++
      blocks mem (root.erase a) live) := by
    refine (h.separated.perm hperm).replace ?_ ?_
    · refine Separated.cons_iff.2 ⟨fun c hc => ?_, pairwise_singleton ..⟩
      rw [mem_singleton.1 hc]
      exact disjoint_bytes (by simp only [liveBlock]; omega)
    · intro c hc
      rcases mem_cons.1 hc with rfl | hc
      · exact hused
      · rw [mem_singleton.1 hc]
        exact hleft
  obtain ⟨hsep1, hsep2⟩ := Separated.cons_iff.1 hsep
  obtain ⟨hsep3, hsep4⟩ := Separated.cons_iff.1 hsep2
  refine ⟨?_, ?_, ?_⟩
  · refine { h with
        separated := ?separated, inside := ?inside, liveHeader := ?liveHeader
        memBase := ?memBase, canary := ?canary, free := ?free, sorted := ?sorted
        chunk_mem := ?chunk_mem, chunk_exists := ?chunk_exists }
    case separated =>
      refine Separated.perm ?_ (hperm' _).symm
      exact Separated.cons_iff.2
        ⟨fun c hc => hsep1 c (mem_cons_of_mem _ hc), hsep4⟩
    case inside =>
      intro x hx
      rcases mem_cons.1 ((hperm' _).mem_iff.1 hx) with rfl | hx
      · exact hused.trans (h.inside _ (mem_blocks_of_root ha))
      · exact h.inside x (hperm.mem_iff.2 (mem_cons_of_mem _ hx))
    case liveHeader =>
      intro x hx
      rcases mem_cons.1 hx with rfl | hx
      · rw [update_self]
        simp only [h.memBase a ha, h.canary a ha]
      · rw [update_of_ne (h.live_ne ha hx)]
        exact h.liveHeader x hx
    case memBase =>
      intro x hx
      rw [update_of_ne (hmem.1 hx).2]
      exact h.memBase x (hmem.1 hx).1
    case canary =>
      intro x hx
      rw [update_of_ne (hmem.1 hx).2]
      exact h.canary x (hmem.1 hx).1
    case free =>
      intro x hx hxo
      rw [update_of_ne (hmem.1 hx).2]
      exact h.free x (hmem.1 hx).1 fun hx' => hxo ⟨hx', (hmem.1 hx).2⟩
    case sorted => exact h.sorted.sublist erase_sublist
    case chunk_mem =>
      intro i x hx
      obtain ⟨hxr, hxo⟩ := h.chunk_mem hx
      exact ⟨hmem.2 ⟨hxr, fun hxa => hxo (hxa ▸ hout)⟩, fun hx' => hxo hx'.1⟩
    case chunk_exists =>
      intro x hx hxo
      exact h.chunk_exists x (hmem.1 hx).1 fun hx' => hxo ⟨hx', (hmem.1 hx).2⟩
  · intro x hx
    rcases mem_cons.1 ((hperm' _).mem_iff.1 hx) with rfl | hx
    · exact (hsep1 _ mem_cons_self).symm
    · exact hsep3 x hx
  · exact hleft.trans (h.inside _ (mem_blocks_of_root ha))

theorem release {b : ℕ × ℕ} (hb : b ∈ live) :
    Heap mem root chunkList (live.filter fun c => c.1 ≠ b.1) regions out ∧
      Fresh mem root (live.filter fun c => c.1 ≠ b.1) regions (liveBlock b) := by
  have hsub : (live.filter fun c => c.1 ≠ b.1).Sublist live := filter_sublist
  have hblocks : (blocks mem root (live.filter fun c => c.1 ≠ b.1)).Sublist (blocks mem root live) :=
    (hsub.map liveBlock).append_left _
  refine ⟨?_, ?_, h.inside _ (mem_blocks_of_live hb)⟩
  · refine { h with separated := ?separated, inside := ?inside, liveHeader := ?liveHeader }
    case separated => exact h.separated.sublist hblocks
    case inside => exact fun x hx => h.inside x (hblocks.subset hx)
    case liveHeader => exact fun x hx => h.liveHeader x (hsub.subset hx)
  · intro x hx
    -- the block is one of the old ones, and `x` is another one
    have hperm : (blocks mem root live).Perm
        (liveBlock b :: (root.map (blockAt mem) ++ (live.erase b).map liveBlock)) := by
      have h1 := (perm_cons_erase hb).map liveBlock
      exact (h1.append_left _).trans perm_middle
    have hd := (Separated.cons_iff.1 (h.separated.perm hperm)).1
    refine hd x ?_
    rcases mem_append.1 hx with hx | hx
    · exact mem_append_left _ hx
    · obtain ⟨c, hc, rfl⟩ := mem_map.1 hx
      obtain ⟨hc, hcb⟩ := mem_filter.1 hc
      have hcb : c ≠ b := fun heq => by simp [heq] at hcb
      exact mem_append_right _ (mem_map_of_mem ((mem_erase_of_ne hcb).2 hc))

end

/-- One more block in the hands of the client: its header is in order and its bytes are fresh. -/
theorem live_cons_iff {b : ℕ × ℕ} :
    Heap mem root chunkList (b :: live) regions out ↔
      Heap mem root chunkList live regions out ∧ mem b.1 = ⟨b.2, false, b.1, 0xbeefbeef⟩ ∧
        Fresh mem root live regions (liveBlock b) := by
  have hperm : (blocks mem root (b :: live)).Perm (liveBlock b :: blocks mem root live) :=
    perm_middle
  constructor
  · intro h
    obtain ⟨hb, hsep⟩ := Separated.cons_iff.1 (h.separated.perm hperm)
    refine ⟨?_, h.liveHeader b mem_cons_self, hb, ?_⟩
    · refine { h with separated := hsep, inside := ?inside, liveHeader := ?liveHeader }
      case inside => exact fun x hx => h.inside x (hperm.mem_iff.2 (mem_cons_of_mem _ hx))
      case liveHeader => exact fun x hx => h.liveHeader x (mem_cons_of_mem _ hx)
    · exact h.inside _ (mem_blocks_of_live mem_cons_self)
  · rintro ⟨h, hheader, hfresh⟩
    refine { h with separated := ?separated, inside := ?inside, liveHeader := ?liveHeader }
    case separated => exact (Separated.cons_iff.2 ⟨hfresh.1, h.separated⟩).perm hperm.symm
    case inside =>
      intro x hx
      rcases mem_cons.1 (hperm.mem_iff.1 hx) with rfl | hx
      · exact hfresh.2
      · exact h.inside x hx
    case liveHeader =>
      intro x hx
      rcases mem_cons.1 hx with rfl | hx
      · exact hheader
      · exact h.liveHeader x hx

theorem mono_regions (h : Heap mem root chunkList live regions out) {regions' : List Span}
    (hsub : ∀ r ∈ regions, r ∈ regions') : Heap mem root chunkList live regions' out :=
  { h with
    inside := by
      intro b hb x hx
      obtain ⟨r, hr, hxr⟩ := h.inside b hb hx
      exact ⟨r, hsub r hr, hxr⟩ }

theorem setFree (h : Heap mem root chunkList live regions out) (ha : a ∈ root) :
    Heap (update mem a { mem a with free := true }) root chunkList live regions out := by
  have hblock : blockAt (update mem a { mem a with free := true }) = blockAt mem := by
    funext x
    by_cases hxa : x = a
    · rw [hxa, blockAt, update_self]
      rfl
    · rw [blockAt, update_of_ne hxa]
      rfl
  have hfield : ∀ x, (update mem a { mem a with free := true } x).memBase =
      (mem x).memBase ∧ (update mem a { mem a with free := true } x).canary =
      (mem x).canary ∧ ((mem x).free = true →
        (update mem a { mem a with free := true } x).free = true) := by
    intro x
    by_cases hxa : x = a
    · rw [hxa, update_self]
      exact ⟨rfl, rfl, fun _ => rfl⟩
    · rw [update_of_ne hxa]
      exact ⟨rfl, rfl, id⟩
  refine { h with
      separated := ?separated, inside := ?inside, liveHeader := ?liveHeader, memBase := ?memBase
      canary := ?canary, free := ?free }
  case separated =>
    rw [blocks, hblock]
    exact h.separated
  case inside =>
    rw [blocks, hblock]
    exact h.inside
  case liveHeader =>
    intro x hx
    rw [update_of_ne (h.live_ne ha hx)]
    exact h.liveHeader x hx
  case memBase =>
    intro x hx
    rw [(hfield x).1]
    exact h.memBase x hx
  case canary =>
    intro x hx
    rw [(hfield x).2.1]
    exact h.canary x hx
  case free => exact fun x hx hxo => (hfield x).2.2 (h.free x hx hxo)

end Heap

end Alloc

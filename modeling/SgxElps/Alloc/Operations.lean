/-
**The operations of the allocator keep the heap invariant.**

Each operation is followed through its stages, with the small steps of `Alloc/Invariant.lean`.  An
operation succeeds if and only if none of the lengths it passes to `sizeToBucket` is a multiple of
`2 ^ 32`; the assertions and the trap of `free` are never reached.  The second thing that is followed
is which headers are written to: only headers that overlap none of the client's other blocks
(`Alloc.Confined`).

Main definitions: `Ok`, `Confined`.  Main results: `malloc_ok`, `free_ok`, `expandHeap_ok`.
-/

import SgxElps.Alloc.Invariant

namespace Alloc

open Function (update update_eq_self update_of_ne update_self)
open List
open Span

variable {s s' : Allocator} {live live' : List (ℕ × ℕ)} {regions : List Span} {a : ℕ} {out : Set ℕ}

/-- The heap invariant of an allocator. -/
def Ok (s : Allocator) (live : List (ℕ × ℕ)) (regions : List Span) (out : Set ℕ) : Prop :=
  Heap s.mem s.root s.chunkList live regions out

/-! ### What is written to -/

/-- A header at `t` overlaps none of the blocks. -/
def Quiet (live : List (ℕ × ℕ)) (t : ℕ) : Prop :=
  ∀ b ∈ live, Disjoint (bytes ⟨t, maSize⟩) (liveBlock b).bytes

/-- The headers written to so far, and those an operation may still reach, overlap none of the
blocks. -/
structure Confined (live : List (ℕ × ℕ)) (s : Allocator) : Prop where
  touched : ∀ t ∈ s.touched, Quiet live t
  root : ∀ t ∈ s.root, Quiet live t
  chunkList : ∀ i, ∀ t ∈ s.chunkList i, Quiet live t

theorem Quiet.of_subset {x : Span} (hx : ∀ b ∈ live, Disjoint x.bytes (liveBlock b).bytes)
    (ha : bytes ⟨a, maSize⟩ ⊆ x.bytes) : Quiet live a :=
  fun b hb => (hx b hb).mono_left ha

theorem header_subset (mem : ℕ → MemoryArea) (a : ℕ) :
    bytes ⟨a, maSize⟩ ⊆ (blockAt mem a).bytes :=
  bytes_subset (le_refl _) (by simp only [blockAt]; omega)

theorem Heap.quiet {mem : ℕ → MemoryArea} {root : List ℕ} {chunkList : ℕ → List ℕ}
    (h : Heap mem root chunkList live regions out) (ha : a ∈ root) : Quiet live a := by
  refine Quiet.of_subset (fun b hb => ?_) (header_subset mem a)
  exact (pairwise_append.1 h.separated).2.2 _ (mem_map_of_mem ha) _
    (mem_map_of_mem hb)

theorem Ok.confined (h : Ok s live regions out) (ht : s.touched = []) : Confined live s where
  touched t hmem := by
    rw [ht] at hmem
    exact absurd hmem not_mem_nil
  root _ hmem := h.quiet hmem
  chunkList _ _ hmem := h.quiet (h.chunk_mem hmem).1

namespace Confined

section

variable (h : Confined live s)

include h

theorem mono (hsub : live' ⊆ live) : Confined live' s where
  touched t hmem b hb := h.touched t hmem b (hsub hb)
  root t hmem b hb := h.root t hmem b (hsub hb)
  chunkList i t hmem b hb := h.chunkList i t hmem b (hsub hb)

theorem setHeader (ha : Quiet live a) (ma : MemoryArea) :
    Confined live (s.setHeader a ma) where
  touched t hmem := by
    rcases mem_append.1 hmem with hmem | hmem
    · exact h.touched t hmem
    · rw [mem_singleton.1 hmem]
      exact ha
  root := h.root
  chunkList := h.chunkList

theorem insertRoot (ha : Quiet live a) : Confined live (s.insertRoot a) where
  touched t hmem := by
    rcases mem_append.1 hmem with hmem | hmem
    · exact h.touched t hmem
    · rcases mem_cons.1 hmem with rfl | hmem
      · exact ha
      · exact h.root t hmem
  root t hmem := by
    rcases mem_insertEqual.1 hmem with rfl | hmem
    · exact ha
    · exact h.root t hmem
  chunkList := h.chunkList

theorem eraseRoot : Confined live (s.eraseRoot a) where
  touched t hmem := by
    rcases mem_append.1 hmem with hmem | hmem
    · exact h.touched t hmem
    · exact h.root t hmem
  root t hmem := h.root t (mem_of_mem_erase hmem)
  chunkList := h.chunkList

theorem pushBack (ha : Quiet live a) (i : ℕ) :
    Confined live (s.pushBack i a) where
  touched t hmem := by
    rcases mem_append.1 hmem with hmem | hmem
    · exact h.touched t hmem
    · rcases mem_cons.1 hmem with rfl | hmem
      · exact ha
      · exact h.chunkList i t hmem
  root := h.root
  chunkList j t hmem := by
    simp only [Allocator.pushBack] at hmem
    by_cases hj : j = i
    · rw [hj, update_self, mem_append, mem_singleton] at hmem
      rcases hmem with hmem | rfl
      · exact h.chunkList i t hmem
      · exact ha
    · rw [update_of_ne hj] at hmem
      exact h.chunkList j t hmem

theorem unlink : Confined live (s.unlink a) where
  touched t hmem := by
    rcases mem_append.1 hmem with hmem | hmem
    · exact h.touched t hmem
    · obtain ⟨i, -, hi⟩ := mem_flatMap.1 hmem
      split at hi
      · exact h.chunkList i t hi
      · exact absurd hi not_mem_nil
  root := h.root
  chunkList i t hmem := h.chunkList i t (mem_of_mem_erase hmem)

end

end Confined

/-! ### `malloc` -/

theorem findChunk_mem {mem : ℕ → MemoryArea} {chunkList : ℕ → List ℕ} {len : ℕ} {is : List ℕ}
    (h : findChunk mem chunkList len is = some a) :
    ∃ i ∈ is, len < 2 ^ (i + 2) ∧ a ∈ chunkList i ∧ len ≤ (mem a).len := by
  induction is with
  | nil => cases h
  | cons i is ih =>
    rw [findChunk] at h
    split at h
    · obtain ⟨j, hj, hja⟩ := ih h
      exact ⟨j, mem_cons_of_mem _ hj, hja⟩
    · next hskip =>
      cases hf : (chunkList i).find? fun a => len ≤ (mem a).len with
      | some b =>
        rw [hf] at h
        obtain rfl := Option.some_inj.1 h
        have hlen := find?_some hf
        exact ⟨i, mem_cons_self, Nat.lt_of_not_le hskip, mem_of_find?_eq_some hf,
          by simpa using hlen⟩
      | none =>
        rw [hf] at h
        obtain ⟨j, hj, hja⟩ := ih h
        exact ⟨j, mem_cons_of_mem _ hj, hja⟩

theorem splitRest_ok {oldLen len : ℕ} (h : Ok s live' regions ∅)
    (hfresh : Heap.Fresh s.mem s.root live' regions ⟨a + maSize + len, oldLen - len⟩)
    (hc : Confined live s)
    (hquiet : ∀ b ∈ live, Disjoint (bytes ⟨a + maSize + len, oldLen - len⟩)
      (liveBlock b).bytes)
    (harg : minPreserveSize ≤ oldLen - len → ¬ 2 ^ 32 ∣ oldLen - len - maSize) :
    ∃ s', splitRest s a oldLen len = .ok s' ∧ Ok s' live' regions ∅ ∧ Confined live s' := by
  unfold splitRest
  split
  case isFalse => exact ⟨s, rfl, h, hc⟩
  case isTrue hmin =>
    have hbig : 2 * maSize ≤ oldLen - len := hmin
    let base := a + maSize + len
    let s₁ := (s.setHeader base (.new (oldLen - len - maSize) base)).insertRoot base
    have hq : Quiet live base := by
      refine Quiet.of_subset hquiet (bytes_subset (le_refl _) ?_)
      simp only [base]
      omega
    have hspan : Heap.Fresh s.mem s.root live' regions
        ⟨base, maSize + (MemoryArea.new (oldLen - len - maSize) base).len⟩ := by
      refine hfresh.of_subset (bytes_subset (le_refl _) ?_)
      simp only [base, MemoryArea.new]
      omega
    have h1 : Ok s₁ live' regions {base} := by
      have := h.insert hspan rfl rfl
      rwa [insert_empty_eq] at this
    have hc1 : Confined live s₁ := (hc.setHeader hq _).insertRoot hq
    have hlink : ∀ i < chunkListSize, Ok (s₁.pushBack i base) live' regions ∅ := by
      intro i hi
      have hfree : (s₁.mem base).free = true := by
        change (update s.mem base _ base).free = true
        rw [update_self]
        rfl
      have := Heap.link h1 hi (mem_insertEqual.2 (Or.inl rfl)) rfl hfree
      rwa [Set.sdiff_self] at this
    obtain ⟨i, hi, hbucket⟩ := sizeToBucket_ok (harg hmin)
    change ∃ s', (if (s₁.mem base).len = 1 then Except.ok (s₁.pushBack 0 base)
      else (sizeToBucket (oldLen - len - maSize)).map fun i => s₁.pushBack i base) = .ok s' ∧ _
    split
    · exact ⟨_, rfl, hlink 0 (by decide), hc1.pushBack hq 0⟩
    · rw [hbucket]
      exact ⟨_, rfl, hlink i hi, hc1.pushBack hq i⟩

theorem splitRest_error {oldLen len : ℕ} (hmin : minPreserveSize ≤ oldLen - len)
    (harg : 2 ^ 32 ∣ oldLen - len - maSize) :
    splitRest s a oldLen len = .error .undefinedClz := by
  have hne : oldLen - len - maSize ≠ 1 := by
    intro heq
    rw [heq] at harg
    exact absurd (Nat.le_of_dvd (by decide) harg) (by decide)
  unfold splitRest
  rw [if_pos hmin]
  simp only [Allocator.insertRoot, Allocator.setHeader, update_self, MemoryArea.new,
    if_neg hne]
  rw [sizeToBucket_error harg]
  rfl

/-- The free block `a` that `malloc` has found is long enough. -/
theorem Ok.of_findChunk (h : Ok s live regions ∅) {len : ℕ} {is : List ℕ}
    (hf : findChunk s.mem s.chunkList len is = some a) : a ∈ s.root ∧ len ≤ (s.mem a).len := by
  obtain ⟨i, -, -, hi, hlen⟩ := findChunk_mem hf
  exact ⟨(h.chunk_mem hi).1, hlen⟩

theorem malloc_ok (h : Ok s live regions ∅) (ht : s.touched = []) {len : ℕ}
    (hargs : ∀ l ∈ mallocArgs s len, ¬ 2 ^ 32 ∣ l) :
    ∃ p s', malloc s len = .ok (p, s') ∧
      Ok s' (if p = 0 then live else (p - maSize, len) :: live) regions ∅ ∧ Confined live s' := by
  have hc : Confined live s := h.confined ht
  have hnull : Ok s (if 0 = 0 then live else (0 - maSize, len) :: live) regions ∅ := h
  unfold malloc
  by_cases h0 : len = 0
  · rw [if_pos h0]
    exact ⟨0, s, rfl, hnull, hc⟩
  rw [if_neg h0]
  unfold mallocArgs at hargs
  cases hf : findChunk s.mem s.chunkList len (range chunkListSize) with
  | none => exact ⟨0, s, rfl, hnull, hc⟩
  | some a =>
    obtain ⟨ha, hlen⟩ := h.of_findChunk hf
    rw [hf] at hargs
    -- the block leaves its list and the tree and becomes a live block of length `len`
    obtain ⟨htake, hfresh⟩ := (Heap.unlink (a := a) h).take ha (Set.mem_insert ..) hlen
    rw [insert_empty_eq, Set.sdiff_self] at htake
    have hquiet : ∀ b ∈ live, Disjoint (bytes ⟨a + maSize + len, (s.mem a).len - len⟩)
        (liveBlock b).bytes := fun b hb =>
      hfresh.1 _ (Heap.mem_blocks_of_live (mem_cons_of_mem _ hb))
    have hc1 : Confined live (((s.setHeader a
        { s.mem a with free := false, len := len }).eraseRoot a).unlink a) :=
      ((hc.setHeader (h.quiet ha) _).eraseRoot).unlink
    obtain ⟨s', hs', hok, hc'⟩ := splitRest_ok
      (s := ((s.setHeader a { s.mem a with free := false, len := len }).eraseRoot a).unlink a)
      htake hfresh hc1 hquiet (fun hmin => hargs _ (by simp [h0, hmin]))
    refine ⟨a + maSize, s', ?_, ?_, hc'⟩
    · simp only
      rw [hs']
      rfl
    · have hpos : a + maSize ≠ 0 := by
        have : 0 < maSize := by decide
        omega
      rw [if_neg hpos, Nat.add_sub_cancel]
      exact hok

theorem exists_of_mem_mallocArgs {len l : ℕ} (hl : l ∈ mallocArgs s len) :
    ∃ a, findChunk s.mem s.chunkList len (range chunkListSize) = some a ∧ len ≠ 0 ∧
      minPreserveSize ≤ (s.mem a).len - len ∧ l = (s.mem a).len - len - maSize := by
  unfold mallocArgs at hl
  split at hl
  · next a hf =>
    split at hl
    · next hcond => exact ⟨a, hf, hcond.1, hcond.2, mem_singleton.1 hl⟩
    · cases hl
  · cases hl

theorem malloc_error {len : ℕ} (hargs : ∃ l ∈ mallocArgs s len, 2 ^ 32 ∣ l) :
    malloc s len = .error .undefinedClz := by
  obtain ⟨l, hl, hdvd⟩ := hargs
  obtain ⟨a, hf, hlen, hmin, rfl⟩ := exists_of_mem_mallocArgs hl
  rw [malloc, if_neg hlen, hf]
  simp only
  rw [splitRest_error hmin hdvd]
  rfl

/-! ### `free` -/

/-- The block `a` is joined with its successor in the tree, if they touch.  Its predecessors stay as
they are. -/
theorem mergeNext_ok (h : Ok s live regions {a}) (ha : a ∈ s.root) (hc : Confined live s)
    (hargs : ∀ b, nextOf a s.root = some b → a + maSize + (s.mem a).len = b →
      ¬ 2 ^ 32 ∣ (s.mem b).len) :
    ∃ s', mergeNext s a (nextOf a s.root) = .ok s' ∧ Ok s' live regions {a} ∧ a ∈ s'.root ∧
      Confined live s' ∧
      (s'.mem a).len = (s.mem a).len + (((nextOf a s.root).filter fun b =>
        a + maSize + (s.mem a).len = b).elim 0 fun b => maSize + (s.mem b).len) ∧
      ∀ p ∈ s.root, p < a → p ∈ s'.root ∧ s'.mem p = s.mem p := by
  cases hn : nextOf a s.root with
  | none => exact ⟨s, rfl, h, ha, hc, by simp, fun p hp _ => ⟨hp, rfl⟩⟩
  | some b =>
    have hb : b ∈ s.root := nextOf_mem hn
    have hab : a < b := lt_of_nextOf h.sorted hn
    have hbfree : (s.mem b).free = true := h.free b hb (by simp; omega)
    rw [mergeNext, if_neg (by simp [hbfree])]
    by_cases hadj : a + maSize + (s.mem a).len = b
    · obtain ⟨i, -, hi⟩ := sizeToBucket_ok (hargs b hn hadj)
      rw [if_pos hadj, hi]
      refine ⟨_, rfl, ?_, ?_, ?_, ?_, ?_⟩
      · have hjoin := (Heap.unlink (a := b) h).join ha hb (Set.mem_insert ..) hadj
        have hout : (insert b {a} : Set ℕ) \ {b} = {a} := by
          ext x
          simp only [Set.mem_sdiff, Set.mem_insert_iff, Set.mem_singleton_iff]
          omega
        rw [hout] at hjoin
        exact hjoin
      · exact h.nodup.mem_erase_iff.2 ⟨hab.ne, ha⟩
      · exact ((hc.unlink).setHeader (h.quiet ha) _).eraseRoot
      · simp [Allocator.eraseRoot, Allocator.setHeader, Option.filter, hadj]
      · intro p hp hpa
        refine ⟨h.nodup.mem_erase_iff.2 ⟨by omega, hp⟩, ?_⟩
        exact update_of_ne hpa.ne ..
    · rw [if_neg hadj]
      exact ⟨s, rfl, h, ha, hc, by simp [Option.filter, hadj], fun p hp _ => ⟨hp, rfl⟩⟩

theorem mergeNext_error (h : Ok s live regions {a}) {b : ℕ} (hn : nextOf a s.root = some b)
    (hadj : a + maSize + (s.mem a).len = b) (harg : 2 ^ 32 ∣ (s.mem b).len) :
    mergeNext s a (nextOf a s.root) = .error .undefinedClz := by
  have hab : a < b := lt_of_nextOf h.sorted hn
  have hbfree : (s.mem b).free = true := h.free b (nextOf_mem hn) (by simp; omega)
  rw [hn, mergeNext, if_neg (by simp [hbfree]), if_pos hadj, sizeToBucket_error harg]
  rfl

theorem checkWholeTree_ok (h : Ok s live regions out) : checkWholeTree s = .ok () :=
  if_pos h.canary

theorem linkFreed_ok (h : Ok s live regions {a}) (ha : a ∈ s.root) (hc : Confined live s)
    (harg : ¬ 2 ^ 32 ∣ (s.mem a).len) :
    ∃ s', linkFreed s a = .ok s' ∧ Ok s' live regions ∅ ∧ Confined live s' := by
  obtain ⟨i, hi, hbucket⟩ := sizeToBucket_ok harg
  let s₁ := (s.pushBack i a).setHeader a { s.mem a with free := true }
  have hok : Ok s₁ live regions ∅ := by
    have hfree : (update s.mem a { s.mem a with free := true } a).free = true := by
      rw [update_self]
    have := (h.setFree ha).link hi ha rfl hfree
    rwa [Set.sdiff_self] at this
  refine ⟨s₁, ?_, hok, (hc.pushBack (h.quiet ha) i).setHeader (h.quiet ha) _⟩
  rw [linkFreed, hbucket]
  change (checkWholeTree s₁).map (fun _ => s₁) = _
  rw [checkWholeTree_ok hok]
  rfl

theorem linkFreed_error (harg : 2 ^ 32 ∣ (s.mem a).len) :
    linkFreed s a = .error .undefinedClz := by
  rw [linkFreed, sizeToBucket_error harg]
  rfl

/-- The lengths passed to `sizeToBucket` in the last part of `free`. -/
def prevArgs (s : Allocator) (a : ℕ) (prev : Option ℕ) : List ℕ :=
  (prev.filter fun p => p + maSize + (s.mem p).len = a).elim [(s.mem a).len] fun p =>
    [(s.mem p).len, (s.mem p).len + (maSize + (s.mem a).len)]

theorem mergePrev_ok (h : Ok s live regions {a}) (ha : a ∈ s.root) (hc : Confined live s)
    {prev : Option ℕ} (hprev : ∀ p, prev = some p → p ∈ s.root ∧ p < a)
    (hargs : ∀ l ∈ prevArgs s a prev, ¬ 2 ^ 32 ∣ l) :
    ∃ s', mergePrev s a prev = .ok s' ∧ Ok s' live regions ∅ ∧ Confined live s' := by
  cases prev with
  | none => exact linkFreed_ok h ha hc (hargs _ (by simp [prevArgs]))
  | some p =>
    obtain ⟨hp, hpa⟩ := hprev p rfl
    have hpfree : (s.mem p).free = true := h.free p hp (by simp; omega)
    rw [mergePrev, if_neg (by simp [hpfree])]
    by_cases hadj : p + maSize + (s.mem p).len = a
    · have hargs' : ∀ l ∈ [(s.mem p).len, (s.mem p).len + (maSize + (s.mem a).len)],
          ¬ 2 ^ 32 ∣ l := by
        intro l hl
        exact hargs l (by simpa [prevArgs, Option.filter, hadj] using hl)
      obtain ⟨i, -, hi⟩ := sizeToBucket_ok (hargs' (s.mem p).len (by simp))
      obtain ⟨j, hj, hbucket⟩ := sizeToBucket_ok
        (hargs' ((s.mem p).len + (maSize + (s.mem a).len)) (by simp))
      let s₁ := ((s.unlink p).setHeader p
        { s.mem p with len := (s.mem p).len + (maSize + (s.mem a).len) }).eraseRoot a
      have hmem : s₁.mem p =
          { s.mem p with len := (s.mem p).len + (maSize + (s.mem a).len) } :=
        update_self ..
      have h1 : Ok s₁ live regions {p} := by
        have hjoin := (Heap.unlink (a := p) h).join hp ha (Set.mem_insert_of_mem _ rfl) hadj
        have hout : (insert p {a} : Set ℕ) \ {a} = {p} := by
          ext x
          simp only [Set.mem_sdiff, Set.mem_insert_iff, Set.mem_singleton_iff]
          omega
        rw [hout] at hjoin
        exact hjoin
      have hp1 : p ∈ s₁.root := h.nodup.mem_erase_iff.2 ⟨hpa.ne, hp⟩
      have hc1 : Confined live s₁ := ((hc.unlink).setHeader (h.quiet hp) _).eraseRoot
      have hfree : (s₁.mem p).free = true := by
        rw [hmem]
        exact hpfree
      have hlink := Heap.link h1 hj hp1 rfl hfree
      rw [Set.sdiff_self] at hlink
      refine ⟨s₁.pushBack j p, ?_, hlink, hc1.pushBack (h.quiet hp) j⟩
      rw [if_pos hadj, hi]
      change (sizeToBucket (s₁.mem p).len).map (fun i => s₁.pushBack i p) = _
      rw [hmem, hbucket]
      rfl
    · rw [if_neg hadj]
      exact linkFreed_ok h ha hc (hargs _ (by simp [prevArgs, Option.filter, hadj]))

theorem mergePrev_error (h : Ok s live regions {a}) {prev : Option ℕ}
    (hprev : ∀ p, prev = some p → p ∈ s.root ∧ p < a)
    (hargs : ∃ l ∈ prevArgs s a prev, 2 ^ 32 ∣ l) :
    mergePrev s a prev = .error .undefinedClz := by
  obtain ⟨l, hl, hdvd⟩ := hargs
  cases prev with
  | none =>
    have hl : l = (s.mem a).len := by simpa [prevArgs] using hl
    exact linkFreed_error (hl ▸ hdvd)
  | some p =>
    obtain ⟨hp, hpa⟩ := hprev p rfl
    have hpfree : (s.mem p).free = true := h.free p hp (by simp; omega)
    rw [mergePrev, if_neg (by simp [hpfree])]
    by_cases hadj : p + maSize + (s.mem p).len = a
    · rw [if_pos hadj]
      by_cases hfirst : 2 ^ 32 ∣ (s.mem p).len
      · rw [sizeToBucket_error hfirst]
        rfl
      · obtain ⟨i, -, hi⟩ := sizeToBucket_ok hfirst
        have hl : l = (s.mem p).len ∨ l = (s.mem p).len + (maSize + (s.mem a).len) := by
          simpa [prevArgs, Option.filter, hadj] using hl
        have hsecond : 2 ^ 32 ∣ (s.mem p).len + (maSize + (s.mem a).len) :=
          hl.elim (fun hl => absurd (hl ▸ hdvd) hfirst) (fun hl => hl ▸ hdvd)
        rw [hi]
        simp only [Except.bind, Allocator.eraseRoot, Allocator.setHeader, update_self]
        rw [sizeToBucket_error hsecond]
        rfl
    · have hl : l = (s.mem a).len := by simpa [prevArgs, Option.filter, hadj] using hl
      rw [if_neg hadj]
      exact linkFreed_error (hl ▸ hdvd)

/-- The block of a live pointer is put in the tree. -/
theorem insertRoot_ok (h : Ok s live regions ∅) {b : ℕ × ℕ} (hb : b ∈ live) :
    Ok (s.insertRoot b.1) (live.filter fun c => c.1 ≠ b.1) regions {b.1} ∧
      Quiet (live.filter fun c => c.1 ≠ b.1) b.1 := by
  obtain ⟨hrel, hfresh⟩ := h.release hb
  have hheader := h.liveHeader b hb
  have hspan : Heap.Fresh s.mem s.root (live.filter fun c => c.1 ≠ b.1) regions
      ⟨b.1, maSize + (s.mem b.1).len⟩ := by
    rw [hheader]
    exact hfresh
  constructor
  · have := hrel.insert hspan (by rw [hheader]) (by rw [hheader])
    rw [update_eq_self, insert_empty_eq] at this
    exact this
  · refine Quiet.of_subset (fun c hc => hfresh.1 _ (Heap.mem_blocks_of_live hc)) ?_
    exact bytes_subset (le_refl _) (by simp only [liveBlock]; omega)

/-- The arguments of `sizeToBucket` after the first part of `free`. -/
theorem freeArgs_eq {s₁ : Allocator} (hlen : (s₁.mem a).len = (s.mem a).len +
      (((nextOf a s.root).filter fun b => a + maSize + (s.mem a).len = b).elim 0 fun b =>
        maSize + (s.mem b).len))
    (hprev : ∀ p, prevOf a s.root = some p → s₁.mem p = s.mem p) :
    freeArgs s a = (((nextOf a s.root).filter fun b => a + maSize + (s.mem a).len = b).elim [] fun b =>
      [(s.mem b).len]) ++ prevArgs s₁ a (prevOf a s.root) := by
  unfold freeArgs prevArgs
  rw [hlen]
  cases hp : prevOf a s.root with
  | none => rfl
  | some p =>
    have hmem := hprev p hp
    by_cases hadj : p + maSize + (s.mem p).len = a
    · simp [Option.filter, hmem, hadj]
    · simp [Option.filter, hmem, hadj]

theorem mem_freeArgs_of_next {b : ℕ} (hn : nextOf a s.root = some b)
    (hadj : a + maSize + (s.mem a).len = b) : (s.mem b).len ∈ freeArgs s a := by
  simp [freeArgs, Option.filter, hn, hadj]

/-- `free` of a live pointer, as its stages on the block `a`. -/
theorem free_eq (s : Allocator) (a : ℕ) :
    free s (a + maSize) = (mergeNext (s.insertRoot a) a (nextOf a (s.insertRoot a).root)).bind
      fun s₁ => (checkWholeTree s₁).bind fun _ => mergePrev s₁ a (prevOf a (s.insertRoot a).root) := by
  have hpos : a + maSize ≠ 0 := by
    have : 0 < maSize := by decide
    omega
  rw [free, if_neg hpos, Nat.add_sub_cancel]

/-- Unless its length is bad, the successor is joined with the block first.  Then the bad lengths are those
of the last part. -/
theorem free_eq_mergePrev (h : Ok s live regions ∅) (ht : s.touched = []) {b : ℕ × ℕ} (hb : b ∈ live)
    (hnext : ∀ n, nextOf b.1 (s.insertRoot b.1).root = some n →
      b.1 + maSize + ((s.insertRoot b.1).mem b.1).len = n → ¬ 2 ^ 32 ∣ ((s.insertRoot b.1).mem n).len) :
    ∃ s₁, free s (b.1 + maSize) = mergePrev s₁ b.1 (prevOf b.1 (s.insertRoot b.1).root) ∧
      Ok s₁ (live.filter fun c => c.1 ≠ b.1) regions {b.1} ∧ b.1 ∈ s₁.root ∧
      Confined (live.filter fun c => c.1 ≠ b.1) s₁ ∧
      (∀ p, prevOf b.1 (s.insertRoot b.1).root = some p → p ∈ s₁.root ∧ p < b.1) ∧
      ∀ l, 2 ^ 32 ∣ l → (l ∈ freeArgs (s.insertRoot b.1) b.1 ↔
        l ∈ prevArgs s₁ b.1 (prevOf b.1 (s.insertRoot b.1).root)) := by
  obtain ⟨h0, hq⟩ := insertRoot_ok h hb
  obtain ⟨s₁, hs1, h1, ha1, hc1, hlen, hbefore⟩ := mergeNext_ok h0 (mem_insertEqual.2 (Or.inl rfl))
    (((h.confined ht).mono filter_sublist.subset).insertRoot hq) hnext
  have hprev : ∀ p, prevOf b.1 (s.insertRoot b.1).root = some p →
      p < b.1 ∧ p ∈ s₁.root ∧ s₁.mem p = (s.insertRoot b.1).mem p := fun p hp =>
    have hlt := lt_of_prevOf h0.sorted hp
    ⟨hlt, hbefore p (prevOf_mem hp) hlt⟩
  refine ⟨s₁, ?_, h1, ha1, hc1, fun p hp => ⟨(hprev p hp).2.1, (hprev p hp).1⟩, fun l hdvd => ?_⟩
  · rw [free_eq, hs1]
    change ((checkWholeTree s₁).bind fun _ => mergePrev s₁ b.1 _) = _
    rw [checkWholeTree_ok h1]
    rfl
  · rw [freeArgs_eq hlen fun p hp => (hprev p hp).2.2, mem_append, or_iff_right]
    intro hl
    cases hn : nextOf b.1 (s.insertRoot b.1).root with
    | none => simp [hn] at hl
    | some n =>
      by_cases hadj : b.1 + maSize + ((s.insertRoot b.1).mem b.1).len = n
      · have hl : l = ((s.insertRoot b.1).mem n).len := by
          simpa [hn, hadj, Option.filter] using hl
        exact hnext n hn hadj (hl ▸ hdvd)
      · simp [hn, hadj, Option.filter] at hl

theorem free_ok (h : Ok s live regions ∅) (ht : s.touched = []) {b : ℕ × ℕ} (hb : b ∈ live)
    (hargs : ∀ l ∈ freeArgs (s.insertRoot b.1) b.1, ¬ 2 ^ 32 ∣ l) :
    ∃ s', free s (b.1 + maSize) = .ok s' ∧ Ok s' (live.filter fun c => c.1 ≠ b.1) regions ∅ ∧
      Confined (live.filter fun c => c.1 ≠ b.1) s' := by
  obtain ⟨s₁, heq, h1, ha1, hc1, hprev, hiff⟩ := free_eq_mergePrev h ht hb fun n hn hadj =>
    hargs _ (mem_freeArgs_of_next hn hadj)
  rw [heq]
  exact mergePrev_ok h1 ha1 hc1 hprev fun l hl hdvd => hargs l ((hiff l hdvd).2 hl) hdvd

theorem free_error (h : Ok s live regions ∅) (ht : s.touched = []) {b : ℕ × ℕ} (hb : b ∈ live)
    (hargs : ∃ l ∈ freeArgs (s.insertRoot b.1) b.1, 2 ^ 32 ∣ l) :
    free s (b.1 + maSize) = .error .undefinedClz := by
  by_cases hnext : ∃ n, nextOf b.1 (s.insertRoot b.1).root = some n ∧
      b.1 + maSize + ((s.insertRoot b.1).mem b.1).len = n ∧
      2 ^ 32 ∣ ((s.insertRoot b.1).mem n).len
  · -- the successor has a bad length
    obtain ⟨n, hn, hadj, hdvd⟩ := hnext
    rw [free_eq, mergeNext_error (insertRoot_ok h hb).1 hn hadj hdvd]
    rfl
  · obtain ⟨s₁, heq, h1, -, -, hprev, hiff⟩ := free_eq_mergePrev h ht hb fun n hn hadj hdvd =>
      hnext ⟨n, hn, hadj, hdvd⟩
    obtain ⟨l, hl, hdvd⟩ := hargs
    rw [heq]
    exact mergePrev_error h1 hprev ⟨l, (hiff l hdvd).1 hl, hdvd⟩

/-! ### `expandHeap` -/

theorem expandHeap_ok (h : Ok s live regions ∅) (ht : s.touched = []) {base len : ℕ}
    (hlen : maSize < len)
    (hregions : ∀ r ∈ regions, Disjoint (bytes ⟨base, len⟩) r.bytes) :
    Ok (expandHeap s base len) live (⟨base, len⟩ :: regions) ∅ ∧
      Confined live (expandHeap s base len) := by
  have hmono : Ok s live (⟨base, len⟩ :: regions) ∅ :=
    Heap.mono_regions h fun r hr => mem_cons_of_mem _ hr
  have hlen' : maSize + (len - maSize) = len := by omega
  have hblocks : ∀ b ∈ blocks s.mem s.root live, Disjoint (bytes ⟨base, len⟩) b.bytes := by
    intro b hb
    refine Set.disjoint_left.2 fun x hx hxb => ?_
    obtain ⟨r, hr, hxr⟩ := h.inside b hb hxb
    exact Set.disjoint_left.1 (hregions r hr) hx hxr
  have hfresh : Heap.Fresh s.mem s.root live (⟨base, len⟩ :: regions)
      ⟨base, maSize + (MemoryArea.new (len - maSize) base).len⟩ := by
    simp only [MemoryArea.new, hlen']
    exact ⟨hblocks, subset_covered mem_cons_self⟩
  have hinsert := hmono.insert hfresh rfl rfl
  have hfree : (update s.mem base (.new (len - maSize) base) base).free = true := by
    rw [update_self]
    rfl
  have hlink := hinsert.link (i := chunkListSize - 1) (by decide) (mem_insertEqual.2 (Or.inl rfl))
    (Set.mem_insert ..) hfree
  rw [insert_empty_eq, Set.sdiff_self] at hlink
  have hquiet : Quiet live base := by
    refine Quiet.of_subset (fun b hb => hblocks _ (Heap.mem_blocks_of_live hb)) ?_
    exact bytes_subset (le_refl _) (by simp only; omega)
  exact ⟨hlink, (((h.confined ht).setHeader hquiet _).pushBack hquiet _).insertRoot hquiet⟩

end Alloc

/-
**`malloc` finds a block whenever there is one.**

`malloc` skips the chunk list `i` if `len >= 2 ^ (i + 2)`.  This is right because the blocks in the
list `i` are shorter than `2 ^ (i + 2)`, with the exception of the last list, where whole regions are
put and which is never skipped for a length below `2 ^ 32`.  The invariant has to survive the headers
that change while their blocks are in no list, and the lists that a length is looked up for.

Main definitions: `RightBucket`, `Fits`.  Main results: `rightBucket_iff`, `allStates_fits`.
-/

import SgxElps.Alloc.Ledger

namespace Alloc

open Function (update update_of_ne update_self)
open List

variable {s s' : Allocator} {live : List (ℕ × ℕ)} {regions : List Span} {a len i : ℕ}

/-- The blocks in a chunk list are shorter than the length from which on the list is skipped.  Whole
regions are in the last list. -/
def Bucketed (s : Allocator) : Prop :=
  ∀ i, ∀ a ∈ s.chunkList i, (s.mem a).len < 2 ^ (i + 2) ∨ i + 1 = chunkListSize

/-- The bucket of a length is a list that is not skipped for it. -/
theorem sizeToBucket_lt (hlen : len < 2 ^ 32) (h : sizeToBucket len = .ok i) : len < 2 ^ (i + 2) := by
  have hmod : len % 2 ^ 32 = len := Nat.mod_eq_of_lt hlen
  by_cases h0 : len = 0
  · rw [h0]
    exact Nat.two_pow_pos _
  · rw [sizeToBucket_eq (by rwa [hmod]), hmod] at h
    have hle : Nat.log2 len + 1 ≤ i + 2 := by
      rw [← Except.ok.inj h]
      omega
    exact (Nat.lt_log2_self (n := len)).trans_le (Nat.pow_le_pow_right (by decide) hle)

/-! ### The bucket of a length -/

/-- List `i` is the one for blocks of length `len`: `malloc` finds such a block in it for every request
that fits. -/
structure RightBucket (len i : ℕ) : Prop where
  lt : i < chunkListSize
  le : 2 ^ (i + 1) ≤ len ∨ (len = 1 ∧ i = 0)
  lt_pow : len < 2 ^ (i + 2)
  found : ∀ (mem : ℕ → MemoryArea) (chunkList : ℕ → List ℕ) (a request : ℕ), a ∈ chunkList i →
    (mem a).len = len → request ≤ len → (findChunk mem chunkList request [i]).isSome

theorem findChunk_isSome {mem : ℕ → MemoryArea} {chunkList : ℕ → List ℕ} {request : ℕ}
    (ha : a ∈ chunkList i) (hle : request ≤ (mem a).len) (hlt : request < 2 ^ (i + 2)) :
    (findChunk mem chunkList request [i]).isSome := by
  have hfind : ((chunkList i).find? fun a => request ≤ (mem a).len).isSome :=
    find?_isSome.2 ⟨a, ha, by simpa using hle⟩
  obtain ⟨b, hb⟩ := Option.isSome_iff_exists.1 hfind
  rw [findChunk, if_neg (by omega), hb]
  rfl

theorem rightBucket_of_lt (h1 : 1 ≤ len) (hlen : len < 2 ^ 32) :
    ∃ i, sizeToBucket len = .ok i ∧ RightBucket len i := by
  have hmod : len % 2 ^ 32 = len := Nat.mod_eq_of_lt hlen
  have hne : len % 2 ^ 32 ≠ 0 := by omega
  have hbucket := sizeToBucket_eq hne
  have hlog := log2_mod_lt hne
  rw [hmod] at hbucket hlog
  have hlt := sizeToBucket_lt hlen hbucket
  refine ⟨_, hbucket, by rw [chunkListSize]; omega, ?_, hlt, fun mem chunkList a request ha hm hle => ?_⟩
  · have hself := Nat.log2_self_le (n := len) (by omega)
    rcases Nat.eq_zero_or_pos (Nat.log2 len) with h0 | hpos
    · have hlt2 := Nat.lt_log2_self (n := len)
      rw [h0] at hlt2 ⊢
      exact Or.inr ⟨by omega, rfl⟩
    · rw [Nat.sub_add_cancel hpos]
      exact Or.inl hself
  · exact findChunk_isSome ha (hm ▸ hle) (hle.trans_lt hlt)

/-- **`sizeToBucket` finds the list of a length if and only if the length has at most 32 bits.** -/
theorem rightBucket_iff (h1 : 1 ≤ len) :
    (∃ i, sizeToBucket len = .ok i ∧ RightBucket len i) ↔ len < 2 ^ 32 := by
  refine ⟨?_, rightBucket_of_lt h1⟩
  rintro ⟨i, hi, hright⟩
  by_cases hne : len % 2 ^ 32 = 0
  · rw [sizeToBucket_error (Nat.dvd_of_mod_eq_zero hne)] at hi
    cases hi
  · -- the logarithm of 32 bits is at most 31
    have hlog := log2_mod_lt hne
    rw [sizeToBucket_eq hne] at hi
    have hi30 : i ≤ 30 := by
      rw [← Except.ok.inj hi]
      omega
    exact hright.lt_pow.trans_le (Nat.pow_le_pow_right (by decide) (by omega))

theorem rightBucket_iff_hundred : 1 ≤ 100 ∧
    ((∃ i, sizeToBucket 100 = .ok i ∧ RightBucket 100 i) ↔ 100 < 2 ^ 32) :=
  ⟨by decide, rightBucket_iff (by decide)⟩

/-- A block of `2 ^ 32 + 4` bytes goes to the list of the blocks of 4 to 7 bytes, where a request of 8
bytes does not find it; for a length of `2 ^ 32` the result is undefined. -/
theorem sizeToBucket_truncates :
    sizeToBucket (2 ^ 32 + 4) = .ok 1 ∧ ¬ RightBucket (2 ^ 32 + 4) 1 ∧
      findChunk (fun _ => .new (2 ^ 32 + 4) 0) (fun _ => [0x1000]) 8 [1] = none ∧
      sizeToBucket (2 ^ 32) = .error .undefinedClz := by
  refine ⟨by rw [sizeToBucket_eq (by decide)]; decide, fun h => ?_, by decide,
    sizeToBucket_error (Nat.dvd_refl _)⟩
  have hlt := h.lt_pow
  omega

/-! ### The small steps -/

namespace Bucketed

theorem setHeader (h : Bucketed s) (ha : ∀ i, a ∉ s.chunkList i) (ma : MemoryArea) :
    Bucketed (s.setHeader a ma) := by
  intro i b hb
  have hne : b ≠ a := fun hba => ha i (hba ▸ hb)
  simp only [Allocator.setHeader]
  rw [update_of_ne hne]
  exact h i b hb

theorem unlink (h : Bucketed s) : Bucketed (s.unlink a) :=
  fun i b hb => h i b (mem_of_mem_erase hb)

theorem pushBack (h : Bucketed s) (hi : (s.mem a).len < 2 ^ (i + 2) ∨ i + 1 = chunkListSize) :
    Bucketed (s.pushBack i a) := by
  intro j b hb
  simp only [Allocator.pushBack] at hb
  by_cases hj : j = i
  · rw [hj, update_self, mem_append, mem_singleton] at hb
    rw [hj]
    rcases hb with hb | rfl
    · exact h i b hb
    · exact hi
  · rw [update_of_ne hj] at hb
    exact h j b hb

theorem addRest (h : Bucketed s) (ha : ∀ i, a ∉ s.chunkList i) (hi : len < 2 ^ (i + 2)) :
    Bucketed (s.addRest a len i) := by
  have h1 : Bucketed ((s.setHeader a (.new len a)).insertRoot a) := h.setHeader ha _
  refine h1.pushBack (Or.inl ?_)
  simp only [Allocator.insertRoot, Allocator.setHeader, update_self, MemoryArea.new]
  exact hi

theorem takeOut (h : Bucketed s) (hnodup : ∀ i, (s.chunkList i).Nodup) :
    Bucketed (s.takeOut a len) := by
  intro i b hb
  obtain ⟨hne, hb⟩ := (hnodup i).mem_erase_iff.1 hb
  simp only [Allocator.takeOut, Allocator.unlink, Allocator.eraseRoot, Allocator.setHeader]
  rw [update_of_ne hne]
  exact h i b hb

theorem absorb (h : Bucketed s) {b c : ℕ} (ha : ∀ i, a ∉ (s.unlink c).chunkList i) :
    Bucketed (s.absorb a b c) := by
  have h1 : Bucketed ((s.unlink c).setHeader a _) := h.unlink.setHeader ha
    { s.mem a with len := (s.mem a).len + (maSize + (s.mem b).len) }
  exact h1

end Bucketed

/-! ### The operations -/

theorem bucketed_malloc (h : Ok s live regions ∅) (hb : Bucketed s) {p : ℕ}
    (hargs : ∀ l ∈ mallocArgs s len, l < 2 ^ 32) (hs : malloc s len = .ok (p, s')) :
    Bucketed s' := by
  rcases malloc_cases hs with ⟨-, rfl, -⟩ | ⟨a, hlen, hf, rfl, hsplit⟩
  · exact hb
  · obtain ⟨ha, hle⟩ := h.of_findChunk hf
    have htake : Bucketed (s.takeOut a len) := hb.takeOut h.chunk_nodup
    rcases splitRest_cases hsplit with ⟨-, rfl⟩ | ⟨hmin, i, hi, rfl⟩
    · exact htake
    · have hbig : 2 * maSize ≤ (s.mem a).len - len := hmin
      obtain ⟨hok, hfresh⟩ := (Heap.unlink (a := a) h).take ha (Set.mem_insert ..) hle
      have hnew : ∀ j, a + maSize + len ∉ (s.takeOut a len).chunkList j := by
        intro j hj
        refine hfresh.not_mem_root ?_ (hok.chunk_mem hj).1
        simp only [maSize] at hbig ⊢
        omega
      refine htake.addRest hnew (sizeToBucket_lt (hargs _ ?_) hi)
      simp [mallocArgs, hf, hlen, hmin]

theorem bucketed_free (h : Ok s live regions ∅) (ht : s.touched = []) (hbk : Bucketed s) {b : ℕ × ℕ}
    (hb : b ∈ live) (hdef : ∀ l ∈ freeArgs (s.insertRoot b.1) b.1, ¬ 2 ^ 32 ∣ l)
    (hargs : ∀ l ∈ freeArgs (s.insertRoot b.1) b.1, l < 2 ^ 32)
    (hs : free s (b.1 + maSize) = .ok s') : Bucketed s' := by
  obtain ⟨s₁, hs1, hs'⟩ := free_cases hs
  obtain ⟨h0, hq⟩ := insertRoot_ok h hb
  have ha : b.1 ∈ (s.insertRoot b.1).root := mem_insertEqual.2 (Or.inl rfl)
  have hc0 : Confined (live.filter fun c => c.1 ≠ b.1) (s.insertRoot b.1) :=
    ((h.confined ht).mono filter_sublist.subset).insertRoot hq
  obtain ⟨s₂, hs2, h1, -, -, hlen, hbefore⟩ := mergeNext_ok h0 ha hc0
    (fun n hn hadj => hdef _ (mem_freeArgs_of_next hn hadj))
  obtain rfl : s₂ = s₁ := Except.ok.inj (hs2.symm.trans hs1)
  have heq := freeArgs_eq hlen fun p hp =>
    (hbefore p (prevOf_mem hp) (lt_of_prevOf h0.sorted hp)).2
  have hprevArgs : ∀ l ∈ prevArgs s₂ b.1 (prevOf b.1 (s.insertRoot b.1).root), l < 2 ^ 32 :=
    fun l hl => hargs l (heq ▸ mem_append_right _ hl)
  -- the block is in no list until the end
  have hbk1 : Bucketed s₂ := by
    rcases mergeNext_cases hs1 with ⟨-, rfl⟩ | ⟨n, -, -, rfl⟩
    · exact hbk
    · have hbk0 : Bucketed (s.insertRoot b.1) := hbk
      exact hbk0.absorb fun i hi => (h0.chunk_mem (mem_of_mem_erase hi)).2 rfl
  rcases mergePrev_cases hs' with ⟨hno, i, hi, rfl⟩ | ⟨p, i, hp, hadj, hi, rfl⟩
  · have hlt : (s₂.mem b.1).len < 2 ^ 32 := by
      refine hprevArgs _ ?_
      unfold prevArgs
      cases hq : prevOf b.1 (s.insertRoot b.1).root with
      | none => simp
      | some p => simp [Option.filter, hno p hq]
    have hpush := hbk1.pushBack (Or.inl (sizeToBucket_lt hlt hi))
    intro j c hc
    have := hpush j c hc
    by_cases hcb : c = b.1
    · rw [hcb] at this ⊢
      simp only [Allocator.setHeader, update_self]
      exact this
    · simp only [Allocator.setHeader]
      rw [update_of_ne hcb]
      exact this
  · have hlt : (s₂.mem p).len + (maSize + (s₂.mem b.1).len) < 2 ^ 32 := by
      refine hprevArgs _ ?_
      simp [prevArgs, hp, Option.filter, hadj]
    have habs : Bucketed (s₂.absorb p b.1 p) :=
      hbk1.absorb fun j => (h1.chunk_nodup j).not_mem_erase
    refine habs.pushBack (Or.inl ?_)
    simp only [Allocator.absorb, Allocator.eraseRoot, Allocator.setHeader, update_self]
    exact sizeToBucket_lt hlt hi

theorem bucketed_expandHeap (hb : Bucketed s) {base : ℕ} (hbase : base ∉ s.root)
    (h : Ok s live regions ∅) : Bucketed (expandHeap s base len) := by
  have hnot : ∀ i, base ∉ s.chunkList i := fun i hi => hbase (h.chunk_mem hi).1
  have hpush : Bucketed ((s.setHeader base (.new (len - maSize) base)).pushBack
      (chunkListSize - 1) base) := (hb.setHeader hnot _).pushBack (Or.inr rfl)
  exact hpush

/-! ### Whole histories -/

section Histories

variable {s s' : State} {e : Event}

theorem bucketed_step (h : Sound s) (hb : Bucketed s.alloc) (hs : step s e = some s')
    (hbelow : LengthsBelow s e) : Bucketed s'.alloc := by
  cases steps_of_step h.ok hs (h.bucketsDefined hs hbelow) with
  | malloc hal => exact bucketed_malloc h.ok.start hb hbelow hal
  | freeNull => exact hb
  | free hbl hargs hal =>
    rw [LengthsBelow, bucketArgs_free] at hbelow
    exact bucketed_free h.ok.start rfl hb hbl hargs hbelow hal
  | @expandHeap base len hlen hregions =>
    refine bucketed_expandHeap (s := s.start) hb (fun hmem => ?_) h.ok.start
    obtain ⟨r, hr, hxr⟩ := h.ok.inside _ (Heap.mem_blocks_of_root hmem)
      (show base ∈ (blockAt s.alloc.mem base).bytes from
        ⟨le_refl _, by simp only [blockAt, maSize]; omega⟩)
    exact Set.disjoint_left.1 (hregions r hr) ⟨le_refl _, by simp only; omega⟩ hxr

/-! ### The search -/

theorem findChunk_eq_none {mem : ℕ → MemoryArea} {chunkList : ℕ → List ℕ} {len : ℕ} {is : List ℕ} :
    findChunk mem chunkList len is = none ↔
      ∀ i ∈ is, len < 2 ^ (i + 2) → ∀ a ∈ chunkList i, (mem a).len < len := by
  induction is with
  | nil => simp [findChunk]
  | cons i is ih =>
    rw [findChunk, forall_mem_cons]
    split
    · next hskip => exact ih.trans ⟨fun h => ⟨fun hlt => absurd hskip (by omega), h⟩, And.right⟩
    · next hskip =>
      cases hf : (chunkList i).find? fun a => len ≤ (mem a).len with
      | some b =>
        have hle : len ≤ (mem b).len := by simpa using find?_some hf
        refine ⟨fun h => ?_, fun h => ?_⟩
        · cases h
        · have := h.1 (by omega) b (mem_of_find?_eq_some hf)
          omega
      | none =>
        have hshort : ∀ a ∈ chunkList i, (mem a).len < len := by
          simpa using find?_eq_none.1 hf
        exact ih.trans ⟨fun h => ⟨fun _ => hshort, h⟩, And.right⟩

theorem findChunk_expandHeap {s : Allocator} {base L : ℕ} (hbase : ∀ i, base ∉ s.chunkList i)
    (hlen : len < 2 ^ 32) (hfit : len ≤ L - maSize)
    (hnone : findChunk s.mem s.chunkList len (range chunkListSize) = none) :
    findChunk (expandHeap s base L).mem (expandHeap s base L).chunkList len
      (range chunkListSize) = some base := by
  have hnew : ((expandHeap s base L).mem base).len = L - maSize := by
    simp [expandHeap, Allocator.insertRoot, Allocator.pushBack, Allocator.setHeader,
      MemoryArea.new]
  have hmem : ∀ {i a}, a ∈ (expandHeap s base L).chunkList i ↔
      a ∈ s.chunkList i ∨ (i = chunkListSize - 1 ∧ a = base) := by
    intro i a
    change a ∈ update s.chunkList (chunkListSize - 1) _ i ↔ _
    by_cases hi : i = chunkListSize - 1
    · rw [hi, update_self]
      simp [Allocator.setHeader]
    · rw [update_of_ne hi]
      simp [hi]
  have hlast : len < 2 ^ (chunkListSize - 1 + 2) := hlen.trans (by decide)
  cases hf : findChunk (expandHeap s base L).mem (expandHeap s base L).chunkList len
      (range chunkListSize) with
  | none =>
    have hshort := findChunk_eq_none.1 hf (chunkListSize - 1) (by decide) hlast base
      (hmem.2 (Or.inr ⟨rfl, rfl⟩))
    omega
  | some a =>
    obtain ⟨i, hi, hskip, ha, hle⟩ := findChunk_mem hf
    rcases hmem.1 ha with ha | ⟨-, rfl⟩
    · -- a block of before, with the header of before
      have hne : a ≠ base := fun hab => hbase i (hab ▸ ha)
      have hold : (expandHeap s base L).mem a = s.mem a := update_of_ne hne ..
      have hshort := findChunk_eq_none.1 hnone i hi hskip a ha
      rw [hold] at hle
      omega
    · rfl

theorem Bucketed.skip {s : Allocator} (h : Bucketed s) (hlen : len < 2 ^ 32)
    (hskip : 2 ^ (i + 2) ≤ len) (ha : a ∈ s.chunkList i) : (s.mem a).len < len := by
  rcases h i a ha with hlt | hlast
  · exact hlt.trans_le hskip
  · obtain rfl : i = 39 := by
      simp only [chunkListSize] at hlast
      omega
    exact absurd (hskip.trans_lt hlen) (by decide)

theorem Ok.findChunk_eq_none {s : Allocator} (h : Ok s live regions ∅) (hb : Bucketed s)
    (hlen : len < 2 ^ 32) :
    findChunk s.mem s.chunkList len (range chunkListSize) = none ↔
      ∀ a ∈ s.root, (s.mem a).len < len := by
  rw [Alloc.findChunk_eq_none]
  constructor
  · intro hnone a ha
    obtain ⟨i, hi⟩ := h.chunk_exists a ha (Set.notMem_empty a)
    by_cases hskip : 2 ^ (i + 2) ≤ len
    · exact hb.skip hlen hskip hi
    · exact hnone i (mem_range.2 (h.chunk_lt hi)) (Nat.lt_of_not_le hskip) a hi
  · intro hshort i _ _ a ha
    exact hshort a (h.chunk_mem ha).1

/-- **What `malloc(len)` finds.**  It returns, null exactly if every free block is shorter than `len`,
and in this case nothing has changed; the lists it skips have no block that is long enough. -/
def Fits (s : State) : Prop :=
  ∀ len, 0 < len → len < 2 ^ 32 → LengthsBelow s (.malloc len) →
    (∃ p al, malloc s.start len = .ok (p, al) ∧
      (p = 0 ↔ ∀ a ∈ s.alloc.root, (s.alloc.mem a).len < len) ∧ (p = 0 → al = s.start)) ∧
    ∀ i < chunkListSize, 2 ^ (i + 2) ≤ len → ∀ a ∈ s.alloc.chunkList i, (s.alloc.mem a).len < len

theorem Sound.fits (h : Sound s) (hb : Bucketed s.alloc) : Fits s := by
  intro len h0 hlen hbelow
  refine ⟨?_, fun i _ hskip a ha => hb.skip hlen hskip ha⟩
  have hnone : findChunk s.start.mem s.start.chunkList len (range chunkListSize) = none ↔
      ∀ a ∈ s.alloc.root, (s.alloc.mem a).len < len := h.ok.findChunk_eq_none hb hlen
  have hs : step s (.malloc len) = some (s.mallocDone len (malloc s.start len)) := by
    rw [step, if_pos h.noFault]
  have hdef : ∀ l ∈ mallocArgs s.start len, ¬ 2 ^ 32 ∣ l := h.bucketsDefined hs hbelow
  obtain ⟨p, al, hal, -⟩ := malloc_ok h.ok.start rfl hdef
  refine ⟨p, al, hal, ?_⟩
  rcases malloc_cases hal with ⟨rfl, rfl, hno⟩ | ⟨a, -, hf, rfl, -⟩
  · exact ⟨⟨fun _ => hnone.1 (hno.resolve_left h0.ne'), fun _ => rfl⟩, fun _ => rfl⟩
  · have hp : a + maSize ≠ 0 := by simp [maSize]
    refine ⟨⟨fun h0 => absurd h0 hp, fun hshort => ?_⟩, fun h0 => absurd h0 hp⟩
    rw [hnone.2 hshort] at hf
    cases hf

theorem bucketed_init : Bucketed init.alloc := nofun

/-- **`malloc` finds a block whenever there is one**, in every state of a history in which the lengths
of the blocks are below `2 ^ 32`. -/
theorem allStates_fits (es : List Event) (h : Transition.AllSteps step LengthsBelow init es) :
    Transition.AllStates step Fits init es := by
  have hall : Transition.AllStates step (fun s => Sound s ∧ Bucketed s.alloc) init es := by
    refine Transition.allStates_of_allSteps (J := fun _ => True) (fun _ _ _ _ _ => trivial) ?_ es
      trivial ⟨sound_init, bucketed_init⟩ h
    rintro s e s' - ⟨hsound, hb⟩ hs hbelow
    exact ⟨sound_step hsound hs (hsound.bucketsDefined hs hbelow), bucketed_step hsound hb hs hbelow⟩
  exact hall.mono fun s hs => hs.1.fits hs.2

/-- In a region of 400 bytes two blocks of 100 bytes are taken, and the first is given back. -/
theorem allStates_fits_region :
    (Transition.run step init
      [.expandHeap 4096 400, .malloc 100, .malloc 100, .free 4192]).isSome ∧
    Transition.AllStates step Fits init
      [.expandHeap 4096 400, .malloc 100, .malloc 100, .free 4192] := by
  refine ⟨by decide +kernel, allStates_fits _ ?_⟩
  intro s₁ h₁
  obtain rfl := Option.some.inj h₁
  refine ⟨by unfold LengthsBelow; decide +kernel, ?_⟩
  intro s₂ h₂
  obtain rfl := Option.some.inj h₂
  refine ⟨by unfold LengthsBelow; decide +kernel, ?_⟩
  intro s₃ h₃
  obtain rfl := Option.some.inj h₃
  refine ⟨by unfold LengthsBelow; decide +kernel, ?_⟩
  intro s₄ h₄
  exact ⟨by unfold LengthsBelow; decide +kernel, trivial⟩

end Histories

end Alloc

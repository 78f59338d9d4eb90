/-
**The tree and the chunk lists hold exactly the free blocks.**

A client that knows the supplied regions, the size of a header and the pointers it was given can keep
a ledger of the free blocks: `malloc` takes one block and may put a rest back, `free` gives a block
back and joins it with the free blocks it touches.  The ledger is a set; it has no order, no lists
and no headers.  The allocator is run next to its ledger, and is shown to agree with it after every
operation: the tree holds the blocks of the ledger in the order of their addresses, each of them is
in one chunk list, and no live block is in any.

The lengths that an operation passes to `sizeToBucket` are below `2 ^ 32`; all of them are lengths of
blocks.

Main definitions: `ledger`, `Indexed`, `Sound`.  Main results: `freeBlocks_step`, `allStates_indexed`.
-/

import SgxElps.Alloc.Effects
import SgxElps.Alloc.Safety

namespace Alloc

open List
open State

/-! ### The ledger -/

/-- **The free blocks after an operation**, if `F` were the free blocks before it.  The caller of
`malloc` sees from the pointer which block was taken. -/
def ledger (F : Set Span) (s s' : State) : Event → Set Span
  | .malloc len =>
      { x | (s'.live = s.live ∧ x ∈ F) ∨ ∃ a, s'.live = (a, len) :: s.live ∧ x ∈ take F a len }
  | .free p =>
      { x | (p = 0 ∧ x ∈ F) ∨
        ∃ b ∈ s.live, b.1 + maSize = p ∧ x ∈ Span.coalesce F (liveBlock b) }
  | .expandHeap base len => insert ⟨base, len⟩ F

/-- An operation of the allocator, and in the ledger. -/
def trackedStep (t : State × Set Span) (e : Event) : Option (State × Set Span) :=
  (step t.1 e).map fun s' => (s', ledger t.2 t.1 s' e)

/-- The lengths that are passed to `sizeToBucket` are below `2 ^ 32`. -/
def LengthsBelow (s : State) (e : Event) : Prop := ∀ l ∈ bucketArgs s e, l < 2 ^ 32

/-- **The tree and the chunk lists agree with the ledger `F`.** -/
structure Indexed (s : State) (F : Set Span) : Prop where
  /-- No operation was undefined, and no assertion of `free` has failed. -/
  noFault : s.fault = none
  /-- The tree holds exactly the free blocks … -/
  tree : ∀ x, x ∈ F ↔ ∃ a ∈ s.alloc.root, blockAt s.alloc.mem a = x
  /-- … in the order of their addresses. -/
  increasing : s.alloc.root.Pairwise (· < ·)
  /-- Each free block is in exactly one chunk list, once. -/
  listed : ∀ a ∈ s.alloc.root, ∃! i, a ∈ s.alloc.chunkList i
  nodup : ∀ i, (s.alloc.chunkList i).Nodup
  /-- Only free blocks are in a chunk list. -/
  unlisted : ∀ i, ∀ a ∈ s.alloc.chunkList i, i < chunkListSize ∧ a ∈ s.alloc.root
  /-- No live block is in the tree or in a chunk list. -/
  live : ∀ b ∈ s.live, b.1 ∉ s.alloc.root ∧ ∀ i, b.1 ∉ s.alloc.chunkList i
  free : ∀ a ∈ s.alloc.root, (s.alloc.mem a).free = true
  memBase : ∀ a ∈ s.alloc.root, (s.alloc.mem a).memBase = a

variable {s s' : State} {e : Event} {F : Set Span}

/-! ### The tree follows the ledger -/

theorem live_eq_of_fst_eq (h : Ok s.alloc s.live s.regions ∅) {b c : ℕ × ℕ} (hb : b ∈ s.live)
    (hc : c ∈ s.live) (hbc : b.1 = c.1) : b = c := by
  have hlen : b.2 = c.2 := by
    have h1 := h.liveHeader b hb
    have h2 := h.liveHeader c hc
    rw [hbc, h2] at h1
    exact (congrArg MemoryArea.len h1).symm
  exact Prod.ext hbc hlen

/-- **The tree follows the ledger.** -/
theorem freeBlocks_step (h : Ok s.alloc s.live s.regions ∅) (hs : step s e = some s')
    (hargs : BucketsDefined s e) : freeBlocks s'.alloc = ledger (freeBlocks s.alloc) s s' e := by
  cases steps_of_step h hs hargs with
  | @malloc len p al hal =>
    by_cases hp : p = 0
    · rcases malloc_cases hal with ⟨-, rfl, -⟩ | ⟨a, -, -, rfl, -⟩
      · ext x
        simp [ledger, mallocDone, hp, start, freeBlocks]
      · exact absurd hp (by simp [maSize])
    · rw [mallocDone, freeBlocks_malloc h.start hp hal]
      ext x
      simp [ledger, hp, start, freeBlocks]
  | freeNull =>
    ext x
    refine ⟨fun hx => Or.inl ⟨rfl, hx⟩, ?_⟩
    rintro (⟨-, hx⟩ | ⟨b, -, hb0, -⟩)
    · exact hx
    · simp [maSize] at hb0
  | @free b al hb hargs' hal =>
    rw [freeBlocks_free h.start rfl hb hargs' hal]
    ext x
    refine ⟨fun hx => Or.inr ⟨b, hb, rfl, hx⟩, ?_⟩
    rintro (⟨h0, -⟩ | ⟨c, hc, hcb, hx⟩)
    · simp [maSize] at h0
    · rw [live_eq_of_fst_eq h hb hc (by omega)]
      exact hx
  | expandHeap hlen hregions => exact freeBlocks_expandHeap h.start hlen hregions

/-! ### No block is empty -/

/-- No operation was undefined, the heap invariant holds, and no block is empty. -/
structure Sound (s : State) : Prop where
  noFault : s.fault = none
  ok : Ok s.alloc s.live s.regions ∅
  long : ∀ x ∈ freeBlocks s.alloc, maSize < x.len
  live_pos : ∀ b ∈ s.live, 0 < b.2

theorem len_pos_of_long {s : Allocator} (hlong : ∀ x ∈ freeBlocks s, maSize < x.len) {a : ℕ}
    (ha : a ∈ s.root) : 0 < (s.mem a).len := by
  have := hlong _ (blockAt_mem_freeBlocks ha)
  simp only [blockAt] at this
  omega

/-- Adjacent blocks of the tree, taken as one block at `a` of length `l`. -/
inductive Chain (s : Allocator) : (a l : ℕ) → Prop
  | block {a : ℕ} (ha : a ∈ s.root) : Chain s a (s.mem a).len
  | join {a m n : ℕ} (h1 : Chain s a m) (h2 : Chain s (a + maSize + m) n) :
      Chain s a (m + (maSize + n))

/-- What `free` passes to `sizeToBucket`. -/
theorem exists_chain_of_mem_freeArgs {s : Allocator} {a l : ℕ} (ha : a ∈ s.root)
    (hl : l ∈ freeArgs s a) : ∃ x, Chain s x l := by
  unfold freeArgs at hl
  -- the neighbours that `free` joins the block with
  generalize hn : (nextOf a s.root).filter (fun b => a + maSize + (s.mem a).len = b) = next at hl
  generalize hq : (prevOf a s.root).filter (fun p => p + maSize + (s.mem p).len = a) = prev at hl
  have hnext : ∀ b ∈ next, Chain s (a + maSize + (s.mem a).len) (s.mem b).len := by
    rintro b rfl
    obtain ⟨hn, hadj⟩ := Option.filter_eq_some_iff.1 hn
    rw [of_decide_eq_true hadj]
    exact .block (nextOf_mem hn)
  have hself : Chain s a ((s.mem a).len + next.elim 0 fun b => maSize + (s.mem b).len) := by
    cases next with
    | none => exact .block ha
    | some b => exact .join (.block ha) (hnext b rfl)
  rcases mem_append.1 hl with hl | hl
  · cases next with
    | none => cases hl
    | some b =>
      rw [mem_singleton.1 hl]
      exact ⟨_, hnext b rfl⟩
  · cases prev with
    | none =>
      rw [mem_singleton.1 hl]
      exact ⟨a, hself⟩
    | some p =>
      obtain ⟨hq, hadj⟩ := Option.filter_eq_some_iff.1 hq
      have hprev : Chain s p (s.mem p).len := .block (prevOf_mem hq)
      simp only [Option.elim_some, mem_cons, not_mem_nil, or_false] at hl
      rcases hl with rfl | rfl
      · exact ⟨p, hprev⟩
      · refine ⟨p, hprev.join ?_⟩
        rw [of_decide_eq_true hadj]
        exact hself

theorem Chain.pos {s : Allocator} {a l : ℕ} (h : Chain s a l)
    (hpos : ∀ a ∈ s.root, 0 < (s.mem a).len) : 0 < l := by
  induction h with
  | block ha => exact hpos _ ha
  | join _ _ ih _ => omega

/-- The lengths that are passed to `sizeToBucket` are not zero. -/
theorem Sound.bucketArgs_pos (h : Sound s) (hs : step s e = some s') :
    ∀ l ∈ bucketArgs s e, 0 < l := by
  intro l hl
  cases e with
  | malloc len =>
    obtain ⟨a, -, -, hmin, rfl⟩ := exists_of_mem_mallocArgs hl
    simp only [minPreserveSize, maSize] at hmin ⊢
    omega
  | free p =>
    rcases free_of_step hs with rfl | ⟨b, hb, rfl⟩
    · cases hl
    rw [bucketArgs_free] at hl
    obtain ⟨x, hchain⟩ := exists_chain_of_mem_freeArgs (mem_insertEqual.2 (Or.inl rfl)) hl
    refine hchain.pos fun a ha => ?_
    rcases mem_insertEqual.1 ha with rfl | ha
    · change 0 < (s.alloc.mem b.1).len
      rw [h.ok.liveHeader b hb]
      exact h.live_pos b hb
    · exact len_pos_of_long h.long ha
  | expandHeap base len => cases hl

theorem bucketsDefined_of_lengthsBelow (hpos : ∀ l ∈ bucketArgs s e, 0 < l)
    (h : LengthsBelow s e) : BucketsDefined s e :=
  fun l hl hdvd => absurd (Nat.le_of_dvd (hpos l hl) hdvd) (Nat.not_le_of_lt (h l hl))

theorem take_long (hF : ∀ x ∈ F, maSize < x.len) {a len : ℕ} : ∀ x ∈ take F a len, maSize < x.len := by
  rintro x (⟨hx, -⟩ | ⟨n, -, hmin, rfl⟩)
  · exact hF x hx
  · simp only [minPreserveSize, maSize] at hmin ⊢
    omega

theorem coalesce_long (hF : ∀ x ∈ F, maSize < x.len) {b : Span} (hb : maSize < b.len) :
    ∀ x ∈ Span.coalesce F b, maSize < x.len := by
  rintro x (⟨hx, -⟩ | hx)
  · exact hF x hx
  · have h1 : b.start ∈ x.bytes := by
      rw [hx]
      exact ⟨b, Set.mem_insert .., le_refl _, by omega⟩
    have h2 : b.start + b.len - 1 ∈ x.bytes := by
      rw [hx]
      exact ⟨b, Set.mem_insert .., by omega, by omega⟩
    have := h1.1
    have := h2.2
    omega

theorem ledger_long (hF : ∀ x ∈ F, maSize < x.len) (hlive : ∀ b ∈ s.live, 0 < b.2)
    (hs : Steps s e s') : ∀ x ∈ ledger F s s' e, maSize < x.len := by
  cases hs with
  | malloc =>
    rintro x (⟨-, hx⟩ | ⟨a, -, hx⟩)
    · exact hF x hx
    · exact take_long hF x hx
  | freeNull | free =>
    rintro x (⟨-, hx⟩ | ⟨b, hb, -, hx⟩)
    · exact hF x hx
    · have hpos := hlive b hb
      exact coalesce_long hF (by simp only [liveBlock]; omega) x hx
  | expandHeap hlen =>
    rintro x (rfl | hx)
    · exact hlen
    · exact hF x hx

theorem live_pos_step (hlive : ∀ b ∈ s.live, 0 < b.2) (hs : Steps s e s') :
    ∀ b ∈ s'.live, 0 < b.2 := by
  cases hs with
  | malloc hal =>
    intro b hb
    simp only [mallocDone] at hb
    split at hb
    · exact hlive b hb
    · next hp =>
      rcases mem_cons.1 hb with rfl | hb
      · rcases malloc_cases hal with ⟨h0, -⟩ | ⟨a, hlen, -⟩
        · exact absurd h0 hp
        · exact Nat.pos_of_ne_zero hlen
      · exact hlive b hb
  | free => exact fun b hb => hlive b (mem_filter.1 hb).1
  | freeNull | expandHeap => exact hlive

/-- An operation whose buckets are defined. -/
theorem sound_step (h : Sound s) (hs : step s e = some s') (hargs : BucketsDefined s e) :
    Sound s' := by
  obtain ⟨hf, hok, -, hsteps⟩ := ok_step h.ok hs hargs
  constructor
  case noFault => exact hf
  case ok => exact hok
  case long =>
    rw [freeBlocks_step h.ok hs hargs]
    exact ledger_long h.long h.live_pos hsteps
  case live_pos => exact live_pos_step h.live_pos hsteps

/-- An operation whose blocks are shorter than `2 ^ 32`. -/
theorem Sound.bucketsDefined (h : Sound s) (hs : step s e = some s') (hbelow : LengthsBelow s e) :
    BucketsDefined s e :=
  bucketsDefined_of_lengthsBelow (h.bucketArgs_pos hs) hbelow

theorem sound_init : Sound init where
  noFault := rfl
  ok := valid_init rfl
  long := by
    rintro x ⟨a, ha, -⟩
    cases ha
  live_pos := nofun

/-! ### Whole histories -/

theorem trackedStep_eq_some {t t' : State × Set Span} :
    trackedStep t e = some t' ↔ step t.1 e = some t'.1 ∧ t'.2 = ledger t.2 t.1 t'.1 e := by
  unfold trackedStep
  rw [Option.map_eq_some_iff]
  constructor
  · rintro ⟨s', hs', rfl⟩
    exact ⟨hs', rfl⟩
  · rintro ⟨hs', hF⟩
    exact ⟨t'.1, hs', Prod.ext rfl hF.symm⟩

/-- The tree of a sound state holds the blocks of the ledger. -/
structure Tracked (t : State × Set Span) : Prop where
  sound : Sound t.1
  free : freeBlocks t.1.alloc = t.2

theorem Tracked.indexed {t : State × Set Span} (h : Tracked t) : Indexed t.1 t.2 where
  noFault := h.sound.noFault
  tree x := h.free ▸ Iff.rfl
  increasing := h.sound.ok.sorted
  listed a ha := by
    obtain ⟨i, hi⟩ := h.sound.ok.chunk_exists a ha (Set.notMem_empty a)
    exact ⟨i, hi, fun j hj => h.sound.ok.chunk_unique hj hi⟩
  nodup := h.sound.ok.chunk_nodup
  unlisted i a ha := ⟨h.sound.ok.chunk_lt ha, (h.sound.ok.chunk_mem ha).1⟩
  live b hb := by
    have hroot : b.1 ∉ t.1.alloc.root := fun hmem => h.sound.ok.live_ne hmem hb rfl
    exact ⟨hroot, fun i hi => hroot (h.sound.ok.chunk_mem hi).1⟩
  free a ha := h.sound.ok.free a ha (Set.notMem_empty a)
  memBase := h.sound.ok.memBase

theorem allStates_tracked (es : List Event)
    (h : Transition.AllSteps trackedStep (fun t e => LengthsBelow t.1 e) (init, ∅) es) :
    Transition.AllStates trackedStep Tracked (init, ∅) es := by
  have hinit : Tracked (init, ∅) := by
    refine ⟨sound_init, ?_⟩
    ext x
    simp [freeBlocks, init, Allocator.empty]
  refine Transition.allStates_of_allSteps (J := fun _ => True) (fun _ _ _ _ _ => trivial) ?_ es
    trivial hinit h
  intro t e t' _ ht hs hbelow
  obtain ⟨hs1, hs2⟩ := trackedStep_eq_some.1 hs
  have hargs := ht.sound.bucketsDefined hs1 hbelow
  refine ⟨sound_step ht.sound hs1 hargs, ?_⟩
  rw [hs2, ← ht.free, freeBlocks_step ht.sound.ok hs1 hargs]

/-- **The tree and the chunk lists hold exactly the free blocks**, in every state of a history in
which the lengths of the blocks are below `2 ^ 32`. -/
theorem allStates_indexed (es : List Event)
    (h : Transition.AllSteps trackedStep (fun t e => LengthsBelow t.1 e) (init, ∅) es) :
    Transition.AllStates trackedStep (fun t => Indexed t.1 t.2) (init, ∅) es :=
  (allStates_tracked es h).mono fun _ => Tracked.indexed

/-- Two blocks are taken from a region and the first one is given back. -/
theorem allStates_indexed_region :
    (Transition.run trackedStep (init, ∅)
      [.expandHeap 4096 4096, .malloc 100, .malloc 50, .free 4192]).isSome ∧
    Transition.AllStates trackedStep (fun t => Indexed t.1 t.2) (init, ∅)
      [.expandHeap 4096 4096, .malloc 100, .malloc 50, .free 4192] := by
  refine ⟨by decide +kernel, allStates_indexed _ ?_⟩
  intro t₁ h₁
  obtain rfl := Option.some.inj h₁
  refine ⟨by unfold LengthsBelow; decide +kernel, ?_⟩
  intro t₂ h₂
  obtain rfl := Option.some.inj h₂
  refine ⟨by unfold LengthsBelow; decide +kernel, ?_⟩
  intro t₃ h₃
  obtain rfl := Option.some.inj h₃
  refine ⟨by unfold LengthsBelow; decide +kernel, ?_⟩
  intro t₄ h₄
  exact ⟨by unfold LengthsBelow; decide +kernel, trivial⟩

end Alloc

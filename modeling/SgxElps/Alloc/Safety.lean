/-
**The blocks of the allocator never overlap, as long as every bucket is defined.**

The safety of the allocator over whole histories of `malloc`, `free` and `expandHeap`.  A state is
safe if no operation was undefined, the free and the live blocks do not overlap and lie in the
supplied regions, and the last operation wrote to no live block but the one it returned or freed.  A
history is safe throughout if and only if no operation in it passes a multiple of `2 ^ 32` to
`sizeToBucket`.

Such lengths do occur in histories in which no address wraps around: `malloc(8)` in a region of
`2 ^ 32 + 200` bytes leaves a rest of exactly `2 ^ 32`.

Main definitions: `Safe`, `BucketsDefined`, `Steps`.  Main results: `ok_step`, `allStates_safe_iff`.
-/

import SgxElps.Alloc.Operations

namespace Alloc

open Option (ite_none_right_eq_some some_inj)
open Transition

/-- A safe state.  The live blocks are recorded with the length that was asked for, so a pointer
returned by `malloc(len)` owns the `len` bytes of its block. -/
structure Safe (s : State) : Prop where
  noFault : s.fault = none
  separated : Span.Separated (blocks s.alloc.mem s.alloc.root s.live)
  inside : ∀ b ∈ blocks s.alloc.mem s.alloc.root s.live, b.bytes ⊆ Span.covered s.regions
  /-- No header the last operation may have written to overlaps a live block, other than the one
  the operation returned or freed. -/
  untouched : ∀ t ∈ s.alloc.touched, ∀ b ∈ s.bystanders,
    Disjoint (⟨t, maSize⟩ : Span).bytes (liveBlock b).bytes

/-- No argument of `sizeToBucket` is a multiple of `2 ^ 32`. -/
def BucketsDefined (s : State) (e : Event) : Prop := ∀ l ∈ bucketArgs s e, ¬ 2 ^ 32 ∣ l

/-- The heap invariant, until an operation is undefined. -/
def Valid (s : State) : Prop := s.fault = none → Ok s.alloc s.live s.regions ∅

variable {s s' : State} {e : Event}

theorem bucketArgs_free (a : ℕ) :
    bucketArgs s (.free (a + maSize)) = freeArgs (s.start.insertRoot a) a := by
  rw [bucketArgs, if_neg (by simp [maSize]), Nat.add_sub_cancel]

/-- `free` is called on null or on a live block. -/
theorem free_of_step {p : ℕ} (hs : step s (.free p) = some s') :
    p = 0 ∨ ∃ b ∈ s.live, p = b.1 + maSize := by
  rw [step, ite_none_right_eq_some] at hs
  refine hs.1.2.imp_right fun hp => ?_
  obtain ⟨b, hb, heq⟩ := List.mem_map.1 hp
  exact ⟨b, hb, heq.symm⟩

/-- **What an operation does** if its buckets are defined. -/
inductive Steps (s : State) : Event → State → Prop
  | malloc {len p : ℕ} {al : Allocator} (hal : malloc s.start len = .ok (p, al)) :
      Steps s (.malloc len) (s.mallocDone len (.ok (p, al)))
  | freeNull : Steps s (.free 0) { s with alloc := s.start, bystanders := s.live }
  | free {b : ℕ × ℕ} {al : Allocator} (hb : b ∈ s.live)
      (hargs : ∀ l ∈ freeArgs (s.start.insertRoot b.1) b.1, ¬ 2 ^ 32 ∣ l)
      (hal : free s.start (b.1 + maSize) = .ok al) :
      Steps s (.free (b.1 + maSize))
        { s with
          alloc := al
          live := s.live.filter fun c => c.1 ≠ b.1
          bystanders := s.live.filter fun c => c.1 ≠ b.1 }
  | expandHeap {base len : ℕ} (hlen : maSize < len)
      (hregions : ∀ r ∈ s.regions, Disjoint (⟨base, len⟩ : Span).bytes r.bytes) :
      Steps s (.expandHeap base len)
        { s with
          alloc := expandHeap s.start base len
          bystanders := s.live
          regions := ⟨base, len⟩ :: s.regions }

section

variable (h : Ok s.alloc s.live s.regions ∅)

include h

theorem Ok.start : Ok s.start s.live s.regions ∅ := h

theorem Safe.of_ok (hf : s.fault = none)
    (hc : Confined s.bystanders s.alloc) : Safe s :=
  ⟨hf, h.separated, h.inside, hc.touched⟩

/-- An operation whose buckets are defined. -/
theorem ok_step (hs : step s e = some s')
    (hargs : BucketsDefined s e) :
    s'.fault = none ∧ Ok s'.alloc s'.live s'.regions ∅ ∧ Confined s'.bystanders s'.alloc ∧
      Steps s e s' := by
  cases e with
  | malloc len =>
    rw [step, ite_none_right_eq_some, some_inj] at hs
    obtain ⟨hf, rfl⟩ := hs
    obtain ⟨p, al, hal, hok, hc⟩ := malloc_ok h.start rfl hargs
    rw [hal]
    exact ⟨hf, hok, hc, .malloc hal⟩
  | free p =>
    have hp := free_of_step hs
    rw [step, ite_none_right_eq_some, some_inj] at hs
    obtain ⟨⟨hf, -⟩, rfl⟩ := hs
    rcases hp with rfl | ⟨b, hb, rfl⟩
    · -- `free(0)` does nothing
      have hfilter : (s.live.filter fun b => b.1 + maSize ≠ 0) = s.live :=
        List.filter_eq_self.2 fun b _ => by simp [maSize]
      rw [free, if_pos rfl]
      simp only [State.freeDone, hfilter]
      exact ⟨hf, h, h.start.confined rfl, .freeNull⟩
    · have hfilter : (s.live.filter fun c => c.1 + maSize ≠ b.1 + maSize) =
          s.live.filter fun c => c.1 ≠ b.1 := by simp
      rw [BucketsDefined, bucketArgs_free] at hargs
      obtain ⟨al, hal, hok, hc⟩ := free_ok h.start rfl hb hargs
      rw [hal]
      simp only [State.freeDone, hfilter]
      exact ⟨hf, hok, hc, .free hb hargs hal⟩
  | expandHeap base len =>
    rw [step, ite_none_right_eq_some, some_inj] at hs
    obtain ⟨⟨hf, hlen, -, hdisj⟩, rfl⟩ := hs
    have hregions : ∀ r ∈ s.regions, Disjoint (⟨base, len⟩ : Span).bytes r.bytes := by
      intro r hr
      rcases hdisj r hr with h1 | h2
      · exact Span.disjoint_bytes h1
      · exact (Span.disjoint_bytes (b := r) h2).symm
    obtain ⟨hok, hc⟩ := expandHeap_ok h.start rfl hlen hregions
    exact ⟨hf, hok, hc, .expandHeap hlen hregions⟩

theorem steps_of_step (hs : step s e = some s') (hargs : BucketsDefined s e) : Steps s e s' :=
  (ok_step h hs hargs).2.2.2

/-- An operation one of whose buckets is not defined. -/
theorem fault_step (hs : step s e = some s')
    (hargs : ¬ BucketsDefined s e) : s'.fault = some .undefinedClz := by
  have hbad : ∃ l ∈ bucketArgs s e, 2 ^ 32 ∣ l := by
    unfold BucketsDefined at hargs
    push Not at hargs
    exact hargs
  cases e with
  | malloc len =>
    rw [step, ite_none_right_eq_some, some_inj] at hs
    obtain ⟨-, rfl⟩ := hs
    rw [malloc_error hbad]
    rfl
  | free p =>
    rcases free_of_step hs with rfl | ⟨b, hb, rfl⟩
    · simp [bucketArgs] at hbad
    · rw [step, ite_none_right_eq_some, some_inj] at hs
      obtain ⟨-, rfl⟩ := hs
      rw [bucketArgs_free] at hbad
      rw [free_error h.start rfl hb hbad]
      rfl
  | expandHeap base len => simp [bucketArgs] at hbad

end

/-- Nothing happens after an undefined operation. -/
theorem fault_eq_none_of_step (hs : step s e = some s') : s.fault = none := by
  cases e <;> rw [step, ite_none_right_eq_some] at hs
  case malloc => exact hs.1
  case free => exact hs.1.1
  case expandHeap => exact hs.1.1

theorem valid_step (h : Valid s) (hs : step s e = some s') : Valid s' := by
  intro hf'
  have hf : s.fault = none := fault_eq_none_of_step hs
  by_cases hargs : BucketsDefined s e
  · exact (ok_step (h hf) hs hargs).2.1
  · rw [fault_step (h hf) hs hargs] at hf'
    cases hf'

theorem valid_init : Valid init := by
  intro _
  refine ⟨List.Pairwise.nil, ?_, ?_, ?_, ?_, ?_, List.Pairwise.nil, ?_, ?_, ?_, ?_, ?_⟩ <;>
    simp [init, Allocator.empty, blocks]

theorem safe_init : Safe init where
  noFault := rfl
  separated := List.Pairwise.nil
  inside := by simp [init, Allocator.empty, blocks]
  untouched := by simp [init, Allocator.empty]

/-- **When the allocator is safe.**  All states of a history are safe if and only if no operation in it
passes a multiple of `2 ^ 32` to `sizeToBucket`. -/
theorem allStates_safe_iff (es : List Event) :
    Transition.AllStates step Safe init es ↔ Transition.AllSteps step BucketsDefined init es := by
  refine allStates_iff_allSteps (J := Valid) (fun _ _ _ => valid_step) ?_ es valid_init
    safe_init
  intro s e s' hv hsafe hs
  have hok := hv hsafe.noFault
  constructor
  · intro hsafe'
    by_contra hargs
    have hfault := fault_step hok hs hargs
    rw [hsafe'.noFault] at hfault
    cases hfault
  · intro hargs
    obtain ⟨hf, hok', hc, -⟩ := ok_step hok hs hargs
    exact Safe.of_ok hok' hf hc

/-- A region of `2 ^ 32 + 200` bytes is supplied and `malloc(8)` called: the rest of the block has
length `2 ^ 32`, and its bucket is not defined. -/
theorem malloc_leaves_undefined_bucket :
    ∃ s, run step init [.expandHeap 4096 (2 ^ 32 + 200), .malloc 8] = some s ∧
      s.fault = some .undefinedClz ∧ ¬ Safe s := by
  obtain ⟨s, hrun, hfault⟩ : ∃ s,
      run step init [.expandHeap 4096 (2 ^ 32 + 200), .malloc 8] = some s ∧
        s.fault = some .undefinedClz := ⟨_, rfl, rfl⟩
  refine ⟨s, hrun, hfault, fun hsafe => ?_⟩
  rw [hsafe.noFault] at hfault
  cases hfault

end Alloc

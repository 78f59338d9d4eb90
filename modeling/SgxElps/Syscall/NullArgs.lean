/-
**Null pointers among the arguments.**

Several calls take optional pointers.  `fillArgs` looks at none of them before it takes a block: a null
argument is not copied, but it is passed on as the address of a block like any other.  A length that stands
behind a pointer is read through it whether or not the pointer is null.

Main definition: `Preserved`.  Main result: `preserved_iff`.
-/

import SgxElps.Syscall.Checked

namespace Syscall

open Except (bind_eq_error)
open Prepared Marshalling

/-! ### Where a run can stop -/

namespace Checked

variable {heap : Heap} {s s' : Progress} {e : Stop}

theorem malloc_stops {size : ℕ} (h : malloc heap s size = .error (e, s')) : e = .nullWrite := by
  unfold malloc at h
  split at h
  · cases h
  · split at h
    · cases h
      rfl
    · cases h

theorem memcpy_stops {dst src len : ℕ} (h : memcpy s dst src len = .error (e, s')) :
    e = .nullMember ∨ e = .nullWrite := by
  unfold memcpy at h
  split at h
  · cases h
  · split at h
    · cases h
      exact .inr rfl
    · split at h
      · cases h
        exact .inl rfl
      · cases h

theorem memberCopy_stops {onNull : Stop} {src des tar len width fac : ℕ}
    (h : memberCopy heap onNull s src des tar len width fac = .error (e, s')) :
    (e = onNull ∧ src = 0) ∨ e = .nullMember ∨ e = .nullWrite := by
  unfold memberCopy at h
  split at h <;> rename_i hsrc
  · cases h
    exact .inl ⟨rfl, hsrc⟩
  · refine .inr ?_
    dsimp only at h
    rcases bind_eq_error.1 h with h | ⟨⟨p, s₁⟩, -, h⟩
    · exact .inr (malloc_stops h)
    · split at h
      · cases h
        exact .inr rfl
      · exact memcpy_stops h

theorem copySegments_stops {onNull : Stop} {src des k : ℕ}
    (h : copySegments heap onNull s src des k = .error (e, s')) :
    (e = onNull ∧ src = 0) ∨ e = .nullMember ∨ e = .nullWrite := by
  induction k generalizing s src des with
  | zero => cases h
  | succ k ih =>
    rcases bind_eq_error.1 h with h | ⟨s₁, -, h⟩
    · exact memberCopy_stops h
    · rcases ih h with ⟨-, hsrc⟩ | h
      · omega
      · exact .inr h

theorem deepCopy_stops {n i src des count : ℕ}
    (h : deepCopy heap s n i src des count = .error (e, s')) :
    (e = .nullArg i ∧ src = 0) ∨ e = .nullMember ∨ e = .nullWrite := by
  unfold deepCopy at h
  split at h
  · exact copySegments_stops h
  · split at h
    · rcases bind_eq_error.1 h with h | ⟨s₁, -, h⟩
      · rcases bind_eq_error.1 h with h | ⟨s₁, -, h⟩
        · exact memberCopy_stops h
        · rcases bind_eq_error.1 h with h | ⟨s₂, -, h⟩
          · exact memberCopy_stops h
          · exact memberCopy_stops h
      · rcases copySegments_stops h with ⟨rfl, -⟩ | h
        · exact .inr (.inl rfl)
        · exact .inr h
    · cases h

theorem fillPointer_stops {req n i size : ℕ} {arg : ℕ → ℕ}
    (h : fillPointer heap req n arg s i size = .error (e, s')) :
    (e = .nullArg i ∧ arg i = 0) ∨ e = .nullMember ∨ e = .nullWrite := by
  unfold fillPointer at h
  dsimp only at h
  rcases bind_eq_error.1 h with h | ⟨⟨p, s₁⟩, -, h⟩
  · exact .inr (.inr (malloc_stops h))
  rcases bind_eq_error.1 h with h | ⟨s₂, -, h⟩
  · unfold copyArg at h
    split at h
    · cases h
    · exact .inr (memcpy_stops h)
  rcases bind_eq_error.1 h with h | ⟨s₃, -, h⟩
  · exact deepCopy_stops h
  · cases h

/-- **Where `fillArgs` can stop**: at a null argument that it follows, which is the pointer of a round or the
length pointer after it, or further down. -/
theorem fillFrom_stops {req n : ℕ} {types : List ArgType} {arg : ℕ → ℕ} {k : ℕ} :
    ∀ {s : Progress} {i : ℕ}, fillFrom heap req n types arg s i k = .error (e, s') →
      (∃ j, e = .nullArg j ∧ arg j = 0 ∧
        (types[j]?.getD .nonPtr ≠ .nonPtr ∨ ∃ i, j = i + 1 ∧ byPointer n i = true)) ∨
      e = .nullMember ∨ e = .nullWrite := by
  induction k with
  | zero =>
    intro s i h
    cases h
  | succ k ih =>
    intro s i h
    rw [fillFrom] at h
    split at h <;> rename_i htype
    · exact ih h
    · rcases bind_eq_error.1 h with h | ⟨size, -, h⟩
      · unfold getSize at h
        split at h <;> rename_i hsize
        · cases h
          simp only [Bool.and_eq_true, decide_eq_true_eq] at hsize
          exact .inl ⟨i + 1, rfl, hsize.2, .inr ⟨i, rfl, hsize.1⟩⟩
        · cases h
      · rw [if_neg (Nat.not_lt_zero _)] at h
        rcases bind_eq_error.1 h with h | ⟨s₁, -, h⟩
        · rcases fillPointer_stops h with ⟨rfl, harg⟩ | h
          · exact .inl ⟨i, rfl, harg, .inl htype⟩
          · exact .inr h
        · exact ih h

end Checked

namespace Submission

open Checked

variable {c : Submission} {i : ℕ}

section Defs

variable (c : Submission)

/-- `fillArgs` with an allocator that does not fail. -/
def run : Checked (Bool × Progress) := Checked.fillArgs (total c.alloc) c.mem c.req c.n c.types c.arg

/-- `fillArgs` follows no null argument; what is passed on is null exactly if the argument was; and
`fillEnclave` copies nothing to a null argument. -/
structure Preserved : Prop where
  notFollowed : ∀ i s, c.run ≠ .error (.nullArg i, s)
  passedOn : ∀ b s, c.run = .ok (b, s) → ∀ i, c.IsPointer i →
    (argAt s.fill.mem c.req i = 0 ↔ c.arg i = 0)
  notWritten : ∀ b s, c.run = .ok (b, s) → ∀ i, c.IsPointer i → needWriteBack c.n i = true →
    c.arg i = 0 → sizesAt s.fill.mem c.req i = 0

end Defs

theorem isPointer_of_byPointer (h : byPointer c.n i = true) : c.IsPointer (i + 1) := by
  simp only [byPointer, Bool.or_eq_true, Bool.and_eq_true, decide_eq_true_eq] at h
  rcases h with ⟨hn, rfl⟩ | ⟨(hn | hn) | hn, rfl⟩
  · exact (isPointer_iff hn rfl (l := [1, 4, 5]) rfl).2 (by decide)
  · exact (isPointer_iff hn rfl (l := [1, 2]) rfl).2 (by decide)
  · exact (isPointer_iff hn rfl (l := [1, 2]) rfl).2 (by decide)
  · exact (isPointer_iff hn rfl (l := [1, 2]) rfl).2 (by decide)

theorem null_of_run {s : Progress} (h : c.run = .error (.nullArg i, s)) : c.IsPointer i ∧ c.arg i = 0 := by
  rcases fillFrom_stops h with ⟨j, hj, harg, hptr⟩ | h | h
  · cases hj
    rcases hptr with hptr | ⟨i, rfl, hby⟩
    · exact ⟨hptr, harg⟩
    · exact ⟨isPointer_of_byPointer hby, harg⟩
  · cases h
  · cases h

theorem argAt_of_run (hw : c.Walkable) {b : Bool} {s : Progress} (h : c.run = .ok (b, s))
    (hi : c.IsPointer i) : argAt s.fill.mem c.req i ≠ 0 := by
  have hfill : s.fill = c.fill := (fillArgs_sound h).2
  rw [hfill, (fields_fill hw.intact hi).1]
  exact (block_placed hi).2

theorem nullArg_of_fillPointer {s s' : Progress} {e : Stop} (hs : s.fill = c.fillTo i) (hi : c.IsPointer i)
    (hdeep : ∀ (s s' : Progress) (p : ℕ), Checked.deepCopy (total c.alloc) s c.n i (c.arg i) p
      (c.arg (i + 1)) = .error (e, s') → e = .nullArg i)
    (h : fillPointer (total c.alloc) c.req c.n c.arg s i (c.size i) = .error (e, s')) : e = .nullArg i := by
  unfold fillPointer at h
  dsimp only at h
  rcases bind_eq_error.1 h with h | ⟨⟨p, s₁⟩, hp, h⟩
  · rw [malloc_total] at h
    cases h
  have hblock : p = (c.block i).start := by
    rw [malloc_total] at hp
    cases hp
    dsimp only [store]
    rw [hs]
    rfl
  rcases bind_eq_error.1 h with h | ⟨s₂, -, h⟩
  · -- the block is there, and what is copied is not null
    unfold copyArg memcpy at h
    dsimp only at h
    rw [hblock, if_neg (block_placed hi).2] at h
    split at h <;> rename_i harg
    · cases h
    · split at h <;> cases h
  rcases bind_eq_error.1 h with h | ⟨s₃, -, h⟩
  · exact hdeep _ _ _ h
  · cases h

theorem nullArg_of_fillFrom {k : ℕ} {e : Stop} {s' : Progress}
    (hdeep : ∀ i, c.IsPointer i → ∀ (s s' : Progress) (p : ℕ),
      Checked.deepCopy (total c.alloc) s c.n i (c.arg i) p (c.arg (i + 1)) = .error (e, s') →
      e = .nullArg i) :
    ∀ {s : Progress} {i : ℕ}, s.fill = c.fillTo i →
      fillFrom (total c.alloc) c.req c.n c.types c.arg s i k = .error (e, s') → ∃ j, e = .nullArg j := by
  induction k with
  | zero =>
    intro s i _ h
    cases h
  | succ k ih =>
    intro s i hs h
    rw [fillFrom] at h
    split at h <;> rename_i htype
    · refine ih ?_ h
      rw [hs, fillTo_succ_of_not (not_not.2 htype)]
    · rcases bind_eq_error.1 h with h | ⟨size, hsize, h⟩
      · unfold Checked.getSize at h
        split at h <;> cases h
        exact ⟨i + 1, rfl⟩
      · rw [if_neg (Nat.not_lt_zero _)] at h
        obtain rfl : c.size i = size := by
          unfold Checked.getSize at hsize
          split at hsize <;> cases hsize
          rw [hs]
          rfl
        rcases bind_eq_error.1 h with h | ⟨s₁, h1, h⟩
        · exact ⟨i, nullArg_of_fillPointer hs htype (hdeep i htype) h⟩
        · refine ih ?_ h
          have hsize' : c.size i = Syscall.getSize c.n c.types c.arg s.fill.mem i := by
            rw [hs]
            rfl
          rw [hsize'] at h1
          rw [fillPointer_sound htype h1, hs]
          rfl

theorem nullArg_of_run (hw : c.Walkable) (hi : c.IsPointer i) (hnull : c.arg i = 0) {e : Stop}
    {s : Progress} (h : c.run = .error (e, s)) : ∃ j, e = .nullArg j := by
  refine nullArg_of_fillFrom (fun j hj s s' p hstop => ?_) rfl h
  unfold Checked.deepCopy at hstop
  split at hstop <;> rename_i hn
  · -- the only pointer of `writev` is null: the first round of its loop stops, if there is one
    have hall : ∀ j, c.IsPointer j → j = 1 := fun j hj =>
      List.mem_singleton.1 ((isPointer_iff hn rfl (l := [1]) rfl).1 hj)
    obtain rfl := hall j hj
    obtain rfl := hall i hi
    rw [hnull] at hstop
    cases hk : rounds (c.arg (1 + 1)) with
    | zero =>
      rw [hk] at hstop
      cases hstop
    | succ k =>
      rw [hk] at hstop
      cases hstop
      rfl
  · split at hstop <;> rename_i hm
    · -- the only pointer of a message is not null
      have hm : c.IsMessage := hm
      obtain rfl : i = 1 := by
        rcases hm with hn | hn <;>
          exact List.mem_singleton.1 ((isPointer_iff hn rfl (l := [1]) rfl).1 hi)
      exact absurd hnull (hw.arg_ne hm)
    · cases hstop

theorem not_preserved_of_null (hw : c.Walkable) (hi : c.IsPointer i) (hnull : c.arg i = 0) :
    ¬ c.Preserved := by
  intro h
  cases hrun : c.run with
  | error r =>
    obtain ⟨e, s⟩ := r
    obtain ⟨j, rfl⟩ := nullArg_of_run hw hi hnull hrun
    exact h.notFollowed j s hrun
  | ok r =>
    obtain ⟨b, s⟩ := r
    exact argAt_of_run hw hrun hi ((h.passedOn b s hrun i hi).2 hnull)

/-- **Null arguments are preserved only where there are none.** -/
theorem preserved_iff (c : Submission) (hw : c.Walkable) :
    c.Preserved ↔ ∀ i, c.IsPointer i → c.arg i ≠ 0 := by
  constructor
  · exact fun h i hi hnull => not_preserved_of_null hw hi hnull h
  · intro h
    refine ⟨fun i s hrun => ?_, fun b s hrun i hi => ?_, fun b s hrun i hi _ hnull => absurd hnull (h i hi)⟩
    · obtain ⟨hi, hnull⟩ := null_of_run hrun
      exact h i hi hnull
    · exact ⟨fun harg => absurd harg (argAt_of_run hw hrun hi), fun hnull => absurd hnull (h i hi)⟩

/-! ### `accept(3, NULL, NULL)` -/

def acceptCall : Submission :=
  ofBlocks sysAccept [.nonPtr, .sokaddrPtr, .intPtr] [3, 0, 0]
    (requestMem 0x100 sysAccept [.nonPtr, .sokaddrPtr, .intPtr] [3, 0, 0]) pages
    [⟨2 ^ 32, 0⟩, ⟨2 ^ 32 + 0x1000, 4⟩] rfl (by decide) (by decide +kernel) (by decide +kernel)
    (by decide +kernel) (by decide +kernel) (by decide +kernel) (by decide) (by decide)

theorem walkable_acceptCall : acceptCall.Walkable where
  vector h := absurd h (by decide)
  header h := absurd h (by decide)
  array h := absurd h (by decide)
  arg_ne h := absurd h (by decide)

/-- The length of the address is read at address zero. -/
theorem accept_reads_null :
    acceptCall.Walkable ∧ (∃ s, acceptCall.run = .error (.nullArg 2, s)) ∧ ¬ acceptCall.Preserved := by
  have hrun : ∃ s, acceptCall.run = .error (.nullArg 2, s) := ⟨_, rfl⟩
  obtain ⟨s, hs⟩ := hrun
  exact ⟨walkable_acceptCall, ⟨s, hs⟩, fun h => h.notFollowed 2 s hs⟩

theorem preserved_iff_writevCall : writevCall.Walkable ∧ writevCall.Preserved := by
  refine ⟨walkable_writevCall, (preserved_iff writevCall walkable_writevCall).2 fun i hi => ?_⟩
  have hlt : i < 3 := Prepared.IsPointer.lt hi
  exact (show ∀ i < 3, writevCall.arg i ≠ 0 by decide) i hlt

end Submission

end Syscall

/-
**An object that is freed twice.**

The only guard of the slab allocator against a second free is an assertion in `Bitmap::unset`, which
looks at the word of the bitmap as it was before the bit was cleared.  The assertion was meant to test
the bit; but it is written with `&&`, and tests whether the whole word was zero.  So a second free is
stopped only if no object of the slab is in use.  If one is, the second free goes through and
`free_nr` counts one free slot too many.

An object is freed a second time while its slot is not in use again; once it is, freeing the pointer
is freeing the new object.

Main definitions: `debugStep`, `Guarded`.  Main result: `allStates_guarded_iff`.
-/

import SgxElps.Slub.Invariant

namespace Slub

open Option (ite_none_right_eq_some map_eq_some_iff some_inj)
open Transition

variable {Cpu : Type}

/-! ### The debug build -/

/-- The assertion `res && (1UL << slot)` of `Bitmap::unset`. -/
def unsetAsserts (res : BitVec 64) (slot : ℕ) : Prop := res ≠ 0#64 ∧ BitVec.twoPow 64 (slot % 64) ≠ 0#64

theorem unsetAsserts_iff {res : BitVec 64} {slot : ℕ} : unsetAsserts res slot ↔ res ≠ 0#64 := by
  refine and_iff_left fun hzero => ?_
  have hbit := congrArg (fun w => w.getLsbD (slot % 64)) hzero
  have hlt : slot % 64 < 64 := Nat.mod_lt _ (by decide)
  simp [hlt] at hbit

instance (res : BitVec 64) (slot : ℕ) : Decidable (unsetAsserts res slot) :=
  inferInstanceAs (Decidable (_ ∧ _))

/-- Whether `slub_free(ptr)` passes the assertion. -/
def freeAsserts (s : State Cpu) (ptr : ℕ) : Prop :=
  ∀ sl ∈ s.slab (s.word (ptr - headerSize)),
    unsetAsserts sl.bitmap ((ptr - headerSize - sl.mem) / (sl.sizeEach + headerSize))

instance (s : State Cpu) (ptr : ℕ) : Decidable (freeAsserts s ptr) :=
  inferInstanceAs (Decidable (∀ sl ∈ s.slab (s.word (ptr - headerSize)), _))

/-- The state of the debug build: the objects that were freed, whether a second free has gone through,
and whether the assertion has stopped the program. -/
structure DebugState (Cpu : Type) where
  slub : State Cpu
  freed : List Object
  passed : Bool
  stopped : Bool

def debugInit : DebugState Cpu := ⟨init, [], false, false⟩

/-- An operation, or the second free of an object. -/
inductive DebugEvent (Cpu : Type) where
  | op (e : Event Cpu)
  | freeAgain (o : Object)

/-- The slot of the object is not in use. -/
def NotInUse (s : State Cpu) (o : Object) : Prop :=
  match o.place with
  | .slot base k => ∃ sl ∈ s.slab base, k ∉ BitWord.ones sl.bitmap
  | .block => False

instance (s : State Cpu) (o : Object) : Decidable (NotInUse s o) := by
  unfold NotInUse
  split <;> exact inferInstance

variable [DecidableEq Cpu]

/-- A step of the debug build.  `slub_free` stops if the assertion fails. -/
def debugStep (d : DebugState Cpu) : DebugEvent Cpu → Option (DebugState Cpu)
  | .op (.free o) =>
      if d.stopped then none
      else if o ∈ d.slub.objects ∧ ¬ freeAsserts d.slub o.ptr then some { d with stopped := true }
      else (step d.slub (.free o)).map fun s => { d with slub := s, freed := o :: d.freed }
  | .op e => if d.stopped then none else (step d.slub e).map fun s => { d with slub := s }
  | .freeAgain o =>
      if d.stopped = false ∧ o ∈ d.freed ∧ NotInUse d.slub o then
        if freeAsserts d.slub o.ptr then
          (unsafeSlubFree d.slub o.ptr).map fun s => { d with slub := s, passed := true }
        else some { d with stopped := true }
      else none

/-! ### When the assertion is enough -/

/-- **No second free has gone through**, and `free_nr` of every slab is 64 minus the number of the bits
that are set. -/
structure Guarded (d : DebugState Cpu) : Prop where
  stops : d.passed = false
  counted : ∀ base sl, d.slub.slab base = some sl →
    sl.freeNr + (BitWord.ones sl.bitmap).card = objectsPerSlab

/-- No object of the slab of `o` is in use. -/
def SlabUnused (s : State Cpu) (o : Object) : Prop :=
  match o.place with
  | .slot base _ => ∀ sl ∈ s.slab base, sl.bitmap = 0#64
  | .block => True

/-- **The second frees that are stopped.** -/
def SecondFreeStopped (d : DebugState Cpu) : DebugEvent Cpu → Prop
  | .op _ => True
  | .freeAgain o => SlabUnused d.slub o

/-- The header of an object that was freed still points to its slab. -/
inductive FreedOk (s : State Cpu) : Object → Prop
  | slot {ptr len base k : ℕ} {sl : Slab Cpu} (hsl : s.slab base = some sl) (hk : k < objectsPerSlab)
      (hptr : ptr = sl.object k) (hword : s.word (sl.header k) = base) :
      FreedOk s ⟨ptr, len, .slot base k⟩

/-- The invariant, until a second free goes through. -/
def DebugInv (d : DebugState Cpu) : Prop :=
  d.passed = false → Inv d.slub ∧ ∀ o ∈ d.freed, FreedOk d.slub o

section Runs

variable {s s' : State Cpu} {d d' : DebugState Cpu} {o : Object}

omit [DecidableEq Cpu] in
theorem FreedOk.kept (ho : FreedOk s o) (hkept : LinksKept s s') : FreedOk s' o := by
  cases ho with
  | @slot ptr len base k sl hsl hk hptr hword =>
    obtain ⟨sl', hsl', hmem, hsize⟩ := hkept.slab base sl hsl
    have hheader := header_congr hmem hsize k
    refine .slot hsl' hk ?_ ?_
    · rw [hptr, Slab.object, Slab.object, hheader]
    · rw [hheader]
      exact hkept.word base sl k hsl hk hword

omit [DecidableEq Cpu] in
theorem FreedOk.asserts_iff (ho : FreedOk s o) : freeAsserts s o.ptr ↔ ¬ SlabUnused s o := by
  cases ho with
  | @slot ptr len base k sl hsl hk hptr hword =>
    have hbase : s.word (ptr - headerSize) = base := by
      rw [hptr, Slab.object_sub, hword]
    unfold freeAsserts SlabUnused
    simp only [hbase, hsl, Option.mem_some_iff, forall_eq', unsetAsserts_iff, ne_eq]

/-- **What a step of the debug build can do.** -/
inductive DebugCases (d : DebugState Cpu) (d' : DebugState Cpu) : DebugEvent Cpu → Prop
  /-- An operation. -/
  | op {e : Event Cpu} (hs : step d.slub e = some d'.slub) (hpassed : d'.passed = d.passed)
      (hfreed : ∀ o ∈ d'.freed, o ∈ d.freed ∨ e = .free o) : DebugCases d d' (.op e)
  /-- The assertion has failed at the first free of an object. -/
  | stoppedFirst {o : Object} (hd : d' = { d with stopped := true }) : DebugCases d d' (.op (.free o))
  /-- The assertion has failed at the second free of an object. -/
  | stoppedSecond {o : Object} (hd : d' = { d with stopped := true }) (ho : o ∈ d.freed)
      (hfail : ¬ freeAsserts d.slub o.ptr) : DebugCases d d' (.freeAgain o)
  /-- A second free has gone through. -/
  | passed {o : Object} (hpassed : d'.passed = true) (ho : o ∈ d.freed)
      (hassert : freeAsserts d.slub o.ptr) : DebugCases d d' (.freeAgain o)

theorem debugStep_cases {e : DebugEvent Cpu} (hs : debugStep d e = some d') : DebugCases d d' e := by
  cases e with
  | op e =>
    cases e with
    | free o =>
      rw [debugStep, Option.ite_none_left_eq_some] at hs
      obtain ⟨-, hs⟩ := hs
      split at hs
      · exact .stoppedFirst (some_inj.1 hs).symm
      · obtain ⟨s, hstep, rfl⟩ := map_eq_some_iff.1 hs
        refine .op hstep rfl fun o' ho' => ?_
        rcases List.mem_cons.1 ho' with rfl | ho'
        · exact Or.inr rfl
        · exact Or.inl ho'
    | malloc cpu len =>
      rw [debugStep, Option.ite_none_left_eq_some] at hs
      · obtain ⟨s, hstep, rfl⟩ := map_eq_some_iff.1 hs.2
        exact .op hstep rfl fun o' ho' => Or.inl ho'
      · exact nofun
    | heap e =>
      rw [debugStep, Option.ite_none_left_eq_some] at hs
      · obtain ⟨s, hstep, rfl⟩ := map_eq_some_iff.1 hs.2
        exact .op hstep rfl fun o' ho' => Or.inl ho'
      · exact nofun
  | freeAgain o =>
    rw [debugStep, ite_none_right_eq_some] at hs
    obtain ⟨⟨-, ho, -⟩, hs⟩ := hs
    split at hs
    · next hassert =>
      obtain ⟨s, -, rfl⟩ := map_eq_some_iff.1 hs
      exact .passed rfl ho hassert
    · next hfail => exact .stoppedSecond (some_inj.1 hs).symm ho hfail

theorem freedOk_of_free (h : Inv s) (hs : step s (.free o) = some s') : FreedOk s o := by
  rw [step, ite_none_right_eq_some] at hs
  obtain ⟨⟨ho, hlen⟩, -⟩ := hs
  cases h.objects o ho with
  | slot hsl hk hptr hword _ => exact .slot hsl (lt_of_mem_ones hk) hptr hword
  | block _ _ _ hlarge => exact absurd hlen (by dsimp only; omega)

theorem debugInv_step {e : DebugEvent Cpu} (h : DebugInv d) (hs : debugStep d e = some d') :
    DebugInv d' := by
  cases debugStep_cases hs with
  | op hstep hpassed hfreed =>
    intro hp
    obtain ⟨hinv, hold⟩ := h (hpassed ▸ hp)
    obtain ⟨hinv', hkept⟩ := inv_step_linksKept hinv hstep
    refine ⟨hinv', fun o ho => ?_⟩
    rcases hfreed o ho with ho | rfl
    · exact (hold o ho).kept hkept
    · exact (freedOk_of_free hinv hstep).kept hkept
  | stoppedFirst hd =>
    subst hd
    exact h
  | stoppedSecond hd =>
    subst hd
    exact h
  | passed hpassed =>
    intro hp
    rw [hpassed] at hp
    cases hp

omit [DecidableEq Cpu] in
theorem guarded_of_inv (hp : d.passed = false) (h : Inv d.slub) : Guarded d :=
  ⟨hp, fun base sl hsl => (h.slabs base sl hsl).freeNr_add⟩

theorem guarded_step_iff {e : DebugEvent Cpu} (h : DebugInv d) (hg : Guarded d)
    (hs : debugStep d e = some d') : Guarded d' ↔ SecondFreeStopped d e := by
  obtain ⟨hinv, hfreed⟩ := h hg.stops
  cases debugStep_cases hs with
  | op hstep hpassed =>
    exact iff_of_true (guarded_of_inv (hpassed.trans hg.stops) (inv_step hinv hstep)) trivial
  | stoppedFirst hd =>
    subst hd
    exact iff_of_true ⟨hg.stops, hg.counted⟩ trivial
  | @stoppedSecond o hd ho hfail =>
    subst hd
    exact iff_of_true ⟨hg.stops, hg.counted⟩
      (not_not.1 fun hused => hfail ((hfreed o ho).asserts_iff.2 hused))
  | @passed o hpassed ho hassert =>
    refine iff_of_false (fun hg' => ?_) ((hfreed o ho).asserts_iff.1 hassert)
    rw [hg'.stops] at hpassed
    cases hpassed

omit [DecidableEq Cpu] in
theorem debugInv_init : DebugInv (debugInit : DebugState Cpu) := fun _ => ⟨inv_init, nofun⟩

/-- **When the assertion is enough.**  No second free goes through and all counts are right, in every
state of a history, if and only if every second free in it happens when no object of the slab is in
use. -/
theorem allStates_guarded_iff (es : List (DebugEvent Cpu)) :
    Transition.AllStates debugStep Guarded debugInit es ↔
      Transition.AllSteps debugStep SecondFreeStopped debugInit es :=
  allStates_iff_allSteps (fun _ _ _ => debugInv_step)
    (fun _ _ _ h hg hs => guarded_step_iff h hg hs) es debugInv_init
    (guarded_of_inv rfl inv_init)

/-- Two objects are taken from a slab, and the first of them is freed twice. -/
def freedTwice : List (DebugEvent Unit) :=
  [.op (.heap (.expandHeap 65536 65536)), .op (.malloc () 8), .op (.malloc () 8),
    .op (.free ⟨65720, 8, .slot 65632 0⟩), .freeAgain ⟨65720, 8, .slot 65632 0⟩]

/-- **A second free that is not stopped.**  The slab has an object in use, in slot 1, and 64 free slots;
it is in the list of the empty slabs. -/
theorem second_free_goes_through :
    ∃ d sl, run debugStep debugInit freedTwice = some d ∧ d.stopped = false ∧
      d.slub.slab 65632 = some sl ∧ sl.freeNr = 64 ∧ sl.bitmap = 2#64 ∧
      d.slub.list (((), 0), .empty) = [65632] ∧
      ¬ Transition.AllStates debugStep Guarded debugInit freedTwice := by
  have hresult : (run debugStep debugInit freedTwice).bind (fun d =>
      (d.slub.slab 65632).map fun sl =>
        (d.stopped, sl.freeNr, sl.bitmap, d.slub.list (((), 0), .empty))) =
      some (false, 64, 2#64, [65632]) := by
    decide +kernel
  obtain ⟨d, hrun, hd⟩ := Option.bind_eq_some_iff.1 hresult
  obtain ⟨sl, hsl, hvals⟩ := Option.map_eq_some_iff.1 hd
  simp only [Prod.mk.injEq] at hvals
  obtain ⟨hstopped, hfree, hbitmap, hlist⟩ := hvals
  refine ⟨d, sl, hrun, hstopped, hsl, hfree, hbitmap, hlist, fun hall => ?_⟩
  have hcount := (hall.last hrun).counted 65632 sl hsl
  rw [hfree, hbitmap] at hcount
  exact absurd hcount (by decide)

end Runs

end Slub

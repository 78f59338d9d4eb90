/-
**Wait-for relations.**

A relation `R` tells who waits for whom.  A set is deadlocked when each of its members waits for a member
of the set.  If the members can be ranked so that one always waits for another of smaller rank, no
nonempty set is deadlocked.

Main definitions: `Deadlocked`, `OnLock`, `Agrees`.  Main result: `not_deadlocked_of_rank`.
-/

import Mathlib.Order.WellFounded
import Mathlib.Data.Set.Basic
import Mathlib.Logic.Function.Basic

namespace WaitFor

open Function

variable {α β : Type*} {R : α → α → Prop} {S : Set α}

/-- Every member of the set waits for a member of the set. -/
def Deadlocked (R : α → α → Prop) (S : Set α) : Prop := S.Nonempty ∧ ∀ a ∈ S, ∃ b ∈ S, R a b

/-- **A rank excludes deadlocks.** -/
theorem not_deadlocked_of_rank [Preorder β] [WellFoundedLT β] (rank : α → β)
    (hrank : ∀ a ∈ S, ∀ b ∈ S, R a b → rank b < rank a) : ¬ Deadlocked R S := by
  rintro ⟨hne, hall⟩
  -- a member of least rank waits for nobody
  obtain ⟨a, ha, hmin⟩ := (InvImage.wf rank wellFounded_lt).has_min S hne
  obtain ⟨b, hb, hab⟩ := hall a ha
  exact hmin b hb (hrank a ha b hb hab)

/-! ### Locks -/

section Locks

variable {L : Type*} {holder : L → Option α} {wants : α → Option L} {held held' : α → List L} {a : α}
  {lock : L}

/-- `a` waits for a lock that `b` holds. -/
def OnLock (wants : α → Option L) (holder : L → Option α) (a b : α) : Prop :=
  ∃ lock, wants a = some lock ∧ holder lock = some b

/-- The holder of a lock is the one that has it among its held locks. -/
def Agrees (holder : L → Option α) (held : α → List L) : Prop :=
  ∀ lock a, holder lock = some a ↔ lock ∈ held a

section

variable (h : Agrees holder held)

include h

theorem Agrees.unique {a b : α} (ha : lock ∈ held a) (hb : lock ∈ held b) :
    a = b :=
  Option.some.inj (((h lock a).2 ha).symm.trans ((h lock b).2 hb))

theorem Agrees.congr (hheld : ∀ b, held' b = held b) : Agrees holder held' := by
  intro x b
  rw [hheld]
  exact h x b

theorem Agrees.acquire [DecidableEq L] (hfree : holder lock = none)
    (hself : ∀ x, x ∈ held' a ↔ x = lock ∨ x ∈ held a) (hother : ∀ b, b ≠ a → held' b = held b) :
    Agrees (update holder lock (some a)) held' := by
  have hnot : ∀ b, lock ∉ held b := by
    intro b hb
    rw [(h lock b).2 hb] at hfree
    cases hfree
  intro x b
  by_cases hb : b = a
  · subst hb
    rw [hself, ← h x b]
    by_cases hx : x = lock
    · simp [hx]
    · simp [hx]
  · rw [hother b hb, ← h x b]
    by_cases hx : x = lock
    · subst hx
      simp [hfree, Ne.symm hb]
    · simp [hx]

theorem Agrees.release [DecidableEq L]
    (hself : ∀ x, x ∈ held a ↔ x = lock ∨ x ∈ held' a) (hnot : lock ∉ held' a)
    (hother : ∀ b, b ≠ a → held' b = held b) : Agrees (update holder lock none) held' := by
  intro x b
  by_cases hx : x = lock
  · subst hx
    rw [update_self]
    refine ⟨nofun, fun hb => ?_⟩
    by_cases hba : b = a
    · exact absurd (hba ▸ hb) hnot
    · rw [hother b hba] at hb
      exact absurd (h.unique hb ((hself x).2 (.inl rfl))) hba
  · rw [update_of_ne hx, h x b]
    by_cases hba : b = a
    · subst hba
      simp [hself, hx]
    · rw [hother b hba]

/-- Only those count that wait and hold a lock. -/
theorem Agrees.not_deadlocked_of_holds [Preorder β] [WellFoundedLT β] (rank : α → β)
    (hrank : ∀ a b lock lock', wants a = some lock → lock ∈ held b → wants b = some lock' →
      rank b < rank a) : ¬ Deadlocked (OnLock wants holder) S := by
  rintro hdead
  refine not_deadlocked_of_rank rank (fun a _ b hb hab => ?_) hdead
  obtain ⟨lock, hwants, hholder⟩ := hab
  obtain ⟨c, -, lock', hwants', -⟩ := hdead.2 b hb
  exact hrank a b lock lock' hwants ((h lock b).1 hholder) hwants'

end

end Locks

end WaitFor

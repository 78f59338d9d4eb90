/-
**Systems of two, three and four participants.**

Concrete runs name their participants by the numerals of `Fin 2`, `Fin 3` and `Fin 4`, which rest on these
instances.
-/

import Mathlib.Algebra.NeZero
import Mathlib.Data.Nat.Notation

namespace Participants

instance neZero_two : @NeZero ℕ Zero.ofOfNat0 2 := ⟨by decide⟩

instance neZero_three : @NeZero ℕ Zero.ofOfNat0 3 := ⟨by decide⟩

instance neZero_four : @NeZero ℕ Zero.ofOfNat0 4 := ⟨by decide⟩

end Participants

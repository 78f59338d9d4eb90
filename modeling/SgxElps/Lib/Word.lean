/-
**64-bit machine words.**

Facts about `UInt64` and `Int64` that do not depend on the program: when an addition does not wrap
around, what a mask of `2 ^ b - 1` selects, and the value of a signed difference of two unsigned
words.

Main results: `toNat_and_mask`, `toInt_signedSub`.
-/

import Mathlib.Data.Nat.Basic
import Mathlib.Tactic.Ring

namespace Word

theorem toNat_add_of_lt {a b : UInt64} (h : a.toNat + b.toNat < 2 ^ 64) :
    (a + b).toNat = a.toNat + b.toNat := by
  rw [UInt64.toNat_add, Nat.mod_eq_of_lt h]

theorem toNat_sub_one {a : UInt64} (h : 0 < a.toNat) : (a - 1).toNat = a.toNat - 1 := by
  have hle : (1 : UInt64) ≤ a := UInt64.le_iff_toNat_le.2 h
  rw [UInt64.toNat_sub_of_le a 1 hle]
  rfl

theorem exists_eq_two_pow {n : UInt64} (hpos : 0 < n.toNat) (h : n &&& (n - 1) = 0) :
    ∃ b, n.toNat = 2 ^ b := by
  have hnat : n.toNat &&& (n.toNat - 1) = 0 := by
    have := congrArg UInt64.toNat h
    rw [UInt64.toNat_and, toNat_sub_one hpos] at this
    exact this
  exact (Nat.and_sub_one_eq_zero_iff_isPowerOfTwo hpos.ne').1 hnat

theorem toNat_and_mask {n : UInt64} {b : ℕ} (hn : n.toNat = 2 ^ b) (a : UInt64) :
    (a &&& (n - 1)).toNat = a.toNat % n.toNat := by
  have hpos : 0 < n.toNat := by rw [hn]; exact Nat.two_pow_pos b
  rw [UInt64.toNat_and, toNat_sub_one hpos, hn, Nat.and_two_pow_sub_one_eq_mod]

theorem toInt_toInt64 (a : UInt64) : a.toInt64.toInt = (a.toNat : ℤ).bmod (2 ^ 64) := by
  change a.toBitVec.toInt = _
  rw [BitVec.toInt_eq_toNat_bmod]
  rfl

theorem toInt_signedSub (a b : UInt64) :
    (a.toInt64 - b.toInt64).toInt = ((a.toNat : ℤ) - b.toNat).bmod (2 ^ 64) := by
  rw [Int64.toInt_sub, toInt_toInt64, toInt_toInt64, Int.bmod_sub_bmod, Int.sub_bmod_bmod]

theorem signedSub_eq_zero_iff (a b : UInt64) : a.toInt64 - b.toInt64 = 0 ↔ a = b := by
  constructor
  · intro h
    have hz : ((a.toNat : ℤ) - b.toNat).bmod (2 ^ 64) = 0 := by
      rw [← toInt_signedSub, h]
      rfl
    have ha := a.toNat_lt
    have hb := b.toNat_lt
    apply UInt64.toNat_inj.1
    rw [Int.bmod_def] at hz
    split at hz <;> omega
  · intro h
    rw [h, Int64.sub_self]

theorem signedSub_not_neg {a b : UInt64} (hle : b.toNat ≤ a.toNat)
    (hlt : a.toNat - b.toNat < 2 ^ 63) : ¬ a.toInt64 - b.toInt64 < 0 := by
  rw [Int64.lt_iff_toInt_lt, toInt_signedSub, Int.bmod_def]
  have : (0 : Int64).toInt = 0 := rfl
  split <;> omega

end Word

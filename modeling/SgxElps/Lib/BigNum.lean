/-
**Big numbers and their bytes.**

A number is read from and written to a string of bytes with the most significant byte first, and written
into a buffer of a given length with the least significant byte first.  A string of records that all have
the same length can be taken apart in one way only.

Main definitions: `ofBytes`, `toBytes`, `toBytesLE`, `numBytes`.
Main results: `ofBytes_toBytes`, `toBytesLE_inj`, `numBytes_eq_iff`.
-/

import SgxElps.Lib.Bytes
import Mathlib.Data.Nat.Size

open List

namespace Bytes

/-- The first `n` bytes of `src` are copied to `a`. -/
def place (m : Mem) (a n : ℕ) (src : Mem) : Mem := fun x =>
  if a ≤ x ∧ x < a + n then src (x - a) else m x

variable {m src : Mem} {a b n k x : ℕ}

theorem place_of_notMem (h : x < a ∨ a + n ≤ x) : place m a n src x = m x := if_neg (by omega)

theorem read_place : read (place m a n src) a n = read src 0 n := by
  refine read_eq_of_shift fun i hi => ?_
  rw [place, if_pos (by omega), Nat.add_sub_cancel_left, Nat.zero_add]

theorem read_place_of_disjoint (h : b + k ≤ a ∨ a + n ≤ b) :
    read (place m a n src) b k = read m b k :=
  read_congr fun _ _ _ => place_of_notMem (by omega)

end Bytes

namespace BigNum

/-- The number with the given bytes, the most significant one first. -/
def ofBytes (bs : List UInt8) : ℕ := bs.foldl (fun v b => 256 * v + b.toNat) 0

/-- The `n` low bytes of a number, the most significant one first. -/
def toBytes : ℕ → ℕ → List UInt8
  | 0, _ => []
  | n + 1, v => toBytes n (v / 256) ++ [UInt8.ofNat v]

/-- The `n` low bytes of a number, the least significant one first. -/
def toBytesLE (n v : ℕ) : List UInt8 := (toBytes n v).reverse

/-- The number of bytes without leading zeros. -/
def numBytes (v : ℕ) : ℕ := (v.size + 7) / 8

/-- The number is stored in the buffer, filled up to `n` bytes, if it has no more; otherwise the buffer
stays as it is. -/
def padLE (buf : Bytes.Mem) (n v : ℕ) : Bytes.Mem := if v < 256 ^ n then Bytes.write buf 0 n v else buf

variable {n v : ℕ} {buf : Bytes.Mem}

theorem length_toBytes : (toBytes n v).length = n := by
  induction n generalizing v with
  | zero => rfl
  | succ n ih => rw [toBytes, length_append, ih, length_singleton]

theorem ofBytes_append_singleton (bs : List UInt8) (b : UInt8) :
    ofBytes (bs ++ [b]) = 256 * ofBytes bs + b.toNat := by
  rw [ofBytes, foldl_append, foldl_cons, foldl_nil, ofBytes]

/-- **Reading what was written.** -/
theorem ofBytes_toBytes (h : v < 256 ^ n) : ofBytes (toBytes n v) = v := by
  induction n generalizing v with
  | zero =>
    rw [pow_zero, Nat.lt_one_iff] at h
    rw [h]
    rfl
  | succ n ih =>
    rw [toBytes, ofBytes_append_singleton, ih, UInt8.toNat_ofNat']
    · exact Nat.div_add_mod v 256
    · rw [pow_succ'] at h
      exact Nat.div_lt_of_lt_mul h

theorem length_toBytesLE : (toBytesLE n v).length = n := by
  rw [toBytesLE, length_reverse, length_toBytes]

/-- **Different numbers have different bytes.** -/
theorem toBytesLE_inj {w : ℕ} (hv : v < 256 ^ n) (hw : w < 256 ^ n)
    (h : toBytesLE n v = toBytesLE n w) : v = w := by
  rw [← ofBytes_toBytes hv, ← ofBytes_toBytes hw, reverse_injective h]

/-- **Unique decodability**: a string of records that all have the same length gives back the records. -/
theorem map_eq_of_flatMap_eq {α : Type} {f : α → List UInt8} (hn : 0 < n)
    (hf : ∀ a, (f a).length = n) {l l' : List α} (h : l.flatMap f = l'.flatMap f) :
    l.map f = l'.map f := by
  induction l generalizing l' with
  | nil =>
    cases l' with
    | nil => rfl
    | cons a l' =>
      have hlen := congrArg length h
      rw [flatMap_nil, flatMap_cons, length_append, hf, length_nil] at hlen
      omega
  | cons a l ih =>
    cases l' with
    | nil =>
      have hlen := congrArg length h
      rw [flatMap_nil, flatMap_cons, length_append, hf, length_nil] at hlen
      omega
    | cons b l' =>
      rw [flatMap_cons, flatMap_cons] at h
      obtain ⟨hhead, htail⟩ := append_inj h ((hf a).trans (hf b).symm)
      rw [map_cons, map_cons, hhead, ih htail]

theorem pow_eq_two_pow {k : ℕ} (h : k = 8 * n) : 256 ^ n = 2 ^ k := by
  rw [h, pow_mul, show 2 ^ 8 = 256 from rfl]

/-- **The numbers with a given number of bytes.** -/
theorem numBytes_eq_iff {k : ℕ} (h : k = n + 1) : numBytes v = k ↔ 256 ^ n ≤ v ∧ v < 256 ^ k := by
  rw [pow_eq_two_pow rfl, pow_eq_two_pow rfl, ← Nat.lt_size, ← Nat.size_le, numBytes]
  omega

theorem read_padLE (h : v < 256 ^ n) : Bytes.read (padLE buf n v) 0 n = v := by
  rw [padLE, if_pos h, Bytes.read_write_self, Nat.mod_eq_of_lt h]

end BigNum

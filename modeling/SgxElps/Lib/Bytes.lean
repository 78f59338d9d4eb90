/-
**Memory as a function from addresses to bytes.**

Numbers are stored little-endian: `Bytes.read m a n` is the number in the `n` bytes from `a` on, and
`Bytes.write m a n v` stores the `n` low bytes of `v` there.  `Bytes.copy` is `memcpy`, and `Bytes.fill`
is `memset`.

Main definitions: `read`, `write`, `copy`, `AgreeOn`, `AgreeOff`.
Main results: `read_write_self`, `read_write_of_disjoint`.
-/

import SgxElps.Lib.Span
import Mathlib.Data.Nat.ModEq

namespace Bytes

open Span

abbrev Mem := ℕ → UInt8

/-- The number in the `n` bytes from `a` on. -/
def read (m : Mem) (a : ℕ) : ℕ → ℕ
  | 0 => 0
  | n + 1 => (m a).toNat + 256 * read m (a + 1) n

/-- The `n` low bytes of `v` are stored from `a` on. -/
def write (m : Mem) (a n v : ℕ) : Mem := fun x =>
  if a ≤ x ∧ x < a + n then UInt8.ofNat (v / 256 ^ (x - a)) else m x

/-- `memcpy(dst, src, len)`; overlapping ranges behave as `memmove`. -/
def copy (m : Mem) (dst src len : ℕ) : Mem := fun x =>
  if dst ≤ x ∧ x < dst + len then m (src + (x - dst)) else m x

/-- `memset(dst, v, len)`. -/
def fill (m : Mem) (dst : ℕ) (v : UInt8) (len : ℕ) : Mem := fun x =>
  if dst ≤ x ∧ x < dst + len then v else m x

/-- The bytes from `a` on are the same in both memories. -/
def AgreeOn (m m' : Mem) (a n : ℕ) : Prop := ∀ x, a ≤ x → x < a + n → m x = m' x

variable {m m' : Mem} {a b n k v : ℕ}

/-! ### Reading -/

theorem read_lt (m : Mem) (a n : ℕ) : read m a n < 256 ^ n := by
  induction n generalizing a with
  | zero => simp [read]
  | succ n ih =>
    have hb := (m a).toNat_lt
    have hr := ih (a + 1)
    rw [read, pow_succ]
    omega

theorem read_congr (h : AgreeOn m m' a n) : read m a n = read m' a n := by
  induction n generalizing a with
  | zero => rfl
  | succ n ih =>
    rw [read, read, h a (by omega) (by omega),
      ih fun x hx hx' => h x (by omega) (by omega)]

/-- The bytes of a number determine what is read. -/
theorem read_eq_of_bytes (h : ∀ i < n, m (a + i) = UInt8.ofNat (v / 256 ^ i)) :
    read m a n = v % 256 ^ n := by
  induction n generalizing a v with
  | zero => simp [read, Nat.mod_one]
  | succ n ih =>
    have h0 := h 0 (by omega)
    have ht : ∀ i < n, m (a + 1 + i) = UInt8.ofNat (v / 256 / 256 ^ i) := by
      intro i hi
      rw [Nat.div_div_eq_div_mul, ← pow_succ', add_assoc, add_comm 1 i]
      exact h (i + 1) (by omega)
    rw [read, ih ht, pow_succ', Nat.mod_mul]
    simp only [add_zero, pow_zero, Nat.div_one] at h0
    rw [h0, UInt8.toNat_ofNat']

/-! ### Storing -/

theorem write_of_notMem {x : ℕ} (h : x < a ∨ a + n ≤ x) : write m a n v x = m x := by
  rw [write, if_neg (by omega)]

theorem copy_of_notMem {src x : ℕ} (h : x < a ∨ a + n ≤ x) : copy m a src n x = m x := by
  rw [copy, if_neg (by omega)]

theorem copy_add {src k : ℕ} (hk : k < n) : copy m a src n (a + k) = m (src + k) := by
  rw [copy, if_pos (by omega), Nat.add_sub_cancel_left]

theorem copy_zero {src : ℕ} : copy m a src 0 = m :=
  funext fun _ => copy_of_notMem (by omega)

theorem fill_add {v : UInt8} {k : ℕ} (hk : k < n) : fill m a v n (a + k) = v := by
  rw [fill, if_pos (by omega)]

theorem read_write_self : read (write m a n v) a n = v % 256 ^ n := by
  refine read_eq_of_bytes fun i hi => ?_
  rw [write, if_pos (by omega), Nat.add_sub_cancel_left]

theorem read_write_of_disjoint (h : b + k ≤ a ∨ a + n ≤ b) :
    read (write m a n v) b k = read m b k :=
  read_congr fun _ _ _ => write_of_notMem (by omega)

/-- The bytes of the number read are the bytes in memory. -/
theorem ofNat_read_div {i : ℕ} (hi : i < n) : UInt8.ofNat (read m a n / 256 ^ i) = m (a + i) := by
  induction n generalizing a i with
  | zero => omega
  | succ n ih =>
    have hb : (m a).toNat < 256 := (m a).toNat_lt
    cases i with
    | zero =>
      rw [read, pow_zero, Nat.div_one, add_zero, ← UInt8.toNat_inj, UInt8.toNat_ofNat']
      omega
    | succ i =>
      rw [read, pow_succ', ← Nat.div_div_eq_div_mul, Nat.add_mul_div_left _ _ (by omega),
        Nat.div_eq_of_lt hb, zero_add, ih (by omega), add_assoc, add_comm 1 i]

/-- Equal bytes at two places are the same number. -/
theorem read_eq_of_shift {b : ℕ} (h : ∀ i < n, m (a + i) = m' (b + i)) : read m a n = read m' b n := by
  rw [read_eq_of_bytes fun i hi => (h i hi).trans (ofNat_read_div hi).symm,
    Nat.mod_eq_of_lt (read_lt m' b n)]

theorem write_read_self : write m a n (read m a n) = m := by
  funext x
  by_cases hx : a ≤ x ∧ x < a + n
  · rw [write, if_pos hx, ofNat_read_div (by omega), Nat.add_sub_cancel' hx.1]
  · rw [write, if_neg hx]

/-! ### Memories that differ in a given set only -/

/-- The memories agree outside `S`. -/
def AgreeOff (S : Set ℕ) (m m' : Mem) : Prop := ∀ a, a ∉ S → m' a = m a

namespace AgreeOff

variable {S : Set ℕ}

theorem refl (S : Set ℕ) (m : Mem) : AgreeOff S m m := fun _ _ => rfl

theorem read_eq (h : AgreeOff S m m') (hS : ∀ x ∈ (⟨a, n⟩ : Span).bytes, x ∉ S) :
    read m' a n = read m a n :=
  read_congr fun x h1 h2 => h x (hS x ⟨h1, h2⟩)

theorem mono {T : Set ℕ} (h : AgreeOff S m m') (hST : S ⊆ T) : AgreeOff T m m' :=
  fun x hx => h x fun hS => hx (hST hS)

theorem trans {m'' : Mem} (h : AgreeOff S m m') (h' : AgreeOff S m' m'') : AgreeOff S m m'' :=
  fun x hx => (h' x hx).trans (h x hx)

theorem write (h : AgreeOff S m m') (hd : (⟨a, n⟩ : Span).bytes ⊆ S) :
    AgreeOff S m (write m' a n v) := by
  intro x hx
  rw [write_of_notMem, h x hx]
  by_contra hin
  exact hx (hd (mem_bytes.2 (by omega)))

theorem copy (h : AgreeOff S m m') {src : ℕ} (hd : (⟨a, n⟩ : Span).bytes ⊆ S) :
    AgreeOff S m (copy m' a src n) := by
  intro x hx
  rw [copy_of_notMem, h x hx]
  by_contra hin
  exact hx (hd (mem_bytes.2 (by omega)))

/-! Two memories in step. -/

theorem write_both (h : AgreeOff S m m') : AgreeOff S (Bytes.write m a n v) (Bytes.write m' a n v) := by
  intro x hx
  unfold Bytes.write
  split
  · rfl
  · exact h x hx

/-- The same copy in both memories: the source agrees, or the target need not. -/
theorem copy_both (h : AgreeOff S m m') {src : ℕ}
    (hcopy : (∀ x ∈ (⟨src, n⟩ : Span).bytes, x ∉ S) ∨ (⟨a, n⟩ : Span).bytes ⊆ S) :
    AgreeOff S (Bytes.copy m a src n) (Bytes.copy m' a src n) := by
  intro x hx
  by_cases hin : a ≤ x ∧ x < a + n
  · obtain ⟨o, rfl⟩ := Nat.exists_eq_add_of_le hin.1
    have ho : o < n := by omega
    rw [copy_add ho, copy_add ho]
    rcases hcopy with hsrc | hdst
    · exact h _ (hsrc _ (mem_bytes.2 (by omega)))
    · exact absurd (hdst (mem_bytes.2 hin)) hx
  · rw [copy_of_notMem (by omega), copy_of_notMem (by omega), h x hx]

end AgreeOff

/-! ### Replacing bytes of some spans -/

/-- Byte `o` of span `j` becomes `new j o`, if that is given; where spans overlap the first counts. -/
def overwrite : List Span → (ℕ → ℕ → Option UInt8) → Mem → Mem
  | [], _, m => m
  | b :: l, new, m => fun x =>
      if b.start ≤ x ∧ x < b.start + b.len then (new 0 (x - b.start)).getD (m x)
      else overwrite l (fun j => new (j + 1)) m x

variable {new : ℕ → ℕ → Option UInt8} {l : List Span} {s : Span} {x j o : ℕ}

theorem overwrite_cons_of_mem (h : x ∈ s.bytes) :
    overwrite (s :: l) new m x = (new 0 (x - s.start)).getD (m x) :=
  if_pos h

theorem overwrite_cons_of_notMem (h : x ∉ s.bytes) :
    overwrite (s :: l) new m x = overwrite l (fun j => new (j + 1)) m x :=
  if_neg h

theorem overwrite_of_notMem (h : x ∉ covered l) : overwrite l new m x = m x := by
  induction l generalizing new with
  | nil => rfl
  | cons b l ih =>
    rw [mem_covered_cons, not_or] at h
    rw [overwrite_cons_of_notMem h.1, ih h.2]

/-- A byte that is in one span only. -/
theorem overwrite_of_mem (hl : l[j]? = some ⟨a, n⟩) (ho : o < n)
    (hone : ∀ k b, k < j → l[k]? = some b → a + o ∉ b.bytes) :
    overwrite l new m (a + o) = (new j o).getD (m (a + o)) := by
  induction l generalizing new j with
  | nil => simp at hl
  | cons b l ih =>
    cases j with
    | zero =>
      simp only [List.getElem?_cons_zero, Option.some.injEq] at hl
      subst hl
      rw [overwrite_cons_of_mem (mem_bytes.2 (by omega)), Nat.add_sub_cancel_left]
    | succ j =>
      have hb : a + o ∉ b.bytes := hone 0 b (Nat.succ_pos j) rfl
      rw [overwrite_cons_of_notMem hb, ih (by simpa using hl)]
      intro k d hk hd
      exact hone (k + 1) d (Nat.succ_lt_succ hk) (by simpa using hd)

theorem overwrite_of_none (h : ∀ k b, l[k]? = some b → x ∈ b.bytes → new k (x - b.start) = none) :
    overwrite l new m x = m x := by
  induction l generalizing new with
  | nil => rfl
  | cons b l ih =>
    by_cases hx : x ∈ b.bytes
    · rw [overwrite_cons_of_mem hx, h 0 b rfl hx, Option.getD_none]
    · rw [overwrite_cons_of_notMem hx]
      exact ih fun k d hk hx => h (k + 1) d (by simpa using hk) hx

end Bytes

/-
**The signature of the enclave.**

`getSigstruct` in `loader/signature.cpp` fills in the `sigstruct` that is given to `EINIT`: the header and
the body, the modulus, the RSA signature of header and body, and two quotients by which the processor
checks the signature without a division.  The numbers are OpenSSL's; they are taken to be exact.

The structure is packed, and is modelled as a memory.  The key, the time, the measurement and the function
that signs are inputs, and so are the old contents of the structure and of the buffers.

Main definitions: `Generator.getSigstruct`, `Signed`.  Main result: `getSigstruct_signed_iff`.
-/

import SgxElps.Lib.BigNum
import Mathlib.Tactic.Ring

namespace Signature

open Bytes

/-! ### The code -/

/-- The fields of `secs_t` that are used. -/
structure Secs where
  miscselect : ℕ
  attributes : ℕ
  xfrm : ℕ
  isvprodid : ℕ
  isvsvn : ℕ

/-- The fields of `tm` that are used. -/
structure Tm where
  year : ℤ
  mon : ℤ
  mday : ℤ

/-- `ltm` is the local time, `hash` the measurement, `modulus` that of the public key.  `sstruct` is the
structure before the call, and `heap` what `new` returns. -/
structure Generator where
  scs : Secs
  ltm : Tm
  hash : Bytes.Mem
  modulus : ℕ
  signMsg : List UInt8 → List UInt8
  sstruct : Bytes.Mem
  heap : Bytes.Mem

/-- The variable `ymd`. -/
def Tm.ymd (t : Tm) : ℕ :=
  let year := ((1900 + t.year) % 2 ^ 16).toNat
  let month := ((1 + t.mon) % 2 ^ 8).toNat
  let day := (t.mday % 2 ^ 8).toNat
  (((year * 2 ^ 8 + month) % 2 ^ 32 * 2 ^ 8) % 2 ^ 32 + day) % 2 ^ 32

/-- The structure up to the signature: the fields from `header11` to `reserved1`, and those from
`miscselect` to `reserved4`. -/
def Generator.prepare (g : Generator) : Bytes.Mem :=
  let m := g.sstruct
  let m := write m 0 8 0x000000e100000006
  let m := write m 8 8 0x0000000000010000
  let m := write m 16 4 0x00000000
  let m := write m 20 4 g.ltm.ymd
  let m := write m 24 8 0x0000006000000101
  let m := write m 32 8 0x0000000100000060
  let m := write m 40 4 0x00000000
  let m := fill m 44 0 84
  let m := write m 900 4 g.scs.miscselect
  let m := write m 904 4 0
  let m := write m 908 4 0
  let m := write m 912 8 0
  let m := write m 920 8 0
  let m := write m 928 8 g.scs.attributes
  let m := write m 936 8 g.scs.xfrm
  let m := write m 944 8 0xffffffffffffffff
  let m := write m 952 8 0xffffffffffffffff
  let m := place m 960 32 g.hash
  let m := fill m 992 0 16
  let m := write m 1008 8 0
  let m := write m 1016 8 0
  let m := write m 1024 2 g.scs.isvprodid
  let m := write m 1026 2 g.scs.isvsvn
  fill m 1028 0 12

/-- `signBuffer`: the first 128 bytes of the structure, and 128 bytes from `miscselect` on. -/
def signedText (m : Bytes.Mem) : List UInt8 :=
  (List.range 128).map m ++ (List.range 128).map fun i => m (900 + i)

/-- The fields that are set after the signature was computed. -/
def Generator.fillIn (g : Generator) (m : Bytes.Mem) (s q1 q2 : ℕ) : Bytes.Mem :=
  let m := place m 128 384 (BigNum.padLE g.heap 384 g.modulus)
  let m := write m 512 4 3
  let m := place m 516 384 (BigNum.padLE g.heap 384 s)
  let m := place m 1040 384 (BigNum.padLE g.heap 384 q1)
  place m 1424 384 (BigNum.padLE g.heap 384 q2)

/-- `getSigstruct`; `none` stands for an assertion that fails. -/
def Generator.getSigstruct (g : Generator) : Option Bytes.Mem :=
  let signature := g.signMsg (signedText g.prepare)
  if signature.length = 384 then
    let s := BigNum.ofBytes signature
    let tmp1 := s * s
    let q1 := tmp1 / g.modulus
    let tmp2 := tmp1 % g.modulus
    let q2 := tmp2 * s / g.modulus
    if BigNum.numBytes g.modulus = 384 ∧ BigNum.numBytes s = 384 then some (g.fillIn g.prepare s q1 q2)
    else none
  else none

/-! ### What is expected -/

/-- The fields `signature`, `q1` and `q2` of the structure, and the check of the processor, for the modulus
`m` and the signature `s`. -/
structure Signed (sst : Bytes.Mem) (m s : ℕ) : Prop where
  signature : read sst 516 384 = s
  q1 : read sst 1040 384 = s ^ 2 / m
  q2 : read sst 1424 384 = s ^ 2 % m * s / m
  q1_lt : s ^ 2 / m < 2 ^ 3072
  q2_lt : s ^ 2 % m * s / m < 2 ^ 3072
  check : (s : ℤ) ^ 3 - read sst 1040 384 * s * m - read sst 1424 384 * m = (s ^ 3 % m : ℕ)

/-! ### The quotients -/

variable {g : Generator} {sst : Bytes.Mem} {m s : ℕ}

/-- **The identity that the processor checks**, for all numbers. -/
theorem cube_eq (m s : ℕ) : s ^ 3 = s ^ 2 / m * s * m + s ^ 2 % m * s / m * m + s ^ 3 % m := by
  have hsquare : s ^ 2 = m * (s ^ 2 / m) + s ^ 2 % m := (Nat.div_add_mod ..).symm
  have hcube : s ^ 3 = s ^ 2 / m * s * m + s ^ 2 % m * s := by
    calc s ^ 3 = s ^ 2 * s := pow_succ s 2
      _ = (m * (s ^ 2 / m) + s ^ 2 % m) * s := by rw [← hsquare]
      _ = s ^ 2 / m * s * m + s ^ 2 % m * s := by ring
  have hrest : s ^ 3 % m = s ^ 2 % m * s % m := by
    rw [hcube, Nat.add_comm, Nat.add_mul_mod_self_right]
  rw [hrest, Nat.add_assoc, Nat.mul_comm (s ^ 2 % m * s / m) m, Nat.div_add_mod]
  exact hcube

theorem cube_sub (m s : ℕ) :
    (s : ℤ) ^ 3 - (s ^ 2 / m : ℕ) * s * m - (s ^ 2 % m * s / m : ℕ) * m = (s ^ 3 % m : ℕ) := by
  have hcube := cube_eq m s
  generalize s ^ 2 % m * s / m = q₂ at hcube ⊢
  generalize s ^ 2 / m = q₁ at hcube ⊢
  generalize s ^ 3 % m = r at hcube ⊢
  have hcast : (s : ℤ) ^ 3 = q₁ * s * m + q₂ * m + r := by exact_mod_cast hcube
  rw [hcast]
  ring

theorem mul_div_le {r : ℕ} (hr : r ≤ m) : r * s / m ≤ s :=
  Nat.div_le_of_le_mul (Nat.mul_le_mul_right s hr)

theorem quotient_lt (hs : s < m) : s ^ 2 / m < m ∧ s ^ 2 % m * s / m < m := by
  rw [pow_two]
  exact ⟨(mul_div_le hs.le).trans_lt hs, (mul_div_le (Nat.mod_lt _ (by omega)).le).trans_lt hs⟩

/-! ### The structure -/

theorem pow_383 : 256 ^ 383 = 2 ^ 3064 := BigNum.pow_eq_two_pow (by decide)

theorem pow_384 : 256 ^ 384 = 2 ^ 3072 := BigNum.pow_eq_two_pow (by decide)

theorem numBytes_eq {v : ℕ} : BigNum.numBytes v = 384 ↔ 2 ^ 3064 ≤ v ∧ v < 2 ^ 3072 := by
  rw [BigNum.numBytes_eq_iff (show 384 = 383 + 1 from rfl), pow_383, pow_384]

/-- When the assertions hold, and what is returned. -/
theorem getSigstruct_eq_some (hm : 2 ^ 3071 ≤ g.modulus) (hm' : g.modulus < 2 ^ 3072) (hs : s < g.modulus)
    (hsign : g.signMsg (signedText g.prepare) = BigNum.toBytes 384 s) :
    g.getSigstruct = some sst ↔ 2 ^ 3064 ≤ s ∧
      sst = g.fillIn g.prepare s (s ^ 2 / g.modulus) (s ^ 2 % g.modulus * s / g.modulus) := by
  have hlt : s < 256 ^ 384 := by
    rw [pow_384]
    exact hs.trans hm'
  have hpow : 2 ^ 3064 ≤ 2 ^ 3071 := pow_le_pow_right₀ (by decide) (by decide)
  have hle : 2 ^ 3064 ≤ g.modulus := hpow.trans hm
  simp only [Generator.getSigstruct, hsign, BigNum.length_toBytes, BigNum.ofBytes_toBytes hlt, numBytes_eq]
  rw [if_pos trivial, Option.ite_none_right_eq_some, Option.some_inj, pow_two]
  constructor
  · rintro ⟨⟨-, hbytes, -⟩, heq⟩
    exact ⟨hbytes, heq.symm⟩
  · rintro ⟨hbytes, heq⟩
    exact ⟨⟨⟨hle, hm'⟩, hbytes, hs.trans hm'⟩, heq.symm⟩

theorem signed_fillIn (hm' : g.modulus < 2 ^ 3072) (hs : s < g.modulus) :
    Signed (g.fillIn sst s (s ^ 2 / g.modulus) (s ^ 2 % g.modulus * s / g.modulus)) g.modulus s := by
  obtain ⟨hq1, hq2⟩ := quotient_lt hs
  have hlt : ∀ v < g.modulus, v < 256 ^ 384 := fun v hv => by
    rw [pow_384]
    exact hv.trans hm'
  have hread1 : read (g.fillIn sst s (s ^ 2 / g.modulus) (s ^ 2 % g.modulus * s / g.modulus)) 1040 384 =
      s ^ 2 / g.modulus := by
    rw [Generator.fillIn, read_place_of_disjoint (by decide), read_place,
      BigNum.read_padLE (hlt _ hq1)]
  have hread2 : read (g.fillIn sst s (s ^ 2 / g.modulus) (s ^ 2 % g.modulus * s / g.modulus)) 1424 384 =
      s ^ 2 % g.modulus * s / g.modulus := by
    rw [Generator.fillIn, read_place, BigNum.read_padLE (hlt _ hq2)]
  refine ⟨?_, hread1, hread2, hq1.trans hm', hq2.trans hm', ?_⟩
  · rw [Generator.fillIn, read_place_of_disjoint (by decide), read_place_of_disjoint (by decide),
      read_place, BigNum.read_padLE (hlt s hs)]
  · rw [hread1, hread2]
    exact cube_sub g.modulus s

/-- **The structure is right if and only if the signature has no leading zero byte**: otherwise an
assertion fails. -/
theorem getSigstruct_signed_iff (g : Generator) (s : ℕ) (hm : 2 ^ 3071 ≤ g.modulus)
    (hm' : g.modulus < 2 ^ 3072) (hs : s < g.modulus)
    (hsign : g.signMsg (signedText g.prepare) = BigNum.toBytes 384 s) :
    (∃ sst, g.getSigstruct = some sst ∧ Signed sst g.modulus s) ↔ 2 ^ 3064 ≤ s := by
  constructor
  · rintro ⟨sst, hsst, -⟩
    exact ((getSigstruct_eq_some hm hm' hs hsign).1 hsst).1
  · intro hle
    exact ⟨_, (getSigstruct_eq_some hm hm' hs hsign).2 ⟨hle, rfl⟩, signed_fillIn hm' hs⟩

/-- The key with the least modulus, and a signature that is always `s`. -/
def constant (s : ℕ) : Generator :=
  ⟨⟨0, 6, 3, 0, 0⟩, ⟨118, 4, 1⟩, fun _ => 0, 2 ^ 3071, fun _ => BigNum.toBytes 384 s, fun _ => 0, fun _ => 0⟩

theorem two_pow_3064_lt : 2 ^ 3064 < 2 ^ 3071 := pow_lt_pow_right₀ (by decide) (by decide)

theorem two_pow_3071_lt : 2 ^ 3071 < 2 ^ 3072 := pow_lt_pow_right₀ (by decide) (by decide)

theorem getSigstruct_signed_iff_constant :
    ∃ sst, (constant (2 ^ 3064)).getSigstruct = some sst ∧ Signed sst (2 ^ 3071) (2 ^ 3064) :=
  (getSigstruct_signed_iff (constant (2 ^ 3064)) (2 ^ 3064) le_rfl two_pow_3071_lt two_pow_3064_lt rfl).2
    le_rfl

/-- With the signature `1`, an assertion fails. -/
theorem small_signature_fails : ¬ ∀ (g : Generator) (s : ℕ), 2 ^ 3071 ≤ g.modulus → g.modulus < 2 ^ 3072 →
    s < g.modulus → g.signMsg (signedText g.prepare) = BigNum.toBytes 384 s →
    ∃ sst, g.getSigstruct = some sst ∧ Signed sst g.modulus s := by
  intro hall
  have hone : 1 < 2 ^ 3071 := one_lt_pow₀ (by decide) (by decide)
  obtain ⟨sst, hsst, -⟩ := hall (constant 1) 1 le_rfl two_pow_3071_lt hone rfl
  have hle := ((getSigstruct_eq_some (g := constant 1) (s := 1) le_rfl two_pow_3071_lt hone rfl).1 hsst).1
  exact absurd hle (not_le.2 (one_lt_pow₀ (by decide) (by decide)))

end Signature

/-
**What a hostile host can make `fillEnclave` write.**

Everything `fillEnclave` goes by is in the request, and the request is in unsafe memory.  A host that
turns any call into `pipe`, for which every argument is written back, with a number of arguments of its
choice and all types `NON_PTR`, makes `fillEnclave` store the request's arguments into the words of
`enclave_args` one after the other, up to the end of the array and past it.  So no call is safe.

Main definition: `forge`.  Main results: `fillEnclave_forge`, `not_forall_frame`.
-/

import SgxElps.Syscall.Frame

namespace Syscall

open Bytes
open Span

/-! ### A forged request -/

/-- The request with `syscall_num = SYS_PIPE`, `args_num = k + 1`, all types `NON_PTR` and
`args[k].arg = v`. -/
def forge (m : Mem) (req k v : ℕ) : Mem :=
  let blank : Mem := fun x => if req ≤ x ∧ x < req + (128 + 16 * k) then 0 else m x
  write (write (write blank (req + 56) 4 sysPipe) (req + 64) 4 (k + 1)) (req + 120 + 16 * k) 8 v

section Forge

variable {m m' : Mem} {req enclaveArgs k v : ℕ}

theorem forge_of_notMem {x : ℕ} (h : x ∉ bytes ⟨req, 128 + 16 * k⟩) :
    forge m req k v x = m x := by
  rw [mem_bytes] at h
  rw [forge, write_of_notMem (by omega), write_of_notMem (by omega), write_of_notMem (by omega),
    if_neg h]

theorem syscallNum_forge : syscallNum (forge m req k v) req = sysPipe := by
  rw [syscallNum, forge, read_write_of_disjoint (by omega), read_write_of_disjoint (by omega),
    read_write_self]
  rfl

theorem argsNum_forge (hk : k + 1 < 2 ^ 32) : argsNum (forge m req k v) req = k + 1 := by
  rw [argsNum, forge, read_write_of_disjoint (by omega), read_write_self,
    Nat.mod_eq_of_lt (by omega)]

theorem argAt_forge (hv : v < 2 ^ 64) : argAt (forge m req k v) req k = v := by
  rw [argAt, forge, read_write_self, Nat.mod_eq_of_lt (by omega)]

theorem typesAt_forge {i : ℕ} (hi : i ≤ k) :
    typesAt (forge m req k v) req i = ArgType.nonPtr.code := by
  rw [typesAt, forge, read_write_of_disjoint (by omega), read_write_of_disjoint (by omega),
    read_write_of_disjoint (by omega)]
  refine (read_eq_of_bytes (v := 0) fun j hj => ?_).trans rfl
  rw [if_pos (by omega), Nat.zero_div]
  rfl

/-- The memory while the loop runs: only words of `enclave_args` up to the chosen one differ from the
forged memory. -/
def Stored (m : Mem) (req enclaveArgs k v : ℕ) (m' : Mem) : Prop :=
  AgreeOff (bytes ⟨enclaveArgs, 8 * (k + 1)⟩) (forge m req k v) m'

/-- The words do not overlap the request. -/
def Apart (req enclaveArgs k : ℕ) : Prop :=
  req + (128 + 16 * k) ≤ enclaveArgs ∨ enclaveArgs + 8 * (k + 1) ≤ req

/-- The stores of the loop leave the forged request as it is. -/
theorem Stored.read_request (h : Stored m req enclaveArgs k v m') (hd : Apart req enclaveArgs k)
    {a n : ℕ} (h1 : req ≤ a) (h2 : a + n ≤ req + (128 + 16 * k)) :
    read m' a n = read (forge m req k v) a n := by
  refine AgreeOff.read_eq h fun x hx => ?_
  unfold Apart at hd
  rw [mem_bytes] at *
  omega

theorem Stored.write_word (h : Stored m req enclaveArgs k v m') {i : ℕ} (hi : i ≤ k) (w : ℕ) :
    Stored m req enclaveArgs k v (write m' (enclaveArgs + 8 * i) 8 w) := by
  intro x hx
  rw [mem_bytes] at hx
  rw [write_of_notMem (by omega), h x (by rwa [mem_bytes])]

theorem Stored.round (h : Stored m req enclaveArgs k v m') (hd : Apart req enclaveArgs k)
    (hk : k + 1 < 2 ^ 32) {i : ℕ} (hi : i ≤ k) :
    fillEnclaveFrom m' req enclaveArgs i =
      fillEnclaveFrom (write m' (enclaveArgs + 8 * i) 8 (argAt m' req i)) req enclaveArgs
        (i + 1) := by
  have hnum : syscallNum m' req = sysPipe :=
    (h.read_request hd (by omega) (by omega)).trans syscallNum_forge
  have hargs : argsNum m' req = k + 1 :=
    (h.read_request hd (by omega) (by omega)).trans (argsNum_forge hk)
  have htype : typesAt m' req i = ArgType.nonPtr.code :=
    (h.read_request hd (by omega) (by omega)).trans (typesAt_forge hi)
  have hneed : needWriteBack sysPipe i = true := by simp [needWriteBack]
  rw [fillEnclaveFrom, hargs, if_pos (by omega), hnum, if_pos hneed, writeBack, if_pos htype]

theorem fillEnclaveFrom_forge (hk : k + 1 < 2 ^ 32) (hv : v < 2 ^ 64) (hd : Apart req enclaveArgs k)
    {i : ℕ} (hi : i ≤ k) (h : Stored m req enclaveArgs k v m') :
    enclaveArg (fillEnclaveFrom m' req enclaveArgs i).mem enclaveArgs k = v := by
  -- induction on the words left to store
  induction hr : k - i generalizing i m' with
  | zero =>
    obtain rfl : i = k := by omega
    have harg : argAt m' req i = v :=
      (h.read_request hd (by omega) (by omega)).trans (argAt_forge hv)
    have hargs : argsNum (write m' (enclaveArgs + 8 * i) 8 v) req = i + 1 :=
      ((h.write_word hi v).read_request hd (by omega) (by omega)).trans (argsNum_forge hk)
    rw [h.round hd hk hi, harg, fillEnclaveFrom, hargs, if_neg (by omega), Outcome.mem_returned,
      enclaveArg, read_write_self, Nat.mod_eq_of_lt (by omega)]
  | succ r ih =>
    rw [h.round hd hk hi]
    exact ih (by omega) (h.write_word hi _) (by omega)

/-- **`fillEnclave` on a forged request** stores the chosen value in the chosen word. -/
theorem fillEnclave_forge (hk : k + 1 < 2 ^ 32) (hv : v < 2 ^ 64) (hd : Apart req enclaveArgs k) :
    enclaveArg (fillEnclave (forge m req k v) req enclaveArgs).mem enclaveArgs k = v :=
  fillEnclaveFrom_forge hk hv hd (Nat.zero_le k) (AgreeOff.refl _ _)

end Forge

/-! ### No call is safe -/

/-- **The host chooses a word** above `enclave_args` and what is stored there: it needs only as much
unsafe memory behind the request as the arguments up to that word take. -/
theorem exists_rewriting_word (c : Call) {k v : ℕ} (hk : k + 1 < 2 ^ 32) (hv : v < 2 ^ 64)
    (hd : Apart c.req c.enclaveArgs k)
    (hu : ∀ a ∈ bytes ⟨c.req, 128 + 16 * k⟩, a ∉ c.enclave) :
    ∃ m, Rewriting c m ∧
      enclaveArg (fillEnclave m c.req c.enclaveArgs).mem c.enclaveArgs k = v :=
  ⟨forge c.mem c.req k v, fun a ha => forge_of_notMem fun hin => hu a hin ha,
    fillEnclave_forge hk hv hd⟩

theorem Call.apart_zero (c : Call) : Apart c.req c.enclaveArgs 0 := by
  by_contra h
  unfold Apart at h
  have hreq : max c.req c.enclaveArgs ∈ bytes ⟨c.req, requestSize⟩ := by
    rw [mem_bytes, requestSize]
    omega
  have hargs : max c.req c.enclaveArgs ∈ bytes ⟨c.enclaveArgs, 48⟩ := by
    rw [mem_bytes]
    omega
  exact c.request_unsafe _ hreq (c.args_enclave hargs)

/-- **No call keeps the frame under every rewriting**: for every supported call, arguments and memory
of the enclave, the host can make `fillEnclave` change bytes of the enclave outside the output
buffers. -/
theorem not_forall_frame (c : Call) : ¬ ∀ m, Rewriting c m → Frame c m := by
  intro hframe
  -- a value whose low byte is not the one in memory
  obtain ⟨v, hv, hne⟩ : ∃ v < 2, UInt8.ofNat v ≠ c.mem c.enclaveArgs := by
    by_cases h : c.mem c.enclaveArgs = 0
    · exact ⟨1, by omega, by rw [h]; decide⟩
    · exact ⟨0, by omega, fun h' => h h'.symm⟩
  obtain ⟨m, hm, hword⟩ := exists_rewriting_word c (k := 0) (v := v) (by omega) (by omega)
    c.apart_zero fun a ha => c.request_unsafe a
      (mem_bytes_of_le ha (le_refl _) (by rw [requestSize]; omega))
  have hin : c.enclaveArgs ∈ bytes ⟨c.enclaveArgs, 48⟩ := mem_bytes.2 (by omega)
  have hsame := hframe m hm _ (c.args_enclave hin) (c.args_fresh _ hin)
  rw [hm _ (c.args_enclave hin)] at hsame
  have hbyte := ofNat_read_div (m := (fillEnclave m c.req c.enclaveArgs).mem) (a := c.enclaveArgs)
    (show 0 < 8 by omega)
  rw [enclaveArg, Nat.mul_zero, add_zero] at hword
  rw [hword, pow_zero, Nat.div_one, add_zero, hsame] at hbyte
  exact hne hbyte

/-! ### A read that overruns its buffer -/

/-- The memory of the caller of `read(3, 0x1100, 4)`; its arguments are at `0x1000`. -/
def readMem : Mem := write (write (write (fun _ => 0) 0x1000 8 3) 0x1008 8 0x1100) 0x1010 8 4

theorem outputSpans_readMem :
    outputSpans sysRead [.nonPtr, .charPtr, .nonPtr] (enclaveArg readMem 0x1000) readMem
      = [⟨0x1100, 4⟩] := by decide +kernel

theorem covered_singleton {a n x : ℕ} :
    x ∈ covered [⟨a, n⟩] ↔ a ≤ x ∧ x < a + n := by
  simp [covered, mem_bytes]

theorem request_unsafe_readMem :
    ∀ a ∈ bytes ⟨0x3000, requestSize⟩, a ∉ bytes ⟨0x1000, 0x1000⟩ := by
  intro a h
  rw [mem_bytes, requestSize] at *
  omega

theorem args_enclave_readMem : bytes ⟨0x1000, 48⟩ ⊆ bytes ⟨0x1000, 0x1000⟩ := by
  intro a h
  rw [mem_bytes] at *
  omega

theorem fresh_readMem {a : ℕ} (h : a < 0x1030 ∨ 0x3000 ≤ a) :
    a ∉ covered
      (outputSpans sysRead [.nonPtr, .charPtr, .nonPtr] (enclaveArg readMem 0x1000) readMem) := by
  rw [outputSpans_readMem, covered_singleton]
  omega

/-- The call `read(3, 0x1100, 4)` in an enclave at `[0x1000, 0x2000)`, with its request at
`0x3000`. -/
def readCall : Call where
  n := sysRead
  types := [.nonPtr, .charPtr, .nonPtr]
  mem := readMem
  enclave := bytes ⟨0x1000, 0x1000⟩
  req := 0x3000
  enclaveArgs := 0x1000
  supported := by decide
  request_unsafe := request_unsafe_readMem
  args_enclave := args_enclave_readMem
  args_fresh _ h := fresh_readMem (Or.inl h.2)
  request_fresh _ h := fresh_readMem (Or.inr h.1)

/-- The host sets `sizes[1]` to 8 and leaves the rest of the format alone. -/
def overrunMem : Mem :=
  let format := write (write (write (write readMem 0x3038 4 sysRead) 0x3040 4 3) 0x3048 4 1)
    0x3060 4 8
  write (write format 0x3088 8 0x4000) 0x4000 8 0x0101010101010101

/-- The caller asked for 4 bytes; byte 4 after its buffer is overwritten. -/
theorem read_overruns_buffer :
    Rewriting readCall overrunMem ∧ ¬ Frame readCall overrunMem := by
  constructor
  · intro a ha
    replace ha : 0x1000 ≤ a ∧ a < 0x1000 + 0x1000 := ha
    simp only [overrunMem]
    iterate 6 rw [write_of_notMem (by omega)]
    rfl
  · intro hframe
    have hback : writeBack overrunMem 0x3000 0x1000 1
        = .returned (copy overrunMem 0x1100 0x4000 8) := by
      have hdst : enclaveArg overrunMem 0x1000 1 = 0x1100 := by decide +kernel
      have hsrc : argAt overrunMem 0x3000 1 = 0x4000 := by decide +kernel
      have hsize : sizesAt overrunMem 0x3000 1 = 8 := by decide +kernel
      rw [writeBack, if_neg (by decide +kernel), if_neg (by decide +kernel), hdst, hsrc, hsize]
    -- argument 1 is written back, the others are not
    have hrun : fillEnclave overrunMem 0x3000 0x1000
        = .returned (copy overrunMem 0x1100 0x4000 8) := by
      rw [fillEnclave, fillEnclaveFrom, if_pos (by decide +kernel), if_neg (by decide +kernel),
        fillEnclaveFrom, if_pos (by decide +kernel), if_pos (by decide +kernel), hback]
      dsimp only
      rw [fillEnclaveFrom, if_pos (by decide +kernel), if_neg (by decide +kernel),
        fillEnclaveFrom, if_neg (by decide +kernel)]
    have hin : 0x1104 ∈ readCall.enclave := mem_bytes.2 (by omega)
    have hout : 0x1104 ∉ readCall.outputs := by
      have heq : readCall.outputs = covered [⟨0x1100, 4⟩] := by
        rw [← outputSpans_readMem]
        rfl
      rw [heq, covered_singleton]
      omega
    have hsame := hframe 0x1104 hin hout
    have hread : (fillEnclave overrunMem readCall.req readCall.enclaveArgs).mem
        = copy overrunMem 0x1100 0x4000 8 := by
      rw [← Outcome.mem_returned (copy overrunMem 0x1100 0x4000 8), ← hrun]
      rfl
    rw [hread] at hsame
    exact absurd hsame (by decide +kernel)

end Syscall

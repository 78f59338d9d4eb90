/-
**Getting the launch token from `aesmd`.**

`TokenGetter::getToken` (`src/loader/signature.cpp`) sends the length of its request and then the
request, and receives the length of the reply and then the reply.  Both the request and the reply go
through a loop, since `write` and `read` may transfer less than they are asked to.  The loop that sends
stops with an error if nothing was transferred.  The loop that receives stops only if the result is
negative: at the end of the file `read` returns 0, and the loop goes on.

The socket is given by what it is ready to transfer at each call; a call transfers no more than it is
asked to.  Every sequence of results is of this form.

Main definitions: `getToken`, `Settles`, `Delivered`.  Main result: `settles_iff`.
-/

import Mathlib.Algebra.BigOperators.Intervals
import Mathlib.Algebra.Order.BigOperators.Group.Finset
import Mathlib.Data.Int.Order.Basic

namespace Token

open Finset

/-! ### The loop -/

/-- `while (beginInd < len)`: call number `i` transfers `nbytes`.  The result is the final `beginInd`, or
nothing inside if a call was reported as an error. -/
def transfer (fails : ℤ → Bool) (ready : ℕ → ℤ) (len : ℕ) : ℕ → ℕ → ℕ → Option (Option ℕ)
  | 0, _, _ => none
  | fuel + 1, i, beginInd =>
      if beginInd < len then
        let nbytes := min (ready i) ((len - beginInd : ℕ) : ℤ)
        if fails nbytes then some none
        else transfer fails ready len fuel (i + 1) (beginInd + nbytes).toNat
      else some (some beginInd)

variable {fails : ℤ → Bool} {ready : ℕ → ℤ} {len fuel i b : ℕ}

theorem transfer_succ :
    transfer fails ready len (fuel + 1) i b =
      if b < len then
        if fails (min (ready i) ((len - b : ℕ) : ℤ)) then some none
        else transfer fails ready len fuel (i + 1) (b + min (ready i) ((len - b : ℕ) : ℤ)).toNat
      else some (some b) := rfl

theorem transfer_mono {r : Option ℕ} (h : transfer fails ready len fuel i b = some r) (k : ℕ) :
    transfer fails ready len (fuel + k) i b = some r := by
  induction fuel generalizing i b with
  | zero => cases h
  | succ fuel ih =>
    rw [Nat.add_right_comm, transfer_succ]
    rw [transfer_succ] at h
    split at h
    · next hlt =>
      rw [if_pos hlt]
      split at h
      · next hf => rw [if_pos hf, ← h]
      · next hf =>
        rw [if_neg hf]
        exact ih h
    · next hlt => rw [if_neg hlt, ← h]

/-- Whether a call fails does not depend on how much it is asked to transfer, and a call that does not
fail takes nothing back. -/
structure Test (fails : ℤ → Bool) : Prop where
  min_eq : ∀ (x : ℤ) (n : ℕ), 0 < n → fails (min x n) = fails x
  nonneg : ∀ x, fails x = false → 0 ≤ x

theorem test_le : Test fun nbytes => nbytes ≤ 0 where
  min_eq x n hn := by
    rw [decide_eq_decide]
    omega
  nonneg x hx := by
    have := of_decide_eq_false hx
    omega

theorem test_lt : Test fun nbytes => nbytes < 0 where
  min_eq x n hn := by
    rw [decide_eq_decide]
    omega
  nonneg x hx := by
    have := of_decide_eq_false hx
    omega

section Ends

variable (ht : Test fails)
include ht

/-- One turn of the loop that does not end it. -/
theorem transfer_turn (hb : b < len) (hf : fails (ready i) = false) :
    transfer fails ready len (fuel + 1) i b =
      transfer fails ready len fuel (i + 1) (b + min (ready i) ((len - b : ℕ) : ℤ)).toNat := by
  rw [transfer_succ, if_pos hb, ht.min_eq _ _ (by omega), hf, if_neg Bool.false_ne_true]

theorem exists_transfer_eq_ok {n : ℕ} (hb : b ≤ len) (hok : ∀ j < n, fails (ready (i + j)) = false)
    (hsum : (len : ℤ) ≤ b + ∑ j ∈ range n, ready (i + j)) :
    ∃ fuel, transfer fails ready len fuel i b = some (some len) := by
  induction n generalizing i b with
  | zero =>
    have hlen : b = len := by
      rw [range_zero, sum_empty] at hsum
      omega
    exact ⟨1, by rw [transfer_succ, if_neg (by omega), hlen]⟩
  | succ n ih =>
    rcases hb.eq_or_lt with heq | hlt
    · exact ⟨1, by rw [transfer_succ, if_neg (by omega), heq]⟩
    · have hi := hok 0 (Nat.succ_pos n)
      have hpos := ht.nonneg _ hi
      rw [sum_range_succ'] at hsum
      rw [Nat.add_zero] at hi hpos hsum
      by_cases hall : ((len - b : ℕ) : ℤ) ≤ ready i
      · -- the call transfers all that is left
        have hend : (b + min (ready i) ((len - b : ℕ) : ℤ)).toNat = len := by omega
        refine ⟨2, ?_⟩
        rw [transfer_turn ht hlt hi, hend, transfer_succ, if_neg (by omega)]
      · have hnext : ((b + min (ready i) ((len - b : ℕ) : ℤ)).toNat : ℤ) = b + ready i := by omega
        have hshift : ∀ j, ready (i + (j + 1)) = ready (i + 1 + j) := fun j => by
          rw [Nat.add_assoc, Nat.add_comm 1 j]
        obtain ⟨fuel, hfuel⟩ := ih (i := i + 1)
          (b := (b + min (ready i) ((len - b : ℕ) : ℤ)).toNat) (by omega)
          (fun j hj => (hshift j) ▸ hok (j + 1) (by omega)) (by
            rw [hnext]
            simp only [hshift] at hsum
            omega)
        exact ⟨fuel + 1, by rw [transfer_turn ht hlt hi, hfuel]⟩

theorem exists_transfer_of_fails {n : ℕ} (hb : b ≤ len) (hn : fails (ready (i + n)) = true) :
    ∃ fuel r, transfer fails ready len fuel i b = some r ∧ (r = none ∨ r = some len) := by
  induction n generalizing i b with
  | zero =>
    rcases hb.eq_or_lt with heq | hlt
    · exact ⟨1, some len, by rw [transfer_succ, if_neg (by omega), heq], Or.inr rfl⟩
    · refine ⟨1, none, ?_, Or.inl rfl⟩
      rw [Nat.add_zero] at hn
      rw [transfer_succ, if_pos hlt, ht.min_eq _ _ (by omega), if_pos hn]
  | succ n ih =>
    rcases hb.eq_or_lt with heq | hlt
    · exact ⟨1, some len, by rw [transfer_succ, if_neg (by omega), heq], Or.inr rfl⟩
    · cases hi : fails (ready i) with
      | true =>
        refine ⟨1, none, ?_, Or.inl rfl⟩
        rw [transfer_succ, if_pos hlt, ht.min_eq _ _ (by omega), if_pos hi]
      | false =>
        have hpos := ht.nonneg _ hi
        obtain ⟨fuel, r, hfuel, hr⟩ := ih (i := i + 1)
          (b := (b + min (ready i) ((len - b : ℕ) : ℤ)).toNat) (by omega)
          (by rw [Nat.add_assoc, Nat.add_comm 1 n]; exact hn)
        exact ⟨fuel + 1, r, by rw [transfer_turn ht hlt hi, hfuel], hr⟩

/-- What a loop that has ended says about the calls. -/
theorem of_transfer_eq_some {r : Option ℕ} (hb : b ≤ len)
    (h : transfer fails ready len fuel i b = some r) :
    (r = none ∧ ∃ n, fails (ready (i + n)) = true) ∨
      (r = some len ∧ ∃ n, (∀ j < n, fails (ready (i + j)) = false) ∧
        (len : ℤ) ≤ b + ∑ j ∈ range n, ready (i + j)) := by
  induction fuel generalizing i b with
  | zero => cases h
  | succ fuel ih =>
    rcases hb.eq_or_lt with heq | hlt
    · rw [transfer_succ, if_neg (by omega), Option.some_inj] at h
      refine Or.inr ⟨h.symm.trans (congrArg some heq), 0, fun j hj => absurd hj (Nat.not_lt_zero j), ?_⟩
      rw [range_zero, sum_empty, heq]
      omega
    · cases hi : fails (ready i) with
      | true =>
        rw [transfer_succ, if_pos hlt, ht.min_eq _ _ (by omega), if_pos hi, Option.some_inj] at h
        exact Or.inl ⟨h.symm, 0, hi⟩
      | false =>
        have hpos := ht.nonneg _ hi
        rw [transfer_turn ht hlt hi] at h
        have hshift : ∀ j, ready (i + 1 + j) = ready (i + (j + 1)) := fun j => by
          rw [Nat.add_assoc, Nat.add_comm 1 j]
        rcases ih (by omega) h with ⟨hr, n, hn⟩ | ⟨hr, n, hok, hsum⟩
        · exact Or.inl ⟨hr, n + 1, hshift n ▸ hn⟩
        · refine Or.inr ⟨hr, n + 1, fun j hj => ?_, ?_⟩
          · cases j with
            | zero => exact hi
            | succ j => exact hshift j ▸ hok j (by omega)
          · rw [sum_range_succ', Nat.add_zero]
            simp only [hshift] at hsum
            omega

/-- **The loop transfers everything** if and only if the calls before that do not fail and transfer
enough. -/
theorem exists_transfer_eq_ok_iff :
    (∃ fuel, transfer fails ready len fuel 0 0 = some (some len)) ↔
      ∃ n, (∀ j < n, fails (ready j) = false) ∧ (len : ℤ) ≤ ∑ j ∈ range n, ready j := by
  constructor
  · rintro ⟨fuel, hfuel⟩
    rcases of_transfer_eq_some ht (Nat.zero_le len) hfuel with ⟨hr, -⟩ | ⟨-, n, hok, hsum⟩
    · cases hr
    · simp only [Nat.zero_add] at hok hsum
      exact ⟨n, hok, by omega⟩
  · rintro ⟨n, hok, hsum⟩
    refine exists_transfer_eq_ok ht (Nat.zero_le len) (n := n) (fun j hj => ?_) ?_
    · rw [Nat.zero_add]
      exact hok j hj
    · simp only [Nat.zero_add]
      omega

/-- **The loop ends** if and only if a call fails or enough is transferred. -/
theorem exists_transfer_iff :
    (∃ fuel r, transfer fails ready len fuel 0 0 = some r) ↔
      (∃ n, fails (ready n) = true) ∨ ∃ n, (len : ℤ) ≤ ∑ j ∈ range n, ready j := by
  constructor
  · rintro ⟨fuel, r, hfuel⟩
    rcases of_transfer_eq_some ht (Nat.zero_le len) hfuel with ⟨-, n, hn⟩ | ⟨-, n, -, hsum⟩
    · rw [Nat.zero_add] at hn
      exact Or.inl ⟨n, hn⟩
    · simp only [Nat.zero_add] at hsum
      exact Or.inr ⟨n, by omega⟩
  · intro h
    by_cases hfail : ∃ n, fails (ready n) = true
    · obtain ⟨n, hn⟩ := hfail
      rw [← Nat.zero_add n] at hn
      obtain ⟨fuel, r, hfuel, -⟩ := exists_transfer_of_fails ht (Nat.zero_le len) hn
      exact ⟨fuel, r, hfuel⟩
    · obtain ⟨n, hsum⟩ := h.resolve_left hfail
      have hok : ∀ j < n, fails (ready j) = false := fun j _ =>
        Bool.eq_false_of_not_eq_true fun hj => hfail ⟨j, hj⟩
      obtain ⟨fuel, hfuel⟩ := (exists_transfer_eq_ok_iff ht).2 ⟨n, hok, hsum⟩
      exact ⟨fuel, some len, hfuel⟩

theorem eq_of_transfer {r : Option ℕ} (h : transfer fails ready len fuel 0 0 = some r) :
    r = none ∨ r = some len :=
  (of_transfer_eq_some ht (Nat.zero_le len) h).imp And.left And.left

end Ends

theorem exists_transfer_le (ready : ℕ → ℤ) (len : ℕ) :
    ∃ fuel r, transfer (fun nbytes => nbytes ≤ 0) ready len fuel 0 0 = some r := by
  refine (exists_transfer_iff test_le).2 ?_
  by_cases hfail : ∃ n, ready n ≤ 0
  · obtain ⟨n, hn⟩ := hfail
    exact Or.inl ⟨n, by simpa using hn⟩
  · -- every call transfers at least one byte
    refine Or.inr ⟨len, ?_⟩
    have hone : ∀ j ∈ range len, (1 : ℤ) ≤ ready j := fun j _ => by
      have := not_exists.1 hfail j
      omega
    calc (len : ℤ) = ∑ _j ∈ range len, (1 : ℤ) := by rw [sum_const, card_range]; simp
      _ ≤ ∑ j ∈ range len, ready j := sum_le_sum hone

/-! ### `getToken` -/

/-- The socket: what each `write` and each `read` is ready to transfer, and the length that the reply
announces.  `sendLen` is the length of the request. -/
structure Socket where
  write : ℕ → ℤ
  read : ℕ → ℤ
  sendLen : ℕ
  recvLen : ℕ
  sendLen_lt : sendLen < 2 ^ 32
  recvLen_lt : recvLen < 2 ^ 32

/-- The errors that are reported before `exit(-1)`. -/
inductive Failure where
  /-- "Cannot write sendLen to aems". -/
  | sendLen
  /-- "Cannot write to aems socket". -/
  | write
  /-- "Cannot read recvLen from aems". -/
  | recvLen
  /-- "Cannot read from aems socket". -/
  | read
deriving DecidableEq

/-- How `getToken` ends with the socket: with an error, or with the numbers of bytes that were sent and
received. -/
inductive Outcome where
  | failed (e : Failure)
  | done (sent received : ℕ)
deriving DecidableEq

/-- The result of a `write` or a `read` of the four bytes of a length. -/
def wholeLength (ready : ℤ) : Bool := min ready 4 == 4

def sendLoop (s : Socket) (fuel : ℕ) : Option (Option ℕ) :=
  transfer (fun nbytes => nbytes ≤ 0) (fun i => s.write (i + 1)) s.sendLen fuel 0 0

def receiveLoop (s : Socket) (fuel : ℕ) : Option (Option ℕ) :=
  transfer (fun nbytes => nbytes < 0) (fun i => s.read (i + 1)) s.recvLen fuel 0 0

/-- The part of `TokenGetter::getToken` that uses the socket. -/
def getToken (s : Socket) (fuel : ℕ) : Option Outcome :=
  if !wholeLength (s.write 0) then some (.failed .sendLen)
  else
    (sendLoop s fuel).bind fun
      | none => some (.failed .write)
      | some sent =>
          if !wholeLength (s.read 0) then some (.failed .recvLen)
          else
            (receiveLoop s fuel).map fun
              | none => .failed .read
              | some received => .done sent received

/-- An error, or exactly the announced numbers of bytes. -/
def Outcome.Right (s : Socket) : Outcome → Prop
  | .failed _ => True
  | .done sent received => sent = s.sendLen ∧ received = s.recvLen

/-- **`getToken` gets past its loops**, with an error or having transferred exactly the announced
numbers of bytes. -/
def Settles (s : Socket) : Prop := ∃ fuel outcome, getToken s fuel = some outcome ∧ outcome.Right s

/-- The peer delivers finitely many bytes and then closes. -/
def Closes (s : Socket) : Prop := ∃ n, ∀ i, n ≤ i → s.read i = 0

/-- The request is sent as a whole. -/
def Sent (s : Socket) : Prop :=
  4 ≤ s.write 0 ∧ ∃ n, (∀ j < n, 0 < s.write (j + 1)) ∧
    (s.sendLen : ℤ) ≤ ∑ j ∈ range n, s.write (j + 1)

/-- **The reply is not cut short**: a read reports an error, or as many bytes come as were announced. -/
def Delivered (s : Socket) : Prop :=
  (∃ n, s.read (n + 1) < 0) ∨ ∃ n, (s.recvLen : ℤ) ≤ ∑ j ∈ range n, s.read (j + 1)

variable {s : Socket}

theorem wholeLength_iff {ready : ℤ} : wholeLength ready = true ↔ 4 ≤ ready := by
  rw [wholeLength, beq_iff_eq]
  omega

theorem exists_sendLoop_eq_ok_iff :
    (∃ fuel, sendLoop s fuel = some (some s.sendLen)) ↔
      ∃ n, (∀ j < n, 0 < s.write (j + 1)) ∧ (s.sendLen : ℤ) ≤ ∑ j ∈ range n, s.write (j + 1) := by
  unfold sendLoop
  rw [exists_transfer_eq_ok_iff test_le]
  simp only [decide_eq_false_iff_not, not_le]

theorem exists_receiveLoop_iff : (∃ fuel r, receiveLoop s fuel = some r) ↔ Delivered s := by
  unfold receiveLoop Delivered
  rw [exists_transfer_iff test_lt]
  simp only [decide_eq_true_eq]

theorem settles_of_not_sent (h : ¬ Sent s) : Settles s := by
  by_cases h0 : 4 ≤ s.write 0
  · obtain ⟨fuel, r, hr⟩ := exists_transfer_le (fun i => s.write (i + 1)) s.sendLen
    have hloop : sendLoop s fuel = some r := hr
    rcases eq_of_transfer test_le hr with rfl | rfl
    · refine ⟨fuel, .failed .write, ?_, trivial⟩
      rw [getToken, wholeLength_iff.2 h0, hloop]
      rfl
    · exact absurd ⟨h0, exists_sendLoop_eq_ok_iff.1 ⟨fuel, hloop⟩⟩ h
  · refine ⟨0, .failed .sendLen, ?_, trivial⟩
    have hshort : wholeLength (s.write 0) = false :=
      Bool.eq_false_of_not_eq_true fun hw => h0 (wholeLength_iff.1 hw)
    rw [getToken, hshort]
    rfl

/-- After the request has been sent, the rest is up to the reply. -/
theorem getToken_of_sent {fuel : ℕ} (h : Sent s) (hloop : sendLoop s fuel = some (some s.sendLen)) :
    getToken s fuel =
      if !wholeLength (s.read 0) then some (.failed .recvLen)
      else (receiveLoop s fuel).map fun r =>
        r.elim (.failed .read) fun received => .done s.sendLen received := by
  rw [getToken, wholeLength_iff.2 h.1, hloop]
  refine (Option.bind_some ..).trans ?_
  refine congrArg (ite _ _) (congrArg (fun f => (receiveLoop s fuel).map f) ?_)
  funext r
  cases r with
  | none => rfl
  | some received => rfl

/-- If `getToken` settles on a reply, the reply is not cut short. -/
theorem delivered_of_settles (h : Settles s) (hsent : Sent s) (hlen : 4 ≤ s.read 0) :
    Delivered s := by
  obtain ⟨fuel, outcome, hrun, -⟩ := h
  obtain ⟨fuel₁, hsend⟩ := exists_sendLoop_eq_ok_iff.2 hsent.2
  have hsend' : sendLoop s fuel = some (some s.sendLen) := by
    cases hr : sendLoop s fuel with
    | none =>
      rw [getToken, wholeLength_iff.2 hsent.1, hr] at hrun
      cases hrun
    | some r =>
      have h1 := transfer_mono hsend fuel
      have h2 := transfer_mono hr fuel₁
      rw [Nat.add_comm] at h1
      exact h2.symm.trans h1
  rw [getToken_of_sent hsent hsend', wholeLength_iff.2 hlen] at hrun
  obtain ⟨r, hr, -⟩ := Option.map_eq_some_iff.1 hrun
  exact exists_receiveLoop_iff.1 ⟨fuel, r, hr⟩

theorem settles_of_delivered (hsent : Sent s) (hlen : 4 ≤ s.read 0) (h : Delivered s) :
    Settles s := by
  obtain ⟨fuel₁, hsend⟩ := exists_sendLoop_eq_ok_iff.2 hsent.2
  obtain ⟨fuel₂, r, hreceive⟩ := exists_receiveLoop_iff.2 h
  have hsend' : sendLoop s (fuel₁ + fuel₂) = some (some s.sendLen) := transfer_mono hsend fuel₂
  have hreceive' : receiveLoop s (fuel₁ + fuel₂) = some r := by
    rw [Nat.add_comm]
    exact transfer_mono hreceive fuel₁
  have hrun := getToken_of_sent hsent hsend'
  rw [wholeLength_iff.2 hlen, hreceive'] at hrun
  refine ⟨fuel₁ + fuel₂, _, hrun, ?_⟩
  rcases eq_of_transfer test_lt hreceive with rfl | rfl
  · trivial
  · exact ⟨rfl, rfl⟩

theorem settles_of_read_lt (hsent : Sent s) (hlen : ¬ 4 ≤ s.read 0) : Settles s := by
  obtain ⟨fuel, hsend⟩ := exists_sendLoop_eq_ok_iff.2 hsent.2
  have hshort : wholeLength (s.read 0) = false :=
    Bool.eq_false_of_not_eq_true fun hw => hlen (wholeLength_iff.1 hw)
  refine ⟨fuel, .failed .recvLen, ?_, trivial⟩
  rw [getToken_of_sent hsent hsend, hshort]
  rfl

/-- **`getToken` settles if and only if the reply is not cut short** once the request and the length of
the reply have got through. -/
theorem settles_iff (s : Socket) : Settles s ↔ (Sent s → 4 ≤ s.read 0 → Delivered s) := by
  refine ⟨delivered_of_settles, fun h => ?_⟩
  by_cases hsent : Sent s
  · by_cases hlen : 4 ≤ s.read 0
    · exact settles_of_delivered hsent hlen (h hsent hlen)
    · exact settles_of_read_lt hsent hlen
  · exact settles_of_not_sent hsent

/-- The peer takes the request, announces a reply of eight bytes, and closes after three of them. -/
def cutShort : Socket where
  write _ := 1000
  read i := if i = 0 then 4 else if i = 1 then 3 else 0
  sendLen := 450
  recvLen := 8
  sendLen_lt := by decide
  recvLen_lt := by decide

theorem sum_read_cutShort (n : ℕ) : ∑ j ∈ range n, cutShort.read (j + 1) ≤ 3 := by
  cases n with
  | zero => decide
  | succ n =>
    have hzero : ∀ j ∈ range n, cutShort.read (j + 1 + 1) = 0 := fun j _ => rfl
    rw [sum_range_succ', sum_eq_zero hzero]
    decide

/-- `read` returns 0 from then on, and the loop does not end. -/
theorem cut_short_reply : Closes cutShort ∧ ¬ Settles cutShort := by
  refine ⟨⟨2, fun i hi => ?_⟩, fun h => ?_⟩
  · have h0 : i ≠ 0 := by omega
    have h1 : i ≠ 1 := by omega
    change (if i = 0 then (4 : ℤ) else if i = 1 then 3 else 0) = 0
    rw [if_neg h0, if_neg h1]
  · have hsent : Sent cutShort := ⟨by decide, 1, fun _ _ => Int.natCast_pos.2 (by decide), by decide⟩
    rcases delivered_of_settles h hsent (by decide) with ⟨n, hn⟩ | ⟨n, hn⟩
    · cases n with
      | zero => exact absurd hn (by decide)
      | succ n => exact absurd hn (lt_irrefl 0)
    · exact absurd (hn.trans (sum_read_cutShort n)) (by decide)

end Token

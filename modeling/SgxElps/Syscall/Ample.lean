/-
**The room in the copies.**

The kernel works on the copies that `fillArgs` has made, and learns from the other arguments how much it
may read or write there: from a count, from a length, from the number behind a length pointer, or from the
length fields of a vector and of a message.  These arrive in their full width, whereas `getSize` and
`memberCopy` compute the length of a copy in 32 bits.

Main definitions: `Ample`, `Fits`.  Main result: `ample_iff_fits`.
-/

import SgxElps.Syscall.Message
import SgxElps.Syscall.Submission

namespace Syscall

open Bytes
open List
open Span
open Prepared Marshalling

/-! ### What the kernel is told -/

/-- The bytes that an argument of type `int` speaks of; the kernel refuses negative numbers. -/
def asInt (v : ℕ) : ℕ := if v % 2 ^ 32 < 2 ^ 31 then v % 2 ^ 32 else 0

/-- The bytes the kernel may access through argument `i` according to the arguments passed on; `passed j`
is the number behind the pointer passed on as argument `j`.  Zero if the arguments say nothing. -/
def told (n : ℕ) (arg passed : ℕ → ℕ) (i : ℕ) : ℕ :=
  if n = sysRead ∨ n = sysWrite then arg 2
  else if n = sysSendto then if i = 1 then arg 2 else asInt (arg 5)
  else if n = sysRecvfrom then if i = 1 then arg 2 else if i = 4 then asInt (passed 5) else 4
  else if n = sysBind ∨ n = sysConnect then asInt (arg 2)
  else if n = sysSetsockopt then asInt (arg 4)
  else if n = sysAccept ∨ n = sysAccept4 ∨ n = sysGetsockname ∨ n = sysGetpeername then
    if i = 1 then asInt (passed 2) else 4
  else if n = sysWritev then 16 * arg 2
  else if n = sysEpollWait then 12 * asInt (arg 2)
  else if n = sysEpollPwait then if i = 1 then 12 * asInt (arg 2) else arg 5
  else if n = sysRecvmsg ∨ n = sysSendmsg then 56
  else 0

/-- The length fits in the `int` of `memberCopy`, or becomes a negative one, which `unsafe_slub_malloc`
takes for an even greater length. -/
def FitsInt (len : ℕ) : Prop := len < 2 ^ 31 ∨ 2 ^ 31 ≤ len % 2 ^ 32 ∧ len < 2 ^ 64

theorem told_recvfrom (arg passed : ℕ → ℕ) : told sysRecvfrom arg passed 4 = asInt (passed 5) := rfl

theorem told_address (arg passed : ℕ → ℕ) : told sysAccept arg passed 1 = asInt (passed 2) ∧
    told sysAccept4 arg passed 1 = asInt (passed 2) ∧ told sysGetsockname arg passed 1 = asInt (passed 2) ∧
    told sysGetpeername arg passed 1 = asInt (passed 2) := ⟨rfl, rfl, rfl, rfl⟩

theorem asInt_le (v : ℕ) : asInt v ≤ v % 2 ^ 32 := by
  unfold asInt
  split <;> omega

theorem le_intToSize_iff {len : ℕ} : len ≤ intToSize len ↔ FitsInt len := by
  unfold intToSize FitsInt
  split <;> omega

namespace Submission

variable {c : Submission} {i k : ℕ}

section Defs

variable (c : Submission)

/-- The number behind the pointer passed on as argument `j`. -/
def passed (j : ℕ) : ℕ := read c.fill.mem (argAt c.fill.mem c.req j) 4

/-- The copies of the arguments themselves have enough room. -/
def Sized : Prop := ∀ i, c.IsPointer i → told c.n c.arg c.passed i ≤ (c.block i).len

/-- Block number `j` has room for `len` bytes. -/
def HasRoom (j len : ℕ) : Prop := ∃ b, c.fill.blocks[j]? = some b ∧ len ≤ b.len

/-- `iov_len` of segment `j` of the array at `src`. -/
def iovLen (src j : ℕ) : ℕ := read c.mem (src + 16 * j + 8) 8

/-- Every copy is as long as the kernel is told. -/
structure Ample : Prop where
  sized : c.Sized
  vector : c.n = sysWritev → ∀ j < rounds (c.arg 2), c.HasRoom (1 + j) (c.iovLen (c.arg 1) j)
  name : c.IsMessage → c.HasRoom 1 (read c.mem (c.arg 1 + 8) 4)
  array : c.IsMessage → c.HasRoom 2 (iovlenOf c.mem (c.arg 1) * 16)
  control : c.IsMessage → c.HasRoom 3 (read c.mem (c.arg 1 + 40) 8)
  segments : c.IsMessage → ∀ j < iovlenOf c.mem (c.arg 1),
    c.HasRoom (4 + j) (c.iovLen (iovOf c.mem (c.arg 1)) j)

/-- The length that `accept4` finds behind its last pointer: that of the caller, or what is by chance in
the block if the caller gave none. -/
def accept4Length : ℕ :=
  if c.arg 2 = 0 then read c.mem (c.block 2).start 4 else read c.mem (c.arg 2) 4

/-- The counts and lengths for which the copies have enough room. -/
structure Fits : Prop where
  count : c.n = sysRead ∨ c.n = sysWrite ∨ c.n = sysSendto ∨ c.n = sysRecvfrom → c.arg 2 < 2 ^ 32
  address : c.n = sysAccept4 → asInt c.accept4Length ≤ 16
  events : c.n = sysEpollWait ∨ c.n = sysEpollPwait → 12 * asInt (c.arg 2) < 2 ^ 32
  mask : c.n = sysEpollPwait → c.arg 5 < 2 ^ 32
  vector : c.n = sysWritev → c.arg 2 < 2 ^ 28 ∧ ∀ j < c.arg 2, FitsInt (c.iovLen (c.arg 1) j)
  message : c.IsMessage → FitsInt (iovlenOf c.mem (c.arg 1) * 16) ∧
    FitsInt (read c.mem (c.arg 1 + 40) 8) ∧
    ∀ j < iovlenOf c.mem (c.arg 1), FitsInt (c.iovLen (iovOf c.mem (c.arg 1)) j)

/-- The number behind argument `j` can be read. -/
def ReadsLength (j : ℕ) : Prop := c.arg j ≠ 0 ∧ bytes ⟨c.arg j, 4⟩ ⊆ c.enclave

/-- What `fillArgs` follows can be read: a length pointer, and the array of a vector and of a message as
long as its copy is not cut short. -/
structure Reads : Prop where
  length : c.n = sysAccept ∨ c.n = sysGetsockname ∨ c.n = sysGetpeername → c.ReadsLength 2
  address : c.n = sysRecvfrom → c.ReadsLength 5
  optional : c.n = sysAccept4 → c.arg 2 = 0 ∨ c.ReadsLength 2
  vector : c.n = sysWritev → 0 < c.arg 2 → c.arg 2 < 2 ^ 28 →
    c.arg 1 ≠ 0 ∧ bytes ⟨c.arg 1, 16 * c.arg 2⟩ ⊆ c.enclave
  message : c.IsMessage → c.Readable
  array : c.IsMessage → FitsInt (iovlenOf c.mem (c.arg 1) * 16) →
    bytes ⟨iovOf c.mem (c.arg 1), 16 * iovlenOf c.mem (c.arg 1)⟩ ⊆ c.enclave

end Defs

/-! ### The arguments of one call -/

/-- The positions of the pointers among arguments of these types. -/
def pointersOf (types : List ArgType) : List ℕ :=
  (range types.length).filter fun i => types[i]?.getD .nonPtr ≠ .nonPtr

theorem isPointer_iff {n : ℕ} {types : List ArgType} {l : List ℕ} (hn : c.n = n)
    (ht : interpretSyscall n = some types) (hl : pointersOf types = l) : c.IsPointer i ↔ i ∈ l := by
  rw [← hl, pointersOf, mem_filter, mem_range, decide_eq_true_eq, ← types_of_eq hn ht]
  exact ⟨fun h => ⟨h.lt, h⟩, fun h => h.2⟩

theorem sized_iff {n : ℕ} {types : List ArgType} {l : List ℕ} (hn : c.n = n)
    (ht : interpretSyscall n = some types) (hl : pointersOf types = l) :
    c.Sized ↔ ∀ i ∈ l, told n c.arg c.passed i ≤ c.size i := by
  rw [← hn]
  exact forall_congr' fun i => imp_congr (isPointer_iff hn ht hl) Iff.rfl

theorem size_eq {n : ℕ} {types : List ArgType} (hn : c.n = n) (ht : interpretSyscall n = some types)
    (i : ℕ) : c.size i = getSize n types c.arg (c.fillTo i).mem i := by
  rw [size, types_of_eq hn ht, hn]

theorem flat_of_eq {n : ℕ} (hn : c.n = n) (h : n ≠ sysWritev ∧ n ≠ sysRecvmsg ∧ n ≠ sysSendmsg) :
    c.Flat := by
  rw [Flat, hn]
  exact h

section Flat

variable (hflat : c.Flat)

include hflat

theorem passed_eq_read (h : c.IsPointer k) : c.passed k = read c.fill.mem (c.block k).start 4 := by
  rw [passed, (fields_fill (intact_of_flat hflat) h).1]

/-- An argument that is a length pointer leads to the length of the caller. -/
theorem passed_eq (h : c.IsPointer k) (hsize : c.size k = 4) (hr : c.ReadsLength k) :
    c.passed k = read c.mem (c.arg k) 4 := by
  rw [passed_eq_read hflat h]
  exact read_eq_of_shift fun o ho => content_fill hflat h hr.1 (by omega)
    (hr.2 (Span.mem_bytes.2 (by omega)))

theorem passed_eq_of_null (h : c.IsPointer k) (hsize : c.size k = 4) (harg : c.arg k = 0) :
    c.passed k = read c.mem (c.block k).start 4 := by
  rw [passed_eq_read hflat h]
  refine read_congr fun x h1 h2 => untouched_fill hflat h harg ?_
  exact ⟨h1, lt_of_lt_of_eq h2 (congrArg _ hsize.symm)⟩

/-- The length behind a pointer is the same in every round of a flat call. -/
theorem read_length_fillTo (k : ℕ) {j : ℕ} (hr : c.ReadsLength j) :
    read (c.fillTo k).mem (c.arg j) 4 = read c.mem (c.arg j) 4 :=
  read_congr fun x h1 h2 => fillTo_kept (intact_of_flat hflat) k x (hr.2 ⟨h1, h2⟩)

end Flat

/-! ### The calls one by one -/

/-- A call with one pointer. -/
theorem sized_iff_one {n t z : ℕ} {types : List ArgType} (hn : c.n = n)
    (ht : interpretSyscall n = some types) (hl : pointersOf types = [k])
    (htold : told n c.arg c.passed k = t) (hsize : getSize n types c.arg (c.fillTo k).mem k = z) :
    c.Sized ↔ t ≤ z := by
  rw [sized_iff hn ht hl, forall_mem_singleton, htold, size_eq hn ht, hsize]

theorem le_mod_iff {a : ℕ} : a ≤ a % 2 ^ 32 ↔ a < 2 ^ 32 := by omega

/-- The calls with a count of 64 bits. -/
theorem sized_iff_of_count (hr : c.Reads)
    (hn : c.n = sysRead ∨ c.n = sysWrite ∨ c.n = sysSendto ∨ c.n = sysRecvfrom) :
    c.Sized ↔ c.arg 2 < 2 ^ 32 := by
  rcases hn with hn | hn | hn | hn
  · exact (sized_iff_one hn rfl rfl (t := c.arg 2) rfl (z := c.arg 2 % 2 ^ 32) rfl).trans le_mod_iff
  · exact (sized_iff_one hn rfl rfl (t := c.arg 2) rfl (z := c.arg 2 % 2 ^ 32) rfl).trans le_mod_iff
  · have htold1 : told sysSendto c.arg c.passed 1 = c.arg 2 := rfl
    have htold4 : told sysSendto c.arg c.passed 4 = asInt (c.arg 5) := rfl
    have hsize1 : c.size 1 = c.arg 2 % 2 ^ 32 := size_eq hn rfl 1
    have hsize4 : c.size 4 = c.arg 5 % 2 ^ 32 := size_eq hn rfl 4
    rw [sized_iff hn rfl (l := [1, 4]) rfl, forall_mem_cons, forall_mem_singleton, htold1,
      htold4, hsize1, hsize4]
    exact (and_iff_left (asInt_le (c.arg 5))).trans le_mod_iff
  · -- the length of the address is the same for `getSize` and for the kernel
    have hsize1 : c.size 1 = c.arg 2 % 2 ^ 32 := size_eq hn rfl 1
    have hsize4 : c.size 4 = read (c.fillTo 4).mem (c.arg 5) 4 := size_eq hn rfl 4
    have hsize5 : c.size 5 = 4 := size_eq hn rfl 5
    have htold1 : told sysRecvfrom c.arg c.passed 1 = c.arg 2 := rfl
    have htold5 : told sysRecvfrom c.arg c.passed 5 = 4 := rfl
    have hflat := flat_of_eq hn (by decide)
    have hpassed := passed_eq hflat ((isPointer_iff hn rfl (l := [1, 4, 5]) rfl).2 (by decide)) hsize5
      (hr.address hn)
    have hread := read_length_fillTo hflat 4 (hr.address hn)
    rw [sized_iff hn rfl (l := [1, 4, 5]) rfl, forall_mem_cons, forall_mem_cons,
      forall_mem_singleton, htold1, told_recvfrom, htold5, hsize1, hsize4, hsize5, hread, hpassed]
    have haddress : asInt (read c.mem (c.arg 5) 4) ≤ read c.mem (c.arg 5) 4 :=
      (asInt_le _).trans (Nat.mod_le ..)
    exact (and_iff_left ⟨haddress, le_refl 4⟩).trans le_mod_iff

theorem sized_of_length (hn : c.n = sysBind ∨ c.n = sysConnect ∨ c.n = sysSetsockopt) : c.Sized := by
  rcases hn with hn | hn | hn
  · exact (sized_iff_one hn rfl rfl (t := asInt (c.arg 2)) rfl rfl).2 (asInt_le (c.arg 2))
  · exact (sized_iff_one hn rfl rfl (t := asInt (c.arg 2)) rfl rfl).2 (asInt_le (c.arg 2))
  · exact (sized_iff_one hn rfl rfl (t := asInt (c.arg 4)) rfl rfl).2 (asInt_le (c.arg 4))

theorem sized_of_lengthPointer (hr : c.Reads)
    (hn : c.n = sysAccept ∨ c.n = sysGetsockname ∨ c.n = sysGetpeername) : c.Sized := by
  have hlen := hr.length hn
  have hall : ∀ {n : ℕ} {types : List ArgType}, c.n = n → interpretSyscall n = some types →
      pointersOf types = [1, 2] → n ≠ sysWritev ∧ n ≠ sysRecvmsg ∧ n ≠ sysSendmsg →
      getSize n types c.arg (c.fillTo 1).mem 1 = read (c.fillTo 1).mem (c.arg 2) 4 →
      getSize n types c.arg (c.fillTo 2).mem 2 = 4 →
      told n c.arg c.passed 1 = asInt (c.passed 2) → told n c.arg c.passed 2 = 4 → c.Sized := by
    intro n types hn ht hl hflat hsize1 hsize2 htold1 htold2
    rw [← size_eq hn ht] at hsize1 hsize2
    have hpassed := passed_eq (flat_of_eq hn hflat) ((isPointer_iff hn ht hl).2 (by decide)) hsize2 hlen
    have hread := read_length_fillTo (flat_of_eq hn hflat) 1 hlen
    rw [sized_iff hn ht hl, forall_mem_cons, forall_mem_singleton, htold1, htold2, hsize1,
      hsize2, hread, hpassed]
    exact ⟨(asInt_le _).trans (Nat.mod_le ..), le_refl 4⟩
  obtain ⟨haccept, -, hsockname, hpeername⟩ := told_address c.arg c.passed
  rcases hn with hn | hn | hn
  · exact hall hn rfl rfl (by decide) rfl rfl haccept rfl
  · exact hall hn rfl rfl (by decide) rfl rfl hsockname rfl
  · exact hall hn rfl rfl (by decide) rfl rfl hpeername rfl

/-- `accept4` is not among them for `getSize`: its address always has 16 bytes. -/
theorem sized_iff_accept4 (hr : c.Reads) (hn : c.n = sysAccept4) :
    c.Sized ↔ asInt c.accept4Length ≤ 16 := by
  have hsize : c.size 2 = 4 := size_eq hn rfl 2
  have hpassed : c.passed 2 = c.accept4Length := by
    have hflat := flat_of_eq hn (by decide)
    have hptr : c.IsPointer 2 := (isPointer_iff hn rfl (l := [1, 2]) rfl).2 (by decide)
    unfold accept4Length
    split
    · rename_i hnull
      exact passed_eq_of_null hflat hptr hsize hnull
    · rename_i hne
      exact passed_eq hflat hptr hsize ((hr.optional hn).resolve_left hne)
  have hsize1 : c.size 1 = 16 := size_eq hn rfl 1
  rw [sized_iff hn rfl (l := [1, 2]) rfl, forall_mem_cons, forall_mem_singleton, hsize, hsize1]
  have htold2 : told sysAccept4 c.arg c.passed 2 = 4 := rfl
  rw [(told_address c.arg c.passed).2.1, htold2, hpassed]
  exact and_iff_left (le_refl 4)

/-- The product of a type's size and a count, in 32 bits. -/
theorem le_mul_mod_iff {w v : ℕ} : w * asInt v ≤ w * (v % 2 ^ 32) % 2 ^ 32 ↔ w * asInt v < 2 ^ 32 := by
  unfold asInt
  split
  · exact ⟨fun h => lt_of_le_of_lt h (Nat.mod_lt _ (by decide)), fun h => (Nat.mod_eq_of_lt h).ge⟩
  · simp

theorem sized_iff_epollWait (hn : c.n = sysEpollWait) : c.Sized ↔ 12 * asInt (c.arg 2) < 2 ^ 32 := by
  refine (sized_iff_one hn rfl rfl (t := 12 * asInt (c.arg 2)) rfl
    (z := 12 * (c.arg 2 % 2 ^ 32) % 2 ^ 32) rfl).trans le_mul_mod_iff

theorem sized_iff_epollPwait (hn : c.n = sysEpollPwait) :
    c.Sized ↔ 12 * asInt (c.arg 2) < 2 ^ 32 ∧ c.arg 5 < 2 ^ 32 := by
  have htold1 : told sysEpollPwait c.arg c.passed 1 = 12 * asInt (c.arg 2) := rfl
  have htold4 : told sysEpollPwait c.arg c.passed 4 = c.arg 5 := rfl
  have hsize1 : c.size 1 = 12 * (c.arg 2 % 2 ^ 32) % 2 ^ 32 := size_eq hn rfl 1
  have hsize4 : c.size 4 = c.arg 5 % 2 ^ 32 := size_eq hn rfl 4
  rw [sized_iff hn rfl (l := [1, 4]) rfl, forall_mem_cons, forall_mem_singleton, htold1, htold4,
    hsize1, hsize4]
  exact and_congr le_mul_mod_iff le_mod_iff

theorem sized_iff_writev (hn : c.n = sysWritev) : c.Sized ↔ c.arg 2 < 2 ^ 28 := by
  rw [sized_iff_one hn rfl rfl (t := 16 * c.arg 2) rfl (z := 16 * (c.arg 2 % 2 ^ 32) % 2 ^ 32) rfl]
  omega

theorem sized_message (h : c.IsMessage) : c.Sized := by
  rcases h with hn | hn
  · exact (sized_iff_one hn rfl rfl (t := 56) rfl (z := 56) rfl).2 (le_refl 56)
  · exact (sized_iff_one hn rfl rfl (t := 56) rfl (z := 56) rfl).2 (le_refl 56)

theorem sized_of_told (h : ∀ i, told c.n c.arg c.passed i = 0) : c.Sized := fun i _ => by
  rw [h]
  exact Nat.zero_le _

/-- **The copies of the arguments themselves.** -/
theorem sized_of_fits (hr : c.Reads) (h : c.Fits) : c.Sized := by
  by_cases hcount : c.n = sysRead ∨ c.n = sysWrite ∨ c.n = sysSendto ∨ c.n = sysRecvfrom
  · exact (sized_iff_of_count hr hcount).2 (h.count hcount)
  by_cases hlength : c.n = sysBind ∨ c.n = sysConnect ∨ c.n = sysSetsockopt
  · exact sized_of_length hlength
  by_cases hpointer : c.n = sysAccept ∨ c.n = sysGetsockname ∨ c.n = sysGetpeername
  · exact sized_of_lengthPointer hr hpointer
  by_cases haccept4 : c.n = sysAccept4
  · exact (sized_iff_accept4 hr haccept4).2 (h.address haccept4)
  by_cases hwait : c.n = sysEpollWait
  · exact (sized_iff_epollWait hwait).2 (h.events (.inl hwait))
  by_cases hpwait : c.n = sysEpollPwait
  · exact (sized_iff_epollPwait hpwait).2 ⟨h.events (.inr hpwait), h.mask hpwait⟩
  by_cases hwritev : c.n = sysWritev
  · exact (sized_iff_writev hwritev).2 (h.vector hwritev).1
  by_cases hmessage : c.IsMessage
  · exact sized_message hmessage
  -- the arguments of the other calls say nothing
  refine sized_of_told fun i => ?_
  rw [IsMessage] at hmessage
  simp only [not_or] at hcount hlength hpointer hmessage
  simp only [told, hcount, hlength, hpointer, haccept4, hwait, hpwait, hwritev, hmessage, false_or,
    if_false]

/-! ### Nested copies -/

theorem hasRoom_iff {b : Span} {len : ℕ} (hb : c.fill.blocks[k]? = some b)
    (hlen : b.len = intToSize len) : c.HasRoom k len ↔ FitsInt len := by
  rw [← le_intToSize_iff, ← hlen]
  constructor
  · rintro ⟨d, hd, hle⟩
    obtain rfl : b = d := Option.some_inj.1 (hb.symm.trans hd)
    exact hle
  · exact fun hle => ⟨b, hb, hle⟩

theorem hasRoom_iff_of_filled {des src count first j : ℕ} (h : c.VectorFilled des src count first)
    (hj : j < count) : c.HasRoom (first + j) (c.iovLen src j) ↔ FitsInt (c.iovLen src j) := by
  obtain ⟨b, hb, -, hlen, -⟩ := h.points j hj
  rw [segmentOf_len] at hlen
  exact hasRoom_iff hb hlen

theorem hasRoom_iff_of_vector (hr : c.Reads) (hn : c.n = sysWritev) (hlt : c.arg 2 < 2 ^ 28) {j : ℕ}
    (hj : j < c.arg 2) : c.HasRoom (1 + j) (c.iovLen (c.arg 1) j) ↔ FitsInt (c.iovLen (c.arg 1) j) := by
  have hrounds : rounds (c.arg 2) = c.arg 2 := if_pos (by omega)
  obtain ⟨harg, hin⟩ := hr.vector hn (by omega) hlt
  have hsize : c.size 1 = 16 * (c.arg 2 % 2 ^ 32) % 2 ^ 32 := size_eq hn rfl 1
  have hfilled := vectorFilled hn (fun _ => harg) (by rwa [hrounds]) (by rw [hrounds, hsize]; omega)
  exact hasRoom_iff_of_filled hfilled (by rwa [hrounds])

theorem hasRoom_iff_of_message (hr : c.Reads) (hm : c.IsMessage)
    (hfits : FitsInt (iovlenOf c.mem (c.arg 1) * 16)) {j : ℕ} (hj : j < iovlenOf c.mem (c.arg 1)) :
    c.HasRoom (4 + j) (c.iovLen (iovOf c.mem (c.arg 1)) j) ↔
      FitsInt (c.iovLen (iovOf c.mem (c.arg 1)) j) := by
  have hle := le_intToSize_iff.2 hfits
  have hfilled := messageFilled hm (hr.message hm).header (hr.array hm hfits) (by omega)
  exact hasRoom_iff_of_filled hfilled.vector hj

theorem hasRoom_header (hr : c.Reads) (hm : c.IsMessage) :
    c.HasRoom 1 (read c.mem (c.arg 1 + 8) 4) ∧
      (c.HasRoom 2 (iovlenOf c.mem (c.arg 1) * 16) ↔ FitsInt (iovlenOf c.mem (c.arg 1) * 16)) ∧
      (c.HasRoom 3 (read c.mem (c.arg 1 + 40) 8) ↔ FitsInt (read c.mem (c.arg 1 + 40) 8)) := by
  obtain ⟨b₁, b₂, b₃, hpre, hlen1, hlen2, hlen3⟩ := message_lengths hm (hr.message hm).header
  rw [nameOf_len] at hlen1
  rw [controlOf_len] at hlen3
  refine ⟨(hasRoom_iff (getElem?_of_le hpre rfl) hlen1).2 ?_,
    hasRoom_iff (getElem?_of_le hpre rfl) hlen2, hasRoom_iff (getElem?_of_le hpre rfl) hlen3⟩
  -- an `int` of the caller is never cut short
  have hlt : read c.mem (c.arg 1 + 8) 4 < 256 ^ 4 := read_lt ..
  unfold FitsInt
  omega

/-- **The calls for which the copies have enough room**: those whose counts and lengths survive the
computation in 32 bits. -/
theorem ample_iff_fits (c : Submission) (hr : c.Reads) : c.Ample ↔ c.Fits := by
  constructor
  · intro h
    refine ⟨fun hn => (sized_iff_of_count hr hn).1 h.sized, fun hn => (sized_iff_accept4 hr hn).1 h.sized,
      ?_, fun hn => ((sized_iff_epollPwait hn).1 h.sized).2, fun hn => ?_, fun hm => ?_⟩
    · rintro (hn | hn)
      · exact (sized_iff_epollWait hn).1 h.sized
      · exact ((sized_iff_epollPwait hn).1 h.sized).1
    · have hlt := (sized_iff_writev hn).1 h.sized
      have hrounds : rounds (c.arg 2) = c.arg 2 := if_pos (by omega)
      exact ⟨hlt, fun j hj =>
        (hasRoom_iff_of_vector hr hn hlt hj).1 (h.vector hn j (by rwa [hrounds]))⟩
    · obtain ⟨-, harray, hcontrol⟩ := hasRoom_header hr hm
      have hfits := harray.1 (h.array hm)
      exact ⟨hfits, hcontrol.1 (h.control hm), fun j hj =>
        (hasRoom_iff_of_message hr hm hfits hj).1 (h.segments hm j hj)⟩
  · intro h
    refine ⟨sized_of_fits hr h, fun hn j hj => ?_, fun hm => (hasRoom_header hr hm).1,
      fun hm => (hasRoom_header hr hm).2.1.2 (h.message hm).1,
      fun hm => (hasRoom_header hr hm).2.2.2 (h.message hm).2.1, fun hm j hj => ?_⟩
    · obtain ⟨hlt, hall⟩ := h.vector hn
      have hrounds : rounds (c.arg 2) = c.arg 2 := if_pos (by omega)
      rw [hrounds] at hj
      exact (hasRoom_iff_of_vector hr hn hlt hj).2 (hall j hj)
    · obtain ⟨hfits, -, hall⟩ := h.message hm
      exact (hasRoom_iff_of_message hr hm hfits hj).2 (hall j hj)

/-! ### Two calls -/

/-- `write(1, 0x1100, 2 ^ 32 + 1)`. -/
def hugeWrite : Submission :=
  ofBlocks sysWrite [.nonPtr, .charPtr, .nonPtr] [1, 0x1100, 2 ^ 32 + 1]
    (requestMem 0x100 sysWrite [.nonPtr, .charPtr, .nonPtr] [1, 0x1100, 2 ^ 32 + 1]) pages [⟨2 ^ 32, 1⟩] rfl
    (by decide) (by decide +kernel) (by decide +kernel) (by decide +kernel) (by decide +kernel)
    (by decide +kernel) (by decide) (by decide)

theorem reads_hugeWrite : hugeWrite.Reads where
  length h := absurd h (by decide)
  address h := absurd h (by decide)
  optional h := absurd h (by decide)
  vector h := absurd h (by decide)
  message h := absurd h (by decide)
  array h := absurd h (by decide)

/-- The kernel is told of `2 ^ 32 + 1` bytes and finds one. -/
theorem hugeWrite_not_ample : hugeWrite.Reads ∧ ¬ hugeWrite.Ample := by
  refine ⟨reads_hugeWrite, fun h => ?_⟩
  have hlt : hugeWrite.arg 2 < 2 ^ 32 := (sized_iff_of_count reads_hugeWrite (.inr (.inl rfl))).1 h.sized
  exact absurd hlt (by decide)

/-- The memory of `writev(1, 0x1100, 2)` with a segment of three bytes and an empty one. -/
def writevMem : Mem :=
  let m := requestMem 0x100 sysWritev [.nonPtr, .iovecPtr, .nonPtr] [1, 0x1100, 2]
  write (write (write (write (write m 0x1100 8 0x1200) 0x1108 8 3) 0x1110 8 0x1300) 0x1118 8 0)
    0x1200 3 0x636261

def writevCall : Submission :=
  ofBlocks sysWritev [.nonPtr, .iovecPtr, .nonPtr] [1, 0x1100, 2] writevMem pages
    [⟨2 ^ 32, 32⟩, ⟨2 ^ 32 + 0x1000, 3⟩, ⟨2 ^ 32 + 0x2000, 0⟩] rfl (by decide) (by decide +kernel)
    (by decide +kernel) (by decide +kernel) (by decide +kernel) (by decide +kernel) (by decide) (by decide)

theorem writevCall_array : bytes ⟨0x1100, 16 * 2⟩ ⊆ writevCall.enclave := fun x hx => by
  rw [Span.mem_bytes] at hx
  exact Span.mem_bytes.2 (by rw [enclaveLen]; change 0x1000 ≤ x ∧ x < 0x1000 + 2 ^ 31; omega)

theorem reads_writevCall : writevCall.Reads where
  length h := absurd h (by decide)
  address h := absurd h (by decide)
  optional h := absurd h (by decide)
  vector _ _ _ := ⟨by decide, writevCall_array⟩
  message h := absurd h (by decide)
  array h := absurd h (by decide)

theorem fits_writevCall : writevCall.Fits where
  count h := absurd h (by decide)
  address h := absurd h (by decide)
  events h := absurd h (by decide)
  mask h := absurd h (by decide)
  vector _ := ⟨by decide, fun j hj => .inl ((show ∀ j < 2, writevCall.iovLen 0x1100 j < 2 ^ 31 by
    decide +kernel) j hj)⟩
  message h := absurd h (by decide)

theorem ample_iff_fits_writevCall : writevCall.Reads ∧ writevCall.Ample :=
  ⟨reads_writevCall, (ample_iff_fits writevCall reads_writevCall).2 fits_writevCall⟩

end Submission

end Syscall

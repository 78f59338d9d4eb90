/-
**The paths of `open`, `openat` and `access`.**

No argument tells the length of a path, so `fillArgs` copies what the type table has for a `char *`: 256
bytes, whatever the string.  A path of up to 255 bytes arrives with its terminator.  Of a longer one the
host sees the first 256 bytes and after them what happens to lie behind the block.

Main definitions: `IsCString`, `PathFits`.  Main result: `path_arrives_iff`.
-/

import SgxElps.Syscall.Ample
import SgxElps.Syscall.Secrecy

namespace Syscall

open Bytes
open List
open Prepared Marshalling

/-- The C string at `a` is `l`. -/
structure IsCString (m : Mem) (a : ℕ) (l : List UInt8) : Prop where
  byte : ∀ o (h : o < l.length), m (a + o) = l[o]
  byte_ne : ∀ v ∈ l, v ≠ 0
  terminated : m (a + l.length) = 0

theorem IsCString.iff_of_same {m m' : Mem} {a a' : ℕ} {l : List UInt8} (h : IsCString m a l) :
    IsCString m' a' l ↔ ∀ o ≤ l.length, m' (a' + o) = m (a + o) := by
  constructor
  · intro h' o ho
    rcases Nat.lt_or_eq_of_le ho with hlt | rfl
    · rw [h'.byte o hlt, h.byte o hlt]
    · rw [h'.terminated, h.terminated]
  · intro hsame
    refine ⟨fun o ho => ?_, h.byte_ne, ?_⟩
    · rw [hsame o ho.le, h.byte o ho]
    · rw [hsame _ (le_refl _), h.terminated]

/-- The argument that is a path. -/
def pathArg (n : ℕ) : Option ℕ :=
  if n = sysOpen ∨ n = sysAccess then some 0 else if n = sysOpenat then some 1 else none

namespace Submission

variable {c : Submission} {i : ℕ}

section Defs

variable (c : Submission) (i : ℕ)

/-- The memory before the call with the fields of argument `i` filled in. -/
def withFields : Mem :=
  write (write (write c.mem (c.req + 92 + 4 * i) 4 256) (c.req + 128 + 16 * i) 8 (c.block i).start)
    (c.req + 120 + 16 * i) 8 (c.block i).start

/-- The path is short enough, or goes on by chance behind the block. -/
def PathFits (l : List UInt8) : Prop :=
  l.length ≤ 255 ∨
    ∀ o, 256 ≤ o → o ≤ l.length → c.withFields i ((c.block i).start + o) = c.mem (c.arg i + o)

/-- `l` is the path that the caller passes as argument `i`. -/
structure PathGiven (l : List UInt8) : Prop where
  arg_eq : pathArg c.n = some i
  arg_ne : c.arg i ≠ 0
  isCString : IsCString c.mem (c.arg i) l
  readable : (⟨c.arg i, l.length + 1⟩ : Span).bytes ⊆ c.enclave

end Defs

/-- The only pointer of these calls is the path, and the type table knows its length. -/
theorem path_facts (h : pathArg c.n = some i) :
    c.Flat ∧ (∀ j, c.IsPointer j ↔ j = i) ∧ c.size i = 256 := by
  have hall : ∀ {n : ℕ} {types : List ArgType}, c.n = n → interpretSyscall n = some types →
      pointersOf types = [i] → n ≠ sysWritev ∧ n ≠ sysRecvmsg ∧ n ≠ sysSendmsg →
      (∀ m, getSize n types c.arg m i = 256) → c.Flat ∧ (∀ j, c.IsPointer j ↔ j = i) ∧ c.size i = 256 := by
    intro n types hn ht hl hflat hsize
    refine ⟨flat_of_eq hn hflat, fun j => ?_, ?_⟩
    · rw [isPointer_iff hn ht hl, mem_singleton]
    · rw [size_eq hn ht, hsize]
  unfold pathArg at h
  split at h
  · obtain rfl := Option.some_inj.1 h
    rename_i hn
    rcases hn with hn | hn <;> exact hall hn rfl rfl (by decide) fun _ => rfl
  · split at h
    · obtain rfl := Option.some_inj.1 h
      rename_i hn
      exact hall hn rfl rfl (by decide) fun _ => rfl
    · exact absurd h (by simp)

theorem fillTo_path (h : pathArg c.n = some i) : c.fillTo i = ⟨c.mem, []⟩ := by
  have hnot : ∀ k ≤ i, c.fillTo k = ⟨c.mem, []⟩ := by
    intro k hk
    induction k with
    | zero => rfl
    | succ k ih =>
      rw [fillTo_succ_of_not fun hp => absurd ((path_facts h).2.1 k |>.1 hp) (by omega), ih (by omega)]
  exact hnot i (le_refl _)

theorem fill_path (h : pathArg c.n = some i) : c.fill = c.fillTo (i + 1) := by
  obtain ⟨-, hptr, -⟩ := path_facts h
  have hstay : ∀ k, i + 1 ≤ k → c.fillTo k = c.fillTo (i + 1) := by
    intro k hk
    induction k, hk using Nat.le_induction with
    | base => rfl
    | succ k hk ih => rw [fillTo_succ_of_not fun hp => absurd ((hptr k).1 hp) (by omega), ih]
  exact hstay _ ((hptr i).2 rfl).lt

theorem path_inside {l : List UInt8} (h : c.PathGiven i l) {o : ℕ} (ho : o < 256) (hl : o ≤ l.length) :
    c.fill.mem ((c.block i).start + o) = c.mem (c.arg i + o) := by
  obtain ⟨hflat, hptr, hsize⟩ := path_facts h.arg_eq
  exact content_fill hflat ((hptr i).2 rfl) h.arg_ne (by omega) (h.readable (Span.mem_bytes.2 (by omega)))

/-- What lies behind the block is not part of the copy. -/
theorem path_behind {l : List UInt8} (h : c.PathGiven i l) {o : ℕ} (ho : 256 ≤ o) :
    c.fill.mem ((c.block i).start + o) = c.withFields i ((c.block i).start + o) := by
  obtain ⟨hflat, hptr, hsize⟩ := path_facts h.arg_eq
  have hmem : (c.fillTo i).mem = c.mem := by rw [fillTo_path h.arg_eq]
  rw [fill_path h.arg_eq, flat_succ hflat ((hptr i).2 rfl), shallow, withFields]
  dsimp only
  rw [if_neg h.arg_ne, hmem, hsize]
  generalize (c.block i).start = p
  have hcopy : AgreeOff (⟨p, 256⟩ : Span).bytes
      (write (write c.mem (c.req + 92 + 4 * i) 4 256) (c.req + 128 + 16 * i) 8 p)
      (copy (write (write c.mem (c.req + 92 + 4 * i) 4 256) (c.req + 128 + 16 * i) 8 p) p (c.arg i) 256) :=
    (AgreeOff.refl _ _).copy (le_refl _)
  refine hcopy.write_both (p + o) ?_
  rw [Span.mem_bytes]
  omega

/-- **The paths that arrive**: those of up to 255 bytes. -/
theorem path_arrives_iff (c : Submission) (i : ℕ) (l : List UInt8) (h : c.PathGiven i l) :
    IsCString c.fill.mem (argAt c.fill.mem c.req i) l ↔ c.PathFits i l := by
  obtain ⟨hflat, hptr, -⟩ := path_facts h.arg_eq
  have harg := (fields_fill (intact_of_flat hflat) ((hptr i).2 rfl)).1
  rw [harg, h.isCString.iff_of_same]
  constructor
  · intro hsame
    refine .inr fun o ho hl => ?_
    rw [← path_behind h ho, hsame o hl]
  · intro hfits o hl
    rcases Nat.lt_or_ge o 256 with ho | ho
    · exact path_inside h ho hl
    · rcases hfits with hshort | hlong
      · omega
      · rw [path_behind h ho, hlong o ho hl]

/-! ### A path of 257 bytes -/

/-- The memory of `open(0x1100, 0, 0)` with 257 letters at `0x1100`. -/
def longPathMem : Mem := fun x =>
  if 0x1100 ≤ x ∧ x < 0x1100 + 257 then 97
  else requestMem 0x100 sysOpen [.charPtr, .nonPtr, .nonPtr] [0x1100, 0, 0] x

def longPathCall : Submission :=
  ofBlocks sysOpen [.charPtr, .nonPtr, .nonPtr] [0x1100, 0, 0] longPathMem pages [⟨2 ^ 32, 256⟩] rfl
    (by decide) (by decide +kernel) (by decide +kernel) (by decide +kernel) (by decide +kernel)
    (by decide +kernel) (by decide) (by decide)

theorem pathGiven_longPathCall : longPathCall.PathGiven 0 (replicate 257 97) where
  arg_eq := rfl
  arg_ne := by decide
  isCString := by
    refine ⟨fun o ho => ?_, fun v hv => ?_, ?_⟩
    · rw [length_replicate] at ho
      rw [getElem_replicate]
      exact if_pos (show 0x1100 ≤ 0x1100 + o ∧ 0x1100 + o < 0x1100 + 257 by omega)
    · rw [(mem_replicate.1 hv).2]
      decide
    · rw [length_replicate]
      decide +kernel
  readable x hx := by
    rw [length_replicate] at hx
    obtain ⟨h1, h2⟩ : 0x1100 ≤ x ∧ x < 0x1100 + 258 := hx
    exact Span.mem_bytes.2 (by rw [enclaveLen]; change 0x1000 ≤ x ∧ x < 0x1000 + 2 ^ 31; omega)

/-- The host finds a path of 256 bytes. -/
theorem longPath_cut : longPathCall.PathGiven 0 (replicate 257 97) ∧
    ¬ IsCString longPathCall.fill.mem (argAt longPathCall.fill.mem longPathCall.req 0)
      (replicate 257 97) := by
  refine ⟨pathGiven_longPathCall, fun h => ?_⟩
  obtain ⟨hflat, hptr, -⟩ := path_facts pathGiven_longPathCall.arg_eq
  rw [(fields_fill (intact_of_flat hflat) ((hptr 0).2 rfl)).1] at h
  have hbyte := h.byte 256 (by rw [length_replicate]; decide)
  rw [path_behind pathGiven_longPathCall (le_refl _), getElem_replicate] at hbyte
  exact absurd hbyte (by decide +kernel)

/-- The same call with three letters at `0x1100`. -/
def shortPathCall : Submission :=
  ofBlocks sysOpen [.charPtr, .nonPtr, .nonPtr] [0x1100, 0, 0]
    (write (requestMem 0x100 sysOpen [.charPtr, .nonPtr, .nonPtr] [0x1100, 0, 0]) 0x1100 3 0x636261) pages
    [⟨2 ^ 32, 256⟩] rfl (by decide) (by decide +kernel) (by decide +kernel) (by decide +kernel)
    (by decide +kernel) (by decide +kernel) (by decide) (by decide)

theorem path_arrives_iff_shortPathCall : shortPathCall.PathGiven 0 [97, 98, 99] ∧
    IsCString shortPathCall.fill.mem (argAt shortPathCall.fill.mem shortPathCall.req 0) [97, 98, 99] := by
  have hgiven : shortPathCall.PathGiven 0 [97, 98, 99] := by
    refine ⟨rfl, by decide, ⟨by decide +kernel, by simp, by decide +kernel⟩, fun x hx => ?_⟩
    obtain ⟨h1, h2⟩ : 0x1100 ≤ x ∧ x < 0x1100 + 4 := hx
    exact Span.mem_bytes.2 (by rw [enclaveLen]; change 0x1000 ≤ x ∧ x < 0x1000 + 2 ^ 31; omega)
  exact ⟨hgiven, (path_arrives_iff _ _ _ hgiven).2 (.inl (by decide))⟩

end Submission

end Syscall

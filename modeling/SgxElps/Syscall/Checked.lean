/-
**`fillArgs` with null pointers and failing allocations.**

The copies of `Syscall/Marshal.lean` are made as if every pointer could be followed and every block were
there.  Here the same functions watch out for null: an access through a null pointer ends the run, and
`unsafe_slub_malloc` may find the unsafe heap exhausted.  For a length of up to 4096 bytes the slab allocator
then constructs a slab at address zero; for a greater length it hands the null pointer on to its caller.

Main definitions: `asyncSyscall`, `Handled`.  Main result: `handled_iff`.
-/

import SgxElps.Syscall.Release
import SgxElps.Lib.Except

namespace Syscall

open Bytes
open Except (bind_eq_ok)

/-- Where a run ends early: a null argument is read, a null pointer in a nested structure is read, or
something is written through a null pointer. -/
inductive Stop where
  | nullArg (i : ℕ)
  | nullMember
  | nullWrite
deriving DecidableEq

/-- The copies so far, and whether an allocation has failed. -/
structure Progress where
  fill : Fill
  failed : Bool

/-- The result of a piece of code that may stop at a null pointer. -/
abbrev Checked (α : Type) := Except (Stop × Progress) α

/-- The unsafe heap: where a block of this length can be had, given the blocks handed out before. -/
abbrev Heap := List Span → ℕ → Option ℕ

namespace Checked

/-! ### The functions -/

variable (heap : Heap)

/-- `unsafe_slub_malloc`. -/
def malloc (s : Progress) (size : ℕ) : Checked (ℕ × Progress) :=
  match heap s.fill.blocks size with
  | some p => .ok (p, { s with fill := ⟨s.fill.mem, s.fill.blocks ++ [⟨p, size⟩]⟩ })
  | none =>
      if size ≤ 4096 then .error (.nullWrite, { s with failed := true })
      else .ok (0, { s with failed := true })

/-- Stores that cannot stop. -/
def store (s : Progress) (a n v : ℕ) : Progress :=
  { s with fill := ⟨write s.fill.mem a n v, s.fill.blocks⟩ }

def memcpy (s : Progress) (dst src len : ℕ) : Checked Progress :=
  if len = 0 then .ok s
  else if dst = 0 then .error (.nullWrite, s)
  else if src = 0 then .error (.nullMember, s)
  else .ok { s with fill := ⟨copy s.fill.mem dst src len, s.fill.blocks⟩ }

/-- `memberCopy`; `onNull` is what it means that `src` is null. -/
def memberCopy (onNull : Stop) (s : Progress) (src des tar len width fac : ℕ) : Checked Progress :=
  if src = 0 then .error (onNull, s)
  else
    let size := intToSize (read s.fill.mem (src + len) width * fac)
    malloc heap s size >>= fun (p, s) =>
      if des = 0 then .error (.nullWrite, s)
      else
        let s := store s (des + tar) 8 p
        memcpy s p (read s.fill.mem (src + tar) 8) size

/-- The loop over the elements of an `iovec` array. -/
def copySegments (onNull : Stop) (s : Progress) (src des : ℕ) : ℕ → Checked Progress
  | 0 => .ok s
  | k + 1 =>
      memberCopy heap onNull s src des 0 8 8 1 >>= fun s =>
        copySegments onNull s (src + 16) (des + 16) k

/-- The name, the array and the control data of a message. -/
def copyHeader (onNull : Stop) (s : Progress) (src des : ℕ) : Checked Progress :=
  memberCopy heap onNull s src des 0 8 4 1 >>= fun s =>
    memberCopy heap onNull s src des 16 24 8 16 >>= fun s =>
      memberCopy heap onNull s src des 32 40 8 1

/-- `deepCopy` of argument `i`. -/
def deepCopy (s : Progress) (n i src des count : ℕ) : Checked Progress :=
  if n = sysWritev then copySegments heap (.nullArg i) s src des (rounds count)
  else if n = sysRecvmsg ∨ n = sysSendmsg then
    copyHeader heap (.nullArg i) s src des >>= fun s =>
      copySegments heap .nullMember s (read s.fill.mem (src + 16) 8) (read s.fill.mem (des + 16) 8)
        (read s.fill.mem (src + 24) 8)
  else .ok s

/-- The length of argument `i` is the number behind argument `i + 1`. -/
def byPointer (n i : ℕ) : Bool :=
  n = sysRecvfrom && i = 4 || (n = sysAccept || n = sysGetsockname || n = sysGetpeername) && i = 1

def getSize (s : Progress) (n : ℕ) (types : List ArgType) (arg : ℕ → ℕ) (i : ℕ) : Checked ℕ :=
  if byPointer n i && arg (i + 1) = 0 then .error (.nullArg (i + 1), s)
  else .ok (Syscall.getSize n types arg s.fill.mem i)

/-- The copy of an argument, unless it is null. -/
def copyArg (s : Progress) (dst src len : ℕ) : Checked Progress :=
  if src = 0 then .ok s else memcpy s dst src len

/-- The part of a round of `fillArgs` after the length is known. -/
def fillPointer (req n : ℕ) (arg : ℕ → ℕ) (s : Progress) (i size : ℕ) : Checked Progress :=
  let s := store s (req + 92 + 4 * i) 4 size
  malloc heap s size >>= fun (p, s) =>
    let s := store s (req + 128 + 16 * i) 8 p
    copyArg s p (arg i) size >>= fun s =>
      deepCopy heap s n i (arg i) p (arg (i + 1)) >>= fun s =>
        .ok (store s (req + 120 + 16 * i) 8 p)

/-- The loop of `fillArgs` over `k` arguments from argument `i` on.  The length is an `unsigned int`, so the
test whether it is negative never succeeds. -/
def fillFrom (req n : ℕ) (types : List ArgType) (arg : ℕ → ℕ) (s : Progress) (i : ℕ) :
    ℕ → Checked (Bool × Progress)
  | 0 => .ok (true, s)
  | k + 1 =>
      if types[i]?.getD .nonPtr = .nonPtr then fillFrom req n types arg s (i + 1) k
      else
        getSize s n types arg i >>= fun size =>
          if size < 0 then .ok (false, s)
          else fillPointer heap req n arg s i size >>= fun s => fillFrom req n types arg s (i + 1) k

/-- `SyscallRequest::fillArgs`. -/
def fillArgs (m : Mem) (req n : ℕ) (types : List ArgType) (arg : ℕ → ℕ) : Checked (Bool × Progress) :=
  fillFrom heap req n types arg ⟨⟨m, []⟩, false⟩ 0 types.length

/-! ### Runs that get to their end -/

section Sound

variable {heap}

/-- The heap that is never exhausted. -/
def total (alloc : Alloc) : Heap := fun l size => some (alloc l size)

variable {alloc : Alloc} {s s' : Progress}

theorem malloc_total (s : Progress) (size : ℕ) : malloc (total alloc) s size =
    .ok (alloc s.fill.blocks size,
      { s with fill := ⟨s.fill.mem, s.fill.blocks ++ [s.fill.block alloc size]⟩ }) := rfl

theorem memcpy_sound {dst src len : ℕ} (h : memcpy s dst src len = .ok s') :
    s'.fill = ⟨copy s.fill.mem dst src len, s.fill.blocks⟩ := by
  unfold memcpy at h
  split at h
  · rename_i hlen
    cases h
    rw [hlen, copy_zero]
  · split at h
    · cases h
    · split at h
      · cases h
      · cases h
        rfl

theorem memberCopy_sound {onNull : Stop} {src des tar len width fac : ℕ}
    (h : memberCopy (total alloc) onNull s src des tar len width fac = .ok s') :
    s'.fill = Syscall.memberCopy alloc s.fill src des tar len width fac := by
  unfold memberCopy at h
  split at h
  · cases h
  · dsimp only at h
    obtain ⟨⟨p, s₁⟩, hp, h⟩ := bind_eq_ok.1 h
    rw [malloc_total] at hp
    cases hp
    split at h
    · cases h
    · rw [memcpy_sound h]
      rfl

theorem copySegments_sound {onNull : Stop} {src des k : ℕ}
    (h : copySegments (total alloc) onNull s src des k = .ok s') :
    s'.fill = Syscall.copySegments alloc s.fill src des k := by
  induction k generalizing s src des with
  | zero =>
    cases h
    rfl
  | succ k ih =>
    obtain ⟨s₁, h1, h⟩ := bind_eq_ok.1 h
    rw [ih h, memberCopy_sound h1]
    rfl

theorem copyHeader_sound {onNull : Stop} {src des : ℕ}
    (h : copyHeader (total alloc) onNull s src des = .ok s') :
    s'.fill = Syscall.copyHeader alloc s.fill src des := by
  obtain ⟨s₁, h1, h⟩ := bind_eq_ok.1 h
  obtain ⟨s₂, h2, h⟩ := bind_eq_ok.1 h
  rw [memberCopy_sound h, memberCopy_sound h2, memberCopy_sound h1]
  rfl

theorem deepCopy_sound {n i src des count : ℕ}
    (h : deepCopy (total alloc) s n i src des count = .ok s') :
    s'.fill = Syscall.deepCopy alloc s.fill n src des count := by
  unfold deepCopy at h
  unfold Syscall.deepCopy
  split at h <;> rename_i hn
  · rw [if_pos hn, copySegments_sound h]
    rfl
  · rw [if_neg hn]
    split at h <;> rename_i hm
    · obtain ⟨s₁, h1, h⟩ := bind_eq_ok.1 h
      rw [if_pos hm, copySegments_sound h, copyHeader_sound h1]
    · rw [if_neg hm]
      cases h
      rfl

theorem copyArg_sound {dst src len : ℕ} (h : copyArg s dst src len = .ok s') :
    s'.fill = ⟨if src = 0 then s.fill.mem else copy s.fill.mem dst src len, s.fill.blocks⟩ := by
  unfold copyArg at h
  split at h <;> rename_i hsrc
  · rw [if_pos hsrc]
    cases h
    rfl
  · rw [if_neg hsrc]
    exact memcpy_sound h

theorem fillPointer_sound {req n i : ℕ} {types : List ArgType} {arg : ℕ → ℕ}
    (htype : types[i]?.getD .nonPtr ≠ .nonPtr)
    (h : fillPointer (total alloc) req n arg s i (Syscall.getSize n types arg s.fill.mem i) = .ok s') :
    s'.fill = fillArg alloc req n types arg s.fill i := by
  unfold fillPointer at h
  unfold fillArg
  rw [if_neg htype]
  generalize Syscall.getSize n types arg s.fill.mem i = size at h ⊢
  dsimp only at h
  obtain ⟨⟨p, s₁⟩, hp, h⟩ := bind_eq_ok.1 h
  rw [malloc_total] at hp
  cases hp
  obtain ⟨s₂, h2, h⟩ := bind_eq_ok.1 h
  obtain ⟨s₃, h3, h⟩ := bind_eq_ok.1 h
  cases h
  dsimp only [store]
  rw [deepCopy_sound h3, copyArg_sound h2]
  rfl

theorem fillFrom_sound {m : Mem} {req n : ℕ} {types : List ArgType} {arg : ℕ → ℕ} {k : ℕ} :
    ∀ {s : Progress} {i : ℕ} {b : Bool} {s' : Progress}, s.fill = fillUpTo alloc m req n types arg i →
      fillFrom (total alloc) req n types arg s i k = .ok (b, s') →
      b = true ∧ s'.fill = fillUpTo alloc m req n types arg (i + k) := by
  induction k with
  | zero =>
    intro s i b s' hs h
    cases h
    exact ⟨rfl, hs⟩
  | succ k ih =>
    intro s i b s' hs h
    have hsucc : i + (k + 1) = i + 1 + k := by omega
    rw [fillFrom] at h
    rw [hsucc]
    split at h <;> rename_i htype
    · refine ih ?_ h
      rw [fillUpTo, fillArg, if_pos htype, hs]
    · obtain ⟨size, hsize, h⟩ := bind_eq_ok.1 h
      rw [if_neg (Nat.not_lt_zero _)] at h
      obtain ⟨s₁, h1, h⟩ := bind_eq_ok.1 h
      refine ih ?_ h
      unfold getSize at hsize
      split at hsize
      · cases hsize
      · cases hsize
        rw [fillPointer_sound htype h1, hs]
        rfl

theorem fillArgs_sound {m : Mem} {req n : ℕ} {types : List ArgType} {arg : ℕ → ℕ} {b : Bool}
    (h : fillArgs (total alloc) m req n types arg = .ok (b, s')) :
    b = true ∧ s'.fill = Syscall.fillArgs alloc m req n types arg := by
  have hsound := fillFrom_sound (m := m) (i := 0) rfl h
  rwa [Nat.zero_add] at hsound

end Sound

/-! ### What is done about failures -/

/-- How `__async_syscall` goes on after `fillArgs`: the request is pushed, or it is given up and the call
returns `-1`, or the thread has stopped. -/
inductive Submitted where
  | pushed (s : Progress)
  | refused (s : Progress)
  | stopped (e : Stop) (s : Progress)

def Submitted.progress : Submitted → Progress
  | .pushed s => s
  | .refused s => s
  | .stopped _ s => s

/-- `__async_syscall` up to the push. -/
def asyncSyscall (m : Mem) (req n : ℕ) (types : List ArgType) (arg : ℕ → ℕ) : Submitted :=
  match fillArgs heap m req n types arg with
  | .ok (true, s) => .pushed s
  | .ok (false, s) => .refused s
  | .error (e, s) => .stopped e s

/-- If an allocation fails, the request is given up, and its destructor releases the blocks that it had. -/
def Handled (o : Submitted) (req : ℕ) : Prop :=
  o.progress.failed = true → ∃ s, o = .refused s ∧
    (frees (destructor s.fill.mem req)).Perm (s.fill.blocks.map Span.start)

variable {heap}

theorem fillFrom_true {req n : ℕ} {types : List ArgType} {arg : ℕ → ℕ} {k : ℕ} :
    ∀ {s : Progress} {i : ℕ} {b : Bool} {s' : Progress},
      fillFrom heap req n types arg s i k = .ok (b, s') → b = true := by
  induction k with
  | zero =>
    intro s i b s' h
    cases h
    rfl
  | succ k ih =>
    intro s i b s' h
    rw [fillFrom] at h
    split at h
    · exact ih h
    · obtain ⟨size, -, h⟩ := bind_eq_ok.1 h
      rw [if_neg (Nat.not_lt_zero _)] at h
      obtain ⟨s₁, -, h⟩ := bind_eq_ok.1 h
      exact ih h

theorem asyncSyscall_ne_refused {m : Mem} {req n : ℕ} {types : List ArgType} {arg : ℕ → ℕ} {s : Progress} :
    asyncSyscall heap m req n types arg ≠ .refused s := by
  unfold asyncSyscall
  split
  · rintro ⟨⟩
  · rename_i h
    exact absurd (fillFrom_true h) (by decide)
  · rintro ⟨⟩

/-- **No failed allocation is handled**: whatever the call, the run is right only if none of its allocations
fails. -/
theorem handled_iff (heap : Heap) (m : Mem) (req n : ℕ) (types : List ArgType) (arg : ℕ → ℕ) :
    Handled (asyncSyscall heap m req n types arg) req ↔
      (asyncSyscall heap m req n types arg).progress.failed = false := by
  constructor
  · intro h
    by_contra hfailed
    obtain ⟨s, hs, -⟩ := h (Bool.eq_true_of_not_eq_false hfailed)
    exact asyncSyscall_ne_refused hs
  · intro hfailed h
    rw [hfailed] at h
    exact absurd h (by decide)

/-- `write(1, 0x1100, 5000)` with an exhausted heap: the copy goes to address zero. -/
theorem write_stops_at_null :
    let o := asyncSyscall (fun _ _ => none)
      (Submission.requestMem 0x100 sysWrite [.nonPtr, .charPtr, .nonPtr] [1, 0x1100, 5000]) 0x100 sysWrite
      [.nonPtr, .charPtr, .nonPtr] fun i => [1, 0x1100, 5000].getD i 0
    (∃ s, o = .stopped .nullWrite s) ∧ ¬ Handled o 0x100 := by
  refine ⟨⟨_, rfl⟩, fun h => ?_⟩
  obtain ⟨s, hs, -⟩ := h rfl
  cases hs

end Checked

end Syscall

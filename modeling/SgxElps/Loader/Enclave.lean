/-
**The address range of the enclave.**

`EnclaveManager` in `loader/enclave_manager.cpp` keeps the ranges that were added to the enclave in a
map from their first addresses to their lengths.  `addPages` rounds the length up to pages, compares the
range with that of the enclave and with its two neighbours in the map, hands the pages to the driver and
to the measurement, and enters the range in the map.  A range that does not pass ends the loader.

Addresses and lengths are 64-bit numbers, and the sums in the tests are taken modulo `2 ^ 64`.  Whether
the driver takes the pages is an input.

Main definitions: `Manager.addPages`, `Exact`, `Plain`.  Main results: `addPages_eq_ok`, `allSteps_exact`.
-/

import SgxElps.Lib.Transition
import SgxElps.Lib.SortedMap
import SgxElps.Lib.RoundUp
import SgxElps.Lib.Span
import Mathlib.Data.BitVec
import SgxElps.Lib.Participants

namespace Enclave

open SortedMap (mem_insert)
open List
open Transition
open Span

/-! ### The code -/

/-- The addresses of the enclave, as `mmap` has found them. -/
structure Region where
  base : ℕ
  len : ℕ
  fits : base + len < 2 ^ 64

/-- A page as it goes to the driver; the measurement gets the offset and the flags. -/
structure Page where
  offset : ℕ
  flags : BitVec 64
  bytes : Fin 4096 → UInt8

/-- The arguments of `addPages`: `src` are the bytes from the source address on, and `driver` says whether
the driver takes all the pages. -/
structure Call where
  dest : ℕ
  src : ℕ → UInt8
  len : ℕ
  writable : Bool := true
  executable : Bool := true
  isTCS : Bool := false
  driver : Bool := true

/-- `mappings` is the map.  `pages` and `accepted` record the pages that were added and the calls that
were accepted, in order. -/
structure Manager where
  region : Region
  mappings : SortedMap ℕ ℕ
  pages : List Page
  accepted : List Call

/-- The calls of `exit(-1)`, with what is logged. -/
inductive Exit
  | outOfBounds (dest len : ℕ)
  | conflicts (dest len : ℕ)
  | mappingFailed
  | notEnoughSpace (len : ℕ)
  | threadMem
deriving DecidableEq

/-- The manager after its constructor. -/
def Manager.new (r : Region) : Manager := ⟨r, .empty, [], []⟩

def add64 (a b : ℕ) : ℕ := (a + b) % 2 ^ 64

def sub64 (a b : ℕ) : ℕ := (a + (2 ^ 64 - b)) % 2 ^ 64

/-- `((len + 4095) >> 12) << 12`. -/
def roundLen (len : ℕ) : ℕ := add64 len 4095 / 4096 * 4096

/-- The flags of the pages of a call. -/
def Call.flags (c : Call) : BitVec 64 :=
  let flags := 1 ||| (if c.writable then 2 else 0) ||| (if c.executable then 4 else 0) |||
    (if c.isTCS then 0x100 else 0x200)
  if c.isTCS then flags &&& ~~~1 &&& ~~~2 &&& ~~~4 else flags

/-- The pages of a call. -/
def Call.pages (r : Region) (c : Call) : List Page :=
  (List.range (roundLen c.len / 4096)).map fun i =>
    ⟨sub64 (add64 c.dest (4096 * i)) r.base, c.flags, fun j => c.src (4096 * i + j)⟩

/-- `addPages`. -/
def Manager.addPages (s : Manager) (c : Call) : Except Exit Manager :=
  let len := roundLen c.len
  if c.dest < s.region.base ∨ add64 s.region.base s.region.len < add64 c.dest len then
    .error (.outOfBounds c.dest len)
  else if (s.mappings.upperBound c.dest).any fun e => e.1 < add64 c.dest len then
    .error (.conflicts c.dest len)
  else if (s.mappings.floor c.dest).any fun e => c.dest < add64 e.1 e.2 then
    .error (.conflicts c.dest len)
  else if c.driver then
    .ok { s with
      mappings := s.mappings.insert c.dest len
      pages := s.pages ++ c.pages s.region
      accepted := s.accepted ++ [c] }
  else .error .mappingFailed

/-! ### Sequences of calls -/

/-- `exited` says that a call has ended the loader. -/
structure State where
  manager : Manager
  exited : Bool

def init (r : Region) : State := ⟨.new r, false⟩

def step (s : State) (c : Call) : Option State :=
  if s.exited then none
  else match s.manager.addPages c with
    | .ok m => some { s with manager := m }
    | .error _ => some { s with exited := true }

/-! ### What is expected, and when -/

/-- The range of a call, in exact arithmetic. -/
def Call.span (c : Call) : Span := ⟨c.dest, roundUp 4096 c.len⟩

def Inside (r : Region) (c : Call) : Prop :=
  r.base ≤ c.dest ∧ c.dest + roundUp 4096 c.len ≤ r.base + r.len

/-- The range has no address in common with a range that was accepted. -/
def Free (s : Manager) (c : Call) : Prop := ∀ b ∈ s.accepted, Disjoint c.span.bytes b.span.bytes

def Accepts (s : Manager) (c : Call) : Prop := ∃ m, s.addPages c = .ok m

/-- A call that is accepted is inside and free, and one with a length that is not zero is accepted if it
is inside and free. -/
structure Exact (s : State) (c : Call) : Prop where
  sound : Accepts s.manager c → Inside s.manager.region c ∧ Free s.manager c
  complete : 1 ≤ c.len → c.driver = true → Inside s.manager.region c → Free s.manager c →
    Accepts s.manager c

/-- The end of the range is a 64-bit number, and no empty range that was accepted is strictly inside. -/
structure Plain (s : State) (c : Call) : Prop where
  end_lt : c.dest + roundUp 4096 c.len < 2 ^ 64
  not_around : ∀ b ∈ s.manager.accepted, roundUp 4096 b.len = 0 →
    ¬ (c.dest < b.dest ∧ b.dest < c.dest + roundUp 4096 c.len)

/-! ### The tests -/

/-- The ranges in the map are inside the enclave, and each ends before the next begins. -/
structure Sound (s : Manager) : Prop where
  inside : ∀ e ∈ s.mappings.entries,
    s.region.base ≤ e.1 ∧ e.1 + e.2 ≤ s.region.base + s.region.len
  separated : ∀ e ∈ s.mappings.entries, ∀ f ∈ s.mappings.entries, e.1 < f.1 → e.1 + e.2 ≤ f.1

/-- There is room for `n` bytes from `a` on. -/
structure Room (s : Manager) (a n : ℕ) : Prop where
  base_le : s.region.base ≤ a
  le_end : a + n ≤ s.region.base + s.region.len
  le_next : ∀ e ∈ s.mappings.entries, a < e.1 → a + n ≤ e.1
  prev_le : ∀ e ∈ s.mappings.entries, e.1 ≤ a → e.1 + e.2 ≤ a

/-- The manager after a call that is accepted. -/
def Manager.accept (s : Manager) (c : Call) : Manager :=
  { s with
    mappings := s.mappings.insert c.dest (roundUp 4096 c.len)
    pages := s.pages ++ c.pages s.region
    accepted := s.accepted ++ [c] }

variable {s s' : Manager} {c : Call} {a n : ℕ}

theorem add64_of_lt {a b : ℕ} (h : a + b < 2 ^ 64) : add64 a b = a + b := Nat.mod_eq_of_lt h

theorem roundLen_eq {len : ℕ} (h : roundUp 4096 len < 2 ^ 64) : roundLen len = roundUp 4096 len := by
  have hle : len ≤ roundUp 4096 len := le_roundUp (by decide)
  obtain ⟨k, hk⟩ := dvd_roundUp 4096 len
  rw [roundLen, add64_of_lt (by omega), roundUp]

theorem not_any_upperBound_iff {m : ℕ} :
    ¬ (s.mappings.upperBound a).any (fun e => e.1 < m) = true ↔
      ∀ e ∈ s.mappings.entries, a < e.1 → m ≤ e.1 := by
  cases hu : s.mappings.upperBound a with
  | none =>
    refine ⟨fun _ e he hlt => absurd hlt ?_, fun _ => by simp⟩
    exact not_lt.2 (SortedMap.upperBound_eq_none hu he)
  | some e =>
    obtain ⟨he, hlt, hmin⟩ := SortedMap.upperBound_eq_some hu
    simp only [Option.any_some, decide_eq_true_eq, not_lt]
    refine ⟨fun hle f hf haf => ?_, fun hall => hall e he hlt⟩
    rcases hmin f hf haf with rfl | hef
    · exact hle
    · exact hle.trans hef.le

theorem not_any_floor_iff (h : Sound s) :
    ¬ (s.mappings.floor a).any (fun e => a < add64 e.1 e.2) = true ↔
      ∀ e ∈ s.mappings.entries, e.1 ≤ a → e.1 + e.2 ≤ a := by
  have hsum : ∀ e ∈ s.mappings.entries, add64 e.1 e.2 = e.1 + e.2 := fun e he =>
    add64_of_lt ((h.inside e he).2.trans_lt s.region.fits)
  cases hf : s.mappings.floor a with
  | none =>
    refine ⟨fun _ e he hle => absurd hle ?_, fun _ => by simp⟩
    exact not_le.2 (SortedMap.floor_eq_none hf he)
  | some e =>
    obtain ⟨he, hle, hmax⟩ := SortedMap.floor_eq_some hf
    simp only [Option.any_some, decide_eq_true_eq, not_lt, hsum e he]
    refine ⟨fun hend f hf hfa => ?_, fun hall => hall e he hle⟩
    rcases hmax f hf hfa with rfl | hfe
    · exact hend
    · exact (h.separated f hf e he hfe).trans hle

/-- The tests of `addPages`, as they are computed. -/
structure Passes (s : Manager) (c : Call) : Prop where
  range : ¬ (c.dest < s.region.base ∨
    add64 s.region.base s.region.len < add64 c.dest (roundLen c.len))
  next : ¬ (s.mappings.upperBound c.dest).any (fun e => e.1 < add64 c.dest (roundLen c.len)) = true
  prev : ¬ (s.mappings.floor c.dest).any (fun e => c.dest < add64 e.1 e.2) = true
  driver : c.driver = true

/-- What `addPages` does, in one line. -/
theorem addPages_eq_ok_iff :
    s.addPages c = .ok s' ↔
      Passes s c ∧ s' = { s with
        mappings := s.mappings.insert c.dest (roundLen c.len)
        pages := s.pages ++ c.pages s.region
        accepted := s.accepted ++ [c] } := by
  unfold Manager.addPages
  dsimp only
  constructor
  · intro hok
    split at hok
    · cases hok
    · next hrange =>
      split at hok
      · cases hok
      · next hnext =>
        split at hok
        · cases hok
        · next hprev =>
          split at hok
          · next hdriver =>
            exact ⟨⟨hrange, hnext, hprev, hdriver⟩, (Except.ok.inj hok).symm⟩
          · cases hok
  · rintro ⟨hpass, rfl⟩
    rw [if_neg hpass.range, if_neg hpass.next, if_neg hpass.prev, if_pos hpass.driver]

/-- **The tests of `addPages`**, when no sum wraps around. -/
theorem addPages_eq_ok (h : Sound s) (hlt : c.dest + roundUp 4096 c.len < 2 ^ 64) :
    s.addPages c = .ok s' ↔
      c.driver = true ∧ Room s c.dest (roundUp 4096 c.len) ∧ s' = s.accept c := by
  have hround : roundLen c.len = roundUp 4096 c.len := roundLen_eq (by omega)
  have hsum : add64 c.dest (roundLen c.len) = c.dest + roundUp 4096 c.len := by
    rw [hround, add64_of_lt hlt]
  have hend : add64 s.region.base s.region.len = s.region.base + s.region.len :=
    add64_of_lt s.region.fits
  have hpass : Passes s c ↔ c.driver = true ∧ Room s c.dest (roundUp 4096 c.len) := by
    constructor
    · rintro ⟨hrange, hnext, hprev, hdriver⟩
      rw [hsum, hend, not_or, not_lt, not_lt] at hrange
      rw [hsum] at hnext
      exact ⟨hdriver, hrange.1, hrange.2, not_any_upperBound_iff.1 hnext,
        (not_any_floor_iff h).1 hprev⟩
    · rintro ⟨hdriver, hroom⟩
      refine ⟨?_, ?_, (not_any_floor_iff h).2 hroom.prev_le, hdriver⟩
      · rw [hsum, hend, not_or, not_lt, not_lt]
        exact ⟨hroom.base_le, hroom.le_end⟩
      · rw [hsum]
        exact not_any_upperBound_iff.2 hroom.le_next
  rw [addPages_eq_ok_iff, hpass, and_assoc, hround]
  rfl

/-- A range for which there is room keeps the map in order. -/
theorem Sound.accept (h : Sound s) (hroom : Room s c.dest (roundUp 4096 c.len)) :
    Sound (s.accept c) := by
  refine ⟨fun e he => ?_, fun e he f hf hef => ?_⟩
  · rcases mem_insert.1 he with rfl | ⟨he, -⟩
    · exact ⟨hroom.base_le, hroom.le_end⟩
    · exact h.inside e he
  · rcases mem_insert.1 he with rfl | ⟨he, -⟩
    · rcases mem_insert.1 hf with rfl | ⟨hf, -⟩
      · exact absurd hef (lt_irrefl _)
      · exact hroom.le_next f hf hef
    · rcases mem_insert.1 hf with rfl | ⟨hf, -⟩
      · exact hroom.prev_le e he hef.le
      · exact h.separated e he f hf hef

theorem sound_new (r : Region) : Sound (.new r) := ⟨nofun, nofun⟩

/-! ### The ranges that were accepted -/

/-- The map has the ranges that were accepted, but for empty ones that were replaced. -/
structure Logged (s : Manager) : Prop where
  mem : ∀ b ∈ s.accepted, roundUp 4096 b.len = 0 ∨ (b.dest, roundUp 4096 b.len) ∈ s.mappings.entries
  of_mem : ∀ e ∈ s.mappings.entries, ∃ b ∈ s.accepted, e = (b.dest, roundUp 4096 b.len)

theorem logged_new (r : Region) : Logged (.new r) := ⟨nofun, nofun⟩

theorem Logged.accept (h : Logged s) (hroom : Room s c.dest (roundUp 4096 c.len)) :
    Logged (s.accept c) := by
  refine ⟨fun b hb => ?_, fun e he => ?_⟩
  · rcases mem_append.1 hb with hb | hb
    · rcases h.mem b hb with hzero | hmem
      · exact .inl hzero
      · rcases eq_or_ne b.dest c.dest with hkey | hkey
        · -- a range that is replaced is empty
          have hend : b.dest + roundUp 4096 b.len ≤ c.dest := hroom.prev_le _ hmem hkey.le
          exact .inl (by omega)
        · exact .inr (mem_insert.2 (.inr ⟨hmem, hkey⟩))
    · obtain rfl := mem_singleton.1 hb
      exact .inr (mem_insert.2 (.inl rfl))
  · rcases mem_insert.1 he with rfl | ⟨he, -⟩
    · exact ⟨c, mem_append_right _ (mem_singleton_self c), rfl⟩
    · obtain ⟨b, hb, heq⟩ := h.of_mem e he
      exact ⟨b, mem_append_left _ hb, heq⟩

theorem Room.free (hl : Logged s) (hroom : Room s c.dest (roundUp 4096 c.len)) : Free s c := by
  intro b hb
  rcases hl.mem b hb with hzero | hmem
  · rw [Set.disjoint_right]
    rintro x ⟨hx1, hx2⟩ -
    simp only [Call.span, hzero] at hx1 hx2
    omega
  · rcases Nat.lt_or_ge c.dest b.dest with hlt | hge
    · exact disjoint_bytes (hroom.le_next _ hmem hlt)
    · exact (disjoint_bytes (hroom.prev_le _ hmem hge)).symm

theorem room_of_free (hl : Logged s) (hpos : 1 ≤ c.len) (hin : Inside s.region c) (hfree : Free s c)
    (hempty : ∀ b ∈ s.accepted, roundUp 4096 b.len = 0 →
      ¬ (c.dest < b.dest ∧ b.dest < c.dest + roundUp 4096 c.len)) :
    Room s c.dest (roundUp 4096 c.len) := by
  have hlen : 0 < c.span.len := hpos.trans (le_roundUp (by decide))
  refine ⟨hin.1, hin.2, fun e he hlt => ?_, fun e he hle => ?_⟩
  · obtain ⟨b, hb, rfl⟩ := hl.of_mem e he
    rcases Nat.eq_zero_or_pos (roundUp 4096 b.len) with hzero | hbpos
    · exact not_lt.1 fun hin => hempty b hb hzero ⟨hlt, hin⟩
    · exact end_le_start (hfree b hb) hbpos hlt
  · obtain ⟨b, hb, rfl⟩ := hl.of_mem e he
    rcases hle.lt_or_eq with hlt | heq
    · exact end_le_start (hfree b hb).symm hlen hlt
    · -- two ranges that begin at the same address have it in common, unless one is empty
      rcases Nat.eq_zero_or_pos (roundUp 4096 b.len) with hzero | hbpos
      · simpa [hzero] using hle
      · exact absurd heq.symm (start_ne (hfree b hb) hlen hbpos)

/-! ### Every sequence of calls -/

theorem step_cases {t t' : State} (h : step t c = some t') :
    t.manager.addPages c = .ok t'.manager ∨ t'.manager = t.manager := by
  simp only [step] at h
  split at h
  · cases h
  · split at h
    · next m hadd =>
      obtain rfl := Option.some.inj h
      exact .inl hadd
    · obtain rfl := Option.some.inj h
      exact .inr rfl

theorem step_sound {t t' : State} (h : Sound t.manager ∧ Logged t.manager) (hs : step t c = some t')
    (hP : Plain t c) : Sound t'.manager ∧ Logged t'.manager := by
  rcases step_cases hs with hadd | hsame
  · obtain ⟨-, hroom, heq⟩ := (addPages_eq_ok h.1 hP.end_lt).1 hadd
    rw [heq]
    exact ⟨h.1.accept hroom, h.2.accept hroom⟩
  · rw [hsame]
    exact h

theorem exact_of_plain {t : State} (h : Sound t.manager ∧ Logged t.manager) (hP : Plain t c) :
    Exact t c := by
  refine ⟨fun hsome => ?_, fun hpos hdriver hin hfree => ?_⟩
  · obtain ⟨m, hm⟩ := hsome
    obtain ⟨-, hroom, -⟩ := (addPages_eq_ok h.1 hP.end_lt).1 hm
    exact ⟨⟨hroom.base_le, hroom.le_end⟩, hroom.free h.2⟩
  · have hroom := room_of_free h.2 hpos hin hfree hP.not_around
    exact ⟨_, (addPages_eq_ok h.1 hP.end_lt).2 ⟨hdriver, hroom, rfl⟩⟩

/-- **A range is accepted if and only if it is inside the enclave and free**, along every sequence of
calls in which no end of a range wraps around and no range is put around an empty one. -/
theorem allSteps_exact (r : Region) (calls : List Call)
    (h : Transition.AllSteps step Plain (init r) calls) :
    Transition.AllSteps step Exact (init r) calls := by
  have hinv := allStates_of_allSteps (J := fun _ => True) (P := Plain)
    (I := fun t : State => Sound t.manager ∧ Logged t.manager) (fun _ _ _ _ _ => trivial)
    (fun t c t' _ hI hs hP => step_sound hI hs hP) calls trivial ⟨sound_new r, logged_new r⟩ h
  exact hinv.allSteps h fun t c t' hI _ hP => exact_of_plain hI hP

/-- An enclave of sixteen pages. -/
def sixteenPages : Region := ⟨0x10000, 0x10000, by decide⟩

/-- A call with the default arguments, of bytes that are zero. -/
def zeroCall (dest len : ℕ) : Call := { dest := dest, src := fun _ => 0, len := len }

theorem allSteps_exact_twoRanges :
    Transition.AllSteps step Exact (init sixteenPages) [zeroCall 0x11000 4096, zeroCall 0x13000 5000] := by
  refine allSteps_exact sixteenPages _ ?_
  refine (allSteps_cons_iff rfl).2 ⟨⟨by decide, nofun⟩, ?_⟩
  refine (allSteps_cons_iff rfl).2 ⟨⟨by decide, ?_⟩, trivial⟩
  intro b hb hzero
  obtain rfl := mem_singleton.1 hb
  cases hzero

/-- A range whose end wraps around to zero is accepted, and a free range around an empty one is not. -/
theorem addPages_not_exact :
    ¬ Transition.AllSteps step Exact (init sixteenPages) [zeroCall 0x11000 (2 ^ 64 - 0x11000)] ∧
      ¬ Transition.AllSteps step Exact (init sixteenPages)
        [zeroCall 0x11000 0, zeroCall 0x10000 0x2000] := by
  constructor
  · intro hall
    obtain ⟨hexact, -⟩ := (allSteps_cons_iff rfl).1 hall
    have hle := (hexact.sound ⟨_, rfl⟩).1.2
    revert hle
    decide
  · intro hall
    obtain ⟨-, hall⟩ := (allSteps_cons_iff rfl).1 hall
    obtain ⟨hexact, -⟩ := (allSteps_cons_iff rfl).1 hall
    obtain ⟨m, hm⟩ := hexact.complete (by decide) rfl ⟨by decide, by decide⟩ fun b hb => by
      obtain rfl := mem_singleton.1 hb
      rw [Set.disjoint_right]
      rintro x ⟨hx₁, hx₂⟩ -
      exact absurd hx₂ (not_lt.2 hx₁)
    cases hm

end Enclave

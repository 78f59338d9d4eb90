/-
**When the heap is expanded.**

`malloc` expands the heap by twice the pages of the length asked for.  That is room for a header and for
the block, the new region is put in the list that is never skipped, and no older block is in the way:
the second try finds the new region.  The exception is `malloc(0)`.  The allocator returns null
for it, the expansion is by zero bytes, `libos_mmap` returns null for zero pages, and null is not -1: the
header of a block of nearly `2 ^ 64` bytes is stored at address zero, where nothing is mapped.

Main definitions: `Heap.Ok`, `Supplied`, `MallocMeets`.
Main results: `malloc_spec`, `malloc_meets_iff`, `ok_run`.
-/

import SgxElps.Alloc.Fit
import SgxElps.Malloc.Basic

namespace Malloc

open Alloc (maSize liveBlock mallocArgs)
open Except (map_eq_ok toOption_eq_some)
open List
open Transition

variable {image : Alloc.Allocator → Bytes.Mem} {h h' : Heap} {len p base : ℕ}

/-! ### The invariant -/

/-- The byte lies in a page that is in use. -/
def InUse (pm : Mmap.PageManager) (y : ℕ) : Prop :=
  ∃ i, pm.getBit i = true ∧ y ∈ (⟨pm.availableBase + 4096 * i, 4096⟩ : Span).bytes

/-- **The heap invariant.** -/
structure Heap.Ok (h : Heap) : Prop where
  sound : Alloc.Sound h.heap
  valid : Mmap.Valid h.pm
  mapped : ∀ r ∈ h.heap.regions, ∀ y ∈ r.bytes, InUse h.pm y

/-- **The bytes of the live blocks are what they were.** -/
def Kept (h h' : Heap) : Prop :=
  ∀ b ∈ h.heap.live, ∀ y ∈ (liveBlock b).bytes, h'.bytes y = h.bytes y

theorem Kept.trans {h'' : Heap} (h₁ : Kept h h') (h2 : Kept h' h'')
    (hlive : h.heap.live ⊆ h'.heap.live) : Kept h h'' :=
  fun b hb y hy => (h2 b (hlive hb) y hy).trans (h₁ b hb y hy)

/-- The buckets that the first try needs are defined. -/
def Defined (h : Heap) (len : ℕ) : Prop := ∀ l ∈ mallocArgs h.heap.start len, ¬ 2 ^ 32 ∣ l

theorem stored_eq {live : List (ℕ × ℕ)} {al : Alloc.Allocator} (hc : Alloc.Confined live al)
    {b : ℕ × ℕ} (hb : b ∈ live) {y : ℕ} (hy : y ∈ (liveBlock b).bytes) (m : Bytes.Mem) :
    stored image al m y = m y := by
  refine if_neg ?_
  rintro ⟨t, ht, hty⟩
  exact Set.disjoint_left.1 (hc.touched t ht b hb) hty hy

/-! ### One try -/

/-- What a try of the allocator leaves. -/
structure Attempted (h h' : Heap) (len p : ℕ) : Prop where
  sound : Alloc.Sound h'.heap
  pm : h'.pm = h.pm
  regions : h'.heap.regions = h.heap.regions
  live : h'.heap.live = if p = 0 then h.heap.live else (p - maSize, len) :: h.heap.live
  kept : Kept h h'

theorem attempt_spec (image : Alloc.Allocator → Bytes.Mem) (hs : Alloc.Sound h.heap)
    (hdef : Defined h len) :
    ∃ p h', attempt image h len = .ok (p, h') ∧ Attempted h h' len p := by
  obtain ⟨p, al, hal, -, hc⟩ := Alloc.malloc_ok hs.ok.start rfl hdef
  have hstep : Alloc.step h.heap (.malloc len) = some (h.heap.mallocDone len (.ok (p, al))) := by
    rw [Alloc.step, if_pos hs.noFault, hal]
  refine ⟨p, _, by rw [attempt, hal], ?_⟩
  exact
    { sound := Alloc.sound_step hs hstep hdef
      pm := rfl
      regions := rfl
      live := rfl
      kept := fun b hb y hy => stored_eq hc hb hy _ }

theorem attempt_error (hdef : ¬ Defined h len) :
    attempt image h len = .error (.undefined .undefinedClz) := by
  unfold Defined at hdef
  push Not at hdef
  rw [attempt, Alloc.malloc_error hdef]

theorem attempt_null (hlen : 0 < len) (ht : attempt image h len = .ok (0, h')) :
    h'.heap.alloc = h.heap.start ∧
      Alloc.findChunk h.heap.alloc.mem h.heap.alloc.chunkList len
        (range Alloc.chunkListSize) = none := by
  unfold attempt at ht
  cases hal : Alloc.malloc h.heap.start len with
  | error f =>
    rw [hal] at ht
    cases ht
  | ok r =>
    obtain ⟨p, al⟩ := r
    rw [hal] at ht
    obtain ⟨rfl, rfl⟩ := Prod.mk.inj (Except.ok.inj ht)
    rcases Alloc.malloc_cases hal with ⟨-, rfl, hno⟩ | ⟨a, -, -, hp, -⟩
    · exact ⟨rfl, hno.resolve_left hlen.ne'⟩
    · simp [maSize] at hp

/-! ### The expansion -/

theorem wrappedLen_of_lt (hlen : maSize < len) : wrappedLen len = len := if_neg hlen.not_gt

/-- The heap with a new region. -/
theorem expandHeap_spec (image : Alloc.Allocator → Bytes.Mem) (hs : Alloc.Sound h.heap)
    (hlen : maSize < len)
    (hnew : ∀ r ∈ h.heap.regions, Disjoint (⟨base, len⟩ : Span).bytes r.bytes) :
    Alloc.Sound (expandHeap image h base len).heap ∧ Kept h (expandHeap image h base len) := by
  obtain ⟨hok, hc⟩ := Alloc.expandHeap_ok hs.ok.start rfl hlen hnew
  rw [← wrappedLen_of_lt hlen] at hc
  refine ⟨?_, fun b hb y hy => stored_eq hc hb hy _⟩
  constructor
  case noFault => exact hs.noFault
  case ok =>
    simp only [expandHeap, wrappedLen_of_lt hlen]
    exact hok
  case long =>
    intro x hx
    simp only [expandHeap, wrappedLen_of_lt hlen] at hx
    rw [Alloc.freeBlocks_expandHeap hs.ok.start hlen hnew] at hx
    rcases hx with rfl | hx
    · exact hlen
    · exact hs.long x hx
  case live_pos => exact hs.live_pos

/-- **The second try finds the new region.** -/
theorem attempt_expandHeap (image : Alloc.Allocator → Bytes.Mem) (hs : Alloc.Sound h.heap) {L : ℕ}
    (hlen : 0 < len)
    (hnew : ∀ r ∈ h.heap.regions, Disjoint (⟨base, L⟩ : Span).bytes r.bytes)
    (hfit : len + maSize ≤ L) (hL : L < 2 ^ 32)
    (hnone : Alloc.findChunk h.heap.alloc.mem h.heap.alloc.chunkList len
      (range Alloc.chunkListSize) = none) :
    ∃ h', attempt image (expandHeap image h base L) len = .ok (base + maSize, h') ∧
      Attempted (expandHeap image h base L) h' len (base + maSize) := by
  have hlong : maSize < L := by omega
  obtain ⟨hsound, -⟩ := expandHeap_spec image hs hlong hnew
  have hbase : ∀ i, base ∉ h.heap.start.chunkList i := by
    intro i hi
    obtain ⟨r, hr, hxr⟩ := hs.ok.inside _ (Alloc.Heap.mem_blocks_of_root (hs.ok.chunk_mem hi).1)
      (show base ∈ (Alloc.blockAt h.heap.alloc.mem base).bytes from
        ⟨le_refl _, by simp only [Alloc.blockAt, maSize]; omega⟩)
    exact Set.disjoint_left.1 (hnew r hr) ⟨le_refl _, by simp only; omega⟩ hxr
  have hfind := Alloc.findChunk_expandHeap (s := h.heap.start) (L := L) hbase (by omega) (by omega)
    hnone
  have hfind' : Alloc.findChunk (expandHeap image h base L).heap.start.mem
      (expandHeap image h base L).heap.start.chunkList len (range Alloc.chunkListSize) =
        some base := by
    simp only [expandHeap, Alloc.State.start, wrappedLen_of_lt hlong]
    exact hfind
  have hmem : ((expandHeap image h base L).heap.start.mem base).len = L - maSize := by
    simp [expandHeap, wrappedLen_of_lt hlong, Alloc.State.start, Alloc.expandHeap,
      Alloc.Allocator.insertRoot, Alloc.Allocator.pushBack, Alloc.Allocator.setHeader,
      Alloc.MemoryArea.new]
  -- the rest of the region is shorter than `2 ^ 32`, and longer than a header if it is cut off
  have hdef : Defined (expandHeap image h base L) len := by
    intro l hl hdvd
    unfold mallocArgs at hl
    rw [hfind'] at hl
    simp only [hmem] at hl
    split at hl
    · next hcut =>
      rw [mem_singleton.1 hl] at hdvd
      have hmin := hcut.2
      simp only [Alloc.minPreserveSize, maSize] at hmin hdvd
      have := Nat.le_of_dvd (by omega) hdvd
      omega
    · exact not_mem_nil hl
  obtain ⟨p, h', ht, hspec⟩ := attempt_spec image hsound hdef
  obtain rfl : p = base + maSize := by
    unfold attempt at ht
    cases hal : Alloc.malloc (expandHeap image h base L).heap.start len with
    | error f =>
      rw [hal] at ht
      cases ht
    | ok r =>
      rw [hal] at ht
      obtain ⟨rfl, -⟩ := Prod.mk.inj (Except.ok.inj ht)
      have hal' : Alloc.malloc (expandHeap image h base L).heap.start len = .ok (r.1, r.2) := hal
      rcases Alloc.malloc_cases hal' with ⟨-, -, hno⟩ | ⟨a, -, hf, hp, -⟩
      · rcases hno with h0 | hno
        · omega
        · rw [hfind'] at hno
          cases hno
      · rw [hfind'] at hf
        rw [hp, Option.some_inj.1 hf]
  exact ⟨h', ht, hspec⟩

/-! ### The pages -/

/-- **Pages that `libos_mmap` has reserved**, with room for more than a header. -/
structure Supplied (pm pm' : Mmap.PageManager) (r : Span) : Prop where
  long : maSize < r.len
  reserved : Mmap.Covers pm pm' r.start r.len
  inside : pm.availableBase ≤ r.start ∧ r.start + r.len ≤ pm.availableBase + pm.availableLength

theorem expandBy_bounds (hlen : 0 < len) (hmax : len ≤ maxLen) :
    len + maSize ≤ expandBy len ∧ expandBy len ≤ 2 ^ 29 := by
  simp only [expandBy, Mmap.pageFloor, maxLen, maSize] at *
  rw [Nat.mod_eq_of_lt (by omega : len + 4095 < 2 ^ 64), Nat.mod_eq_of_lt (by omega)]
  omega

theorem InUse.mono {pm pm' : Mmap.PageManager} (hbase : pm'.availableBase = pm.availableBase)
    (hbits : ∀ i, pm.getBit i = true → pm'.getBit i = true) {y : ℕ} (hy : InUse pm y) : InUse pm' y := by
  obtain ⟨i, hi, hyi⟩ := hy
  refine ⟨i, hbits i hi, ?_⟩
  rw [hbase]
  exact hyi

theorem Supplied.disjoint {pm pm' : Mmap.PageManager} {r x : Span} (hr : Supplied pm pm' r)
    (hx : ∀ y ∈ x.bytes, InUse pm y) : Disjoint r.bytes x.bytes := by
  refine Set.disjoint_left.2 fun y hyr hyx => ?_
  obtain ⟨i, ⟨hfree, -⟩, hyi⟩ := hr.reserved y hyr
  obtain ⟨j, hused, hyj⟩ := hx y hyx
  obtain rfl : i = j := by
    simp only [Span.mem_bytes] at hyi hyj
    omega
  rw [hfree] at hused
  cases hused

theorem Supplied.inUse {pm pm' : Mmap.PageManager} {r : Span} (hr : Supplied pm pm' r)
    (hbase : pm'.availableBase = pm.availableBase) {y : ℕ} (hy : y ∈ r.bytes) : InUse pm' y := by
  obtain ⟨i, ⟨-, hused⟩, hyi⟩ := hr.reserved y hy
  refine ⟨i, hused, ?_⟩
  rw [hbase]
  exact hyi

/-- **What `libos_mmap` returns** for lengths that an `int` has room for. -/
theorem libosMmap_supplied {pm : Mmap.PageManager} (hv : Mmap.Valid pm) (hlong : maSize < len)
    (hlen : len ≤ 2 ^ 30) :
    ∃ pm' q, Mmap.libosMmap pm 0 len = some (pm', q) ∧ Mmap.Kept pm pm' ∧
      (∀ i, pm.getBit i = true → pm'.getBit i = true) ∧
      (q = Mmap.mapFailed ∨ q ≠ Mmap.mapFailed ∧ Supplied pm pm' ⟨q, len⟩) := by
  obtain ⟨n, hn⟩ : ∃ n, n = Mmap.pageCount len := ⟨_, rfl⟩
  have hcount : len ≤ 4096 * n ∧ 4096 * n < len + 4096 := by
    rw [hn, Mmap.pageCount]
    omega
  obtain ⟨pm', q, halloc⟩ := Mmap.allocPages_isSome hv n
  have hmmap : Mmap.libosMmap pm 0 len = some (pm', q) := by
    rw [Mmap.libosMmap_null, Mmap.pageArg_eq (by omega), ← hn]
    exact halloc
  refine ⟨pm', q, hmmap, Mmap.kept_libosMmap hv.toSized hv.clock_le hmmap, ?_⟩
  rcases Mmap.allocPages_reserved hv halloc with ⟨hle, -⟩ | ⟨hq, hbits, -⟩ | ⟨first, rfl, hat, hres⟩
  · omega
  · refine ⟨fun i hi => ?_, Or.inl hq⟩
    unfold Mmap.PageManager.getBit at hi ⊢
    rw [hbits]
    exact hi
  · have hend := ((Mmap.reachesAt_iff hv.toSized hv.clock_le (by omega) (.inl (by omega))).1 hat).2
    rw [Int.toNat_natCast] at hres
    have hlength := hv.length_eq
    have hfits := hv.fits
    have hcovers : Mmap.Covers pm pm' (pm.availableBase + 4096 * first) len :=
      hres.covers_iff.2 hcount.1
    refine ⟨fun i hi => ?_, Or.inr ⟨?_, hlong, hcovers, ?_, ?_⟩⟩
    · rw [hres.bits]
      split
      · rfl
      · exact hi
    · simp only [Mmap.mapFailed]
      omega
    · exact Nat.le_add_right _ _
    · simp only
      omega

/-! ### `malloc` -/

/-- What `malloc` has done to get a block of `len` bytes. -/
inductive Outcome (h h' : Heap) (len p : ℕ) : Prop
  /-- The allocator had a block. -/
  | found (hp : p ≠ 0) (hpm : h'.pm = h.pm) (hregions : h'.heap.regions = h.heap.regions)
  /-- `libos_mmap` had no pages. -/
  | refused (hp : p = 0) (hfail : Mmap.libosMmap h.pm 0 (expandBy len) = some (h'.pm, Mmap.mapFailed))
      (hregions : h'.heap.regions = h.heap.regions)
  /-- The heap has a new region, and the block lies in it. -/
  | expanded (r : Span) (hp : p ≠ 0) (hr : Supplied h.pm h'.pm r)
      (hregions : h'.heap.regions = r :: h.heap.regions)

/-- The heap after `malloc`. -/
structure Allocated (h h' : Heap) (len p : ℕ) : Prop where
  ok : h'.Ok
  live : h'.heap.live = if p = 0 then h.heap.live else (p - maSize, len) :: h.heap.live
  kept : Kept h h'

section Stages

variable {h₁ : Heap} {pm' : Mmap.PageManager} {q : ℕ}

theorem malloc_found (hmax : len ≤ maxLen) (ht : attempt image h len = .ok (p, h₁)) (hp : p ≠ 0) :
    malloc image h len = .ok (p, h₁) := by
  rw [malloc, if_neg hmax.not_gt, ht, Except.bind, if_pos hp]

theorem malloc_null (hmax : len ≤ maxLen) (ht : attempt image h len = .ok (0, h₁)) :
    malloc image h len = expandAndRetry image h₁ len := by
  rw [malloc, if_neg hmax.not_gt, ht, Except.bind, if_neg (not_not.2 rfl)]

theorem expandAndRetry_refused
    (hmmap : Mmap.libosMmap h₁.pm 0 (expandBy len) = some (pm', Mmap.mapFailed)) :
    expandAndRetry image h₁ len = .ok (0, { h₁ with pm := pm' }) := by
  rw [expandAndRetry, hmmap, Option.elim_some, if_pos rfl]

theorem expandAndRetry_supplied
    (hmmap : Mmap.libosMmap h₁.pm 0 (expandBy len) = some (pm', q)) (hq : q ≠ Mmap.mapFailed)
    (hnull : q ≠ 0) : expandAndRetry image h₁ len =
      attempt image (expandHeap image { h₁ with pm := pm' } q (expandBy len)) len := by
  rw [expandAndRetry, hmmap, Option.elim_some, if_neg hq, if_neg hnull]

end Stages

/-- **What `malloc` does** for every length but zero. -/
theorem malloc_spec (image : Alloc.Allocator → Bytes.Mem) (hok : h.Ok) (hlen : 0 < len)
    (hmax : len ≤ maxLen) (hdef : Defined h len) :
    ∃ p h', malloc image h len = .ok (p, h') ∧ Allocated h h' len p ∧ Outcome h h' len p := by
  obtain ⟨p, h₁, ht, hspec⟩ := attempt_spec image hok.sound hdef
  have hmapped1 : ∀ r ∈ h₁.heap.regions, ∀ y ∈ r.bytes, InUse h.pm y := by
    rw [hspec.regions]
    exact hok.mapped
  by_cases hp : p ≠ 0
  · refine ⟨p, h₁, malloc_found hmax ht hp, ⟨⟨hspec.sound, ?_, ?_⟩, hspec.live, hspec.kept⟩,
      .found hp hspec.pm hspec.regions⟩
    · rw [hspec.pm]
      exact hok.valid
    · rw [hspec.pm]
      exact hmapped1
  · obtain rfl : p = 0 := not_not.1 hp
    have hlive1 : h₁.heap.live = h.heap.live := hspec.live.trans (if_pos rfl)
    obtain ⟨hfit, hbound⟩ := expandBy_bounds hlen hmax
    have hlong : maSize < expandBy len := by omega
    obtain ⟨pm', q, hmmap, hkept, hbits, hq⟩ := libosMmap_supplied hok.valid hlong (by omega)
    have hvalid' := hok.valid.kept hkept
    have hold : ∀ r ∈ h₁.heap.regions, ∀ y ∈ r.bytes, InUse pm' y := fun r hr y hy =>
      (hmapped1 r hr y hy).mono hkept.base_eq hbits
    have hmmap1 : Mmap.libosMmap h₁.pm 0 (expandBy len) = some (pm', q) := by
      rw [hspec.pm]
      exact hmmap
    rcases hq with rfl | ⟨hne, hr⟩
    · exact ⟨0, _, (malloc_null hmax ht).trans (expandAndRetry_refused hmmap1),
        ⟨⟨hspec.sound, hvalid', hold⟩, hlive1.trans (if_pos rfl).symm, hspec.kept⟩,
        .refused rfl hmmap hspec.regions⟩
    · obtain ⟨halloc, hnone⟩ := attempt_null hlen ht
      have hnew : ∀ r ∈ h₁.heap.regions, Disjoint (⟨q, expandBy len⟩ : Span).bytes r.bytes :=
        fun r hr' => hr.disjoint (hmapped1 r hr')
      let h2 : Heap := { h₁ with pm := pm' }
      have hnone2 : Alloc.findChunk h2.heap.alloc.mem h2.heap.alloc.chunkList len
          (range Alloc.chunkListSize) = none := by
        change Alloc.findChunk h₁.heap.alloc.mem h₁.heap.alloc.chunkList len _ = none
        rw [halloc]
        exact hnone
      obtain ⟨h', ht', hspec'⟩ := attempt_expandHeap image (h := h2) hspec.sound hlen hnew
        hfit (by omega) hnone2
      obtain ⟨-, hkept2⟩ := expandHeap_spec image (h := h2) hspec.sound hr.long hnew
      have hp' : q + maSize ≠ 0 := by simp [maSize]
      have hq0 : q ≠ 0 := (hok.valid.base_pos.trans_le hr.inside.1).ne'
      have hregions' : h'.heap.regions = ⟨q, expandBy len⟩ :: h.heap.regions := by
        rw [hspec'.regions, ← hspec.regions]
        rfl
      have hpm' : h'.pm = pm' := hspec'.pm
      have hresult : malloc image h len = .ok (q + maSize, h') :=
        (malloc_null hmax ht).trans ((expandAndRetry_supplied hmmap1 hne hq0).trans ht')
      refine ⟨_, h', hresult, ⟨⟨hspec'.sound, ?_, ?_⟩, ?_, ?_⟩,
        .expanded _ hp' (hpm' ▸ hr) hregions'⟩
      · rw [hpm']
        exact hvalid'
      · rw [hpm', hregions']
        intro r hr' y hy
        rcases mem_cons.1 hr' with rfl | hr'
        · exact hr.inUse hkept.base_eq hy
        · exact hold r (hspec.regions ▸ hr') y hy
      · rw [hspec'.live, ← hlive1]
        rfl
      · have hkept1 : Kept h h2 := hspec.kept
        have hlive2 : h.heap.live ⊆ h2.heap.live := by
          change h.heap.live ⊆ h₁.heap.live
          rw [hlive1]
          exact List.Subset.refl _
        exact (hkept1.trans hkept2 hlive2).trans hspec'.kept hlive2

/-- **`malloc(0)` stores to address zero.** -/
theorem malloc_zero (image : Alloc.Allocator → Bytes.Mem) (h : Heap) :
    malloc image h 0 = .error .nullStore := by
  obtain ⟨h₁, ht⟩ : ∃ h₁, attempt image h 0 = .ok (0, h₁) := ⟨_, rfl⟩
  have hmmap : Mmap.libosMmap h₁.pm 0 (expandBy 0) = some (h₁.pm, 0) := rfl
  rw [malloc_null (Nat.zero_le _) ht, expandAndRetry, hmmap, Option.elim_some,
    if_neg (show (0 : ℕ) ≠ Mmap.mapFailed by decide), if_pos rfl]

/-- A call of `malloc` that returns. -/
theorem malloc_defined (hm : malloc image h len = .ok (p, h')) :
    0 < len ∧ len ≤ maxLen ∧ Defined h len := by
  refine ⟨Nat.pos_of_ne_zero fun h0 => ?_, not_lt.1 fun hmax => ?_, by_contra fun hdef => ?_⟩
  · rw [h0, malloc_zero] at hm
    cases hm
  · rw [malloc, if_pos hmax] at hm
    cases hm
  · rw [malloc, attempt_error hdef] at hm
    split at hm <;> cases hm

theorem malloc_allocated (hok : h.Ok) (hm : malloc image h len = .ok (p, h')) :
    Allocated h h' len p ∧ Outcome h h' len p := by
  obtain ⟨hlen, hmax, hdef⟩ := malloc_defined hm
  obtain ⟨p₁, h₁, hm1, hspec⟩ := malloc_spec image hok hlen hmax hdef
  obtain ⟨rfl, rfl⟩ := Prod.mk.inj (Except.ok.inj (hm.symm.trans hm1))
  exact hspec

/-! ### Whole histories -/

theorem ok_initSafeMalloc {pm pm' : Mmap.PageManager} (hv : Mmap.Valid pm) {size q : ℕ}
    (hsize : size + maSize < len) (hlen : len ≤ 2 ^ 30) {bytes : Bytes.Mem}
    (hmmap : Mmap.libosMmap pm 0 len = some (pm', q)) (hq : q ≠ Mmap.mapFailed)
    (hinit : initSafeMalloc image size pm bytes len = some h) : h.Ok := by
  obtain ⟨pm₁, q₁, hmmap1, hkept, -, hcases⟩ := libosMmap_supplied hv (by omega : maSize < len) hlen
  obtain ⟨rfl, rfl⟩ := Prod.mk.inj (Option.some_inj.1 (hmmap1.symm.trans hmmap))
  have hr := (hcases.resolve_left hq).2
  have hfits := hv.fits
  have hinside := hr.inside.2
  simp only at hinside
  rw [initSafeMalloc, hmmap, Option.map_some, Option.some_inj, Alloc.subSize_of_le (by omega) (by omega),
    Nat.mod_eq_of_lt (by simp only; omega)] at hinit
  subst hinit
  have hnew : ∀ r ∈ (⟨Alloc.init, pm₁, bytes⟩ : Heap).heap.regions,
      Disjoint (⟨q₁ + size, len - size⟩ : Span).bytes r.bytes := nofun
  refine ⟨(expandHeap_spec image Alloc.sound_init (by omega) hnew).1, hv.kept hkept, ?_⟩
  intro r hmem y hy
  obtain rfl := mem_singleton.1 hmem
  exact hr.inUse hkept.base_eq (Span.mem_bytes_of_le hy (by omega) (by omega))

theorem ok_free (hok : h.Ok) {ptr : ℕ}
    (hptr : ptr = 0 ∨ ptr ∈ h.heap.live.map fun b => b.1 + maSize)
    (hf : free image h ptr = .ok h') : h'.Ok := by
  unfold free at hf
  cases hal : Alloc.free h.heap.start ptr with
  | error f =>
    rw [hal] at hf
    cases hf
  | ok al =>
    rw [hal] at hf
    obtain rfl := Except.ok.inj hf
    have hstep : Alloc.step h.heap (.free ptr) = some (h.heap.freeDone ptr (.ok al)) := by
      rw [Alloc.step, if_pos ⟨hok.sound.noFault, hptr⟩, hal]
    have hdef : Alloc.BucketsDefined h.heap (.free ptr) := by
      by_contra hbad
      have hfault := Alloc.fault_step hok.sound.ok hstep hbad
      simp only [Alloc.State.freeDone] at hfault
      rw [hok.sound.noFault] at hfault
      cases hfault
    exact ⟨Alloc.sound_step hok.sound hstep hdef, hok.valid, hok.mapped⟩

/-- **Every call that returns keeps the invariant.** -/
theorem ok_call {c : Call} (hok : h.Ok) (hs : step image h c = some h') : h'.Ok := by
  cases c with
  | malloc len =>
    obtain ⟨⟨p, h₁⟩, hm, rfl⟩ := Option.map_eq_some_iff.1 hs
    exact (malloc_allocated hok (toOption_eq_some.1 hm)).1.ok
  | calloc m n =>
    obtain ⟨r, hr, rfl⟩ := Option.map_eq_some_iff.1 hs
    obtain ⟨⟨p, h₁⟩, hm, rfl⟩ := map_eq_ok.1 (toOption_eq_some.1 hr)
    have hok1 := (malloc_allocated hok hm).1.ok
    dsimp only
    split
    · exact hok1
    · exact ⟨hok1.sound, hok1.valid, hok1.mapped⟩
  | free ptr =>
    rw [step, Option.ite_none_right_eq_some] at hs
    exact ok_free hok hs.1 (toOption_eq_some.1 hs.2)

/-! ### What the caller relies on -/

/-- **What `malloc` has to do with a heap that may be too small.** -/
structure MallocMeets (image : Alloc.Allocator → Bytes.Mem) (h : Heap) (len : ℕ) : Prop where
  /-- `malloc` returns if its first try does with null … -/
  returns : ∀ h₁, attempt image h len = .ok (0, h₁) → ∃ p h', malloc image h len = .ok (p, h')
  /-- … it calls `expandHeap` with pages that were reserved and have room for more than a header … -/
  expands : ∀ p h', malloc image h len = .ok (p, h') → h'.heap.regions = h.heap.regions ∨
    ∃ r, Supplied h.pm h'.pm r ∧ h'.heap.regions = r :: h.heap.regions
  /-- … and it returns null only if `libos_mmap` has reported a failure. -/
  null_only : 0 < len → ∀ h', malloc image h len = .ok (0, h') →
    Mmap.libosMmap h.pm 0 (expandBy len) = some (h'.pm, Mmap.mapFailed)

theorem malloc_meets (hok : h.Ok) (hlen : 0 < len) (hmax : len ≤ maxLen) : MallocMeets image h len where
  returns h₁ ht := by
    have hdef : Defined h len := by
      by_contra hdef
      rw [attempt_error hdef] at ht
      cases ht
    obtain ⟨p, h', hm, -⟩ := malloc_spec image hok hlen hmax hdef
    exact ⟨p, h', hm⟩
  expands p h' hm := by
    cases (malloc_allocated hok hm).2 with
    | found _ _ hregions => exact Or.inl hregions
    | refused _ _ hregions => exact Or.inl hregions
    | expanded r _ hr hregions => exact Or.inr ⟨r, hr, hregions⟩
  null_only _ h' hm := by
    cases (malloc_allocated hok hm).2 with
    | found hp => exact absurd rfl hp
    | refused _ hfail => exact hfail
    | expanded r hp => exact absurd rfl hp

theorem not_mallocMeets_zero (image : Alloc.Allocator → Bytes.Mem) (h : Heap) :
    ¬ MallocMeets image h 0 := by
  intro hmeets
  obtain ⟨p, h', hm⟩ := hmeets.returns _ rfl
  rw [malloc_zero] at hm
  cases hm

/-- **`malloc` expands the heap as it should if and only if it is not asked for zero bytes.** -/
theorem malloc_meets_iff (image : Alloc.Allocator → Bytes.Mem) (h : Heap) (hok : h.Ok) (len : ℕ)
    (hmax : len ≤ maxLen) : MallocMeets image h len ↔ 0 < len := by
  refine ⟨fun hmeets => ?_, fun hlen => malloc_meets hok hlen hmax⟩
  by_contra hlen
  obtain rfl : len = 0 := Nat.eq_zero_of_not_pos hlen
  exact not_mallocMeets_zero image h hmeets

/-- A heap of a few pages, before the allocator was given any of them. -/
def emptyHeap : Heap where
  heap := Alloc.init
  pm := .new Mmap.smallHeap.base Mmap.smallHeap.length Mmap.smallHeap.memory
  bytes := fun _ => 0

theorem ok_emptyHeap : emptyHeap.Ok := by
  have hrun : run (Mmap.callStep Mmap.smallHeap)
      (.new Mmap.smallHeap.base Mmap.smallHeap.length Mmap.smallHeap.memory) [] =
        some emptyHeap.pm := rfl
  exact ⟨Alloc.sound_init, Mmap.valid_run Mmap.roomy_smallHeap ⟨0x100000, rfl⟩ hrun, nofun⟩

/-- The first block of a heap. -/
theorem malloc_meets_iff_emptyHeap :
    emptyHeap.Ok ∧ MallocMeets (fun _ _ => 0) emptyHeap 100 := by
  have hiff := malloc_meets_iff (fun _ _ => 0) emptyHeap ok_emptyHeap 100 (by decide)
  exact ⟨ok_emptyHeap, hiff.2 (by decide)⟩

/-- **`malloc(0)` expands the heap at address zero**: the header that it stores there is that of a block of
nearly `2 ^ 64` bytes, and the store faults. -/
theorem malloc_zero_expands_at_null :
    ∃ h₁, attempt (fun _ _ => 0) emptyHeap 0 = .ok (0, h₁) ∧
      Mmap.libosMmap h₁.pm 0 (expandBy 0) = some (h₁.pm, 0) ∧
      (expandHeap (fun _ _ => 0) h₁ 0 (expandBy 0)).heap.regions = [⟨0, 0⟩] ∧
      (expandHeap (fun _ _ => 0) h₁ 0 (expandBy 0)).heap.alloc.root = [0] ∧
      ((expandHeap (fun _ _ => 0) h₁ 0 (expandBy 0)).heap.alloc.mem 0).len = 2 ^ 64 - maSize ∧
      malloc (fun _ _ => 0) emptyHeap 0 = .error .nullStore ∧ ¬ MallocMeets (fun _ _ => 0) emptyHeap 0 :=
  ⟨_, rfl, rfl, rfl, rfl, rfl, malloc_zero _ _, not_mallocMeets_zero _ _⟩

/-- **The heap invariant holds in every state** that is reached from `initSafeMalloc` by calls that return. -/
theorem ok_run {image : Alloc.Allocator → Bytes.Mem} {h h' : Heap} {pm pm' : Mmap.PageManager}
    (hv : Mmap.Valid pm) {size q len : ℕ} (hsize : size + maSize < len) (hlen : len ≤ 2 ^ 30)
    {bytes : Bytes.Mem} (hmmap : Mmap.libosMmap pm 0 len = some (pm', q)) (hq : q ≠ Mmap.mapFailed)
    (hinit : initSafeMalloc image size pm bytes len = some h) {calls : List Call}
    (hrun : run (step image) h calls = some h') : h'.Ok :=
  run_induction (I := Heap.Ok) (fun _ _ _ h hs => ok_call h hs) calls
    (ok_initSafeMalloc hv hsize hlen hmmap hq hinit) hrun

/-- A heap of two pages, and a block in it. -/
theorem ok_run_firstBlock :
    ∃ h h', initSafeMalloc (fun _ _ => 0) 4096 emptyHeap.pm (fun _ => 0) 8192 = some h ∧
      run (step fun _ _ => 0) h [.malloc 100] = some h' ∧ h'.Ok := by
  have hsome : ((initSafeMalloc (fun _ _ => 0) 4096 emptyHeap.pm (fun _ => 0) 8192).bind fun h =>
      run (step fun _ _ => 0) h [.malloc 100]).isSome := by decide +kernel
  obtain ⟨h', hbind⟩ := Option.isSome_iff_exists.1 hsome
  obtain ⟨h, hinit, hrun⟩ := Option.bind_eq_some_iff.1 hbind
  have hmap : (Mmap.libosMmap emptyHeap.pm 0 8192).map Prod.snd = some 0x100001000 := by
    decide +kernel
  obtain ⟨⟨pm', q⟩, hmmap, rfl⟩ := Option.map_eq_some_iff.1 hmap
  exact ⟨h, h', hinit, hrun, ok_run ok_emptyHeap.valid (by decide) (by decide) hmmap (by decide) hinit
    hrun⟩

end Malloc

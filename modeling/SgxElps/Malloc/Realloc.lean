/-
**`realloc` never frees, and `calloc` multiplies in 64 bits.**

`realloc` takes a new block, copies as many bytes into it as the old block has, and returns.  The old
block stays in the hands of nobody, the copy overruns the new block if that is the shorter one, and if
there is no new block the copy goes to address zero.  What the caller relies on is left only if
there is no old block at all.

`calloc` asks for the product modulo `2 ^ 64`.  The block is cleared and has the length asked for; but
if the product wraps, that is not the length the caller relies on, and if it is zero, `malloc` faults.

Main definitions: `ReallocMeets`, `CallocMeets`.  Main results: `realloc_meets_iff`, `calloc_meets_iff`.
-/

import SgxElps.Malloc.Expand

namespace Malloc

open Alloc (maSize liveBlock)
open Except (map_eq_ok toOption_eq_some)
open List

variable {image : Alloc.Allocator → Bytes.Mem} {h h' : Heap} {len p ptr newSize : ℕ}

/-! ### Results of `malloc` -/

theorem Allocated.live_subset (ha : Allocated h h' len p) : h.heap.live ⊆ h'.heap.live := by
  rw [ha.live]
  split
  · exact List.Subset.refl _
  · exact subset_cons_self _ _

theorem Allocated.mem_live (ha : Allocated h h' len p) (hp : p ≠ 0) :
    (p - maSize, len) ∈ h'.heap.live := by
  rw [ha.live, if_neg hp]
  exact mem_cons_self

theorem Heap.Ok.getLen_eq (hok : h.Ok) {b : ℕ × ℕ} (hb : b ∈ h.heap.live) :
    Alloc.getLen h.heap.alloc (b.1 + maSize) = b.2 := by
  have hne : b.1 + maSize ≠ 0 := by simp [maSize]
  rw [Alloc.getLen, if_neg hne, Nat.add_sub_cancel, hok.sound.ok.liveHeader b hb]

/-! ### `realloc` -/

/-- **What the caller of `realloc` relies on** if a block was returned: it is long enough, has the old
contents, nothing was written outside of it, and the old block is no longer live. -/
structure Moved (h h' : Heap) (ptr newSize p : ℕ) (written : Span) : Prop where
  block : ∃ len, newSize ≤ len ∧ (p - maSize, len) ∈ h'.heap.live ∧
    written.bytes ⊆ (⟨p, len⟩ : Span).bytes
  contents : ∀ i < min (Alloc.getLen h.heap.alloc ptr) newSize, h'.bytes (p + i) = h.bytes (ptr + i)
  freed : ptr ∉ h'.heap.live.map fun b => b.1 + maSize

/-- **What the caller of `realloc` relies on** if null was returned: no block has changed hands, and
nothing was written. -/
structure Unmoved (h h' : Heap) (written : Span) : Prop where
  live : h'.heap.live = h.heap.live
  kept : Kept h h'
  nothing : written.bytes = ∅

def ReallocMeets (image : Alloc.Allocator → Bytes.Mem) (h : Heap) (ptr newSize : ℕ) : Prop :=
  ∃ p written h', realloc image h ptr newSize = .ok (p, written, h') ∧
    if p = 0 then Unmoved h h' written else Moved h h' ptr newSize p written

/-- **What `realloc` does with a live block**, of which `old` bytes are in use: all of them are copied,
whether the new block has room for them or not, and the block stays live. -/
theorem realloc_copied (hok : h.Ok) {b : ℕ × ℕ} (hb : b ∈ h.heap.live) {written : Span}
    (hr : realloc image h (b.1 + maSize) newSize = .ok (p, written, h')) :
    written = ⟨p, b.2⟩ ∧ b ∈ h'.heap.live ∧
      ∀ i < b.2, h'.bytes (p + i) = h.bytes (b.1 + maSize + i) := by
  obtain ⟨⟨p₁, h1⟩, hm, hresult⟩ := map_eq_ok.1 hr
  obtain ⟨ha, -⟩ := malloc_allocated hok hm
  have hlen : Alloc.getLen h1.heap.alloc (b.1 + maSize) = b.2 :=
    ha.ok.getLen_eq (ha.live_subset hb)
  simp only [hlen, Prod.mk.injEq] at hresult
  obtain ⟨rfl, rfl, rfl⟩ := hresult
  refine ⟨rfl, ha.live_subset hb, fun i hi => ?_⟩
  -- the bytes that are copied have survived `malloc`
  have hy : b.1 + maSize + i ∈ (liveBlock b).bytes := Span.mem_bytes.2 (by omega)
  exact (Bytes.copy_add hi).trans (ha.kept b hb _ hy)

/-- The copy stays in the new block if and only if that is not shorter than the old one. -/
theorem realloc_inside_iff (hok : h.Ok) {b : ℕ × ℕ} (hb : b ∈ h.heap.live) {written : Span}
    (hr : realloc image h (b.1 + maSize) newSize = .ok (p, written, h')) :
    written.bytes ⊆ (⟨p, newSize⟩ : Span).bytes ↔ b.2 ≤ newSize := by
  obtain ⟨rfl, -⟩ := realloc_copied hok hb hr
  have hpos := hok.sound.live_pos b hb
  constructor
  · intro hsub
    have hlast := (hsub (Span.mem_bytes.2 (by omega : p ≤ p + b.2 - 1 ∧ p + b.2 - 1 < p + b.2))).2
    simp only at hlast
    omega
  · exact fun hle => Span.bytes_subset (le_refl _) (by simp only; omega)

/-- A live block is never freed, and it is copied to address zero if there is no new block. -/
theorem not_reallocMeets (hok : h.Ok) {b : ℕ × ℕ} (hb : b ∈ h.heap.live) :
    ¬ ReallocMeets image h (b.1 + maSize) newSize := by
  rintro ⟨p, written, h', hr, hmeets⟩
  obtain ⟨rfl, hlive, -⟩ := realloc_copied hok hb hr
  split at hmeets
  · have hfirst : p ∈ (⟨p, b.2⟩ : Span).bytes :=
      Span.mem_bytes.2 ⟨le_refl _, Nat.lt_add_of_pos_right (hok.sound.live_pos b hb)⟩
    rw [hmeets.nothing] at hfirst
    exact hfirst
  · exact hmeets.freed (mem_map_of_mem hlive)

theorem realloc_null (hm : malloc image h newSize = .ok (p, h')) :
    realloc image h 0 newSize = .ok (p, ⟨p, 0⟩, h') := by
  rw [realloc, hm]
  simp only [Except.map, Alloc.getLen, if_true, Bytes.copy_zero]

theorem reallocMeets_null (hok : h.Ok) (hsize : 0 < newSize) (hmax : newSize ≤ maxLen)
    (hdef : Defined h newSize) : ReallocMeets image h 0 newSize := by
  obtain ⟨p, h', hm, ha, -⟩ := malloc_spec image hok hsize hmax hdef
  refine ⟨p, ⟨p, 0⟩, h', realloc_null hm, ?_⟩
  have hempty : (⟨p, 0⟩ : Span).bytes = ∅ := Set.Ico_self _
  split
  · next hp => exact ⟨ha.live.trans (if_pos hp), ha.kept, hempty⟩
  · next hp =>
    refine ⟨⟨newSize, le_refl _, ha.mem_live hp, ?_⟩, ?_, ?_⟩
    · rw [hempty]
      exact Set.empty_subset _
    · intro i hi
      simp [Alloc.getLen] at hi
    · intro hmem
      obtain ⟨b, -, hb⟩ := mem_map.1 hmem
      simp [maSize] at hb

/-- **When `realloc` does what its caller relies on**: there is no old block, and `malloc` returns. -/
theorem realloc_meets_iff (image : Alloc.Allocator → Bytes.Mem) (h : Heap) (hok : h.Ok) (ptr : ℕ)
    (hptr : ptr = 0 ∨ ptr ∈ h.heap.live.map fun b => b.1 + maSize) (newSize : ℕ)
    (hsize : 0 < newSize) :
    ReallocMeets image h ptr newSize ↔ ptr = 0 ∧ newSize ≤ maxLen ∧ Defined h newSize := by
  constructor
  · intro hmeets
    refine ⟨?_, ?_⟩
    · refine hptr.resolve_right fun hmem => ?_
      obtain ⟨b, hb, rfl⟩ := mem_map.1 hmem
      exact not_reallocMeets hok hb hmeets
    · obtain ⟨p, written, h', hr, -⟩ := hmeets
      obtain ⟨⟨p₁, h₁⟩, hm, -⟩ := map_eq_ok.1 hr
      exact (malloc_defined hm).2
  · rintro ⟨rfl, hmax, hdef⟩
    exact reallocMeets_null hok hsize hmax hdef

theorem realloc_meets_iff_emptyHeap :
    emptyHeap.Ok ∧ ReallocMeets (fun _ _ => 0) emptyHeap 0 100 := by
  have hiff := realloc_meets_iff (fun _ _ => 0) emptyHeap ok_emptyHeap 0 (Or.inl rfl) 100 (by decide)
  exact ⟨ok_emptyHeap, hiff.2 ⟨rfl, by decide, nofun⟩⟩

/-- **A block of 100 bytes is made shorter.**  The new block has 8 bytes, 100 bytes are written to it,
and the old block stays live. -/
theorem realloc_overruns :
    ∃ h written h', malloc (fun _ _ => 0) emptyHeap 100 = .ok (0x100001060, h) ∧ h.Ok ∧
      realloc (fun _ _ => 0) h 0x100001060 8 = .ok (0x100001124, written, h') ∧
      written = ⟨0x100001124, 100⟩ ∧ h'.heap.live = [(0x1000010c4, 8), (0x100001000, 100)] ∧
      ¬ ReallocMeets (fun _ _ => 0) h 0x100001060 8 := by
  have hrun : ((malloc (fun _ _ => 0) emptyHeap 100).toOption.bind fun r =>
      (realloc (fun _ _ => 0) r.2 r.1 8).toOption.map fun x =>
        (r.1, r.2.heap.live, x.1, x.2.1, x.2.2.heap.live)) =
      some (0x100001060, [(0x100001000, 100)], 0x100001124, ⟨0x100001124, 100⟩,
        [(0x1000010c4, 8), (0x100001000, 100)]) := by
    decide +kernel
  obtain ⟨⟨p, h⟩, hm, hrun⟩ := Option.bind_eq_some_iff.1 hrun
  obtain ⟨⟨q, written, h'⟩, hr, hvals⟩ := Option.map_eq_some_iff.1 hrun
  simp only [Prod.mk.injEq] at hvals hr
  obtain ⟨rfl, hlive, rfl, hwritten, hlive'⟩ := hvals
  have hm' := toOption_eq_some.1 hm
  have hok : h.Ok := (malloc_allocated ok_emptyHeap hm').1.ok
  have hb : (0x100001000, 100) ∈ h.heap.live := by
    rw [hlive]
    exact mem_cons_self
  exact ⟨h, written, h', hm', hok, toOption_eq_some.1 hr, hwritten, hlive',
    not_reallocMeets hok hb⟩

/-! ### `calloc` -/

/-- **What the caller of `calloc` relies on**: null, or a block with room for `m * n` bytes, all zero. -/
def CallocMeets (image : Alloc.Allocator → Bytes.Mem) (h : Heap) (m n : ℕ) : Prop :=
  ∃ p h', calloc image h m n = .ok (p, h') ∧
    (p = 0 ∨ ∃ len, m * n ≤ len ∧ (p - maSize, len) ∈ h'.heap.live ∧
      ∀ i < m * n, h'.bytes (p + i) = 0)

/-- **`malloc(len)` returns null**: the allocator finds no block and `libos_mmap` no pages. -/
def NoRoom (h : Heap) (len : ℕ) : Prop :=
  Alloc.findChunk h.heap.alloc.mem h.heap.alloc.chunkList len (range Alloc.chunkListSize) = none ∧
    ∃ pm', Mmap.libosMmap h.pm 0 (expandBy len) = some (pm', Mmap.mapFailed)

theorem attempt_eq_null (image : Alloc.Allocator → Bytes.Mem)
    (hnone : Alloc.findChunk h.heap.alloc.mem h.heap.alloc.chunkList len
      (range Alloc.chunkListSize) = none) :
    ∃ h1, attempt image h len = .ok (0, h1) ∧ h1.pm = h.pm := by
  have hal : Alloc.malloc h.heap.start len = .ok (0, h.heap.start) := by
    have hnone' : Alloc.findChunk h.heap.start.mem h.heap.start.chunkList len
        (range Alloc.chunkListSize) = none := hnone
    rw [Alloc.malloc, hnone']
    exact ite_self _
  rw [attempt, hal]
  exact ⟨_, rfl, rfl⟩

theorem malloc_eq_null_iff (hok : h.Ok) (hm : malloc image h len = .ok (p, h')) :
    p = 0 ↔ NoRoom h len := by
  obtain ⟨hlen, hmax, hdef⟩ := malloc_defined hm
  constructor
  · rintro rfl
    obtain ⟨q, h1, ht, -⟩ := attempt_spec image hok.sound hdef
    -- the first try has returned null as well
    obtain rfl : q = 0 := by
      by_contra hq
      have hfound := hm.symm.trans (malloc_found hmax ht hq)
      exact hq (Prod.mk.inj (Except.ok.inj hfound)).1.symm
    refine ⟨(attempt_null hlen ht).2, ?_⟩
    cases (malloc_allocated hok hm).2 with
    | found hp => exact absurd rfl hp
    | refused _ hfail => exact ⟨_, hfail⟩
    | expanded r hp => exact absurd rfl hp
  · rintro ⟨hnone, pm', hfail⟩
    obtain ⟨h1, ht, hpm⟩ := attempt_eq_null image hnone
    rw [← hpm] at hfail
    have hnull := (malloc_null hmax ht).trans (expandAndRetry_refused hfail)
    exact (Prod.mk.inj (Except.ok.inj (hm.symm.trans hnull))).1

/-- **What `calloc` does** if `malloc` returns a block: the block has `total m n` bytes, all zero. -/
theorem calloc_cleared (hok : h.Ok) {m n : ℕ} (hm : malloc image h (total m n) = .ok (p, h'))
    (hp : p ≠ 0) :
    ∃ h1, calloc image h m n = .ok (p, h1) ∧ h1.Ok ∧ (p - maSize, total m n) ∈ h1.heap.live ∧
      ∀ i < total m n, h1.bytes (p + i) = 0 := by
  have ha := (malloc_allocated hok hm).1
  refine ⟨{ h' with bytes := Bytes.fill h'.bytes p 0 (total m n) }, ?_,
    ⟨ha.ok.sound, ha.ok.valid, ha.ok.mapped⟩, ha.mem_live hp, fun i hi => Bytes.fill_add hi⟩
  rw [calloc, hm]
  exact congrArg Except.ok (if_neg hp)

theorem noRoom_of_wraps (hok : h.Ok) {m n : ℕ} (hwraps : 2 ^ 64 ≤ m * n)
    (hmeets : CallocMeets image h m n) : NoRoom h (total m n) := by
  obtain ⟨p, h1, hc, hblock⟩ := hmeets
  obtain ⟨⟨q, h'⟩, hm, hresult⟩ := map_eq_ok.1 hc
  rw [← malloc_eq_null_iff hok hm]
  by_contra hq
  obtain ⟨h2, hc2, hok2, hlive, -⟩ := calloc_cleared hok hm hq
  obtain ⟨rfl, rfl⟩ := Prod.mk.inj (Except.ok.inj (hc.symm.trans hc2))
  obtain ⟨len, hlen, hmem, -⟩ := hblock.resolve_left hq
  have heq : len = total m n :=
    congrArg Prod.snd (Alloc.live_eq_of_fst_eq hok2.sound.ok hmem hlive rfl)
  have hlt : total m n < 2 ^ 64 := Nat.mod_lt _ (by decide)
  omega

theorem callocMeets_of_fits (hok : h.Ok) {m n : ℕ} (hlen : 0 < total m n) (hmax : total m n ≤ maxLen)
    (hdef : Defined h (total m n)) (hroom : m * n < 2 ^ 64 ∨ NoRoom h (total m n)) :
    CallocMeets image h m n := by
  obtain ⟨p, h', hm, -⟩ := malloc_spec image hok hlen hmax hdef
  by_cases hp : p = 0
  · refine ⟨p, h', ?_, Or.inl hp⟩
    rw [calloc, hm]
    exact congrArg Except.ok (if_pos hp)
  · have hfits := hroom.resolve_right ((malloc_eq_null_iff hok hm).not.1 hp)
    obtain ⟨h1, hc, -, hlive, hzero⟩ := calloc_cleared hok hm hp
    have htotal : total m n = m * n := Nat.mod_eq_of_lt hfits
    rw [htotal] at hlive hzero
    exact ⟨p, h1, hc, Or.inr ⟨_, le_refl _, hlive, hzero⟩⟩

/-- **When `calloc` does what its caller relies on**: `malloc` returns for the product modulo `2 ^ 64`, which
is not zero, and the product does not wrap or `malloc` returns null. -/
theorem calloc_meets_iff (image : Alloc.Allocator → Bytes.Mem) (h : Heap) (hok : h.Ok) (m n : ℕ) :
    CallocMeets image h m n ↔
      (0 < total m n ∧ total m n ≤ maxLen ∧ Defined h (total m n)) ∧
        (m * n < 2 ^ 64 ∨ NoRoom h (total m n)) := by
  constructor
  · intro hmeets
    refine ⟨?_, ?_⟩
    · obtain ⟨p, h₁, hc, -⟩ := hmeets
      obtain ⟨⟨q, h'⟩, hm, -⟩ := map_eq_ok.1 hc
      exact malloc_defined hm
    · rcases Nat.lt_or_ge (m * n) (2 ^ 64) with hlt | hge
      · exact Or.inl hlt
      · exact Or.inr (noRoom_of_wraps hok hge hmeets)
  · rintro ⟨⟨hlen, hmax, hdef⟩, hroom⟩
    exact callocMeets_of_fits hok hlen hmax hdef hroom

theorem calloc_meets_iff_emptyHeap :
    emptyHeap.Ok ∧ CallocMeets (fun _ _ => 0) emptyHeap 10 10 := by
  have hiff := calloc_meets_iff (fun _ _ => 0) emptyHeap ok_emptyHeap 10 10
  exact ⟨ok_emptyHeap, hiff.2 ⟨⟨by decide, by decide, nofun⟩, Or.inl (by decide)⟩⟩

/-- **Eight objects of `2 ^ 61 + 1` bytes get a block of eight bytes**, and for no object the call faults. -/
theorem calloc_wraps :
    (∃ h', calloc (fun _ _ => 0) emptyHeap (2 ^ 61 + 1) 8 = .ok (0x100001060, h') ∧
      h'.heap.live = [(0x100001000, 8)] ∧ ¬ CallocMeets (fun _ _ => 0) emptyHeap (2 ^ 61 + 1) 8) ∧
    calloc (fun _ _ => 0) emptyHeap 0 8 = .error .nullStore := by
  have hrun : ((calloc (fun _ _ => 0) emptyHeap (2 ^ 61 + 1) 8).toOption.map fun r =>
      (r.1, r.2.heap.live)) = some (0x100001060, [(0x100001000, 8)]) := by
    decide +kernel
  obtain ⟨⟨p, h'⟩, hc, hvals⟩ := Option.map_eq_some_iff.1 hrun
  obtain ⟨rfl, hlive⟩ := Prod.mk.inj hvals
  have hc' := toOption_eq_some.1 hc
  have hzero : calloc (fun _ _ => 0) emptyHeap 0 8 = .error .nullStore := by
    rw [calloc, show total 0 8 = 0 from rfl, malloc_zero]
    rfl
  refine ⟨⟨h', hc', hlive, ?_⟩, hzero⟩
  rintro ⟨q, h₁, hc₁, hblock⟩
  obtain ⟨rfl, rfl⟩ := Prod.mk.inj (Except.ok.inj (hc'.symm.trans hc₁))
  obtain ⟨len, hlen, hmem, -⟩ := hblock.resolve_left (by decide)
  have hmem' : (_, len) ∈ [(0x100001000, 8)] := hlive ▸ hmem
  have heq : len = 8 := congrArg Prod.snd (mem_singleton.1 hmem')
  omega

end Malloc

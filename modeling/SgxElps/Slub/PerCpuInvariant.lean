/-
**The lists, the counters and the bitmaps of a cache stay in step.**

Every slab is in exactly one of the three lists, and its count of free slots says in which; the lists
are well-formed doubly linked lists in memory; the count is the number of clear bits, and the set bits
are the slots of the objects in use.  This holds in every history in which the headers of the objects
lie in the memory that `mapper` has returned for their slab.

They need not: `new_slab` asks for 64 slots, rounded up to whole pages, but puts the slab's own
structure in front of them.  If 64 slots are whole pages, as for an object size of 56, the headers of
the last slots lie behind the memory, where `mapper` may have put the next slab.  For the object sizes
that `init_unsafe_slub_buckets` asks for all headers are inside.

Main definitions: `Inv`, `Well`.  Main results: `Inv.free`, `allStates_well`.
-/

import SgxElps.Slub.PerCpuMemory
import SgxElps.Slub.Invariant

namespace Slub.PerCpu

open Function (update update_of_ne update_self)
open Option (map_some some_inj)
open BitWord (firstClear ones ones_clear ones_zero)
open List
open Transition

open Bytes

variable {cfg : Config} {m m' : Mem} {slabs live : List ℕ} {b c k o : ℕ}

/-! ### Layout -/

/-- The address of the header in slot `k` of the slab at `b`. -/
def headerAt (cfg : Config) (b k : ℕ) : ℕ := slabMem b cfg.size + k * (cfg.size + headerSize)

/-- The address of the object in slot `k` of the slab at `b`. -/
def objectAt (cfg : Config) (b k : ℕ) : ℕ := headerAt cfg b k + headerSize

/-- The header in slot `k` lies in the memory of the slab at `b`. -/
def Inside (cfg : Config) (b k : ℕ) : Prop := objectAt cfg b k ≤ b + allocSize cfg.size

/-- Sizes fit in an `int32_t`, and addresses in 64 bits. -/
structure Config.Valid (cfg : Config) : Prop where
  size_lt : cfg.size < 2 ^ 31
  self_lt : cfg.self < 2 ^ 64

/-- The memory of the slabs. -/
structure Mapped (cfg : Config) (slabs : List ℕ) : Prop where
  ne_zero : ∀ b ∈ slabs, b ≠ 0
  lt : ∀ b ∈ slabs, b + allocSize cfg.size < 2 ^ 64
  apart : ∀ b ∈ slabs, ∀ c ∈ slabs, b ≠ c →
    b + allocSize cfg.size ≤ c ∨ c + allocSize cfg.size ≤ b

theorem le_allocSize (size : ℕ) : 64 * (size + 8) ≤ allocSize size ∧ 4096 ≤ allocSize size := by
  rw [allocSize, objectsPerSlab, headerSize]
  omega

theorem slabMem_lt (b size : ℕ) : slabMem b size < b + allocSize size := by
  have heq := slabMem_eq b size
  have hle := le_allocSize size
  rw [headerSize] at heq
  omega

theorem le_headerAt (cfg : Config) (b k : ℕ) : b + slabSize ≤ headerAt cfg b k :=
  (le_slabMem b cfg.size).trans (Nat.le_add_right ..)

namespace Mapped

theorem separated (h : Mapped cfg slabs) : Separated slabs where
  apart b hb c hc hne := by
    have := h.apart b hb c hc hne
    have := (le_allocSize cfg.size).2
    rw [slabSize]
    omega
  ne_zero := h.ne_zero
  lt b hb := by
    have := h.lt b hb
    have := (le_allocSize cfg.size).2
    rw [slabSize]
    omega

/-- A header inside its slab is in no structure. -/
theorem header_out (h : Mapped cfg slabs) (hb : b ∈ slabs) (hk : Inside cfg b k) (hc : c ∈ slabs) :
    headerAt cfg b k + 8 ≤ c ∨ c + slabSize ≤ headerAt cfg b k := by
  have hle := le_headerAt cfg b k
  unfold Inside objectAt at hk
  by_cases hbc : b = c
  · exact Or.inr (hbc ▸ hle)
  · have := h.apart b hb c hc hbc
    have := (le_allocSize cfg.size).2
    rw [headerSize] at hk
    rw [slabSize] at *
    omega

/-- Different headers do not overlap. -/
theorem header_disjoint (h : Mapped cfg slabs) (hb : b ∈ slabs) (hk : Inside cfg b k) {c j : ℕ}
    (hc : c ∈ slabs) (hj : Inside cfg c j) (hne : (b, k) ≠ (c, j)) :
    headerAt cfg b k + 8 ≤ headerAt cfg c j ∨ headerAt cfg c j + 8 ≤ headerAt cfg b k := by
  have hb1 := le_headerAt cfg b k
  have hc1 := le_headerAt cfg c j
  unfold Inside objectAt at hk hj
  by_cases hbc : b = c
  · subst hbc
    have hkj : k ≠ j := fun heq => hne (by rw [heq])
    unfold headerAt
    rcases Nat.lt_or_gt_of_ne hkj with hlt | hlt
    · have hmul : (k + 1) * (cfg.size + headerSize) ≤ j * (cfg.size + headerSize) :=
        Nat.mul_le_mul_right _ hlt
      rw [Nat.add_mul, headerSize] at hmul
      rw [headerSize]
      omega
    · have hmul : (j + 1) * (cfg.size + headerSize) ≤ k * (cfg.size + headerSize) :=
        Nat.mul_le_mul_right _ hlt
      rw [Nat.add_mul, headerSize] at hmul
      rw [headerSize]
      omega
  · have := h.apart b hb c hc hbc
    rw [headerSize] at hk hj
    omega

theorem objectAt_ne (h : Mapped cfg slabs) (hb : b ∈ slabs) (hk : Inside cfg b k) {c j : ℕ}
    (hc : c ∈ slabs) (hj : Inside cfg c j) (hne : (b, k) ≠ (c, j)) :
    objectAt cfg b k ≠ objectAt cfg c j := by
  have := h.header_disjoint hb hk hc hj hne
  unfold objectAt
  omega

theorem cons (h : Mapped cfg slabs) (hf : Fresh cfg slabs b) : Mapped cfg (b :: slabs) where
  ne_zero := forall_mem_cons.2 ⟨hf.1, h.ne_zero⟩
  lt := forall_mem_cons.2 ⟨hf.2.1, h.lt⟩
  apart := by
    intro x hx y hy hne
    rcases mem_cons.1 hx with rfl | hxs
    · rcases mem_cons.1 hy with rfl | hys
      · exact absurd rfl hne
      · exact hf.2.2 y hys
    · rcases mem_cons.1 hy with rfl | hys
      · exact (hf.2.2 x hxs).symm
      · exact h.apart x hxs y hys hne

end Mapped

/-! ### A new slab -/

theorem Fresh.notMem (hf : Fresh cfg slabs b) : b ∉ slabs := by
  intro hb
  have := hf.2.2 b hb
  have := (le_allocSize cfg.size).2
  omega

theorem mapSlab_agree (hf : Fresh cfg slabs b) (hc : c ∈ slabs) {x : ℕ} (h1 : c ≤ x) (h2 : x < c + 72) :
    mapSlab cfg m b x = m x := by
  obtain ⟨-, -, -, hagree⟩ := mapSlab_spec cfg m b
  refine hagree x ?_
  rintro ⟨h3, h4⟩
  have := hf.2.2 c hc
  have := (le_allocSize cfg.size).2
  rw [slabSize] at h4
  simp only at h3 h4
  omega

theorem body_mapSlab (hf : Fresh cfg slabs b) (hc : c ∈ slabs) : body (mapSlab cfg m b) c = body m c :=
  body_eq fun _ h1 h2 => mapSlab_agree hf hc (by omega) h2

/-! ### The invariant without the lists -/

/-- The fields of a slab that are not links. -/
structure BodyOk (cfg : Config) (b : ℕ) (sl : Body) : Prop where
  slots : sl.slots = slabMem b cfg.size
  sizeEach : sl.sizeEach = cfg.size
  slubCache : sl.slubCache = cfg.self
  count : sl.freeNr + (BitWord.ones sl.bitmap).card = objectsPerSlab

/-- **The invariant without the lists.** -/
structure Core (cfg : Config) (m : Mem) (slabs live : List ℕ) : Prop where
  mapped : Mapped cfg slabs
  slab : ∀ b ∈ slabs, BodyOk cfg b (body m b)
  mem_live : ∀ o, o ∈ live ↔ ∃ b ∈ slabs, ∃ k ∈ BitWord.ones (bitmap m b), o = objectAt cfg b k
  nodup : live.Nodup
  parent : ∀ b ∈ slabs, ∀ k ∈ BitWord.ones (bitmap m b), read m (headerAt cfg b k) 8 = b
  inside : ∀ b ∈ slabs, ∀ k ∈ BitWord.ones (bitmap m b), Inside cfg b k

namespace Core

/-- The same slots are in use. -/
theorem of_used {slabs' : List ℕ} (h : Core cfg m slabs live) (hmapped : Mapped cfg slabs')
    (hslab : ∀ b ∈ slabs', BodyOk cfg b (body m' b))
    (hused : ∀ b k, b ∈ slabs' ∧ k ∈ ones (bitmap m' b) ↔ b ∈ slabs ∧ k ∈ ones (bitmap m b))
    (hread : ∀ b ∈ slabs, ∀ k ∈ ones (bitmap m b),
      read m' (headerAt cfg b k) 8 = read m (headerAt cfg b k) 8) : Core cfg m' slabs' live where
  mapped := hmapped
  slab := hslab
  mem_live o := by
    rw [h.mem_live o]
    constructor
    · rintro ⟨b, hb, k, hk, ho⟩
      obtain ⟨hb, hk⟩ := (hused b k).2 ⟨hb, hk⟩
      exact ⟨b, hb, k, hk, ho⟩
    · rintro ⟨b, hb, k, hk, ho⟩
      obtain ⟨hb, hk⟩ := (hused b k).1 ⟨hb, hk⟩
      exact ⟨b, hb, k, hk, ho⟩
  nodup := h.nodup
  parent b hb k hk := by
    obtain ⟨hb, hk⟩ := (hused b k).1 ⟨hb, hk⟩
    exact (hread b hb k hk).trans (h.parent b hb k hk)
  inside b hb k hk := by
    obtain ⟨hb, hk⟩ := (hused b k).1 ⟨hb, hk⟩
    exact h.inside b hb k hk

/-- Links are changed. -/
theorem links (h : Core cfg m slabs live) (hm : AgreeOff (links slabs) m m') :
    Core cfg m' slabs live := by
  have hbody : ∀ b ∈ slabs, body m' b = body m b := fun b hb =>
    body_of_links h.mapped.separated hm hb
  refine h.of_used h.mapped (fun b hb => ?_) (fun b k => and_congr_right fun hb => ?_)
    fun b hb k hk => ?_
  · rw [hbody b hb]
    exact h.slab b hb
  · rw [bitmap_congr (hbody b hb)]
  · exact read_of_links hm fun c hc => h.mapped.header_out hb (h.inside b hb k hk) hc

/-- A slot is taken. -/
theorem take (h : Core cfg m slabs live) (hb : b ∈ slabs) (hk : k < objectsPerSlab)
    (hclear : k ∉ ones (bitmap m b)) (hin : Inside cfg b k)
    (hbody : body m' b = { body m b with
      freeNr := freeNr m b - 1, bitmap := bitmap m b ||| BitVec.twoPow 64 k })
    (hother : ∀ c ∈ slabs, c ≠ b → body m' c = body m c)
    (hread : read m' (headerAt cfg b k) 8 = b)
    (hkeep : ∀ c ∈ slabs, ∀ j ∈ ones (bitmap m c),
      read m' (headerAt cfg c j) 8 = read m (headerAt cfg c j) 8) :
    Core cfg m' slabs (objectAt cfg b k :: live) := by
  have hset : ones (bitmap m b ||| BitVec.twoPow 64 k) = insert k (ones (bitmap m b)) :=
    BitWord.ones_set hk
  have hbits : ∀ c ∈ slabs, ∀ j, j ∈ ones (bitmap m' c) ↔
      j ∈ ones (bitmap m c) ∨ (c = b ∧ j = k) := by
    intro c hc j
    by_cases hcb : c = b
    · rw [hcb, bitmap_of_body hbody, hset, Finset.mem_insert]
      simp [or_comm]
    · have hsame : bitmap m' c = bitmap m c := bitmap_congr (hother c hc hcb)
      rw [hsame]
      simp [hcb]
  constructor
  case mapped => exact h.mapped
  case slab =>
    intro c hc
    by_cases hcb : c = b
    · have hok := h.slab b hb
      rw [hcb, hbody]
      refine ⟨hok.slots, hok.sizeEach, hok.slubCache, ?_⟩
      have hcount := hok.count
      have hcard := Finset.card_insert_of_notMem hclear
      have hle : (insert k (ones (bitmap m b))).card ≤ objectsPerSlab := by
        rw [← hset]
        exact (Finset.card_le_card (BitWord.ones_subset_range _)).trans_eq (Finset.card_range _)
      change freeNr m b - 1 + (ones (bitmap m b ||| BitVec.twoPow 64 k)).card = _
      rw [hset, hcard]
      change freeNr m b + (ones (bitmap m b)).card = _ at hcount
      omega
    · rw [hother c hc hcb]
      exact h.slab c hc
  case mem_live =>
    intro o
    rw [mem_cons, h.mem_live o]
    constructor
    · rintro (rfl | ⟨c, hc, j, hj, rfl⟩)
      · exact ⟨b, hb, k, (hbits b hb k).2 (Or.inr ⟨rfl, rfl⟩), rfl⟩
      · exact ⟨c, hc, j, (hbits c hc j).2 (Or.inl hj), rfl⟩
    · rintro ⟨c, hc, j, hj, rfl⟩
      rcases (hbits c hc j).1 hj with hj | ⟨rfl, rfl⟩
      · exact Or.inr ⟨c, hc, j, hj, rfl⟩
      · exact Or.inl rfl
  case nodup =>
    refine nodup_cons.2 ⟨fun hmem => ?_, h.nodup⟩
    obtain ⟨c, hc, j, hj, heq⟩ := (h.mem_live _).1 hmem
    refine h.mapped.objectAt_ne hb hin hc (h.inside c hc j hj) (fun heq => ?_) heq
    obtain ⟨rfl, rfl⟩ := Prod.mk.inj heq
    exact hclear hj
  case parent =>
    intro c hc j hj
    rcases (hbits c hc j).1 hj with hj | ⟨rfl, rfl⟩
    · rw [hkeep c hc j hj]
      exact h.parent c hc j hj
    · exact hread
  case inside =>
    intro c hc j hj
    rcases (hbits c hc j).1 hj with hj | ⟨rfl, rfl⟩
    · exact h.inside c hc j hj
    · exact hin

/-- A slot is given back. -/
theorem give (h : Core cfg m slabs live) (hb : b ∈ slabs) (hk : k ∈ ones (bitmap m b))
    (hbody : body m' b = { body m b with
      freeNr := freeNr m b + 1, bitmap := bitmap m b &&& ~~~BitVec.twoPow 64 k })
    (hother : ∀ c ∈ slabs, c ≠ b → body m' c = body m c)
    (hkeep : ∀ c ∈ slabs, ∀ j ∈ ones (bitmap m c),
      read m' (headerAt cfg c j) 8 = read m (headerAt cfg c j) 8) :
    Core cfg m' slabs (live.erase (objectAt cfg b k)) := by
  have hbits : ∀ c ∈ slabs, ∀ j, j ∈ ones (bitmap m' c) ↔
      j ∈ ones (bitmap m c) ∧ ¬ (c = b ∧ j = k) := by
    intro c hc j
    by_cases hcb : c = b
    · rw [hcb, bitmap_of_body hbody, ones_clear, Finset.mem_erase]
      simp [and_comm]
    · have hsame : bitmap m' c = bitmap m c := bitmap_congr (hother c hc hcb)
      rw [hsame]
      simp [hcb]
  constructor
  case mapped => exact h.mapped
  case slab =>
    intro c hc
    by_cases hcb : c = b
    · have hok := h.slab b hb
      rw [hcb, hbody]
      refine ⟨hok.slots, hok.sizeEach, hok.slubCache, ?_⟩
      have hcount := hok.count
      have hcard := Finset.card_erase_of_mem hk
      have hpos := Finset.card_pos.2 ⟨k, hk⟩
      change freeNr m b + 1 + (ones (bitmap m b &&& ~~~BitVec.twoPow 64 k)).card = _
      rw [ones_clear, hcard]
      change freeNr m b + (ones (bitmap m b)).card = _ at hcount
      omega
    · rw [hother c hc hcb]
      exact h.slab c hc
  case mem_live =>
    intro o
    rw [h.nodup.mem_erase_iff, h.mem_live o]
    constructor
    · rintro ⟨hne, c, hc, j, hj, rfl⟩
      refine ⟨c, hc, j, (hbits c hc j).2 ⟨hj, ?_⟩, rfl⟩
      rintro ⟨rfl, rfl⟩
      exact hne rfl
    · rintro ⟨c, hc, j, hj, rfl⟩
      obtain ⟨hj, hno⟩ := (hbits c hc j).1 hj
      refine ⟨h.mapped.objectAt_ne hc (h.inside c hc j hj) hb (h.inside b hb k hk) ?_,
        c, hc, j, hj, rfl⟩
      exact fun heq => hno (Prod.mk.inj heq)
  case nodup => exact h.nodup.erase _
  case parent =>
    intro c hc j hj
    have hj := ((hbits c hc j).1 hj).1
    rw [hkeep c hc j hj]
    exact h.parent c hc j hj
  case inside => exact fun c hc j hj => h.inside c hc j ((hbits c hc j).1 hj).1

/-- A new slab. -/
theorem map (h : Core cfg m slabs live) (hcfg : cfg.Valid) (hf : Fresh cfg slabs b) :
    Core cfg (mapSlab cfg m b) (b :: slabs) live := by
  obtain ⟨hbody, -, -, hagree⟩ := mapSlab_spec cfg m b
  have hmapped := h.mapped.cons hf
  have hbody' : body (mapSlab cfg m b) b =
      ⟨slabMem b cfg.size, objectsPerSlab, cfg.size, cfg.self, 0⟩ := by
    have h1 := slabMem_lt b cfg.size
    have h2 := hf.2.1
    have h3 := hcfg.size_lt
    rw [hbody, Nat.mod_eq_of_lt (h1.trans h2), Nat.mod_eq_of_lt (by omega),
      Nat.mod_eq_of_lt hcfg.self_lt]
  have hnone : ∀ j, j ∉ ones (bitmap (mapSlab cfg m b) b) := by
    intro j hj
    rw [bitmap_of_body hbody'] at hj
    change j ∈ ones (0#64) at hj
    rw [ones_zero] at hj
    exact absurd hj (Finset.notMem_empty j)
  refine h.of_used hmapped (fun c hc => ?_) (fun c j => ?_) fun c hc j hj => ?_
  · rcases mem_cons.1 hc with rfl | hc
    · rw [hbody']
      refine ⟨rfl, rfl, rfl, ?_⟩
      rw [show (0 : BitVec 64) = 0#64 from rfl, ones_zero]
      rfl
    · rw [body_mapSlab hf hc]
      exact h.slab c hc
  · by_cases hc : c ∈ slabs
    · rw [bitmap_congr (body_mapSlab hf hc), mem_cons, or_iff_right_of_imp fun _ => hc]
    · refine iff_of_false ?_ fun hused => hc hused.1
      rintro ⟨hcb, hj⟩
      obtain rfl := (mem_cons.1 hcb).resolve_right hc
      exact hnone j hj
  · refine hagree.read_eq ?_
    rintro x ⟨h1, h2⟩ ⟨h3, h4⟩
    have := hmapped.header_out (mem_cons_of_mem _ hc) (h.inside c hc j hj) mem_cons_self
    simp only at h1 h2 h3 h4
    omega

end Core

/-- A new slab is put in the list of partly used slabs, which was empty. -/
theorem Lists.mapped {head : ListKind → ℕ} {L : ListKind → List ℕ} (h : Lists m head slabs L)
    (hf : Fresh cfg slabs b)
    (hlinks : ∀ c ∈ b :: slabs, next m' c = next (mapSlab cfg m b) c ∧
      prev m' c = prev (mapSlab cfg m b) c) :
    Lists m' (update head .part b) (b :: slabs) (update L .part [b]) := by
  obtain ⟨-, hnext, hprev, -⟩ := mapSlab_spec cfg m b
  constructor
  case dll =>
    intro kind
    by_cases hk : kind = .part
    · subst hk
      obtain ⟨hn, hp⟩ := hlinks b mem_cons_self
      rw [update_self, update_self]
      exact ⟨⟨rfl, hf.1, hp.trans hprev, hn.trans hnext⟩, nodup_singleton b⟩
    · rw [update_of_ne hk, update_of_ne hk]
      refine (h.dll kind).congr fun c hc => ?_
      have hcs := h.mem_slabs hc
      obtain ⟨hn, hp⟩ := hlinks c (mem_cons_of_mem _ hcs)
      rw [hn, hp]
      exact ⟨read_congr fun x h1 h2 => mapSlab_agree hf hcs h1 (by omega),
        read_congr fun x h1 h2 => mapSlab_agree hf hcs (by omega) (by omega)⟩
  case mem_slabs =>
    intro kind c hc
    by_cases hk : kind = .part
    · rw [hk, update_self, mem_singleton] at hc
      rw [hc]
      exact mem_cons_self
    · rw [update_of_ne hk] at hc
      exact mem_cons_of_mem _ (h.mem_slabs hc)
  case unique =>
    intro kind kind' c hc hc'
    have hbs := hf.notMem
    by_cases hk : kind = .part
    · rw [hk, update_self, mem_singleton] at hc
      by_cases hk' : kind' = .part
      · rw [hk, hk']
      · rw [update_of_ne hk', hc] at hc'
        exact absurd (h.mem_slabs hc') hbs
    · rw [update_of_ne hk] at hc
      by_cases hk' : kind' = .part
      · rw [hk', update_self, mem_singleton] at hc'
        rw [hc'] at hc
        exact absurd (h.mem_slabs hc) hbs
      · rw [update_of_ne hk'] at hc'
        exact h.unique hc hc'

/-! ### The operations -/

/-- **The invariant**: every slab is in the list that its count of free slots says. -/
structure Inv (cfg : Config) (s : State) : Prop where
  noFault : s.fault = false
  core : Core cfg s.mem s.slabs s.live
  lists : ∃ L, Lists s.mem s.head s.slabs L ∧
    ∀ kind c, c ∈ L kind ↔ c ∈ s.slabs ∧ ListKind.of (freeNr s.mem c) = kind

/-- The slab that an allocation takes its slot from … -/
def target (s : State) (base : ℕ) : ℕ :=
  if s.head .part ≠ 0 then s.head .part else if s.head .empty ≠ 0 then s.head .empty else base

/-- … and the slot. -/
def targetSlot (s : State) (base : ℕ) : Option ℕ :=
  if s.head .part ≠ 0 ∨ s.head .empty ≠ 0 then BitWord.firstClear (bitmap s.mem (target s base))
  else some 0

/-- **The header that an allocation writes lies in the memory of its slab.** -/
def HeaderInside (cfg : Config) (s : State) : Event → Prop
  | .allocate base => ∀ k ∈ targetSlot s base, Inside cfg (target s base) k
  | .free _ => True

/-- `slab_free_object` finds the slot of an object. -/
theorem Core.slotOf_header (h : Core cfg m slabs live) (hcfg : cfg.Valid) (hb : b ∈ slabs)
    (hk : k ∈ ones (bitmap m b)) : slotOf m b (headerAt cfg b k) = k := by
  have hok := h.slab b hb
  have hslots : slots m b = slabMem b cfg.size := hok.slots
  have hlt := (h.inside b hb k hk).trans_lt (h.mapped.lt b hb)
  refine slotOf_eq hok.sizeEach hcfg.size_lt (lt_of_mem_ones hk) (by rw [hslots]; rfl) ?_
  unfold objectAt at hlt
  omega

/-- Only the body of the slab `b` and the header of its slot `k` are written to. -/
theorem Core.frame (h : Core cfg m slabs live) (hb : b ∈ slabs) (hin : Inside cfg b k)
    (hagree : ∀ x, ¬ (b + 16 ≤ x ∧ x < b + 72) →
      ¬ (headerAt cfg b k ≤ x ∧ x < headerAt cfg b k + 8) → m' x = m x) :
    (∀ c ∈ slabs, c ≠ b → body m' c = body m c) ∧
      (∀ c ∈ slabs, next m' c = next m c ∧ prev m' c = prev m c) ∧
      ∀ c ∈ slabs, ∀ j ∈ ones (bitmap m c), (c, j) ≠ (b, k) →
        read m' (headerAt cfg c j) 8 = read m (headerAt cfg c j) 8 := by
  have hapart : ∀ c ∈ slabs, c ≠ b → c + 77 ≤ b ∨ b + 77 ≤ c := fun c hc =>
    h.mapped.separated.apart c hc b hb
  have hheader : ∀ c ∈ slabs, headerAt cfg b k + 8 ≤ c ∨ c + 77 ≤ headerAt cfg b k := fun c hc =>
    h.mapped.header_out hb hin hc
  refine ⟨fun c hc hne => ?_, fun c hc => ?_, fun c hc j hj hne => ?_⟩
  · have h1 := hapart c hc hne
    have h2 := hheader c hc
    exact body_eq fun x hx hx' => hagree x (by omega) (by omega)
  · have h1 : c = b ∨ c + 77 ≤ b ∨ b + 77 ≤ c := (em (c = b)).imp_right (hapart c hc)
    have h2 := hheader c hc
    exact ⟨read_congr fun x hx hx' => hagree x (by omega) (by omega),
      read_congr fun x hx hx' => hagree x (by omega) (by omega)⟩
  · have hinj := h.inside c hc j hj
    have h1 := h.mapped.header_disjoint hc hinj hb hin hne
    have h2 := h.mapped.header_out hc hinj hb
    rw [slabSize] at h2
    exact read_congr fun x hx hx' => hagree x (by omega) (by omega)

/-- A slot of a slab is taken; the links are left alone. -/
theorem Core.take_slot (h : Core cfg m slabs live) (hcfg : cfg.Valid) (hb : b ∈ slabs)
    (hfree : freeNr m b ≠ 0) (hin : ∀ k ∈ firstClear (bitmap m b), Inside cfg b k) :
    ∃ m₁ k, slabAllocateObject m b = some (m₁, objectAt cfg b k) ∧
      Core cfg m₁ slabs (objectAt cfg b k :: live) ∧ freeNr m₁ b = freeNr m b - 1 ∧
      (∀ c ∈ slabs, c ≠ b → freeNr m₁ c = freeNr m c) ∧
      ∀ c ∈ slabs, next m₁ c = next m c ∧ prev m₁ c = prev m c := by
  have hok := h.slab b hb
  have hcount : freeNr m b + (ones (bitmap m b)).card = 64 := hok.count
  obtain ⟨k, hk⟩ := BitWord.exists_firstClear (w := bitmap m b) (by omega)
  obtain ⟨hk64, hclear⟩ := BitWord.firstClear_spec hk
  have hink : Inside cfg b k := hin k hk
  have hslots : slots m b = slabMem b cfg.size := hok.slots
  have hend : headerAt cfg b k + headerSize < 2 ^ 64 := hink.trans_lt (h.mapped.lt b hb)
  obtain ⟨m₁, hm1, hbody, hread, hagree⟩ := slabAllocateObject_spec hk hok.sizeEach hcfg.size_lt
    (show slots m b + k * (cfg.size + headerSize) = headerAt cfg b k by rw [hslots]; rfl) hend
    (h.mapped.header_out hb hink hb) (h.mapped.separated.lt_two_pow hb) (Nat.pos_of_ne_zero hfree)
  obtain ⟨hother, hlinks, hheaders⟩ := h.frame hb hink fun x h1 h2 =>
    hagree x (not_or.2 ⟨h1, h2⟩)
  refine ⟨m₁, k, hm1, ?_, freeNr_of_body hbody, fun c hc hne => freeNr_congr (hother c hc hne), hlinks⟩
  refine h.take hb hk64 hclear hink hbody hother hread fun c hc j hj => hheaders c hc j hj fun heq => ?_
  obtain ⟨rfl, rfl⟩ := Prod.mk.inj heq
  exact hclear hj

/-- The slot of an object is given back; the links are left alone. -/
theorem Core.give_slot (h : Core cfg m slabs live) (hcfg : cfg.Valid) (hb : b ∈ slabs)
    (hk : k ∈ ones (bitmap m b)) :
    ∃ m₁, slabFreeObject m b (headerAt cfg b k) = some m₁ ∧
      Core cfg m₁ slabs (live.erase (objectAt cfg b k)) ∧
      read m₁ (headerAt cfg b k) 8 = b ∧ freeNr m b < objectsPerSlab ∧
      freeNr m₁ b = freeNr m b + 1 ∧ (∀ c ∈ slabs, c ≠ b → freeNr m₁ c = freeNr m c) ∧
      ∀ c ∈ slabs, next m₁ c = next m c ∧ prev m₁ c = prev m c := by
  have hok := h.slab b hb
  have hcount : freeNr m b + (ones (bitmap m b)).card = 64 := hok.count
  have hpos := Finset.card_pos.2 ⟨k, hk⟩
  have hfreelt : freeNr m b < objectsPerSlab := by
    rw [objectsPerSlab]
    omega
  obtain ⟨m₁, hm1, hbody, honly⟩ :=
    slabFreeObject_spec (h.slotOf_header hcfg hb hk) (lt_of_mem_ones hk) hfreelt
  have hink := h.inside b hb k hk
  obtain ⟨hother, hlinks, hheaders⟩ := h.frame hb hink fun x h1 _ => honly x h1
  have hself : read m₁ (headerAt cfg b k) 8 = read m (headerAt cfg b k) 8 := by
    have hout := h.mapped.header_out hb hink hb
    rw [slabSize] at hout
    refine read_congr fun x hx hx' => honly x ?_
    rintro ⟨h1, h2⟩
    simp only at h1 h2
    omega
  refine ⟨m₁, hm1, h.give hb hk hbody hother fun c hc j hj => ?_, hself.trans (h.parent b hb k hk),
    hfreelt, freeNr_of_body hbody, fun c hc hne => freeNr_congr (hother c hc hne), hlinks⟩
  by_cases heq : (c, j) = (b, k)
  · obtain ⟨rfl, rfl⟩ := Prod.mk.inj heq
    exact hself
  · exact hheaders c hc j hj heq

section Home

variable {f f' : ℕ → ℕ} {L : ListKind → List ℕ} {dst : ListKind}
  (hL : ∀ kind c, c ∈ L kind ↔ c ∈ slabs ∧ ListKind.of (f c) = kind) (hb : b ∈ slabs)
  (hf : ∀ c ∈ slabs, c ≠ b → f' c = f c)
include hL hb hf

theorem home_move (hdst : ListKind.of (f' b) = dst) (kind : ListKind) (c : ℕ) :
    (c ≠ b ∧ c ∈ L kind) ∨ (c = b ∧ kind = dst) ↔ c ∈ slabs ∧ ListKind.of (f' c) = kind := by
  by_cases hcb : c = b
  · subst hcb
    simp [hb, hdst, eq_comm]
  · rw [hL]
    simp only [ne_eq, hcb, not_false_eq_true, true_and, false_and, or_false]
    exact and_congr_right fun hc => by rw [hf c hc hcb]

omit hb in
/-- The count has changed, and the slab is still in the right list. -/
theorem home_stay (hsame : ListKind.of (f' b) = ListKind.of (f b)) (kind : ListKind) (c : ℕ) :
    c ∈ L kind ↔ c ∈ slabs ∧ ListKind.of (f' c) = kind := by
  rw [hL]
  refine and_congr_right fun hc => ?_
  by_cases hcb : c = b
  · rw [hcb, hsame]
  · rw [hf c hc hcb]

end Home

section Operations

variable {s s' : State} {base : ℕ}

/-- A slab of which one slot was taken or given back is moved to the list it now belongs to. -/
theorem inv_move {L : ListKind → List ℕ} {src dst : ListKind} (hnf : s.fault = false)
    (hcore : Core cfg s.mem s.slabs s.live) (hlists : Lists s.mem s.head s.slabs L)
    {f : ℕ → ℕ} (hL : ∀ kind c, c ∈ L kind ↔ c ∈ s.slabs ∧ ListKind.of (f c) = kind)
    (hb : b ∈ L src) (hf : ∀ c ∈ s.slabs, c ≠ b → freeNr s.mem c = f c)
    (hdst : ListKind.of (freeNr s.mem b) = dst) : Inv cfg (s.move src dst b) := by
  have hbs := hlists.mem_slabs hb
  obtain ⟨hlinks, L', hlists', hL'⟩ := hlists.move dst hcore.mapped.separated hb
  have hfree : ∀ c ∈ s.slabs, freeNr (s.move src dst b).mem c = freeNr s.mem c := fun c hc =>
    freeNr_congr (body_of_links hcore.mapped.separated hlinks hc)
  refine ⟨hnf, hcore.links hlinks, L', hlists', fun kind c => ?_⟩
  rw [hL' kind c]
  refine home_move hL hbs (fun c hc hne => ?_) ?_ kind c
  · rw [hfree c hc, hf c hc hne]
  · rw [hfree b hbs, hdst]

/-- The slab at the head of a list has a free slot, and is there by its count. -/
theorem Inv.allocate_head (h : Inv cfg s) (hcfg : cfg.Valid) {kind : ListKind}
    (h0 : s.head kind ≠ 0) (hkind : kind ≠ .full)
    (hin : ∀ k ∈ firstClear (bitmap s.mem (s.head kind)), Inside cfg (s.head kind) k) :
    ∃ m₁ k L, slabAllocateObject s.mem (s.head kind) = some (m₁, objectAt cfg (s.head kind) k) ∧
      Core cfg m₁ s.slabs (objectAt cfg (s.head kind) k :: s.live) ∧
      Lists m₁ s.head s.slabs L ∧ s.head kind ∈ L kind ∧
      (∀ kind c, c ∈ L kind ↔ c ∈ s.slabs ∧ ListKind.of (freeNr s.mem c) = kind) ∧
      ListKind.of (freeNr s.mem (s.head kind)) = kind ∧
      freeNr m₁ (s.head kind) = freeNr s.mem (s.head kind) - 1 ∧
      ∀ c ∈ s.slabs, c ≠ s.head kind → freeNr m₁ c = freeNr s.mem c := by
  obtain ⟨L, hlists, hL⟩ := h.lists
  have hmem := hlists.head_mem h0
  obtain ⟨hb, hof⟩ := (hL _ _).1 hmem
  have hfree : freeNr s.mem (s.head kind) ≠ 0 := by
    intro hz
    rw [hz, ListKind.of_zero] at hof
    exact hkind hof.symm
  obtain ⟨m₁, k, hm1, hcore, hself, hothers, hlinks⟩ := h.core.take_slot hcfg hb hfree hin
  exact ⟨m₁, k, L, hm1, hcore, hlists.congr hlinks, hmem, hL, hof, hself, hothers⟩

/-- The result of an allocation. -/
def Allocated (cfg : Config) (s : State) (base : ℕ) : Prop :=
  ∃ ret s', slubAllocatePerCpu cfg s base = some (ret, s') ∧ Inv cfg { s' with live := ret :: s.live }

theorem Inv.allocate_part (h : Inv cfg s) (hcfg : cfg.Valid) (h0 : s.head .part ≠ 0)
    (hin : HeaderInside cfg s (.allocate base)) : Allocated cfg s base := by
  have hin' : ∀ k ∈ firstClear (bitmap s.mem (s.head .part)),
      Inside cfg (s.head .part) k := by
    simpa only [HeaderInside, target, targetSlot, ne_eq, h0, not_false_eq_true, if_true, true_or]
      using hin
  obtain ⟨m₁, k, L, hm1, hcore, hlists, hmem, hL, hof, hself, hothers⟩ :=
    h.allocate_head hcfg h0 (by decide) hin'
  unfold Allocated slubAllocatePerCpu
  rw [if_pos h0, hm1]
  refine ⟨_, _, rfl, ?_⟩
  by_cases hzero : freeNr m₁ (s.head .part) = 0
  · rw [if_pos hzero]
    exact inv_move (s := { s with mem := m₁, live := objectAt cfg (s.head .part) k :: s.live })
      h.noFault hcore hlists hL hmem hothers (by rw [hzero]; rfl)
  · rw [if_neg hzero]
    refine ⟨h.noFault, hcore, L, hlists, fun kind c => ?_⟩
    refine home_stay hL hothers ?_ kind c
    have hcount : freeNr s.mem (s.head .part) +
        (ones (bitmap s.mem (s.head .part))).card = objectsPerSlab :=
      (h.core.slab _ ((hL _ _).1 hmem).1).count
    rw [hof]
    exact ListKind.of_eq_part.2 ⟨by rw [objectsPerSlab] at *; omega, hzero⟩

theorem Inv.allocate_empty (h : Inv cfg s) (hcfg : cfg.Valid) (hpart : s.head .part = 0)
    (h0 : s.head .empty ≠ 0) (hin : HeaderInside cfg s (.allocate base)) : Allocated cfg s base := by
  have hin' : ∀ k ∈ firstClear (bitmap s.mem (s.head .empty)),
      Inside cfg (s.head .empty) k := by
    simpa only [HeaderInside, target, targetSlot, hpart, ne_eq, not_true_eq_false, if_false, h0,
      not_false_eq_true, if_true, or_true] using hin
  obtain ⟨m₁, k, L, hm1, hcore, hlists, hmem, hL, hof, hself, hothers⟩ :=
    h.allocate_head hcfg h0 (by decide) hin'
  unfold Allocated slubAllocatePerCpu
  rw [if_neg (by simp [hpart]), if_pos h0, hm1]
  refine ⟨_, _, rfl, ?_⟩
  have hpart' : ListKind.of (freeNr m₁ (s.head .empty)) = .part := by
    rw [hself, ListKind.of_eq_empty.1 hof]
    rfl
  exact inv_move (s := { s with mem := m₁, live := objectAt cfg (s.head .empty) k :: s.live })
    h.noFault hcore hlists hL hmem hothers hpart'

theorem Inv.allocate_new (h : Inv cfg s) (hcfg : cfg.Valid) (hpart : s.head .part = 0)
    (hempty : s.head .empty = 0) (hf : Fresh cfg s.slabs base)
    (hin : HeaderInside cfg s (.allocate base)) : Allocated cfg s base := by
  obtain ⟨L, hlists, hL⟩ := h.lists
  obtain ⟨hbody, -⟩ := mapSlab_spec cfg s.mem base
  have hcore1 := h.core.map hcfg hf
  have hzero : bitmap (mapSlab cfg s.mem base) base = 0 := bitmap_of_body hbody
  have hin' : ∀ k ∈ firstClear (bitmap (mapSlab cfg s.mem base) base),
      Inside cfg base k := by
    intro k hk
    rw [hzero] at hk
    obtain rfl : 0 = k := some_inj.1 hk
    have : ∀ k ∈ some 0, Inside cfg base k := by
      simpa only [HeaderInside, target, targetSlot, hpart, hempty, ne_eq, not_true_eq_false, if_false,
        or_self] using hin
    exact this 0 rfl
  have hfull : freeNr (mapSlab cfg s.mem base) base ≠ 0 := by
    rw [freeNr_of_body hbody]
    exact Nat.succ_ne_zero 63
  obtain ⟨m₁, k, hm1, hcore, hself, hothers, hlinks⟩ :=
    hcore1.take_slot hcfg mem_cons_self hfull hin'
  unfold Allocated slubAllocatePerCpu
  rw [if_neg (by simp [hpart]), if_neg (by simp [hempty]), hm1]
  refine ⟨_, _, rfl, h.noFault, hcore, update L .part [base], ?_, ?_⟩
  · exact hlists.mapped hf hlinks
  · have hnone : ∀ kind, s.head kind = 0 → ∀ c ∈ s.slabs, ListKind.of (freeNr s.mem c) ≠ kind := by
      intro kind h0 c hc hof
      have hmem := (hL kind c).2 ⟨hc, hof⟩
      rw [(hlists.dll kind).eq_nil h0] at hmem
      cases hmem
    have hbase : base ∉ s.slabs := hf.notMem
    have hfree : ∀ c ∈ s.slabs, freeNr m₁ c = freeNr s.mem c := by
      intro c hc
      have hne : c ≠ base := fun heq => hbase (heq ▸ hc)
      rw [hothers c (mem_cons_of_mem _ hc) hne]
      exact freeNr_congr (body_mapSlab hf hc)
    have hself' : ListKind.of (freeNr m₁ base) = .part := by
      rw [hself, freeNr_of_body hbody]
      rfl
    intro kind c
    by_cases hcb : c = base
    · subst hcb
      by_cases hk : kind = .part
      · subst hk
        simp [hself']
      · rw [update_of_ne hk, hself']
        refine ⟨fun hmem => absurd (hlists.mem_slabs hmem) hbase, fun hmem => absurd hmem.2.symm hk⟩
    · rw [mem_cons, or_iff_right hcb]
      by_cases hk : kind = .part
      · subst hk
        rw [update_self, mem_singleton]
        refine ⟨fun heq => absurd heq hcb, fun hmem => ?_⟩
        rw [hfree c hmem.1] at hmem
        exact absurd hmem.2 (hnone _ hpart c hmem.1)
      · rw [update_of_ne hk, hL]
        exact and_congr_right fun hc => by rw [hfree c hc]

theorem Inv.allocate (h : Inv cfg s) (hcfg : cfg.Valid)
    (hbase : s.head .part ≠ 0 ∨ s.head .empty ≠ 0 ∨ Fresh cfg s.slabs base)
    (hin : HeaderInside cfg s (.allocate base)) : Allocated cfg s base := by
  by_cases hpart : s.head .part = 0
  · by_cases hempty : s.head .empty = 0
    · have hf := (hbase.resolve_left (not_not.2 hpart)).resolve_left (not_not.2 hempty)
      exact h.allocate_new hcfg hpart hempty hf hin
    · exact h.allocate_empty hcfg hpart hempty hin
  · exact h.allocate_part hcfg hpart hin

/-- **`slub_free` of an object in use.** -/
theorem Inv.free (h : Inv cfg s) (hcfg : cfg.Valid) (ho : o ∈ s.live) :
    ∃ s', slubFree cfg s o = some s' ∧ Inv cfg { s' with live := s.live.erase o } := by
  obtain ⟨b, hb, k, hk, rfl⟩ := (h.core.mem_live o).1 ho
  obtain ⟨L, hlists, hL⟩ := h.lists
  have hheader : (objectAt cfg b k + (2 ^ 64 - headerSize)) % 2 ^ 64 = headerAt cfg b k := by
    have hlt := (h.core.inside b hb k hk).trans_lt (h.core.mapped.lt b hb)
    unfold objectAt at hlt ⊢
    rw [headerSize] at *
    omega
  have hcache : slubCache s.mem b = cfg.self := (h.core.slab b hb).slubCache
  obtain ⟨m₁, hm1, hcore1, hparent1, hlt, hfree, hothers, hlinks⟩ := h.core.give_slot hcfg hb hk
  have hlists1 := hlists.congr hlinks
  unfold slubFree
  dsimp only
  rw [hheader, h.core.parent b hb k hk, if_neg (by simp [h.core.mapped.ne_zero b hb, hcache]), hm1,
    map_some, hparent1, hfree]
  by_cases hone : freeNr s.mem b + 1 = 1
  · -- the slab was full
    have hmem : b ∈ L .full := (hL _ _).2 ⟨hb, ListKind.of_eq_full.2 (by omega)⟩
    rw [if_pos hone]
    refine ⟨_, rfl, ?_⟩
    exact inv_move (s := { s with mem := m₁, live := s.live.erase (objectAt cfg b k) }) h.noFault hcore1
      hlists1 hL hmem hothers (by rw [hfree, hone]; rfl)
  · have hmem : b ∈ L .part := (hL _ _).2 ⟨hb, ListKind.of_eq_part.2 ⟨by omega, by omega⟩⟩
    rw [if_neg hone]
    by_cases hfull : freeNr s.mem b + 1 = objectsPerSlab
    · rw [if_pos hfull]
      refine ⟨_, rfl, ?_⟩
      exact inv_move (s := { s with mem := m₁, live := s.live.erase (objectAt cfg b k) }) h.noFault
        hcore1 hlists1 hL hmem hothers (by rw [hfree, hfull]; rfl)
    · rw [if_neg hfull]
      refine ⟨_, rfl, h.noFault, hcore1, L, hlists1, fun kind c => ?_⟩
      refine home_stay hL hothers ?_ kind c
      rw [((hL _ _).1 hmem).2, hfree]
      exact ListKind.of_eq_part.2 ⟨hfull, by omega⟩

end Operations

/-! ### Whole histories -/

section Histories

variable {s s' : State} {e : Event}

theorem inv_step (hcfg : cfg.Valid) (h : Inv cfg s) (hs : step cfg s e = some s')
    (hin : HeaderInside cfg s e) : Inv cfg s' := by
  cases e with
  | allocate base =>
    rw [step, Option.ite_none_right_eq_some] at hs
    obtain ⟨⟨-, hbase⟩, hs⟩ := hs
    obtain ⟨ret, s₁, hs1, hinv⟩ := h.allocate hcfg hbase hin
    rw [hs1, some_inj] at hs
    exact hs ▸ hinv
  | free obj =>
    rw [step, Option.ite_none_right_eq_some] at hs
    obtain ⟨⟨-, hobj⟩, hs⟩ := hs
    obtain ⟨s₁, hs1, hinv⟩ := h.free hcfg hobj
    rw [hs1, some_inj] at hs
    exact hs ▸ hinv

theorem inv_newSlubPerCpu (hcfg : cfg.Valid) {base : ℕ} (hf : Fresh cfg [] base) (m : Mem) :
    Inv cfg (newSlubPerCpu cfg m base) := by
  have hcore0 : Core cfg m [] [] := by
    constructor
    case mapped => constructor <;> simp
    all_goals simp
  have hcore1 := hcore0.map hcfg hf
  have hlists0 : Lists (mapSlab cfg m base) (fun _ => 0) [base] fun _ => [] :=
    ⟨fun _ => Dll.nil _ _, nofun, nofun⟩
  obtain ⟨hlinks, hlists⟩ := hlists0.addHead .empty hcore1.mapped.separated
    (mem_singleton_self base) (fun _ => not_mem_nil)
  refine ⟨rfl, hcore1.links hlinks, _, hlists, fun kind c => ?_⟩
  have hfree : freeNr (newSlubPerCpu cfg m base).mem base = objectsPerSlab := by
    obtain ⟨hbody, -⟩ := mapSlab_spec cfg m base
    have hsame := body_of_links hcore1.mapped.separated hlinks (mem_singleton_self base)
    exact freeNr_of_body (hsame.trans hbody)
  rw [Lists.mem_cons]
  change c ∈ [] ∨ _ ↔ c ∈ [base] ∧ _
  rw [mem_singleton, or_iff_right not_mem_nil, and_comm]
  refine and_congr_right fun hc => ?_
  rw [hc, hfree]
  exact eq_comm

/-- **The state as the clients of the cache rely on it.** -/
structure Well (cfg : Config) (s : State) : Prop where
  noFault : s.fault = false
  /-- The three lists are doubly linked lists in memory; each slab ever created is in exactly one of
  them, by its count of free slots. -/
  lists : ∃ L : ListKind → List ℕ,
    (∀ kind, Dll (next s.mem) (prev s.mem) (s.head kind) (L kind)) ∧
    (∀ kind b, b ∈ L kind → b ∈ s.slabs) ∧
    ∀ b ∈ s.slabs, (∃! kind, b ∈ L kind) ∧
      (b ∈ L .empty ↔ freeNr s.mem b = objectsPerSlab) ∧
      (b ∈ L .part ↔ 0 < freeNr s.mem b ∧ freeNr s.mem b < objectsPerSlab) ∧
      (b ∈ L .full ↔ freeNr s.mem b = 0)
  /-- The count of free slots is the number of clear bits. -/
  count : ∀ b ∈ s.slabs, freeNr s.mem b = objectsPerSlab - (BitWord.ones (bitmap s.mem b)).card
  /-- The set bits are the slots of the objects in use. -/
  live : ∀ o, o ∈ s.live ↔
    ∃ b ∈ s.slabs, ∃ k ∈ BitWord.ones (bitmap s.mem b), o = objectAt cfg b k
  /-- No object was returned while it was in use. -/
  nodup : s.live.Nodup
  /-- `slab_free_object` finds the slab and the slot of an object. -/
  slot : ∀ b ∈ s.slabs, ∀ k ∈ BitWord.ones (bitmap s.mem b),
    read s.mem (headerAt cfg b k) 8 = b ∧ slotOf s.mem b (headerAt cfg b k) = k

theorem Inv.well (hcfg : cfg.Valid) (h : Inv cfg s) : Well cfg s := by
  have hcount : ∀ b ∈ s.slabs,
      freeNr s.mem b + (ones (bitmap s.mem b)).card = objectsPerSlab := fun b hb =>
    (h.core.slab b hb).count
  constructor
  case noFault => exact h.noFault
  case lists =>
    obtain ⟨L, hlists, hL⟩ := h.lists
    refine ⟨L, hlists.dll, fun kind b hb => hlists.mem_slabs hb, fun b hb => ⟨?_, ?_, ?_, ?_⟩⟩
    · exact ⟨_, (hL _ _).2 ⟨hb, rfl⟩, fun kind hk => ((hL _ _).1 hk).2.symm⟩
    · rw [hL, ListKind.of_eq_empty]
      exact and_iff_right hb
    · have hle : freeNr s.mem b ≤ objectsPerSlab := (hcount b hb).symm ▸ Nat.le_add_right ..
      rw [hL, ListKind.of_eq_part, and_iff_right hb]
      omega
    · rw [hL, ListKind.of_eq_full]
      exact and_iff_right hb
  case count =>
    intro b hb
    have := hcount b hb
    omega
  case live => exact h.core.mem_live
  case nodup => exact h.core.nodup
  case slot =>
    intro b hb k hk
    exact ⟨h.core.parent b hb k hk, h.core.slotOf_header hcfg hb hk⟩

theorem allStates_inv (hcfg : cfg.Valid) (m : Mem) {base : ℕ} (hf : Fresh cfg [] base)
    (es : List Event)
    (h : Transition.AllSteps (step cfg) (HeaderInside cfg) (newSlubPerCpu cfg m base) es) :
    Transition.AllStates (step cfg) (Inv cfg) (newSlubPerCpu cfg m base) es :=
  allStates_of_allSteps (J := fun _ => True) (fun _ _ _ _ _ => trivial)
    (fun _ _ _ _ hinv hs hin => inv_step hcfg hinv hs hin) es trivial (inv_newSlubPerCpu hcfg hf m) h

/-- For the object sizes in use every header lies in the memory of its slab. -/
theorem headerInside_bucketSize {i : ℕ} (hi : i < numSlubBuckets) (hsize : cfg.size = bucketSize i)
    (s : State) (e : Event) : HeaderInside cfg s e := by
  have hin : ∀ b k, k < objectsPerSlab → Inside cfg b k := by
    intro b k hk
    unfold Inside objectAt headerAt
    rw [hsize]
    exact (header_le_allocSize hi hk).le
  cases e with
  | allocate base =>
    intro k hk
    refine hin _ k ?_
    unfold targetSlot at hk
    split at hk
    · exact (BitWord.firstClear_spec hk).1
    · rw [← some_inj.1 hk]
      exact Nat.succ_pos 63
  | free obj => trivial

/-- **For each of the object sizes in use, lists, counters and bitmaps stay in step in every history.** -/
theorem allStates_well_bucketSize {i : ℕ} (hi : i < numSlubBuckets) (hself : cfg.self < 2 ^ 64)
    (hsize : cfg.size = bucketSize i) (m : Mem) {base : ℕ} (hf : Fresh cfg [] base)
    (es : List Event) :
    Transition.AllStates (step cfg) (Well cfg) (newSlubPerCpu cfg m base) es := by
  have hcfg : cfg.Valid := by
    refine ⟨?_, hself⟩
    have hle : 2 ^ (i + 1) ≤ 2 ^ 10 := Nat.pow_le_pow_right (by decide) hi
    rw [hsize, bucketSize]
    omega
  have hall := allStates_inv hcfg m hf es
    (allSteps_of_mem (fun e _ s => headerInside_bucketSize hi hsize s e) _)
  exact hall.mono fun s => Inv.well hcfg

theorem allStates_well_bucketSize_first :
    (run (step ⟨bucketSize 0, 1000⟩) (newSlubPerCpu ⟨bucketSize 0, 1000⟩ (fun _ => 0) 0x10000)
      [.allocate 0, .free 65624]).isSome ∧
    Transition.AllStates (step ⟨bucketSize 0, 1000⟩) (Well ⟨bucketSize 0, 1000⟩)
      (newSlubPerCpu ⟨bucketSize 0, 1000⟩ (fun _ => 0) 0x10000) [.allocate 0, .free 65624] :=
  ⟨by decide +kernel, allStates_well_bucketSize (i := 0) (by decide) (by decide) rfl _ (by decide) _⟩

/-- **Lists, counters and bitmaps stay in step**, in every history of a cache in which the headers of
the objects lie in the memory of their slabs. -/
theorem allStates_well (hcfg : cfg.Valid) (m : Mem) {base : ℕ} (hf : Fresh cfg [] base)
    (es : List Event)
    (h : Transition.AllSteps (step cfg) (HeaderInside cfg) (newSlubPerCpu cfg m base) es) :
    Transition.AllStates (step cfg) (Well cfg) (newSlubPerCpu cfg m base) es :=
  (allStates_inv hcfg m hf es h).mono fun _ => Inv.well hcfg

/-- Objects of 16 bytes: two are taken and the first is given back. -/
theorem allStates_well_sixteen :
    (run (step ⟨16, 1000⟩) (newSlubPerCpu ⟨16, 1000⟩ (fun _ => 0) 0x10000)
      [.allocate 0, .allocate 0, .free 65624]).isSome ∧
    Transition.AllStates (step ⟨16, 1000⟩) (Well ⟨16, 1000⟩)
      (newSlubPerCpu ⟨16, 1000⟩ (fun _ => 0) 0x10000) [.allocate 0, .allocate 0, .free 65624] := by
  refine ⟨by decide +kernel, allStates_well ⟨by decide, by decide⟩ _ (by decide) _ ?_⟩
  exact allSteps_of_mem (fun e _ s => headerInside_bucketSize (i := 0) (by decide) rfl s e) _

/-! ### A header behind the memory of its slab

Objects of 56 bytes take slots of 64 bytes, and 64 of them are exactly one page.  The slab at `0x10000`
has its slots from `0x10080` on, so the header of slot 62 is at `0x11000`, behind the page. -/

/-- The first `n` slots of the slab are in use, and the slab is the only one. -/
structure Filled (n : ℕ) (s : State) : Prop where
  noFault : s.fault = false
  slabs : s.slabs = [0x10000]
  part : s.head .part = 0x10000
  empty : s.head .empty = 0
  body : body s.mem 0x10000 = ⟨0x10080, 64 - n, 56, 1000, BitVec.ofNat 64 (2 ^ n - 1)⟩
  next : next s.mem 0x10000 = 0
  prev : prev s.mem 0x10000 = 0
  live : 62 < n → 0x11008 ∈ s.live

theorem firstClear_ones : ∀ n < 64, firstClear (BitVec.ofNat 64 (2 ^ n - 1)) = some n ∧
    BitVec.ofNat 64 (2 ^ n - 1) ||| BitVec.twoPow 64 n = BitVec.ofNat 64 (2 ^ (n + 1) - 1) := by
  decide +kernel

/-- The next slot is taken. -/
theorem Filled.take {n : ℕ} (h : Filled n s) (hn : n < 64) :
    ∃ m₁, slabAllocateObject s.mem 0x10000 = some (m₁, 0x10088 + 64 * n) ∧
      PerCpu.body m₁ 0x10000 = ⟨0x10080, 63 - n, 56, 1000, BitVec.ofNat 64 (2 ^ (n + 1) - 1)⟩ ∧
      PerCpu.next m₁ 0x10000 = 0 ∧ PerCpu.prev m₁ 0x10000 = 0 := by
  obtain ⟨hclear, hset⟩ := firstClear_ones n hn
  have hbitmap : bitmap s.mem 0x10000 = BitVec.ofNat 64 (2 ^ n - 1) := bitmap_of_body h.body
  have hfree : freeNr s.mem 0x10000 = 64 - n := freeNr_of_body h.body
  have hslots : slots s.mem 0x10000 = 0x10080 := slots_of_body h.body
  have hsize : sizeEach s.mem 0x10000 = 56 := sizeEach_of_body h.body
  obtain ⟨m₁, hm1, hbody, -, hagree⟩ := slabAllocateObject_spec (m := s.mem) (b := 0x10000)
    (h := 0x10080 + 64 * n) (k := n) (by rw [hbitmap, hclear]) hsize (by decide)
    (by rw [hslots, headerSize]; omega) (by rw [headerSize]; omega)
    (by rw [slabSize]; omega) (by decide) (by omega)
  have hlinks : ∀ x, 0x10000 ≤ x → x < 0x10010 → m₁ x = s.mem x := by
    intro x hx hx'
    refine hagree x ?_
    rintro (⟨h1, h2⟩ | ⟨h1, h2⟩) <;> simp only at h1 h2 <;> omega
  refine ⟨m₁, ?_, ?_, ?_, ?_⟩
  · have hret : 0x10080 + 64 * n + 8 = 0x10088 + 64 * n := by omega
    rw [hm1, headerSize, hret]
  · have hcount : 64 - n - 1 = 63 - n := by omega
    rw [hbody, h.body, hfree, hbitmap, hset, hcount]
  · exact (read_congr fun x h1 h2 => hlinks x h1 (by omega)).trans h.next
  · exact (read_congr fun x h1 h2 => hlinks x (by omega) (by omega)).trans h.prev

theorem filled_one : ∃ s, step ⟨56, 1000⟩ (newSlubPerCpu ⟨56, 1000⟩ (fun _ => 0) 0x10000)
    (.allocate 0x11000) = some s ∧ Filled 1 s := by
  have hfields : (step ⟨56, 1000⟩ (newSlubPerCpu ⟨56, 1000⟩ (fun _ => 0) 0x10000)
      (.allocate 0x11000)).map (fun s => (s.fault, s.slabs, [s.head .part, s.head .empty,
        slots s.mem 0x10000, freeNr s.mem 0x10000, sizeEach s.mem 0x10000, slubCache s.mem 0x10000,
        PerCpu.next s.mem 0x10000, PerCpu.prev s.mem 0x10000], bitmap s.mem 0x10000)) =
      some (false, [0x10000], [0x10000, 0, 0x10080, 63, 56, 1000, 0, 0], 1) := by
    decide +kernel
  obtain ⟨s, hs, heq⟩ := Option.map_eq_some_iff.1 hfields
  simp only [Prod.mk.injEq, List.cons.injEq, and_true] at heq
  obtain ⟨hfault, hslabs, ⟨hpart, hempty, h1, h2, h3, h4, hnext, hprev⟩, h5⟩ := heq
  refine ⟨s, hs, hfault, hslabs, hpart, hempty, ?_, hnext, hprev, fun hlt => absurd hlt (by decide)⟩
  rw [body, h1, h2, h3, h4, h5]
  rfl

theorem Filled.step {n : ℕ} (h : Filled n s) (hn : n < 63) :
    ∃ s', PerCpu.step ⟨56, 1000⟩ s (.allocate 0x11000) = some s' ∧ Filled (n + 1) s' := by
  obtain ⟨m₁, hm1, hbody, hnext, hprev⟩ := h.take (by omega)
  have hfree : freeNr m₁ 0x10000 ≠ 0 := by
    rw [freeNr_of_body hbody]
    change 63 - n ≠ 0
    omega
  have hrun : slubAllocatePerCpu ⟨56, 1000⟩ s 0x11000 =
      some (0x10088 + 64 * n, { s with mem := m₁ }) := by
    rw [slubAllocatePerCpu, h.part, if_pos (by decide), hm1, map_some]
    dsimp only
    rw [if_neg hfree]
  refine ⟨_, by rw [PerCpu.step, if_pos ⟨h.noFault, .inl (by rw [h.part]; decide)⟩, hrun], ?_⟩
  refine ⟨h.noFault, h.slabs, h.part, h.empty, ?_, hnext, hprev, fun hlt => ?_⟩
  · have hcount : 63 - n = 64 - (n + 1) := by omega
    rw [hbody, hcount]
  · obtain rfl : n = 62 := by omega
    exact mem_cons_self

theorem head_move {src dst kind : ListKind} (h : kind ≠ dst) :
    (s.move src dst b).head kind =
      update s.head src (listDel s.mem (s.head src) b).2 kind :=
  update_of_ne h ..

theorem Filled.last (h : Filled 63 s) :
    ∃ s', PerCpu.step ⟨56, 1000⟩ s (.allocate 0x11000) = some s' ∧ s'.fault = false ∧
      s'.slabs = [0x10000] ∧ s'.head .part = 0 ∧ s'.head .empty = 0 ∧ 0x11008 ∈ s'.live := by
  obtain ⟨m₁, hm1, hbody, hnext, hprev⟩ := h.take (by decide)
  have hfree : freeNr m₁ 0x10000 = 0 := freeNr_of_body hbody
  have hnull : (listDel m₁ (s.head .part) 0x10000).2 = 0 := by
    rw [listDel]
    dsimp only
    rw [if_neg (by rw [hprev]; simp)]
    exact hnext
  obtain ⟨s₁, hs1⟩ : ∃ s₁ : State, s₁ = { s with mem := m₁ } := ⟨_, rfl⟩
  have hrun : slubAllocatePerCpu ⟨56, 1000⟩ s 0x11000 =
      some (0x10088 + 64 * 63, s₁.move .part .full 0x10000) := by
    rw [slubAllocatePerCpu, h.part, if_pos (by decide), hm1, map_some]
    dsimp only
    rw [if_pos hfree, hs1]
  have hhead : s₁.head = s.head := by rw [hs1]
  have hmem : s₁.mem = m₁ := by rw [hs1]
  obtain ⟨s₂, hs2⟩ : ∃ s₂ : State, s₂ =
    { s₁.move .part .full 0x10000 with live := (0x10088 + 64 * 63) :: s.live } := ⟨_, rfl⟩
  have hstep : PerCpu.step ⟨56, 1000⟩ s (.allocate 0x11000) = some s₂ := by
    rw [PerCpu.step, if_pos ⟨h.noFault, .inl (by rw [h.part]; decide)⟩, hrun, hs2]
  have hhead2 : s₂.head = (s₁.move .part .full 0x10000).head := by rw [hs2]
  refine ⟨s₂, hstep, ?_, ?_, ?_, ?_, ?_⟩
  · rw [hs2, hs1]
    exact h.noFault
  · rw [hs2, hs1]
    exact h.slabs
  · rw [hhead2, head_move (by decide), update_self, hmem, hhead, hnull]
  · rw [hhead2, head_move (by decide), update_of_ne (by decide), hhead, h.empty]
  · rw [hs2]
    exact mem_cons_of_mem _ (h.live (by decide))

/-- A new slab at `0x11000`, in the place of the header of slot 62. -/
theorem overwritten (hfault : s.fault = false) (hslabs : s.slabs = [0x10000])
    (hpart : s.head .part = 0) (hempty : s.head .empty = 0) (hlive : 0x11008 ∈ s.live) :
    ∃ s', step ⟨56, 1000⟩ s (.allocate 0x11000) = some s' ∧ s'.fault = false ∧ 0x11008 ∈ s'.live ∧
      read s'.mem 0x11000 8 = 0 := by
  have hfresh : Fresh ⟨56, 1000⟩ s.slabs 0x11000 := by
    rw [hslabs]
    decide
  obtain ⟨hbody, hnext, -, -⟩ := mapSlab_spec ⟨56, 1000⟩ s.mem 0x11000
  have hbitmap : bitmap (mapSlab ⟨56, 1000⟩ s.mem 0x11000) 0x11000 = 0 := bitmap_of_body hbody
  have hslots : slots (mapSlab ⟨56, 1000⟩ s.mem 0x11000) 0x11000 = 0x11080 := slots_of_body hbody
  have hsize : sizeEach (mapSlab ⟨56, 1000⟩ s.mem 0x11000) 0x11000 = 56 := sizeEach_of_body hbody
  obtain ⟨m₁, hm1, -, -, hagree⟩ := slabAllocateObject_spec
    (m := mapSlab ⟨56, 1000⟩ s.mem 0x11000) (b := 0x11000) (h := 0x11080) (k := 0)
    (by rw [hbitmap]; rfl) hsize (by decide) (by rw [hslots, Nat.zero_mul, Nat.add_zero])
    (by decide) (by decide) (by decide) (by rw [freeNr_of_body hbody]; decide)
  have hrun : slubAllocatePerCpu ⟨56, 1000⟩ s 0x11000 = some (0x11080 + headerSize,
      { s with mem := m₁, head := update s.head .part 0x11000, slabs := 0x11000 :: s.slabs }) := by
    rw [slubAllocatePerCpu, if_neg (by simp [hpart]), if_neg (by simp [hempty]), hm1, map_some]
  have hstep : step ⟨56, 1000⟩ s (.allocate 0x11000) =
      some ⟨m₁, update s.head .part 0x11000, 0x11000 :: s.slabs,
        (0x11080 + headerSize) :: s.live, s.fault⟩ := by
    rw [step, if_pos ⟨hfault, .inr (.inr hfresh)⟩, hrun]
  refine ⟨_, hstep, hfault, mem_cons_of_mem _ hlive, ?_⟩
  refine (hagree.read_eq fun x hx hx' => ?_).trans hnext
  obtain ⟨h1, h2⟩ := hx
  rcases hx' with ⟨h3, h4⟩ | ⟨h3, h4⟩ <;> simp only at h1 h2 h3 h4 <;> omega

theorem filled_run {n : ℕ} (hn : n < 63) :
    ∃ s, run (step ⟨56, 1000⟩) (newSlubPerCpu ⟨56, 1000⟩ (fun _ => 0) 0x10000)
      (replicate (n + 1) (.allocate 0x11000)) = some s ∧ Filled (n + 1) s := by
  induction n with
  | zero =>
    obtain ⟨s, hs, hfilled⟩ := filled_one
    exact ⟨s, run_cons_eq_some.2 ⟨s, hs, rfl⟩, hfilled⟩
  | succ n ih =>
    obtain ⟨s, hrun, hfilled⟩ := ih (by omega)
    obtain ⟨s', hs', hfilled'⟩ := hfilled.step hn
    refine ⟨s', ?_, hfilled'⟩
    rw [replicate_succ', run_append, hrun, Option.bind_some]
    exact run_cons_eq_some.2 ⟨s', hs', rfl⟩

/-- Objects of 56 bytes: 64 slots of 64 bytes are exactly one page, so that the header of slot 62 lies
at the end of the memory of the slab.  The next slab is mapped there, and its field `next` overwrites
the header; `slub_free` of the object in slot 62 then dereferences null. -/
theorem free_follows_overwritten_header :
    ∃ s, run (step ⟨56, 1000⟩) (newSlubPerCpu ⟨56, 1000⟩ (fun _ => 0) 0x10000)
        (replicate 65 (.allocate 0x11000) ++ [.free 0x11008]) = some s ∧
      s.fault = true ∧ ¬ Well ⟨56, 1000⟩ s := by
  obtain ⟨s₁, hrun, hfilled⟩ := filled_run (n := 62) (by decide)
  obtain ⟨s₂, hs₂, hfault₂, hslabs, hpart, hempty, hlive₂⟩ := hfilled.last
  obtain ⟨s₃, hs₃, hfault₃, hlive₃, hread⟩ := overwritten hfault₂ hslabs hpart hempty hlive₂
  have hnull : slubFree ⟨56, 1000⟩ s₃ 0x11008 = none := by
    rw [slubFree]
    exact if_pos (.inl hread)
  have hfree : step ⟨56, 1000⟩ s₃ (.free 0x11008) = some { s₃ with fault := true } := by
    rw [step, if_pos ⟨hfault₃, hlive₃⟩, hnull]
  refine ⟨{ s₃ with fault := true }, ?_, rfl, fun hw => Bool.noConfusion hw.noFault⟩
  have hsplit : replicate 65 (Event.allocate 0x11000) ++ [.free 0x11008] =
      replicate 63 (.allocate 0x11000) ++ [.allocate 0x11000, .allocate 0x11000, .free 0x11008] := by
    rw [show 65 = 63 + 2 from rfl, replicate_add, append_assoc]
    rfl
  rw [hsplit, run_append, hrun, Option.bind_some]
  refine run_cons_eq_some.2 ⟨s₂, hs₂, run_cons_eq_some.2 ⟨s₃, hs₃, ?_⟩⟩
  exact run_cons_eq_some.2 ⟨_, hfree, rfl⟩

end Histories

end Slub.PerCpu

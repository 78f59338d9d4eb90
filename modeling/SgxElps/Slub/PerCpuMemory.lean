/-
**The fields and the links of slabs that do not overlap.**

The slabs of a cache lie in separate pieces of memory.  Storing to a field of one of them is then an
update of that field and of nothing else, and the list surgery is an update of links.  The headers of
the objects are left alone as long as they lie in the memory of their slab, behind its structure.

Main definitions: `Body`, `Lists`.
Main results: `Lists.move`, `slabAllocateObject_spec`, `slabFreeObject_spec`.
-/

import SgxElps.Slub.PerCpu
import SgxElps.Lib.Dll
import Mathlib.Tactic.SplitIfs

namespace Slub.PerCpu

open Function (update update_of_ne update_self)
open Span

open Bytes

variable {m m' : Mem} {S : List ℕ} {b c d v h : ℕ}

/-! ### Slabs that do not overlap -/

/-- The structures of the slabs do not overlap, and none of them is at null. -/
structure Separated (S : List ℕ) : Prop where
  apart : ∀ b ∈ S, ∀ c ∈ S, b ≠ c → b + slabSize ≤ c ∨ c + slabSize ≤ b
  ne_zero : ∀ b ∈ S, b ≠ 0
  lt : ∀ b ∈ S, b + slabSize ≤ 2 ^ 64

/-- The fields of a slab that are not links. -/
structure Body where
  slots : ℕ
  freeNr : ℕ
  sizeEach : ℕ
  slubCache : ℕ
  bitmap : BitVec 64

def body (m : Mem) (b : ℕ) : Body := ⟨slots m b, freeNr m b, sizeEach m b, slubCache m b, bitmap m b⟩

section Fields

variable {sl : Body} (hsl : body m b = sl)
include hsl

theorem slots_of_body : slots m b = sl.slots := by
  rw [← hsl]
  rfl

theorem freeNr_of_body : freeNr m b = sl.freeNr := by
  rw [← hsl]
  rfl

theorem sizeEach_of_body : sizeEach m b = sl.sizeEach := by
  rw [← hsl]
  rfl

theorem bitmap_of_body : bitmap m b = sl.bitmap := by
  rw [← hsl]
  rfl

end Fields

theorem freeNr_congr (h : body m' b = body m b) : freeNr m' b = freeNr m b := by
  rw [freeNr_of_body h]
  rfl

theorem bitmap_congr (h : body m' b = body m b) : bitmap m' b = bitmap m b := by
  rw [bitmap_of_body h]
  rfl

/-- The addresses of the links of the slabs. -/
def links (S : List ℕ) : Set ℕ := { x | ∃ b ∈ S, x ∈ bytes ⟨b, 16⟩ }

theorem span_subset_links (hb : b ∈ S) {a n : ℕ} (h1 : b ≤ a) (h2 : a + n ≤ b + 16) :
    bytes ⟨a, n⟩ ⊆ links S :=
  fun _ hx => ⟨b, hb, mem_bytes_of_le hx h1 h2⟩

theorem body_eq (hagree : ∀ x, b + 16 ≤ x → x < b + 72 → m' x = m x) : body m' b = body m b := by
  have hread : ∀ a n, b + 16 ≤ a → a + n ≤ b + 72 → read m' a n = read m a n :=
    fun a n h1 h2 => read_congr fun x hx hx' => hagree x (by omega) (by omega)
  unfold body slots freeNr sizeEach slubCache bitmap
  rw [hread (b + 16) 8 (by omega) (by omega), hread (b + 24) 4 (by omega) (by omega),
    hread (b + 28) 4 (by omega) (by omega), hread (b + 32) 8 (by omega) (by omega),
    hread (b + 64) 8 (by omega) (by omega)]

/-- Changing links changes nothing else of a slab … -/
theorem body_of_links (hS : Separated S) (hm : AgreeOff (links S) m m') (hb : b ∈ S) :
    body m' b = body m b := by
  refine body_eq fun x h1 h2 => hm x ?_
  rintro ⟨c, hc, h3, h4⟩
  simp only at h3 h4
  by_cases hbc : b = c
  · omega
  · have := hS.apart b hb c hc hbc
    rw [slabSize] at this
    omega

theorem read_of_links (hm : AgreeOff (links S) m m')
    (hout : ∀ b ∈ S, h + 8 ≤ b ∨ b + slabSize ≤ h) : read m' h 8 = read m h 8 := by
  refine hm.read_eq ?_
  rintro x ⟨hx1, hx2⟩ ⟨b, hb, h3, h4⟩
  have := hout b hb
  rw [slabSize] at this
  simp only at hx1 hx2 h3 h4
  omega

/-! ### Links -/

section Links

variable (hS : Separated S) (hc : c ∈ S) (hd : d ∈ S)
include hS hc hd

theorem next_setNext (hv : v < 2 ^ 64) : next (setNext m c v) d = if d = c then v else next m d := by
  unfold next setNext
  split_ifs with hdc
  · rw [hdc, read_write_self]
    exact Nat.mod_eq_of_lt hv
  · have := hS.apart d hd c hc hdc
    rw [slabSize] at this
    exact read_write_of_disjoint (by omega)

theorem prev_setNext : prev (setNext m c v) d = prev m d := by
  unfold prev setNext
  refine read_write_of_disjoint ?_
  by_cases hdc : d = c
  · omega
  · have := hS.apart d hd c hc hdc
    rw [slabSize] at this
    omega

theorem next_setPrev : next (setPrev m c v) d = next m d := by
  unfold next setPrev
  refine read_write_of_disjoint ?_
  by_cases hdc : d = c
  · omega
  · have := hS.apart d hd c hc hdc
    rw [slabSize] at this
    omega

theorem prev_setPrev (hv : v < 2 ^ 64) : prev (setPrev m c v) d = if d = c then v else prev m d := by
  unfold prev setPrev
  split_ifs with hdc
  · rw [hdc, read_write_self]
    exact Nat.mod_eq_of_lt hv
  · have := hS.apart d hd c hc hdc
    rw [slabSize] at this
    exact read_write_of_disjoint (by omega)

end Links

theorem Separated.lt_two_pow (hS : Separated S) (hb : b ∈ S) : b < 2 ^ 64 := by
  have := hS.lt b hb
  rw [slabSize] at this
  omega

theorem next_lt (m : Mem) (b : ℕ) : next m b < 2 ^ 64 := read_lt m b 8

theorem prev_lt (m : Mem) (b : ℕ) : prev m b < 2 ^ 64 := read_lt m (b + 8) 8

theorem agreeOff_setNext (hb : b ∈ S) (hm : AgreeOff (links S) m m') :
    AgreeOff (links S) m (setNext m' b v) :=
  hm.write (span_subset_links hb (le_refl _) (by omega))

theorem agreeOff_setPrev (hb : b ∈ S) (hm : AgreeOff (links S) m m') :
    AgreeOff (links S) m (setPrev m' b v) :=
  hm.write (span_subset_links hb (by omega) (by omega))

/-! ### The list surgery -/

section Surgery

variable {head obj : ℕ} (hS : Separated S) (hobj : obj ∈ S)
include hS hobj

theorem listAddHead_spec (hhead : head ∈ S ∨ head = 0) :
    (listAddHead m head obj).2 = obj ∧ AgreeOff (links S) m (listAddHead m head obj).1 ∧
      (∀ d ∈ S, next (listAddHead m head obj).1 d = if d = obj then head else next m d) ∧
      ∀ d ∈ S, prev (listAddHead m head obj).1 d =
        if d = obj then 0 else if d = head then obj else prev m d := by
  have hobj_lt := hS.lt_two_pow hobj
  have hhead_lt : head < 2 ^ 64 := by
    rcases hhead with hmem | rfl
    · exact hS.lt_two_pow hmem
    · decide
  have hnext : next (setNext m obj head) obj = head := by
    rw [next_setNext hS hobj hobj hhead_lt, if_pos rfl]
  have h1 : AgreeOff (links S) m (setNext m obj head) := agreeOff_setNext hobj (AgreeOff.refl _ _)
  unfold listAddHead
  dsimp only
  rw [hnext]
  refine ⟨rfl, ?_⟩
  rcases hhead with hmem | rfl
  · rw [if_pos (hS.ne_zero head hmem)]
    refine ⟨agreeOff_setPrev hobj (agreeOff_setPrev hmem h1), fun d hd => ?_, fun d hd => ?_⟩
    · rw [next_setPrev hS hobj hd, next_setPrev hS hmem hd, next_setNext hS hobj hd hhead_lt]
    · rw [prev_setPrev hS hobj hd (by decide), prev_setPrev hS hmem hd hobj_lt,
        prev_setNext hS hobj hd]
  · rw [if_neg (by simp)]
    refine ⟨agreeOff_setPrev hobj h1, fun d hd => ?_, fun d hd => ?_⟩
    · rw [next_setPrev hS hobj hd, next_setNext hS hobj hd hhead_lt]
    · rw [prev_setPrev hS hobj hd (by decide), prev_setNext hS hobj hd, if_neg (hS.ne_zero d hd)]

/-- The links after `list_del`, of the other slabs. -/
theorem listDel_spec (hnext : next m obj ∈ S ∨ next m obj = 0)
    (hprev : prev m obj ∈ S ∨ prev m obj = 0) (hpobj : prev m obj ≠ obj) :
    (listDel m head obj).2 = (if prev m obj ≠ 0 then head else next m obj) ∧
      AgreeOff (links S) m (listDel m head obj).1 ∧
      (∀ d ∈ S, d ≠ obj → next (listDel m head obj).1 d =
        if d = prev m obj then next m obj else next m d) ∧
      ∀ d ∈ S, d ≠ obj → prev (listDel m head obj).1 d =
        if d = next m obj then prev m obj else prev m d := by
  -- the memory after the first assignment
  obtain ⟨m₁, hm1, hlinks1, hnext1, hprev1, hself⟩ : ∃ m₁,
      (if prev m obj ≠ 0 then (setNext m (prev m obj) (next m obj), head) else (m, next m obj)) =
        (m₁, if prev m obj ≠ 0 then head else next m obj) ∧
      AgreeOff (links S) m m₁ ∧
      (∀ d ∈ S, next m₁ d = if d = prev m obj then next m obj else next m d) ∧
      (∀ d ∈ S, prev m₁ d = prev m d) ∧ next m₁ obj = next m obj := by
    by_cases h0 : prev m obj = 0
    · refine ⟨m, by simp [h0], AgreeOff.refl _ _, fun d hd => ?_, fun _ _ => rfl, rfl⟩
      rw [h0, if_neg (hS.ne_zero d hd)]
    · have hmem := hprev.resolve_right h0
      refine ⟨setNext m (prev m obj) (next m obj), by simp [h0],
        agreeOff_setNext hmem (AgreeOff.refl _ _), fun d hd => ?_, fun d hd => ?_, ?_⟩
      · exact next_setNext hS hmem hd (next_lt m obj)
      · exact prev_setNext hS hmem hd
      · rw [next_setNext hS hmem hobj (next_lt m obj), if_neg hpobj.symm]
  -- and after the second one
  obtain ⟨m₂, hm2, hlinks2, hnext2, hprev2⟩ : ∃ m₂,
      (if next m₁ obj ≠ 0 then setPrev m₁ (next m₁ obj) (prev m₁ obj) else m₁) = m₂ ∧
      AgreeOff (links S) m m₂ ∧ (∀ d ∈ S, next m₂ d = next m₁ d) ∧
      ∀ d ∈ S, prev m₂ d = if d = next m obj then prev m obj else prev m d := by
    rw [hself, hprev1 obj hobj]
    by_cases h0 : next m obj = 0
    · refine ⟨m₁, by simp [h0], hlinks1, fun _ _ => rfl, fun d hd => ?_⟩
      rw [h0, if_neg (hS.ne_zero d hd), hprev1 d hd]
    · have hmem := hnext.resolve_right h0
      refine ⟨setPrev m₁ (next m obj) (prev m obj), by simp [h0], agreeOff_setPrev hmem hlinks1,
        fun d hd => next_setPrev hS hmem hd, fun d hd => ?_⟩
      rw [prev_setPrev hS hmem hd (prev_lt m obj), hprev1 d hd]
  unfold listDel
  simp only [hm1, hm2]
  refine ⟨trivial, agreeOff_setNext hobj (agreeOff_setPrev hobj hlinks2), fun d hd hne => ?_,
    fun d hd hne => ?_⟩
  · rw [next_setNext hS hobj hd (by decide), if_neg hne, next_setPrev hS hobj hd, hnext2 d hd,
      hnext1 d hd]
  · rw [prev_setNext hS hobj hd, prev_setPrev hS hobj hd (by decide), if_neg hne, hprev2 d hd]

end Surgery

/-! ### Moving a slab to another list -/

/-- The lists of a cache: disjoint, and made up of the slabs. -/
structure Lists (m : Mem) (head : ListKind → ℕ) (S : List ℕ) (L : ListKind → List ℕ) : Prop where
  dll : ∀ kind, Dll (next m) (prev m) (head kind) (L kind)
  mem_slabs : ∀ {kind b}, b ∈ L kind → b ∈ S
  unique : ∀ {kind kind' b}, b ∈ L kind → b ∈ L kind' → kind = kind'

namespace Lists

variable {head : ListKind → ℕ} {L : ListKind → List ℕ} {src dst kind : ListKind}

theorem head_mem (h : Lists m head S L) (h0 : head kind ≠ 0) : head kind ∈ L kind := by
  obtain ⟨l, hl⟩ := (h.dll kind).head_eq h0
  rw [hl]
  exact List.mem_cons_self

theorem head_mem_or (h : Lists m head S L) : head kind ∈ S ∨ head kind = 0 := by
  by_cases h0 : head kind = 0
  · exact Or.inr h0
  · exact Or.inl (h.mem_slabs (h.head_mem h0))

theorem congr (h : Lists m head S L)
    (heq : ∀ b ∈ S, next m' b = next m b ∧ prev m' b = prev m b) : Lists m' head S L :=
  { h with dll := fun kind => (h.dll kind).congr fun b hb => heq b (h.mem_slabs hb) }

theorem mem_erase (h : Lists m head S L) {kind : ListKind} :
    c ∈ update L src ((L src).erase b) kind ↔ c ∈ L kind ∧ ¬ (kind = src ∧ c = b) := by
  by_cases hk : kind = src
  · subst hk
    rw [update_self, (h.dll kind).nodup.mem_erase_iff]
    simp [and_comm]
  · rw [update_of_ne hk]
    simp [hk]

theorem del (h : Lists m head S L) (hS : Separated S) (hb : b ∈ L src) :
    AgreeOff (links S) m (listDel m (head src) b).1 ∧
      Lists (listDel m (head src) b).1 (update head src (listDel m (head src) b).2) S
        (update L src ((L src).erase b)) := by
  have hbS := h.mem_slabs hb
  have hnext : next m b ∈ S ∨ next m b = 0 := ((h.dll src).next_mem hb).imp_left h.mem_slabs
  have hpmem : prev m b ∈ L src ∨ prev m b = 0 :=
    ((h.dll src).prev_mem hb).elim (fun hp => Or.inr hp.2) fun hp => Or.inl hp.2
  obtain ⟨hhead, hlinks, hnext', hprev'⟩ := listDel_spec hS hbS hnext
    (hpmem.imp_left h.mem_slabs) ((h.dll src).prev_ne hb)
  refine ⟨hlinks, ⟨fun kind => ?_, fun hc => h.mem_slabs (h.mem_erase.1 hc).1, fun hc hc' => ?_⟩⟩
  · by_cases hk : kind = src
    · subst hk
      rw [update_self, update_self, hhead]
      exact (h.dll kind).del hb (fun c hc => hnext' c (h.mem_slabs hc))
        fun c hc => hprev' c (h.mem_slabs hc)
    · rw [update_of_ne hk, update_of_ne hk]
      -- the slabs of the other lists are not next to `b`
      refine (h.dll kind).congr fun c hc => ?_
      have hne : ∀ d ∈ L src, c ≠ d := fun d hd heq => hk (h.unique hc (heq ▸ hd))
      have hc0 := (h.dll kind).ne_zero hc
      have hcn : c ≠ next m b := by
        rcases (h.dll src).next_mem hb with hmem | hnull
        · exact hne _ hmem
        · rw [hnull]
          exact hc0
      have hcp : c ≠ prev m b := by
        rcases hpmem with hmem | hnull
        · exact hne _ hmem
        · rw [hnull]
          exact hc0
      rw [hnext' c (h.mem_slabs hc) (hne b hb), hprev' c (h.mem_slabs hc) (hne b hb), if_neg hcp,
        if_neg hcn]
      exact ⟨rfl, rfl⟩
  · exact h.unique (h.mem_erase.1 hc).1 (h.mem_erase.1 hc').1

theorem mem_cons {kind : ListKind} :
    c ∈ update L dst (b :: L dst) kind ↔ c ∈ L kind ∨ (kind = dst ∧ c = b) := by
  by_cases hk : kind = dst
  · subst hk
    rw [update_self, List.mem_cons]
    simp [or_comm]
  · rw [update_of_ne hk]
    simp [hk]

/-- `list_add_head` of a slab that is in no list. -/
theorem addHead (dst : ListKind) (h : Lists m head S L) (hS : Separated S) (hbS : b ∈ S)
    (hb : ∀ kind, b ∉ L kind) :
    AgreeOff (links S) m (listAddHead m (head dst) b).1 ∧
      Lists (listAddHead m (head dst) b).1 (update head dst (listAddHead m (head dst) b).2) S
        (update L dst (b :: L dst)) := by
  obtain ⟨hhead, hlinks, hnext', hprev'⟩ := listAddHead_spec (m := m) hS hbS h.head_mem_or
  refine ⟨hlinks, ⟨fun kind => ?_, fun {kind c} hc => ?_, fun {kind kind' c} hc hc' => ?_⟩⟩
  · have hcb : ∀ c ∈ L kind, c ≠ b := fun c hc heq => hb kind (heq ▸ hc)
    by_cases hk : kind = dst
    · subst hk
      rw [update_self, update_self, hhead]
      refine (h.dll kind).addHead (hb kind) (hS.ne_zero b hbS) ?_ ?_ (fun c hc => ?_) fun c hc => ?_
      · rw [hnext' b hbS, if_pos rfl]
      · rw [hprev' b hbS, if_pos rfl]
      · rw [hnext' c (h.mem_slabs hc), if_neg (hcb c hc)]
      · rw [hprev' c (h.mem_slabs hc), if_neg (hcb c hc)]
    · rw [update_of_ne hk, update_of_ne hk]
      refine (h.dll kind).congr fun c hc => ?_
      have hch : c ≠ head dst := by
        by_cases h0 : head dst = 0
        · rw [h0]
          exact (h.dll kind).ne_zero hc
        · exact fun heq => hk (h.unique hc (heq ▸ h.head_mem h0))
      rw [hnext' c (h.mem_slabs hc), hprev' c (h.mem_slabs hc), if_neg (hcb c hc),
        if_neg (hcb c hc), if_neg hch]
      exact ⟨rfl, rfl⟩
  · rcases mem_cons.1 hc with hc | ⟨-, rfl⟩
    · exact h.mem_slabs hc
    · exact hbS
  · rcases mem_cons.1 hc with hc | ⟨hk, hcb⟩
    · rcases mem_cons.1 hc' with hc' | ⟨-, hcb⟩
      · exact h.unique hc hc'
      · exact absurd (hcb ▸ hc) (hb kind)
    · rcases mem_cons.1 hc' with hc' | ⟨hk', -⟩
      · exact absurd (hcb ▸ hc') (hb kind')
      · rw [hk, hk']

end Lists

/-- **A slab is moved to the front of another list.** -/
theorem Lists.move {s : State} {L : ListKind → List ℕ} {src : ListKind} (dst : ListKind)
    (h : Lists s.mem s.head S L) (hS : Separated S) (hb : b ∈ L src) :
    AgreeOff (links S) s.mem (s.move src dst b).mem ∧
      ∃ L', Lists (s.move src dst b).mem (s.move src dst b).head S L' ∧
        ∀ kind c, c ∈ L' kind ↔ (c ≠ b ∧ c ∈ L kind) ∨ (c = b ∧ kind = dst) := by
  obtain ⟨hlinks1, h1⟩ := h.del hS hb
  have hnot : ∀ kind, b ∉ update L src ((L src).erase b) kind := by
    intro kind hmem
    obtain ⟨hmem, hno⟩ := h.mem_erase.1 hmem
    exact hno ⟨h.unique hmem hb, rfl⟩
  obtain ⟨hlinks2, h2⟩ := h1.addHead dst hS (h.mem_slabs hb) hnot
  refine ⟨hlinks1.trans hlinks2, _, h2, fun kind c => ?_⟩
  rw [Lists.mem_cons, h.mem_erase]
  by_cases hcb : c = b
  · subst hcb
    have hone : c ∈ L kind ↔ kind = src := ⟨fun hc => h.unique hc hb, fun hk => hk ▸ hb⟩
    simp [hone]
  · simp [hcb]

/-! ### Slots -/

theorem stride_eq {size : ℕ} (h : size < 2 ^ 31) : stride size = size + headerSize := by
  rw [stride, if_pos h, headerSize]
  omega

theorem body_setBitmap (m : Mem) (b : ℕ) (w : BitVec 64) :
    body (setBitmap m b w) b = { body m b with bitmap := w } := by
  have hread : ∀ a n, a + n ≤ b + 64 →
      read (setBitmap m b w) a n = read m a n := fun a n h =>
    read_write_of_disjoint (by omega)
  have hself : read (setBitmap m b w) (b + 64) 8 = w.toNat := by
    rw [setBitmap, read_write_self]
    exact Nat.mod_eq_of_lt w.isLt
  unfold body slots freeNr sizeEach slubCache bitmap
  rw [hread (b + 16) 8 (by omega), hread (b + 24) 4 (by omega), hread (b + 28) 4 (by omega),
    hread (b + 32) 8 (by omega), hself, BitVec.ofNat_toNat, BitVec.setWidth_eq]

theorem body_setFreeNr (m : Mem) (b v : ℕ) :
    body (setFreeNr m b v) b = { body m b with freeNr := v % 2 ^ 32 } := by
  have hread : ∀ a n, a + n ≤ b + 24 ∨ b + 28 ≤ a →
      read (setFreeNr m b v) a n = read m a n := fun a n h =>
    read_write_of_disjoint (by omega)
  have hself : read (setFreeNr m b v) (b + 24) 4 = v % 2 ^ 32 := read_write_self
  unfold body slots freeNr sizeEach slubCache bitmap
  rw [hread (b + 16) 8 (by omega), hself, hread (b + 28) 4 (by omega), hread (b + 32) 8 (by omega),
    hread (b + 64) 8 (by omega)]

/-- What a store to the fields of `b` behind the links leaves alone. -/
def BodyOnly (b : ℕ) (m m' : Mem) : Prop := AgreeOff (bytes ⟨b + 16, 56⟩) m m'

theorem BodyOnly.setBitmap (hm : BodyOnly b m m') (w : BitVec 64) : BodyOnly b m (setBitmap m' b w) :=
  AgreeOff.write hm (bytes_subset (by simp only; omega) (by simp only; omega))

theorem BodyOnly.setFreeNr (hm : BodyOnly b m m') (v : ℕ) : BodyOnly b m (setFreeNr m' b v) :=
  AgreeOff.write hm (bytes_subset (by simp only; omega) (by simp only; omega))

/-- **Taking a slot.** -/
theorem slabAllocateObject_spec {size k : ℕ} (hk : BitWord.firstClear (bitmap m b) = some k)
    (hsize : sizeEach m b = size) (hlt : size < 2 ^ 31) (hh : slots m b + k * (size + headerSize) = h)
    (hend : h + headerSize < 2 ^ 64) (hout : h + 8 ≤ b ∨ b + slabSize ≤ h) (hb : b < 2 ^ 64)
    (hfree : 0 < freeNr m b) :
    ∃ m₁, slabAllocateObject m b = some (m₁, h + headerSize) ∧
      body m₁ b = { body m b with
        freeNr := freeNr m b - 1, bitmap := bitmap m b ||| BitVec.twoPow 64 k } ∧
      read m₁ h 8 = b ∧
      AgreeOff (bytes ⟨b + 16, 56⟩ ∪ bytes ⟨h, 8⟩) m m₁ := by
  rw [headerSize] at hend
  rw [slabSize] at hout
  -- the bit, the header and the count, one after the other
  obtain ⟨m₁, hm1⟩ : ∃ m₁, m₁ = setBitmap m b (bitmap m b ||| BitVec.twoPow 64 k) := ⟨_, rfl⟩
  obtain ⟨m₂, hm2⟩ : ∃ m₂, m₂ = write m₁ h 8 b := ⟨_, rfl⟩
  have hbody1 : body m₁ b = { body m b with bitmap := bitmap m b ||| BitVec.twoPow 64 k } := by
    rw [hm1, body_setBitmap]
  have hbody2 : body m₂ b = body m₁ b := by
    refine body_eq fun x h1 h2 => ?_
    rw [hm2, write_of_notMem (by omega)]
  have hslots : slots m₁ b = slots m b := slots_of_body hbody1
  have hsize1 : sizeEach m₁ b = size := (sizeEach_of_body hbody1).trans hsize
  have hret : (slots m₁ b + k * stride (sizeEach m₁ b) + headerSize) % 2 ^ 64 = h + headerSize := by
    rw [hslots, hsize1, stride_eq hlt, hh, headerSize]
    omega
  have hheader : (h + headerSize + (2 ^ 64 - headerSize)) % 2 ^ 64 = h := by
    rw [headerSize]
    omega
  have hfree2 : freeNr m₂ b = freeNr m b :=
    (freeNr_of_body hbody2).trans (freeNr_of_body hbody1)
  have hfreelt : freeNr m b < 2 ^ 32 := read_lt m (b + 24) 4
  refine ⟨setFreeNr m₂ b (freeNr m₂ b + (2 ^ 32 - 1)), ?_, ?_, ?_, ?_⟩
  · rw [slabAllocateObject, hk, Option.map_some]
    dsimp only
    rw [← hm1, hret, hheader, ← hm2]
  · have hdec : (freeNr m₂ b + (2 ^ 32 - 1)) % 2 ^ 32 = freeNr m b - 1 := by
      rw [hfree2]
      omega
    rw [body_setFreeNr, hbody2, hbody1, hdec]
  · rw [setFreeNr, read_write_of_disjoint (by omega), hm2, read_write_self]
    exact Nat.mod_eq_of_lt hb
  · have hfields : ∀ a n, b + 16 ≤ a → a + n ≤ b + 72 → bytes ⟨a, n⟩ ⊆
        bytes ⟨b + 16, 56⟩ ∪ bytes ⟨h, 8⟩ := fun a n h1 h2 =>
      Set.subset_union_of_subset_left (bytes_subset h1 (by simp only; omega)) _
    have h1 : AgreeOff (bytes ⟨b + 16, 56⟩ ∪ bytes ⟨h, 8⟩) m m₁ := by
      rw [hm1]
      exact (AgreeOff.refl _ _).write (hfields _ _ (by omega) (by omega))
    have h2 : AgreeOff (bytes ⟨b + 16, 56⟩ ∪ bytes ⟨h, 8⟩) m m₂ := by
      rw [hm2]
      exact h1.write Set.subset_union_right
    exact h2.write (hfields _ _ (by omega) (by omega))

/-- **The slot of a header.** -/
theorem slotOf_eq {size k : ℕ} (hsize : sizeEach m b = size) (hlt : size < 2 ^ 31)
    (hk : k < objectsPerSlab) (hh : slots m b + k * (size + headerSize) = h) (hend : h < 2 ^ 64) :
    slotOf m b h = k := by
  rw [slotOf, hsize, stride_eq hlt, ← hh]
  rw [headerSize] at *
  rw [objectsPerSlab] at hk
  have hsub : (slots m b + k * (size + 8) + (2 ^ 64 - slots m b)) % 2 ^ 64 = k * (size + 8) := by
    have : k * (size + 8) < 2 ^ 64 := by omega
    omega
  rw [hsub, Nat.mul_div_cancel _ (by omega)]
  omega

/-- **Giving a slot back.** -/
theorem slabFreeObject_spec {k : ℕ} (hslot : slotOf m b h = k) (hk : k < objectsPerSlab)
    (hfree : freeNr m b < objectsPerSlab) :
    ∃ m₁, slabFreeObject m b h = some m₁ ∧
      body m₁ b = { body m b with
        freeNr := freeNr m b + 1, bitmap := bitmap m b &&& ~~~BitVec.twoPow 64 k } ∧
      BodyOnly b m m₁ := by
  let m₁ := setBitmap m b (bitmap m b &&& ~~~BitVec.twoPow 64 k)
  have hbody1 : body m₁ b = { body m b with bitmap := bitmap m b &&& ~~~BitVec.twoPow 64 k } :=
    body_setBitmap m b _
  have hfree1 : freeNr m₁ b = freeNr m b := freeNr_of_body hbody1
  refine ⟨setFreeNr m₁ b (freeNr m₁ b + 1), ?_, ?_, ?_⟩
  · rw [slabFreeObject, hslot]
    exact if_pos hk
  · have hinc : (freeNr m₁ b + 1) % 2 ^ 32 = freeNr m b + 1 := by
      rw [objectsPerSlab] at hfree
      rw [hfree1]
      omega
    rw [body_setFreeNr, hbody1, hinc]
  · have h0 : BodyOnly b m m := AgreeOff.refl _ _
    exact (h0.setBitmap _).setFreeNr _

/-- A new slab. -/
theorem mapSlab_spec (cfg : Config) (m : Mem) (b : ℕ) :
    body (mapSlab cfg m b) b = ⟨slabMem b cfg.size % 2 ^ 64, objectsPerSlab, cfg.size % 2 ^ 32,
      cfg.self % 2 ^ 64, 0⟩ ∧
    next (mapSlab cfg m b) b = 0 ∧ prev (mapSlab cfg m b) b = 0 ∧
    AgreeOff (bytes ⟨b, slabSize⟩) m (mapSlab cfg m b) := by
  refine ⟨?_, ?_, ?_, ?_⟩
  · unfold mapSlab newSlab
    simp (disch := omega) only [body, slots, freeNr, sizeEach, slubCache, bitmap, setNext, setPrev,
      setSlots, setFreeNr, setSizeEach, setSlubCache, setBitmap, read_write_of_disjoint,
      read_write_self]
    rfl
  · unfold mapSlab newSlab
    simp (disch := omega) only [next, setNext, setPrev, setSlots, setFreeNr, setSizeEach, setSlubCache,
      setBitmap, read_write_of_disjoint, read_write_self, Nat.zero_mod]
  · unfold mapSlab newSlab
    simp (disch := omega) only [prev, setNext, setPrev, setSlots, setFreeNr, setSizeEach, setSlubCache,
      setBitmap, read_write_of_disjoint, read_write_self, Nat.zero_mod]
  · have hw : ∀ {m' : Mem} (a n v : ℕ), b ≤ a → a + n ≤ b + slabSize →
        AgreeOff (bytes ⟨b, slabSize⟩) m m' →
        AgreeOff (bytes ⟨b, slabSize⟩) m (write m' a n v) := fun a n v h1 h2 hm =>
      hm.write (bytes_subset h1 h2)
    unfold mapSlab newSlab setNext setPrev setSlots setFreeNr setSizeEach setSlubCache setBitmap
    dsimp only [slabSize] at hw ⊢
    repeat' refine hw _ _ _ (by omega) (by omega) ?_
    exact AgreeOff.refl _ _

end Slub.PerCpu

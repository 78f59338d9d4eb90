/-
**What `fillArgs` leaves.**

`__async_syscall` has stored the format and the arguments in the request; `fillArgs` then writes the sizes
and the addresses of the copies there, and the copies into blocks of unsafe memory.  Nothing is assumed about
where the pointers among the arguments lead.  Most calls are flat: each pointer is copied for itself.  The
enclave has `2 ^ 31` bytes: the loader rounds four times `SAFE_HEAP_LEN` up to a power of two.

Main definitions: `Prepared`, `Marshalling`, `Prepared.Intact`.
Main results: `Marshalling.fill_kept`, `Marshalling.fields_fill`, `Marshalling.content_fill`.
-/

import SgxElps.Syscall.Marshal

namespace Syscall

open Bytes
open Span
open List

def enclaveLen : ℕ := 2 ^ 31

theorem request_below_enclave :
    ∀ x ∈ bytes ⟨0x100, requestSize⟩, x ∉ bytes ⟨0x1000, enclaveLen⟩ := by
  intro x hx
  rw [mem_bytes, requestSize] at hx
  rw [mem_bytes]
  omega

/-- `args[i].data`. -/
def dataAt (m : Mem) (req i : ℕ) : ℕ := read m (req + 128 + 16 * i) 8

/-- The rounds of a loop up to a count that is a `long`. -/
def rounds (count : ℕ) : ℕ := if count < 2 ^ 63 then count else 0

/-- A call before `fillArgs`: the request has been given its format and its arguments. -/
structure Prepared where
  n : ℕ
  types : List ArgType
  mem : Mem
  arg : ℕ → ℕ
  base : ℕ
  req : ℕ
  alloc : Alloc
  supported : interpretSyscall n = some types
  syscallNum_eq : syscallNum mem req = n
  types_eq : ∀ i t, types[i]? = some t → typesAt mem req i = t.code
  arg_eq : ∀ i < types.length, argAt mem req i = arg i
  request_unsafe : ∀ x ∈ bytes ⟨req, requestSize⟩, x ∉ bytes ⟨base, enclaveLen⟩

/-- The blocks do not overlap each other, the request or the enclave. -/
structure Marshalling extends Prepared where
  fresh : Fresh (bytes ⟨base, enclaveLen⟩ ∪ bytes ⟨req, requestSize⟩)
    (fillArgs alloc mem req n types arg).blocks

namespace Prepared

section Defs

variable (c : Prepared)

def enclave : Set ℕ := bytes ⟨c.base, enclaveLen⟩

def request : Set ℕ := bytes ⟨c.req, requestSize⟩

/-- The loop of `fillArgs` over the first `k` arguments. -/
def fillTo (k : ℕ) : Fill := fillUpTo c.alloc c.mem c.req c.n c.types c.arg k

/-- After `fillArgs`. -/
def fill : Fill := fillArgs c.alloc c.mem c.req c.n c.types c.arg

/-- The length of the copy of argument `k`, as `getSize` computes it when it is the turn of `k`. -/
def size (k : ℕ) : ℕ := getSize c.n c.types c.arg (c.fillTo k).mem k

/-- The block of argument `k`. -/
def block (k : ℕ) : Span := (c.fillTo k).block c.alloc (c.size k)

/-- The argument is a pointer. -/
def IsPointer (k : ℕ) : Prop := c.types[k]?.getD .nonPtr ≠ .nonPtr

instance (k : ℕ) : Decidable (c.IsPointer k) := inferInstanceAs (Decidable (_ ≠ _))

/-- Nothing but the arguments themselves is copied. -/
def Flat : Prop := c.n ≠ sysWritev ∧ c.n ≠ sysRecvmsg ∧ c.n ≠ sysSendmsg

/-- Before the nested copies of argument `k`. -/
def shallow (k : ℕ) : Fill :=
  let m := write (write (c.fillTo k).mem (c.req + 92 + 4 * k) 4 (c.size k)) (c.req + 128 + 16 * k) 8
    (c.block k).start
  ⟨if c.arg k = 0 then m else copy m (c.block k).start (c.arg k) (c.size k),
    (c.fillTo k).blocks ++ [c.block k]⟩

/-- After the nested copies of argument `k`. -/
def deep (k : ℕ) : Fill :=
  deepCopy c.alloc (c.shallow k) c.n (c.arg k) (c.block k).start (c.arg (k + 1))

/-- The fields of the request that belong to argument `k`. -/
def fields (k : ℕ) : Set ℕ :=
  bytes ⟨c.req + 92 + 4 * k, 4⟩ ∪ bytes ⟨c.req + 120 + 16 * k, 16⟩

/-- Nested copies leave the enclave and the request alone. -/
def Intact : Prop :=
  ∀ k, c.IsPointer k → ∀ x ∈ c.enclave ∪ c.request, (c.deep k).mem x = (c.shallow k).mem x

end Defs

variable {c : Prepared} {i k : ℕ}

/-! ### One argument -/

theorem types_length_le (c : Prepared) : c.types.length ≤ 6 :=
  types_length_le_of_supported c.supported

theorem IsPointer.lt (h : c.IsPointer k) : k < c.types.length := by
  by_contra hk
  exact h (by rw [getElem?_eq_none (by omega)]; rfl)

theorem IsPointer.lt_six (h : c.IsPointer k) : k < 6 :=
  lt_of_lt_of_le h.lt c.types_length_le

theorem types_of_eq {n : ℕ} {types : List ArgType} (h : c.n = n)
    (ht : interpretSyscall n = some types) : c.types = types := by
  have hsup := c.supported
  rw [h, ht] at hsup
  exact (Option.some.inj hsup).symm

/-- In the calls with nested copies only argument 1 is a pointer. -/
theorem eq_one_of_isPointer {t : ArgType} (ht : c.types = [.nonPtr, t, .nonPtr])
    (hk : c.IsPointer k) : k = 1 := by
  have hlt := hk.lt
  rw [IsPointer] at hk
  rw [ht] at hk hlt
  match k, hlt with
  | 0, _ => exact absurd rfl hk
  | 1, _ => rfl
  | 2, _ => exact absurd rfl hk

theorem fillTo_succ_of_not (h : ¬ c.IsPointer k) : c.fillTo (k + 1) = c.fillTo k := by
  rw [fillTo, fillUpTo, fillArg, if_pos (not_not.1 h)]
  rfl

theorem fillTo_succ (h : c.IsPointer k) : c.fillTo (k + 1) =
    ⟨write (c.deep k).mem (c.req + 120 + 16 * k) 8 (c.block k).start, (c.deep k).blocks⟩ := by
  rw [fillTo, fillUpTo, fillArg, if_neg h]
  rfl

theorem fields_subset (h : c.IsPointer k) : c.fields k ⊆ c.request := by
  have hlt := h.lt_six
  rintro x (hx | hx) <;>
    exact mem_bytes_of_le hx (by omega) (by rw [requestSize]; omega)

theorem block_mem_shallow (c : Prepared) (k : ℕ) : c.block k ∈ (c.shallow k).blocks :=
  mem_append_right _ (mem_singleton_self _)

theorem block_subset_shallow (c : Prepared) (k : ℕ) :
    (c.block k).bytes ⊆ covered (c.shallow k).blocks :=
  subset_covered (c.block_mem_shallow k)

theorem block_mem_fillTo (h : c.IsPointer i) (hik : i < k) : c.block i ∈ (c.fillTo k).blocks := by
  have hdeep : (c.shallow i).blocks <+: (c.deep i).blocks := blocks_le_deepCopy ..
  have hround : (c.fillTo (i + 1)).blocks <+: (c.fillTo k).blocks := blocks_le_fillUpTo hik
  rw [fillTo_succ h] at hround
  exact hround.subset (hdeep.subset (c.block_mem_shallow i))

theorem block_mem_fill (h : c.IsPointer k) : c.block k ∈ c.fill.blocks :=
  block_mem_fillTo h h.lt

theorem shallow_agree (c : Prepared) (k : ℕ) :
    AgreeOff (c.fields k ∪ (c.block k).bytes) (c.fillTo k).mem (c.shallow k).mem := by
  have hwrite : AgreeOff (c.fields k ∪ (c.block k).bytes) (c.fillTo k).mem
      (write (write (c.fillTo k).mem (c.req + 92 + 4 * k) 4 (c.size k)) (c.req + 128 + 16 * k) 8
        (c.block k).start) := by
    refine ((AgreeOff.refl _ _).write fun x hx => .inl (.inl hx)).write fun x hx => .inl (.inr ?_)
    exact mem_bytes_of_le hx (by omega) (by omega)
  unfold shallow
  dsimp only
  split
  · exact hwrite
  · exact hwrite.copy fun x hx => .inr hx

/-- The copy of argument `k` holds what the argument points to. -/
theorem shallow_content (h : c.IsPointer k) (hm : ∀ x ∈ c.enclave, (c.fillTo k).mem x = c.mem x)
    (harg : c.arg k ≠ 0) {o : ℕ} (ho : o < c.size k) (hin : c.arg k + o ∈ c.enclave) :
    (c.shallow k).mem ((c.block k).start + o) = c.mem (c.arg k + o) := by
  have hfields : c.arg k + o ∉ c.fields k := fun hf => c.request_unsafe _ (fields_subset h hf) hin
  simp only [fields, Set.mem_union, mem_bytes] at hfields
  unfold shallow
  dsimp only
  rw [if_neg harg, copy_add ho, write_of_notMem (by omega), write_of_notMem (by omega), hm _ hin]

theorem intact_of_one {t : ArgType} (ht : c.types = [.nonPtr, t, .nonPtr])
    (h : ∀ x ∈ c.enclave ∪ c.request, (c.deep 1).mem x = (c.shallow 1).mem x) : c.Intact := by
  intro k hk
  obtain rfl := eq_one_of_isPointer ht hk
  exact h

/-! ### Flat calls -/

section

variable (hflat : c.Flat)

include hflat

theorem flat_deep (k : ℕ) : c.deep k = c.shallow k := by
  rw [deep, deepCopy, if_neg hflat.1, if_neg (not_or.2 ⟨hflat.2.1, hflat.2.2⟩)]

theorem intact_of_flat : c.Intact := fun k _ x _ => by rw [flat_deep hflat]

theorem flat_succ (h : c.IsPointer k) : c.fillTo (k + 1) =
    ⟨write (c.shallow k).mem (c.req + 120 + 16 * k) 8 (c.block k).start,
      (c.fillTo k).blocks ++ [c.block k]⟩ := by
  rw [fillTo_succ h, flat_deep hflat]
  rfl

theorem flat_round (h : c.IsPointer k) :
    AgreeOff (c.fields k ∪ (c.block k).bytes) (c.fillTo k).mem (c.fillTo (k + 1)).mem := by
  rw [flat_succ hflat h]
  refine (c.shallow_agree k).write fun x hx => .inl (.inr ?_)
  exact mem_bytes_of_le hx (by omega) (by omega)

/-- A flat call changes the request and the blocks only. -/
theorem flat_agree (k : ℕ) :
    AgreeOff (c.request ∪ covered (c.fillTo k).blocks) c.mem (c.fillTo k).mem := by
  induction k with
  | zero => exact AgreeOff.refl _ _
  | succ k ih =>
    by_cases h : c.IsPointer k
    · have hpre : (c.fillTo k).blocks <+: (c.fillTo (k + 1)).blocks := blocks_le_fillUpTo (Nat.le_succ k)
      refine (ih.mono ?_).trans ((flat_round hflat h).mono ?_)
      · exact Set.union_subset_union_right _ (covered_mono hpre)
      · refine Set.union_subset_union (fields_subset h) (subset_covered ?_)
        exact block_mem_fillTo h (Nat.lt_succ_self k)
    · rw [fillTo_succ_of_not h]
      exact ih

end

end Prepared

namespace Marshalling

open Prepared

variable {c : Marshalling} {i k : ℕ}

/-! ### Fresh blocks -/

theorem fresh_fillTo (c : Marshalling) (hk : k ≤ c.types.length) :
    Fresh (c.enclave ∪ c.request) (c.fillTo k).blocks :=
  c.fresh.mono (blocks_le_fillUpTo hk)

theorem fresh_deep (h : c.IsPointer k) : Fresh (c.enclave ∪ c.request) (c.deep k).blocks := by
  have hfresh := c.fresh_fillTo (k := k + 1) h.lt
  rwa [fillTo_succ h] at hfresh

theorem fresh_shallow (h : c.IsPointer k) : Fresh (c.enclave ∪ c.request) (c.shallow k).blocks :=
  (fresh_deep h).mono (blocks_le_deepCopy ..)

theorem block_start_lt (h : c.IsPointer k) : (c.block k).start < 2 ^ 64 :=
  c.fresh.start_lt _ (block_mem_fill h)

/-- The block of argument `k` is apart from the enclave and the request. -/
theorem block_apart (h : c.IsPointer k) {x : ℕ} (hx : x ∈ (c.block k).bytes) :
    x ∉ c.enclave ∪ c.request :=
  c.fresh.apart _ (block_mem_fill h) x hx

/-- The block of argument `k` is apart from the blocks before it. -/
theorem block_new (h : c.IsPointer k) {x : ℕ} (hx : x ∈ (c.block k).bytes) :
    x ∉ covered (c.fillTo k).blocks := fun hcov => (fresh_shallow h).notMem_last hcov hx

theorem shallow_kept (h : c.IsPointer k) (hm : ∀ x ∈ c.enclave, (c.fillTo k).mem x = c.mem x) :
    ∀ x ∈ c.enclave, (c.shallow k).mem x = c.mem x := by
  intro x hx
  rw [c.shallow_agree k x, hm x hx]
  rintro (hf | hb)
  · exact c.request_unsafe x (fields_subset h hf) hx
  · exact block_apart h hb (.inl hx)

/-- The copy of argument `k` is not in the request. -/
theorem shallow_read (h : c.IsPointer k) {a n : ℕ} (ha : bytes ⟨a, n⟩ ⊆ c.request) :
    read (c.shallow k).mem a n = read (write (write (c.fillTo k).mem (c.req + 92 + 4 * k) 4 (c.size k))
      (c.req + 128 + 16 * k) 8 (c.block k).start) a n := by
  unfold shallow
  dsimp only
  split
  · rfl
  · refine read_congr fun x h1 h2 => copy_of_notMem ?_
    by_contra hin
    refine block_apart h ?_ (.inr (ha ⟨h1, h2⟩))
    exact (show x ∈ bytes ⟨(c.block k).start, c.size k⟩ from mem_bytes.2 (by omega))

theorem flat_untouched (hflat : c.Flat) (h : c.IsPointer k) (harg : c.arg k = 0) {x : ℕ}
    (hx : x ∈ (c.block k).bytes) : (c.fillTo (k + 1)).mem x = c.mem x := by
  have hfield : x ∉ c.fields k := fun hf => block_apart h hx (.inr (fields_subset h hf))
  rw [fields, Set.mem_union, mem_bytes, mem_bytes] at hfield
  rw [flat_succ hflat h]
  dsimp only [shallow]
  rw [if_pos harg, write_of_notMem (by omega), write_of_notMem (by omega), write_of_notMem (by omega)]
  exact flat_agree hflat k x fun hor => hor.elim (fun hreq => block_apart h hx (.inr hreq)) (block_new h hx)

/-! ### The request afterwards -/

section Request

variable (hi : c.Intact)

include hi

theorem round_kept {j x : ℕ} (hx : x ∈ c.enclave ∪ c.request) (hnot : c.IsPointer j → x ∉ c.fields j) :
    (c.fillTo (j + 1)).mem x = (c.fillTo j).mem x := by
  by_cases h : c.IsPointer j
  · have hnot := hnot h
    have hfield : ¬ (c.req + 120 + 16 * j ≤ x ∧ x < c.req + 120 + 16 * j + 16) := fun hin =>
      hnot (.inr hin)
    rw [fillTo_succ h]
    refine Eq.trans (write_of_notMem (by omega)) ?_
    rw [hi j h x hx]
    exact c.shallow_agree j x fun hor => hor.elim hnot fun hb => block_apart h hb hx
  · rw [fillTo_succ_of_not h]

theorem rounds_kept {i j x : ℕ} (hij : i ≤ j) (hx : x ∈ c.enclave ∪ c.request)
    (hnot : ∀ l, i ≤ l → c.IsPointer l → x ∉ c.fields l) :
    (c.fillTo j).mem x = (c.fillTo i).mem x := by
  induction j, hij using Nat.le_induction with
  | base => rfl
  | succ j hij ih => rw [round_kept hi hx (hnot j hij), ih]

/-- The enclave is as it was. -/
theorem fillTo_kept (k : ℕ) : ∀ x ∈ c.enclave, (c.fillTo k).mem x = c.mem x := fun x hx =>
  rounds_kept hi (Nat.zero_le k) (.inl hx) fun _ _ hp hf => c.request_unsafe x (fields_subset hp hf) hx

theorem fill_kept : ∀ x ∈ c.enclave, c.fill.mem x = c.mem x := fillTo_kept hi _

omit hi in
/-- The argument of a pointer is that of its block from its round on. -/
theorem argAt_fillTo_succ (h : c.IsPointer k) :
    argAt (c.fillTo (k + 1)).mem c.req k = (c.block k).start := by
  rw [fillTo_succ h, argAt, read_write_self]
  exact Nat.mod_eq_of_lt (block_start_lt h)

/-- The fields of argument `k` stay as they are after its round. -/
theorem fields_later (h : c.IsPointer k) {x : ℕ} (hx : x ∈ c.fields k) :
    c.fill.mem x = (c.fillTo (k + 1)).mem x := by
  refine rounds_kept hi h.lt (.inr (fields_subset h hx)) fun l hl hp hx' => ?_
  have hlt := hp.lt_six
  rw [fields, Set.mem_union, mem_bytes, mem_bytes] at hx hx'
  omega

/-- A field of argument `k` that is not its pointer has been written before the copy. -/
theorem read_fill_field (h : c.IsPointer k) {a n : ℕ} (ha : bytes ⟨a, n⟩ ⊆ c.fields k)
    (hnot : a + n ≤ c.req + 120 + 16 * k ∨ c.req + 120 + 16 * k + 8 ≤ a) :
    read c.fill.mem a n = read (write (write (c.fillTo k).mem (c.req + 92 + 4 * k) 4 (c.size k))
      (c.req + 128 + 16 * k) 8 (c.block k).start) a n := by
  have hreq := ha.trans (fields_subset h)
  rw [read_congr fun x h1 h2 => fields_later hi h (ha ⟨h1, h2⟩), fillTo_succ h,
    read_write_of_disjoint (by omega), read_congr fun x h1 h2 => hi k h x (.inr (hreq ⟨h1, h2⟩)),
    shallow_read h hreq]

/-- The request after `fillArgs`: a pointer has become that of its block. -/
theorem fields_fill (h : c.IsPointer k) : argAt c.fill.mem c.req k = (c.block k).start ∧
    dataAt c.fill.mem c.req k = (c.block k).start := by
  constructor
  · rw [← argAt_fillTo_succ h]
    exact read_congr fun x h1 h2 => fields_later hi h (.inr (mem_bytes.2 (by omega)))
  · rw [dataAt, read_fill_field hi h (fun x hx => .inr (mem_bytes_of_le hx (by omega) (by omega))) (by omega),
      read_write_self]
    exact Nat.mod_eq_of_lt (block_start_lt h)

theorem sizesAt_fill (h : c.IsPointer k) : sizesAt c.fill.mem c.req k = c.size k := by
  have hlt := h.lt_six
  have hsize : c.size k < 2 ^ 32 := getSize_lt ..
  rw [sizesAt, read_fill_field hi h (fun x hx => .inl hx) (by omega), read_write_of_disjoint (by omega),
    read_write_self, Nat.mod_eq_of_lt (by omega)]

/-- What belongs to no pointer is as it was. -/
theorem request_fill {x : ℕ} (hx : x ∈ c.request) (hnot : ∀ l, c.IsPointer l → x ∉ c.fields l) :
    c.fill.mem x = c.mem x :=
  rounds_kept hi (Nat.zero_le _) (.inr hx) fun l _ => hnot l

/-- The fields of the other arguments are as they were. -/
theorem fields_fill_of_not (h : ¬ c.IsPointer k) (hk : k < 6) {a n : ℕ} (ha : c.req + 120 + 16 * k ≤ a)
    (hn : a + n ≤ c.req + 120 + 16 * k + 16) : read c.fill.mem a n = read c.mem a n := by
  refine read_congr fun x h1 h2 => ?_
  refine request_fill hi (mem_bytes.2 (by rw [requestSize]; omega)) fun l hl hx => ?_
  have hne : l ≠ k := fun heq => h (heq ▸ hl)
  have hlt := hl.lt_six
  rw [fields, Set.mem_union, mem_bytes, mem_bytes] at hx
  omega

theorem argAt_fill_of_not (h : ¬ c.IsPointer k) (hk : k < c.types.length) :
    argAt c.fill.mem c.req k = c.arg k := by
  have hle := c.types_length_le
  rw [← c.arg_eq k hk]
  exact fields_fill_of_not hi h (by omega) (le_refl _) (by omega)

theorem format_fill {a n : ℕ} (ha : c.req ≤ a) (hn : a + n ≤ c.req + 92) :
    read c.fill.mem a n = read c.mem a n := by
  refine read_congr fun x h1 h2 => ?_
  refine request_fill hi (mem_bytes.2 (by rw [requestSize]; omega)) fun l hl hx => ?_
  rw [fields, Set.mem_union, mem_bytes, mem_bytes] at hx
  omega

end Request

/-! ### The copies of flat calls -/

section Flat

variable (hflat : c.Flat) (h : c.IsPointer k)

include hflat h

theorem flat_later {x : ℕ} (hx : x ∈ (c.block k).bytes) : c.fill.mem x = (c.fillTo (k + 1)).mem x := by
  have hstay : ∀ j, k + 1 ≤ j → (c.fillTo j).mem x = (c.fillTo (k + 1)).mem x := by
    intro j hj
    induction j, hj using Nat.le_induction with
    | base => rfl
    | succ j hj ih =>
      by_cases hp : c.IsPointer j
      · rw [flat_round hflat hp x, ih]
        rintro (hf | hb)
        · exact block_apart h hx (.inr (fields_subset hp hf))
        · exact block_new hp hb (subset_covered (block_mem_fillTo h hj) hx)
      · rw [fillTo_succ_of_not hp, ih]
  exact hstay _ h.lt

/-- The block of a flat argument holds what the argument points to. -/
theorem content_fill (harg : c.arg k ≠ 0) {o : ℕ} (ho : o < c.size k) (hin : c.arg k + o ∈ c.enclave) :
    c.fill.mem ((c.block k).start + o) = c.mem (c.arg k + o) := by
  have hbyte : (c.block k).start + o ∈ (c.block k).bytes := add_mem_bytes ho
  have hfield : (c.block k).start + o ∉ c.fields k := fun hf =>
    block_apart h hbyte (.inr (fields_subset h hf))
  rw [fields, Set.mem_union, mem_bytes, mem_bytes] at hfield
  rw [flat_later hflat h hbyte, flat_succ hflat h]
  refine Eq.trans (write_of_notMem (by omega)) ?_
  exact shallow_content h (fillTo_kept (intact_of_flat hflat) k) harg ho hin

theorem untouched_fill (harg : c.arg k = 0) {x : ℕ} (hx : x ∈ (c.block k).bytes) :
    c.fill.mem x = c.mem x := by
  rw [flat_later hflat h hx]
  exact flat_untouched hflat h harg hx

end Flat

end Marshalling

end Syscall

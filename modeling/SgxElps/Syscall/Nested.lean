/-
**Nested copies.**

The pointer of `writev` leads to a vector of segments, and that of `sendmsg` and `recvmsg` to a message,
whose header leads to a name, to control data and to a vector.  Both end with the loop over the segments,
which patches the copy of the array in place.  Something can be said about it once the array can be read,
that is, lies in the enclave, and once its copy is not cut short.

Main definitions: `VectorFilled`, `MessageFilled`.  Main results: `vectorFilled`, `messageFilled`.
-/

import SgxElps.Syscall.Prepared

namespace Syscall

open Bytes
open Span

namespace Prepared

open Marshalling

variable {c : Marshalling}

/-! ### One pointer -/

section Nested

variable {t : ArgType} (ht : c.types = [.nonPtr, t, .nonPtr]) (hp : t ≠ .nonPtr)

include ht hp

theorem isPointer_one : c.IsPointer 1 := by
  rw [IsPointer, ht]
  exact hp

omit hp in
theorem fillTo_one : c.fillTo 1 = ⟨c.mem, []⟩ :=
  fillTo_succ_of_not (by rw [IsPointer, ht]; exact fun h => h rfl)

theorem fill_one : c.fill =
    ⟨write (c.deep 1).mem (c.req + 120 + 16 * 1) 8 (c.block 1).start, (c.deep 1).blocks⟩ := by
  have hfill : c.fill = c.fillTo 3 := by
    change c.fillTo c.types.length = _
    rw [ht]
    rfl
  have hnot : ¬ c.IsPointer 2 := by
    rw [IsPointer, ht]
    exact fun h => h rfl
  rw [hfill, fillTo_succ_of_not hnot, fillTo_succ (isPointer_one ht hp)]

omit hp in
theorem shallow_one_blocks : (c.shallow 1).blocks = [c.block 1] := by
  unfold shallow
  rw [fillTo_one ht]
  rfl

theorem fill_of_covered {x : ℕ} (hx : x ∈ covered (c.deep 1).blocks) :
    c.fill.mem x = (c.deep 1).mem x := by
  have hone := isPointer_one ht hp
  rw [fill_one ht hp]
  refine write_of_notMem ?_
  by_contra hin
  refine (fresh_deep hone).notMem_covered (.inr (fields_subset hone (.inr ?_))) hx
  exact mem_bytes.2 (by omega)

theorem kept_one : ∀ x ∈ c.enclave, (c.shallow 1).mem x = c.mem x := by
  refine shallow_kept (isPointer_one ht hp) fun x _ => ?_
  rw [fillTo_one ht]

theorem content_one (harg : c.arg 1 ≠ 0) {o : ℕ} (ho : o < c.size 1) (hin : c.arg 1 + o ∈ c.enclave) :
    (c.shallow 1).mem ((c.block 1).start + o) = c.mem (c.arg 1 + o) := by
  refine shallow_content (isPointer_one ht hp) (fun x _ => ?_) harg ho hin
  rw [fillTo_one ht]

end Nested

/-- The pointer at `a` leads to block `j`, which is a copy of `s`. -/
def Points (c : Prepared) (a j : ℕ) (s : Span) : Prop :=
  ∃ b, c.fill.blocks[j]? = some b ∧ read c.fill.mem a 8 = b.start ∧ b.len = s.len ∧
    ∀ o < s.len, s.start + o ∈ c.enclave → c.fill.mem (b.start + o) = c.mem (s.start + o)

/-- Segment `j` of the array at `src`, as far as `memberCopy` copies it. -/
def segmentOf (m : Mem) (src j : ℕ) : Span :=
  ⟨read m (src + 16 * j) 8, intToSize (read m (src + 16 * j + 8) 8)⟩

theorem segmentOf_len (m : Mem) (src j : ℕ) :
    (segmentOf m src j).len = intToSize (read m (src + 16 * j + 8) 8) := by
  rw [segmentOf]

/-- The array at `des` is the copy of the array of `count` segments at `src`; the segments have the
blocks from number `first` on. -/
structure VectorFilled (c : Prepared) (des src count first : ℕ) : Prop where
  length : ∀ j < count, read c.fill.mem (des + 16 * j + 8) 8 = read c.mem (src + 16 * j + 8) 8
  points : ∀ j < count, c.Points (des + 16 * j) (first + j) (segmentOf c.mem src j)
  blocks_length : c.fill.blocks.length = first + count

/-- The nested copies of a call end with the loop over `count` segments: `s` is the state before it, and
the block `d` takes the array at `src`. -/
structure Loop (c : Prepared) (s : Fill) (d : Span) (src count : ℕ) : Prop where
  types : ∃ t, c.types = [.nonPtr, t, .nonPtr] ∧ t ≠ .nonPtr
  deep_eq : c.deep 1 = copySegments c.alloc s src d.start count
  mem_blocks : d ∈ s.blocks
  len_le : 16 * count ≤ d.len
  readable : bytes ⟨src, 16 * count⟩ ⊆ c.enclave
  kept : ∀ x ∈ c.enclave, s.mem x = c.mem x

namespace Loop

variable {s : Fill} {d : Span} {src count : ℕ}

section

variable (h : c.Loop s d src count)

include h

theorem fresh :
    Fresh (c.enclave ∪ c.request) (copySegments c.alloc s src d.start count).blocks := by
  obtain ⟨t, ht, hp⟩ := h.types
  rw [← h.deep_eq]
  exact fresh_deep (isPointer_one ht hp)

theorem subset_covered :
    bytes ⟨d.start, 16 * count⟩ ⊆ covered s.blocks := fun x hx =>
  Span.subset_covered h.mem_blocks (show x ∈ bytes ⟨d.start, d.len⟩ from
    mem_bytes_of_le hx (le_refl _) (Nat.add_le_add_left h.len_le _))

theorem segments :
    SegmentsCopied (c.enclave ∪ c.request) s (c.deep 1) src d.start count := by
  rw [h.deep_eq]
  exact segmentsCopied_copySegments h.fresh h.subset_covered fun x hx => .inl (h.readable hx)

theorem blocks_le : s.blocks <+: (c.deep 1).blocks := by
  rw [h.deep_eq]
  exact blocks_le_copySegments ..

theorem fill_blocks : c.fill.blocks = (c.deep 1).blocks := by
  obtain ⟨t, ht, hp⟩ := h.types
  rw [fill_one ht hp]

theorem fill_of_covered {x : ℕ}
    (hx : x ∈ covered (c.deep 1).blocks) : c.fill.mem x = (c.deep 1).mem x := by
  obtain ⟨t, ht, hp⟩ := h.types
  exact Prepared.fill_of_covered ht hp hx

theorem deep_kept : ∀ x ∈ c.enclave ∪ c.request, (c.deep 1).mem x = s.mem x := h.segments.kept

/-- The loop and what follows change the pointers of the array only, as far as earlier blocks go. -/
theorem old {x : ℕ} (hx : x ∈ covered s.blocks)
    (hnot : ∀ j < count, x ∉ bytes ⟨d.start + 16 * j, 8⟩) : c.fill.mem x = s.mem x := by
  rw [h.fill_of_covered (covered_mono h.blocks_le hx), h.segments.old x hx hnot]

theorem old_of_notMem {x : ℕ} (hx : x ∈ covered s.blocks)
    (hnot : x ∉ d.bytes) : c.fill.mem x = s.mem x := by
  refine h.old hx fun j hj hin => hnot ?_
  have hle := h.len_le
  exact mem_bytes_of_le hin (by omega) (by omega)

theorem segment_eq {j : ℕ} (hj : j < count) :
    segmentOf s.mem src j = segmentOf c.mem src j := by
  have hread : ∀ o, o + 8 ≤ 16 * count → read s.mem (src + o) 8 = read c.mem (src + o) 8 := fun o ho =>
    read_congr fun x h1 h2 => h.kept x (h.readable (mem_bytes.2 (by omega)))
  have hlast := hread (16 * j + 8) (by omega)
  rw [← Nat.add_assoc] at hlast
  rw [segmentOf, segmentOf, hread _ (by omega), hlast]

theorem points {j : ℕ} (hj : j < count) :
    c.Points (d.start + 16 * j) (s.blocks.length + j) (segmentOf c.mem src j) := by
  obtain ⟨b, hb, hstart⟩ := h.segments.pointer j hj
  obtain ⟨b', hb', hlen, hcontent⟩ := h.segments.content j hj
  obtain rfl : b = b' := Option.some_inj.1 (hb.symm.trans hb')
  change b.len = (segmentOf s.mem src j).len at hlen
  change ∀ o < (segmentOf s.mem src j).len, (segmentOf s.mem src j).start + o ∈ _ →
    (c.deep 1).mem (b.start + o) = s.mem ((segmentOf s.mem src j).start + o) at hcontent
  rw [h.segment_eq hj] at hlen hcontent
  refine ⟨b, h.fill_blocks ▸ hb, ?_, hlen, fun o ho hE => ?_⟩
  · rw [← hstart]
    refine read_congr fun x h1 h2 => h.fill_of_covered (covered_mono h.blocks_le (h.subset_covered ?_))
    exact mem_bytes.2 (by omega)
  · have hcov : b.start + o ∈ covered (c.deep 1).blocks :=
      Span.subset_covered (List.mem_of_getElem? hb) (mem_bytes.2 (by omega))
    rw [h.fill_of_covered hcov, hcontent o ho (.inl hE), h.kept _ hE]

theorem blocks_length : c.fill.blocks.length = s.blocks.length + count := by
  rw [h.fill_blocks, h.deep_eq, length_copySegments]

theorem vectorFilled
    (harray : ∀ o < 16 * count, s.mem (d.start + o) = c.mem (src + o)) :
    c.VectorFilled d.start src count s.blocks.length := by
  refine ⟨fun j hj => read_eq_of_shift fun o ho => ?_, fun j hj => h.points hj, h.blocks_length⟩
  have hx : d.start + 16 * j + 8 + o ∈ covered s.blocks :=
    h.subset_covered (mem_bytes.2 (by omega))
  rw [h.old hx, Nat.add_assoc, Nat.add_assoc, harray _ (by omega), ← Nat.add_assoc, ← Nat.add_assoc]
  intro i _ hin
  rw [mem_bytes] at hin
  omega

end

end Loop

theorem loop_vector (hn : c.n = sysWritev)
    (hsrc : bytes ⟨c.arg 1, 16 * rounds (c.arg 2)⟩ ⊆ c.enclave)
    (hlen : 16 * rounds (c.arg 2) ≤ c.size 1) :
    c.Loop (c.shallow 1) (c.block 1) (c.arg 1) (rounds (c.arg 2)) where
  types := ⟨.iovecPtr, types_of_eq hn rfl, by decide⟩
  deep_eq := by
    rw [deep, deepCopy, if_pos hn]
    rfl
  mem_blocks := c.block_mem_shallow 1
  len_le := hlen
  readable := hsrc
  kept := kept_one (types_of_eq hn rfl) (t := .iovecPtr) (by decide)

/-- **The vector of `writev`**: if the copy of the array has room for all segments, each of them is
copied into a block of its own. -/
theorem vectorFilled (hn : c.n = sysWritev) (harg : 0 < rounds (c.arg 2) → c.arg 1 ≠ 0)
    (hsrc : bytes ⟨c.arg 1, 16 * rounds (c.arg 2)⟩ ⊆ c.enclave)
    (hlen : 16 * rounds (c.arg 2) ≤ c.size 1) :
    c.VectorFilled (c.block 1).start (c.arg 1) (rounds (c.arg 2)) 1 := by
  have ht : c.types = [.nonPtr, .iovecPtr, .nonPtr] := types_of_eq hn rfl
  have hp : ArgType.iovecPtr ≠ .nonPtr := by decide
  have hfilled := (loop_vector hn hsrc hlen).vectorFilled fun o ho =>
    content_one ht hp (harg (by omega)) (by omega) (hsrc (mem_bytes.2 (by omega)))
  rwa [shallow_one_blocks ht] at hfilled

/-! ### Messages -/

/-- The name of the message with the header at `h`, as far as it is copied. -/
def nameOf (m : Mem) (h : ℕ) : Span := ⟨read m h 8, intToSize (read m (h + 8) 4)⟩

/-- The control data of the message with the header at `h`, as far as it is copied. -/
def controlOf (m : Mem) (h : ℕ) : Span := ⟨read m (h + 32) 8, intToSize (read m (h + 40) 8)⟩

theorem nameOf_len (m : Mem) (h : ℕ) : (nameOf m h).len = intToSize (read m (h + 8) 4) := by
  rw [nameOf]

theorem controlOf_len (m : Mem) (h : ℕ) : (controlOf m h).len = intToSize (read m (h + 40) 8) := by
  rw [controlOf]

/-- `msg_iov`. -/
def iovOf (m : Mem) (h : ℕ) : ℕ := read m (h + 16) 8

/-- `msg_iovlen`. -/
def iovlenOf (m : Mem) (h : ℕ) : ℕ := read m (h + 24) 8

/-- The call sends or receives a message. -/
def IsMessage (c : Prepared) : Prop := c.n = sysRecvmsg ∨ c.n = sysSendmsg

instance (c : Prepared) : Decidable c.IsMessage := inferInstanceAs (Decidable (_ ∨ _))

theorem IsMessage.types (h : c.IsMessage) : c.types = [.nonPtr, .msghdrPtr, .nonPtr] := by
  rcases h with h | h <;> exact types_of_eq h rfl

theorem IsMessage.isPointer (h : c.IsMessage) : c.IsPointer 1 := isPointer_one h.types (by decide)

theorem IsMessage.size (h : c.IsMessage) : c.size 1 = 56 := by
  rw [Prepared.size, h.types]
  rcases h with h | h <;> rw [h] <;> rfl

/-- After the copies of the name, the array and the control data. -/
def header (c : Prepared) : Fill := copyHeader c.alloc (c.shallow 1) (c.arg 1) (c.block 1).start

/-- The message can be read: its header lies in the enclave. -/
structure Readable (c : Prepared) : Prop where
  arg_ne : c.arg 1 ≠ 0
  header : bytes ⟨c.arg 1, 56⟩ ⊆ c.enclave

section Message

variable (h : c.IsMessage) (hr : bytes ⟨c.arg 1, 56⟩ ⊆ c.enclave)

include h

theorem message_deep_eq : c.deep 1 = copySegments c.alloc c.header (read c.header.mem (c.arg 1 + 16) 8)
    (read c.header.mem ((c.block 1).start + 16) 8) (read c.header.mem (c.arg 1 + 24) 8) := by
  have hw : c.n ≠ sysWritev := by
    rcases h with h | h <;> rw [h] <;> decide
  have hm : c.n = sysRecvmsg ∨ c.n = sysSendmsg := h
  rw [deep, deepCopy, if_neg hw, if_pos hm]
  rfl

theorem header_blocks_le : c.header.blocks <+: c.fill.blocks := by
  obtain ⟨src, des, k, hdeep⟩ : ∃ src des k, c.deep 1 = copySegments c.alloc c.header src des k :=
    ⟨_, _, _, message_deep_eq h⟩
  rw [fill_one h.types (by decide), hdeep]
  exact blocks_le_copySegments ..

theorem fresh_header : Fresh (c.enclave ∪ c.request) c.header.blocks :=
  c.fresh.mono (header_blocks_le h)

theorem mem_block_iff {x : ℕ} :
    x ∈ (c.block 1).bytes ↔ (c.block 1).start ≤ x ∧ x < (c.block 1).start + 56 := by
  rw [← h.size]
  exact mem_bytes

theorem block_header_subset : bytes ⟨(c.block 1).start, 56⟩ ⊆ covered (c.shallow 1).blocks := by
  rw [← h.size]
  exact c.block_subset_shallow 1

include hr

theorem headerCopied :
    ∃ b, HeaderCopied (c.enclave ∪ c.request) (c.shallow 1) c.header (c.arg 1) (c.block 1).start b :=
  headerCopied_copyHeader (fresh_header h) (block_header_subset h) fun _ hx => .inl (hr hx)

/-- The first copies: the name, the array and the control data, with their lengths. -/
theorem header_copies : ∃ b₁ b₂ b₃, c.header.blocks = [c.block 1, b₁, b₂, b₃] ∧
    HeaderCopied (c.enclave ∪ c.request) (c.shallow 1) c.header (c.arg 1) (c.block 1).start b₂ ∧
    (b₁.len = (nameOf c.mem (c.arg 1)).len ∧
      ∀ o < b₁.len, (nameOf c.mem (c.arg 1)).start + o ∈ c.enclave →
        c.header.mem (b₁.start + o) = c.mem ((nameOf c.mem (c.arg 1)).start + o)) ∧
    b₂.len = intToSize (iovlenOf c.mem (c.arg 1) * 16) ∧
    (b₃.len = (controlOf c.mem (c.arg 1)).len ∧
      ∀ o < b₃.len, (controlOf c.mem (c.arg 1)).start + o ∈ c.enclave →
        c.header.mem (b₃.start + o) = c.mem ((controlOf c.mem (c.arg 1)).start + o)) := by
  obtain ⟨b, hb⟩ := headerCopied h hr
  obtain ⟨b₁, b₃, hblocks, -⟩ := hb.blocks
  rw [shallow_one_blocks h.types] at hblocks
  have hkept := kept_one h.types (by decide)
  have hread : ∀ o w, o + w ≤ 56 →
      read (c.shallow 1).mem (c.arg 1 + o) w = read c.mem (c.arg 1 + o) w := fun o w ho =>
    read_congr fun x h1 h2 => hkept x (hr (mem_bytes.2 (by omega)))
  have hname : nameOf (c.shallow 1).mem (c.arg 1) = nameOf c.mem (c.arg 1) := by
    have hfirst := hread 0 8 (by omega)
    rw [Nat.add_zero] at hfirst
    rw [nameOf, nameOf, hfirst, hread 8 4 (by omega)]
  have hcontrol : controlOf (c.shallow 1).mem (c.arg 1) = controlOf c.mem (c.arg 1) := by
    rw [controlOf, controlOf, hread 32 8 (by omega), hread 40 8 (by omega)]
  obtain ⟨n, hn, hlenn, hcopyn⟩ : HoldsCopy _ _ _ _ (nameOf (c.shallow 1).mem (c.arg 1)) := hb.name
  obtain ⟨k, hk, hlenk, hcopyk⟩ : HoldsCopy _ _ _ _ (controlOf (c.shallow 1).mem (c.arg 1)) := hb.control
  rw [hblocks, shallow_one_blocks h.types] at hn hk
  obtain rfl : b₁ = n := Option.some_inj.1 hn
  obtain rfl : b₃ = k := Option.some_inj.1 hk
  rw [hname] at hlenn hcopyn
  rw [hcontrol] at hlenk hcopyk
  refine ⟨b₁, b, b₃, hblocks, hb, ⟨hlenn, fun o ho hE => ?_⟩, ?_, ⟨hlenk, fun o ho hE => ?_⟩⟩
  · rw [hcopyn o (hlenn ▸ ho) (.inl hE), hkept _ hE]
  · rw [hb.len_eq, hread 24 8 (by omega)]
    rfl
  · rw [hcopyk o (hlenk ▸ ho) (.inl hE), hkept _ hE]

end Message

/-- The copy of a message. -/
structure MessageFilled (c : Prepared) : Prop where
  name : c.Points (c.block 1).start 1 (nameOf c.mem (c.arg 1))
  control : c.Points ((c.block 1).start + 32) 3 (controlOf c.mem (c.arg 1))
  array : ∃ b, c.fill.blocks[2]? = some b ∧ read c.fill.mem ((c.block 1).start + 16) 8 = b.start
  vector : c.VectorFilled (read c.fill.mem ((c.block 1).start + 16) 8) (iovOf c.mem (c.arg 1))
    (iovlenOf c.mem (c.arg 1)) 4
  rest : c.arg 1 ≠ 0 → ∀ o < 56, (∀ p ∈ [0, 16, 32], ¬ (p ≤ o ∧ o < p + 8)) →
    c.fill.mem ((c.block 1).start + o) = c.mem (c.arg 1 + o)

/-- The lengths of the first copies, whether or not the array is cut short. -/
theorem message_lengths (h : c.IsMessage) (hr : bytes ⟨c.arg 1, 56⟩ ⊆ c.enclave) :
    ∃ b₁ b₂ b₃, [c.block 1, b₁, b₂, b₃] <+: c.fill.blocks ∧
      b₁.len = (nameOf c.mem (c.arg 1)).len ∧ b₂.len = intToSize (iovlenOf c.mem (c.arg 1) * 16) ∧
      b₃.len = (controlOf c.mem (c.arg 1)).len := by
  obtain ⟨b₁, b₂, b₃, hblocks, -, ⟨hlen1, -⟩, hlen2, ⟨hlen3, -⟩⟩ := header_copies h hr
  exact ⟨b₁, b₂, b₃, hblocks ▸ header_blocks_le h, hlen1, hlen2, hlen3⟩

/-- The loop of a message; `b₂` is the block of its array. -/
theorem loop_message (h : c.IsMessage) (hr : bytes ⟨c.arg 1, 56⟩ ⊆ c.enclave)
    (hsrc : bytes ⟨iovOf c.mem (c.arg 1), 16 * iovlenOf c.mem (c.arg 1)⟩ ⊆ c.enclave)
    (hlen : 16 * iovlenOf c.mem (c.arg 1) ≤ intToSize (iovlenOf c.mem (c.arg 1) * 16)) {b₂ : Span}
    (hb : HeaderCopied (c.enclave ∪ c.request) (c.shallow 1) c.header (c.arg 1) (c.block 1).start b₂)
    (hlen2 : b₂.len = intToSize (iovlenOf c.mem (c.arg 1) * 16)) :
    c.Loop c.header b₂ (iovOf c.mem (c.arg 1)) (iovlenOf c.mem (c.arg 1)) := by
  have hkept : ∀ x ∈ c.enclave, c.header.mem x = c.mem x := fun x hx =>
    (hb.kept x (.inl hx)).trans (kept_one h.types (by decide) x hx)
  have hread : ∀ o, o + 8 ≤ 56 → read c.header.mem (c.arg 1 + o) 8 = read c.mem (c.arg 1 + o) 8 :=
    fun o ho => read_congr fun x h1 h2 => hkept x (hr (mem_bytes.2 (by omega)))
  refine ⟨⟨_, h.types, by decide⟩, ?_, hb.mem_blocks, hlen2 ▸ hlen, hsrc, hkept⟩
  rw [message_deep_eq h, hb.pointer, hread 16 (by omega), hread 24 (by omega)]
  rfl

/-- **A message**: if the copy of its array has room for all segments, the message is copied level by
level. -/
theorem messageFilled (h : c.IsMessage) (hr : bytes ⟨c.arg 1, 56⟩ ⊆ c.enclave)
    (hsrc : bytes ⟨iovOf c.mem (c.arg 1), 16 * iovlenOf c.mem (c.arg 1)⟩ ⊆ c.enclave)
    (hlen : 16 * iovlenOf c.mem (c.arg 1) ≤ intToSize (iovlenOf c.mem (c.arg 1) * 16)) :
    c.MessageFilled := by
  obtain ⟨b₁, b₂, b₃, hblocks, hb, ⟨hlen1, hname⟩, hlen2, ⟨hlen3, hcontrol⟩⟩ := header_copies h hr
  obtain ⟨d₁, d₃, hblocks', hp1, hp3⟩ := hb.blocks
  have hp2 := hb.pointer
  rw [shallow_one_blocks h.types] at hblocks'
  obtain ⟨rfl, rfl⟩ : b₁ = d₁ ∧ b₃ = d₃ := by simpa using hblocks.symm.trans hblocks'
  have hreadShallow : read (c.shallow 1).mem (c.arg 1 + 16) 8 = iovOf c.mem (c.arg 1) :=
    read_congr fun x h1 h2 => kept_one h.types (by decide) x (hr (mem_bytes.2 (by omega)))
  have hloop := loop_message h hr hsrc hlen hb hlen2
  -- the loop writes into the array, which is apart from the other blocks
  have hpair : Span.Separated [c.block 1, b₁, b₂, b₃] := hblocks ▸ (fresh_header h).separated
  have hpre : [c.block 1, b₁, b₂, b₃] <+: c.fill.blocks := hblocks ▸ header_blocks_le h
  have hold : ∀ b ∈ [c.block 1, b₁, b₃], ∀ x ∈ b.bytes, c.fill.mem x = c.header.mem x := by
    intro b hb x hx
    have hin : b ∈ c.header.blocks := by
      rw [hblocks]
      exact (show [c.block 1, b₁, b₃].Sublist [c.block 1, b₁, b₂, b₃] by simp).subset hb
    refine hloop.old_of_notMem (Span.subset_covered hin hx) fun hx' => ?_
    have hdisj : Disjoint b.bytes b₂.bytes := by
      simp only [Span.Separated, List.pairwise_cons, List.mem_cons, List.not_mem_nil, or_false,
        forall_eq_or_imp, forall_eq] at hpair
      obtain ⟨⟨-, h1, -⟩, ⟨h2, -⟩, h3, -⟩ := hpair
      simp only [List.mem_cons, List.not_mem_nil, or_false] at hb
      rcases hb with rfl | rfl | rfl
      exacts [h1, h2, h3.symm]
    exact Set.disjoint_left.1 hdisj hx hx'
  have hheader : ∀ o < 56, c.fill.mem ((c.block 1).start + o) = c.header.mem ((c.block 1).start + o) :=
    fun o ho => hold _ (by simp) _ ((mem_block_iff h).2 (by omega))
  have hpointer : ∀ o, o + 8 ≤ 56 → read c.fill.mem ((c.block 1).start + o) 8 =
      read c.header.mem ((c.block 1).start + o) 8 := fun o ho =>
    read_congr fun x h1 h2 => hold _ (by simp) x ((mem_block_iff h).2 (by omega))
  have hone := shallow_one_blocks h.types
  refine ⟨⟨b₁, ?_, ?_, hlen1, fun o ho hE => ?_⟩, ⟨b₃, ?_, ?_, hlen3, fun o ho hE => ?_⟩, ⟨b₂, ?_, ?_⟩,
    ?_, fun harg o ho hnot => ?_⟩
  · exact getElem?_of_le hpre rfl
  · rw [← hp1]
    exact hpointer 0 (by omega)
  · have ho' : o < b₁.len := lt_of_lt_of_eq ho hlen1.symm
    rw [hold b₁ (by simp) _ (add_mem_bytes ho'), hname o ho' hE]
  · exact getElem?_of_le hpre rfl
  · rw [hpointer 32 (by omega), hp3]
  · have ho' : o < b₃.len := lt_of_lt_of_eq ho hlen3.symm
    rw [hold b₃ (by simp) _ (add_mem_bytes ho'), hcontrol o ho' hE]
  · exact getElem?_of_le hpre rfl
  · rw [hpointer 16 (by omega), hp2]
  · have hvector := hloop.vectorFilled fun o ho => ?_
    · rw [hblocks] at hvector
      rw [hpointer 16 (by omega), hp2]
      exact hvector
    · have hin : iovOf c.mem (c.arg 1) + o ∈ c.enclave := hsrc (add_mem_bytes ho)
      have hcopy := hb.content o (hlen2 ▸ lt_of_lt_of_le ho hlen)
      rw [hreadShallow] at hcopy
      rw [hcopy (.inl hin), kept_one h.types (by decide) _ hin]
  · rw [hheader o ho, hb.old]
    · exact content_one h.types (by decide) harg (by rw [h.size]; exact ho)
        (hr (mem_bytes.2 (by omega)))
    · exact c.block_subset_shallow 1 ((mem_block_iff h).2 (by omega))
    · intro p hp hin
      rw [mem_bytes] at hin
      exact hnot p hp (by omega)

/-! ### Structures that can be walked -/

/-- What the nested copies follow lies in the enclave. -/
structure Followed (c : Prepared) : Prop where
  vector : c.n = sysWritev → bytes ⟨c.arg 1, 16 * rounds (c.arg 2)⟩ ⊆ c.enclave
  header : c.IsMessage → bytes ⟨c.arg 1, 56⟩ ⊆ c.enclave
  array : c.IsMessage →
    bytes ⟨iovOf c.mem (c.arg 1), 16 * iovlenOf c.mem (c.arg 1)⟩ ⊆ c.enclave

/-- What the nested copies follow can be read: a message is not null either. -/
structure Walkable (c : Prepared) : Prop extends Followed c where
  arg_ne : c.IsMessage → c.arg 1 ≠ 0

theorem le_of_subset_enclave {a len : ℕ} (h : bytes ⟨a, len⟩ ⊆ c.enclave) : len ≤ 2 ^ 31 := by
  by_contra hlt
  have hfirst : a ∈ c.enclave := h (mem_bytes.2 (by omega))
  have hlast : a + 2 ^ 31 ∈ c.enclave := h (mem_bytes.2 (by omega))
  rw [enclave, mem_bytes, enclaveLen] at hfirst hlast
  omega

namespace Followed

variable (h : c.Followed)

include h

/-- The copy of a vector is not cut short. -/
theorem vector_len (hn : c.n = sysWritev) : 16 * rounds (c.arg 2) ≤ c.size 1 := by
  have hle := le_of_subset_enclave (h.vector hn)
  have hsize : c.size 1 = 16 * (c.arg 2 % 2 ^ 32) % 2 ^ 32 := by
    rw [size, types_of_eq hn rfl, hn]
    rfl
  rw [hsize]
  unfold rounds at hle ⊢
  split at hle <;> rename_i hlt
  · rw [if_pos hlt]
    omega
  · rw [if_neg hlt]
    omega

/-- Nor is that of the array of a message. -/
theorem message_len (hm : c.IsMessage) :
    16 * iovlenOf c.mem (c.arg 1) ≤ intToSize (iovlenOf c.mem (c.arg 1) * 16) := by
  have hle := le_of_subset_enclave (h.array hm)
  unfold intToSize
  split <;> omega

theorem intact : c.Intact := by
  by_cases hn : c.n = sysWritev
  · exact intact_of_one (types_of_eq hn rfl) (loop_vector hn (h.vector hn) (h.vector_len hn)).deep_kept
  by_cases hm : c.IsMessage
  · obtain ⟨-, b₂, -, -, hb, -, hlen2, -⟩ := header_copies hm (h.header hm)
    have hloop := loop_message hm (h.header hm) (h.array hm) (h.message_len hm) hb hlen2
    exact intact_of_one hm.types fun x hx => (hloop.deep_kept x hx).trans (hb.kept x hx)
  · exact intact_of_flat ⟨hn, fun h => hm (.inl h), fun h => hm (.inr h)⟩

end Followed

end Prepared

end Syscall

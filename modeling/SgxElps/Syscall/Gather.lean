/-
**What the host gathers.**

`writev` and `sendmsg` take their data from several segments.  The host walks the unsafe copies that
`fillArgs` has made; it finds the lengths of the caller, and at each segment a block of its own with the
bytes of the caller, so what it gathers is what the caller passed.  No pointer it can find leads into the
enclave.

Main definition: `Gathered`.  Main result: `gathered`.
-/

import SgxElps.Syscall.Ample

namespace Syscall

open Bytes Prepared Marshalling Submission
open List
open Span

/-! ### Walking the segments -/

/-- The array of segments and their number, as a call with the arguments `a₁` and `a₂` gives them. -/
def vector (n : ℕ) (m : Mem) (a₁ a₂ : ℕ) : ℕ × ℕ :=
  if n = sysWritev then (a₁, a₂) else (iovOf m a₁, iovlenOf m a₁)

/-- `iov_base` of segment `j`. -/
def baseAt (m : Mem) (array j : ℕ) : ℕ := read m (array + 16 * j) 8

/-- `iov_len` of segment `j`. -/
def lenAt (m : Mem) (array j : ℕ) : ℕ := read m (array + 16 * j + 8) 8

/-- The bytes from `a` on. -/
def bytesAt (m : Mem) (a len : ℕ) : List UInt8 := (range len).map fun o => m (a + o)

/-- The bytes of all segments. -/
def gather (m : Mem) (array count : ℕ) : List UInt8 :=
  (range count).flatMap fun j => bytesAt m (baseAt m array j) (lenAt m array j)

/-- The pointers that can be found from the arguments of a call. -/
def reachable (n : ℕ) (m : Mem) (a₁ a₂ : ℕ) : List ℕ :=
  a₁ :: (if n = sysWritev then [] else [read m a₁ 8, iovOf m a₁, read m (a₁ + 32) 8]) ++
    (range (vector n m a₁ a₂).2).map (baseAt m (vector n m a₁ a₂).1)

theorem bytesAt_congr {m m' : Mem} {a b len : ℕ} (h : ∀ o < len, m (a + o) = m' (b + o)) :
    bytesAt m a len = bytesAt m' b len :=
  map_congr_left fun o ho => h o (mem_range.1 ho)

theorem gather_congr {m m' : Mem} {array array' count : ℕ}
    (hlen : ∀ j < count, lenAt m array j = lenAt m' array' j)
    (hbytes : ∀ j < count, ∀ o < lenAt m' array' j,
      m (baseAt m array j + o) = m' (baseAt m' array' j + o)) :
    gather m array count = gather m' array' count := by
  unfold gather
  rw [flatMap_def, flatMap_def]
  refine congrArg _ (map_congr_left fun j hj => ?_)
  have hj := mem_range.1 hj
  rw [hlen j hj]
  exact bytesAt_congr (hbytes j hj)

namespace Prepared

section Defs

variable (c : Prepared)

/-- The segments of the caller. -/
def given : ℕ × ℕ := vector c.n c.mem (c.arg 1) (c.arg 2)

/-- The segments that the host finds. -/
def seen : ℕ × ℕ := vector c.n c.fill.mem (argAt c.fill.mem c.req 1) (argAt c.fill.mem c.req 2)

/-- A call whose segments, name and control data lie in the enclave and whose lengths are small enough for
the computations in 32 bits. -/
structure Small : Prop where
  arg_ne : c.n = sysWritev → 0 < c.arg 2 → c.arg 1 ≠ 0
  header : c.n = sysSendmsg → c.Readable
  array : bytes ⟨c.given.1, 16 * c.given.2⟩ ⊆ c.enclave
  segment : ∀ j < c.given.2,
    bytes ⟨baseAt c.mem c.given.1 j, lenAt c.mem c.given.1 j⟩ ⊆ c.enclave
  segment_lt : ∀ j < c.given.2, lenAt c.mem c.given.1 j < 2 ^ 31
  name : c.n = sysSendmsg →
    bytes ⟨read c.mem (c.arg 1) 8, read c.mem (c.arg 1 + 8) 4⟩ ⊆ c.enclave
  name_lt : c.n = sysSendmsg → read c.mem (c.arg 1 + 8) 4 < 2 ^ 31
  control : c.n = sysSendmsg →
    bytes ⟨read c.mem (c.arg 1 + 32) 8, read c.mem (c.arg 1 + 40) 8⟩ ⊆ c.enclave
  control_lt : c.n = sysSendmsg → read c.mem (c.arg 1 + 40) 8 < 2 ^ 31

/-- The pointer at `a` leads to block `j`, a copy of the `len` bytes at `src`. -/
def CopyOf (a j src len : ℕ) : Prop :=
  ∃ b, c.fill.blocks[j]? = some b ∧ read c.fill.mem a 8 = b.start ∧ b.len = len ∧
    ∀ o < len, c.fill.mem (b.start + o) = c.mem (src + o)

/-- The host sees what the caller passed. -/
structure Gathered : Prop where
  count_eq : c.seen.2 = c.given.2
  lenAt_eq : ∀ j < c.given.2, lenAt c.fill.mem c.seen.1 j = lenAt c.mem c.given.1 j
  segment : ∃ first, ∀ j < c.given.2, c.CopyOf (c.seen.1 + 16 * j) (first + j)
    (baseAt c.mem c.given.1 j) (lenAt c.mem c.given.1 j)
  separated : Span.Separated c.fill.blocks
  name : c.n = sysSendmsg → c.CopyOf (argAt c.fill.mem c.req 1) 1 (read c.mem (c.arg 1) 8)
    (read c.mem (c.arg 1 + 8) 4) ∧
    read c.fill.mem (argAt c.fill.mem c.req 1 + 8) 4 = read c.mem (c.arg 1 + 8) 4
  control : c.n = sysSendmsg → c.CopyOf (argAt c.fill.mem c.req 1 + 32) 3 (read c.mem (c.arg 1 + 32) 8)
    (read c.mem (c.arg 1 + 40) 8) ∧
    read c.fill.mem (argAt c.fill.mem c.req 1 + 40) 8 = read c.mem (c.arg 1 + 40) 8
  gather_eq : gather c.fill.mem c.seen.1 c.seen.2 = gather c.mem c.given.1 c.given.2
  reachable_unsafe :
    ∀ p ∈ reachable c.n c.fill.mem (argAt c.fill.mem c.req 1) (argAt c.fill.mem c.req 2), p ∉ c.enclave

end Defs

section

variable {c : Prepared}

theorem given_writev (hn : c.n = sysWritev) : c.given = (c.arg 1, c.arg 2) := if_pos hn

theorem given_sendmsg (hn : c.n = sysSendmsg) :
    c.given = (iovOf c.mem (c.arg 1), iovlenOf c.mem (c.arg 1)) :=
  if_neg (by rw [hn]; decide)

theorem Small.walkable (h : c.Small) (hn : c.n = sysWritev ∨ c.n = sysSendmsg) : c.Walkable := by
  have hsend : c.IsMessage → c.n = sysSendmsg := by
    intro hm
    rcases hn with hn | hn
    · rw [IsMessage, hn] at hm
      exact absurd hm (by decide)
    · exact hn
  refine ⟨⟨fun hw x hx => ?_, fun hm => (h.header (hsend hm)).header, fun hm => ?_⟩,
    fun hm => (h.header (hsend hm)).arg_ne⟩
  · have harray := h.array
    rw [given_writev hw] at harray
    refine harray (Span.mem_bytes_of_le hx (le_refl _) ?_)
    unfold rounds
    split <;> omega
  · have harray := h.array
    rwa [given_sendmsg (hsend hm)] at harray

end

variable {c : Submission}

theorem CopyOf.notMem {a j src len : ℕ} (h : c.CopyOf a j src len) : read c.fill.mem a 8 ∉ c.enclave := by
  obtain ⟨b, hb, hptr, -⟩ := h
  rw [hptr]
  exact (c.placed b (mem_of_getElem? hb)).1

/-- A copy that fits and whose source lies in the enclave is complete. -/
theorem Points.copyOf {a j : ℕ} {s : Span} {len : ℕ} (h : c.Points a j s) (hs : s.len = intToSize len)
    (hlt : len < 2 ^ 31) (hin : bytes ⟨s.start, len⟩ ⊆ c.enclave) : c.CopyOf a j s.start len := by
  obtain ⟨b, hb, hptr, hlen, hcontent⟩ := h
  have hlen' : s.len = len := by rw [hs, intToSize_of_lt hlt]
  exact ⟨b, hb, hptr, hlen.trans hlen', fun o ho =>
    hcontent o (hlen'.symm ▸ ho) (hin (Span.add_mem_bytes (b := ⟨s.start, len⟩) ho))⟩

/-- What follows from the copy of the vector: its lengths, its segments and the data. -/
theorem VectorFilled.copyOf_gather {des src count first : ℕ} (h : c.VectorFilled des src count first)
    (hin : ∀ j < count, bytes ⟨baseAt c.mem src j, lenAt c.mem src j⟩ ⊆ c.enclave)
    (hlt : ∀ j < count, lenAt c.mem src j < 2 ^ 31) :
    (∀ j < count, c.CopyOf (des + 16 * j) (first + j) (baseAt c.mem src j) (lenAt c.mem src j)) ∧
      gather c.fill.mem des count = gather c.mem src count := by
  have hcopy : ∀ j < count,
      c.CopyOf (des + 16 * j) (first + j) (baseAt c.mem src j) (lenAt c.mem src j) := fun j hj =>
    (h.points j hj).copyOf (segmentOf_len ..) (hlt j hj) (hin j hj)
  refine ⟨hcopy, gather_congr h.length fun j hj o ho => ?_⟩
  obtain ⟨b, -, hptr, -, hcontent⟩ := hcopy j hj
  rw [baseAt, hptr]
  exact hcontent o ho

/-- The pointers that the host can find: the argument, those of a message and those of the segments. -/
theorem reachable_unsafe_of (harg : argAt c.fill.mem c.req 1 ∉ c.enclave)
    (hmessage : c.n ≠ sysWritev → read c.fill.mem (argAt c.fill.mem c.req 1) 8 ∉ c.enclave ∧
      iovOf c.fill.mem (argAt c.fill.mem c.req 1) ∉ c.enclave ∧
      read c.fill.mem (argAt c.fill.mem c.req 1 + 32) 8 ∉ c.enclave)
    (hsegment : ∀ j < c.seen.2, baseAt c.fill.mem c.seen.1 j ∉ c.enclave) :
    ∀ p ∈ reachable c.n c.fill.mem (argAt c.fill.mem c.req 1) (argAt c.fill.mem c.req 2),
      p ∉ c.enclave := by
  refine forall_mem_cons.2 ⟨harg, forall_mem_append.2 ⟨?_, fun p hp => ?_⟩⟩
  · split
    · exact fun _ h => absurd h not_mem_nil
    · rename_i hn
      obtain ⟨h1, h2, h3⟩ := hmessage hn
      exact forall_mem_cons.2 ⟨h1, forall_mem_cons.2 ⟨h2, forall_mem_singleton.2 h3⟩⟩
  · obtain ⟨j, hj, rfl⟩ := mem_map.1 hp
    exact hsegment j (mem_range.1 hj)

theorem gathered_writev (hn : c.n = sysWritev) (h : c.Small) : c.Gathered := by
  have hw := h.walkable (.inl hn)
  have hgiven := given_writev hn
  have harray := h.array
  have hsegment := h.segment
  have hsegment_lt := h.segment_lt
  have hptr : c.IsPointer 1 := (isPointer_iff hn rfl (l := [1]) rfl).2 (by decide)
  have harg1 := (fields_fill hw.intact hptr).1
  have harg2 : argAt c.fill.mem c.req 2 = c.arg 2 := by
    have hnot : ¬ c.IsPointer 2 := fun hp => absurd ((isPointer_iff hn rfl (l := [1]) rfl).1 hp) (by decide)
    exact argAt_fill_of_not hw.intact hnot (by rw [types_of_eq hn rfl]; decide)
  have hseen : c.seen = ((c.block 1).start, c.arg 2) := by
    rw [seen, vector, if_pos hn, harg1, harg2]
  rw [hgiven] at harray hsegment hsegment_lt
  have hrounds : rounds (c.arg 2) = c.arg 2 := by
    have hle := le_of_subset_enclave harray
    dsimp only at hle
    exact if_pos (by omega)
  have hfilled := vectorFilled hn (by rw [hrounds]; exact h.arg_ne hn) (hw.vector hn) (hw.vector_len hn)
  rw [hrounds] at hfilled
  obtain ⟨hcopy, hgather⟩ := hfilled.copyOf_gather hsegment hsegment_lt
  have hnot : c.n ≠ sysSendmsg := by
    rw [hn]
    decide
  refine ⟨?_, ?_, ⟨1, ?_⟩, c.fresh.separated, fun h => absurd h hnot, fun h => absurd h hnot, ?_, ?_⟩
  · rw [hseen, hgiven]
  · rw [hseen, hgiven]
    exact hfilled.length
  · rw [hseen, hgiven]
    exact hcopy
  · rw [hseen, hgiven]
    exact hgather
  · refine reachable_unsafe_of (harg1 ▸ (block_placed hptr).1) (fun h => absurd hn h) ?_
    rw [hseen]
    exact fun j hj => (hcopy j hj).notMem

/-- The message of `sendmsg`. -/
theorem gathered_sendmsg (hn : c.n = sysSendmsg) (h : c.Small) : c.Gathered := by
  have hw := h.walkable (.inr hn)
  have hm : c.IsMessage := .inr hn
  have hgiven := given_sendmsg hn
  have hsegment := h.segment
  have hsegment_lt := h.segment_lt
  have hptr : c.IsPointer 1 := hm.isPointer
  have harg1 := (fields_fill hw.intact hptr).1
  have hfilled := messageFilled hm (hw.header hm) (hw.array hm) (hw.message_len hm)
  have hrest : ∀ o w, o + w ≤ 56 → (∀ p ∈ [0, 16, 32], o + w ≤ p ∨ p + 8 ≤ o) →
      read c.fill.mem ((c.block 1).start + o) w = read c.mem (c.arg 1 + o) w := by
    intro o w ho hnot
    refine read_eq_of_shift fun i hi => ?_
    rw [Nat.add_assoc, Nat.add_assoc]
    refine hfilled.rest (hw.arg_ne hm) (o + i) (by omega) fun p hp => ?_
    have := hnot p hp
    omega
  have hseen : c.seen = (read c.fill.mem ((c.block 1).start + 16) 8, iovlenOf c.mem (c.arg 1)) := by
    rw [seen, vector, if_neg (by rw [hn]; decide), harg1, iovlenOf, hrest 24 8 (by omega) (by decide)]
    rfl
  rw [hgiven] at hsegment hsegment_lt
  obtain ⟨hcopy, hgather⟩ := hfilled.vector.copyOf_gather hsegment hsegment_lt
  have hname := hfilled.name.copyOf (nameOf_len ..) (h.name_lt hn) (h.name hn)
  have hcontrol := hfilled.control.copyOf (controlOf_len ..) (h.control_lt hn) (h.control hn)
  refine ⟨?_, ?_, ⟨4, ?_⟩, c.fresh.separated, fun _ => ?_, fun _ => ?_, ?_, ?_⟩
  · rw [hseen, hgiven]
  · rw [hseen, hgiven]
    exact hfilled.vector.length
  · rw [hseen, hgiven]
    exact hcopy
  · rw [harg1]
    exact ⟨hname, hrest 8 4 (by omega) (by decide)⟩
  · rw [harg1]
    exact ⟨hcontrol, hrest 40 8 (by omega) (by decide)⟩
  · rw [hseen, hgiven]
    exact hgather
  · refine reachable_unsafe_of (harg1 ▸ (block_placed hptr).1) (fun _ => ?_) ?_
    · obtain ⟨b, hb, harray⟩ := hfilled.array
      rw [harg1, iovOf, harray]
      exact ⟨hname.notMem, (c.placed b (mem_of_getElem? hb)).1, hcontrol.notMem⟩
    · rw [hseen]
      exact fun j hj => (hcopy j hj).notMem

/-- **`fillArgs` passes on what the caller gave**: the host finds the same segments, each in a block of its
own, gathers the same bytes and learns no address of the enclave. -/
theorem gathered (c : Submission) (hn : c.n = sysWritev ∨ c.n = sysSendmsg) (h : c.Small) : c.Gathered := by
  rcases hn with hn | hn
  · exact gathered_writev hn h
  · exact gathered_sendmsg hn h

theorem small_writevCall : writevCall.Small := by
  have hgiven : writevCall.given = (0x1100, 2) := by decide +kernel
  have hsegment : ∀ j < 2, 0x1000 ≤ baseAt writevMem 0x1100 j ∧ baseAt writevMem 0x1100 j < 0x2000 ∧
      lenAt writevMem 0x1100 j < 2 ^ 10 := by decide +kernel
  have hnot : writevCall.n ≠ sysSendmsg := by decide
  refine ⟨fun _ _ => by decide, fun h => absurd h hnot, ?_, ?_, ?_, fun h => absurd h hnot,
    fun h => absurd h hnot, fun h => absurd h hnot, fun h => absurd h hnot⟩
  · rw [hgiven]
    exact writevCall_array
  · rw [hgiven]
    intro j hj x hx
    obtain ⟨hlow, hhigh, hlen⟩ := hsegment j hj
    obtain ⟨h1, h2⟩ : baseAt writevMem 0x1100 j ≤ x ∧
      x < baseAt writevMem 0x1100 j + lenAt writevMem 0x1100 j := hx
    exact Span.mem_bytes.2 (by rw [enclaveLen]; change 0x1000 ≤ x ∧ x < 0x1000 + 2 ^ 31; omega)
  · rw [hgiven]
    intro j hj
    exact lt_trans (hsegment j hj).2.2 (by decide)

end Prepared

end Syscall

/-
**Loading the segments of an ELF file.**

`ELFLoader` in `loader/load_elf.cpp` has the headers from ELFIO and the file mapped into memory.  For each
`PT_LOAD` segment, `load` rounds the addresses out to pages, maps a buffer of that length, clears it,
copies the file's bytes into it and hands it to `addPages`.  The place of the bytes in the buffer is
computed from the *file offset*, and the address of the buffer from the *virtual address*.

A mapping of length zero fails, and one of another length is taken to succeed.  A copy that would go past
the end of the buffer is an error.

Main definitions: `Loader.load`, `Loaded`, `Loadable`.  Main results: `load_accepted`, `loaded_iff`.
-/

import SgxElps.Loader.Allocate
import SgxElps.Lib.Except

namespace Elf

open Except (bind_eq_ok mapError_eq_ok)
open Enclave (add64 sub64 roundLen Call Manager Thread)

/-! ### Headers -/

inductive SegmentType
  | load
  | dynamic
  | tls
  | other (code : ℕ)
deriving DecidableEq

structure Segment where
  type : SegmentType
  offset : ℕ
  vaddr : ℕ
  filesz : ℕ
  memsz : ℕ
  align : ℕ

inductive SectionType
  | rela
  | other (code : ℕ)
deriving DecidableEq

inductive RelocationType
  | relative
  | other (code : ℕ)
deriving DecidableEq

/-- A relocation, with the addend as a word. -/
structure Entry where
  offset : ℕ
  symbol : ℕ
  type : RelocationType
  addend : BitVec 64

structure Section where
  type : SectionType
  entries : List Entry

/-- `mappedFile` is the content of the file in memory, and `mappedAddr` its address. -/
structure Loader where
  segments : List Segment
  sections : List Section
  entry : ℕ
  segmentsOffset : ℕ
  segmentEntrySize : ℕ
  mappedFile : Bytes.Mem
  mappedAddr : ℕ
  loadBias : ℕ

/-- The segments of type `PT_LOAD`. -/
def loads (l : List Segment) : List Segment := l.filter fun p => p.type = .load

/-! ### The code -/

namespace Segment

/-- `p_vaddr & pagemask`. -/
def allocBegin (p : Segment) : ℕ := p.vaddr / 4096 * 4096

/-- `(p_vaddr + p_memsz + pageshift) & ~pageshift`. -/
def allocEnd (p : Segment) : ℕ := roundLen (add64 p.vaddr p.memsz)

/-- `allocend - allocbegin`, after the bias was added to both. -/
def allocLen (p : Segment) (bias : ℕ) : ℕ := sub64 (add64 p.allocEnd bias) (add64 p.allocBegin bias)

/-- `p_offset & pageshift`. -/
def mapoff (p : Segment) : ℕ := p.offset % 4096

/-- The buffer after `memset` and `memcpy`. -/
def buffer (p : Segment) (file : Bytes.Mem) : Bytes.Mem := fun x =>
  if p.mapoff ≤ x ∧ x < p.mapoff + p.filesz then file (p.offset + (x - p.mapoff)) else 0

/-- The arguments of `addPages`. -/
def toCall (p : Segment) (file : Bytes.Mem) (bias : ℕ) (driver : Bool) : Call :=
  { dest := add64 p.allocBegin bias, src := p.buffer file, len := p.allocLen bias, driver := driver }

end Segment

/-- The ways in which the loader ends, or goes past the end of a buffer. -/
inductive Failure
  | noSegments
  | noRelocations
  | mmapFailed
  | overrun
  | enclave (e : Enclave.Exit)

/-- The case of `PT_LOAD`, up to the call of `addPages`. -/
def Segment.call (p : Segment) (file : Bytes.Mem) (bias : ℕ) (driver : Bool) : Except Failure Call :=
  if p.allocLen bias = 0 then .error .mmapFailed
  else if p.filesz ≠ 0 ∧ p.allocLen bias < p.mapoff + p.filesz then .error .overrun
  else .ok (p.toCall file bias driver)

/-- The variables of the loop of `load`. -/
structure LoadState where
  manager : Manager
  tlsBase : ℕ
  tlsLen : ℕ

/-- The loop of `load`; `driver` has the answers of the driver. -/
def loadSegments (file : Bytes.Mem) (bias : ℕ) (driver : Segment → Bool) :
    List Segment → LoadState → Except Failure LoadState
  | [], s => .ok s
  | p :: l, s =>
      match p.type with
      | .load => do
          let c ← p.call file bias (driver p)
          let m ← (s.manager.addPages c).mapError .enclave
          loadSegments file bias driver l { s with manager := m }
      | .tls => loadSegments file bias driver l { s with tlsBase := p.vaddr, tlsLen := p.memsz }
      | _ => loadSegments file bias driver l s

/-- What `load` sets in the new thread and in the auxiliary vector. -/
structure Program where
  thread : Thread
  bias : ℕ
  userTLS : ℕ × ℕ
  auxEntry : ℕ
  auxPhdr : ℕ
  auxPhent : ℕ
  auxPhnum : ℕ

/-- `load`; the last arguments are those of `createThread`. -/
def Loader.load (ld : Loader) (m : Manager) (driver : Segment → Bool) (libOSData : ℕ) (memOk : Bool)
    (threadDriver : ℕ → Bool) : Except Failure (Program × Manager) := do
  let s ← loadSegments ld.mappedFile ld.loadBias driver ld.segments ⟨m, 0, 0⟩
  let (thread, m) ← (s.manager.createThread (add64 ld.entry ld.loadBias) libOSData memOk
    threadDriver).mapError .enclave
  .ok (⟨thread, ld.loadBias, (add64 s.tlsBase ld.loadBias, s.tlsLen), add64 ld.entry ld.loadBias,
    add64 ld.mappedAddr ld.segmentsOffset, ld.segmentEntrySize, ld.segments.length⟩, m)

/-! ### What is handed to `addPages` -/

/-- The calls of `addPages` that `load` makes if all of them are accepted. -/
def handed (file : Bytes.Mem) (bias : ℕ) (driver : Segment → Bool) :
    List Segment → Except Failure (List Call)
  | [] => .ok []
  | p :: l => do
      let c ← p.call file bias (driver p)
      let cs ← handed file bias driver l
      .ok (c :: cs)

variable {file : Bytes.Mem} {bias : ℕ} {driver : Segment → Bool} {p q : Segment} {l : List Segment}

theorem call_eq_ok {c : Call} {b : Bool} : p.call file bias b = .ok c ↔
    p.allocLen bias ≠ 0 ∧ (p.filesz ≠ 0 → p.mapoff + p.filesz ≤ p.allocLen bias) ∧
      c = p.toCall file bias b := by
  unfold Segment.call
  split
  · next hzero => simp [hzero]
  · next hne =>
    split
    · next hover => simp [hover.1, hover.2]
    · next hfit =>
      rw [not_and, not_lt] at hfit
      simp only [Except.ok.injEq]
      exact ⟨fun heq => ⟨hne, hfit, heq.symm⟩, fun h => h.2.2.symm⟩

/-- The calls exist if each segment has a buffer that is long enough. -/
theorem handed_eq_ok {cs : List Call} : handed file bias driver l = .ok cs ↔
    (∀ p ∈ l, p.allocLen bias ≠ 0 ∧ (p.filesz ≠ 0 → p.mapoff + p.filesz ≤ p.allocLen bias)) ∧
      cs = l.map fun p => p.toCall file bias (driver p) := by
  induction l generalizing cs with
  | nil =>
    refine ⟨fun h => ⟨nofun, (Except.ok.inj h).symm⟩, fun h => ?_⟩
    rw [h.2]
    rfl
  | cons p l ih =>
    unfold handed
    constructor
    · intro h
      obtain ⟨c, hc, h⟩ := bind_eq_ok.1 h
      obtain ⟨cs', hcs, h⟩ := bind_eq_ok.1 h
      obtain rfl := Except.ok.inj h
      obtain ⟨hlen, hfit, rfl⟩ := call_eq_ok.1 hc
      obtain ⟨hall, rfl⟩ := ih.1 hcs
      exact ⟨List.forall_mem_cons.2 ⟨⟨hlen, hfit⟩, hall⟩, rfl⟩
    · rintro ⟨hall, rfl⟩
      obtain ⟨⟨hlen, hfit⟩, hall⟩ := List.forall_mem_cons.1 hall
      rw [call_eq_ok.2 ⟨hlen, hfit, rfl⟩, ih.2 ⟨hall, rfl⟩]
      rfl

/-- The calls that the manager accepts in the loop are those of `handed`. -/
theorem loadSegments_accepted {s s' : LoadState} (h : loadSegments file bias driver l s = .ok s') :
    ∃ cs, handed file bias driver (loads l) = .ok cs ∧
      s'.manager.accepted = s.manager.accepted ++ cs := by
  induction l generalizing s with
  | nil =>
    obtain rfl := Except.ok.inj h
    exact ⟨[], rfl, (List.append_nil _).symm⟩
  | cons p l ih =>
    unfold loadSegments at h
    split at h
    · next htype =>
      obtain ⟨c, hc, h⟩ := bind_eq_ok.1 h
      obtain ⟨m, hm, h⟩ := bind_eq_ok.1 h
      obtain ⟨-, rfl⟩ := Enclave.addPages_eq_ok_iff.1 (mapError_eq_ok.1 hm)
      obtain ⟨cs, hcs, haccepted⟩ := ih h
      refine ⟨c :: cs, ?_, ?_⟩
      · rw [loads, List.filter_cons_of_pos (by simpa using htype)]
        exact bind_eq_ok.2 ⟨c, hc, bind_eq_ok.2 ⟨cs, hcs, rfl⟩⟩
      · rw [haccepted]
        exact List.append_assoc ..
    · next htype =>
      rw [loads, List.filter_cons_of_neg (by simp [htype])]
      exact ih (s := { s with tlsBase := p.vaddr, tlsLen := p.memsz }) h
    · next hload _ =>
      rw [loads, List.filter_cons_of_neg (by simpa using hload)]
      exact ih h

/-- **If `load` succeeds, what it has handed over is in the enclave.** -/
theorem load_accepted {ld : Loader} {m m' : Manager} {libOSData : ℕ} {memOk : Bool}
    {threadDriver : ℕ → Bool} {prog : Program}
    (h : ld.load m driver libOSData memOk threadDriver = .ok (prog, m')) :
    ∃ (cs : List Call) (s : Manager), handed ld.mappedFile ld.loadBias driver (loads ld.segments) = .ok cs ∧
      s.accepted = m.accepted ++ cs ∧
      s.createThread (add64 ld.entry ld.loadBias) libOSData memOk threadDriver = .ok (prog.thread, m') := by
  obtain ⟨s, hs, h⟩ := bind_eq_ok.1 h
  obtain ⟨⟨thread, m''⟩, ht, h⟩ := bind_eq_ok.1 h
  obtain ⟨rfl, rfl⟩ := Prod.mk.inj (Except.ok.inj h)
  obtain ⟨cs, hcs, haccepted⟩ := loadSegments_accepted hs
  exact ⟨cs, s.manager, hcs, haccepted, mapError_eq_ok.1 ht⟩

/-! ### What is expected, and when -/

/-- The pages of a segment, in exact arithmetic. -/
def Segment.pages (p : Segment) : Span :=
  ⟨p.allocBegin, roundUp 4096 (p.vaddr + p.memsz) - p.allocBegin⟩

/-- At the address of each byte of each segment, the pages have the byte of the file, or zero after the
end of the file's part; the other bytes of the pages are zero. -/
structure Loaded (l : List Segment) (file : Bytes.Mem) (bias : ℕ) (cs : List Call) : Prop where
  covered : ∀ p ∈ l, ∀ k < p.memsz, ∃ c ∈ cs, ∃ x < c.len, add64 c.dest x = add64 (p.vaddr + k) bias
  content : ∀ c ∈ cs, ∀ x < c.len, ∀ p ∈ l, ∀ k < p.memsz, add64 c.dest x = add64 (p.vaddr + k) bias →
    c.src x = if k < p.filesz then file (p.offset + k) else 0
  rest : ∀ c ∈ cs, ∀ x < c.len, (∀ p ∈ l, ∀ k < p.memsz, add64 c.dest x ≠ add64 (p.vaddr + k) bias) →
    c.src x = 0

/-- The `PT_LOAD` segments are in the address space, on different pages, and follow the rules of ELF, and
the first one begins at a page. -/
structure WellFormed (l : List Segment) : Prop where
  first_aligned : ∀ p, l.head? = some p → 4096 ∣ p.vaddr
  disjoint : l.Pairwise fun p q => Disjoint p.pages.bytes q.pages.bytes
  fits : ∀ p ∈ l, p.vaddr + p.memsz ≤ 2 ^ 64
  filesz_le : ∀ p ∈ l, p.filesz ≤ p.memsz
  align_pow : ∀ p ∈ l, ∃ n, p.align = 2 ^ n
  congruent : ∀ p ∈ l, p.vaddr % p.align = p.offset % p.align

/-- The segment has at least one page and not the whole address space, and its address and its offset
agree within a page unless it has no bytes in the file. -/
structure Loadable (p : Segment) : Prop where
  pages_ne : p.pages.len ≠ 0 ∧ p.pages.len ≠ 2 ^ 64
  agree : p.filesz ≠ 0 → p.vaddr % 4096 = p.offset % 4096

/-! ### The buffer of a segment -/

theorem pages_bounds (h : p.vaddr + p.memsz ≤ 2 ^ 64) :
    p.allocBegin + p.vaddr % 4096 = p.vaddr ∧ p.vaddr % 4096 + p.memsz ≤ p.pages.len ∧
      p.allocBegin + p.pages.len ≤ 2 ^ 64 := by
  simp only [Segment.pages, Segment.allocBegin, roundUp]
  omega

/-- The length of the buffer is that of the pages, but for the whole address space. -/
theorem allocLen_eq : p.allocLen bias = p.pages.len % 2 ^ 64 := by
  simp only [Segment.allocLen, Segment.allocEnd, Segment.pages, Segment.allocBegin, sub64, add64, roundLen,
    roundUp]
  omega

/-- The addresses of the buffer, with the bias taken off. -/
theorem address_eq {x a : ℕ} (hx : p.allocBegin + x < 2 ^ 64) (ha : a < 2 ^ 64) :
    add64 (add64 p.allocBegin bias) x = add64 a bias ↔ p.allocBegin + x = a := by
  simp only [add64]
  omega

theorem Loadable.allocLen_eq (h : Loadable p) (hfits : p.vaddr + p.memsz ≤ 2 ^ 64) :
    p.allocLen bias = p.pages.len := by
  have hle := (pages_bounds hfits).2.2
  have hne := h.pages_ne.2
  rw [Elf.allocLen_eq]
  exact Nat.mod_eq_of_lt (by omega)

theorem buffer_eq (h : Loadable p) {k : ℕ} :
    p.buffer file (p.vaddr % 4096 + k) = if k < p.filesz then file (p.offset + k) else 0 := by
  unfold Segment.buffer Segment.mapoff
  rcases Nat.eq_zero_or_pos p.filesz with hzero | hpos
  · rw [if_neg (by omega), if_neg (by omega)]
  · rw [h.agree hpos.ne']
    split
    · rw [if_pos (by omega), Nat.add_sub_cancel_left]
    · rw [if_neg (by omega)]

theorem buffer_of_not (h : Loadable p) {x : ℕ} (hx : x < p.vaddr % 4096 ∨ p.vaddr % 4096 + p.filesz ≤ x) :
    p.buffer file x = 0 := by
  unfold Segment.buffer Segment.mapoff
  rcases Nat.eq_zero_or_pos p.filesz with hzero | hpos
  · rw [if_neg (by omega)]
  · have := h.agree hpos.ne'
    rw [if_neg (by omega)]

/-! ### All the segments -/

/-- An address that is in the pages of two segments is in those of one. -/
theorem eq_of_mem_pages (h : WellFormed l) (hp : p ∈ l) (hq : q ∈ l) {a : ℕ} (hap : a ∈ p.pages.bytes)
    (haq : a ∈ q.pages.bytes) : p = q := by
  by_contra hne
  have : Std.Symm fun p q : Segment => Disjoint p.pages.bytes q.pages.bytes := ⟨fun _ _ hd => hd.symm⟩
  exact Set.disjoint_left.1 (h.disjoint.forall hp hq hne) hap haq

theorem loaded_of_loadable (h : WellFormed l) (hall : ∀ p ∈ l, Loadable p) :
    ∃ cs, handed file bias driver l = .ok cs ∧ Loaded l file bias cs := by
  refine ⟨_, handed_eq_ok.2 ⟨fun p hp => ?_, rfl⟩, ?_, ?_, ?_⟩
  · have hload := hall p hp
    rw [hload.allocLen_eq (h.fits p hp)]
    refine ⟨hload.pages_ne.1, fun hpos => ?_⟩
    have hbounds := (pages_bounds (h.fits p hp)).2.1
    have hle := h.filesz_le p hp
    have hagree := hload.agree hpos
    rw [Segment.mapoff, ← hagree]
    omega
  · intro p hp k hk
    obtain ⟨hbegin, hlen, hend⟩ := pages_bounds (h.fits p hp)
    refine ⟨_, List.mem_map_of_mem hp, p.vaddr % 4096 + k, ?_, ?_⟩
    · change _ < p.allocLen bias
      rw [(hall p hp).allocLen_eq (h.fits p hp)]
      omega
    · refine (address_eq (by omega) (by omega)).2 ?_
      omega
  · intro c hc x hx p hp k hk haddr
    obtain ⟨q, hq, rfl⟩ := List.mem_map.1 hc
    obtain ⟨hbegin, hlen, hend⟩ := pages_bounds (h.fits p hp)
    obtain ⟨-, -, hendq⟩ := pages_bounds (h.fits q hq)
    change x < q.allocLen bias at hx
    rw [(hall q hq).allocLen_eq (h.fits q hq)] at hx
    rw [Segment.toCall, address_eq (by omega) (by omega)] at haddr
    have hmem : p.vaddr + k ∈ q.pages.bytes := ⟨by rw [← haddr]; exact Nat.le_add_right .., by
      rw [← haddr]
      exact Nat.add_lt_add_left hx _⟩
    obtain rfl : p = q := eq_of_mem_pages h hp hq ⟨by change p.allocBegin ≤ _; omega, by
      change _ < p.allocBegin + p.pages.len
      omega⟩ hmem
    obtain rfl : x = p.vaddr % 4096 + k := by omega
    exact buffer_eq (hall p hp)
  · intro c hc x hx hnot
    obtain ⟨q, hq, rfl⟩ := List.mem_map.1 hc
    obtain ⟨hbegin, hlen, hend⟩ := pages_bounds (h.fits q hq)
    change x < q.allocLen bias at hx
    rw [(hall q hq).allocLen_eq (h.fits q hq)] at hx
    refine buffer_of_not (hall q hq) ?_
    by_contra hin
    rw [not_or, not_lt, not_le] at hin
    have hle := h.filesz_le q hq
    refine hnot q hq (x - q.vaddr % 4096) (by omega) ((address_eq (by omega) (by omega)).2 ?_)
    omega

/-- A segment whose pages are right for every content of the file is loadable. -/
theorem loadable_of_loaded (h : WellFormed l) (hp : p ∈ l)
    (hall : ∀ file, ∃ cs, handed file bias driver l = .ok cs ∧ Loaded l file bias cs) : Loadable p := by
  obtain ⟨hbegin, hlen, hend⟩ := pages_bounds (h.fits p hp)
  -- a file with one byte that is not zero: it must come to the first address of the segment
  obtain ⟨cs, hcs, hloaded⟩ := hall fun x => if x = p.offset then 1 else 0
  obtain ⟨hbuffers, rfl⟩ := handed_eq_ok.1 hcs
  have hne := (hbuffers p hp).1
  rw [allocLen_eq] at hne
  refine ⟨by omega, fun hpos => ?_⟩
  have hle := h.filesz_le p hp
  have hx : p.vaddr % 4096 < p.allocLen bias := by
    rw [allocLen_eq]
    omega
  have hbyte := hloaded.content _ (List.mem_map_of_mem hp) _ hx p hp 0 (by omega)
    ((address_eq (by omega) (by omega)).2 hbegin)
  rw [if_pos (Nat.pos_of_ne_zero hpos), if_pos (Nat.add_zero _)] at hbyte
  by_contra hdiff
  have hzero : p.buffer (fun x => if x = p.offset then 1 else 0) (p.vaddr % 4096) = 0 := by
    unfold Segment.buffer Segment.mapoff
    split
    · exact if_neg (by omega)
    · rfl
  exact absurd (hzero.symm.trans hbyte) (by decide)

/-- **The pages are right for every content of the file if and only if every segment has pages and its
address and its offset agree within a page.** -/
theorem loaded_iff (ld : Loader) (h : WellFormed (loads ld.segments)) :
    (∀ file, ∃ cs, handed file ld.loadBias (fun _ => true) (loads ld.segments) = .ok cs ∧
      Loaded (loads ld.segments) file ld.loadBias cs) ↔ ∀ p ∈ loads ld.segments, Loadable p :=
  ⟨fun hall _ hp => loadable_of_loaded h hp hall, fun hall _ => loaded_of_loadable h hall⟩

/-- A loader for the given segments, at the bias `0x10000`. -/
def loaderOf (l : List Segment) (sections : List Section) : Loader :=
  ⟨l, sections, 0, 64, 56, fun _ => 0, 0, 0x10000⟩

/-- Segments in two consecutive parts of a file; the second one, with the given address and alignment, has
some bytes after the file's part. -/
def twoSegments (vaddr align : ℕ) : List Segment :=
  [⟨.load, 0, 0, 0x800, 0x800, 4096⟩, ⟨.load, 0x800, vaddr, 0x100, 0x200, align⟩]

theorem wellFormed_twoSegments {vaddr n : ℕ} (hpage : 0x1000 ≤ vaddr) (hlt : vaddr < 0x10000)
    (halign : vaddr % 2 ^ n = 0x800 % 2 ^ n) : WellFormed (twoSegments vaddr (2 ^ n)) where
  first_aligned p hp := by
    obtain rfl := Option.some.inj hp
    exact Nat.dvd_zero 4096
  disjoint := by
    refine List.pairwise_pair.2 (Span.disjoint_bytes ?_)
    simp only [Segment.pages, Segment.allocBegin, roundUp]
    omega
  fits := by simp [twoSegments]; omega
  filesz_le := by simp [twoSegments]
  align_pow := by
    simp only [twoSegments, List.forall_mem_cons]
    exact ⟨⟨12, rfl⟩, ⟨n, rfl⟩, fun p hp => absurd hp List.not_mem_nil⟩
  congruent := by simpa [twoSegments] using halign

theorem loaded_iff_twoSegments :
    ∃ cs, handed UInt8.ofNat 0x10000 (fun _ => true) (twoSegments 0x1800 (2 ^ 12)) = .ok cs ∧
      Loaded (twoSegments 0x1800 (2 ^ 12)) UInt8.ofNat 0x10000 cs := by
  refine (loaded_iff (loaderOf (twoSegments 0x1800 (2 ^ 12)) [])
    (wellFormed_twoSegments (by decide) (by decide) (by decide))).2 ?_ UInt8.ofNat
  refine List.forall_mem_cons.2 ⟨⟨by decide, fun _ => by decide⟩, ?_⟩
  exact List.forall_mem_cons.2 ⟨⟨by decide, fun _ => by decide⟩, nofun⟩

/-- A segment with the alignment `0x800`: its bytes are put at `0x1800`, although it begins at
`0x1000`. -/
theorem load_misplaces : WellFormed (twoSegments 0x1000 (2 ^ 11)) ∧
    ¬ ∀ file, ∃ cs, handed file 0x10000 (fun _ => true) (twoSegments 0x1000 (2 ^ 11)) = .ok cs ∧
      Loaded (twoSegments 0x1000 (2 ^ 11)) file 0x10000 cs := by
  have hwell : WellFormed (twoSegments 0x1000 (2 ^ 11)) :=
    wellFormed_twoSegments (by decide) (by decide) (by decide)
  refine ⟨hwell, fun hall => ?_⟩
  have hload := loadable_of_loaded hwell (List.mem_cons_of_mem _ List.mem_cons_self) hall
  have := hload.agree (by decide)
  revert this
  decide

end Elf

/-
**What the measurement of an enclave says about it.**

`SigstructGenerator` (`src/loader/signature.cpp`) computes the measurement of the enclave with SHA-256.
The constructor of `EnclaveManager` feeds a record with the size of the enclave and of the frames of the
save area, and `addPages` a record with the offset and the flags of each page.  All records are 64 bytes
long, so the string of records can be taken apart again: the size, the offsets and the flags, in the
order of the pages, are bound by the measurement.

The bytes of the pages do not enter the records, and `mrmask` is 0, so the driver does not measure them
either.  Two enclaves with other bytes in their pages have the same measurement.

Main definitions: `memoryLoop`, `Measured`.  Main results: `Measured.flip`, `binds_iff`.
-/

import SgxElps.Loader.Enclave
import SgxElps.Lib.BigNum

namespace Enclave

open List

/-! ### The records -/

/-- `SSA_FRAMESIZE_PAGE`. -/
def ssaFramesizePage : ℕ := 4

/-- `"ECREATE"`, in a field of 8 bytes. -/
def ecreateCmd : List UInt8 := [69, 67, 82, 69, 65, 84, 69, 0]

/-- `"EADD"`, in a field of 8 bytes. -/
def eaddCmd : List UInt8 := [69, 65, 68, 68, 0, 0, 0, 0]

/-- The bytes of `Ecreate`. -/
def doEcreate (size nframes : ℕ) : List UInt8 :=
  ecreateCmd ++ BigNum.toBytesLE 4 nframes ++ BigNum.toBytesLE 8 size ++ replicate 44 0

/-- The bytes of `Eadd`. -/
def doEadd (offset : ℕ) (flags : BitVec 64) : List UInt8 :=
  eaddCmd ++ BigNum.toBytesLE 8 offset ++ BigNum.toBytesLE 8 flags.toNat ++ replicate 40 0

/-- The record of a page. -/
def Page.record (p : Page) : List UInt8 := doEadd p.offset p.flags

/-- What the record of a page says. -/
def Page.label (p : Page) : ℕ × BitVec 64 := (p.offset, p.flags)

theorem length_doEcreate (size nframes : ℕ) : (doEcreate size nframes).length = 64 := by
  simp only [doEcreate, length_append, BigNum.length_toBytesLE, length_replicate]
  rfl

theorem length_record (p : Page) : p.record.length = 64 := by
  simp only [Page.record, doEadd, length_append, BigNum.length_toBytesLE, length_replicate]
  rfl

theorem doEcreate_inj {size size' nframes : ℕ} (h : size < 2 ^ 64) (h' : size' < 2 ^ 64)
    (heq : doEcreate size nframes = doEcreate size' nframes) : size = size' := by
  unfold doEcreate at heq
  have hfields := append_cancel_right heq
  exact BigNum.toBytesLE_inj h h' (append_cancel_left hfields)

theorem label_eq_of_record_eq {p q : Page} (hp : p.offset < 2 ^ 64) (hq : q.offset < 2 ^ 64)
    (heq : p.record = q.record) : p.label = q.label := by
  unfold Page.record doEadd at heq
  have hfields := append_cancel_right heq
  have hlen : (eaddCmd ++ BigNum.toBytesLE 8 p.offset).length =
      (eaddCmd ++ BigNum.toBytesLE 8 q.offset).length := by
    simp only [length_append, BigNum.length_toBytesLE]
  obtain ⟨hhead, hflags⟩ := append_inj hfields hlen
  have hoffset := BigNum.toBytesLE_inj hp hq (append_cancel_left hhead)
  have hbits := BitVec.eq_of_toNat_eq (BigNum.toBytesLE_inj p.flags.isLt q.flags.isLt hflags)
  rw [Page.label, Page.label, hoffset, hbits]

/-! ### Building an enclave -/

/-- `for (enclaveMemoryLen = 1; enclaveMemoryLen < len;) enclaveMemoryLen <<= 1`. -/
def memoryLoop (len : ℕ) : ℕ → ℕ → Option ℕ
  | 0, _ => none
  | fuel + 1, memoryLen =>
      if memoryLen < len then memoryLoop len fuel (memoryLen * 2 % 2 ^ 64) else some memoryLen

/-- The constructor of `EnclaveManager` and calls of `addPages` that are accepted lead to the manager, and
have fed the bytes to SHA-256. -/
inductive Measured : Manager → List UInt8 → Prop
  | construct {r : Region} {len fuel : ℕ} (hlen : memoryLoop len fuel 1 = some r.len) :
      Measured (.new r) (doEcreate r.len ssaFramesizePage)
  | addPages {m m' : Manager} {stream : List UInt8} {c : Call} (hbuilt : Measured m stream)
      (hok : m.addPages c = .ok m') :
      Measured m' (stream ++ (c.pages m.region).flatMap Page.record)

/-- The enclave. -/
structure Image where
  size : ℕ
  ssaFramesize : ℕ
  pages : List Page

def Manager.image (m : Manager) : Image := ⟨m.region.len, ssaFramesizePage, m.pages⟩

variable {m m' : Manager} {c : Call} {stream : List UInt8}

theorem Measured.stream_eq (h : Measured m stream) :
    stream = doEcreate m.region.len ssaFramesizePage ++ m.pages.flatMap Page.record := by
  induction h with
  | construct hlen => exact (append_nil _).symm
  | @addPages m m' stream c hbuilt hok ih =>
    obtain ⟨-, rfl⟩ := addPages_eq_ok_iff.1 hok
    rw [ih]
    dsimp only
    rw [flatMap_append, append_assoc]

theorem Measured.offset_lt (h : Measured m stream) : ∀ p ∈ m.pages, p.offset < 2 ^ 64 := by
  induction h with
  | construct hlen => exact fun p hp => absurd hp not_mem_nil
  | @addPages m m' stream c hbuilt hok ih =>
    obtain ⟨-, rfl⟩ := addPages_eq_ok_iff.1 hok
    intro p hp
    rcases mem_append.1 hp with hp | hp
    · exact ih p hp
    · obtain ⟨i, -, rfl⟩ := mem_map.1 hp
      exact Nat.mod_lt _ (by decide)

/-! ### What is bound -/

theorem map_label_eq {l l' : List Page} (h : ∀ p ∈ l, p.offset < 2 ^ 64)
    (h' : ∀ p ∈ l', p.offset < 2 ^ 64) (heq : l.map Page.record = l'.map Page.record) :
    l.map Page.label = l'.map Page.label := by
  induction l generalizing l' with
  | nil =>
    cases l' with
    | nil => rfl
    | cons q l' => cases heq
  | cons p l ih =>
    cases l' with
    | nil => cases heq
    | cons q l' =>
      rw [map_cons, map_cons, List.cons.injEq] at heq
      rw [forall_mem_cons] at h h'
      rw [map_cons, map_cons, label_eq_of_record_eq h.1 h'.1 heq.1, ih h.2 h'.2 heq.2]

/-- **The records bind the size of the enclave and the offsets and the flags of its pages, in order.** -/
theorem Measured.labels_eq (h : Measured m stream) (h' : Measured m' stream) :
    m.region.len = m'.region.len ∧ m.pages.map Page.label = m'.pages.map Page.label := by
  have hlt : ∀ r : Region, r.len < 2 ^ 64 := fun r => (Nat.le_add_left ..).trans_lt r.fits
  have heq := h.stream_eq.symm.trans h'.stream_eq
  obtain ⟨hcreate, hadd⟩ := append_inj heq
    ((length_doEcreate ..).trans (length_doEcreate ..).symm)
  refine ⟨doEcreate_inj (hlt _) (hlt _) hcreate, ?_⟩
  exact map_label_eq h.offset_lt h'.offset_lt
    (BigNum.map_eq_of_flatMap_eq (by decide) length_record hadd)

/-! ### What is not bound -/

/-- The same call with other bytes. -/
def Call.flip (c : Call) : Call := { c with src := fun i => c.src i + 1 }

def Page.flip (p : Page) : Page := { p with bytes := fun j => p.bytes j + 1 }

/-- The manager that the calls with the other bytes lead to. -/
def Manager.flip (m : Manager) : Manager :=
  { m with pages := m.pages.map Page.flip, accepted := m.accepted.map Call.flip }

theorem pages_flip (r : Region) (c : Call) : c.flip.pages r = (c.pages r).map Page.flip := by
  rw [Call.pages, Call.pages, map_map]
  rfl

theorem flatMap_record_flip (l : List Page) :
    (l.map Page.flip).flatMap Page.record = l.flatMap Page.record := by
  rw [flatMap_map]
  rfl

theorem addPages_flip (h : m.addPages c = .ok m') : m.flip.addPages c.flip = .ok m'.flip := by
  obtain ⟨⟨hrange, hnext, hprev, hdriver⟩, rfl⟩ := addPages_eq_ok_iff.1 h
  refine addPages_eq_ok_iff.2 ⟨⟨hrange, hnext, hprev, hdriver⟩, ?_⟩
  simp only [Manager.flip, map_append, map_cons, map_nil, ← pages_flip]
  rfl

/-- **The records do not depend on the bytes of the pages.** -/
theorem Measured.flip (h : Measured m stream) : Measured m.flip stream := by
  induction h with
  | construct hlen => exact .construct hlen
  | @addPages m m' stream c hbuilt hok ih =>
    have hstep := Measured.addPages ih (addPages_flip hok)
    rw [pages_flip, flatMap_record_flip] at hstep
    exact hstep

theorem image_flip_ne (h : m.pages ≠ []) : m.flip.image ≠ m.image := by
  intro heq
  have hpages : m.pages.map Page.flip = m.pages := congrArg Image.pages heq
  obtain ⟨p, l, hl⟩ := exists_cons_of_ne_nil h
  rw [hl, map_cons, List.cons.injEq] at hpages
  have hbyte : p.bytes 0 + 1 = p.bytes 0 := congrFun (congrArg Page.bytes hpages.1) 0
  have hone : (1 : UInt8) = 0 := by
    rw [← UInt8.add_right_inj (p.bytes 0), hbyte, UInt8.add_zero]
  exact absurd hone (by decide)

/-- **The measurement binds an enclave if and only if it has no pages.** -/
theorem binds_iff (h : Measured m stream) :
    (∀ m', Measured m' stream → m'.image = m.image) ↔ m.pages = [] := by
  constructor
  · intro hbinds
    by_contra hne
    exact image_flip_ne hne (hbinds m.flip h.flip)
  · intro hnil m' h'
    obtain ⟨hsize, hlabels⟩ := h'.labels_eq h
    rw [hnil, map_nil, map_eq_nil_iff] at hlabels
    rw [Manager.image, Manager.image, hsize, hlabels, hnil]

/-- An enclave of one page, at `0x10000`. -/
def smallRegion : Region := ⟨0x10000, 4096, by decide⟩

theorem measured_smallRegion : Measured (.new smallRegion) (doEcreate 4096 ssaFramesizePage) :=
  .construct (show memoryLoop 4096 13 1 = some 4096 by decide)

theorem binds_iff_smallRegion : Measured (.new smallRegion) (doEcreate 4096 ssaFramesizePage) ∧
    ∀ m', Measured m' (doEcreate 4096 ssaFramesizePage) → m'.image = (Manager.new smallRegion).image :=
  ⟨measured_smallRegion, (binds_iff measured_smallRegion).2 rfl⟩

/-- Two enclaves of one page with the same measurement: the bytes of the page are 0, and 1. -/
theorem measurement_misses_contents :
    ∃ m m' stream, Measured m stream ∧ Measured m' stream ∧ m.pages ≠ [] ∧ m.image ≠ m'.image := by
  obtain ⟨m, hm⟩ : ∃ m, (Manager.new smallRegion).addPages ⟨0x10000, fun _ => 0, 4096, true, true, false,
      true⟩ = .ok m := ⟨_, rfl⟩
  have hbuilt := Measured.addPages measured_smallRegion hm
  have hpages : m.pages ≠ [] := by
    obtain ⟨-, rfl⟩ := addPages_eq_ok_iff.1 hm
    decide
  exact ⟨m, m.flip, _, hbuilt, hbuilt.flip, hpages, (image_flip_ne hpages).symm⟩

end Enclave

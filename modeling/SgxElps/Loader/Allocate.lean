/-
**The ranges that `allocate` finds.**

`allocate` in `loader/enclave_manager.cpp` goes through the ranges that were added and returns the
beginning of the first gap that is longer than asked, or the end of the last range.  It compares the
length as it is given, where `addPages` rounds it up.  `makeHeap` fills the range page by page, and
`createThread` fills three ranges, the second in two parts.

Main definitions: `Manager.allocate`, `Manager.makeHeap`, `Manager.createThread`.
Main result: `allocate_accepted`.
-/

import SgxElps.Loader.Enclave
import SgxElps.Lib.Bytes

namespace Enclave

open List
open Bytes

/-! ### The code -/

/-- The loop of `allocate`: the beginning of a gap that is long enough, or else the end of the last
range. -/
def firstGap (len : ℕ) : ℕ → List (ℕ × ℕ) → ℕ ⊕ ℕ
  | prev, [] => .inr prev
  | prev, e :: l => if len < sub64 e.1 prev then .inl prev else firstGap len (add64 e.1 e.2) l

/-- `allocate`. -/
def Manager.allocate (s : Manager) (len : ℕ) : Except Exit ℕ :=
  if s.mappings.entries.isEmpty then .ok s.region.base
  else match firstGap len s.region.base s.mappings.entries with
    | .inl prev => .ok prev
    | .inr prev =>
        if sub64 (add64 s.region.base s.region.len) prev < len then .error (.notEnoughSpace len)
        else .ok prev

/-- The page that `getZeroPage` returns. -/
def zeroPage : ℕ → UInt8 := fun _ => 0

/-- The loop of `makeHeap`, with the number of the pages that are left; `driver` has the answers of the
driver. -/
def Manager.fillHeap (heapBase : ℕ) (driver : ℕ → Bool) : ℕ → ℕ → Manager → Except Exit Manager
  | 0, _, s => .ok s
  | k + 1, offset, s => do
      let s ← s.addPages
        { dest := add64 heapBase offset, src := zeroPage, len := 4096, driver := driver offset }
      fillHeap heapBase driver k (offset + 4096) s

/-- `makeHeap`. -/
def Manager.makeHeap (s : Manager) (len : ℕ) (driver : ℕ → Bool) : Except Exit (ℕ × Manager) := do
  let heapBase ← s.allocate len
  let s ← fillHeap heapBase driver ((len + 4095) / 4096) 0 s
  .ok (heapBase, s)

def stackLen : ℕ := (2 + 2) * 4096
def ssaLen : ℕ := 4 * 4 * 4096 + 4096
def tcsLen : ℕ := 4096
def tlsLen : ℕ := 4096

/-- The page of the `tcs_t`. -/
def tcsPage (ossa oentry ofsbase : ℕ) : Bytes.Mem :=
  let m := write zeroPage 16 8 ossa
  let m := write m 28 4 4
  let m := write m 32 8 oentry
  let m := write m 48 8 ofsbase
  let m := write m 56 8 ofsbase
  let m := write m 64 4 0xfff
  write m 68 4 0xfff

/-- The page of the `enclave_tls`. -/
def tlsPage (enclaveSize tcsOffset initialStackOffset libOSData ssa stack : ℕ) : Bytes.Mem :=
  let m := write zeroPage 8 8 enclaveSize
  let m := write m 16 8 tcsOffset
  let m := write m 24 8 initialStackOffset
  let m := write m 32 8 libOSData
  let m := write m 40 8 ssa
  write m 48 8 stack

/-- What `createThread` gives to the new thread. -/
structure Thread where
  stackHigh : ℕ
  tcs : ℕ
  preemptInjectionStack : ℕ

/-- `createThread`.  `libOSData` is the address of the thread's shared block, `memOk` says that the
memory for the pages was mapped, and `driver` has the answers of the driver. -/
def Manager.createThread (s : Manager) (entry libOSData : ℕ) (memOk : Bool) (driver : ℕ → Bool) :
    Except Exit (Thread × Manager) :=
  if memOk then do
    let offset := fun a => sub64 a s.region.base
    let enclaveSize := s.region.len
    let stackEnclave ← s.allocate stackLen
    let s ← s.addPages { dest := stackEnclave, src := zeroPage, len := stackLen, driver := driver 0 }
    let tcsEnclave ← s.allocate (tcsLen + ssaLen + tlsLen)
    let ssaEnclave := add64 tcsEnclave tcsLen
    let tlsEnclave := add64 ssaEnclave ssaLen
    let stack := add64 stackEnclave 4096
    let tcs := tcsPage (offset ssaEnclave) (offset entry) (offset tlsEnclave)
    let tls := tlsPage enclaveSize (offset tcsEnclave) (offset stack) libOSData ssaEnclave stack
    let s ← s.addPages
      { dest := tcsEnclave, src := tcs, len := tcsLen, isTCS := true, driver := driver 1 }
    let s ← s.addPages
      { dest := ssaEnclave, src := fun x => if x < ssaLen then 0 else tls (x - ssaLen)
        len := ssaLen + tlsLen, driver := driver 2 }
    let injectionStack ← s.allocate 4096
    let s ← s.addPages { dest := injectionStack, src := zeroPage, len := 4096, driver := driver 3 }
    .ok (⟨add64 stack (2 * 4096), tcsEnclave, injectionStack⟩, s)
  else .error .threadMem

/-! ### Managers in which everything is a multiple of a page -/

/-- The managers that page-aligned calls inside the enclave lead to. -/
inductive Built (r : Region) : Manager → Prop
  | new : Built r (.new r)
  | add {s s' : Manager} {c : Call} : Built r s → 4096 ∣ c.dest → Inside r c →
      s.addPages c = .ok s' → Built r s'

structure Paged (s : Manager) : Prop extends Sound s where
  base_dvd : 4096 ∣ s.region.base
  len_dvd : 4096 ∣ s.region.len
  entry_dvd : ∀ e ∈ s.mappings.entries, 4096 ∣ e.1 ∧ 4096 ∣ e.2

variable {s s' : Manager} {c : Call} {r : Region} {a n p len : ℕ}

theorem Paged.accept (h : Paged s) (hroom : Room s c.dest (roundUp 4096 c.len)) (hc : 4096 ∣ c.dest) :
    Paged (s.accept c) := by
  refine ⟨h.toSound.accept hroom, h.base_dvd, h.len_dvd, fun e he => ?_⟩
  rcases SortedMap.mem_insert.1 he with rfl | ⟨he, -⟩
  · exact ⟨hc, dvd_roundUp 4096 c.len⟩
  · exact h.entry_dvd e he

theorem Room.mono (h : Room s a n) (hp : p ≤ n) : Room s a p where
  base_le := h.base_le
  le_end := (Nat.add_le_add_left hp a).trans h.le_end
  le_next e he hlt := (Nat.add_le_add_left hp a).trans (h.le_next e he hlt)
  prev_le := h.prev_le

/-- A call for which there is room is accepted. -/
theorem Paged.addPages (h : Paged s) (hroom : Room s c.dest (roundUp 4096 c.len)) (hc : 4096 ∣ c.dest)
    (hdriver : c.driver = true) : s.addPages c = .ok (s.accept c) ∧ Paged (s.accept c) := by
  have hlt : c.dest + roundUp 4096 c.len < 2 ^ 64 := hroom.le_end.trans_lt s.region.fits
  exact ⟨(addPages_eq_ok h.toSound hlt).2 ⟨hdriver, hroom, rfl⟩, h.accept hroom hc⟩

theorem Built.paged (hbase : 4096 ∣ r.base) (hlen : 4096 ∣ r.len) (h : Built r s) : Paged s := by
  induction h with
  | new => exact ⟨sound_new r, hbase, hlen, nofun⟩
  | add _ hc hin hadd ih =>
    have hlt := hin.2.trans_lt r.fits
    obtain ⟨-, hroom, rfl⟩ := (addPages_eq_ok ih.toSound hlt).1 hadd
    exact ih.accept hroom hc

/-! ### The search -/

theorem sub64_of_le {b : ℕ} (h : b ≤ a) (ha : a < 2 ^ 64) : sub64 a b = a - b := by
  unfold sub64
  omega

/-- The two ways out of the loop.  Every range ends before the address that is returned or begins after
the gap, and the gap is inside the enclave. -/
theorem firstGap_spec (len : ℕ) {top : ℕ} (htop : top < 2 ^ 64) {l : List (ℕ × ℕ)} {prev : ℕ}
    (hprev : 4096 ∣ prev) (hle : prev ≤ top) (hl : l.Pairwise fun e f => e.1 + e.2 ≤ f.1)
    (hin : ∀ e ∈ l, prev ≤ e.1 ∧ e.1 + e.2 ≤ top ∧ 4096 ∣ e.1 ∧ 4096 ∣ e.2) :
    ∃ a, 4096 ∣ a ∧ prev ≤ a ∧
      (firstGap len prev l = .inl a ∧ a + len < top ∧ (∀ e ∈ l, e.1 + e.2 ≤ a ∨ a + len < e.1) ∨
        firstGap len prev l = .inr a ∧ a ≤ top ∧ ∀ e ∈ l, e.1 + e.2 ≤ a) := by
  induction l generalizing prev with
  | nil => exact ⟨prev, hprev, le_rfl, .inr ⟨rfl, hle, nofun⟩⟩
  | cons e l ih =>
    obtain ⟨hel, hl⟩ := pairwise_cons.1 hl
    obtain ⟨hpe, het, hd1, hd2⟩ := hin e mem_cons_self
    unfold firstGap
    rw [sub64_of_le hpe (by omega), add64_of_lt (by omega)]
    split
    · next hlt =>
      refine ⟨prev, hprev, le_rfl, .inl ⟨rfl, by omega, fun f hf => .inr ?_⟩⟩
      rcases mem_cons.1 hf with rfl | hf
      · omega
      · have := hel f hf
        omega
    · obtain ⟨a, ha, hge, hout⟩ := ih (Nat.dvd_add hd1 hd2) het hl fun f hf =>
        ⟨hel f hf, (hin f (mem_cons_of_mem _ hf)).2⟩
      refine ⟨a, ha, by omega, ?_⟩
      rcases hout with ⟨hfound, hlt, hrest⟩ | ⟨hend, hat, hrest⟩
      · exact .inl ⟨hfound, hlt, forall_mem_cons.2 ⟨.inl hge, hrest⟩⟩
      · exact .inr ⟨hend, hat, forall_mem_cons.2 ⟨hge, hrest⟩⟩

theorem add_roundUp_le {b : ℕ} (ha : 4096 ∣ a) (hb : 4096 ∣ b) (h : a + len ≤ b) :
    a + roundUp 4096 len ≤ b := by
  have hle : roundUp 4096 len ≤ b - a := roundUp_le (by decide) (Nat.dvd_sub hb ha) (by omega)
  omega

/-- **There is room for the rounded length at the address that `allocate` returns.** -/
theorem allocate_room (h : Paged s) (hne : s.mappings.entries ≠ []) (hok : s.allocate len = .ok a) :
    4096 ∣ a ∧ Room s a (roundUp 4096 len) := by
  have hpairs : s.mappings.entries.Pairwise fun e f => e.1 + e.2 ≤ f.1 :=
    s.mappings.sorted.imp_of_mem fun he hf hef => h.separated _ he _ hf hef
  have hend : 4096 ∣ s.region.base + s.region.len := Nat.dvd_add h.base_dvd h.len_dvd
  obtain ⟨b, hb, hge, hout⟩ := firstGap_spec len s.region.fits h.base_dvd (Nat.le_add_right ..)
    hpairs fun e he => ⟨(h.inside e he).1, (h.inside e he).2, h.entry_dvd e he⟩
  have hempty : s.mappings.entries.isEmpty = false := by simpa using hne
  rw [Manager.allocate, hempty, if_neg Bool.false_ne_true] at hok
  rcases hout with ⟨hfound, hlt, hrest⟩ | ⟨hlast, hle, hrest⟩
  · rw [hfound] at hok
    obtain rfl := Except.ok.inj hok
    refine ⟨hb, hge, add_roundUp_le hb hend hlt.le, fun e he hbe => ?_, fun e he heb => ?_⟩
    · rcases hrest e he with hprev | hnext
      · omega
      · exact add_roundUp_le hb (h.entry_dvd e he).1 hnext.le
    · rcases hrest e he with hprev | hnext
      · exact hprev
      · omega
  · rw [hlast] at hok
    simp only [add64_of_lt s.region.fits, sub64_of_le hle s.region.fits] at hok
    split at hok
    · cases hok
    · next hfit =>
      obtain rfl := Except.ok.inj hok
      refine ⟨hb, hge, add_roundUp_le hb hend (by omega), fun e he hbe => ?_, fun e he _ => hrest e he⟩
      have := hrest e he
      omega

/-! ### Parts of a range -/

/-- After a part was added, there is room for the rest. -/
theorem Room.rest (h : Room s c.dest (roundUp 4096 c.len + p)) (hp : 0 < p) :
    Room (s.accept c) (c.dest + roundUp 4096 c.len) p := by
  have hend := h.le_end
  refine ⟨h.base_le.trans (Nat.le_add_right ..), ?_, fun e he hae => ?_, fun e he hea => ?_⟩
  · simp only [Manager.accept]
    omega
  · rcases SortedMap.mem_insert.1 he with rfl | ⟨he, -⟩
    · simp only at hae
      omega
    · have := h.le_next e he (by omega)
      omega
  · rcases SortedMap.mem_insert.1 he with rfl | ⟨he, -⟩
    · exact le_rfl
    · rcases Nat.lt_or_ge c.dest e.1 with hnext | hprev
      · have := h.le_next e he hnext
        omega
      · exact (h.prev_le e he hprev).trans (Nat.le_add_right ..)

/-- The calls for the `k` pages from `a` on. -/
def heapPages (a k : ℕ) : List Call :=
  (range k).map fun i => { dest := a + 4096 * i, src := zeroPage, len := 4096 }

theorem heapPages_succ (a k : ℕ) : heapPages a (k + 1) =
    { dest := a, src := zeroPage, len := 4096 } :: heapPages (a + 4096) k := by
  rw [heapPages, range_succ_eq_map, map_cons, map_map]
  refine congrArg _ (map_congr_left fun i _ => ?_)
  simp only [Function.comp_apply, Nat.succ_eq_add_one, Nat.mul_add, Nat.mul_one, Nat.add_assoc,
    Nat.add_comm 4096]

theorem fillHeap_ok {heapBase : ℕ} (k offset : ℕ) (h : Paged s) (ha : 4096 ∣ heapBase + offset)
    (hroom : k ≠ 0 → Room s (heapBase + offset) (4096 * k)) :
    ∃ s', Manager.fillHeap heapBase (fun _ => true) k offset s = .ok s' ∧
      s'.accepted = s.accepted ++ heapPages (heapBase + offset) k := by
  induction k generalizing offset s with
  | zero => exact ⟨s, rfl, (append_nil _).symm⟩
  | succ k ih =>
    have hpages : 4096 * (k + 1) = 4096 + 4096 * k := by omega
    have hroom := hpages ▸ hroom (Nat.succ_ne_zero k)
    have hlt : heapBase + offset < 2 ^ 64 :=
      (Nat.le_add_right ..).trans_lt (hroom.le_end.trans_lt s.region.fits)
    let c : Call := { dest := heapBase + offset, src := zeroPage, len := 4096 }
    have hpage : roundUp 4096 4096 = 4096 := by decide
    have hc : Room s c.dest (roundUp 4096 c.len + 4096 * k) := by simpa only [c, hpage] using hroom
    obtain ⟨hadd, hpaged⟩ := h.addPages (c := c) (hc.mono (Nat.le_add_right ..)) ha rfl
    unfold Manager.fillHeap
    rw [add64_of_lt hlt, show s.addPages { dest := heapBase + offset, src := zeroPage, len := 4096 } =
      .ok (s.accept c) from hadd]
    have hnext : heapBase + (offset + 4096) = heapBase + offset + 4096 := (Nat.add_assoc ..).symm
    obtain ⟨s', hs', haccepted⟩ := ih (offset + 4096) hpaged
      (by rw [hnext]; exact Nat.dvd_add ha (Nat.dvd_refl 4096)) fun hk => by
        have hrest := hc.rest (by omega)
        simpa only [c, hpage, hnext] using hrest
    refine ⟨s', hs', ?_⟩
    rw [haccepted, heapPages_succ, hnext, Manager.accept, append_assoc]
    rfl

theorem mul_div_eq_roundUp : 4096 * ((len + 4095) / 4096) = roundUp 4096 len := Nat.mul_comm ..

theorem makeHeap_ok (h : Paged s) (hne : s.mappings.entries ≠ []) (hok : s.allocate len = .ok a) :
    ∃ s', s.makeHeap len (fun _ => true) = .ok (a, s') ∧
      s'.accepted = s.accepted ++ heapPages a ((len + 4095) / 4096) := by
  obtain ⟨ha, hroom⟩ := allocate_room h hne hok
  obtain ⟨s', hs', haccepted⟩ := fillHeap_ok ((len + 4095) / 4096) 0 h ha fun _ =>
    mul_div_eq_roundUp ▸ hroom
  refine ⟨s', ?_, haccepted⟩
  simp only [Manager.makeHeap, hok, hs', bind, Except.bind]

/-! ### The threads -/

theorem allocate_eq_error {e : Exit} (h : s.allocate len = .error e) : e = .notEnoughSpace len := by
  rw [Manager.allocate] at h
  split at h
  · cases h
  · split at h
    · cases h
    · split at h
      · exact (Except.error.inj h).symm
      · cases h

/-- What `createThread` leads to: it exits because there is no space, or it adds the stack, the `tcs_t`, the
save area with the TLS, and the stack for preemptions. -/
def ThreadAdded (s : Manager) : Except Exit (Thread × Manager) → Prop
  | .error e => ∃ n, e = .notEnoughSpace n
  | .ok (t, s') => ∃ stack, t.stackHigh = add64 (add64 stack 4096) (2 * 4096) ∧
      (s'.accepted.map fun c => (c.dest, c.len)) = (s.accepted.map fun c => (c.dest, c.len)) ++
        [(stack, stackLen), (t.tcs, tcsLen), (add64 t.tcs tcsLen, ssaLen + tlsLen),
          (t.preemptInjectionStack, 4096)]

section Sequences

variable {β : Type} {P : Except Exit β → Prop}

theorem allocate_bind {f : ℕ → Except Exit β} (h : Paged s) (hne : s.mappings.entries ≠ [])
    (hspace : P (.error (.notEnoughSpace len)))
    (hthen : ∀ a, 4096 ∣ a → Room s a (roundUp 4096 len) → P (f a)) : P (s.allocate len >>= f) := by
  cases halloc : s.allocate len with
  | error e =>
    rw [allocate_eq_error halloc]
    exact hspace
  | ok a =>
    obtain ⟨ha, hroom⟩ := allocate_room h hne halloc
    exact hthen a ha hroom

theorem addPages_bind {f : Manager → Except Exit β} (h : Paged s) (hc : 4096 ∣ c.dest)
    (hroom : Room s c.dest (roundUp 4096 c.len)) (hdriver : c.driver = true)
    (hthen : Paged (s.accept c) → P (f (s.accept c))) : P (s.addPages c >>= f) := by
  obtain ⟨hadd, hpaged⟩ := h.addPages hroom hc hdriver
  rw [hadd]
  exact hthen hpaged

theorem accept_ne_nil : (s.accept c).mappings.entries ≠ [] :=
  ne_nil_of_mem (SortedMap.mem_insert.2 (.inl rfl))

theorem createThread_added (h : Paged s) (hne : s.mappings.entries ≠ []) (entry libOSData : ℕ) :
    ThreadAdded s (s.createThread entry libOSData true fun _ => true) := by
  rw [Manager.createThread, if_pos rfl]
  refine allocate_bind h hne ⟨_, rfl⟩ fun stack hstack hroom => ?_
  refine addPages_bind h hstack hroom rfl fun h => ?_
  refine allocate_bind h accept_ne_nil ⟨_, rfl⟩ fun tcs htcs hroom => ?_
  -- the second range is filled in two parts
  have hparts : roundUp 4096 (tcsLen + ssaLen + tlsLen) =
    roundUp 4096 tcsLen + roundUp 4096 (ssaLen + tlsLen) := by decide
  rw [hparts] at hroom
  have hround : roundUp 4096 tcsLen = tcsLen := by decide
  have htcsRoom := hroom.mono (Nat.le_add_right (roundUp 4096 tcsLen) (roundUp 4096 (ssaLen + tlsLen)))
  have hend := htcsRoom.le_end.trans_lt (Region.fits _)
  have hssa : add64 tcs tcsLen = tcs + roundUp 4096 tcsLen := by
    rw [hround] at hend ⊢
    exact add64_of_lt hend
  refine addPages_bind h htcs htcsRoom rfl fun h => ?_
  have hdvd : 4096 ∣ add64 tcs tcsLen := by
    rw [hssa]
    exact Nat.dvd_add htcs (dvd_roundUp 4096 tcsLen)
  refine addPages_bind h hdvd ?_ rfl fun h => ?_
  · change Room _ (add64 tcs tcsLen) (roundUp 4096 (ssaLen + tlsLen))
    rw [hssa]
    exact hroom.rest (by decide)
  refine allocate_bind h accept_ne_nil ⟨_, rfl⟩ fun injection hinjection hroom => ?_
  refine addPages_bind h hinjection hroom rfl fun h => ⟨stack, rfl, ?_⟩
  simp [Manager.accept]

end Sequences

/-! ### What `allocate` finds is accepted -/

/-- **`addPages` accepts the range that `allocate` finds**, and the pages by which `makeHeap` fills it;
`createThread` adds its four ranges, or exits where `allocate` does. -/
theorem allocate_accepted (r : Region) (hbase : 4096 ∣ r.base) (hlen : 4096 ∣ r.len) (s : Manager)
    (hs : Built r s) (hne : s.mappings.entries ≠ []) :
    (∀ c : Call, c.driver = true → s.allocate c.len = .ok c.dest → s.addPages c = .ok (s.accept c)) ∧
      (∀ len a, s.allocate len = .ok a → ∃ s', s.makeHeap len (fun _ => true) = .ok (a, s') ∧
        s'.accepted = s.accepted ++ heapPages a ((len + 4095) / 4096)) ∧
      ∀ entry libOSData, ThreadAdded s (s.createThread entry libOSData true fun _ => true) := by
  have hpaged := hs.paged hbase hlen
  refine ⟨fun c hdriver hok => ?_, fun len a hok => makeHeap_ok hpaged hne hok,
    fun entry libOSData => createThread_added hpaged hne entry libOSData⟩
  obtain ⟨hdest, hroom⟩ := allocate_room hpaged hne hok
  exact (hpaged.addPages hroom hdest hdriver).1

/-- An enclave of sixty-four pages, with its second page added. -/
def onePage : Manager := (Manager.new ⟨0x10000, 0x40000, by decide⟩).accept (zeroCall 0x11000 4096)

/-- A heap of three pages goes after that page, since the gap before it is too short, and so does all of a
thread but the stack for preemptions. -/
theorem allocate_accepted_onePage :
    onePage.addPages (zeroCall 0x12000 10000) = .ok (onePage.accept (zeroCall 0x12000 10000)) ∧
      (∃ s', onePage.makeHeap 10000 (fun _ => true) = .ok (0x12000, s') ∧
        (s'.accepted.map fun c => (c.dest, c.len)) =
          [(0x11000, 4096), (0x12000, 4096), (0x13000, 4096), (0x14000, 4096)]) ∧
      ∃ t s', onePage.createThread 0 0 true (fun _ => true) = .ok (t, s') ∧
        ThreadAdded onePage (.ok (t, s')) ∧ t.tcs = 0x16000 := by
  have hbuilt : Built onePage.region onePage :=
    .add .new (by decide) ⟨by decide, by decide⟩ (c := zeroCall 0x11000 4096) rfl
  obtain ⟨hcall, hheap, hthread⟩ :=
    allocate_accepted onePage.region (by decide) (by decide) onePage hbuilt nofun
  have hok : onePage.allocate 10000 = .ok 0x12000 := by decide +kernel
  obtain ⟨s', hs', haccepted⟩ := hheap _ _ hok
  refine ⟨hcall _ rfl hok, ⟨s', hs', by rw [haccepted]; decide⟩, ?_⟩
  have htcs : (onePage.createThread 0 0 true fun _ => true).map (fun r => r.1.tcs) = .ok 0x16000 := by
    decide +kernel
  have hadded := hthread 0 0
  cases hmade : onePage.createThread 0 0 true fun _ => true with
  | error e =>
    rw [hmade] at htcs
    cases htcs
  | ok r =>
    rw [hmade] at htcs hadded
    exact ⟨r.1, r.2, rfl, hadded, Except.ok.inj htcs⟩

end Enclave

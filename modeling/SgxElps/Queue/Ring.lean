/-
**The ring and the log of the bounded queue.**

A position is a *ticket*.  The log says which tickets have been won, published and released; the
sequence number of a cell is determined by it.  Of the tickets `i`, `i + cap`, `i + 2 * cap`, … that
use cell `i`, the first one that is not released is the current ticket `k` of the cell, and the
sequence number is `k` until `k` is published and `k + 1` from then on.

Main definitions: `Holds`, `Open`, `RingInv`.  Main results: `RingInv.pushWin`, `RingInv.takeWin`.
-/

import SgxElps.Queue.Basic
import Mathlib.Data.List.Nodup
import Mathlib.Data.List.Range
import Mathlib.Data.Finset.Card
import Mathlib.Data.Nat.Find
import Mathlib.Data.Nat.ModEq

namespace Mpmc

open Function (update update_of_ne update_self)
open List

variable {T α : Type}

/-! ### The state of a ticket -/

def Obs.pushTicket : Obs T α → Option ℕ
  | .pushWon _ k _ => some k
  | _ => none

def Obs.takeTicket : Obs T α → Option ℕ
  | .takeWon _ k => some k
  | _ => none

def Obs.tookTicket : Obs T α → Option ℕ
  | .took _ k _ => some k
  | _ => none

/-- The `push` of the ticket has stored its sequence number. -/
def Published (log : List (Obs T α)) (k : ℕ) : Prop := .published k ∈ log

/-- The `take` of the ticket has stored its sequence number. -/
def Released (log : List (Obs T α)) (k : ℕ) : Prop := ∃ t v, .took t k v ∈ log

/-- `v` is the argument of the `push` that won the ticket. -/
def Holds (log : List (Obs T α)) (k : ℕ) (v : α) : Prop := ∃ t, .pushWon t k v ∈ log

/-- The cell of the ticket has been released by the ticket one lap before. -/
def Open (n : BufferSize) (log : List (Obs T α)) (k : ℕ) : Prop :=
  k < n.cap ∨ Released log (k - n.cap)

section Log

variable {log : List (Obs T α)} {o : Obs T α} {k : ℕ} {v : α} {n : BufferSize}

theorem published_append : Published (log ++ [o]) k ↔ Published log k ∨ o = .published k := by
  simp [Published, eq_comm]

theorem released_append : Released (log ++ [o]) k ↔ Released log k ∨ ∃ t v, o = .took t k v := by
  simp [Released, exists_or, eq_comm]

theorem mem_tookTickets : k ∈ log.filterMap Obs.tookTicket ↔ Released log k := by
  rw [mem_filterMap]
  constructor
  · rintro ⟨o, ho, hk⟩
    cases o with
    | took t j v =>
      obtain rfl := Option.some_inj.1 hk
      exact ⟨t, v, ho⟩
    | _ => cases hk
  · rintro ⟨t, v, ho⟩
    exact ⟨_, ho, rfl⟩

theorem tookTickets_append (ho : ∀ t k v, o ≠ .took t k v) :
    (log ++ [o]).filterMap Obs.tookTicket = log.filterMap Obs.tookTicket := by
  rw [filterMap_append]
  cases o with
  | took t k v => exact absurd rfl (ho t k v)
  | _ => simp [Obs.tookTicket]

theorem Holds.append (h : Holds log k v) : Holds (log ++ [o]) k v := by
  obtain ⟨t, ht⟩ := h
  exact ⟨t, mem_append_left _ ht⟩

theorem Open.append (h : Open n log k) : Open n (log ++ [o]) k := by
  rcases h with h | h
  · exact Or.inl h
  · exact Or.inr (released_append.2 (Or.inl h))

theorem open_append_iff (ho : ∀ t j w, o ≠ .took t j w) : Open n (log ++ [o]) k ↔ Open n log k := by
  have hnot : ¬ ∃ t v, o = .took t (k - n.cap) v := fun ⟨t, v, h⟩ => ho t _ v h
  rw [Open, Open, released_append, or_iff_left hnot]

/-- No two entries of a list without repeated tickets have the same ticket. -/
theorem eq_of_ticket_eq {β : Type} {f : β → Option ℕ} {l : List β} (hnd : (l.filterMap f).Nodup)
    {x y : β} (hx : x ∈ l) (hy : y ∈ l) (hfx : f x = some k) (hfy : f y = some k) : x = y := by
  induction l with
  | nil => exact absurd hx not_mem_nil
  | cons z l ih =>
    have hmem : ∀ w ∈ l, f w = some k → k ∈ l.filterMap f := fun w hw hfw =>
      mem_filterMap.2 ⟨w, hw, hfw⟩
    rcases mem_cons.1 hx with rfl | hx'
    · rw [filterMap_cons_some hfx, nodup_cons] at hnd
      rcases mem_cons.1 hy with rfl | hy'
      · rfl
      · exact absurd (hmem y hy' hfy) hnd.1
    · rcases mem_cons.1 hy with rfl | hy'
      · rw [filterMap_cons_some hfy, nodup_cons] at hnd
        exact absurd (hmem x hx' hfx) hnd.1
      · refine ih ?_ hx' hy'
        cases hz : f z with
        | none => rwa [filterMap_cons_none hz] at hnd
        | some j =>
          rw [filterMap_cons_some hz] at hnd
          exact (nodup_cons.1 hnd).2

end Log

/-! ### The ring -/

/-- The cells and the positions agree with the log. -/
structure RingInv (n : BufferSize) (buffer : ℕ → Cell α) (enq deq : ℕ) (log : List (Obs T α)) :
    Prop where
  /-- Tickets are handed out in order, each of them once. -/
  pushTickets : log.filterMap Obs.pushTicket = range enq
  takeTickets : log.filterMap Obs.takeTicket = range deq
  published_lt : ∀ {k}, Published log k → k < enq
  published_open : ∀ {k}, Published log k → Open n log k
  taken : ∀ {k}, k < deq → Published log k
  released_lt : ∀ {k}, Released log k → k < deq
  free : ∀ {k}, Open n log k → ¬ Published log k → (buffer (k % n.cap)).sequence.toNat = k
  full : ∀ {k}, Published log k → ¬ Released log k →
    (buffer (k % n.cap)).sequence.toNat = k + 1
  data : ∀ {k}, Published log k → ¬ Released log k → Holds log k (buffer (k % n.cap)).data
  missed : ∀ {l t k}, l ++ [.missed t k] <+: log → ¬ Published l k
  took : ∀ {t k v}, .took t k v ∈ log → .takeWon t k ∈ log ∧ Holds log k v
  tookOnce : (log.filterMap Obs.tookTicket).Nodup

namespace RingInv

variable {n : BufferSize} {buffer : ℕ → Cell α} {enq deq : ℕ} {log : List (Obs T α)} {t u : T}
  {j k : ℕ} {v w : α}

section

variable (h : RingInv n buffer enq deq log)

include h

theorem pushWon_unique (ht : .pushWon t k v ∈ log)
    (hu : .pushWon u k w ∈ log) : t = u ∧ v = w := by
  have hnd : (log.filterMap Obs.pushTicket).Nodup := h.pushTickets ▸ nodup_range
  have := eq_of_ticket_eq hnd ht hu rfl rfl
  rw [Obs.pushWon.injEq] at this
  exact ⟨this.1, this.2.2⟩

theorem takeWon_unique (ht : .takeWon t k ∈ log)
    (hu : .takeWon u k ∈ log) : t = u := by
  have hnd : (log.filterMap Obs.takeTicket).Nodup := h.takeTickets ▸ nodup_range
  have := eq_of_ticket_eq hnd ht hu rfl rfl
  rw [Obs.takeWon.injEq] at this
  exact this.1

theorem released_published (hk : Released log k) :
    Published log k :=
  h.taken (h.released_lt hk)

theorem deq_le_enq : deq ≤ enq := by
  rcases Nat.eq_zero_or_pos deq with h0 | hpos
  · omega
  · have : deq - 1 < enq := h.published_lt (h.taken (by omega))
    omega

theorem released_of_add (m : ℕ)
    (hk : Released log (k + m * n.cap)) : Released log k := by
  induction m with
  | zero => simpa using hk
  | succ m ih =>
    refine ih ?_
    have hsub : k + (m + 1) * n.cap - n.cap = k + m * n.cap := by
      rw [Nat.succ_mul]
      omega
    rcases h.published_open (h.released_published hk) with hlt | hrel
    · rw [Nat.succ_mul] at hlt
      omega
    · rwa [hsub] at hrel

theorem not_lt_of_current (hk : Open n log k)
    (hj : ¬ Released log j) (hmod : j % n.cap = k % n.cap) : ¬ j < k := by
  intro hlt
  obtain ⟨m, hm⟩ : n.cap ∣ k - j := (Nat.modEq_iff_dvd' hlt.le).1 hmod
  have hpos := n.cap_pos
  obtain ⟨m, rfl⟩ : ∃ m', m = m' + 1 := by
    refine ⟨m - 1, ?_⟩
    have : m ≠ 0 := by
      rintro rfl
      omega
    omega
  have hkm : k - n.cap = j + m * n.cap ∧ n.cap ≤ k := by
    have : k = j + n.cap * (m + 1) := by omega
    rw [Nat.mul_succ, Nat.mul_comm] at this
    omega
  rcases hk with hk | hk
  · omega
  · rw [hkm.1] at hk
    exact hj (h.released_of_add m hk)

/-- A cell has at most one ticket that is open and not released. -/
theorem current_unique (hj : Open n log j)
    (hj' : ¬ Released log j) (hk : Open n log k) (hk' : ¬ Released log k)
    (hmod : j % n.cap = k % n.cap) : j = k := by
  have h1 := h.not_lt_of_current hk hj' hmod
  have h2 := h.not_lt_of_current hj hk' hmod.symm
  omega

/-- A cell has a ticket that is open and not released, at or after any published ticket. -/
theorem exists_current (i : ℕ) :
    ∃ m, Open n log (i % n.cap + m * n.cap) ∧ ¬ Released log (i % n.cap + m * n.cap) := by
  classical
  have hex : ∃ m, ¬ Released log (i % n.cap + m * n.cap) := by
    refine ⟨deq, fun hrel => ?_⟩
    have hlt := h.released_lt hrel
    have : deq ≤ deq * n.cap := Nat.le_mul_of_pos_right deq n.cap_pos
    omega
  refine ⟨Nat.find hex, ?_, Nat.find_spec hex⟩
  cases hm : Nat.find hex with
  | zero =>
    refine Or.inl ?_
    rw [Nat.zero_mul, Nat.add_zero]
    exact Nat.mod_lt i n.cap_pos
  | succ m =>
    have hmin := Nat.find_min hex (show m < Nat.find hex by omega)
    have hsub : i % n.cap + (m + 1) * n.cap - n.cap = i % n.cap + m * n.cap := by
      rw [Nat.succ_mul]
      omega
    refine Or.inr ?_
    rw [hsub]
    exact not_not.1 hmin

end

theorem succ_mod_ne (k : ℕ) : (k + 1) % n.cap ≠ k % n.cap := by
  have hcap := n.two_le_cap
  have hlt := Nat.mod_lt k n.cap_pos
  rw [Nat.add_mod, Nat.mod_eq_of_lt (show 1 < n.cap by omega)]
  rcases Nat.lt_or_ge (k % n.cap + 1) n.cap with hle | hge
  · rw [Nat.mod_eq_of_lt hle]
    omega
  · rw [show k % n.cap + 1 = n.cap by omega, Nat.mod_self]
    omega

theorem add_mul_mod (i m : ℕ) : (i % n.cap + m * n.cap) % n.cap = i % n.cap := by
  rw [Nat.add_mul_mod_self_right, Nat.mod_mod]

theorem open_of_sequence (h : RingInv n buffer enq deq log)
    (hseq : (buffer (k % n.cap)).sequence.toNat = k) : Open n log k := by
  obtain ⟨m, hopen, hrel⟩ := h.exists_current k
  have hmod := add_mul_mod (n := n) k m
  by_cases hpub : Published log (k % n.cap + m * n.cap)
  · -- the sequence number of a published ticket belongs to the next cell
    have hfull := h.full hpub hrel
    rw [hmod, hseq] at hfull
    have hcell : (k % n.cap + m * n.cap + 1) % n.cap = (k % n.cap + m * n.cap) % n.cap := by
      rw [← hfull, hmod]
    exact absurd hcell (succ_mod_ne _)
  · have hfree := h.free hopen hpub
    rw [hmod, hseq] at hfree
    rwa [hfree]

theorem published_of_sequence (h : RingInv n buffer enq deq log)
    (hseq : (buffer (k % n.cap)).sequence.toNat = k + 1) : Published log k := by
  obtain ⟨m, hopen, hrel⟩ := h.exists_current k
  have hmod := add_mul_mod (n := n) k m
  by_cases hpub : Published log (k % n.cap + m * n.cap)
  · have hfull := h.full hpub hrel
    rw [hmod, hseq, Nat.add_right_cancel_iff] at hfull
    rwa [hfull]
  · -- the position plus one belongs to the next cell
    have hfree := h.free hopen hpub
    rw [hmod, hseq] at hfree
    have hcell : (k + 1) % n.cap = k % n.cap := by rw [hfree, hmod]
    exact absurd hcell (succ_mod_ne k)

/-! ### What the steps do to the ring -/

section

variable (h : RingInv n buffer enq deq log)

include h

/-- An entry of the log that neither publishes nor releases a ticket. -/
theorem observe {o : Obs T α} {enq' deq' : ℕ}
    (hpub : ∀ k, o ≠ .published k) (htook : ∀ t k v, o ≠ .took t k v)
    (hmiss : ∀ t k, o = .missed t k → ¬ Published log k)
    (hpush : (log ++ [o]).filterMap Obs.pushTicket = range enq')
    (htake : (log ++ [o]).filterMap Obs.takeTicket = range deq') (henq : enq ≤ enq')
    (hdeq : deq ≤ deq') (htaken : ∀ {k}, k < deq' → Published log k) :
    RingInv n buffer enq' deq' (log ++ [o]) := by
  have hP : ∀ {k}, Published (log ++ [o]) k ↔ Published log k := by
    intro k
    rw [published_append, or_iff_left (hpub k)]
  have hR : ∀ {k}, Released (log ++ [o]) k ↔ Released log k := by
    intro k
    rw [released_append, or_iff_left (fun ⟨t, v, ho⟩ => htook t k v ho)]
  constructor
  case pushTickets => exact hpush
  case takeTickets => exact htake
  case published_lt => exact fun hk => (h.published_lt (hP.1 hk)).trans_le henq
  case published_open => exact fun hk => (h.published_open (hP.1 hk)).append
  case taken => exact fun hk => hP.2 (htaken hk)
  case released_lt => exact fun hk => (h.released_lt (hR.1 hk)).trans_le hdeq
  case free =>
    exact fun hopen hk => h.free ((open_append_iff htook).1 hopen) (fun hp => hk (hP.2 hp))
  case full => exact fun hk hk' => h.full (hP.1 hk) (fun hr => hk' (hR.2 hr))
  case data => exact fun hk hk' => (h.data (hP.1 hk) (fun hr => hk' (hR.2 hr))).append
  case missed =>
    intro l u k hl
    rcases prefix_concat_iff.1 hl with heq | hl
    · obtain ⟨rfl, ho⟩ := append_inj' heq rfl
      exact hmiss u k (singleton_inj.1 ho).symm
    · exact h.missed hl
  case took =>
    intro u k w hm
    have hm' : .took u k w ∈ log := by
      rcases mem_append.1 hm with hm | hm
      · exact hm
      · exact absurd (mem_singleton.1 hm).symm (htook u k w)
    exact ⟨mem_append_left _ (h.took hm').1, (h.took hm').2.append⟩
  case tookOnce =>
    rw [tookTickets_append htook]
    exact h.tookOnce

theorem pushWin (t : T) (v : α) :
    RingInv n buffer (enq + 1) deq (log ++ [.pushWon t enq v]) := by
  refine h.observe (by simp) (by simp) (by simp) ?_ ?_ (Nat.le_succ _) (le_refl _) h.taken
  · simp [h.pushTickets, Obs.pushTicket, range_succ]
  · simp [h.takeTickets, Obs.takeTicket]

theorem takeWin (t : T) (hd : Published log deq) :
    RingInv n buffer enq (deq + 1) (log ++ [.takeWon t deq]) := by
  refine h.observe (by simp) (by simp) (by simp) ?_ ?_ (le_refl _) (Nat.le_succ _) ?_
  · simp [h.pushTickets, Obs.pushTicket]
  · simp [h.takeTickets, Obs.takeTicket, range_succ]
  · intro k hk
    rcases Nat.lt_succ_iff_lt_or_eq.1 hk with hk | rfl
    · exact h.taken hk
    · exact hd

theorem takeMiss (t : T) (hk : ¬ Published log k) :
    RingInv n buffer enq deq (log ++ [.missed t k]) := by
  refine h.observe (by simp) (by simp) ?_ ?_ ?_ (le_refl _) (le_refl _) h.taken
  · intro u j ho
    rw [Obs.missed.injEq] at ho
    exact ho.2 ▸ hk
  · simp [h.pushTickets, Obs.pushTicket]
  · simp [h.takeTickets, Obs.takeTicket]

theorem copyData (hopen : Open n log k)
    (hk : ¬ Published log k) (v : α) :
    RingInv n (update buffer (k % n.cap) { buffer (k % n.cap) with data := v }) enq deq
      log := by
  have hkr : ¬ Released log k := fun hr => hk (h.released_published hr)
  have hseq : ∀ i, (update buffer (k % n.cap)
      { buffer (k % n.cap) with data := v } i).sequence = (buffer i).sequence := by
    intro i
    by_cases hi : i = k % n.cap
    · rw [hi, update_self]
    · rw [update_of_ne hi]
  refine { h with free := ?_, full := ?_, data := ?_ }
  · intro j hj hj'
    rw [hseq]
    exact h.free hj hj'
  · intro j hj hj'
    rw [hseq]
    exact h.full hj hj'
  · intro j hj hj'
    have hne : j % n.cap ≠ k % n.cap := fun hmod =>
      hk (h.current_unique (h.published_open hj) hj' hopen hkr hmod ▸ hj)
    rw [update_of_ne hne]
    exact h.data hj hj'

/-- The store of the sequence number at the end of a push. -/
theorem publish (hopen : Open n log k)
    (hk : ¬ Published log k) (hlt : k < enq) (hdata : Holds log k (buffer (k % n.cap)).data)
    {seq : UInt64} (hseq : seq.toNat = k + 1) :
    RingInv n (update buffer (k % n.cap) { buffer (k % n.cap) with sequence := seq }) enq
      deq (log ++ [.published k]) := by
  have hkr : ¬ Released log k := fun hr => hk (h.released_published hr)
  have hP : ∀ {j}, Published (log ++ [.published k]) j ↔ Published log j ∨ j = k := by
    intro j
    simp [published_append, eq_comm]
  have hR : ∀ {j}, Released (log ++ [.published k]) j ↔ Released log j := by
    intro j
    simp [released_append]
  -- any other current ticket is in another cell
  have hne : ∀ {j}, Open n log j → ¬ Released log j → j ≠ k → j % n.cap ≠ k % n.cap :=
    fun hj hj' hjk hmod => hjk (h.current_unique hj hj' hopen hkr hmod)
  constructor
  case pushTickets => simp [h.pushTickets, Obs.pushTicket]
  case takeTickets => simp [h.takeTickets, Obs.takeTicket]
  case published_lt =>
    intro j hj
    rcases hP.1 hj with hj | rfl
    · exact h.published_lt hj
    · exact hlt
  case published_open =>
    intro j hj
    rcases hP.1 hj with hj | rfl
    · exact (h.published_open hj).append
    · exact hopen.append
  case taken => exact fun hj => hP.2 (Or.inl (h.taken hj))
  case released_lt => exact fun hj => h.released_lt (hR.1 hj)
  case free =>
    intro j hj hj'
    rw [hP, not_or] at hj'
    have hj := (open_append_iff (by simp)).1 hj
    have hjr : ¬ Released log j := fun hr => hj'.1 (h.released_published hr)
    rw [update_of_ne (hne hj hjr hj'.2)]
    exact h.free hj hj'.1
  case full =>
    intro j hj hj'
    rw [hR] at hj'
    by_cases hjk : j = k
    · rw [hjk, update_self]
      exact hseq
    · have hj := (hP.1 hj).resolve_right hjk
      rw [update_of_ne (hne (h.published_open hj) hj' hjk)]
      exact h.full hj hj'
  case data =>
    intro j hj hj'
    rw [hR] at hj'
    by_cases hjk : j = k
    · rw [hjk, update_self]
      exact hdata.append
    · have hj := (hP.1 hj).resolve_right hjk
      rw [update_of_ne (hne (h.published_open hj) hj' hjk)]
      exact (h.data hj hj').append
  case missed =>
    intro l u j hl
    rcases prefix_concat_iff.1 hl with heq | hl
    · simp at heq
    · exact h.missed hl
  case took =>
    intro u j w hm
    have hm' : .took u j w ∈ log := by simpa using hm
    exact ⟨mem_append_left _ (h.took hm').1, (h.took hm').2.append⟩
  case tookOnce =>
    rw [tookTickets_append (by simp)]
    exact h.tookOnce

/-- The store of the sequence number at the end of a take. -/
theorem release (hlt : k < deq) (hk : ¬ Released log k)
    (hwon : .takeWon t k ∈ log) (hv : Holds log k v) {seq : UInt64}
    (hseq : seq.toNat = k + n.cap) :
    RingInv n (update buffer (k % n.cap) { buffer (k % n.cap) with sequence := seq }) enq
      deq (log ++ [.took t k v]) := by
  have hpub : Published log k := h.taken hlt
  have hP : ∀ {j}, Published (log ++ [.took t k v]) j ↔ Published log j := by
    intro j
    simp [published_append]
  have hR : ∀ {j}, Released (log ++ [.took t k v]) j ↔ Released log j ∨ j = k := by
    intro j
    simp [released_append, eq_comm]
  have hne : ∀ {j}, Open n log j → ¬ Released log j → j ≠ k → j % n.cap ≠ k % n.cap :=
    fun hj hj' hjk hmod => hjk (h.current_unique hj hj' (h.published_open hpub) hk hmod)
  constructor
  case pushTickets => simp [h.pushTickets, Obs.pushTicket]
  case takeTickets => simp [h.takeTickets, Obs.takeTicket]
  case published_lt => exact fun hj => h.published_lt (hP.1 hj)
  case published_open => exact fun hj => (h.published_open (hP.1 hj)).append
  case taken => exact fun hj => hP.2 (h.taken hj)
  case released_lt =>
    intro j hj
    rcases hR.1 hj with hj | rfl
    · exact h.released_lt hj
    · exact hlt
  case free =>
    intro j hj hj'
    rw [hP] at hj'
    have hjr : ¬ Released log j := fun hr => hj' (h.released_published hr)
    have hjk : j ≠ k := fun heq => hj' (heq ▸ hpub)
    by_cases hold : Open n log j
    · rw [update_of_ne (hne hold hjr hjk)]
      exact h.free hold hj'
    · -- the ticket that the release has just opened
      obtain ⟨hge, hjc⟩ : n.cap ≤ j ∧ j - n.cap = k := by
        rcases hj with hj | hj
        · exact absurd (Or.inl hj) hold
        · rcases hR.1 hj with hj | hj
          · exact absurd (Or.inr hj) hold
          · refine ⟨?_, hj⟩
            by_contra hlt'
            exact hold (Or.inl (by omega))
      have hjk' : j = k + n.cap := by omega
      rw [hjk', Nat.add_mod_right, update_self]
      exact hseq
  case full =>
    intro j hj hj'
    rw [hR, not_or] at hj'
    have hj := hP.1 hj
    rw [update_of_ne (hne (h.published_open hj) hj'.1 hj'.2)]
    exact h.full hj hj'.1
  case data =>
    intro j hj hj'
    rw [hR, not_or] at hj'
    have hj := hP.1 hj
    rw [update_of_ne (hne (h.published_open hj) hj'.1 hj'.2)]
    exact (h.data hj hj'.1).append
  case missed =>
    intro l u j hl
    rcases prefix_concat_iff.1 hl with heq | hl
    · simp at heq
    · exact h.missed hl
  case took =>
    intro u j w hm
    rcases mem_append.1 hm with hm | hm
    · exact ⟨mem_append_left _ (h.took hm).1, (h.took hm).2.append⟩
    · rw [mem_singleton, Obs.took.injEq] at hm
      obtain ⟨rfl, rfl, rfl⟩ := hm
      exact ⟨mem_append_left _ hwon, hv.append⟩
  case tookOnce =>
    rw [filterMap_append, nodup_append]
    refine ⟨h.tookOnce, by simp [Obs.tookTicket], ?_⟩
    intro i hi j hj
    have hjk : j = k := by simpa [Obs.tookTicket] using hj
    rw [hjk]
    exact fun hik => hk (mem_tookTickets.1 (hik ▸ hi))

/-- The sequence number of a cell that a ticket has left behind, seen from that ticket: the true
difference stays within half the range of a word. -/
theorem sequence_ahead (hbound : enq + deq < 2 ^ 63)
    (hk : Released log k) :
    k + 1 ≤ (buffer (k % n.cap)).sequence.toNat ∧
      (buffer (k % n.cap)).sequence.toNat - (k + 1) < 2 ^ 63 := by
  obtain ⟨m, hopen, hcur⟩ := h.exists_current k
  have hmod := add_mul_mod (n := n) k m
  generalize hc : k % n.cap + m * n.cap = c at hopen hcur hmod
  have hdeq := h.deq_le_enq
  have hcap := n.cap_le
  have hle : k ≤ c := Nat.le_of_not_lt
    (h.not_lt_of_current (h.published_open (h.released_published hk)) hcur hmod)
  have hne : k ≠ c := fun heq => hcur (heq ▸ hk)
  by_cases hpub : Published log c
  · have hfull := h.full hpub hcur
    have hlt := h.published_lt hpub
    rw [hmod] at hfull
    omega
  · have hfree := h.free hopen hpub
    rw [hmod] at hfree
    rw [hfree]
    refine ⟨by omega, ?_⟩
    rcases hopen with hlt | hprev
    · omega
    · -- one lap ahead, or so far ahead that a whole lap has been taken already
      have hlt := h.released_lt hprev
      obtain ⟨q, hq⟩ : n.cap ∣ c - k := (Nat.modEq_iff_dvd' hle).1 hmod.symm
      match q with
      | 0 => omega
      | 1 => omega
      | q + 2 =>
        have : n.cap * (q + 2) = n.cap * q + 2 * n.cap := by ring
        omega

/-- A take that finds the sequence number of its cell behind its position has an unpublished
ticket. -/
theorem not_published_of_dif_neg {pos : UInt64}
    (hle : pos.toNat ≤ deq) (hbound : enq + deq < 2 ^ 63)
    (hne : (buffer (pos.toNat % n.cap)).sequence ≠ pos + 1)
    (hd : dif (buffer (pos.toNat % n.cap)).sequence (pos + 1) < 0) :
    ¬ Published log pos.toNat := by
  intro hpub
  have hdeq := h.deq_le_enq
  have hone : (1 : UInt64).toNat = 1 := rfl
  have hpos : (pos + 1).toNat = pos.toNat + 1 := by
    rw [Word.toNat_add_of_lt (by omega), hone]
  by_cases hrel : Released log pos.toNat
  · obtain ⟨h1, h2⟩ := h.sequence_ahead hbound hrel
    rw [← hpos] at h1 h2
    exact Word.signedSub_not_neg h1 h2 hd
  · have hfull := h.full hpub hrel
    exact hne (UInt64.toNat_inj.1 (by rw [hfull, hpos]))

end

end RingInv

end Mpmc

/-
**Tickets are used once, and a take gets the value of its push.**

The theorem about the bounded queue: in every run of fewer than `2 ^ 63` calls, whatever the
interleaving, tickets are handed out in order and one at a time, the take of a ticket returns what
the push of the ticket was called with, the value of a published ticket stays in its cell until the
take of the ticket has read it, and a take returns `false` only when the ticket it looked at was not
published at the moment of the load.

Main definition: `TicketsCorrect`.  Main results: `tickets_correct`, `never_overfull`.
-/

import SgxElps.Queue.Invariant
import SgxElps.Lib.Participants

namespace Mpmc

open Transition

variable {T α : Type}

/-- What the users of the queue rely on. -/
structure TicketsCorrect (n : BufferSize) (s : State T α) : Prop where
  /-- The tickets won by pushes are `0`, `1`, `2`, … in this order, up to `enqueue_pos_`. -/
  push_once : s.log.filterMap Obs.pushTicket = List.range s.enqueuePos.toNat
  /-- The tickets won by takes are `0`, `1`, `2`, … in this order, up to `dequeue_pos_`. -/
  take_once : s.log.filterMap Obs.takeTicket = List.range s.dequeuePos.toNat
  /-- Only tickets that a push has won are taken. -/
  take_le_push : s.dequeuePos.toNat ≤ s.enqueuePos.toNat
  /-- A take returns once for the ticket it has won … -/
  returns_once : (s.log.filterMap Obs.tookTicket).Nodup
  /-- … with the value of the push that won the ticket. -/
  returns_pushed : ∀ t k v, .took t k v ∈ s.log →
    .takeWon t k ∈ s.log ∧ (∃ u, .pushWon u k v ∈ s.log) ∧ ∀ u w, .pushWon u k w ∈ s.log → w = v
  /-- A published value is not overwritten before it has been read. -/
  kept : ∀ u k v, .pushWon u k v ∈ s.log → .published k ∈ s.log → (∀ t w, .took t k w ∉ s.log) →
    (s.buffer (k % n.cap)).data = v
  /-- A take returns `false` only for a ticket that is not published at that moment. -/
  misses_unpublished : ∀ l t k, l ++ [.missed t k] <+: s.log → .published k ∉ l

theorem Inv.ticketsCorrect {n : BufferSize} {s : State T α} (h : Inv n s) : TicketsCorrect n s where
  push_once := h.ring.pushTickets
  take_once := h.ring.takeTickets
  take_le_push := h.ring.deq_le_enq
  returns_once := h.ring.tookOnce
  returns_pushed t k v hk := by
    obtain ⟨hwon, u, hu⟩ := h.ring.took hk
    exact ⟨hwon, ⟨u, hu⟩, fun u' w hw => (h.ring.pushWon_unique hw hu).2⟩
  kept u k v hwon hpub htook := by
    obtain ⟨u', hu'⟩ := h.ring.data hpub (fun ⟨t, w, htw⟩ => htook t w htw)
    exact (h.ring.pushWon_unique hu' hwon).2
  misses_unpublished _ _ _ := h.ring.missed

/-- **The queue is correct**: for every size that passes the constructor's assertion, every initial
memory and every interleaving of fewer than `2 ^ 63` calls. -/
theorem tickets_correct [DecidableEq T] (n : BufferSize) (data : ℕ → α) {es : List (Event T α)}
    {s : State T α} (hrun : run (step n) (init data) es = some s)
    (hcalls : es.countP Event.isCall < 2 ^ 63) : TicketsCorrect n s := by
  have hlt : s.calls < 2 ^ 63 := by
    rw [calls_run hrun]
    simpa [init] using hcalls
  exact (inv_run hrun hlt).ticketsCorrect

/-- On a ring of two cells: thread `0` pushes `7`, thread `1` takes it, and thread `1` finds nothing
when it takes again. -/
theorem tickets_correct_push_take :
    ∃ s : State (Fin 2) ℕ,
      s.log = [.pushWon 0 0 7, .published 0, .takeWon 1 0, .took 1 0 7, .missed 1 1] ∧
        TicketsCorrect ⟨2, by decide, by decide⟩ s := by
  obtain ⟨s, hrun, hlog⟩ : ∃ s : State (Fin 2) ℕ,
      run (step ⟨2, by decide, by decide⟩) (init fun _ => 0)
        [.push 0 7, .loadSeq 0, .cas 0 false, .copy 0, .storeSeq 0,
          .take 1, .loadSeq 1, .cas 1 true, .loadSeq 1, .cas 1 false, .copy 1, .storeSeq 1,
          .take 1, .loadSeq 1] = some s ∧
        s.log = [.pushWon 0 0 7, .published 0, .takeWon 1 0, .took 1 0 7, .missed 1 1] :=
    ⟨_, rfl, rfl⟩
  exact ⟨s, hlog, tickets_correct _ _ hrun (by decide)⟩

/-! ### The ring is never overfull -/

section Bounded

variable [DecidableEq T] {n : BufferSize} {s s' : State T α}

/-- The cell of every ticket that a push has won has been released. -/
theorem open_step {e : Event T α} (h : Inv n s) (hopen : ∀ k < s.enqueuePos.toNat, Open n s.log k)
    (hs : step n s e = some s') : ∀ k < s'.enqueuePos.toNat, Open n s'.log k := by
  cases steps_of_step hs with
  | @pushWin t data pos hp he =>
    intro k hk
    refine Open.append ?_
    have hle : (pos + 1).toNat ≤ pos.toNat + 1 := by
      rw [UInt64.toNat_add]
      exact Nat.mod_le ..
    rcases Nat.lt_succ_iff_lt_or_eq.1 (hk.trans_le hle) with hlt | rfl
    · exact hopen k (he ▸ hlt)
    · have hphase := h.phases t
      rw [hp] at hphase
      exact hphase
  | takeMiss | takeWin | pushStore | takeStore => exact fun k hk => (hopen k hk).append
  | _ => exact hopen

/-- **The ring is never overfull**: a push wins a ticket only after the take of the ticket one lap before
has returned. -/
theorem never_overfull (n : BufferSize) (data : ℕ → α) {es : List (Event T α)}
    (hrun : run (step n) (init data) es = some s) (hcalls : es.countP Event.isCall < 2 ^ 63) :
    (∀ t k v, .pushWon t k v ∈ s.log → n.cap ≤ k → ∃ u w, .took u (k - n.cap) w ∈ s.log) ∧
      s.enqueuePos.toNat ≤ s.dequeuePos.toNat + n.cap := by
  have hlt : s.calls < 2 ^ 63 := by
    rw [calls_run hrun]
    simpa [init] using hcalls
  have hring := (inv_run hrun hlt).ring
  have hopen : ∀ k < s.enqueuePos.toNat, Open n s.log k := by
    refine run_induction
      (I := fun s => s.calls < 2 ^ 63 → Inv n s ∧ ∀ k < s.enqueuePos.toNat, Open n s.log k) ?_ es
      (fun _ => ⟨inv_init n data, by simp [init]⟩) hrun hlt |>.2
    intro s e s' h hs hlt
    have hle : s.calls ≤ s'.calls := calls_step hs ▸ Nat.le_add_right ..
    obtain ⟨hinv, hopen⟩ := h (hle.trans_lt hlt)
    exact ⟨inv_step hinv hs hlt, open_step hinv hopen hs⟩
  refine ⟨fun t k v hwon hk => ?_, ?_⟩
  · have hmem : k ∈ s.log.filterMap Obs.pushTicket := List.mem_filterMap.2 ⟨_, hwon, rfl⟩
    rw [hring.pushTickets, List.mem_range] at hmem
    exact (hopen k hmem).resolve_left hk.not_gt
  · by_contra hfull
    rcases hopen (s.enqueuePos.toNat - 1) (by omega) with hk | hk
    · omega
    · have := hring.released_lt hk
      omega

/-- The third push on a ring of two cells wins its ticket after the take of the first has returned. -/
theorem never_overfull_secondLap :
    ∃ s : State (Fin 2) ℕ, .pushWon 0 2 9 ∈ s.log ∧ (∃ u w, .took u 0 w ∈ s.log) ∧
      s.enqueuePos.toNat ≤ s.dequeuePos.toNat + 2 := by
  obtain ⟨s, hrun, hwon⟩ : ∃ s : State (Fin 2) ℕ,
      run (step ⟨2, by decide, by decide⟩) (init fun _ => 0)
        [.push 0 7, .loadSeq 0, .cas 0 false, .copy 0, .storeSeq 0,
          .take 1, .loadSeq 1, .cas 1 false, .copy 1, .storeSeq 1,
          .push 0 8, .loadSeq 0, .cas 0 false, .copy 0, .storeSeq 0,
          .push 0 9, .loadSeq 0, .cas 0 false] = some s ∧ .pushWon 0 2 9 ∈ s.log :=
    ⟨_, rfl, .tail _ (.tail _ (.tail _ (.tail _ (.tail _ (.tail _ (.head _))))))⟩
  obtain ⟨hlap, hle⟩ := never_overfull _ _ hrun (by decide)
  exact ⟨s, hwon, hlap 0 2 9 hwon (by decide), hle⟩

end Bounded

end Mpmc

/-
**The invariant of the bounded queue.**

A thread that has won a ticket is named in the log with that ticket, and no ticket is won twice, so
two threads never work on one cell at the same time.  With the ring invariant of
`Queue/Ring.lean` this gives the invariant of the whole system: what each thread knows about its
ticket, and that the positions are bounded by the number of calls.

Main definitions: `PhaseOk`, `Inv`.  Main result: `inv_run`.
-/

import SgxElps.Queue.Ring

namespace Mpmc

open Function (update update_of_ne update_self)
open List
open State

variable {T α : Type}

/-! ### What a thread knows -/

/-- What is known about the ticket of a thread at each of its phases. -/
def PhaseOk (n : BufferSize) (data : ℕ → α) (enq deq : ℕ) (log : List (Obs T α)) (t : T) :
    Phase α → Prop
  | .pushCas _ pos => Open n log pos.toNat
  | .pushCopy v pos =>
      pos.toNat < enq ∧ Open n log pos.toNat ∧ ¬ Published log pos.toNat ∧
        .pushWon t pos.toNat v ∈ log
  | .pushStore pos =>
      pos.toNat < enq ∧ Open n log pos.toNat ∧ ¬ Published log pos.toNat ∧
        .pushWon t pos.toNat (data (pos.toNat % n.cap)) ∈ log
  | .takeSeq pos => pos.toNat ≤ deq
  | .takeCas pos => Published log pos.toNat
  | .takeCopy pos => pos.toNat < deq ∧ ¬ Released log pos.toNat ∧ .takeWon t pos.toNat ∈ log
  | .takeStore pos v =>
      pos.toNat < deq ∧ ¬ Released log pos.toNat ∧ .takeWon t pos.toNat ∈ log ∧
        Holds log pos.toNat v
  | _ => True

/-- The ticket a thread has won in `push` and not yet published. -/
def Phase.pushing : Phase α → Option ℕ
  | .pushCopy _ pos => some pos.toNat
  | .pushStore pos => some pos.toNat
  | _ => none

/-- The ticket a thread has won in `take` and not yet released. -/
def Phase.taking : Phase α → Option ℕ
  | .takeCopy pos => some pos.toNat
  | .takeStore pos _ => some pos.toNat
  | _ => none

namespace PhaseOk

variable {n : BufferSize} {data data' : ℕ → α} {enq enq' deq deq' : ℕ} {log : List (Obs T α)} {t : T}
  {o : Obs T α} {p : Phase α}

section

variable (h : PhaseOk n data enq deq log t p)

include h

theorem pushing_won {k : ℕ} (hk : p.pushing = some k) :
    Open n log k ∧ ¬ Published log k ∧ ∃ v, .pushWon t k v ∈ log := by
  cases p with
  | pushCopy v pos =>
    obtain rfl := Option.some_inj.1 hk
    exact ⟨h.2.1, h.2.2.1, v, h.2.2.2⟩
  | pushStore pos =>
    obtain rfl := Option.some_inj.1 hk
    exact ⟨h.2.1, h.2.2.1, _, h.2.2.2⟩
  | _ => cases hk

theorem taking_won {k : ℕ} (hk : p.taking = some k) :
    .takeWon t k ∈ log := by
  cases p with
  | takeCopy pos =>
    obtain rfl := Option.some_inj.1 hk
    exact h.2.2
  | takeStore pos v =>
    obtain rfl := Option.some_inj.1 hk
    exact h.2.2.1
  | _ => cases hk

/-- The positions and the log grow, other cells change: what a thread knows stays true unless its
own ticket is published or released. -/
theorem mono (henq : enq ≤ enq') (hdeq : deq ≤ deq')
    (hpub : ∀ k, p.pushing = some k → o ≠ .published k)
    (htook : ∀ k, p.taking = some k → ∀ u v, o ≠ .took u k v)
    (hdata : ∀ k, p.pushing = some k → data' (k % n.cap) = data (k % n.cap)) :
    PhaseOk n data' enq' deq' (log ++ [o]) t p := by
  cases p with
  | pushCas v pos => exact Open.append h
  | pushCopy v pos =>
    obtain ⟨hlt, hopen, hnp, hwon⟩ := h
    refine ⟨hlt.trans_le henq, hopen.append, ?_, mem_append_left _ hwon⟩
    rw [published_append, or_iff_left (hpub _ rfl)]
    exact hnp
  | pushStore pos =>
    obtain ⟨hlt, hopen, hnp, hwon⟩ := h
    refine ⟨hlt.trans_le henq, hopen.append, ?_, ?_⟩
    · rw [published_append, or_iff_left (hpub _ rfl)]
      exact hnp
    · rw [hdata _ rfl]
      exact mem_append_left _ hwon
  | takeSeq pos => exact Nat.le_trans h hdeq
  | takeCas pos => exact published_append.2 (Or.inl h)
  | takeCopy pos =>
    obtain ⟨hlt, hnr, hwon⟩ := h
    refine ⟨hlt.trans_le hdeq, ?_, mem_append_left _ hwon⟩
    rw [released_append, or_iff_left (fun ⟨u, v, ho⟩ => htook _ rfl u v ho)]
    exact hnr
  | takeStore pos v =>
    obtain ⟨hlt, hnr, hwon, hv⟩ := h
    refine ⟨hlt.trans_le hdeq, ?_, mem_append_left _ hwon, hv.append⟩
    rw [released_append, or_iff_left (fun ⟨u, v, ho⟩ => htook _ rfl u v ho)]
    exact hnr
  | _ => trivial

theorem congr_data
    (hdata : ∀ k, p.pushing = some k → data' (k % n.cap) = data (k % n.cap)) :
    PhaseOk n data' enq deq log t p := by
  cases p with
  | pushStore pos =>
    obtain ⟨hlt, hopen, hnp, hwon⟩ := h
    exact ⟨hlt, hopen, hnp, by rw [hdata _ rfl]; exact hwon⟩
  | _ => exact h

end

end PhaseOk

/-! ### The invariant -/

/-- The thread is in a call that has not yet won a ticket. -/
def Phase.pending : Phase α → Bool
  | .pushSeq _ _ | .pushCas _ _ | .pushReload _ | .takeSeq _ | .takeCas _ | .takeReload => true
  | _ => false

/-- Of `c` calls, `m` have won a ticket and all threads that have not are counted besides. -/
def Counted (phase : T → Phase α) (m c : ℕ) : Prop :=
  ∃ L : Finset T, (∀ t, t ∈ L ↔ (phase t).pending = true) ∧ m + L.card ≤ c

theorem Counted.update [DecidableEq T] {phase : T → Phase α} {m m' c c' : ℕ} {t : T} {p : Phase α}
    (h : Counted phase m c)
    (hle : m' + p.pending.toNat + c ≤ m + (phase t).pending.toNat + c') :
    Counted (Function.update phase t p) m' c' := by
  obtain ⟨L, hL, hcard⟩ := h
  have hother : ∀ u, u ≠ t →
      (u ∈ L ↔ (Function.update phase t p u).pending = true) := fun u hu => by
    rw [Function.update_of_ne hu]
    exact hL u
  have ht := hL t
  cases hp : p.pending with
  | true =>
    refine ⟨insert t L, fun u => ?_, ?_⟩
    · by_cases hu : u = t
      · simp [hu, hp]
      · rw [Finset.mem_insert, or_iff_right hu]
        exact hother u hu
    · rw [hp] at hle
      cases hold : (phase t).pending with
      | true =>
        rw [hold] at ht hle
        rw [Finset.insert_eq_of_mem (ht.2 rfl)]
        omega
      | false =>
        rw [hold] at hle
        have := Finset.card_insert_le t L
        simp only [Bool.toNat_true, Bool.toNat_false] at hle
        omega
  | false =>
    refine ⟨L.erase t, fun u => ?_, ?_⟩
    · by_cases hu : u = t
      · simp [hu, hp]
      · rw [Finset.mem_erase, and_iff_right hu]
        exact hother u hu
    · rw [hp] at hle
      cases hold : (phase t).pending with
      | true =>
        rw [hold] at ht hle
        have := Finset.card_erase_add_one (ht.2 rfl)
        simp only [Bool.toNat_true, Bool.toNat_false] at hle
        omega
      | false =>
        rw [hold] at hle
        have := Finset.card_erase_le (a := t) (s := L)
        omega

/-- The ring, the threads and the number of calls fit together. -/
structure InvOn (n : BufferSize) (buffer : ℕ → Cell α) (enq deq : ℕ) (log : List (Obs T α))
    (phase : T → Phase α) (calls : ℕ) : Prop where
  ring : RingInv n buffer enq deq log
  phases : ∀ t, PhaseOk n (fun i => (buffer i).data) enq deq log t (phase t)
  calls : Counted phase (enq + deq) calls

/-- **The invariant of the queue.** -/
def Inv (n : BufferSize) (s : State T α) : Prop :=
  InvOn n s.buffer s.enqueuePos.toNat s.dequeuePos.toNat s.log s.phase s.calls

theorem inv_init (n : BufferSize) (data : ℕ → α) : Inv n (init data : State T α) := by
  refine ⟨?_, fun _ => trivial, ∅, ?_, ?_⟩
  · constructor
    case pushTickets => rfl
    case takeTickets => rfl
    case tookOnce => exact nodup_nil
    case free =>
      intro k hk _
      have hk : k < n.cap := by simpa [Open, Released, init] using hk
      have hlt : k < 2 ^ 64 := hk.trans n.size.toNat_lt
      rw [Nat.mod_eq_of_lt hk]
      exact UInt64.toNat_ofNat_of_lt' hlt
    all_goals simp [Published, Released, init]
  · intro t
    simp [init, Phase.pending]
  · exact le_refl _

section Step

variable [DecidableEq T] {n : BufferSize} {s s' : State T α} {t : T} {p : Phase α}

theorem phases_update {data : ℕ → α} {enq deq : ℕ} {log : List (Obs T α)} {phase : T → Phase α}
    (ht : PhaseOk n data enq deq log t p)
    (hu : ∀ u, u ≠ t → PhaseOk n data enq deq log u (phase u)) (u : T) :
    PhaseOk n data enq deq log u (update phase t p u) := by
  by_cases hut : u = t
  · rw [hut, update_self]
    exact ht
  · rw [update_of_ne hut]
    exact hu u hut

omit [DecidableEq T] in
theorem Inv.phaseOk (h : Inv n s) (hp : s.phase t = p) :
    PhaseOk n (fun i => (s.buffer i).data) s.enqueuePos.toNat s.dequeuePos.toNat s.log t p :=
  hp ▸ h.phases t

theorem Inv.setPhase {q : Phase α} (h : Inv n s) (hq : s.phase t = q) {c : ℕ}
    (hp : PhaseOk n (fun i => (s.buffer i).data) s.enqueuePos.toNat s.dequeuePos.toNat s.log t p)
    (hc : p.pending.toNat + s.calls ≤ q.pending.toNat + c) :
    Inv n { s.setPhase t p with calls := c } := by
  subst hq
  change InvOn n s.buffer s.enqueuePos.toNat s.dequeuePos.toNat s.log (update s.phase t p) c
  exact ⟨h.ring, phases_update hp fun u _ => h.phases u, h.calls.update (by omega)⟩

omit [DecidableEq T] in
theorem Inv.pushing_ne (h : Inv n s) {u : T} {k : ℕ} (hu : u ≠ t)
    (ht : (s.phase t).pushing = some k) : (s.phase u).pushing ≠ some k := by
  intro huk
  obtain ⟨-, -, v, hv⟩ := (h.phases t).pushing_won ht
  obtain ⟨-, -, w, hw⟩ := (h.phases u).pushing_won huk
  exact hu (h.ring.pushWon_unique hw hv).1

omit [DecidableEq T] in
theorem Inv.taking_ne (h : Inv n s) {u : T} {k : ℕ} (hu : u ≠ t)
    (ht : (s.phase t).taking = some k) : (s.phase u).taking ≠ some k := by
  intro huk
  exact hu (h.ring.takeWon_unique ((h.phases u).taking_won huk) ((h.phases t).taking_won ht))

omit [DecidableEq T] in
theorem Inv.cell_ne (h : Inv n s) {u : T} {j k : ℕ} (hu : u ≠ t)
    (ht : (s.phase t).pushing = some k) (huj : (s.phase u).pushing = some j) :
    j % n.cap ≠ k % n.cap := by
  intro hmod
  obtain ⟨hko, hkp, -⟩ := (h.phases t).pushing_won ht
  obtain ⟨hjo, hjp, -⟩ := (h.phases u).pushing_won huj
  have hkr := fun hr => hkp (h.ring.released_published hr)
  have hjr := fun hr => hjp (h.ring.released_published hr)
  have hjk : j = k := h.ring.current_unique hjo hjr hko hkr hmod
  exact h.pushing_ne hu ht (hjk ▸ huj)

theorem calls_step {e : Event T α} (hs : step n s e = some s') :
    s'.calls = s.calls + e.isCall.toNat := by
  cases steps_of_step hs <;> rfl

theorem calls_run {es : List (Event T α)} (hrun : Transition.run (step n) s es = some s') :
    s'.calls = s.calls + es.countP Event.isCall := by
  induction es generalizing s with
  | nil =>
    rw [Transition.run_nil, Option.some_inj] at hrun
    rw [hrun, countP_nil, Nat.add_zero]
  | cons e es ih =>
    obtain ⟨s₁, h1, h2⟩ := Transition.run_cons_eq_some.1 hrun
    rw [ih h2, calls_step h1, countP_cons]
    cases e.isCall with
    | true => simp; omega
    | false => simp

theorem inv_step {e : Event T α} (h : Inv n s) (hs : step n s e = some s')
    (hcalls : s'.calls < 2 ^ 63) : Inv n s' := by
  have hbound : s.enqueuePos.toNat + s.dequeuePos.toNat < 2 ^ 63 := by
    obtain ⟨L, -, hL⟩ := h.calls
    have := calls_step hs
    omega
  have hone : (1 : UInt64).toNat = 1 := rfl
  have hring := h.ring
  have hdeq := hring.deq_le_enq
  cases steps_of_step hs with
  | push hp =>
    exact h.setPhase hp trivial ((Nat.add_comm ..).le.trans (Nat.le_add_left ..))
  | take hp =>
    exact h.setPhase hp (le_refl _) ((Nat.add_comm ..).le.trans (Nat.le_add_left ..))
  | @pushReady t data pos hp hd =>
    refine h.setPhase (c := s.calls) hp (hring.open_of_sequence ?_) (le_refl _)
    rw [← n.index_eq, hd]
  | pushSpin hp => exact h
  | pushLate hp => exact h.setPhase (c := s.calls) hp trivial (le_refl _)
  | @takeReady t pos hp hd =>
    have hle : pos.toNat ≤ s.dequeuePos.toNat := h.phaseOk hp
    refine h.setPhase (c := s.calls) hp (hring.published_of_sequence ?_) (le_refl _)
    rw [← n.index_eq, hd, Word.toNat_add_of_lt (by omega), hone]
  | @takeMiss t pos hp hne hd =>
    have hle : pos.toNat ≤ s.dequeuePos.toNat := h.phaseOk hp
    rw [n.index_eq] at hne hd
    have hnp := hring.not_published_of_dif_neg hle hbound hne hd
    change InvOn n s.buffer s.enqueuePos.toNat s.dequeuePos.toNat (s.log ++ [.missed t pos.toNat])
      (update s.phase t .idle) s.calls
    refine ⟨hring.takeMiss t hnp, phases_update trivial fun u _ => ?_, h.calls.update ?_⟩
    · exact (h.phases u).mono (le_refl _) (le_refl _) (by simp) (by simp) (fun _ _ => rfl)
    · rw [hp]
      simp only [Phase.pending, Bool.toNat_true, Bool.toNat_false]
      omega
  | takeLate hp => exact h.setPhase (c := s.calls) hp trivial (le_refl _)
  | @pushWin t data pos hp he =>
    have hopen : Open n s.log pos.toNat := h.phaseOk hp
    have hpos : (pos + 1).toNat = s.enqueuePos.toNat + 1 := by
      rw [he] at hbound
      rw [Word.toNat_add_of_lt (by omega), hone, he]
    have hnp : ¬ Published s.log pos.toNat := fun hpub =>
      absurd (hring.published_lt hpub) (by rw [he]; exact lt_irrefl _)
    change InvOn n s.buffer (pos + 1).toNat s.dequeuePos.toNat
      (s.log ++ [.pushWon t pos.toNat data]) (update s.phase t (.pushCopy data pos)) s.calls
    rw [hpos]
    refine ⟨?_, phases_update ⟨?_, hopen.append, ?_, ?_⟩ fun u _ => ?_, h.calls.update ?_⟩
    · rw [← he]
      exact hring.pushWin t data
    · rw [he]
      exact Nat.lt_succ_self _
    · rw [published_append, or_iff_left (by simp)]
      exact hnp
    · exact mem_append_right _ (mem_singleton_self _)
    · exact (h.phases u).mono (Nat.le_succ _) (le_refl _) (by simp) (by simp) (fun _ _ => rfl)
    · rw [hp]
      simp only [Phase.pending, Bool.toNat_true, Bool.toNat_false]
      omega
  | pushLose hp => exact h.setPhase (c := s.calls) hp trivial (le_refl _)
  | @takeWin t pos hp he =>
    have hpub : Published s.log pos.toNat := h.phaseOk hp
    have hpos : (pos + 1).toNat = s.dequeuePos.toNat + 1 := by
      rw [he] at hbound
      rw [Word.toNat_add_of_lt (by omega), hone, he]
    have hnr : ¬ Released s.log pos.toNat := fun hrel =>
      absurd (hring.released_lt hrel) (by rw [he]; exact lt_irrefl _)
    change InvOn n s.buffer s.enqueuePos.toNat (pos + 1).toNat (s.log ++ [.takeWon t pos.toNat])
      (update s.phase t (.takeCopy pos)) s.calls
    rw [hpos]
    refine ⟨?_, phases_update ⟨?_, ?_, ?_⟩ fun u _ => ?_, h.calls.update ?_⟩
    · rw [← he]
      exact hring.takeWin t (he ▸ hpub)
    · rw [he]
      exact Nat.lt_succ_self _
    · rw [released_append, or_iff_left (by simp)]
      exact hnr
    · exact mem_append_right _ (mem_singleton_self _)
    · exact (h.phases u).mono (le_refl _) (Nat.le_succ _) (by simp) (by simp) (fun _ _ => rfl)
    · rw [hp]
      simp only [Phase.pending, Bool.toNat_true, Bool.toNat_false]
      omega
  | takeLose hp => exact h.setPhase (c := s.calls) hp (le_refl _) (le_refl _)
  | pushReload hp => exact h.setPhase (c := s.calls) hp trivial (le_refl _)
  | takeReload hp => exact h.setPhase (c := s.calls) hp (le_refl _) (le_refl _)
  | @pushCopy t v pos hp =>
    obtain ⟨hlt, hopen, hnp, hwon⟩ := h.phaseOk hp
    have hpk : (s.phase t).pushing = some pos.toNat := by rw [hp]; rfl
    rw [n.index_eq]
    change InvOn n (update s.buffer (pos.toNat % n.cap)
      { s.buffer (pos.toNat % n.cap) with data := v }) s.enqueuePos.toNat s.dequeuePos.toNat s.log
      (update s.phase t (.pushStore pos)) s.calls
    refine ⟨hring.copyData hopen hnp v, phases_update ⟨hlt, hopen, hnp, ?_⟩ fun u hu => ?_,
      h.calls.update ?_⟩
    · simp only [update_self]
      exact hwon
    · refine (h.phases u).congr_data fun k hk => ?_
      rw [update_of_ne (h.cell_ne hu hpk hk)]
    · rw [hp]
      exact le_refl _
  | @takeCopy t pos hp =>
    obtain ⟨hlt, hnr, hwon⟩ := h.phaseOk hp
    refine h.setPhase (c := s.calls) hp ⟨hlt, hnr, hwon, ?_⟩ (le_refl _)
    rw [n.index_eq]
    exact hring.data (hring.taken hlt) hnr
  | @pushStore t pos hp =>
    obtain ⟨hlt, hopen, hnp, hwon⟩ := h.phaseOk hp
    have hpk : (s.phase t).pushing = some pos.toNat := by rw [hp]; rfl
    have hpos : (pos + 1).toNat = pos.toNat + 1 := by
      rw [Word.toNat_add_of_lt (by omega), hone]
    rw [n.index_eq]
    refine ⟨hring.publish hopen hnp hlt ⟨t, hwon⟩ hpos, phases_update trivial fun u hu => ?_,
      h.calls.update ?_⟩
    · refine (h.phases u).mono (le_refl _) (le_refl _) ?_ (by simp) ?_
      · intro k hk ho
        rw [Obs.published.injEq] at ho
        exact h.pushing_ne hu hpk (ho ▸ hk)
      · intro k hk
        simp only [observe, setPhase, setSequence,
          update_of_ne (h.cell_ne hu hpk hk)]
    · rw [hp]
      exact le_refl _
  | @takeStore t pos v hp =>
    obtain ⟨hlt, hnr, hwon, hv⟩ := h.phaseOk hp
    have htk : (s.phase t).taking = some pos.toNat := by rw [hp]; rfl
    have hseq : (pos + n.mask + 1).toNat = pos.toNat + n.cap := by
      have hcap := n.cap_le
      have hmask : n.mask.toNat = n.cap - 1 := Word.toNat_sub_one n.cap_pos
      have hpos := n.cap_pos
      rw [Word.toNat_add_of_lt, Word.toNat_add_of_lt (by omega), hone]
      · omega
      · rw [Word.toNat_add_of_lt (by omega), hone]
        omega
    rw [n.index_eq]
    refine ⟨hring.release hlt hnr hwon hv hseq, phases_update trivial fun u hu => ?_,
      h.calls.update ?_⟩
    · refine (h.phases u).mono (le_refl _) (le_refl _) (by simp) ?_ ?_
      · intro k hk w x ho
        rw [Obs.took.injEq] at ho
        exact h.taking_ne hu htk (ho.2.1 ▸ hk)
      · -- only the sequence number of the cell changes
        intro k _
        simp only [observe, setPhase, setSequence]
        by_cases hi : k % n.cap = pos.toNat % n.cap
        · rw [hi, update_self]
        · rw [update_of_ne hi]
    · rw [hp]
      exact le_refl _

/-- **The invariant holds in every run of fewer than `2 ^ 63` calls.** -/
theorem inv_run {data : ℕ → α} {es : List (Event T α)}
    (hrun : Transition.run (step n) (init data) es = some s) (hcalls : s.calls < 2 ^ 63) :
    Inv n s := by
  refine Transition.run_induction (I := fun s => s.calls < 2 ^ 63 → Inv n s) ?_ es
    (fun _ => inv_init n data) hrun hcalls
  intro s e s' h hs hlt
  have hle : s.calls ≤ s'.calls := calls_step hs ▸ Nat.le_add_right ..
  exact inv_step (h (hle.trans_lt hlt)) hs hlt

end Step

end Mpmc

/-
**The watch list.**

Each CPU has a ring of the requests its threads sleep on, linked through the member `watchListHook`
(`src/libOS/linked_list.h`).  `sleepWait` links a request with `listAddHead`; `watchListCheck`
(`src/libOS/async_request.cpp`) goes around the ring, polls each request once, and unlinks those that are
done.  The next node is read before a node is unlinked, because `listDelete` overwrites its links with two
poison values, which also make a second `listDelete` return false.

Main definitions: `watchListCheck`, `Inv`, `ChecksExactly`.  Main result: `watchListCheck_exact`.
-/

import SgxElps.Lib.Dll
import SgxElps.Lib.Transition
import Mathlib.Data.BitVec

namespace WatchList

open Dll (Ring)
open Function (update update_of_ne update_apply update_eq_self)
open List
open Transition

/-! ### The list -/

abbrev Addr : Type := BitVec 64

def listPoison1 : Addr := 0x00100100#64

def listPoison2 : Addr := 0x00200200#64

/-- The fields of the `ListNode`s in memory. -/
structure Nodes where
  next : Addr → Addr
  prev : Addr → Addr

/-- `__listAdd`. -/
def Nodes.listAdd (m : Nodes) (newp prev next : Addr) : Nodes where
  next := update (update m.next newp next) prev newp
  prev := update (update m.prev newp prev) next newp

def Nodes.listAddHead (m : Nodes) (head newp : Addr) : Nodes := m.listAdd newp head (m.next head)

def Nodes.listDelete (m : Nodes) (entry : Addr) : Bool × Nodes :=
  if m.next entry = listPoison1 ∧ m.prev entry = listPoison2 then (false, m)
  else
    let next := update m.next (m.prev entry) (m.next entry)
    let prev := update m.prev (next entry) (m.prev entry)
    (true, ⟨update next entry listPoison1, update prev entry listPoison2⟩)

/-- The request whose member at `offset` is the node `nd`. -/
def listEntry (offset nd : Addr) : Addr := nd - offset

/-- What has been done with a node. -/
inductive Hook where
  | fresh
  | linked
  | deleted
deriving DecidableEq

/-- The nodes, the member `owner` of each request, and what has been done with each node. -/
structure State (T : Type) where
  nodes : Nodes
  owner : Addr → Option T
  hook : Addr → Hook

variable {T : Type}

/-- `listDelete(&rq->watchListHook)`. -/
def State.listDelete (s : State T) (entry : Addr) : State T :=
  { s with nodes := (s.nodes.listDelete entry).2, hook := update s.hook entry .deleted }

/-- The calls that a check of the list makes: the requests it polls with the answers, and the threads it
passes to `enqueueTask`. -/
structure Check (T : Type) where
  polled : List (Addr × Bool)
  enqueued : List T
  state : State T

/-- The loop of `watchListCheck`; `done i` is the answer of the `i`-th poll from here on. -/
def watchLoop (offset head : Addr) : ℕ → (ℕ → Bool) → State T → Addr → Option (Check T)
  | 0, _, _, _ => none
  | fuel + 1, done, s, it =>
      if it = head then some ⟨[], [], s⟩
      else
        let rq := listEntry offset it
        if done 0 then
          match s.owner rq with
          | none => none -- `ud2`
          | some owner =>
              let s' := { s with owner := update s.owner rq none }
              (watchLoop offset head fuel (fun i => done (i + 1)) (s'.listDelete (rq + offset))
                (s.nodes.next it)).map fun r =>
                  ⟨(rq, true) :: r.polled, owner :: r.enqueued, r.state⟩
        else
          (watchLoop offset head fuel (fun i => done (i + 1)) s (s.nodes.next it)).map fun r =>
            { r with polled := (rq, false) :: r.polled }

def watchListCheck (offset head : Addr) (fuel : ℕ) (done : ℕ → Bool) (s : State T) : Option (Check T) :=
  watchLoop offset head fuel done s (s.nodes.next head)

/-- The calls that change the list, `watchListCheck` being several calls of `listDelete`.  The request that
`sleepWait` links is not linked yet, and only a request that has been linked is deleted; its owner may be
changed then. -/
inductive Op (T : Type) where
  | sleepWait (rq : Addr) (owner : T)
  | listDelete (rq : Addr) (owner : Option T)

def step (offset head : Addr) (s : State T) : Op T → Option (State T)
  | .sleepWait rq owner =>
      if s.hook (rq + offset) ≠ .linked ∧ rq + offset ≠ head ∧ rq + offset ≠ listPoison1 then
        some ⟨s.nodes.listAddHead head (rq + offset), update s.owner rq (some owner),
          update s.hook (rq + offset) .linked⟩
      else none
  | .listDelete rq owner =>
      if s.hook (rq + offset) = .fresh then none
      else some (State.listDelete { s with owner := update s.owner rq owner } (rq + offset))

/-- The list after its construction. -/
def Empty (head : Addr) (s : State T) : Prop :=
  s.nodes.next head = head ∧ s.nodes.prev head = head ∧ ∀ nd, s.hook nd = .fresh

/-! ### The two operations on the ring -/

variable {offset head nd it : Addr} {m : Nodes} {s s' : State T} {l l₁ l₂ : List Addr}

theorem ring_listAddHead (h : Ring m.next m.prev head l) (hnd : nd ∉ head :: l) :
    Ring (m.listAddHead head nd).next (m.listAddHead head nd).prev head (nd :: l) ∧
      ∀ c ∉ nd :: head :: l, (m.listAddHead head nd).next c = m.next c ∧
        (m.listAddHead head nd).prev c = m.prev c := by
  have hnext : ∀ c, (m.listAddHead head nd).next c =
      if c = head then nd else if c = nd then m.next head else m.next c := fun c => by
    simp only [Nodes.listAddHead, Nodes.listAdd, update_apply]
  have hprev : ∀ c, (m.listAddHead head nd).prev c =
      if c = m.next head then nd else if c = nd then head else m.prev c := fun c => by
    simp only [Nodes.listAddHead, Nodes.listAdd, update_apply]
  have hmem := h.path.next_mem
  have hnodup := h.nodup
  refine ⟨⟨⟨⟨by grind, by grind⟩, ?_⟩, by grind⟩, fun c hc => ⟨by grind, by grind⟩⟩
  cases l with
  | nil =>
    have hlast := h.path.1
    exact ⟨by grind, by grind⟩
  | cons n l =>
    obtain ⟨⟨hn, -⟩, hpath⟩ := h.path
    exact ⟨⟨by grind, by grind⟩, hpath.congr (fun c hc => by grind) fun c hc => by grind⟩

theorem ring_listDelete (h : Ring m.next m.prev head (l₁ ++ nd :: l₂))
    (hpoison : listPoison1 ∉ head :: (l₁ ++ nd :: l₂)) :
    Ring (m.listDelete nd).2.next (m.listDelete nd).2.prev head (l₁ ++ l₂) ∧
      ((m.listDelete nd).2.next nd = listPoison1 ∧ (m.listDelete nd).2.prev nd = listPoison2) ∧
      ∀ c ∉ head :: (l₁ ++ nd :: l₂),
        (m.listDelete nd).2.next c = m.next c ∧ (m.listDelete nd).2.prev c = m.prev c := by
  obtain ⟨hl1, hl2⟩ := h.path.append
  have hmem := hl2.next_mem
  have hmem' := hl1.prev_mem
  have hnodup := h.nodup
  have hne : nd ≠ m.prev nd := by grind
  have hlive : ¬ (m.next nd = listPoison1 ∧ m.prev nd = listPoison2) := by grind
  have hnext : ∀ c, (m.listDelete nd).2.next c =
      if c = nd then listPoison1 else if c = m.prev nd then m.next nd else m.next c := fun c => by
    simp only [Nodes.listDelete, if_neg hlive, update_apply]
  have hprev : ∀ c, (m.listDelete nd).2.prev c =
      if c = nd then listPoison2 else if c = m.next nd then m.prev nd else m.prev c := fun c => by
    simp only [Nodes.listDelete, if_neg hlive, update_apply, if_neg hne]
  refine ⟨⟨h.path.del ?_ ?_ ?_ (fun c hc => ?_) fun c hc => ?_, by grind⟩, ⟨by grind, by grind⟩,
    fun c hc => ⟨by grind, by grind⟩⟩
  all_goals grind

/-! ### The invariant -/

/-- **The ring has exactly the nodes that are linked**, each in a request with an owner, and those that were
deleted have the poison values. -/
structure Inv (offset head : Addr) (s : State T) (l : List Addr) : Prop where
  ring : Ring s.nodes.next s.nodes.prev head l
  mem : ∀ nd, nd ∈ l ↔ s.hook nd = .linked
  unused : s.hook head = .fresh
  poison : listPoison1 ∉ head :: l
  owner : ∀ nd ∈ l, ∃ t, s.owner (listEntry offset nd) = some t
  deleted : ∀ nd, s.hook nd = .deleted → s.nodes.next nd = listPoison1 ∧ s.nodes.prev nd = listPoison2

theorem Inv.not_mem_of_deleted (h : Inv offset head s l) (hnd : s.hook nd = .deleted) : nd ∉ head :: l := by
  intro hmem
  rcases mem_cons.1 hmem with rfl | hmem
  · cases h.unused.symm.trans hnd
  · cases ((h.mem nd).1 hmem).symm.trans hnd

theorem listEntry_inj {a b : Addr} (h : listEntry offset a = listEntry offset b) : a = b := by
  rw [← BitVec.sub_add_cancel a offset, ← BitVec.sub_add_cancel b offset]
  exact congrArg (· + offset) h

theorem Inv.sleepWait {t : T} (h : Inv offset head s l) (hlinked : s.hook nd ≠ .linked)
    (hhead : nd ≠ head) (hpoison : nd ≠ listPoison1) :
    Inv offset head ⟨s.nodes.listAddHead head nd,
      update s.owner (listEntry offset nd) (some t), update s.hook nd .linked⟩ (nd :: l) := by
  have hnd : nd ∉ head :: l := fun hmem =>
    (mem_cons.1 hmem).elim hhead fun hl => hlinked ((h.mem nd).1 hl)
  obtain ⟨hring, hframe⟩ := ring_listAddHead h.ring hnd
  refine ⟨hring, fun c => ?_, ?_, ?_, fun c hc => ?_, fun c hc => ?_⟩
  · dsimp only
    rw [update_apply, mem_cons, h.mem c]
    split <;> simp_all
  · exact (update_of_ne hhead.symm _ _).trans h.unused
  · have hold := h.poison
    grind
  · dsimp only
    rw [update_apply]
    split
    · exact ⟨t, rfl⟩
    · exact h.owner c ((mem_cons.1 hc).resolve_left fun heq => by grind)
  · dsimp only at hc
    rw [update_apply] at hc
    split at hc
    · cases hc
    · have hout := h.not_mem_of_deleted hc
      obtain ⟨hn, hp⟩ := hframe c (by grind)
      exact ⟨hn.trans (h.deleted c hc).1, hp.trans (h.deleted c hc).2⟩

/-- A node is unlinked, and its request may have lost its owner. -/
theorem Inv.listDelete {owner' : Addr → Option T} (h : Inv offset head s (l₁ ++ nd :: l₂))
    (howner : ∀ c ≠ nd, owner' (listEntry offset c) = s.owner (listEntry offset c)) :
    Inv offset head (State.listDelete { s with owner := owner' } nd) (l₁ ++ l₂) := by
  obtain ⟨hring, hnd, hframe⟩ := ring_listDelete h.ring h.poison
  have hnodup := h.ring.nodup
  have hlinked := (h.mem nd).1 (by simp)
  refine ⟨hring, fun c => ?_, ?_, ?_, fun c hc => ?_, fun c hc => ?_⟩
  · have hmem := h.mem c
    simp only [State.listDelete, update_apply]
    split <;> grind
  · simp only [State.listDelete, update_apply]
    have hun := h.unused
    grind
  · have hold := h.poison
    grind
  · obtain ⟨t, ht⟩ := h.owner c (by grind)
    exact ⟨t, (howner c (by grind)).trans ht⟩
  · simp only [State.listDelete, update_apply] at hc
    by_cases hcnd : c = nd
    · exact hcnd ▸ hnd
    · rw [if_neg hcnd] at hc
      obtain ⟨hn, hp⟩ := hframe c (h.not_mem_of_deleted hc)
      exact ⟨hn.trans (h.deleted c hc).1, hp.trans (h.deleted c hc).2⟩

theorem Inv.listDelete_again (h : Inv offset head s l) (hnd : s.hook nd = .deleted) :
    s.nodes.listDelete nd = (false, s.nodes) :=
  if_pos (h.deleted nd hnd)

/-! ### The loop -/

/-- What a check from the node `it` on does, where the nodes before it are those of `l₁`. -/
structure Checked (offset head : Addr) (done : ℕ → Bool) (s : State T) (l₁ l₂ : List Addr)
    (r : Check T) : Prop where
  polled : r.polled.map (fun p => p.1 + offset) = l₂
  answers : r.polled.map Prod.snd = (range l₂.length).map done
  enqueued : r.enqueued.map some = (r.polled.filter Prod.snd).map fun p => s.owner p.1
  inv : Inv offset head r.state (l₁ ++ (r.polled.filter fun p => !p.2).map fun p => p.1 + offset)

/-- **The loop**, by induction on the nodes it has still to visit. -/
theorem watchLoop_spec {fuel : ℕ} (done : ℕ → Bool) (h : Inv offset head s (l₁ ++ l₂))
    (hit : it = l₂.headD head) (hfuel : l₂.length < fuel) :
    ∃ r, watchLoop offset head fuel done s it = some r ∧ Checked offset head done s l₁ l₂ r := by
  induction l₂ generalizing fuel done s it l₁ with
  | nil =>
    obtain ⟨fuel, rfl⟩ : ∃ n, fuel = n + 1 := ⟨fuel - 1, by omega⟩
    exact ⟨_, if_pos hit, rfl, rfl, rfl, h⟩
  | cons nd l₂ ih =>
    obtain ⟨fuel, rfl⟩ : ∃ n, fuel = n + 1 := ⟨fuel - 1, by omega⟩
    obtain rfl : it = nd := hit
    have hnodup := h.ring.nodup
    have hhead : it ≠ head := by grind
    have hnext : s.nodes.next it = l₂.headD head := h.ring.path.append.2.next_eq
    have hback : listEntry offset it + offset = it := BitVec.sub_add_cancel it offset
    have hfuel' : l₂.length < fuel := by simpa using hfuel
    have hrange : (range (it :: l₂).length).map done =
        done 0 :: (range l₂.length).map fun i => done (i + 1) := by
      rw [length_cons, range_succ_eq_map, map_cons, map_map]
      rfl
    cases hdone : done 0 with
    | true =>
      obtain ⟨t, ht⟩ := h.owner it (by simp)
      have howner : ∀ c ≠ it, update s.owner (listEntry offset it) none (listEntry offset c)
          = s.owner (listEntry offset c) :=
        fun c hc => update_of_ne (fun heq => hc (listEntry_inj heq)) _ _
      obtain ⟨r, hr, hpolled, hanswers, henqueued, hinv⟩ :=
        ih (fun i => done (i + 1)) (h.listDelete howner) hnext hfuel'
      refine ⟨⟨(listEntry offset it, true) :: r.polled, t :: r.enqueued, r.state⟩, ?_, ?_, ?_, ?_, hinv⟩
      · rw [watchLoop, if_neg hhead]
        simp only [hdone, if_true, ht, hback, hr, Option.map_some]
      · rw [map_cons, hback, hpolled]
      · rw [map_cons, hanswers, hrange, hdone]
      · have hown : (r.polled.filter Prod.snd).map (fun p => s.owner p.1) = r.enqueued.map some := by
          rw [henqueued]
          refine map_congr_left fun p hp => ?_
          have hmem : p.1 + offset ∈ l₂ := hpolled ▸ mem_map_of_mem (mem_of_mem_filter hp)
          have hne : p.1 ≠ listEntry offset it := by grind
          exact (update_of_ne hne _ _).symm
        rw [filter_cons_of_pos rfl, map_cons, map_cons, ht, hown]
    | false =>
      have h' : Inv offset head s (l₁ ++ [it] ++ l₂) := by rwa [append_assoc]
      obtain ⟨r, hr, hpolled, hanswers, henqueued, hinv⟩ := ih (fun i => done (i + 1)) h' hnext hfuel'
      refine ⟨{ r with polled := (listEntry offset it, false) :: r.polled }, ?_, ?_, ?_, henqueued, ?_⟩
      · rw [watchLoop, if_neg hhead]
        simp only [hdone, hr, Option.map_some]
        rfl
      · rw [map_cons, hback, hpolled]
      · rw [map_cons, hanswers, hrange, hdone]
      · rw [append_assoc] at hinv
        simpa [hback] using hinv

/-! ### Runs -/

theorem inv_step {e : Op T} (h : ∃ l, Inv offset head s l) (hstep : step offset head s e = some s') :
    ∃ l, Inv offset head s' l := by
  obtain ⟨l, h⟩ := h
  cases e with
  | sleepWait rq t =>
    obtain ⟨⟨hlinked, hhead, hpoison⟩, heq⟩ := Option.ite_none_right_eq_some.1 hstep
    have hrq : listEntry offset (rq + offset) = rq := BitVec.add_sub_cancel rq offset
    have hadd := h.sleepWait (t := t) hlinked hhead hpoison
    rw [hrq] at hadd
    exact ⟨_, Option.some.inj heq ▸ hadd⟩
  | listDelete rq owner =>
    obtain ⟨hfresh, heq⟩ := Option.ite_none_left_eq_some.1 hstep
    rw [← Option.some.inj heq]
    have howner : ∀ c ≠ rq + offset, update s.owner rq owner (listEntry offset c)
        = s.owner (listEntry offset c) :=
      fun c hc => update_of_ne (fun heq => hc (by rw [← heq, listEntry, BitVec.sub_add_cancel])) _ _
    cases hhook : s.hook (rq + offset) with
    | fresh => exact absurd hhook hfresh
    | linked =>
      obtain ⟨l₁, l₂, rfl⟩ := append_of_mem ((h.mem _).2 hhook)
      exact ⟨_, h.listDelete howner⟩
    | deleted =>
      refine ⟨l, ?_⟩
      rw [State.listDelete, h.listDelete_again hhook, ← hhook, update_eq_self]
      refine { h with owner := fun c hc => ?_ }
      obtain ⟨t, ht⟩ := h.owner c hc
      have hne : c ≠ rq + offset := fun heq => by
        cases ((h.mem c).1 hc).symm.trans (heq ▸ hhook)
      exact ⟨t, (howner c hne).trans ht⟩

theorem Empty.inv (h : Empty head s) (hpoison : head ≠ listPoison1) : Inv offset head s [] where
  ring := ⟨⟨h.1, h.2.1⟩, nodup_singleton head⟩
  mem := fun nd => iff_of_false not_mem_nil fun hnd => by cases (h.2.2 nd).symm.trans hnd
  unused := h.2.2 head
  poison := fun hmem => hpoison (mem_singleton.1 hmem).symm
  owner := fun _ hnd => absurd hnd not_mem_nil
  deleted := fun nd hnd => by cases (h.2.2 nd).symm.trans hnd

/-- Whatever the answers, a check of a ring with the nodes `l` polls each request once, in the order of the
ring, and gets the answers in turn.  Those that are done leave the ring and their owners are enqueued, each
once; the others stay in the ring in their order. -/
def ChecksExactly (offset head : Addr) (s : State T) (l : List Addr) : Prop :=
  ∀ done fuel, l.length < fuel → ∃ r, watchListCheck offset head fuel done s = some r ∧
    r.polled.map (fun p => p.1 + offset) = l ∧
    r.polled.map Prod.snd = (range l.length).map done ∧
    r.enqueued.map some = (r.polled.filter Prod.snd).map (fun p => s.owner p.1) ∧
    Ring r.state.nodes.next r.state.nodes.prev head
      ((r.polled.filter fun p => !p.2).map fun p => p.1 + offset)

/-- **`watchListCheck` is exact**, however the list was built, and a second `listDelete` returns false and
changes nothing. -/
theorem watchListCheck_exact {ops : List (Op T)} (hs : Empty head s) (hpoison : head ≠ listPoison1)
    (hrun : run (step offset head) s ops = some s') :
    (∃ l, Ring s'.nodes.next s'.nodes.prev head l ∧ (∀ nd, nd ∈ l ↔ s'.hook nd = .linked) ∧
      ChecksExactly offset head s' l) ∧
    ∀ nd, s'.hook nd = .deleted → s'.nodes.listDelete nd = (false, s'.nodes) := by
  have hinv : ∃ l, Inv offset head s' l :=
    run_induction (fun _ _ _ h hstep => inv_step h hstep) ops ⟨[], hs.inv hpoison⟩ hrun
  obtain ⟨l, h⟩ := hinv
  refine ⟨⟨l, h.ring, h.mem, fun done fuel hfuel => ?_⟩, fun nd => h.listDelete_again⟩
  obtain ⟨r, hr, hpolled, hanswers, henqueued, hring⟩ :=
    watchLoop_spec done ((nil_append l).symm ▸ h) h.ring.path.next_eq hfuel
  exact ⟨r, hr, hpolled, hanswers, henqueued, hring.ring⟩

def emptyList (head : Addr) : State ℕ :=
  ⟨⟨fun _ => head, fun _ => head⟩, fun _ => none, fun _ => .fresh⟩

def threeCalls : List (Op ℕ) := [.sleepWait 1000#64 1, .sleepWait 2000#64 2, .listDelete 1000#64 none]

theorem watchListCheck_exact_threeCalls : ∃ s' : State ℕ,
    run (step 8#64 64#64) (emptyList 64#64) threeCalls = some s' ∧
    (∃ l, Ring s'.nodes.next s'.nodes.prev 64#64 l ∧ (∀ nd, nd ∈ l ↔ s'.hook nd = .linked) ∧
      ChecksExactly 8#64 64#64 s' l) ∧
    ∀ nd, s'.hook nd = .deleted → s'.nodes.listDelete nd = (false, s'.nodes) := by
  obtain ⟨s', hs'⟩ : ∃ s', run (step 8#64 64#64) (emptyList 64#64) threeCalls = some s' :=
    ⟨_, rfl⟩
  exact ⟨s', hs', watchListCheck_exact ⟨rfl, rfl, fun _ => rfl⟩ (by decide) hs'⟩

end WatchList

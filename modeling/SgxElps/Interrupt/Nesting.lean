/-
**Locks that save the interrupt flag.**

`SpinLockNoTimer` (`src/include/spin_lock.h`) and `TransLock` (`src/libOS/tsx.h`) set the flag
`inInterrupt` of the CPU before they take the lock, and keep the old value in the lock itself, in
`interruptFlag`.  All CPUs write this field, each one when it has just taken the lock, and `unlock` reads it
before it gives up the lock.  Other functions keep the old value in a local variable: `disableInterrupt` of
`src/libOS/util.h` at their beginning, `if (!intFlag) enableInterrupt()` at their end.

A CPU nests these as it likes: what it has begun and not ended is a stack, and it ends what it has begun
last.  One step is one access to the flag or to a lock.

Main definitions: `CpuState`, `Inv`, `Guarantee`.
Main results: `guarantee_step`, `allFlags_kept`, `mutual_exclusion`.
-/

import SgxElps.Lib.Transition
import Mathlib.Data.List.Nodup
import Mathlib.Logic.Function.Basic

namespace SpinLock

open Function (update update_self update_of_ne)
open List
open Transition

variable {Cpu L : Type}

/-! ### The locks and the CPUs -/

/-- The fields of a lock; `locked` is `lockvar` in a `TransLock`. -/
structure Lock where
  locked : Bool
  interruptFlag : Bool

/-- What a CPU has begun: a lock that it holds, or a section with the old flag in a local variable. -/
inductive Item (L : Type) where
  | lock (l : L)
  | disabled (intFlag : Bool)

/-- How far a CPU has come in `lock`, `try_lock` or `unlock`. -/
inductive Phase (L : Type) where
  /-- In none of them. -/
  | idle
  /-- Before `test_and_set`, in the loop of `lock` or `once` in `try_lock`. -/
  | testing (once : Bool) (l : L) (localInterruptFlag : Bool)
  /-- The lock is taken, its `interruptFlag` is not written. -/
  | taken (l : L) (localInterruptFlag : Bool)
  /-- `try_lock` has found the lock taken. -/
  | failed (localInterruptFlag : Bool)
  /-- `unlock` has read `interruptFlag`. -/
  | unlocking (l : L) (reenable : Bool)
  /-- `unlock` has given up the lock. -/
  | unlocked (reenable : Bool)

structure CpuState (L : Type) where
  inInterrupt : Bool
  phase : Phase L
  stack : List (Item L)

inductive Call (L : Type) where
  | lock (l : L)
  | tryLock (l : L)
  | unlock
  | disableInterrupt
  | enableInterrupt

/-- `if (on) enableInterrupt()`. -/
def CpuState.enableIf (k : CpuState L) (on : Bool) : CpuState L :=
  if on then { k with inInterrupt := false } else k

/-- The first step of a call.  Only what was begun last can be ended. -/
def CpuState.begin (locks : L → Lock) (k : CpuState L) : Call L → Option (CpuState L)
  | .lock l => some { k with inInterrupt := true, phase := .testing false l k.inInterrupt }
  | .tryLock l => some { k with inInterrupt := true, phase := .testing true l k.inInterrupt }
  | .unlock =>
      match k.stack with
      | .lock l :: rest => some { k with phase := .unlocking l (!(locks l).interruptFlag), stack := rest }
      | _ => none
  | .disableInterrupt => some { k with inInterrupt := true, stack := .disabled k.inInterrupt :: k.stack }
  | .enableInterrupt =>
      match k.stack with
      | .disabled intFlag :: rest => some ({ k with stack := rest }.enableIf (!intFlag))
      | _ => none

/-- One step of a CPU: of the call it is in, or the first one of the call `a`. -/
def CpuState.step [DecidableEq L] (locks : L → Lock) (k : CpuState L) (a : Call L) :
    Option (CpuState L × (L → Lock)) :=
  match k.phase with
  | .idle => (k.begin locks a).map fun k' => (k', locks)
  | .testing once l old =>
      if (locks l).locked then some (if once then { k with phase := .failed old } else k, locks)
      else some ({ k with phase := .taken l old },
        update locks l { locks l with locked := true })
  | .taken l old =>
      some ({ k with phase := .idle, stack := .lock l :: k.stack },
        update locks l { locks l with interruptFlag := old })
  | .failed old => some ({ k with phase := .idle }.enableIf (!old), locks)
  | .unlocking l reenable =>
      some ({ k with phase := .unlocked reenable },
        update locks l { locks l with locked := false })
  | .unlocked reenable => some ({ k with phase := .idle }.enableIf reenable, locks)

structure State (Cpu L : Type) where
  locks : L → Lock
  cpus : Cpu → CpuState L

def step [DecidableEq Cpu] [DecidableEq L] (s : State Cpu L) (e : Cpu × Call L) :
    Option (State Cpu L) :=
  ((s.cpus e.1).step s.locks e.2).map fun r => ⟨r.2, update s.cpus e.1 r.1⟩

/-- The CPU is in no call and has ended all it has begun. -/
def CpuState.Quiet (k : CpuState L) : Prop := k.phase = .idle ∧ k.stack = []

/-- All locks are free and no CPU has begun anything; the flags may be set or not. -/
def Booted (s : State Cpu L) : Prop := (∀ l, (s.locks l).locked = false) ∧ ∀ c, (s.cpus c).Quiet

def Phase.held : Phase L → List L
  | .taken l _ | .unlocking l _ => [l]
  | _ => []

def Item.lock? : Item L → Option L
  | .lock l => some l
  | .disabled _ => none

/-- The locks a CPU holds, from `test_and_set` on until they are given up. -/
def CpuState.held (k : CpuState L) : List L := k.phase.held ++ k.stack.filterMap Item.lock?

/-! ### The invariant -/

/-- The old flag that is kept for an item. -/
def Item.saved (locks : L → Lock) : Item L → Bool
  | .lock l => (locks l).interruptFlag
  | .disabled intFlag => intFlag

/-- The flag with the items of a stack begun: `base` if there is none. -/
def level (base : Bool) : List (Item L) → Bool
  | [] => base
  | _ :: _ => true

/-- The old flag of each item is the flag below it. -/
def Saved (locks : L → Lock) (base : Bool) : List (Item L) → Prop
  | [] => True
  | i :: rest => i.saved locks = level base rest ∧ Saved locks base rest

/-- The values in the local variables of a call, where `b` is the flag to restore. -/
def Phase.Ok (b : Bool) : Phase L → Prop
  | .idle => True
  | .testing _ _ old | .taken _ old | .failed old => old = b
  | .unlocking _ reenable | .unlocked reenable => reenable = !b

/-- **The invariant of one CPU**, where `base` is its flag when it has begun nothing. -/
structure CpuOk (locks : L → Lock) (base : Bool) (k : CpuState L) : Prop where
  nodup : k.held.Nodup
  locked : ∀ l ∈ k.held, (locks l).locked = true
  saved : Saved locks base k.stack
  phase : k.phase.Ok (level base k.stack)
  idle : k.phase = .idle → k.inInterrupt = level base k.stack
  busy : k.phase ≠ .idle → k.inInterrupt = true

/-- **The invariant.** -/
structure Inv (base : Cpu → Bool) (s : State Cpu L) : Prop where
  cpu : ∀ c, CpuOk s.locks (base c) (s.cpus c)
  disjoint : ∀ c c' l, l ∈ (s.cpus c).held → l ∈ (s.cpus c').held → c = c'
  owned : ∀ l, (s.locks l).locked = true → ∃ c, l ∈ (s.cpus c).held

variable {locks locks' : L → Lock} {base : Bool} {k k' : CpuState L} {l : L} {stack : List (Item L)}
  {bases : Cpu → Bool} {s s' s₁ s₂ : State Cpu L}

theorem Saved.congr (h : Saved locks base stack)
    (heq : ∀ l ∈ stack.filterMap Item.lock?, locks' l = locks l) : Saved locks' base stack := by
  induction stack with
  | nil => trivial
  | cons i rest ih =>
    cases i with
    | lock l =>
      refine ⟨?_, ih h.2 fun l' hl' => heq l' (mem_cons_of_mem _ hl')⟩
      rw [← h.1, Item.saved, heq l mem_cons_self]
      rfl
    | disabled intFlag => exact ⟨h.1, ih h.2 heq⟩

theorem CpuOk.congr (h : CpuOk locks base k) (heq : ∀ l ∈ k.held, locks' l = locks l) :
    CpuOk locks' base k :=
  { h with
    locked := fun l hl => (congrArg Lock.locked (heq l hl)).trans (h.locked l hl)
    saved := h.saved.congr fun l hl => heq l (mem_append_right _ hl) }

theorem CpuOk.inInterrupt_of_held (h : CpuOk locks base k) (hl : l ∈ k.held) :
    k.inInterrupt = true := by
  obtain ⟨flag, phase, stack⟩ := k
  by_cases hidle : phase = .idle
  · subst hidle
    rw [h.idle rfl]
    cases stack with
    | nil => cases hl
    | cons i rest => rfl
  · exact h.busy hidle

theorem Booted.inv (h : Booted s) : Inv (fun c => (s.cpus c).inInterrupt) s := by
  have hcpu : ∀ c, s.cpus c = ⟨(s.cpus c).inInterrupt, .idle, []⟩ := fun c => by
    rw [← (h.2 c).1, ← (h.2 c).2]
  refine ⟨fun c => ?_, fun c c' l hl => ?_, fun l hl => absurd hl (Bool.eq_false_iff.1 (h.1 l))⟩
  · rw [hcpu c]
    exact ⟨nodup_nil, nofun, trivial, trivial, fun _ => rfl, fun hne => absurd rfl hne⟩
  · rw [hcpu c] at hl
    cases hl

theorem Inv.inInterrupt_of_quiet {c : Cpu} (h : Inv bases s) (hc : (s.cpus c).Quiet) :
    (s.cpus c).inInterrupt = bases c := by
  rw [(h.cpu c).idle hc.1, hc.2]
  rfl

/-! ### The steps of one CPU -/

/-- What a step of one CPU may do: its own invariant is kept, it gets no lock but a free one, what it gives
up is free, and locks it has nothing to do with are not changed. -/
structure Guarantee (locks locks' : L → Lock) (base : Bool) (k k' : CpuState L) : Prop where
  ok : CpuOk locks' base k'
  fresh : ∀ l ∈ k'.held, l ∈ k.held ∨ (locks l).locked = false
  freed : ∀ l ∈ k.held, l ∉ k'.held → (locks' l).locked = false
  frame : ∀ l, l ∉ k.held → l ∉ k'.held → locks' l = locks l

/-- A step that changes no lock. -/
theorem guarantee_of_held_eq (h : CpuOk locks base k') (heq : k'.held = k.held) :
    Guarantee locks locks base k k' where
  ok := h
  fresh := fun _ hl => Or.inl (heq ▸ hl)
  freed := fun _ hl hnot => absurd (heq ▸ hl) hnot
  frame := fun _ _ _ => rfl

theorem guarantee_enableIf {on : Bool} (h : CpuOk locks base k)
    (hheld : stack.filterMap Item.lock? = k.held) (hsaved : Saved locks base stack)
    (hon : on = !level base stack) :
    Guarantee locks locks base k (CpuState.enableIf ⟨true, .idle, stack⟩ on) := by
  have hflag : CpuState.enableIf ⟨true, .idle, stack⟩ on = ⟨level base stack, .idle, stack⟩ := by
    rw [hon]
    cases level base stack <;> rfl
  rw [hflag]
  refine guarantee_of_held_eq ⟨?_, ?_, hsaved, trivial, fun _ => rfl, fun hne => absurd rfl hne⟩ hheld
  · exact (congrArg List.Nodup hheld).mpr h.nodup
  · exact fun l hl => h.locked l (hheld ▸ hl)

theorem guarantee_begin {a : Call L} (h : CpuOk locks base k) (hidle : k.phase = .idle)
    (hbegin : k.begin locks a = some k') : Guarantee locks locks base k k' := by
  obtain ⟨flag, phase, stack⟩ := k
  obtain rfl : phase = .idle := hidle
  obtain rfl : flag = level base stack := h.idle rfl
  cases a with
  | lock l | tryLock l =>
    cases hbegin
    exact guarantee_of_held_eq { h with phase := rfl, idle := nofun, busy := fun _ => rfl } rfl
  | disableInterrupt =>
    cases hbegin
    exact guarantee_of_held_eq { h with
      saved := ⟨rfl, h.saved⟩, phase := trivial, idle := fun _ => rfl, busy := fun hne => absurd rfl hne } rfl
  | unlock =>
    cases stack with
    | nil => cases hbegin
    | cons i rest =>
      cases i with
      | disabled intFlag => cases hbegin
      | lock l =>
        cases hbegin
        exact guarantee_of_held_eq { h with
          saved := h.saved.2, phase := congrArg not h.saved.1, idle := nofun, busy := fun _ => rfl } rfl
  | enableInterrupt =>
    cases stack with
    | nil => cases hbegin
    | cons i rest =>
      cases i with
      | lock l => cases hbegin
      | disabled intFlag =>
        cases hbegin
        exact guarantee_enableIf h rfl h.saved.2 (congrArg not h.saved.1)

variable [DecidableEq L]

theorem update_of_mem {x : Lock} {ls : List L} {l' : L} (hnot : l ∉ ls) (hl' : l' ∈ ls) :
    update locks l x l' = locks l' :=
  update_of_ne (fun heq : l' = l => hnot (heq ▸ hl')) _ _

/-- **A step of one CPU.** -/
theorem guarantee_step {a : Call L} (h : CpuOk locks base k)
    (hstep : k.step locks a = some (k', locks')) : Guarantee locks locks' base k k' := by
  obtain ⟨flag, phase, stack⟩ := k
  have hframe : ∀ {x : Lock} {l l' : L} {ls : List L}, l ∈ ls → l' ∉ ls →
      update locks l x l' = locks l' :=
    fun {_ l l' _} hl hnot => update_of_ne (fun heq : l' = l => hnot (heq ▸ hl)) _ _
  cases phase with
  | idle =>
    obtain ⟨k₁, hk, heq⟩ := Option.map_eq_some_iff.1 hstep
    cases heq
    exact guarantee_begin h rfl hk
  | testing once l old =>
    obtain rfl : flag = true := h.busy nofun
    cases hlocked : (locks l).locked with
    | true =>
      simp only [CpuState.step, hlocked, if_true] at hstep
      cases hstep
      cases once with
      | true => exact guarantee_of_held_eq { h with idle := nofun, busy := fun _ => rfl } rfl
      | false => exact guarantee_of_held_eq h rfl
    | false =>
      simp only [CpuState.step, hlocked] at hstep
      cases hstep
      have hnot : l ∉ stack.filterMap Item.lock? := fun hl =>
        Bool.false_ne_true (hlocked.symm.trans (h.locked l hl))
      refine ⟨⟨nodup_cons.2 ⟨hnot, h.nodup⟩, fun l' hl' => ?_,
        h.saved.congr fun _ => update_of_mem hnot, h.phase, nofun, fun _ => rfl⟩, fun l' hl' => ?_,
        fun l' hl' hn => absurd (mem_cons_of_mem l hl') hn, fun _ _ => hframe mem_cons_self⟩
      · rcases mem_cons.1 hl' with rfl | hl'
        · rw [update_self]
        · rw [update_of_mem hnot hl']
          exact h.locked l' hl'
      · exact (mem_cons.1 hl').symm.imp_right fun heq : l' = l => heq ▸ hlocked
  | taken l old =>
    cases hstep
    have hnot : l ∉ stack.filterMap Item.lock? := (nodup_cons.1 h.nodup).1
    refine ⟨⟨h.nodup, fun l' hl' => ?_, ⟨?_, h.saved.congr fun _ => update_of_mem hnot⟩, trivial,
      fun _ => h.busy nofun, fun hne => absurd rfl hne⟩, fun _ => Or.inl,
      fun _ hl' hn => absurd hl' hn, fun _ _ => hframe mem_cons_self⟩
    · rcases mem_cons.1 hl' with rfl | hmem
      · rw [update_self]
        exact h.locked l' mem_cons_self
      · rw [update_of_mem hnot hmem]
        exact h.locked l' hl'
    · rw [Item.saved, update_self]
      exact h.phase
  | failed old =>
    cases hstep
    obtain rfl : flag = true := h.busy nofun
    exact guarantee_enableIf h rfl h.saved (congrArg not h.phase)
  | unlocking l reenable =>
    cases hstep
    obtain ⟨hnot, hnodup⟩ := nodup_cons.1 h.nodup
    refine ⟨⟨hnodup, fun l' hl' => ?_, h.saved.congr fun _ => update_of_mem hnot, h.phase, nofun,
      fun _ => h.busy nofun⟩, fun _ hl' => Or.inl (mem_cons_of_mem l hl'), fun l' hl' hn => ?_,
      fun _ hl' _ => hframe mem_cons_self hl'⟩
    · rw [update_of_mem hnot hl']
      exact h.locked l' (mem_cons_of_mem l hl')
    · obtain rfl : l' = l := (mem_cons.1 hl').resolve_right hn
      rw [update_self]
  | unlocked reenable =>
    cases hstep
    obtain rfl : flag = true := h.busy nofun
    exact guarantee_enableIf h rfl h.saved h.phase

/-! ### All CPUs -/

variable [DecidableEq Cpu]

theorem inv_step {e : Cpu × Call L} (h : Inv bases s) (hstep : step s e = some s') : Inv bases s' := by
  obtain ⟨c, a⟩ := e
  obtain ⟨⟨k', locks'⟩, hk, rfl⟩ := Option.map_eq_some_iff.1 hstep
  have hg := guarantee_step (h.cpu c) hk
  -- the locks of another CPU are neither the old nor the new ones of `c`
  have hold : ∀ c' ≠ c, ∀ l ∈ (s.cpus c').held, l ∉ (s.cpus c).held :=
    fun c' hne l hl hc => hne (h.disjoint c' c l hl hc)
  have hnew : ∀ c' ≠ c, ∀ l ∈ (s.cpus c').held, l ∉ k'.held := fun c' hne l hl hc =>
    (hg.fresh l hc).elim (hold c' hne l hl) fun hfree =>
      Bool.false_ne_true (hfree.symm.trans ((h.cpu c').locked l hl))
  have hcases : ∀ c', c' = c ∧ update s.cpus c k' c' = k' ∨
      c' ≠ c ∧ update s.cpus c k' c' = s.cpus c' := fun c' => by
    by_cases hc : c' = c
    · exact Or.inl ⟨hc, hc ▸ update_self ..⟩
    · exact Or.inr ⟨hc, update_of_ne hc _ _⟩
  refine ⟨fun c' => ?_, fun c' c'' l hl hl' => ?_, fun l hl => ?_⟩ <;> dsimp only at *
  · rcases hcases c' with ⟨rfl, heq⟩ | ⟨hc, heq⟩ <;> rw [heq]
    · exact hg.ok
    · exact (h.cpu c').congr fun l hl => hg.frame l (hold c' hc l hl) (hnew c' hc l hl)
  · rcases hcases c' with ⟨hc, heq⟩ | ⟨hc, heq⟩ <;> rcases hcases c'' with ⟨hc', heq'⟩ | ⟨hc', heq'⟩ <;>
      rw [heq] at hl <;> rw [heq'] at hl'
    · exact hc.trans hc'.symm
    · exact absurd hl (hnew c'' hc' l hl')
    · exact absurd hl' (hnew c' hc l hl)
    · exact h.disjoint c' c'' l hl hl'
  · by_cases hc : l ∈ k'.held
    · exact ⟨c, by rwa [update_self]⟩
    · by_cases hk : l ∈ (s.cpus c).held
      · exact absurd hl (Bool.eq_false_iff.1 (hg.freed l hk hc))
      · obtain ⟨c', hc'⟩ := h.owned l (hg.frame l hk hc ▸ hl)
        have hne : c' ≠ c := fun heq => hk (heq ▸ hc')
        exact ⟨c', by rwa [update_of_ne hne]⟩

theorem inv_run {es : List (Cpu × Call L)} (h : Inv bases s)
    (hrun : run step s es = some s') : Inv bases s' :=
  run_induction (fun _ _ _ h hstep => inv_step h hstep) es h hrun

/-- **The flag of a CPU is set while it holds a lock**, and whenever it has ended all it has begun, the flag
is what it was at any earlier time when it had begun nothing. -/
theorem allFlags_kept {es fs : List (Cpu × Call L)} (hs : Booted s)
    (h₁ : run step s es = some s₁) (h₂ : run step s₁ fs = some s₂) :
    (∀ c, ∀ l ∈ (s₂.cpus c).held, (s₂.cpus c).inInterrupt = true) ∧
      ∀ c, (s₁.cpus c).Quiet → (s₂.cpus c).Quiet → (s₂.cpus c).inInterrupt = (s₁.cpus c).inInterrupt := by
  have hinv₁ := inv_run hs.inv h₁
  have hinv₂ := inv_run hinv₁ h₂
  refine ⟨fun c l hl => (hinv₂.cpu c).inInterrupt_of_held hl, fun c hc₁ hc₂ => ?_⟩
  rw [hinv₂.inInterrupt_of_quiet hc₂, hinv₁.inInterrupt_of_quiet hc₁]

/-- Two CPUs and one lock; the flag of the second CPU is set. -/
def twoCpus : State Bool Unit := ⟨fun _ => ⟨false, false⟩, fun c => ⟨c, .idle, []⟩⟩

/-- One CPU holds the lock inside a section of its own while the other one tries it in vain. -/
def contention : List (Bool × Call Unit) :=
  [(false, .disableInterrupt), (false, .lock ()), (true, .tryLock ()), (false, .unlock), (true, .unlock),
    (false, .unlock), (true, .unlock), (false, .unlock), (false, .unlock), (false, .unlock),
    (false, .enableInterrupt)]

theorem allFlags_kept_contention : ∃ s₂, run step twoCpus contention = some s₂ ∧
    (∀ c, ∀ l ∈ (s₂.cpus c).held, (s₂.cpus c).inInterrupt = true) ∧
      ∀ c, (twoCpus.cpus c).Quiet → (s₂.cpus c).Quiet →
        (s₂.cpus c).inInterrupt = (twoCpus.cpus c).inInterrupt := by
  obtain ⟨s₂, h₂⟩ : ∃ s₂, run step twoCpus contention = some s₂ := ⟨_, rfl⟩
  exact ⟨s₂, h₂, allFlags_kept ⟨fun _ => rfl, fun _ => ⟨rfl, rfl⟩⟩ (run_nil twoCpus) h₂⟩

/-- **Mutual exclusion**: a lock is taken exactly while a CPU holds it, and no two CPUs do. -/
theorem mutual_exclusion {es : List (Cpu × Call L)} (hs : Booted s)
    (hrun : run step s es = some s') (l : L) :
    ((s'.locks l).locked = true ↔ ∃ c, l ∈ (s'.cpus c).held) ∧
      ∀ c d, l ∈ (s'.cpus c).held → l ∈ (s'.cpus d).held → c = d := by
  have hinv := inv_run hs.inv hrun
  refine ⟨⟨hinv.owned l, ?_⟩, fun c d => hinv.disjoint c d l⟩
  rintro ⟨c, hc⟩
  exact (hinv.cpu c).locked l hc

theorem mutual_exclusion_contention : ∃ s', run step twoCpus (contention.take 6) = some s' ∧
    ((s'.locks ()).locked = true ↔ ∃ c, () ∈ (s'.cpus c).held) ∧
      ∀ c d, () ∈ (s'.cpus c).held → () ∈ (s'.cpus d).held → c = d := by
  obtain ⟨s', h'⟩ : ∃ s', run step twoCpus (contention.take 6) = some s' := ⟨_, rfl⟩
  exact ⟨s', h', mutual_exclusion ⟨fun _ => rfl, fun _ => ⟨rfl, rfl⟩⟩ h' ()⟩

end SpinLock

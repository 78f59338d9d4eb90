/-
**Threads that can be preempted, and a calculus of preconditions for them.**

Each CPU has a flag; an interrupt is taken only while the flag is clear, sets it, and calls a handler on
top of whatever the thread is doing.  Code saves and sets the flag, and restores it from the saved value;
spin locks save the flag of their holder in a field of their own.  The flag is reached through a pointer
of the CPU: a thread looks up on which CPU it runs, and accesses that CPU's flag in a second step.  A
thread may leave its CPU, and goes on, perhaps on another one, when some thread switches to it; what the
flag is then, is the other thread's affair.  Local variables live in frames: a call, and the handler, gets
a new one.

What a thread knows is the flag of its CPU, its variables and what the locks it holds have saved; no
other thread can change that.  So a precondition can be computed from the code of one thread alone, and
the main theorem says that it may be: it holds along every interleaving.

A shared counter is counted up and down; a thread that counts down after it has counted up finds the
counter nonzero, whatever the others do.  A thread that has used up its time slot gives up the CPU, and a
slot is one tick.  At a `tail`, the last instructions of the handler, an interrupt only sets the flag.

Main definitions: `Cmd`, `step`, `pre`, `Spec`, `Inv`.
Main results: `exec_pre`, `Inv.step`, `allStates_returned`.
-/

import SgxElps.Lib.Transition
import Mathlib.Algebra.Order.BigOperators.Group.Finset
import Mathlib.Logic.Function.Basic
import Mathlib.Tactic.SplitIfs

namespace Preempt

open Function
open Option (ite_none_right_eq_some some_inj some_ne_none)

/-! ### Commands -/

/-- The commands, over names `V` of variables and locks `L`; `A` is what a branch may depend on. -/
inductive Cmd (V L A : Type) where
  | skip
  /-- Set the flag, and save the old one in `x`. -/
  | disable (x : V)
  /-- Clear the flag if `x` says that it was clear. -/
  | restore (x : V)
  | enable
  /-- Take the lock `l`, which saves `x`. -/
  | acquire (l : L) (x : V)
  /-- Read into `x` what the lock has saved, and release it. -/
  | release (l : L) (x : V)
  /-- Count up. -/
  | increment
  /-- Count down; `x` says whether the counter was nonzero. -/
  | decrement (x : V)
  /-- Count one tick of the time slot; it is used up after `n`. -/
  | tick (n : ℕ) (early late : Cmd V L A)
  /-- Leave the CPU to another thread. -/
  | switch
  | tail
  | seq (c d : Cmd V L A)
  | any (f : A → Cmd V L A)
  | star (c : Cmd V L A)
  | call (c : Cmd V L A)

/-- The commands of a list, one after the other. -/
def block {V L A : Type} : List (Cmd V L A) → Cmd V L A
  | [] => .skip
  | c :: cs => .seq c (block cs)

/-! ### Threads -/

/-- A frame: the commands that are left, the variables, and the CPU whose flag the first command is
about to access, once it has looked up on which CPU it runs. -/
structure Frame (Cpu V L A : Type) where
  code : List (Cmd V L A)
  env : V → Bool
  looked : Option Cpu

/-- The threads `T` on the CPUs; `N` names the functions that they call.  `saved` is the field of a
lock.  The rest the code does not read: `entered` tells the function that a thread has called last and
the flag of its CPU when it did, `owed` how often a thread has counted up and not down again, and
`marked` whether it has counted down since the call. -/
structure State (Cpu T V L A N : Type) where
  flag : Cpu → Bool
  cpu : T → Option Cpu
  stack : T → List (Frame Cpu V L A)
  holder : L → Option T
  saved : L → Bool
  counter : ℤ
  slot : T → ℕ
  entered : T → Option (N × Bool)
  owed : T → ℕ
  marked : T → Bool

open State

/-- One command of a thread, with what its branch depends on and whether a loop goes on; a switch of
threads; an interrupt; the call of a function by a thread that is in none. -/
inductive Event (T A N : Type) where
  | exec (t : T) (a : A) (again : Bool)
  | switchTo (t u : T)
  | interrupt (t : T)
  | begin (t : T) (f : N)

variable {Cpu T V L A N : Type}

/-- The thread is at the end of the handler. -/
def atTail : List (Frame Cpu V L A) → Bool
  | ⟨.tail :: _, _, _⟩ :: _ => true
  | _ => false

/-- The CPU whose flag the thread is about to access, if it has looked that up. -/
def lookedUp : List (Frame Cpu V L A) → Option Cpu
  | fr :: _ => fr.looked
  | [] => none

/-- The command accesses the flag, and looks up first whose. -/
def Cmd.looksUp : Cmd V L A → (V → Bool) → Bool
  | .disable _, _ | .enable, _ => true
  | .restore x, env => !env x
  | _, _ => false

section Step

variable [DecidableEq Cpu] [DecidableEq T] [DecidableEq V] [DecidableEq L]

def State.setStack (s : State Cpu T V L A N) (t : T) (fs : List (Frame Cpu V L A)) :
    State Cpu T V L A N :=
  { s with stack := update s.stack t fs }

/-- One command of the thread `t`, on the flag of the CPU `c`, in a frame with the rest `code` and the
variables `env`, on top of the frames `fs`. -/
def State.exec (s : State Cpu T V L A N) (t : T) (c : Cpu) (code : List (Cmd V L A)) (env : V → Bool)
    (fs : List (Frame Cpu V L A)) (a : A) (again : Bool) : Cmd V L A → Option (State Cpu T V L A N)
  | .skip | .tail => some (s.setStack t (⟨code, env, none⟩ :: fs))
  | .disable x =>
      some { s.setStack t (⟨code, update env x (s.flag c), none⟩ :: fs) with
        flag := update s.flag c true }
  | .restore x =>
      some { s.setStack t (⟨code, env, none⟩ :: fs) with
        flag := update s.flag c (s.flag c && env x) }
  | .enable =>
      some { s.setStack t (⟨code, env, none⟩ :: fs) with flag := update s.flag c false }
  | .acquire l x =>
      if s.holder l = none then
        some { s.setStack t (⟨code, env, none⟩ :: fs) with
          holder := update s.holder l (some t)
          saved := update s.saved l (env x) }
      else none
  | .release l x =>
      if s.holder l = some t then
        some { s.setStack t (⟨code, update env x (s.saved l), none⟩ :: fs) with
          holder := update s.holder l none }
      else none
  | .increment =>
      some { s.setStack t (⟨code, env, none⟩ :: fs) with
        counter := s.counter + 1
        owed := update s.owed t (s.owed t + 1) }
  | .decrement x =>
      some { s.setStack t (⟨code, update env x (s.counter != 0), none⟩ :: fs) with
        counter := s.counter - 1
        owed := update s.owed t (s.owed t - 1)
        marked := update s.marked t true }
  | .tick n early late =>
      if s.slot t + 1 ≠ n then
        some { s.setStack t (⟨early :: code, env, none⟩ :: fs) with
          slot := update s.slot t (s.slot t + 1) }
      else
        some { s.setStack t (⟨late :: code, env, none⟩ :: fs) with slot := update s.slot t 0 }
  | .switch => none
  | .seq c d => some (s.setStack t (⟨c :: d :: code, env, none⟩ :: fs))
  | .any f => some (s.setStack t (⟨f a :: code, env, none⟩ :: fs))
  | .star c =>
      if again then some (s.setStack t (⟨c :: .star c :: code, env, none⟩ :: fs))
      else some (s.setStack t (⟨code, env, none⟩ :: fs))
  | .call c => some (s.setStack t (⟨[c], fun _ => false, none⟩ :: ⟨code, env, none⟩ :: fs))

/-- One step; `body` gives the functions, and `handler` is what an interrupt calls. -/
def step (body : N → Cmd V L A) (handler : Cmd V L A) (s : State Cpu T V L A N) :
    Event T A N → Option (State Cpu T V L A N)
  | .exec t a again =>
      match s.cpu t, s.stack t with
      | some c, ⟨cmd :: code, env, looked⟩ :: fs =>
          if cmd.looksUp env && looked.isNone then
            some (s.setStack t (⟨cmd :: code, env, some c⟩ :: fs))
          else s.exec t (looked.getD c) code env fs a again cmd
      | some _, ⟨[], _, _⟩ :: fs => some (s.setStack t fs)
      | _, _ => none
  | .switchTo t u =>
      match s.cpu t, s.stack t, s.cpu u with
      | some c, ⟨.switch :: code, env, _⟩ :: fs, none =>
          some { s.setStack t (⟨code, env, none⟩ :: fs) with
            cpu := update (update s.cpu t none) u (some c) }
      | _, _, _ => none
  | .interrupt t =>
      match s.cpu t with
      | some c =>
          if s.flag c then none
          else if atTail (s.stack t) then some { s with flag := update s.flag c true }
          else
            some { s.setStack t (⟨[handler], fun _ => false, none⟩ :: s.stack t) with
              flag := update s.flag c true }
      | none => none
  | .begin t f =>
      match s.cpu t, s.stack t with
      | some c, [] =>
          some { s.setStack t [⟨[body f], fun _ => false, none⟩] with
            entered := update s.entered t (some (f, s.flag c))
            marked := update s.marked t false }
      | _, _ => none

end Step

/-! ### Preconditions -/

/-- What a thread knows: the flag of its CPU, what the locks it holds have saved, and what it owes to
the counter. -/
structure View (L : Type) where
  flag : Bool
  held : L → Option Bool
  owed : ℕ
  marked : Bool

section Pre

variable [DecidableEq V] [DecidableEq L]

/-- The precondition of a command for `Q` to hold after it.  A thread that waits for a lock of its own
waits for ever, and the flag after a switch is not known.  A loop needs an invariant. -/
def pre : Cmd V L A → ((V → Bool) → View L → Prop) → (V → Bool) → View L → Prop
  | .skip, Q, env, v | .tail, Q, env, v => Q env v
  | .disable x, Q, env, v => Q (update env x v.flag) { v with flag := true }
  | .restore x, Q, env, v => Q env { v with flag := v.flag && env x }
  | .enable, Q, env, v => Q env { v with flag := false }
  | .acquire l x, Q, env, v =>
      v.held l = none → Q env { v with held := update v.held l (some (env x)) }
  | .release l x, Q, env, v =>
      ∀ b, v.held l = some b →
        Q (update env x b) { v with held := update v.held l none }
  | .increment, Q, env, v => Q env { v with owed := v.owed + 1 }
  | .decrement x, Q, env, v =>
      0 < v.owed ∧ Q (update env x true) { v with owed := v.owed - 1, marked := true }
  | .tick n _ late, Q, env, v => n = 1 ∧ pre late Q env v
  | .switch, Q, env, v => ∀ b, Q env { v with flag := b }
  | .seq c d, Q, env, v => pre c (pre d Q) env v
  | .any f, Q, env, v => ∀ a, pre (f a) Q env v
  | .star c, Q, env, v =>
      ∃ I : (V → Bool) → View L → Prop, I env v ∧ ∀ env v, I env v → Q env v ∧ pre c I env v
  | .call c, Q, env, v => pre c (fun _ => Q env) (fun _ => false) v

/-- **The rule of consequence.** -/
theorem pre_mono {c : Cmd V L A} {Q Q' : (V → Bool) → View L → Prop} {env : V → Bool} {v : View L}
    (hQ : ∀ env v, Q env v → Q' env v) (h : pre c Q env v) : pre c Q' env v := by
  induction c generalizing Q Q' env v with
  | skip | tail | disable _ | restore _ | enable | increment => exact hQ _ _ h
  | acquire l x => exact fun hl => hQ _ _ (h hl)
  | release l x => exact fun b hb => hQ _ _ (h b hb)
  | decrement x => exact ⟨h.1, hQ _ _ h.2⟩
  | tick n early late _ ih => exact ⟨h.1, ih hQ h.2⟩
  | switch => exact fun b => hQ _ _ (h b)
  | seq c d ihc ihd => exact ihc (fun _ _ => ihd hQ) h
  | any f ih => exact fun a => ih a hQ (h a)
  | star c _ =>
    obtain ⟨I, hI, hinv⟩ := h
    exact ⟨I, hI, fun env v hv => ⟨hQ _ _ (hinv env v hv).1, (hinv env v hv).2⟩⟩
  | call c ih => exact ih (fun _ => hQ env) h

/-- The precondition of a list of commands. -/
def preList : List (Cmd V L A) → ((V → Bool) → View L → Prop) → (V → Bool) → View L → Prop
  | [], Q => Q
  | c :: cs, Q => pre c (preList cs Q)

/-- The precondition of all the frames of a thread, for `R` to hold when it is done. -/
def preStack (R : View L → Prop) : List (Frame Cpu V L A) → View L → Prop
  | [], v => R v
  | fr :: fs, v => preList fr.code (fun _ => preStack R fs) fr.env v

/-! ### Neutral commands -/

/-- The command changes nothing that its thread knows. -/
def Neutral (c : Cmd V L A) : Prop :=
  ∀ (Q : (V → Bool) → View L → Prop) (env : V → Bool) (v : View L), Q env v → pre c Q env v

variable {c d : Cmd V L A} {x : V} {l : L}

theorem Neutral.skip : Neutral (.skip : Cmd V L A) := fun _ _ _ h => h

theorem Neutral.seq (hc : Neutral c) (hd : Neutral d) : Neutral (.seq c d) :=
  fun Q env v h => hc (pre d Q) env v (hd Q env v h)

theorem Neutral.any {f : A → Cmd V L A} (h : ∀ a, Neutral (f a)) : Neutral (.any f) :=
  fun Q env v hQ a => h a Q env v hQ

theorem Neutral.star (hc : Neutral c) : Neutral (.star c) :=
  fun Q _ _ h => ⟨Q, h, fun env v hv => ⟨hv, hc Q env v hv⟩⟩

/-- The flag is set, and restored after `c`. -/
def guarded (x : V) (c : Cmd V L A) : Cmd V L A := block [.disable x, c, .restore x]

theorem Neutral.guarded (hc : Neutral c) (x : V) : Neutral (.call (guarded x c)) := by
  intro Q env v h
  refine hc _ _ _ ?_
  have hview : ({ v with flag := true && update (fun _ => false) x v.flag x } : View L) = v := by
    rw [update_self, Bool.true_and]
  exact (congrArg (Q env) hview).mpr h

/-- Taking a spin lock, and releasing it. -/
def lock (l : L) (x : V) : Cmd V L A := .call (block [.disable x, .acquire l x])

def unlock (l : L) (x : V) : Cmd V L A := .call (block [.release l x, .restore x])

def locked (l : L) (x : V) (c : Cmd V L A) : Cmd V L A := block [lock l x, c, unlock l x]

/-- What a thread knows once it has taken the lock `l`. -/
def View.take (v : View L) (l : L) : View L :=
  { v with flag := true, held := update v.held l (some v.flag) }

theorem pre_lock {Q : (V → Bool) → View L → Prop} {env : V → Bool} {v : View L} :
    pre (lock l x : Cmd V L A) Q env v ↔ (v.held l = none → Q env (v.take l)) := by
  simp only [lock, block, pre, update_self, View.take]

/-- Releasing a lock gives back what was known before it was taken. -/
theorem pre_unlock {Q : (V → Bool) → View L → Prop} {env : V → Bool} {v : View L}
    (hfree : v.held l = none) (h : Q env v) : pre (unlock l x : Cmd V L A) Q env (v.take l) := by
  simp only [unlock, block, pre, update_self, View.take]
  rintro b hb
  obtain rfl := some_inj.1 hb
  rw [update_idem, ← hfree, update_eq_self, Bool.true_and]
  exact h

theorem Neutral.locked (hc : Neutral c) (l : L) (x : V) : Neutral (locked l x c) :=
  fun _ _ _ h => pre_lock.2 fun hfree => hc _ _ _ (pre_unlock hfree h)

end Pre

/-! ### Every interleaving -/

/-- The thread holds no lock, and owes nothing. -/
def View.Idle (v : View L) : Prop := (∀ l, v.held l = none) ∧ v.owed = 0

/-- What is known of a thread that is in no function: `post f` if it has called `f` with the flag
clear. -/
def Done (post : N → View L → Prop) (entered : Option (N × Bool)) (v : View L) : Prop :=
  v.Idle ∧ ∀ f, entered = some (f, false) → post f v

section Counting

variable {s : State Cpu T V L A N} {t : T}

/-- The counter is at least what any threads owe together. -/
def State.Counted (s : State Cpu T V L A N) : Prop :=
  ∀ F : Finset T, ((∑ t ∈ F, s.owed t : ℕ) : ℤ) ≤ s.counter

theorem State.Counted.ne_zero (h : s.Counted) (ht : 0 < s.owed t) : s.counter ≠ 0 := by
  have hle := h {t}
  rw [Finset.sum_singleton] at hle
  omega

variable [DecidableEq T]

theorem sum_update {F : Finset T} (ht : t ∈ F) (f : T → ℕ) (n : ℕ) :
    ∑ u ∈ F, update f t n u + f t = ∑ u ∈ F, f u + n := by
  have hrest : ∑ u ∈ F.erase t, update f t n u = ∑ u ∈ F.erase t, f u :=
    Finset.sum_congr rfl fun u hu => update_of_ne (Finset.ne_of_mem_erase hu) n f
  have hsum := Finset.add_sum_erase F f ht
  have hsum' := Finset.add_sum_erase F (update f t n) ht
  rw [update_self] at hsum'
  omega

theorem sum_update_of_notMem {F : Finset T} (ht : t ∉ F) (f : T → ℕ) (n : ℕ) :
    ∑ u ∈ F, update f t n u = ∑ u ∈ F, f u :=
  Finset.sum_congr rfl fun _ hu => update_of_ne (ne_of_mem_of_not_mem hu ht) n f

theorem State.Counted.update (h : s.Counted) {n : ℕ} {k : ℤ} (hk : k = s.counter + n - s.owed t)
    (F : Finset T) : ((∑ u ∈ F, update s.owed t n u : ℕ) : ℤ) ≤ k := by
  by_cases ht : t ∈ F
  · have hsum := sum_update ht s.owed n
    have hle := h F
    omega
  · -- without `t`, the others owe no more than the counter without what `t` owes
    have hle := h (insert t F)
    rw [Finset.sum_insert ht] at hle
    rw [sum_update_of_notMem ht]
    omega

end Counting

section Interleaving

variable [DecidableEq T] [DecidableEq V] [DecidableEq L] {post : N → View L → Prop}

/-- What the functions and the handler have to meet. -/
structure Spec (body : N → Cmd V L A) (handler : Cmd V L A) (post : N → View L → Prop) : Prop where
  body : ∀ f v, v.Idle → v.marked = false →
    pre (body f) (fun _ w => w.Idle ∧ (v.flag = false → post f w)) (fun _ => false) v
  handler : ∀ (Q : (V → Bool) → View L → Prop) env v, v.flag = false → Q env v →
    pre handler Q env { v with flag := true }

/-- What the thread `t` knows on a CPU whose flag is `b`. -/
def State.view (s : State Cpu T V L A N) (t : T) (b : Bool) : View L where
  flag := b
  held := fun l => if s.holder l = some t then some (s.saved l) else none
  owed := s.owed t
  marked := s.marked t

/-- The precondition of what a thread has yet to do holds.  A thread that is on no CPU may come to a
CPU whatever the flag of that is. -/
def State.Good (post : N → View L → Prop) (s : State Cpu T V L A N) (t : T) : Prop :=
  ∀ b, (∀ c, s.cpu t = some c → s.flag c = b) →
    preStack (Done post (s.entered t)) (s.stack t) (s.view t b)

/-- **The invariant of all interleavings.** -/
structure Inv (post : N → View L → Prop) (s : State Cpu T V L A N) : Prop where
  alone : ∀ t u c, s.cpu t = some c → s.cpu u = some c → t = u
  slot : ∀ t, s.slot t = 0
  counter : s.Counted
  good : ∀ t, s.Good post t

variable {s s' : State Cpu T V L A N} {t u : T} {c : Cpu}

theorem State.Good.of_cpu (hc : s.cpu t = some c)
    (h : preStack (Done post (s.entered t)) (s.stack t) (s.view t (s.flag c))) : s.Good post t := by
  intro b hb
  rw [← hb c hc]
  exact h

theorem State.Good.on_cpu (h : s.Good post t) (hc : s.cpu t = some c) :
    preStack (Done post (s.entered t)) (s.stack t) (s.view t (s.flag c)) := by
  refine h _ fun c' hc' => ?_
  rw [some_inj.1 (hc.symm.trans hc')]

/-- Nothing has changed for the thread `u`. -/
structure Agree (s s' : State Cpu T V L A N) (u : T) : Prop where
  cpu : s'.cpu u = s.cpu u
  flag : ∀ c, s.cpu u = some c → s'.flag c = s.flag c
  stack : s'.stack u = s.stack u
  entered : s'.entered u = s.entered u
  view : ∀ b, s'.view u b = s.view u b

theorem Agree.good (h : Agree s s' u) (hg : s.Good post u) : s'.Good post u := by
  intro b hb
  rw [h.stack, h.entered, h.view]
  refine hg b fun c hc => ?_
  rw [← h.flag c hc]
  exact hb c (h.cpu.trans hc)

/-! #### One command -/

/-- Taking a lock shows in what its new holder knows, and nowhere else. -/
theorem held_acquire (holder : L → Option T) (saved : L → Bool) {l : L} (hfree : holder l = none)
    (t u : T) (b : Bool) :
    (fun l' => if update holder l (some t) l' = some u then
        some (update saved l b l') else none) =
      if u = t then
        update (fun l' => if holder l' = some u then some (saved l') else none) l (some b)
      else fun l' => if holder l' = some u then some (saved l') else none := by
  funext l'
  rcases eq_or_ne l' l with rfl | hne
  · rcases eq_or_ne u t with rfl | hu
    · simp
    · simp [hu, hu.symm, hfree]
  · rcases eq_or_ne u t with rfl | hu
    · simp [hne]
    · simp [hne, hu]

theorem held_release (holder : L → Option T) (saved : L → Bool) {l : L} (hheld : holder l = some t)
    (u : T) :
    (fun l' => if update holder l none l' = some u then some (saved l') else none) =
      if u = t then
        update (fun l' => if holder l' = some u then some (saved l') else none) l none
      else fun l' => if holder l' = some u then some (saved l') else none := by
  funext l'
  rcases eq_or_ne l' l with rfl | hne
  · rcases eq_or_ne u t with rfl | hu
    · simp
    · simp [hu, hheld, hu.symm]
  · rcases eq_or_ne u t with rfl | hu
    · simp [hne]
    · simp [hne, hu]

variable {cmd : Cmd V L A} {code : List (Cmd V L A)} {env : V → Bool} {fs : List (Frame Cpu V L A)}
  {a : A} {again : Bool} {body : N → Cmd V L A} {handler : Cmd V L A}

/-- What holds of the thread that moves, and stays as it was for the others. -/
theorem Inv.of_agree (hinv : Inv post s)
    (halone : ∀ t u c, s'.cpu t = some c → s'.cpu u = some c → t = u)
    (hslot : ∀ u, s'.slot u = 0) (hcount : s'.Counted)
    (hagree : ∀ u, u ≠ t → Agree s s' u) (hgood : s'.Good post t) : Inv post s' where
  alone := halone
  slot := hslot
  counter := hcount
  good := fun u => by
    rcases eq_or_ne u t with rfl | hu
    · exact hgood
    · exact (hagree u hu).good (hinv.good u)

/-- The code of a thread is replaced by code with the same precondition. -/
theorem Inv.restack (hinv : Inv post s) (hc : s.cpu t = some c)
    (h : ∀ R v, preStack R (s.stack t) v → preStack R fs v) : Inv post (s.setStack t fs) := by
  refine hinv.of_agree (t := t) hinv.alone hinv.slot hinv.counter (fun u hu => ?_) ?_
  · exact ⟨rfl, fun _ _ => rfl, update_of_ne hu _ _, rfl, fun _ => rfl⟩
  · refine State.Good.of_cpu hc ?_
    simp only [setStack, update_self]
    exact h _ _ ((hinv.good t).on_cpu hc)

theorem Inv.begin (hspec : Spec body handler post) (hinv : Inv post s) (hc : s.cpu t = some c)
    (hstack : s.stack t = []) (f : N) :
    Inv post { s.setStack t [⟨[body f], fun _ => false, none⟩] with
      entered := update s.entered t (some (f, s.flag c))
      marked := update s.marked t false } := by
  refine hinv.of_agree (t := t) hinv.alone hinv.slot hinv.counter (fun u hu => ?_) ?_
  · refine ⟨rfl, fun _ _ => rfl, update_of_ne hu _ _, update_of_ne hu _ _,
      fun b => ?_⟩
    simp only [State.view, update_of_ne hu]
    rfl
  · have hidle : (s.view t (s.flag c)).Idle := by
      have hpre := (hinv.good t).on_cpu hc
      rw [hstack] at hpre
      exact hpre.1
    refine State.Good.of_cpu hc ?_
    simp only [State.view, setStack, update_self]
    refine pre_mono ?_ (hspec.body f _ hidle rfl)
    rintro env v ⟨hv, hpost⟩
    refine ⟨hv, fun f' hf' => ?_⟩
    obtain ⟨rfl, hflag⟩ := Prod.mk.inj (some_inj.1 hf')
    exact hpost hflag

/-- A thread leaves its CPU to another one, which goes on with the flag that it finds. -/
theorem Inv.switchTo (hinv : Inv post s) (hc : s.cpu t = some c) {looked : Option Cpu}
    (hstack : s.stack t = ⟨.switch :: code, env, looked⟩ :: fs) (hu : s.cpu u = none) :
    Inv post { s.setStack t (⟨code, env, none⟩ :: fs) with
      cpu := update (update s.cpu t none) u (some c) } := by
  have hut : u ≠ t := by
    rintro rfl
    rw [hc] at hu
    exact absurd hu (some_ne_none c)
  have hcpu : ∀ w d, update (update s.cpu t none) u (some c) w = some d →
      (w = u ∧ d = c) ∨ (w ≠ u ∧ w ≠ t ∧ s.cpu w = some d) := by
    intro w d hw
    rcases eq_or_ne w u with rfl | hwu
    · rw [update_self, some_inj] at hw
      exact .inl ⟨rfl, hw.symm⟩
    · rw [update_of_ne hwu] at hw
      rcases eq_or_ne w t with rfl | hwt
      · rw [update_self] at hw
        exact absurd hw.symm (some_ne_none d)
      · rw [update_of_ne hwt] at hw
        exact .inr ⟨hwu, hwt, hw⟩
  refine ⟨fun v w d hv hw => ?_, hinv.slot, hinv.counter, fun w => ?_⟩
  · rcases hcpu v d hv with ⟨hvu, hd⟩ | ⟨-, hvt, hv'⟩ <;>
      rcases hcpu w d hw with ⟨hwu, hd'⟩ | ⟨-, hwt, hw'⟩
    · exact hvu.trans hwu.symm
    · exact absurd (hinv.alone w t d hw' (hd ▸ hc)) hwt
    · exact absurd (hinv.alone v t d hv' (hd' ▸ hc)) hvt
    · exact hinv.alone v w d hv' hw'
  · rcases eq_or_ne w t with rfl | hwt
    · -- the thread that has left: its precondition is for whatever flag it will find
      have hpre := (hinv.good w).on_cpu hc
      rw [hstack] at hpre
      intro b _
      simp only [setStack, update_self]
      exact hpre b
    · rcases eq_or_ne w u with rfl | hwu
      · intro b _
        simp only [setStack, update_of_ne hwt]
        exact hinv.good w b fun d hd => absurd (hu.symm.trans hd) (some_ne_none d).symm
      · refine Agree.good (s := s) ⟨?_, fun _ _ => rfl, ?_, rfl, fun _ => rfl⟩ (hinv.good w)
        · exact (update_of_ne hwu _ _).trans (update_of_ne hwt _ _)
        · exact update_of_ne hwt _ _

/-- The threads that have returned from a function, that they called with the flag clear, meet its
postcondition. -/
def Returned (post : N → View L → Prop) (s : State Cpu T V L A N) : Prop :=
  ∀ t c f, s.cpu t = some c → s.stack t = [] → s.entered t = some (f, false) →
    post f (s.view t (s.flag c))

theorem Inv.returned (hinv : Inv post s) : Returned post s := by
  intro t c f hc hstack hf
  have hpre := (hinv.good t).on_cpu hc
  rw [hstack] at hpre
  exact hpre.2 f hf

variable [DecidableEq Cpu]

section

variable (h : s.exec t c code env fs a again cmd = some s')

include h

/-- A command of `t` on `c` changes nothing for a thread that is not `t` and not on `c`. -/
theorem exec_agree (hu : u ≠ t)
    (hcu : s.cpu u ≠ some c) : Agree s s' u := by
  have hflag : ∀ b c', s.cpu u = some c' → update s.flag c b c' = s.flag c' := by
    intro b c' hc'
    have hne : c' ≠ c := fun heq => hcu (heq ▸ hc')
    exact update_of_ne hne _ _
  have hstack : ∀ fs', update s.stack t fs' u = s.stack u := fun fs' =>
    update_of_ne hu _ _
  cases cmd with
  | skip | tail | seq _ _ | any _ | call _ =>
    obtain rfl := some_inj.1 h
    exact ⟨rfl, fun _ _ => rfl, hstack _, rfl, fun _ => rfl⟩
  | disable _ | restore _ | enable =>
    obtain rfl := some_inj.1 h
    exact ⟨rfl, hflag _, hstack _, rfl, fun _ => rfl⟩
  | acquire l x =>
    obtain ⟨hfree, h⟩ := ite_none_right_eq_some.1 h
    obtain rfl := some_inj.1 h
    refine ⟨rfl, fun _ _ => rfl, hstack _, rfl, fun b => ?_⟩
    simp only [State.view, setStack, held_acquire s.holder s.saved hfree, if_neg hu]
  | release l x =>
    obtain ⟨hheld, h⟩ := ite_none_right_eq_some.1 h
    obtain rfl := some_inj.1 h
    refine ⟨rfl, fun _ _ => rfl, hstack _, rfl, fun b => ?_⟩
    simp only [State.view, setStack, held_release s.holder s.saved hheld, if_neg hu]
  | increment | decrement _ =>
    obtain rfl := some_inj.1 h
    refine ⟨rfl, fun _ _ => rfl, hstack _, rfl, fun b => ?_⟩
    simp only [State.view, update_of_ne hu]
    rfl
  | tick n early late =>
    simp only [State.exec] at h
    split_ifs at h <;> obtain rfl := some_inj.1 h <;>
      exact ⟨rfl, fun _ _ => rfl, hstack _, rfl, fun _ => rfl⟩
  | switch => exact absurd h (by simp [State.exec])
  | star d =>
    simp only [State.exec] at h
    split_ifs at h <;> obtain rfl := some_inj.1 h <;>
      exact ⟨rfl, fun _ _ => rfl, hstack _, rfl, fun _ => rfl⟩

/-- No command moves a thread, or forgets what it has called. -/
theorem exec_cpu :
    s'.cpu = s.cpu ∧ s'.entered = s.entered := by
  cases cmd <;> simp only [State.exec] at h <;> (try split_ifs at h) <;>
    cases h <;> exact ⟨rfl, rfl⟩

theorem exec_slot (hu : u ≠ t) :
    s'.slot u = s.slot u := by
  cases cmd <;> simp only [State.exec] at h <;> (try split_ifs at h) <;>
    cases h <;> first | rfl | exact update_of_ne hu _ _

end

/-- **One command**: if its precondition holds, so does that of what follows it. -/
theorem exec_pre {R : View L → Prop} (hslot : s.slot t = 0) (hcount : s.Counted)
    (hpre : preList (cmd :: code) (fun _ => preStack R fs) env (s.view t (s.flag c)))
    (h : s.exec t c code env fs a again cmd = some s') :
    preStack R (s'.stack t) (s'.view t (s'.flag c)) ∧ s'.slot t = 0 ∧ s'.Counted := by
  have hstack : ∀ fs', update s.stack t fs' t = fs' := fun fs' => update_self _ _ _
  cases cmd with
  | skip | tail | seq _ _ | call _ =>
    obtain rfl := some_inj.1 h
    refine ⟨?_, hslot, hcount⟩
    simp only [setStack, hstack]
    exact hpre
  | any f =>
    obtain rfl := some_inj.1 h
    refine ⟨?_, hslot, hcount⟩
    simp only [setStack, hstack]
    exact hpre a
  | disable x | restore x | enable =>
    obtain rfl := some_inj.1 h
    refine ⟨?_, hslot, hcount⟩
    simp only [setStack, hstack, update_self]
    exact hpre
  | acquire l x =>
    obtain ⟨hfree, h⟩ := ite_none_right_eq_some.1 h
    obtain rfl := some_inj.1 h
    refine ⟨?_, hslot, hcount⟩
    simp only [State.view, setStack, hstack, held_acquire s.holder s.saved hfree, if_pos]
    exact hpre (by simp [State.view, hfree])
  | release l x =>
    obtain ⟨hheld, h⟩ := ite_none_right_eq_some.1 h
    obtain rfl := some_inj.1 h
    refine ⟨?_, hslot, hcount⟩
    simp only [State.view, setStack, hstack, held_release s.holder s.saved hheld, if_pos]
    exact hpre _ (by simp [State.view, hheld])
  | increment =>
    obtain rfl := some_inj.1 h
    refine ⟨?_, hslot, ?_⟩
    · simp only [State.view, setStack, hstack, update_self]
      exact hpre
    · refine hcount.update ?_
      show s.counter + 1 = s.counter + (s.owed t + 1 : ℕ) - s.owed t
      omega
  | decrement x =>
    obtain rfl := some_inj.1 h
    have howed : 0 < s.owed t := hpre.1
    refine ⟨?_, hslot, ?_⟩
    · have hne : (s.counter != 0) = true := by simpa using hcount.ne_zero howed
      simp only [State.view, setStack, hstack, update_self, hne]
      exact hpre.2
    · refine hcount.update ?_
      show s.counter - 1 = s.counter + (s.owed t - 1 : ℕ) - s.owed t
      omega
  | tick n early late =>
    -- the slot is always used up: it is one tick
    obtain ⟨rfl, hpre⟩ := hpre
    rw [State.exec, if_neg (by simp [hslot])] at h
    obtain rfl := some_inj.1 h
    refine ⟨?_, update_self _ _ _, hcount⟩
    simp only [setStack, hstack]
    exact hpre
  | switch => exact absurd h (by simp [State.exec])
  | star d =>
    obtain ⟨I, hI, hinv⟩ := hpre
    have hthis := hinv _ _ hI
    cases again with
    | false =>
      obtain rfl := some_inj.1 h
      refine ⟨?_, hslot, hcount⟩
      simp only [setStack, hstack]
      exact hthis.1
    | true =>
      obtain rfl := some_inj.1 h
      refine ⟨?_, hslot, hcount⟩
      simp only [setStack, hstack]
      exact pre_mono (fun env v hv => ⟨I, hv, hinv⟩) hthis.2

/-! #### One step -/

theorem Inv.exec (hinv : Inv post s) (hc : s.cpu t = some c) {looked : Option Cpu}
    (hstack : s.stack t = ⟨cmd :: code, env, looked⟩ :: fs)
    (h : s.exec t c code env fs a again cmd = some s') : Inv post s' := by
  have hpre := (hinv.good t).on_cpu hc
  rw [hstack] at hpre
  obtain ⟨hgood, hslot, hcount⟩ := exec_pre (hinv.slot t) hinv.counter hpre h
  obtain ⟨hcpu, hentered⟩ := exec_cpu h
  refine hinv.of_agree (t := t) (hcpu ▸ hinv.alone) (fun u => ?_) hcount (fun u hu => ?_) ?_
  · rcases eq_or_ne u t with rfl | hu
    · exact hslot
    · rw [exec_slot h hu]
      exact hinv.slot u
  · exact exec_agree h hu fun hcu => hu (hinv.alone u t c hcu hc)
  · refine State.Good.of_cpu (hcpu ▸ hc) ?_
    rw [hentered]
    exact hgood

theorem Inv.interrupt (hspec : Spec body handler post) (hinv : Inv post s) (hc : s.cpu t = some c)
    (hflag : s.flag c = false) :
    Inv post { s.setStack t (⟨[handler], fun _ => false, none⟩ :: s.stack t) with
      flag := update s.flag c true } := by
  refine hinv.of_agree (t := t) hinv.alone hinv.slot hinv.counter (fun u hu => ?_) ?_
  · refine ⟨rfl, fun d hd => ?_, update_of_ne hu _ _, rfl, fun _ => rfl⟩
    have hne : d ≠ c := fun heq => hu (hinv.alone u t c (heq ▸ hd) hc)
    exact update_of_ne hne _ _
  · refine State.Good.of_cpu hc ?_
    simp only [setStack, update_self]
    exact hspec.handler (fun _ => preStack (Done post (s.entered t)) (s.stack t)) _
      (s.view t (s.flag c)) hflag ((hinv.good t).on_cpu hc)

/-- The step is not an interrupt at the end of the handler, and no access to the flag of a CPU that the
thread has left since it looked up on which it runs. -/
def Undisturbed (s : State Cpu T V L A N) : Event T A N → Prop
  | .exec t _ _ => ∀ c, s.cpu t = some c → (lookedUp (s.stack t)).getD c = c
  | .interrupt t => atTail (s.stack t) = false
  | _ => True

instance Undisturbed.decidable (s : State Cpu T V L A N) :
    ∀ e : Event T A N, Decidable (Undisturbed s e)
  | .exec t _ _ =>
      match h : s.cpu t with
      | none => isTrue fun c hc => absurd (h.symm.trans hc) (Option.some_ne_none c).symm
      | some c => decidable_of_iff ((lookedUp (s.stack t)).getD c = c)
          ⟨fun heq _ hc => Option.some_inj.1 (h.symm.trans hc) ▸ heq, fun hall => hall c h⟩
  | .interrupt t => inferInstanceAs (Decidable (atTail (s.stack t) = false))
  | .switchTo _ _ => isTrue trivial
  | .begin _ _ => isTrue trivial

/-- **Preconditions hold along every interleaving**: every undisturbed step keeps the invariant. -/
theorem Inv.step (hspec : Spec body handler post) (hinv : Inv post s) {e : Event T A N}
    (hund : Undisturbed s e) (h : step body handler s e = some s') : Inv post s' := by
  cases e with
  | exec t a again =>
    simp only [Preempt.step] at h
    split at h
    next c cmd code env looked fs hc hstack =>
      split_ifs at h
      · exact some_inj.1 h ▸ hinv.restack hc fun R v hpre => by rwa [hstack] at hpre
      · have hsame := hund c hc
        rw [hstack] at hsame
        rw [show looked.getD c = c from hsame] at h
        exact hinv.exec hc hstack h
    next c env looked fs hc hstack =>
      exact some_inj.1 h ▸ hinv.restack hc fun R v hpre => by rwa [hstack] at hpre
    next => exact absurd h.symm (some_ne_none s')
  | switchTo t u =>
    simp only [Preempt.step] at h
    split at h
    next c code env looked fs hc hstack hu => exact some_inj.1 h ▸ hinv.switchTo hc hstack hu
    next => exact absurd h.symm (some_ne_none s')
  | interrupt t =>
    simp only [Preempt.step] at h
    split at h
    next c hc =>
      cases hflag : s.flag c with
      | true => simp [hflag] at h
      | false =>
        have htail : atTail (s.stack t) = false := hund
        simp only [hflag, htail, Bool.false_eq_true, if_false, some_inj] at h
        exact h ▸ hinv.interrupt hspec hc hflag
    next => exact absurd h.symm (some_ne_none s')
  | begin t f =>
    simp only [Preempt.step] at h
    split at h
    next c hc hstack => exact some_inj.1 h ▸ hinv.begin hspec hc hstack f
    next => exact absurd h.symm (some_ne_none s')

/-! #### What holds when a function returns -/

/-- **A function that meets its specification alone meets it in every interleaving.** -/
theorem allStates_returned (hspec : Spec body handler post) (hinv : Inv post s)
    {es : List (Event T A N)}
    (hund : Transition.AllSteps (Preempt.step body handler) Undisturbed s es) :
    Transition.AllStates (Preempt.step body handler) (Returned post) s es :=
  (Transition.allStates_of_allSteps (I := Inv post) (J := fun _ => True) (fun _ _ _ _ _ => trivial)
    (fun _ _ _ _ hI hs hP => hI.step hspec hP hs) es trivial hinv hund).mono fun _ h => h.returned

end Interleaving

end Preempt

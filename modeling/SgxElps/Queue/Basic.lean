/-
**The bounded queue between the enclave and the host.**

`mpmc_bounded_queue` of `include/queue.h` is a ring of cells, each with a sequence number, and two
positions.  A `push` claims the position `pos` by a compare-exchange on `enqueue_pos_` when the
sequence number of its cell is `pos`, copies its data into the cell and then stores `pos + 1` as the
new sequence number; a `take` waits for `pos + 1`, claims `pos` on `dequeue_pos_`, copies the data
out and stores `pos + mask + 1`, which opens the cell for the push one lap later.

Every access to shared memory is one step: the load of a position, the load of a sequence number,
the compare-exchange (which may fail for no reason: it is `compare_exchange_weak`), the copy of the
data, the store of a sequence number.  A thread's phase is the next access it will make.  The words
are 64-bit words and the difference of a sequence number and a position is a signed one, as in the
source.

The state carries a log of what the calls have achieved so far, which no step reads.

Main definitions: `BufferSize`, `State`, `step`, `Steps`.  Main result: `steps_of_step`.
-/

import SgxElps.Lib.Transition
import SgxElps.Lib.Word
import Mathlib.Logic.Function.Basic

namespace Mpmc

open Option (some_inj)

variable {T α : Type}

/-! ### The size of the ring -/

/-- A buffer size that passes the assertion of the constructor. -/
structure BufferSize where
  size : UInt64
  two_le : 2 ≤ size
  pow : size &&& (size - 1) = 0

/-- `buffer_mask_`. -/
def BufferSize.mask (n : BufferSize) : UInt64 := n.size - 1

/-- The number of cells. -/
def BufferSize.cap (n : BufferSize) : ℕ := n.size.toNat

/-- The cell of a position, `pos & buffer_mask_`. -/
def BufferSize.index (n : BufferSize) (pos : UInt64) : ℕ := (pos &&& n.mask).toNat

theorem BufferSize.two_le_cap (n : BufferSize) : 2 ≤ n.cap := UInt64.le_iff_toNat_le.1 n.two_le

theorem BufferSize.cap_pos (n : BufferSize) : 0 < n.cap := Nat.lt_of_lt_of_le (by decide) n.two_le_cap

theorem BufferSize.exists_pow (n : BufferSize) : ∃ b, n.cap = 2 ^ b :=
  Word.exists_eq_two_pow n.cap_pos n.pow

/-- A power of two that fits in a word is at most `2 ^ 63`. -/
theorem BufferSize.cap_le (n : BufferSize) : n.cap ≤ 2 ^ 63 := by
  obtain ⟨b, hb⟩ := n.exists_pow
  have hlt : 2 ^ b < 2 ^ 64 := hb ▸ n.size.toNat_lt
  have hb64 : b < 64 := (Nat.pow_lt_pow_iff_right (by decide)).1 hlt
  rw [hb]
  exact Nat.pow_le_pow_right (by decide) (by omega)

theorem BufferSize.index_eq (n : BufferSize) (pos : UInt64) : n.index pos = pos.toNat % n.cap := by
  obtain ⟨b, hb⟩ := n.exists_pow
  exact Word.toNat_and_mask hb pos

/-! ### Threads -/

/-- A cell of the ring. -/
structure Cell (α : Type) where
  sequence : UInt64
  data : α

/-- The next access to shared memory of a thread. -/
inductive Phase (α : Type) where
  | idle
  /-- `push`, about to load the sequence number of its cell. -/
  | pushSeq (data : α) (pos : UInt64)
  /-- `push`, about to claim the position. -/
  | pushCas (data : α) (pos : UInt64)
  /-- `push`, about to load the position again. -/
  | pushReload (data : α)
  /-- `push`, about to copy its data to the cell it has claimed. -/
  | pushCopy (data : α) (pos : UInt64)
  /-- `push`, about to store the new sequence number. -/
  | pushStore (pos : UInt64)
  /-- `take`, about to load the sequence number of its cell. -/
  | takeSeq (pos : UInt64)
  /-- `take`, about to claim the position. -/
  | takeCas (pos : UInt64)
  /-- `take`, about to load the position again. -/
  | takeReload
  /-- `take`, about to copy the data from the cell it has claimed. -/
  | takeCopy (pos : UInt64)
  /-- `take`, about to store the new sequence number and to return. -/
  | takeStore (pos : UInt64) (data : α)

/-- What the calls have achieved. -/
inductive Obs (T α : Type) where
  /-- A `push` of `data` has won a ticket. -/
  | pushWon (t : T) (ticket : ℕ) (data : α)
  /-- The `push` of a ticket has stored its sequence number. -/
  | published (ticket : ℕ)
  /-- A `take` has won a ticket. -/
  | takeWon (t : T) (ticket : ℕ)
  /-- The `take` of a ticket has stored its sequence number and returns `true`, with `data`. -/
  | took (t : T) (ticket : ℕ) (data : α)
  /-- A `take` has inspected a ticket and returns `false`. -/
  | missed (t : T) (ticket : ℕ)

structure State (T α : Type) where
  buffer : ℕ → Cell α
  enqueuePos : UInt64
  dequeuePos : UInt64
  phase : T → Phase α
  log : List (Obs T α)
  /-- The number of calls begun so far. -/
  calls : ℕ

/-- The state after the constructor.  The data of the cells is whatever the memory holds. -/
def init (data : ℕ → α) : State T α where
  buffer i := ⟨UInt64.ofNat i, data i⟩
  enqueuePos := 0
  dequeuePos := 0
  phase _ := .idle
  log := []
  calls := 0

/-- The events: the two calls, which load the position, and the further accesses of a thread.  A
compare-exchange may fail spuriously. -/
inductive Event (T α : Type) where
  | push (t : T) (data : α)
  | take (t : T)
  | loadSeq (t : T)
  | cas (t : T) (spurious : Bool)
  | reload (t : T)
  | copy (t : T)
  | storeSeq (t : T)

def Event.isCall : Event T α → Bool
  | .push _ _ => true
  | .take _ => true
  | _ => false

section Step

variable [DecidableEq T]

def State.setPhase (s : State T α) (t : T) (p : Phase α) : State T α :=
  { s with phase := Function.update s.phase t p }

def State.observe (s : State T α) (o : Obs T α) : State T α := { s with log := s.log ++ [o] }

def State.setData (s : State T α) (i : ℕ) (data : α) : State T α :=
  { s with buffer := Function.update s.buffer i { s.buffer i with data := data } }

def State.setSequence (s : State T α) (i : ℕ) (seq : UInt64) : State T α :=
  { s with buffer := Function.update s.buffer i { s.buffer i with sequence := seq } }

/-- `(intptr_t)seq - (intptr_t)pos`. -/
def dif (seq pos : UInt64) : Int64 := seq.toInt64 - pos.toInt64

/-! ### The steps -/

/-- The load of `enqueue_pos_` at the beginning of `push`. -/
def push (s : State T α) (t : T) (data : α) : Option (State T α) :=
  match s.phase t with
  | .idle => some { s.setPhase t (.pushSeq data s.enqueuePos) with calls := s.calls + 1 }
  | _ => none

/-- The load of `dequeue_pos_` at the beginning of `take`. -/
def take (s : State T α) (t : T) : Option (State T α) :=
  match s.phase t with
  | .idle => some { s.setPhase t (.takeSeq s.dequeuePos) with calls := s.calls + 1 }
  | _ => none

/-- The load of the cell's sequence number and the branch on the difference.  A `push` that finds its
cell occupied tries again with the same position; a `take` that finds it empty returns `false`. -/
def loadSeq (n : BufferSize) (s : State T α) (t : T) : Option (State T α) :=
  match s.phase t with
  | .pushSeq data pos =>
      let d := dif (s.buffer (n.index pos)).sequence pos
      if d = 0 then some (s.setPhase t (.pushCas data pos))
      else if d < 0 then some s
      else some (s.setPhase t (.pushReload data))
  | .takeSeq pos =>
      let d := dif (s.buffer (n.index pos)).sequence (pos + 1)
      if d = 0 then some (s.setPhase t (.takeCas pos))
      else if d < 0 then some ((s.setPhase t .idle).observe (.missed t pos.toNat))
      else some (s.setPhase t .takeReload)
  | _ => none

/-- `compare_exchange_weak` on a position; a failure loads the position. -/
def cas (s : State T α) (t : T) (spurious : Bool) : Option (State T α) :=
  match s.phase t with
  | .pushCas data pos =>
      if s.enqueuePos = pos ∧ spurious = false then
        some (({ s with enqueuePos := pos + 1 }.setPhase t (.pushCopy data pos)).observe
          (.pushWon t pos.toNat data))
      else some (s.setPhase t (.pushSeq data s.enqueuePos))
  | .takeCas pos =>
      if s.dequeuePos = pos ∧ spurious = false then
        some (({ s with dequeuePos := pos + 1 }.setPhase t (.takeCopy pos)).observe
          (.takeWon t pos.toNat))
      else some (s.setPhase t (.takeSeq s.dequeuePos))
  | _ => none

/-- The load of the position in the last branch of the loop. -/
def reload (s : State T α) (t : T) : Option (State T α) :=
  match s.phase t with
  | .pushReload data => some (s.setPhase t (.pushSeq data s.enqueuePos))
  | .takeReload => some (s.setPhase t (.takeSeq s.dequeuePos))
  | _ => none

def copy (n : BufferSize) (s : State T α) (t : T) : Option (State T α) :=
  match s.phase t with
  | .pushCopy data pos => some ((s.setData (n.index pos) data).setPhase t (.pushStore pos))
  | .takeCopy pos => some (s.setPhase t (.takeStore pos (s.buffer (n.index pos)).data))
  | _ => none

def storeSeq (n : BufferSize) (s : State T α) (t : T) : Option (State T α) :=
  match s.phase t with
  | .pushStore pos =>
      some (((s.setSequence (n.index pos) (pos + 1)).setPhase t .idle).observe
        (.published pos.toNat))
  | .takeStore pos data =>
      some (((s.setSequence (n.index pos) (pos + n.mask + 1)).setPhase t .idle).observe
        (.took t pos.toNat data))
  | _ => none

def step (n : BufferSize) (s : State T α) : Event T α → Option (State T α)
  | .push t data => push s t data
  | .take t => take s t
  | .loadSeq t => loadSeq n s t
  | .cas t spurious => cas s t spurious
  | .reload t => reload s t
  | .copy t => copy n s t
  | .storeSeq t => storeSeq n s t

/-! ### What a step can do -/

/-- The cases of `Mpmc.step`, each with its guard and its effect. -/
inductive Steps (n : BufferSize) (s : State T α) : Event T α → State T α → Prop
  | push {t : T} {data : α} (hp : s.phase t = .idle) :
      Steps n s (.push t data)
        { s.setPhase t (.pushSeq data s.enqueuePos) with calls := s.calls + 1 }
  | take {t : T} (hp : s.phase t = .idle) :
      Steps n s (.take t) { s.setPhase t (.takeSeq s.dequeuePos) with calls := s.calls + 1 }
  | pushReady {t : T} {data : α} {pos : UInt64} (hp : s.phase t = .pushSeq data pos)
      (hd : (s.buffer (n.index pos)).sequence = pos) :
      Steps n s (.loadSeq t) (s.setPhase t (.pushCas data pos))
  | pushSpin {t : T} {data : α} {pos : UInt64} (hp : s.phase t = .pushSeq data pos) :
      Steps n s (.loadSeq t) s
  | pushLate {t : T} {data : α} {pos : UInt64} (hp : s.phase t = .pushSeq data pos) :
      Steps n s (.loadSeq t) (s.setPhase t (.pushReload data))
  | takeReady {t : T} {pos : UInt64} (hp : s.phase t = .takeSeq pos)
      (hd : (s.buffer (n.index pos)).sequence = pos + 1) :
      Steps n s (.loadSeq t) (s.setPhase t (.takeCas pos))
  | takeMiss {t : T} {pos : UInt64} (hp : s.phase t = .takeSeq pos)
      (hne : (s.buffer (n.index pos)).sequence ≠ pos + 1)
      (hd : dif (s.buffer (n.index pos)).sequence (pos + 1) < 0) :
      Steps n s (.loadSeq t) ((s.setPhase t .idle).observe (.missed t pos.toNat))
  | takeLate {t : T} {pos : UInt64} (hp : s.phase t = .takeSeq pos) :
      Steps n s (.loadSeq t) (s.setPhase t .takeReload)
  | pushWin {t : T} {data : α} {pos : UInt64} (hp : s.phase t = .pushCas data pos)
      (he : s.enqueuePos = pos) :
      Steps n s (.cas t false)
        (({ s with enqueuePos := pos + 1 }.setPhase t (.pushCopy data pos)).observe
          (.pushWon t pos.toNat data))
  | pushLose {t : T} {data : α} {pos : UInt64} {b : Bool} (hp : s.phase t = .pushCas data pos) :
      Steps n s (.cas t b) (s.setPhase t (.pushSeq data s.enqueuePos))
  | takeWin {t : T} {pos : UInt64} (hp : s.phase t = .takeCas pos) (he : s.dequeuePos = pos) :
      Steps n s (.cas t false)
        (({ s with dequeuePos := pos + 1 }.setPhase t (.takeCopy pos)).observe
          (.takeWon t pos.toNat))
  | takeLose {t : T} {pos : UInt64} {b : Bool} (hp : s.phase t = .takeCas pos) :
      Steps n s (.cas t b) (s.setPhase t (.takeSeq s.dequeuePos))
  | pushReload {t : T} {data : α} (hp : s.phase t = .pushReload data) :
      Steps n s (.reload t) (s.setPhase t (.pushSeq data s.enqueuePos))
  | takeReload {t : T} (hp : s.phase t = .takeReload) :
      Steps n s (.reload t) (s.setPhase t (.takeSeq s.dequeuePos))
  | pushCopy {t : T} {data : α} {pos : UInt64} (hp : s.phase t = .pushCopy data pos) :
      Steps n s (.copy t) ((s.setData (n.index pos) data).setPhase t (.pushStore pos))
  | takeCopy {t : T} {pos : UInt64} (hp : s.phase t = .takeCopy pos) :
      Steps n s (.copy t) (s.setPhase t (.takeStore pos (s.buffer (n.index pos)).data))
  | pushStore {t : T} {pos : UInt64} (hp : s.phase t = .pushStore pos) :
      Steps n s (.storeSeq t)
        (((s.setSequence (n.index pos) (pos + 1)).setPhase t .idle).observe (.published pos.toNat))
  | takeStore {t : T} {pos : UInt64} {data : α} (hp : s.phase t = .takeStore pos data) :
      Steps n s (.storeSeq t)
        (((s.setSequence (n.index pos) (pos + n.mask + 1)).setPhase t .idle).observe
          (.took t pos.toNat data))

/-- **Inversion**: every step is one of these cases. -/
theorem steps_of_step {n : BufferSize} {s s' : State T α} {e : Event T α}
    (h : step n s e = some s') : Steps n s e s' := by
  cases e with
  | push t data =>
    simp only [step, Mpmc.push] at h
    split at h
    · next hp =>
      obtain rfl := some_inj.1 h
      exact .push hp
    · cases h
  | take t =>
    simp only [step, Mpmc.take] at h
    split at h
    · next hp =>
      obtain rfl := some_inj.1 h
      exact .take hp
    · cases h
  | loadSeq t =>
    simp only [step, Mpmc.loadSeq] at h
    split at h
    · next data pos hp =>
      split at h
      · next hd =>
        obtain rfl := some_inj.1 h
        exact .pushReady hp ((Word.signedSub_eq_zero_iff ..).1 hd)
      · split at h
        · obtain rfl := some_inj.1 h
          exact .pushSpin hp
        · obtain rfl := some_inj.1 h
          exact .pushLate hp
    · next pos hp =>
      split at h
      · next hd =>
        obtain rfl := some_inj.1 h
        exact .takeReady hp ((Word.signedSub_eq_zero_iff ..).1 hd)
      · next hne =>
        split at h
        · next hd =>
          obtain rfl := some_inj.1 h
          exact .takeMiss hp (fun heq => hne ((Word.signedSub_eq_zero_iff ..).2 heq)) hd
        · obtain rfl := some_inj.1 h
          exact .takeLate hp
    · cases h
  | cas t spurious =>
    simp only [step, Mpmc.cas] at h
    split at h
    · next data pos hp =>
      split at h
      · next hwin =>
        obtain rfl := some_inj.1 h
        obtain ⟨he, rfl⟩ := hwin
        exact .pushWin hp he
      · obtain rfl := some_inj.1 h
        exact .pushLose hp
    · next pos hp =>
      split at h
      · next hwin =>
        obtain rfl := some_inj.1 h
        obtain ⟨he, rfl⟩ := hwin
        exact .takeWin hp he
      · obtain rfl := some_inj.1 h
        exact .takeLose hp
    · cases h
  | reload t =>
    simp only [step, Mpmc.reload] at h
    split at h
    · next data hp =>
      obtain rfl := some_inj.1 h
      exact .pushReload hp
    · next hp =>
      obtain rfl := some_inj.1 h
      exact .takeReload hp
    · cases h
  | copy t =>
    simp only [step, Mpmc.copy] at h
    split at h
    · next data pos hp =>
      obtain rfl := some_inj.1 h
      exact .pushCopy hp
    · next pos hp =>
      obtain rfl := some_inj.1 h
      exact .takeCopy hp
    · cases h
  | storeSeq t =>
    simp only [step, Mpmc.storeSeq] at h
    split at h
    · next pos hp =>
      obtain rfl := some_inj.1 h
      exact .pushStore hp
    · next pos data hp =>
      obtain rfl := some_inj.1 h
      exact .takeStore hp
    · cases h

end Step

end Mpmc

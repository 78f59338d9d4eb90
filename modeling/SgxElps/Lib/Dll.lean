/-
**Doubly linked lists in memory.**

A list is given by the address of its first node and two functions, the links forward and back, as
they are found in memory; null is 0.  `Dll next prev h l` says that the nodes from `h` on are those
of `l`, in this order, and that the links back agree.  The rules for linking a node at the front and
for unlinking one speak about the links after the operation only at the nodes of the list, so that
they apply to lists that share their links, and memory, with others.

Main definitions: `Dll`, `Ring`.  Main results: `Dll.addHead`, `Dll.del`, `Ring.del`.
-/

import Mathlib.Data.List.Nodup

open List

namespace Dll

/-- The nodes from `h` on, the first of which has the predecessor `p`. -/
def Chain (next prev : ℕ → ℕ) : ℕ → ℕ → List ℕ → Prop
  | _, h, [] => h = 0
  | p, h, b :: l => h = b ∧ b ≠ 0 ∧ prev b = p ∧ Chain next prev b (next b) l

variable {next prev next' prev' : ℕ → ℕ} {p h b c : ℕ} {l : List ℕ}

namespace Chain

section

variable (hc : Chain next prev p h l)

include hc

theorem congr
    (heq : ∀ b ∈ l, next' b = next b ∧ prev' b = prev b) : Chain next' prev' p h l := by
  induction l generalizing p h with
  | nil => exact hc
  | cons b l ih =>
    obtain ⟨hb, h0, hp, hl⟩ := hc
    obtain ⟨hn, hv⟩ := heq b mem_cons_self
    refine ⟨hb, h0, hv.trans hp, ?_⟩
    rw [hn]
    exact ih hl fun c hc => heq c (mem_cons_of_mem _ hc)

theorem ne_zero (hb : b ∈ l) : b ≠ 0 := by
  induction l generalizing p h with
  | nil => cases hb
  | cons c l ih =>
    rcases mem_cons.1 hb with rfl | hb
    · exact hc.2.1
    · exact ih hc.2.2.2 hb

theorem head_eq (h0 : h ≠ 0) : ∃ l', l = h :: l' := by
  cases l with
  | nil => exact absurd hc h0
  | cons b l => exact ⟨l, by rw [hc.1]⟩

theorem next_mem (hb : b ∈ l) : next b ∈ l ∨ next b = 0 := by
  induction l generalizing p h with
  | nil => cases hb
  | cons c l ih =>
    obtain ⟨-, -, -, hl⟩ := hc
    rcases mem_cons.1 hb with rfl | hb
    · by_cases h0 : next b = 0
      · exact Or.inr h0
      · obtain ⟨l', rfl⟩ := hl.head_eq h0
        exact Or.inl (mem_cons_of_mem _ mem_cons_self)
    · exact (ih hl hb).imp_left (mem_cons_of_mem _)

theorem prev_mem (hb : b ∈ l) :
    (h = b ∧ prev b = p) ∨ (b ∈ l.tail ∧ prev b ∈ l) := by
  induction l generalizing p h with
  | nil => cases hb
  | cons c l ih =>
    obtain ⟨rfl, -, hp, hl⟩ := hc
    rcases mem_cons.1 hb with rfl | hb
    · exact Or.inl ⟨rfl, hp⟩
    · refine Or.inr ⟨hb, ?_⟩
      rcases ih hl hb with ⟨-, hprev⟩ | ⟨-, hprev⟩
      · rw [hprev]
        exact mem_cons_self
      · exact mem_cons_of_mem _ hprev

theorem prev_ne (hnodup : l.Nodup) (hp : p ∉ l) (hb : b ∈ l) :
    prev b ≠ b := by
  induction l generalizing p h with
  | nil => cases hb
  | cons c l ih =>
    obtain ⟨-, -, hpc, hl⟩ := hc
    obtain ⟨hcl, hnodup⟩ := nodup_cons.1 hnodup
    rcases mem_cons.1 hb with rfl | hb
    · rw [hpc]
      exact fun heq => hp (heq ▸ mem_cons_self)
    · exact ih hl hnodup hcl hb

/-- A node is unlinked: its predecessor and its successor are linked to each other. -/
theorem erase (hnodup : l.Nodup) (hp : p ∉ l) (hb : b ∈ l)
    (hnext : ∀ c ∈ l, c ≠ b → next' c = if c = prev b then next b else next c)
    (hprev : ∀ c ∈ l, c ≠ b → prev' c = if c = next b then prev b else prev c) :
    Chain next' prev' p (if h = b then next b else h) (l.erase b) := by
  induction l generalizing p h with
  | nil => cases hb
  | cons c l ih =>
    obtain ⟨rfl, h0, hpc, hl⟩ := hc
    obtain ⟨hcl, hnodup⟩ := nodup_cons.1 hnodup
    have hpl : p ∉ l := fun hmem => hp (mem_cons_of_mem _ hmem)
    by_cases hcb : h = b
    · -- the node is the first one
      subst hcb
      rw [erase_cons_head, if_pos rfl]
      cases l with
      | nil => exact hl
      | cons d l =>
        obtain ⟨hd, hd0, -, hl⟩ := hl
        obtain ⟨hdl, -⟩ := nodup_cons.1 hnodup
        have hne : ∀ e ∈ d :: l, e ≠ h := fun e he heq => hcl (heq ▸ he)
        have hnext' : ∀ e ∈ d :: l, next' e = next e := by
          intro e he
          have hep : e ≠ prev h := fun heq => hpl (hpc ▸ heq ▸ he)
          rw [hnext e (mem_cons_of_mem _ he) (hne e he), if_neg hep]
        refine ⟨hd, hd0, ?_, ?_⟩
        · rw [hprev d (by simp) (hne d mem_cons_self), if_pos hd.symm, hpc]
        · rw [hnext' d mem_cons_self]
          refine hl.congr fun e he => ⟨hnext' e (mem_cons_of_mem _ he), ?_⟩
          have hed : e ≠ next h := by
            rw [hd]
            exact fun heq => hdl (heq ▸ he)
          rw [hprev e (by simp [he]) (hne e (mem_cons_of_mem _ he)), if_neg hed]
    · have hbl : b ∈ l := (mem_cons.1 hb).resolve_left (Ne.symm hcb)
      rw [erase_cons_tail (by simpa using hcb), if_neg hcb]
      refine ⟨rfl, h0, ?_, ?_⟩
      · have hne : h ≠ next b := by
          rcases hl.next_mem hbl with hmem | hnull
          · exact fun heq => hcl (heq ▸ hmem)
          · rw [hnull]
            exact h0
        rw [hprev h mem_cons_self hcb, if_neg hne, hpc]
      · have hlink : next' h = if next h = b then next b else next h := by
          rw [hnext h mem_cons_self hcb]
          rcases hl.prev_mem hbl with ⟨hfirst, hpb⟩ | ⟨htail, hpb⟩
          · rw [if_pos hpb.symm, if_pos hfirst]
          · have hpne : h ≠ prev b := fun heq => hcl (heq ▸ hpb)
            have hnne : next h ≠ b := by
              intro heq
              cases l with
              | nil => cases hbl
              | cons d l => exact (nodup_cons.1 hnodup).1 (hl.1.symm.trans heq ▸ htail)
            rw [if_neg hpne, if_neg hnne]
        rw [hlink]
        exact ih hl hnodup hcl hbl (fun c hc => hnext c (mem_cons_of_mem _ hc))
          fun c hc => hprev c (mem_cons_of_mem _ hc)

end

end Chain

end Dll

/-- **The nodes of the doubly linked list with the first node `h`.** -/
structure Dll (next prev : ℕ → ℕ) (h : ℕ) (l : List ℕ) : Prop where
  chain : Dll.Chain next prev 0 h l
  nodup : l.Nodup

namespace Dll

variable {next prev next' prev' : ℕ → ℕ} {h b c : ℕ} {l : List ℕ}

theorem nil (next prev : ℕ → ℕ) : Dll next prev 0 [] := ⟨rfl, nodup_nil⟩

section

variable (hl : Dll next prev h l)

include hl

theorem ne_zero (hb : b ∈ l) : b ≠ 0 := hl.chain.ne_zero hb

theorem head_eq (h0 : h ≠ 0) : ∃ l', l = h :: l' := hl.chain.head_eq h0

theorem eq_nil (h0 : h = 0) : l = [] := by
  cases l with
  | nil => rfl
  | cons b l => exact absurd (hl.chain.1.symm.trans h0) hl.chain.2.1

theorem congr (heq : ∀ b ∈ l, next' b = next b ∧ prev' b = prev b) :
    Dll next' prev' h l :=
  ⟨hl.chain.congr heq, hl.nodup⟩

theorem next_mem (hb : b ∈ l) : next b ∈ l ∨ next b = 0 :=
  hl.chain.next_mem hb

theorem prev_mem (hb : b ∈ l) :
    (h = b ∧ prev b = 0) ∨ (h ≠ b ∧ prev b ∈ l) := by
  rcases hl.chain.prev_mem hb with hfirst | ⟨htail, hprev⟩
  · exact Or.inl hfirst
  · refine Or.inr ⟨fun heq => ?_, hprev⟩
    cases l with
    | nil => cases hb
    | cons d l =>
      have hd : d = b := hl.chain.1.symm.trans heq
      exact (nodup_cons.1 hl.nodup).1 (hd ▸ htail)

theorem prev_ne (hb : b ∈ l) : prev b ≠ b :=
  hl.chain.prev_ne hl.nodup (fun hmem => hl.ne_zero hmem rfl) hb

theorem prev_ne_zero_iff (hb : b ∈ l) : prev b ≠ 0 ↔ h ≠ b := by
  rcases hl.prev_mem hb with ⟨heq, hprev⟩ | ⟨hne, hprev⟩
  · simp [heq, hprev]
  · simp [hne, hl.ne_zero hprev]

/-- **A node is linked at the front.** -/
theorem addHead (hb : b ∉ l) (h0 : b ≠ 0) (hnext : next' b = h)
    (hprev : prev' b = 0) (hnext' : ∀ c ∈ l, next' c = next c)
    (hprev' : ∀ c ∈ l, prev' c = if c = h then b else prev c) : Dll next' prev' b (b :: l) := by
  refine ⟨⟨rfl, h0, hprev, ?_⟩, nodup_cons.2 ⟨hb, hl.nodup⟩⟩
  rw [hnext]
  cases l with
  | nil => exact hl.chain
  | cons d l =>
    obtain ⟨hd, hd0, -, hchain⟩ := hl.chain
    refine ⟨hd, hd0, ?_, ?_⟩
    · rw [hprev' d mem_cons_self, if_pos hd.symm]
    · rw [hnext' d mem_cons_self]
      refine hchain.congr fun c hc => ⟨hnext' c (mem_cons_of_mem _ hc), ?_⟩
      have hcd : c ≠ h := by
        rw [hd]
        exact fun heq => (nodup_cons.1 hl.nodup).1 (heq ▸ hc)
      rw [hprev' c (mem_cons_of_mem _ hc), if_neg hcd]

/-- **A node is unlinked.** -/
theorem del (hb : b ∈ l)
    (hnext : ∀ c ∈ l, c ≠ b → next' c = if c = prev b then next b else next c)
    (hprev : ∀ c ∈ l, c ≠ b → prev' c = if c = next b then prev b else prev c) :
    Dll next' prev' (if prev b ≠ 0 then h else next b) (l.erase b) := by
  have h0 : 0 ∉ l := fun hmem => hl.ne_zero hmem rfl
  have hchain := hl.chain.erase hl.nodup h0 hb hnext hprev
  refine ⟨?_, hl.nodup.erase b⟩
  simp only [hl.prev_ne_zero_iff hb, ne_eq, ite_not]
  exact hchain

end

end Dll

/-! ### Rings

A circular list goes from its head through its nodes back to the head. -/

namespace Dll

variable {α : Type*} {next prev next' prev' : α → α} {a b h x : α} {l l₁ l₂ : List α}

/-- From `a` through the nodes of `l` to `b`, each one linked to the next and back. -/
def Path (next prev : α → α) : α → List α → α → Prop
  | a, [], b => next a = b ∧ prev b = a
  | a, c :: l, b => (next a = c ∧ prev c = a) ∧ Path next prev c l b

namespace Path

theorem congr (hl : Path next prev a l b) (hnext : ∀ c ∈ a :: l, next' c = next c)
    (hprev : ∀ c ∈ l ++ [b], prev' c = prev c) : Path next' prev' a l b := by
  induction l generalizing a with
  | nil => exact ⟨(hnext a (by simp)).trans hl.1, (hprev b (by simp)).trans hl.2⟩
  | cons c l ih =>
    refine ⟨⟨(hnext a (by simp)).trans hl.1.1, (hprev c (by simp)).trans hl.1.2⟩, ?_⟩
    exact ih hl.2 (fun d hd => hnext d (mem_cons_of_mem _ hd))
      fun d hd => hprev d (mem_cons_of_mem _ hd)

theorem append (hl : Path next prev a (l₁ ++ x :: l₂) b) :
    Path next prev a l₁ x ∧ Path next prev x l₂ b := by
  induction l₁ generalizing a with
  | nil => exact hl
  | cons c l₁ ih => exact ⟨⟨hl.1, (ih hl.2).1⟩, (ih hl.2).2⟩

theorem next_eq (hl : Path next prev a l b) : next a = l.headD b := by
  cases l with
  | nil => exact hl.1
  | cons c l => exact hl.1.1

theorem next_mem (hl : Path next prev a l b) : next a ∈ l ++ [b] := by
  rw [hl.next_eq]
  cases l <;> simp

theorem prev_mem (hl : Path next prev a l b) : prev b ∈ a :: l := by
  induction l generalizing a with
  | nil => simp [hl.2]
  | cons c l ih => exact mem_cons_of_mem _ (ih hl.2)

theorem del [DecidableEq α] (hl : Path next prev a (l₁ ++ x :: l₂) b) (hnodup : (l₁ ++ x :: l₂).Nodup)
    (ha : a ∉ l₁ ++ x :: l₂) (hb : b ∉ l₁ ++ x :: l₂)
    (hnext : ∀ c ≠ x, next' c = if c = prev x then next x else next c)
    (hprev : ∀ c ≠ x, prev' c = if c = next x then prev x else prev c) :
    Path next' prev' a (l₁ ++ l₂) b := by
  induction l₁ generalizing a with
  | nil =>
    obtain ⟨⟨-, hpx⟩, hl⟩ := hl
    obtain ⟨hxl, hnodup⟩ := nodup_cons.1 hnodup
    have hnext_a : next' a = next x := by rw [hnext a (by grind), if_pos hpx.symm]
    cases l₂ with
    | nil => exact ⟨hnext_a.trans hl.1, by rw [hprev b (by grind), if_pos hl.1.symm, hpx]⟩
    | cons n l₂ =>
      obtain ⟨⟨hn, -⟩, hl⟩ := hl
      refine ⟨⟨hnext_a.trans hn, by rw [hprev n (by grind), if_pos hn.symm, hpx]⟩, ?_⟩
      refine hl.congr (fun c hc => ?_) fun c hc => ?_
      · rw [hnext c (by grind), if_neg (by grind)]
      · rw [hprev c (by grind), if_neg (by grind)]
  | cons c l₁ ih =>
    obtain ⟨hlink, hl⟩ := hl
    obtain ⟨hl1, hl2⟩ := hl.append
    have hprev_x := hl1.prev_mem
    have hnext_x := hl2.next_mem
    obtain ⟨hc, hnodup⟩ := nodup_cons.1 hnodup
    refine ⟨⟨?_, ?_⟩, ih hl hnodup hc (by grind)⟩
    · rw [hnext a (by grind), if_neg (by grind), hlink.1]
    · rw [hprev c (by grind), if_neg (by grind), hlink.2]

end Path

/-- **The nodes of the ring with the head `h`.** -/
structure Ring (next prev : α → α) (h : α) (l : List α) : Prop where
  path : Path next prev h l h
  nodup : (h :: l).Nodup

end Dll

/-
**The end of a request.**

`~SyscallRequest` gives the blocks of a request back: for each argument with `data` it first follows the
nested structures, as `deepCopy` has built them, and then frees the copy of the argument itself.  The
structures it follows are the ones it frees, so the order matters.  Here a destructor is the list of its
actions: the loads through unsafe pointers, and the calls of `unsafe_slub_free`.

Main definitions: `destructor`, `Balanced`.  Main result: `balanced`.
-/

import SgxElps.Syscall.Gather

namespace Syscall

open Bytes Prepared Marshalling Submission
open List
open Span

/-! ### Actions -/

/-- A load through an unsafe pointer, or a call of `unsafe_slub_free`. -/
inductive Action where
  | load (s : Span)
  | free (p : ℕ)

/-- The pointers that are freed, in their order. -/
def frees : List Action → List ℕ
  | [] => []
  | .load _ :: t => frees t
  | .free p :: t => p :: frees t

/-- The spans that are loaded. -/
def loads : List Action → List Span
  | [] => []
  | .load s :: t => s :: loads t
  | .free _ :: t => loads t

/-- Nothing is freed twice, and nothing is loaded from a block that has been freed; `freed` are the pointers
freed before. -/
def Safe (blocks : List Span) : List ℕ → List Action → Prop
  | _, [] => True
  | freed, .load s :: t =>
      (∀ b ∈ blocks, b.start ∈ freed → Disjoint s.bytes b.bytes) ∧ Safe blocks freed t
  | freed, .free p :: t => p ∉ freed ∧ Safe blocks (p :: freed) t

theorem frees_append (t t' : List Action) : frees (t ++ t') = frees t ++ frees t' := by
  induction t with
  | nil => rfl
  | cons a t ih =>
    cases a with
    | load s => exact ih
    | free p => exact congrArg _ ih

theorem loads_append (t t' : List Action) : loads (t ++ t') = loads t ++ loads t' := by
  induction t with
  | nil => rfl
  | cons a t ih =>
    cases a with
    | load s => exact congrArg _ ih
    | free p => exact ih

theorem safe_of_loads {blocks : List Span} (hsep : Span.Separated blocks) {freed : List ℕ} {t : List Action}
    (hnodup : (frees t ++ freed).Nodup)
    (hloads : ∀ s ∈ loads t, ∃ d ∈ blocks, s.bytes ⊆ d.bytes ∧ d.start ∉ frees t ++ freed) :
    Safe blocks freed t := by
  induction t generalizing freed with
  | nil => trivial
  | cons a t ih =>
    cases a with
    | load s =>
      refine ⟨fun b hb hfreed => ?_, ih hnodup fun s' hs' => hloads s' (mem_cons_of_mem _ hs')⟩
      obtain ⟨d, hd, hsub, hnot⟩ := hloads s (mem_cons_self ..)
      have hne : d ≠ b := by
        rintro rfl
        exact hnot (mem_append_right _ hfreed)
      have : Std.Symm fun b d : Span => Disjoint b.bytes d.bytes := ⟨fun _ _ h => h.symm⟩
      exact (hsep.forall hd hb hne).mono_left hsub
    | free p =>
      have hperm : (frees t ++ p :: freed).Perm (p :: (frees t ++ freed)) := perm_middle
      refine ⟨?_, ih (hperm.nodup_iff.2 hnodup) fun s hs => ?_⟩
      · exact fun hp => (nodup_cons.1 hnodup).1 (mem_append_right _ hp)
      · obtain ⟨d, hd, hsub, hnot⟩ := hloads s hs
        exact ⟨d, hd, hsub, fun h => hnot (hperm.mem_iff.1 h)⟩

theorem safe_append {blocks : List Span} {freed : List ℕ} {t t' : List Action} :
    Safe blocks freed (t ++ t') ↔ Safe blocks freed t ∧ Safe blocks ((frees t).reverse ++ freed) t' := by
  induction t generalizing freed with
  | nil => exact (Iff.of_eq (true_and _)).symm
  | cons a t ih =>
    cases a with
    | load s => exact (and_congr_right fun _ => ih).trans and_assoc.symm
    | free p =>
      have heq : (frees (.free p :: t)).reverse ++ freed = (frees t).reverse ++ p :: freed := by
        rw [frees, reverse_cons, append_assoc]
        rfl
      rw [heq]
      exact (and_congr_right fun _ => ih).trans and_assoc.symm

/-- **Loads first, from blocks that are freed last.** -/
theorem safe_append_of_frees {blocks : List Span} (hsep : Span.Separated blocks)
    {t t' : List Action} (hnodup : (frees (t ++ t')).Nodup) (hlast : loads t' = [])
    (hloads : ∀ s ∈ loads t, ∃ d ∈ blocks, s.bytes ⊆ d.bytes ∧ d.start ∉ frees t) :
    Safe blocks [] (t ++ t') := by
  rw [frees_append] at hnodup
  refine safe_append.2 ⟨safe_of_loads hsep ?_ ?_, safe_of_loads hsep ?_ ?_⟩
  · rw [append_nil]
    exact (nodup_append.1 hnodup).1
  · simpa only [append_nil] using hloads
  · rw [append_nil]
    exact (perm_append_comm.trans ((reverse_perm _).append_right _)).nodup_iff.2 hnodup
  · rw [hlast]
    exact fun _ h => absurd h not_mem_nil

/-! ### The destructor -/

/-- `memberClean`: the pointer at `a` is loaded and freed. -/
def memberClean (m : Mem) (a : ℕ) : List Action := [.load ⟨a, 8⟩, .free (read m a 8)]

/-- The loop over the segments; `before` is what is loaded to see whether there is another round. -/
def cleanSegments (m : Mem) (array count : ℕ) (before : List Action) : List Action :=
  (range count).flatMap fun j => before ++ memberClean m (array + 16 * j)

/-- `SyscallRequest::deepClean`. -/
def deepClean (m : Mem) (req i : ℕ) : List Action :=
  let src := argAt m req i
  if typesAt m req i = ArgType.nonPtr.code then []
  else if syscallNum m req = sysWritev then
    cleanSegments m src (rounds (argAt m req (i + 1))) []
  else if syscallNum m req = sysRecvmsg ∨ syscallNum m req = sysSendmsg then
    memberClean m src ++ memberClean m (src + 32) ++ [.load ⟨src + 16, 8⟩] ++
      cleanSegments m (iovOf m src) (iovlenOf m src) [.load ⟨src + 24, 8⟩] ++
      [.load ⟨src + 24, 8⟩] ++ memberClean m (src + 16)
  else []

/-- `~SyscallRequest`. -/
def destructor (m : Mem) (req : ℕ) : List Action :=
  (range 6).flatMap fun i =>
    if dataAt m req i = 0 then [] else deepClean m req i ++ [.free (dataAt m req i)]

theorem frees_cleanSegments (m : Mem) (array count : ℕ) (before : List Action) (h : frees before = []) :
    frees (cleanSegments m array count before) = (range count).map (baseAt m array) := by
  unfold cleanSegments
  induction range count with
  | nil => rfl
  | cons j l ih =>
    rw [flatMap_cons, frees_append, frees_append, h, ih]
    rfl

theorem mem_loads_cleanSegments {m : Mem} {array count : ℕ} {before : List Action} {s : Span}
    (h : s ∈ loads (cleanSegments m array count before)) :
    s ∈ loads before ∨ ∃ j < count, s = ⟨array + 16 * j, 8⟩ := by
  unfold cleanSegments at h
  have hall : ∀ l : List ℕ, (∀ j ∈ l, j < count) →
      s ∈ loads (l.flatMap fun j => before ++ memberClean m (array + 16 * j)) →
      s ∈ loads before ∨ ∃ j < count, s = ⟨array + 16 * j, 8⟩ := by
    intro l hl h
    induction l with
    | nil => exact absurd h not_mem_nil
    | cons j l ih =>
      rw [flatMap_cons, loads_append, loads_append, mem_append, mem_append] at h
      rcases h with (h | h) | h
      · exact .inl h
      · exact .inr ⟨j, hl j (mem_cons_self ..), mem_singleton.1 h⟩
      · exact ih (fun j hj => hl j (mem_cons_of_mem _ hj)) h
  exact hall _ (fun j hj => mem_range.1 hj) h

/-! ### The blocks of a request -/

namespace Prepared

section Defs

variable (c : Prepared) (m : Mem)

/-- The host has left the format, the arguments, the pointers of the nested copies and `msg_iovlen` as they
were when the request was pushed. -/
structure Unaltered : Prop where
  request : ∀ x, c.req + 56 ≤ x → x < c.req + requestSize → m x = c.fill.mem x
  vector : c.n = sysWritev → ∀ j < rounds (c.arg 2),
    baseAt m (c.block 1).start j = baseAt c.fill.mem (c.block 1).start j
  header : c.IsMessage → ∀ o ∈ [0, 16, 24, 32],
    read m ((c.block 1).start + o) 8 = read c.fill.mem ((c.block 1).start + o) 8
  array : c.IsMessage → ∀ j < iovlenOf c.mem (c.arg 1),
    baseAt m (iovOf m (c.block 1).start) j = baseAt c.fill.mem (iovOf m (c.block 1).start) j

/-- Every block is freed exactly once, and not used afterwards. -/
structure Balanced : Prop where
  perm : (frees (destructor m c.req)).Perm (c.fill.blocks.map start)
  safe : Safe c.fill.blocks [] (destructor m c.req)

end Defs

variable {c : Submission} {m : Mem}

theorem Unaltered.argAt_eq (h : c.Unaltered m) {i : ℕ} (hi : i < 6) :
    argAt m c.req i = argAt c.fill.mem c.req i :=
  read_congr fun x h1 h2 => h.request x (by omega) (by rw [requestSize]; omega)

theorem Unaltered.dataAt_eq (h : c.Unaltered m) {i : ℕ} (hi : i < 6) :
    dataAt m c.req i = dataAt c.fill.mem c.req i :=
  read_congr fun x h1 h2 => h.request x (by omega) (by rw [requestSize]; omega)

theorem Unaltered.format_eq (h : c.Unaltered m) (hi : c.Intact) {a n : ℕ} (ha : c.req + 56 ≤ a)
    (hn : a + n ≤ c.req + 92) : read m a n = read c.mem a n :=
  (read_congr fun x h1 h2 => h.request x (by omega) (by rw [requestSize]; omega)).trans
    (format_fill hi (by omega) hn)

theorem Unaltered.syscallNum_eq (h : c.Unaltered m) (hi : c.Intact) : syscallNum m c.req = c.n :=
  (h.format_eq hi (le_refl _) (by omega)).trans c.syscallNum_eq

/-- The positions of the pointers. -/
def pointers (c : Prepared) : List ℕ := (range 6).filter fun i => c.IsPointer i

theorem flatMap_ite {α : Type} (l : List ℕ) (p : ℕ → Prop) [DecidablePred p] (g : ℕ → List α) :
    (l.flatMap fun i => if p i then g i else []) = (l.filter fun i => p i).flatMap g := by
  induction l with
  | nil => rfl
  | cons i l ih =>
    rw [flatMap_cons, ih, filter_cons]
    by_cases h : p i
    · rw [if_pos h, if_pos (decide_eq_true h), flatMap_cons]
    · rw [if_neg h, if_neg (by simpa using h), nil_append]

/-- The destructor goes over the arguments that are pointers. -/
theorem destructor_eq (h : c.Unaltered m) (hi : c.Intact) :
    destructor m c.req = c.pointers.flatMap fun i => deepClean m c.req i ++ [.free (c.block i).start] := by
  rw [pointers, ← flatMap_ite, destructor, flatMap_def, flatMap_def]
  refine congrArg _ (map_congr_left fun i hi' => ?_)
  have hlt := mem_range.1 hi'
  rw [h.dataAt_eq hlt]
  by_cases hp : c.IsPointer i
  · rw [(fields_fill hi hp).2, if_neg (block_placed hp).2, if_pos hp]
  · rw [dataAt, fields_fill_of_not hi hp hlt (by omega) (by omega)]
    exact (if_pos (c.data_eq i hlt)).trans (if_neg hp).symm

/-! ### Flat calls -/

theorem fillTo_of_le {k : ℕ} (hk : c.types.length ≤ k) : c.fillTo k = c.fill := by
  induction k, hk using Nat.le_induction with
  | base => rfl
  | succ k hk ih =>
    rw [fillTo_succ_of_not fun hp => absurd hp.lt (by omega), ih]

theorem flat_blocks (hflat : c.Flat) : c.fill.blocks = c.pointers.map c.block := by
  have hrounds : ∀ k, (c.fillTo k).blocks = ((range k).filter fun i => c.IsPointer i).map c.block := by
    intro k
    induction k with
    | zero => rfl
    | succ k ih =>
      rw [range_succ, filter_append, map_append, ← ih]
      by_cases hp : c.IsPointer k
      · rw [flat_succ hflat hp, filter_singleton, decide_eq_true hp]
        rfl
      · rw [fillTo_succ_of_not hp, filter_singleton, decide_eq_false hp]
        exact (append_nil _).symm
  rw [← fillTo_of_le c.types_length_le, hrounds, pointers]

theorem frees_flatMap_free (l : List ℕ) (g : ℕ → ℕ) :
    frees (l.flatMap fun i => [.free (g i)]) = l.map g ∧
      loads (l.flatMap fun i => [.free (g i)]) = [] := by
  induction l with
  | nil => exact ⟨rfl, rfl⟩
  | cons i l ih => exact ⟨congrArg _ ih.1, ih.2⟩

theorem balanced_flat (hflat : c.Flat) (hu : c.Unaltered m)
    (hdistinct : (c.fill.blocks.map start).Nodup) : c.Balanced m := by
  have hi := intact_of_flat hflat
  have hdest : destructor m c.req = [] ++ c.pointers.flatMap fun i => [.free (c.block i).start] := by
    rw [destructor_eq hu hi, nil_append]
    refine congrArg (flatMap · _) (funext fun i => ?_)
    unfold deepClean
    dsimp only
    rw [hu.syscallNum_eq hi, if_neg hflat.1, if_neg (not_or.2 ⟨hflat.2.1, hflat.2.2⟩), ite_self,
      nil_append]
  obtain ⟨hfrees, hloads⟩ := frees_flatMap_free c.pointers fun i => (c.block i).start
  have hstarts : c.pointers.map (fun i => (c.block i).start) = c.fill.blocks.map start := by
    rw [flat_blocks hflat, map_map]
    rfl
  refine ⟨?_, ?_⟩
  · rw [hdest, nil_append, hfrees, hstarts]
  · rw [hdest]
    refine safe_append_of_frees c.fresh.separated ?_ hloads fun s hs => absurd hs not_mem_nil
    rw [nil_append, hfrees, hstarts]
    exact hdistinct

/-! ### Nested copies -/

theorem pointers_one {t : ArgType} (ht : c.types = [.nonPtr, t, .nonPtr]) (hp : t ≠ .nonPtr) :
    c.pointers = [1] := by
  have hiff : ∀ i ∈ range 6, decide (c.IsPointer i) = decide (i = 1) := by
    intro i _
    rw [decide_eq_decide, IsPointer, ht]
    by_cases h1 : i = 1
    · subst h1
      exact ⟨fun _ => rfl, fun _ => hp⟩
    · have hother : [ArgType.nonPtr, t, .nonPtr][i]?.getD .nonPtr = .nonPtr := by
        rcases i with _ | _ | _ | i
        · rfl
        · exact absurd rfl h1
        · rfl
        · rfl
      exact ⟨fun h => absurd hother h, fun h => absurd h h1⟩
  rw [pointers, filter_congr hiff]
  rfl

/-- The starts of the blocks, of which those from the end of `pre` on belong to segments. -/
theorem starts_eq {l pre : List Span} {f : ℕ → ℕ} {count : ℕ} (hpre : pre <+: l)
    (hlen : l.length = pre.length + count)
    (hf : ∀ j < count, ∃ b, l[pre.length + j]? = some b ∧ f j = b.start) :
    l.map start = pre.map start ++ (range count).map f := by
  obtain ⟨t, rfl⟩ := hpre
  rw [map_append]
  refine congrArg _ (ext_getElem ?_ fun j h1 h2 => ?_)
  · rw [length_append] at hlen
    rw [length_map, length_map, length_range]
    omega
  · have hj : j < count := by simpa using h2
    obtain ⟨b, hb, hstart⟩ := hf j hj
    rw [getElem?_append_right (Nat.le_add_right ..), Nat.add_sub_cancel_left] at hb
    obtain ⟨_, rfl⟩ := List.getElem?_eq_some_iff.1 hb
    rw [getElem_map, getElem_map, getElem_range, hstart]

theorem Unaltered.typesAt_one (h : c.Unaltered m) (hi : c.Intact) {t : ArgType}
    (ht : c.types = [.nonPtr, t, .nonPtr]) (hp : t.code ≠ ArgType.nonPtr.code) :
    typesAt m c.req 1 ≠ ArgType.nonPtr.code := by
  have htypes : typesAt m c.req 1 = t.code := by
    refine (h.format_eq hi (by omega) (by omega)).trans (c.types_eq 1 t ?_)
    rw [ht]
    rfl
  rwa [htypes]

theorem balanced_writev (hn : c.n = sysWritev) (hw : c.Walkable) (hu : c.Unaltered m)
    (hdistinct : (c.fill.blocks.map start).Nodup) : c.Balanced m := by
  have ht : c.types = [.nonPtr, .iovecPtr, .nonPtr] := types_of_eq hn rfl
  have hp : ArgType.iovecPtr ≠ .nonPtr := by decide
  have hi := hw.intact
  have hptr : c.IsPointer 1 := isPointer_one ht hp
  have hnot : ¬ c.IsPointer 2 := fun h => absurd ((isPointer_iff hn rfl (l := [1]) rfl).1 h) (by decide)
  have hloop := loop_vector hn (hw.vector hn) (hw.vector_len hn)
  have harg1 : argAt m c.req 1 = (c.block 1).start :=
    (hu.argAt_eq (by decide)).trans (fields_fill hi hptr).1
  have harg2 : argAt m c.req 2 = c.arg 2 := by
    rw [hu.argAt_eq (by decide), argAt_fill_of_not hi hnot (by rw [ht]; decide)]
  have hdest : destructor m c.req =
      cleanSegments m (c.block 1).start (rounds (c.arg 2)) [] ++ [.free (c.block 1).start] := by
    rw [destructor_eq hu hi, pointers_one ht hp, flatMap_singleton, deepClean,
      if_neg (hu.typesAt_one hi ht (by decide)), if_pos ((hu.syscallNum_eq hi).trans hn), harg1, harg2]
  have hstarts : c.fill.blocks.map start =
      [(c.block 1).start] ++ (range (rounds (c.arg 2))).map (baseAt m (c.block 1).start) := by
    have hpre : [c.block 1] <+: c.fill.blocks := by
      rw [← shallow_one_blocks ht, hloop.fill_blocks]
      exact hloop.blocks_le
    refine starts_eq hpre (by rw [hloop.blocks_length, shallow_one_blocks ht]) fun j hj => ?_
    obtain ⟨b, hb, hstart, -⟩ := hloop.points hj
    rw [shallow_one_blocks ht] at hb
    exact ⟨b, hb, (hu.vector hn j hj).trans hstart⟩
  have hperm : (frees (destructor m c.req)).Perm (c.fill.blocks.map start) := by
    rw [hdest, frees_append, frees_cleanSegments _ _ _ [] rfl, hstarts]
    exact perm_append_comm
  have hnodup := hperm.nodup_iff.2 hdistinct
  refine ⟨hperm, ?_⟩
  rw [hdest] at hnodup ⊢
  refine safe_append_of_frees c.fresh.separated hnodup rfl fun s hs => ?_
  rcases mem_loads_cleanSegments hs with hs | ⟨j, hj, rfl⟩
  · exact absurd hs not_mem_nil
  · refine ⟨c.block 1, block_mem_fill hptr, fun x hx => ?_, fun hmem => ?_⟩
    · have hle := hw.vector_len hn
      exact (show x ∈ (⟨(c.block 1).start, c.size 1⟩ : Span).bytes from
        mem_bytes_of_le hx (by omega) (by omega))
    · rw [frees_append, nodup_append] at hnodup
      exact hnodup.2.2 _ hmem _ (mem_singleton_self _) rfl

/-- The actions for a message before the array and the header are freed. -/
def cleanMessage (m : Mem) (src : ℕ) : List Action :=
  memberClean m src ++ memberClean m (src + 32) ++ [.load ⟨src + 16, 8⟩] ++
    cleanSegments m (iovOf m src) (iovlenOf m src) [.load ⟨src + 24, 8⟩] ++
    [.load ⟨src + 24, 8⟩, .load ⟨src + 16, 8⟩]

theorem frees_cleanMessage (m : Mem) (src : ℕ) : frees (cleanMessage m src) =
    [read m src 8, read m (src + 32) 8] ++
      (range (iovlenOf m src)).map (baseAt m (iovOf m src)) := by
  rw [cleanMessage, frees_append, frees_append, frees_append, frees_append,
    frees_cleanSegments _ _ _ [.load ⟨src + 24, 8⟩] rfl]
  exact append_nil _

theorem mem_loads_cleanMessage {src : ℕ} {s : Span} (h : s ∈ loads (cleanMessage m src)) :
    (∃ o, o + 8 ≤ 56 ∧ s = ⟨src + o, 8⟩) ∨ ∃ j < iovlenOf m src, s = ⟨iovOf m src + 16 * j, 8⟩ := by
  rw [cleanMessage, loads_append, loads_append, loads_append, loads_append] at h
  simp only [memberClean, loads, mem_append, mem_cons, not_mem_nil, or_false] at h
  rcases h with (((rfl | rfl) | rfl) | h) | (rfl | rfl)
  · exact .inl ⟨0, by omega, rfl⟩
  · exact .inl ⟨32, by omega, rfl⟩
  · exact .inl ⟨16, by omega, rfl⟩
  · rcases mem_loads_cleanSegments h with h | h
    · exact .inl ⟨24, by omega, mem_singleton.1 h⟩
    · exact .inr h
  · exact .inl ⟨24, by omega, rfl⟩
  · exact .inl ⟨16, by omega, rfl⟩

theorem destructor_message (hm : c.IsMessage) (hi : c.Intact) (hu : c.Unaltered m) :
    destructor m c.req = cleanMessage m (c.block 1).start ++
      [.free (iovOf m (c.block 1).start), .free (c.block 1).start] := by
  have hp : ArgType.msghdrPtr ≠ .nonPtr := by decide
  have harg : argAt m c.req 1 = (c.block 1).start :=
    (hu.argAt_eq (by decide)).trans (fields_fill hi hm.isPointer).1
  have hwritev : syscallNum m c.req ≠ sysWritev := by
    rw [hu.syscallNum_eq hi]
    rcases hm with hn | hn <;> rw [hn] <;> decide
  have hmessage : syscallNum m c.req = sysRecvmsg ∨ syscallNum m c.req = sysSendmsg := by
    rw [hu.syscallNum_eq hi]
    exact hm
  rw [destructor_eq hu hi, pointers_one hm.types hp, flatMap_singleton, deepClean,
    if_neg (hu.typesAt_one hi hm.types (by decide)), if_neg hwritev, if_pos hmessage, harg, cleanMessage]
  simp only [memberClean, append_assoc]
  rfl

/-- The blocks of a message, as the destructor finds them: the header, the name, the array, the control
data and the segments. -/
theorem starts_message (hm : c.IsMessage) (hw : c.Walkable) (hu : c.Unaltered m) :
    ∃ b₂ ∈ c.fill.blocks, iovOf m (c.block 1).start = b₂.start ∧
      16 * iovlenOf m (c.block 1).start ≤ b₂.len ∧
      c.fill.blocks.map start = [(c.block 1).start, read m (c.block 1).start 8,
        iovOf m (c.block 1).start, read m ((c.block 1).start + 32) 8] ++
        (range (iovlenOf m (c.block 1).start)).map (baseAt m (iovOf m (c.block 1).start)) := by
  have hfilled := messageFilled hm (hw.header hm) (hw.array hm) (hw.message_len hm)
  obtain ⟨b₁, b₂, b₃, hpre, -, hlen2, -⟩ := message_lengths hm (hw.header hm)
  have hiovlen : iovlenOf m (c.block 1).start = iovlenOf c.mem (c.arg 1) := by
    refine (hu.header hm 24 (by decide)).trans (read_eq_of_shift fun o ho => ?_)
    rw [Nat.add_assoc, Nat.add_assoc]
    refine hfilled.rest (hw.arg_ne hm) _ (by omega) fun p hp => ?_
    simp only [mem_cons, not_mem_nil, or_false] at hp
    omega
  have hname : read m (c.block 1).start 8 = b₁.start := by
    obtain ⟨d, hd, hptr, -⟩ := hfilled.name
    obtain rfl : b₁ = d := Option.some_inj.1 ((getElem?_of_le hpre rfl).symm.trans hd)
    exact (hu.header hm 0 (by decide)).trans hptr
  have hiov : iovOf m (c.block 1).start = b₂.start := by
    obtain ⟨d, hd, hptr⟩ := hfilled.array
    obtain rfl : b₂ = d := Option.some_inj.1 ((getElem?_of_le hpre rfl).symm.trans hd)
    exact (hu.header hm 16 (by decide)).trans hptr
  have hcontrol : read m ((c.block 1).start + 32) 8 = b₃.start := by
    obtain ⟨d, hd, hptr, -⟩ := hfilled.control
    obtain rfl : b₃ = d := Option.some_inj.1 ((getElem?_of_le hpre rfl).symm.trans hd)
    exact (hu.header hm 32 (by decide)).trans hptr
  have hvector : iovOf m (c.block 1).start = read c.fill.mem ((c.block 1).start + 16) 8 :=
    hu.header hm 16 (by decide)
  refine ⟨b₂, hpre.subset (by simp), hiov, ?_, ?_⟩
  · rw [hiovlen, hlen2]
    exact hw.message_len hm
  · rw [hname, hcontrol, hiovlen]
    have hlen : c.fill.blocks.length = [c.block 1, b₁, b₂, b₃].length + iovlenOf c.mem (c.arg 1) :=
      hfilled.vector.blocks_length
    have hmap := starts_eq (f := baseAt m (iovOf m (c.block 1).start)) hpre hlen fun j hj => by
      obtain ⟨b, hb, hstart, -⟩ := hfilled.vector.points j hj
      refine ⟨b, hb, (hu.array hm j hj).trans ?_⟩
      rw [hvector]
      exact hstart
    rw [hmap, hiov]
    rfl

theorem balanced_message (hm : c.IsMessage) (hw : c.Walkable) (hu : c.Unaltered m)
    (hdistinct : (c.fill.blocks.map start).Nodup) : c.Balanced m := by
  have hptr : c.IsPointer 1 := hm.isPointer
  have hdest := destructor_message hm hw.intact hu
  obtain ⟨b₂, hb2, hiov, hlen2, hstarts⟩ := starts_message hm hw hu
  have hperm : (frees (destructor m c.req)).Perm (c.fill.blocks.map start) := by
    rw [hdest, frees_append, frees_cleanMessage, hstarts, perm_iff_count]
    intro a
    simp only [frees, count_append, count_cons, count_nil]
    omega
  have hnodup := hperm.nodup_iff.2 hdistinct
  refine ⟨hperm, ?_⟩
  rw [hdest] at hnodup ⊢
  refine safe_append_of_frees c.fresh.separated hnodup rfl fun s hs => ?_
  -- the header and the array are freed last
  rw [frees_append, nodup_append] at hnodup
  rcases mem_loads_cleanMessage hs with ⟨o, ho, rfl⟩ | ⟨j, hj, rfl⟩
  · refine ⟨c.block 1, block_mem_fill hptr, fun x hx => ?_, fun hmem => ?_⟩
    · rw [mem_bytes] at hx
      exact (mem_block_iff hm).2 (by omega)
    · exact hnodup.2.2 _ hmem _ (mem_cons_of_mem _ (mem_singleton_self _)) rfl
  · refine ⟨b₂, hb2, fun x hx => ?_, fun hmem => ?_⟩
    · rw [hiov] at hx
      exact (show x ∈ (⟨b₂.start, b₂.len⟩ : Span).bytes from
        mem_bytes_of_le hx (by omega) (by omega))
    · rw [← hiov] at hmem
      exact hnodup.2.2 _ hmem _ (mem_cons_self ..) rfl

/-- **The destructor releases what `fillArgs` has taken**: every block once, and no block is used after
that. -/
theorem balanced (c : Submission) (m : Mem) (hw : c.Walkable) (hu : c.Unaltered m)
    (hdistinct : (c.fill.blocks.map start).Nodup) : c.Balanced m := by
  by_cases hn : c.n = sysWritev
  · exact balanced_writev hn hw hu hdistinct
  by_cases hm : c.IsMessage
  · exact balanced_message hm hw hu hdistinct
  · exact balanced_flat ⟨hn, fun h => hm (.inl h), fun h => hm (.inr h)⟩ hu hdistinct

theorem walkable_writevCall : writevCall.Walkable :=
  small_writevCall.walkable (.inl rfl)

end Prepared

end Syscall

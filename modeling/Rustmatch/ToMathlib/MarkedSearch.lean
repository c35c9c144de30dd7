import Mathlib.Logic.Relation
import Mathlib.Data.Finset.Card
import Mathlib.Data.Finset.Range
import Mathlib.Data.List.GetD
import Mathlib.Data.List.Nodup

/-!
# Worklist search with visit marks

Depth-first search over a graph on natural numbers, given by a successor function, with the marks
held in an arbitrary store. A store says which nodes are already marked; nodes beyond its size
count as marked, so a search never visits them. Two marking disciplines are covered: marking a node
when it is pushed (`explore`, `extend`), and marking it when it is popped (`drain`).

Several searches may share one store and one output list. `Explored` says that the two agree and
that the output is closed under successors, which is what makes sharing sound: a later search may
stop at everything an earlier one has visited.

## Main definitions

* `MarkStore`: visit marks with their laws;
* `explore`, `extend`: search with marking on push;
* `drain`: search with marking on pop;
* `Explored`: an output list in step with its marks and closed under successors.

## Main results

* `extend_explored`, `mem_extend`: one more seed keeps the invariant and adds exactly what the seed
  reaches;
* `foldl_extend_spec`: the same for a list of seeds;
* `drain_nodup`, `mem_drain`: a search with marking on pop from a list of seeds;
* `extend_marks_induction`, `drain_marks_induction`: a property of the marks that every single mark
  keeps;
* `Stamps.next`: a new generation of stamps starts without marks, also when the counter wraps.
-/

open Relation

namespace MarkedSearch

/-- Visit marks for nodes below `size`. Nodes at or beyond it always read as marked. -/
structure MarkStore (M : Type*) where
  /-- The number of nodes. -/
  size : M → ℕ
  /-- Whether a node is marked. -/
  marked : M → ℕ → Bool
  /-- Mark a node. -/
  mark : M → ℕ → M
  /-- Nodes beyond the size read as marked. -/
  marked_of_size_le : ∀ m s, size m ≤ s → marked m s = true
  /-- Marking keeps the size. -/
  size_mark : ∀ m s, size (mark m s) = size m
  /-- Marking marks that node, and no other. -/
  marked_mark : ∀ m s t, s < size m → marked (mark m s) t = (decide (t = s) || marked m t)

variable {M : Type*} (S : MarkStore M) (succ : ℕ → List ℕ)

/-- How many nodes are not marked yet. -/
def unmarked (m : M) : ℕ :=
  ((Finset.range (S.size m)).filter fun s => S.marked m s = false).card

/-- An unmarked node exists. -/
theorem lt_size_of_marked_eq_false {m : M} {s : ℕ} (h : S.marked m s = false) :
    s < S.size m := by
  by_contra hs
  have := S.marked_of_size_le m s (not_lt.mp hs)
  simp [h] at this

/-- Marking a node that was not marked uses up one unmarked node. -/
theorem unmarked_mark {m : M} {s : ℕ} (h : S.marked m s = false) :
    unmarked S (S.mark m s) + 1 = unmarked S m := by
  have hs := lt_size_of_marked_eq_false S h
  have herase : (Finset.range (S.size (S.mark m s))).filter
        (fun t => S.marked (S.mark m s) t = false) =
      ((Finset.range (S.size m)).filter fun t => S.marked m t = false).erase s := by
    ext t
    simp only [S.size_mark, Finset.mem_filter, Finset.mem_range, Finset.mem_erase,
      S.marked_mark m s t hs, Bool.or_eq_false_iff, decide_eq_false_iff_not]
    tauto
  rw [unmarked, herase]
  exact Finset.card_erase_add_one (by simpa using ⟨hs, h⟩)

/-! ### Marking on push -/

/-- Marks the unmarked nodes of a list and pushes them onto the stack. -/
def pushUnmarked : List ℕ → M → List ℕ → M × List ℕ
  | [], m, stack => (m, stack)
  | t :: ts, m, stack =>
    if S.marked m t then pushUnmarked ts m stack
    else pushUnmarked ts (S.mark m t) (t :: stack)

/-- What is pushed was unmarked before. -/
theorem unmarked_pushUnmarked (ts : List ℕ) (m : M) (stack : List ℕ) :
    unmarked S (pushUnmarked S ts m stack).1 + (pushUnmarked S ts m stack).2.length =
      unmarked S m + stack.length := by
  induction ts generalizing m stack with
  | nil => rfl
  | cons t ts ih =>
    unfold pushUnmarked
    split
    · exact ih m stack
    next h =>
      have hmark : S.marked m t = false := by simpa using h
      rw [ih, ← unmarked_mark S hmark, List.length_cons]
      omega

/-- Pops nodes until the stack is empty; each popped node is emitted, and its unmarked successors
are marked and pushed. -/
def explore (m : M) (stack : List ℕ) (out : List ℕ) : M × List ℕ :=
  match stack with
  | [] => (m, out)
  | s :: rest =>
    let pushed := pushUnmarked S (succ s) m rest
    explore pushed.1 pushed.2 (out ++ [s])
termination_by unmarked S m + stack.length
decreasing_by
  rw [unmarked_pushUnmarked, List.length_cons]
  omega

/-- Searches from one more seed, unless it is marked already. -/
def extend (seed : ℕ) (m : M) (stack : List ℕ) (out : List ℕ) : M × List ℕ :=
  if S.marked m seed then (m, out) else explore S succ (S.mark m seed) (seed :: stack) out

/-- What every single mark keeps, a search keeps. -/
theorem extend_marks_induction {P : M → Prop} (hmark : ∀ m s, P m → P (S.mark m s)) (seed : ℕ)
    {m : M} {stack out : List ℕ} (h : P m) : P (extend S succ seed m stack out).1 := by
  have hpush : ∀ ts m stack, P m → P (pushUnmarked S ts m stack).1 := by
    intro ts
    induction ts with
    | nil => exact fun m stack h => h
    | cons t ts ih =>
      intro m stack h
      unfold pushUnmarked
      split
      · exact ih m stack h
      · exact ih _ _ (hmark m t h)
  have hexplore : ∀ m stack out, P m → P (explore S succ m stack out).1 := by
    intro m stack out h
    induction m, stack, out using explore.induct S succ with
    | case1 m out =>
      rw [explore]
      exact h
    | case2 m out s rest pushed ih =>
      rw [explore]
      exact ih (hpush _ _ _ h)
  unfold extend
  split
  · exact h
  · exact hexplore _ _ _ (hmark m seed h)

/-- `v` can be reached from `u` through successors. -/
abbrev Reach (u v : ℕ) : Prop := ReflTransGen (fun a b => b ∈ succ a) u v

/-- The emitted nodes are exactly the marked ones, without repeats, and closed under
successors. -/
structure Explored (n : ℕ) (m : M) (out : List ℕ) : Prop where
  /-- The marks are for `n` nodes. -/
  size_eq : S.size m = n
  /-- No node is emitted twice. -/
  nodup : out.Nodup
  /-- The emitted nodes are the marked ones. -/
  mem_iff : ∀ u, u ∈ out ↔ u < n ∧ S.marked m u = true
  /-- The successors of emitted nodes are emitted. -/
  closed : ∀ u ∈ out, ∀ v ∈ succ u, v ∈ out

/-- The invariant of the search loop: the marked nodes are those emitted and those on the stack,
and the successors of emitted nodes are marked. -/
structure Exploring (n : ℕ) (m : M) (stack out : List ℕ) : Prop where
  /-- The marks are for `n` nodes. -/
  size_eq : S.size m = n
  /-- No node is emitted twice, or waits twice. -/
  nodup : (out ++ stack).Nodup
  /-- The nodes that are emitted or wait are the marked ones. -/
  mem_iff : ∀ u, u ∈ out ∨ u ∈ stack ↔ u < n ∧ S.marked m u = true
  /-- The successors of emitted nodes are emitted or wait. -/
  closed : ∀ u ∈ out, ∀ v ∈ succ u, v ∈ out ∨ v ∈ stack

variable {S succ} {n : ℕ} {m : M} {stack out : List ℕ}

/-- An explored set is one that nothing waits for. -/
theorem Explored.exploring (h : Explored S succ n m out) : Exploring S succ n m [] out :=
  ⟨h.size_eq, by simpa using h.nodup, by simpa using h.mem_iff, by simpa using h.closed⟩

/-- When nothing waits any more, all is explored. -/
theorem Exploring.explored (h : Exploring S succ n m [] out) : Explored S succ n m out :=
  ⟨h.size_eq, by simpa using h.nodup, by simpa using h.mem_iff, by simpa using h.closed⟩

/-- A store without marks and an empty output are in step. -/
theorem Explored.empty (hsize : S.size m = n) (hm : ∀ u < n, S.marked m u = false) :
    Explored S succ n m [] where
  size_eq := hsize
  nodup := List.nodup_nil
  mem_iff u := by
    simp only [List.not_mem_nil, false_iff, not_and]
    exact fun hu => by simp [hm u hu]
  closed := by simp

/-- An explored set is closed under reachability. -/
theorem Explored.mem_of_reach (h : Explored S succ n m out) {u v : ℕ} (hu : u ∈ out)
    (huv : Reach succ u v) : v ∈ out := by
  induction huv with
  | refl => exact hu
  | tail _ hstep ih => exact h.closed _ ih _ hstep

/-- One node pushed: it joins the stack and the marks together. -/
private theorem Exploring.push {t : ℕ} (h : Exploring S succ n m stack out)
    (ht : S.marked m t = false) : Exploring S succ n (S.mark m t) (t :: stack) out := by
  have hlt := lt_size_of_marked_eq_false S ht
  have hnew : ¬ (t ∈ out ∨ t ∈ stack) := by
    rw [h.mem_iff]
    simp [ht]
  refine ⟨by rw [S.size_mark, h.size_eq], ?_, fun u => ?_, fun u hu v hv => ?_⟩
  · rw [List.nodup_middle, List.nodup_cons]
    exact ⟨by simpa using hnew, h.nodup⟩
  · rw [S.marked_mark m t u hlt]
    have := h.mem_iff u
    rw [h.size_eq] at hlt
    by_cases hut : u = t
    · subst hut
      simp [hlt]
    · simp only [List.mem_cons, hut, false_or, decide_false, Bool.false_or]
      exact this
  · exact (h.closed u hu v hv).imp_right (List.mem_cons_of_mem _)

/-- Pushing the unmarked nodes of `ts` keeps all of the invariant but closedness at nodes whose
successors are `ts`; afterwards every node of `ts` is emitted or on the stack. -/
private theorem Exploring.pushUnmarked {ts : List ℕ} (hts : ∀ t ∈ ts, t < n)
    (h : Exploring S succ n m stack out) :
    Exploring S succ n (pushUnmarked S ts m stack).1 (pushUnmarked S ts m stack).2 out ∧
      (∀ u ∈ (MarkedSearch.pushUnmarked S ts m stack).2, u ∈ stack ∨ u ∈ ts) ∧
      (∀ u ∈ stack, u ∈ (MarkedSearch.pushUnmarked S ts m stack).2) ∧
      ∀ t ∈ ts, t ∈ out ∨ t ∈ (MarkedSearch.pushUnmarked S ts m stack).2 := by
  induction ts generalizing m stack with
  | nil => exact ⟨h, fun u hu => Or.inl hu, fun u hu => hu, by simp⟩
  | cons t ts ih =>
    have htn := hts t List.mem_cons_self
    have hrest := fun u hu => hts u (List.mem_cons_of_mem t hu)
    unfold MarkedSearch.pushUnmarked
    split
    -- a marked one is out or on the stack already
    next hmark =>
      obtain ⟨hinv, hnew, hold, hall⟩ := ih hrest h
      refine ⟨hinv, fun u hu => (hnew u hu).imp_right (List.mem_cons_of_mem _), hold, ?_⟩
      intro u hu
      rcases List.mem_cons.mp hu with rfl | hu
      · exact ((h.mem_iff u).mpr ⟨htn, hmark⟩).imp_right (hold u)
      · exact hall u hu
    next hmark =>
      obtain ⟨hinv, hnew, hold, hall⟩ := ih hrest (h.push (by simpa using hmark))
      refine ⟨hinv, fun u hu => ?_, fun u hu => hold u (List.mem_cons_of_mem _ hu), ?_⟩
      · rcases hnew u hu with hu | hu
        · rcases List.mem_cons.mp hu with rfl | hu
          · exact Or.inr List.mem_cons_self
          · exact Or.inl hu
        · exact Or.inr (List.mem_cons_of_mem _ hu)
      · intro u hu
        rcases List.mem_cons.mp hu with rfl | hu
        · exact Or.inr (hold u List.mem_cons_self)
        · exact hall u hu

/-- The search loop ends in step with its marks, and what it adds is reachable from the stack. -/
theorem explore_spec (hsucc : ∀ u < n, ∀ v ∈ succ u, v < n)
    (h : Exploring S succ n m stack out) :
    Explored S succ n (explore S succ m stack out).1 (explore S succ m stack out).2 ∧
      (∀ u ∈ (explore S succ m stack out).2, u ∈ out ∨ ∃ s ∈ stack, Reach succ s u) ∧
      (∀ u, u ∈ out ∨ u ∈ stack → u ∈ (explore S succ m stack out).2) := by
  induction m, stack, out using explore.induct S succ with
  | case1 m out =>
    rw [explore]
    exact ⟨h.explored, fun u hu => Or.inl hu, fun u hu => by simpa using hu⟩
  | case2 m out s rest pushed ih =>
    have hsn : s < n := ((h.mem_iff s).mp (Or.inr List.mem_cons_self)).1
    -- between popping `s` and pushing its successors only `s` may have successors not yet marked
    obtain ⟨hinv, hnew, hold, hall⟩ :=
      @Exploring.pushUnmarked M S (fun u => if u = s then [] else succ u) n m rest (out ++ [s])
        (succ s) (hsucc s hsn)
        { size_eq := h.size_eq
          nodup := by simpa using h.nodup
          mem_iff := fun u => by
            rw [← h.mem_iff u]
            simp only [List.mem_append, List.mem_cons]
            tauto
          closed := fun u hu v hv => by
            by_cases hus : u = s
            · simp [hus] at hv
            · have huo : u ∈ out := by simpa [hus] using hu
              rw [if_neg hus] at hv
              rcases h.closed u huo v hv with hv | hv
              · exact Or.inl (List.mem_append_left _ hv)
              · rcases List.mem_cons.mp hv with rfl | hv
                · exact Or.inl (by simp)
                · exact Or.inr hv }
    have hready : Exploring S succ n pushed.1 pushed.2 (out ++ [s]) :=
      { size_eq := hinv.size_eq
        nodup := hinv.nodup
        mem_iff := hinv.mem_iff
        closed := fun u hu v hv => by
          by_cases hus : u = s
          · exact hall v (hus ▸ hv)
          · exact hinv.closed u hu v (by simpa [hus] using hv) }
    obtain ⟨hdone, hsound, hkept⟩ := ih hready
    rw [explore]
    refine ⟨hdone, fun u hu => ?_, fun u hu => ?_⟩
    · rcases hsound u hu with hu | ⟨t, ht, hreach⟩
      · rcases List.mem_append.mp hu with hu | hu
        · exact Or.inl hu
        · exact Or.inr ⟨s, List.mem_cons_self, by simpa using List.mem_singleton.mp hu ▸ .refl⟩
      · rcases hnew t ht with ht | ht
        · exact Or.inr ⟨t, List.mem_cons_of_mem _ ht, hreach⟩
        · exact Or.inr ⟨s, List.mem_cons_self, ReflTransGen.head ht hreach⟩
    · refine hkept u ?_
      rcases hu with hu | hu
      · exact Or.inl (List.mem_append_left _ hu)
      · rcases List.mem_cons.mp hu with rfl | hu
        · exact Or.inl (by simp)
        · exact Or.inr (hold u hu)

/-- Searching from one more seed keeps the output in step with the marks. -/
theorem extend_explored (hsucc : ∀ u < n, ∀ v ∈ succ u, v < n) (h : Explored S succ n m out)
    (seed : ℕ) :
    Explored S succ n (extend S succ seed m [] out).1 (extend S succ seed m [] out).2 := by
  unfold extend
  split
  · exact h
  next hmark => exact (explore_spec hsucc (h.exploring.push (by simpa using hmark))).1

/-- Searching from one more seed adds exactly what the seed reaches. -/
theorem mem_extend (hsucc : ∀ u < n, ∀ v ∈ succ u, v < n) (h : Explored S succ n m out)
    {seed : ℕ} (hseed : seed < n) (u : ℕ) :
    u ∈ (extend S succ seed m [] out).2 ↔ u ∈ out ∨ Reach succ seed u := by
  unfold extend
  split
  next hmark =>
    have hin : seed ∈ out := (h.mem_iff seed).mpr ⟨hseed, hmark⟩
    exact ⟨Or.inl, fun hu => hu.elim id fun hr => h.mem_of_reach hin hr⟩
  next hmark =>
    obtain ⟨hdone, hsound, hkept⟩ :=
      explore_spec hsucc (h.exploring.push (by simpa using hmark))
    constructor
    · intro hu
      simpa using hsound u hu
    · rintro (hu | hr)
      · exact hkept u (Or.inl hu)
      · exact hdone.mem_of_reach (hkept seed (Or.inr List.mem_cons_self)) hr

/-- Searching from a list of seeds keeps the output in step with the marks and adds exactly what
the seeds reach. -/
theorem foldl_extend_spec (hsucc : ∀ u < n, ∀ v ∈ succ u, v < n) (h : Explored S succ n m out)
    {seeds : List ℕ} (hseeds : ∀ s ∈ seeds, s < n) :
    Explored S succ n
        (seeds.foldl (fun acc s => extend S succ s acc.1 [] acc.2) (m, out)).1
        (seeds.foldl (fun acc s => extend S succ s acc.1 [] acc.2) (m, out)).2 ∧
      ∀ u, u ∈ (seeds.foldl (fun acc s => extend S succ s acc.1 [] acc.2) (m, out)).2 ↔
        u ∈ out ∨ ∃ s ∈ seeds, Reach succ s u := by
  induction seeds generalizing m out with
  | nil => exact ⟨h, by simp⟩
  | cons s seeds ih =>
    have hs := hseeds s List.mem_cons_self
    obtain ⟨hdone, hmem⟩ :=
      ih (extend_explored hsucc h s) fun t ht => hseeds t (List.mem_cons_of_mem s ht)
    refine ⟨hdone, fun u => ?_⟩
    rw [List.foldl_cons, hmem u, mem_extend hsucc h hs]
    simp only [List.mem_cons, exists_eq_or_imp, or_assoc]

/-! ### Marking on pop -/

variable (S succ)

/-- Pops nodes until the stack is empty; a popped node that is not marked is marked and emitted,
and all its successors are pushed. -/
def drain (m : M) (stack : List ℕ) (out : List ℕ) : M × List ℕ :=
  match stack with
  | [] => (m, out)
  | s :: rest =>
    if _h : S.marked m s then drain m rest out
    else drain (S.mark m s) ((succ s).reverse ++ rest) (out ++ [s])
termination_by (unmarked S m, stack.length)
decreasing_by
  · exact Prod.Lex.right _ (by simp)
  · refine Prod.Lex.left _ _ ?_
    have := @unmarked_mark M S m s (by simpa using _h)
    omega

/-- The invariant of the loop that marks on pop: the marked nodes are those emitted, and their
successors are emitted or on the stack. -/
structure Draining (n : ℕ) (m : M) (stack out : List ℕ) : Prop where
  /-- The marks are for `n` nodes. -/
  size_eq : S.size m = n
  /-- No node is emitted twice. -/
  nodup : out.Nodup
  /-- The waiting nodes exist. -/
  stack_lt : ∀ u ∈ stack, u < n
  /-- The emitted nodes are the marked ones. -/
  mem_iff : ∀ u, u ∈ out ↔ u < n ∧ S.marked m u = true
  /-- The successors of emitted nodes are emitted or wait. -/
  closed : ∀ u ∈ out, ∀ v ∈ succ u, v ∈ out ∨ v ∈ stack

variable {S succ}

/-- A marked node is taken off the stack. -/
private theorem Draining.skip {s : ℕ} (h : Draining S succ n m (s :: stack) out)
    (hs : S.marked m s = true) : Draining S succ n m stack out where
  size_eq := h.size_eq
  nodup := h.nodup
  stack_lt u hu := h.stack_lt u (List.mem_cons_of_mem _ hu)
  mem_iff := h.mem_iff
  closed u hu v hv := by
    rcases h.closed u hu v hv with hv | hv
    · exact Or.inl hv
    · rcases List.mem_cons.mp hv with rfl | hv
      · exact Or.inl ((h.mem_iff v).mpr ⟨h.stack_lt v List.mem_cons_self, hs⟩)
      · exact Or.inr hv

/-- An unmarked node is emitted, and its successors wait. -/
private theorem Draining.visit {s : ℕ} (hsucc : ∀ u < n, ∀ v ∈ succ u, v < n)
    (h : Draining S succ n m (s :: stack) out) (hs : S.marked m s = false) :
    Draining S succ n (S.mark m s) ((succ s).reverse ++ stack) (out ++ [s]) := by
  have hsn := h.stack_lt s List.mem_cons_self
  have hlt := lt_size_of_marked_eq_false S hs
  -- what is not marked was not visited, so no vertex comes out twice
  have hnew : s ∉ out := by
    rw [h.mem_iff]
    simp [hs]
  refine ⟨by rw [S.size_mark, h.size_eq], ?_, ?_, fun u => ?_, ?_⟩
  · rw [List.nodup_append]
    refine ⟨h.nodup, by simp, fun a ha b hb => ?_⟩
    rw [List.mem_singleton.mp hb]
    exact fun e => hnew (e ▸ ha)
  · intro u hu
    rcases List.mem_append.mp hu with hu | hu
    · exact hsucc s hsn u (List.mem_reverse.mp hu)
    · exact h.stack_lt u (List.mem_cons_of_mem _ hu)
  · rw [S.marked_mark m s u hlt, List.mem_append, h.mem_iff u, List.mem_singleton]
    by_cases hus : u = s
    · simp [hus, hsn]
    · simp [hus]
  · intro u hu v hv
    rcases List.mem_append.mp hu with hu | hu
    · rcases h.closed u hu v hv with hv | hv
      · exact Or.inl (List.mem_append_left _ hv)
      · rcases List.mem_cons.mp hv with rfl | hv
        · exact Or.inl (by simp)
        · exact Or.inr (List.mem_append_right _ hv)
    · rw [List.mem_singleton.mp hu] at hv
      exact Or.inr (List.mem_append_left _ (List.mem_reverse.mpr hv))

/-- The loop that marks on pop ends in step with its marks, and what it adds is reachable from the
stack. -/
private theorem drain_spec (hsucc : ∀ u < n, ∀ v ∈ succ u, v < n)
    (h : Draining S succ n m stack out) :
    Explored S succ n (drain S succ m stack out).1 (drain S succ m stack out).2 ∧
      (∀ u ∈ (drain S succ m stack out).2, u ∈ out ∨ ∃ s ∈ stack, Reach succ s u) ∧
      (∀ u, u ∈ out ∨ u ∈ stack → u ∈ (drain S succ m stack out).2) := by
  -- one case for a stack that is empty, one for a vertex seen before, one for a new one
  induction m, stack, out using drain.induct S succ with
  | case1 m out =>
    rw [drain]
    refine ⟨⟨h.size_eq, h.nodup, h.mem_iff, by simpa using h.closed⟩, fun u hu => Or.inl hu, ?_⟩
    simp
  | case2 m out s rest hs ih =>
    obtain ⟨hdone, hsound, hkept⟩ := ih (h.skip hs)
    rw [drain, dif_pos hs]
    refine ⟨hdone, fun u hu => ?_, fun u hu => ?_⟩
    · rcases hsound u hu with hu | ⟨t, ht, hr⟩
      · exact Or.inl hu
      · exact Or.inr ⟨t, List.mem_cons_of_mem _ ht, hr⟩
    · rcases hu with hu | hu
      · exact hkept u (Or.inl hu)
      · rcases List.mem_cons.mp hu with rfl | hu
        · exact hkept u (Or.inl ((h.mem_iff u).mpr ⟨h.stack_lt u List.mem_cons_self, hs⟩))
        · exact hkept u (Or.inr hu)
  | case3 m out s rest hs ih =>
    obtain ⟨hdone, hsound, hkept⟩ := ih (h.visit hsucc (by simpa using hs))
    rw [drain, dif_neg hs]
    refine ⟨hdone, fun u hu => ?_, fun u hu => ?_⟩
    · rcases hsound u hu with hu | ⟨t, ht, hr⟩
      · rcases List.mem_append.mp hu with hu | hu
        · exact Or.inl hu
        · exact Or.inr ⟨s, List.mem_cons_self, by simpa using List.mem_singleton.mp hu ▸ .refl⟩
      · rcases List.mem_append.mp ht with ht | ht
        · exact Or.inr ⟨s, List.mem_cons_self, ReflTransGen.head (List.mem_reverse.mp ht) hr⟩
        · exact Or.inr ⟨t, List.mem_cons_of_mem _ ht, hr⟩
    · refine hkept u ?_
      rcases hu with hu | hu
      · exact Or.inl (List.mem_append_left _ hu)
      · rcases List.mem_cons.mp hu with rfl | hu
        · exact Or.inl (by simp)
        · exact Or.inr (List.mem_append_right _ hu)

/-- Marking on pop, from unmarked nodes: the output has no repeats and is exactly what the stack
reaches. -/
theorem drain_nodup (hsucc : ∀ u < n, ∀ v ∈ succ u, v < n) (hsize : S.size m = n)
    (hm : ∀ u < n, S.marked m u = false) (hstack : ∀ u ∈ stack, u < n) :
    (drain S succ m stack []).2.Nodup :=
  (drain_spec hsucc ⟨hsize, List.nodup_nil, hstack, fun u => by
    simpa using fun hu => hm u hu, by simp⟩).1.nodup

/-- The loop emits what some waiting node leads to. -/
theorem mem_drain (hsucc : ∀ u < n, ∀ v ∈ succ u, v < n) (hsize : S.size m = n)
    (hm : ∀ u < n, S.marked m u = false) (hstack : ∀ u ∈ stack, u < n) (u : ℕ) :
    u ∈ (drain S succ m stack []).2 ↔ ∃ s ∈ stack, Reach succ s u := by
  have hstart : Draining S succ n m stack [] :=
    ⟨hsize, List.nodup_nil, hstack, fun u => by simpa using fun hu => hm u hu, by simp⟩
  obtain ⟨hdone, hsound, hkept⟩ := drain_spec hsucc hstart
  constructor
  · intro hu
    simpa using hsound u hu
  · rintro ⟨s, hs, hr⟩
    exact hdone.mem_of_reach (hkept s (Or.inr hs)) hr

/-- What every single mark keeps, a search with marking on pop keeps. -/
theorem drain_marks_induction {P : M → Prop} (hmark : ∀ m s, P m → P (S.mark m s))
    {m : M} {stack out : List ℕ} (h : P m) : P (drain S succ m stack out).1 := by
  induction m, stack, out using drain.induct S succ with
  | case1 m out =>
    rw [drain]
    exact h
  | case2 m out s rest hs ih =>
    rw [drain, dif_pos hs]
    exact ih h
  | case3 m out s rest hs ih =>
    rw [drain, dif_neg hs]
    exact ih (hmark m s h)

/-! ### Two kinds of marks -/

/-- One boolean for each node. -/
def boolMarks : MarkStore (List Bool) where
  size := List.length
  marked m s := m.getD s true
  mark m s := m.set s true
  marked_of_size_le m s h := by simp [List.getD_eq_getElem?_getD, List.getElem?_eq_none h]
  size_mark m s := List.length_set
  marked_mark m s t h := by
    rcases eq_or_ne t s with rfl | hts
    · simp [List.getD_eq_getElem?_getD, h]
    · simp [List.getD_eq_getElem?_getD, List.getElem?_set_ne hts.symm, hts]

/-- One stamp for each node; a node is marked when its stamp is the current generation. -/
def generationMarks {G : Type*} [DecidableEq G] (generation : G) : MarkStore (List G) where
  size := List.length
  marked m s := decide (m.getD s generation = generation)
  mark m s := m.set s generation
  marked_of_size_le m s h := by simp [List.getD_eq_getElem?_getD, List.getElem?_eq_none h]
  size_mark m s := List.length_set
  marked_mark m s t h := by
    rcases eq_or_ne t s with rfl | hts
    · simp [List.getD_eq_getElem?_getD, h]
    · simp [List.getD_eq_getElem?_getD, List.getElem?_set_ne hts.symm, hts]

/-! ### Generations -/

/-- The next generation of stamps. When the counter wraps, all stamps are cleared. -/
def nextGeneration (seen : List UInt32) (generation : UInt32) : List UInt32 × UInt32 :=
  if generation + 1 = 0 then (seen.map fun _ => 0, 1) else (seen, generation + 1)

/-- There are `n` stamps, and none is newer than the current generation. -/
structure Stamps (n : ℕ) (seen : List UInt32) (generation : UInt32) : Prop where
  /-- There is a stamp for every node. -/
  length_eq : seen.length = n
  /-- No stamp is newer than the generation. -/
  le_generation : ∀ stamp ∈ seen, stamp ≤ generation

section Stamps

variable {seen : List UInt32} {generation : UInt32}

/-- Stamps that were never written. -/
theorem stamps_replicate (n : ℕ) : Stamps n (List.replicate n 0) 0 where
  length_eq := List.length_replicate
  le_generation stamp hstamp := by
    rw [List.eq_of_mem_replicate hstamp]
    exact UInt32.le_refl _

/-- A new generation keeps the stamps in order, and no stamp is its own yet. -/
theorem Stamps.next (h : Stamps n seen generation) :
    Stamps n (nextGeneration seen generation).1 (nextGeneration seen generation).2 ∧
      ∀ stamp ∈ (nextGeneration seen generation).1,
        stamp ≠ (nextGeneration seen generation).2 := by
  unfold nextGeneration
  by_cases hwrap : generation + 1 = 0
  · rw [if_pos hwrap]
    have hzero : ∀ stamp ∈ seen.map fun _ => (0 : UInt32), stamp = 0 := by
      intro stamp hstamp
      obtain ⟨old, -, rfl⟩ := List.mem_map.mp hstamp
      rfl
    refine ⟨⟨by rw [List.length_map, h.length_eq], fun stamp hstamp => ?_⟩, fun stamp hstamp => ?_⟩
    · rw [hzero stamp hstamp]
      show (0 : UInt32) ≤ 1
      decide
    · rw [hzero stamp hstamp]
      show (0 : UInt32) ≠ 1
      decide
  · rw [if_neg hwrap]
    -- without a wrap the generation grows, and all stamps are at most the old one
    have hlt : generation < generation + 1 := by
      rw [UInt32.lt_iff_toNat_lt, UInt32.toNat_add]
      have hne : (generation + 1).toNat ≠ 0 := fun h => hwrap (UInt32.toNat_inj.mp h)
      rw [UInt32.toNat_add] at hne
      have hbound := generation.toNat_lt
      have hone : (1 : UInt32).toNat = 1 := rfl
      rw [hone] at hne ⊢
      omega
    refine ⟨⟨h.length_eq, fun stamp hstamp => ?_⟩, fun stamp hstamp => ?_⟩
    · exact UInt32.le_trans (h.le_generation stamp hstamp) (UInt32.le_of_lt hlt)
    · have hle : stamp ≤ generation := h.le_generation stamp hstamp
      intro heq
      have heq : stamp = generation + 1 := heq
      rw [heq] at hle
      exact absurd hle (UInt32.not_le.mpr hlt)

/-- In a new generation nothing is marked. -/
theorem Stamps.marked_next (h : Stamps n seen generation) {u : ℕ} (hu : u < n) :
    (generationMarks (nextGeneration seen generation).2).marked
      (nextGeneration seen generation).1 u = false := by
  obtain ⟨hstamps, hfresh⟩ := h.next
  have hlt : u < (nextGeneration seen generation).1.length := hstamps.length_eq ▸ hu
  refine decide_eq_false ?_
  rw [List.getD_eq_getElem _ _ hlt]
  exact hfresh _ (List.getElem_mem hlt)

/-- Marking writes the current generation. -/
theorem Stamps.mark (h : Stamps n seen generation) (s : ℕ) :
    Stamps n ((generationMarks generation).mark seen s) generation where
  length_eq := ((generationMarks generation).size_mark seen s).trans h.length_eq
  le_generation stamp hstamp := by
    cases List.mem_or_eq_of_mem_set hstamp with
    | inl hold => exact h.le_generation stamp hold
    | inr heq => exact heq ▸ UInt32.le_refl _

/-- Searches keep the stamps in order. -/
theorem Stamps.foldl_extend (h : Stamps n seen generation) (seeds out : List ℕ) :
    Stamps n (seeds.foldl (fun acc s => extend (generationMarks generation) succ s acc.1 [] acc.2)
      (seen, out)).1 generation := by
  induction seeds generalizing seen out with
  | nil => exact h
  | cons seed seeds ih =>
    have hfirst : Stamps n (extend (generationMarks generation) succ seed seen [] out).1
        generation :=
      @extend_marks_induction _ (generationMarks generation) succ
        (fun marks => Stamps n marks generation) (fun _ s hmarks => hmarks.mark s) seed _ _ _ h
    exact ih hfirst _

/-- The loop stamps with the current generation. -/
theorem Stamps.drain (h : Stamps n seen generation) (stack out : List ℕ) :
    Stamps n (MarkedSearch.drain (generationMarks generation) succ seen stack out).1 generation :=
  @drain_marks_induction _ (generationMarks generation) succ
    (fun marks => Stamps n marks generation) (fun _ s hmarks => hmarks.mark s) _ _ _ h

end Stamps

end MarkedSearch

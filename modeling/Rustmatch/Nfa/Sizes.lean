import Mathlib.Data.Finset.Card
import Mathlib.Data.Finset.Lattice.Basic
import Rustmatch.Nfa.SharedCohorts
import Rustmatch.ToMathlib.MeteredComputations

/-!
# How large a compiled set is

States and predicates have ids of 32 bits, and that is the only limit the compiler knows. The number
of states and the classes that a set of patterns needs can be read off their expressions; the
compiler succeeds exactly when they fit, and then allocates exactly those.

## Main definitions

* `Hir.stateCount`, `Hir.classes`: the states and the classes of an expression;
* `Footprint`: states and classes together;
* `Compilation.meter`: what a context has used;
* `Allocates`: the outcome of a compiler that allocates exactly what is needed.

## Main results

* `spends_compileExpression`: what the compiler spends on an expression;
* `database_sizes`: the sizes of databases.
-/

namespace Rustmatch

/-! ### What expressions need -/

/-- States, and the classes that have an id. -/
@[ext]
structure Footprint where
  /-- The number of states. -/
  states : ℕ
  /-- The classes, each counted once. -/
  classes : Finset SymbolPredicate

namespace Footprint

instance : Add Footprint := ⟨fun a b => ⟨a.states + b.states, a.classes ∪ b.classes⟩⟩

instance : Zero Footprint := ⟨⟨0, ∅⟩⟩

instance : AddCommMonoid Footprint where
  add_assoc a b c := Footprint.ext (Nat.add_assoc _ _ _) (Finset.union_assoc _ _ _)
  zero_add a := Footprint.ext (Nat.zero_add _) (Finset.empty_union _)
  add_zero a := Footprint.ext (Nat.add_zero _) (Finset.union_empty _)
  add_comm a b := Footprint.ext (Nat.add_comm _ _) (Finset.union_comm _ _)
  nsmul := nsmulRec

/-- States are counted for each part. -/
@[simp]
theorem add_states (a b : Footprint) : (a + b).states = a.states + b.states := rfl

/-- Classes are shared between the parts. -/
@[simp]
theorem add_classes (a b : Footprint) : (a + b).classes = a.classes ∪ b.classes := rfl

/-- Nothing has no states. -/
@[simp]
theorem zero_states : (0 : Footprint).states = 0 := rfl

/-- Nothing has no classes. -/
@[simp]
theorem zero_classes : (0 : Footprint).classes = ∅ := rfl

/-- Both fit into ids of 32 bits. -/
def Fits (footprint : Footprint) : Prop :=
  footprint.states ≤ 2 ^ 32 ∧ footprint.classes.card ≤ 2 ^ 32

instance (footprint : Footprint) : Decidable footprint.Fits :=
  inferInstanceAs (Decidable (_ ∧ _))

end Footprint

namespace Hir

mutual

/-- The states that a fragment needs between its start and its end. Copies are joined by a state
each, and a loop has a state of its own. -/
def stateCount : Hir → ℕ
  | .never | .epsilon | .assertion _ | .symbol _ | .predicate _ => 0
  | .sequence expressions => stateCountAll expressions + (expressions.length - 1)
  | .alternation expressions => stateCountAll expressions
  | .repetition expression min none => (min + 1) * (expression.stateCount + 1)
  | .repetition expression min (some limit) =>
    if limit < min then min * (expression.stateCount + 1)
    else limit * expression.stateCount + (limit - 1)

/-- The states of all the expressions of a list. -/
def stateCountAll : List Hir → ℕ
  | [] => 0
  | expression :: rest => expression.stateCount + stateCountAll rest

end

mutual

/-- The classes that a fragment asks for. A repetition without copies asks for none. -/
def classes : Hir → Finset SymbolPredicate
  | .never | .epsilon | .assertion _ | .symbol _ => ∅
  | .predicate p => {p}
  | .sequence expressions | .alternation expressions => classesAll expressions
  | .repetition expression min max => if min = 0 ∧ max = some 0 then ∅ else expression.classes

/-- The classes of all the expressions of a list. -/
def classesAll : List Hir → Finset SymbolPredicate
  | [] => ∅
  | expression :: rest => expression.classes ∪ classesAll rest

end

/-- What a fragment needs. -/
def footprint (h : Hir) : Footprint := ⟨h.stateCount, h.classes⟩

end Hir

/-! ### What a context has used -/

namespace Compilation

/-- States and predicates have ids of 32 bits, and no predicate has two. -/
structure Counted (c : Compilation) : Prop where
  /-- Every state has a list of ordinals. -/
  terminals_length : c.terminals.length = c.size
  /-- Every state has an id. -/
  size_le : c.size ≤ 2 ^ 32
  /-- Every class has an id. -/
  length_le : c.predicates.length ≤ 2 ^ 32
  /-- No class has two. -/
  nodup : c.predicates.Nodup
  /-- The classes with an id are the interned ones. -/
  lookup_isSome : ∀ p, (c.predicateIds.lookup p).isSome = true ↔ p ∈ c.predicates

/-- The states and the classes of a context. -/
def footprint (c : Compilation) : Footprint := ⟨c.size, c.predicates.toFinset⟩

/-- Contexts use states and classes, and `PatternSetTooLarge` is how they run out. -/
def meter : Meter Compilation Footprint Error where
  used := footprint
  Sound := Counted
  Fits := Footprint.Fits
  exceeded := .patternSetTooLarge
  fits_of_add := by
    intro a b h
    exact ⟨(Nat.le_add_right _ _).trans h.1,
      (Finset.card_le_card Finset.subset_union_left).trans h.2⟩
  fits_used := by
    intro c hc
    refine ⟨hc.size_le, ?_⟩
    show c.predicates.toFinset.card ≤ 2 ^ 32
    rw [List.toFinset_card_of_nodup hc.nodup]
    exact hc.length_le

variable {c : Compilation}

/-- A new state. -/
theorem spends_addState (hc : c.Counted) :
    meter.Spends c ⟨1, ∅⟩ Prod.snd c.addState := by
  unfold addState forIndex
  split
  next hlt =>
    refine .ok ⟨?_, ?_, hc.length_le, hc.nodup, hc.lookup_isSome⟩ ?_
    · have hterminals := hc.terminals_length
      simp only [size, List.length_append, List.length_singleton] at hterminals ⊢
      rw [hterminals]
    · simp only [size, List.length_append, List.length_singleton]
      exact hlt
    · refine Footprint.ext ?_ (Finset.union_empty _).symm
      simp [meter, footprint, size]
  next hge =>
    refine .error fun hfits => hge ?_
    exact hfits.1

/-- A predicate is interned. -/
theorem spends_internPredicate (hc : c.Counted) (p : SymbolPredicate) :
    meter.Spends c ⟨0, {p}⟩ Prod.snd (c.internPredicate p) := by
  unfold internPredicate
  split
  next id hknown =>
    -- a known class is counted already
    have hmem : p ∈ c.predicates := (hc.lookup_isSome p).mp (by rw [hknown]; rfl)
    refine .ok hc (Footprint.ext rfl ?_)
    show c.predicates.toFinset = c.predicates.toFinset ∪ {p}
    rw [Finset.union_eq_left.mpr]
    exact Finset.singleton_subset_iff.mpr (List.mem_toFinset.mpr hmem)
  next hunknown =>
    have hnew : p ∉ c.predicates := by
      intro hmem
      rw [← hc.lookup_isSome, hunknown] at hmem
      cases hmem
    have hnodup : (c.predicates ++ [p]).Nodup :=
      List.nodup_append.mpr ⟨hc.nodup, List.nodup_singleton p, by
        intro q hq r hr heq
        obtain rfl := List.mem_singleton.mp hr
        exact hnew (heq ▸ hq)⟩
    have hclasses : (c.predicates ++ [p]).toFinset = c.predicates.toFinset ∪ {p} := by
      rw [List.toFinset_append]
      rfl
    unfold forIndex
    split
    next hlt =>
      refine .ok ⟨hc.terminals_length, hc.size_le, ?_, hnodup, fun q => ?_⟩
        (Footprint.ext rfl hclasses)
      · rw [List.length_append]
        exact hlt
      · show (List.lookup q ((p, _) :: c.predicateIds)).isSome = true ↔ q ∈ c.predicates ++ [p]
        rw [List.lookup_cons, List.mem_append, List.mem_singleton, ← hc.lookup_isSome]
        by_cases hq : q = p
        · simp [hq]
        · rw [beq_eq_false_iff_ne.mpr hq, or_iff_left hq]
    next hge =>
      refine .error fun hfits => hge ?_
      have hcard : (c.predicates.toFinset ∪ {p}).card ≤ 2 ^ 32 := hfits.2
      rw [← hclasses, List.toFinset_card_of_nodup hnodup, List.length_append] at hcard
      exact hcard

/-- Edges are free. -/
theorem counted_pushEdge (hc : c.Counted) (start : StateId) (edge : Edge) :
    (c.pushEdge start edge).Counted ∧ (c.pushEdge start edge).footprint = c.footprint := by
  have hsize : (c.pushEdge start edge).size = c.size := by
    simp [pushEdge, size]
  exact ⟨⟨hc.terminals_length.trans hsize.symm, hsize ▸ hc.size_le, hc.length_le, hc.nodup,
    hc.lookup_isSome⟩, Footprint.ext hsize rfl⟩

/-- Terminals are free. -/
theorem counted_pushTerminal (hc : c.Counted) (state : StateId) (ordinal : ℕ) :
    (c.pushTerminal state ordinal).Counted ∧
      (c.pushTerminal state ordinal).footprint = c.footprint := by
  refine ⟨⟨?_, hc.size_le, hc.length_le, hc.nodup, hc.lookup_isSome⟩, rfl⟩
  have hterminals := hc.terminals_length
  simpa [pushTerminal, size] using hterminals

end Compilation

/-! ### What the compiler spends -/

open Compilation

/-- A compiler spends the same between any two states and on any context. -/
def Compiler.Spends (body : Compiler) (amount : Footprint) : Prop :=
  ∀ start stop {c : Compilation}, c.Counted → meter.Spends c amount id (body start stop c)

namespace Footprint

/-- So many copies, which share their classes. -/
def copies (n : ℕ) (body : Footprint) : Footprint :=
  ⟨n * body.states, if n = 0 then ∅ else body.classes⟩

/-- One copy and some more. -/
theorem copies_succ (n : ℕ) (body : Footprint) : copies (n + 1) body = body + copies n body := by
  refine Footprint.ext ?_ ?_
  · simp only [copies, add_states]
    rw [Nat.succ_mul, Nat.add_comm]
  · cases n with
    | zero => simp [copies]
    | succ n => simp [copies]

/-- As many copies from one side and from the other. -/
theorem copies_add (m n : ℕ) (body : Footprint) :
    copies (m + n) body = copies m body + copies n body := by
  induction m with
  | zero =>
    have hnothing : copies 0 body = 0 := by
      simp [copies, Footprint.ext_iff]
    rw [Nat.zero_add, hnothing, zero_add]
  | succ m ih => rw [Nat.succ_add, copies_succ, copies_succ, ih, add_assoc]

/-- What a repetition needs: its copies, and the states between them. Copies are joined by a state
each, and what is unbounded ends in a loop with a copy and a state of its own. -/
def repeated (min : ℕ) (max : Option ℕ) (body : Footprint) : Footprint :=
  match max with
  | none => copies (min + 1) body + ⟨min + 1, ∅⟩
  | some limit =>
    if limit < min then copies min body + ⟨min, ∅⟩ else copies limit body + ⟨limit - 1, ∅⟩

end Footprint

section Repetitions

variable {body : Compiler} {amount : Footprint} {c : Compilation}

/-- A state in between, or the end that is there already, and what follows. -/
theorem spends_joint {τ : Type} {state : τ → Compilation} {rest : Footprint}
    {next : StateId × Compilation → Except Error τ} (hc : c.Counted) (last : Prop)
    [Decidable last] (stop : StateId)
    (hnext : ∀ joint c', c'.Counted → meter.Spends c' rest state (next (joint, c'))) :
    meter.Spends c (⟨if last then 0 else 1, ∅⟩ + rest) state
      (if last then .ok (stop, c) >>= next else c.addState >>= next) := by
  split
  · have hnothing : (⟨0, ∅⟩ : Footprint) + rest = rest := zero_add rest
    rw [hnothing]
    exact hnext stop c hc
  · refine (spends_addState hc).bind ?_
    rintro ⟨joint, c'⟩ hc'
    exact hnext joint c' hc'

/-- The required copies, with a state behind each, or behind each but the last. -/
theorem spends_compileRequired (hbody : body.Spends amount) (hc : c.Counted) (exact : Bool)
    (stop : StateId) (n : ℕ) (current : StateId) :
    meter.Spends c (Footprint.copies n amount + ⟨if exact then n - 1 else n, ∅⟩) Prod.snd
      (compileRequired body exact stop n current c) := by
  induction n generalizing current c with
  | zero =>
    have hnothing : Footprint.copies 0 amount + ⟨if exact then 0 - 1 else 0, ∅⟩ = 0 := by
      refine Footprint.ext ?_ ?_
      · cases exact <;> simp [Footprint.copies]
      · simp [Footprint.copies]
    rw [hnothing]
    exact .free hc rfl
  | succ n ih =>
    have hsum : Footprint.copies (n + 1) amount + ⟨if exact then n + 1 - 1 else n + 1, ∅⟩ =
        ⟨if (n = 0 && exact) = true then 0 else 1, ∅⟩ +
          (amount + (Footprint.copies n amount + ⟨if exact then n - 1 else n, ∅⟩)) := by
      rw [Footprint.copies_succ]
      refine Footprint.ext ?_ ?_
      · cases exact <;> cases n <;> simp <;> omega
      · simp
    rw [hsum]
    unfold compileRequired
    refine spends_joint hc ((n = 0 && exact) = true) stop fun next c' hc' => ?_
    exact (hbody current next hc').bind fun c'' hc'' => ih hc'' next

/-- The optional copies, with a state behind each but the last. -/
theorem spends_compileOptional (hbody : body.Spends amount) (hc : c.Counted) (stop : StateId)
    (n : ℕ) (current : StateId) :
    meter.Spends c (Footprint.copies n amount + ⟨n - 1, ∅⟩) id
      (compileOptional body stop n current c) := by
  induction n generalizing current c with
  | zero =>
    have hnothing : Footprint.copies 0 amount + ⟨0 - 1, ∅⟩ = 0 :=
      Footprint.ext (by simp [Footprint.copies]) (by simp [Footprint.copies])
    rw [hnothing]
    exact .free hc rfl
  | succ n ih =>
    obtain ⟨hedge, hsame⟩ := counted_pushEdge hc current ⟨.epsilon, stop⟩
    have hsum : Footprint.copies (n + 1) amount + ⟨n + 1 - 1, ∅⟩ =
        ⟨if n = 0 then 0 else 1, ∅⟩ + (amount + (Footprint.copies n amount + ⟨n - 1, ∅⟩)) := by
      rw [Footprint.copies_succ]
      refine Footprint.ext ?_ ?_
      · cases n with
        | zero => simp
        | succ n =>
          simp
          omega
      · simp
    rw [hsum]
    unfold compileOptional
    refine .of_used_eq hsame ?_
    refine spends_joint hedge (n = 0) stop fun next c' hc' => ?_
    exact (hbody current next hc').bind fun c'' hc'' => ih hc'' next

/-- A loop behind the required copies. -/
theorem spends_loop (hbody : body.Spends amount) (hc : c.Counted) (current stop : StateId) :
    meter.Spends c (⟨1, ∅⟩ + amount) id (do
      let (loopEnd, c) ← (c.addEpsilon current stop).addState
      let c ← body current loopEnd c
      return c.addEpsilon loopEnd current) := by
  obtain ⟨hedge, hsame⟩ := counted_pushEdge hc current ⟨.epsilon, stop⟩
  refine .of_used_eq hsame ((spends_addState hedge).bind ?_)
  rintro ⟨loopEnd, c'⟩ hc'
  rw [← add_zero amount]
  refine (hbody current loopEnd hc').bind fun c'' hc'' => ?_
  obtain ⟨hback, hkept⟩ := counted_pushEdge hc'' loopEnd ⟨.epsilon, current⟩
  exact .free hback hkept

/-- A repetition is its copies and its joints. -/
theorem spends_compileRepetition (hbody : body.Spends amount) (min : ℕ) (max : Option ℕ) :
    Compiler.Spends (compileRepetition body min max) (amount.repeated min max) := by
  intro start stop c hc
  have hrequired := spends_compileRequired hbody hc (max == some min) stop min start
  unfold compileRepetition
  cases max with
  | none =>
    have hsum : amount.repeated min none =
        Footprint.copies min amount + ⟨min, ∅⟩ + (⟨1, ∅⟩ + amount) := by
      rw [Footprint.repeated, Footprint.copies_succ]
      refine Footprint.ext ?_ ?_
      · simp only [Footprint.add_states]
        omega
      · simp [Finset.union_comm]
    rw [hsum]
    refine hrequired.bind ?_
    rintro ⟨current, c'⟩ hc'
    exact spends_loop hbody hc' current stop
  | some limit =>
    by_cases hexact : limit = min
    · -- an exact count ends with the required copies, or with an edge if there are none
      subst hexact
      have hsum : amount.repeated limit (some limit) =
          Footprint.copies limit amount + ⟨limit - 1, ∅⟩ + 0 := by
        rw [add_zero, Footprint.repeated, if_neg (lt_irrefl limit)]
      rw [beq_self_eq_true] at hrequired ⊢
      rw [hsum]
      refine hrequired.bind ?_
      rintro ⟨current, c'⟩ hc'
      simp only [if_true]
      split
      · obtain ⟨hedge, hkept⟩ := counted_pushEdge hc' start ⟨.epsilon, stop⟩
        exact .free hedge hkept
      · exact .free hc' rfl
    · have hsum : amount.repeated min (some limit) =
          Footprint.copies min amount + ⟨min, ∅⟩ +
            (Footprint.copies (limit - min) amount + ⟨limit - min - 1, ∅⟩) := by
        rw [Footprint.repeated]
        split
        next hlt =>
          have hnothing : Footprint.copies 0 amount + ⟨0 - 1, ∅⟩ = 0 := by
            simp [Footprint.copies, Footprint.ext_iff]
          rw [Nat.sub_eq_zero_of_le hlt.le, hnothing, add_zero]
        next hle =>
          have hsplit : limit = min + (limit - min) := by omega
          have hjoints : (⟨limit - 1, ∅⟩ : Footprint) = ⟨min, ∅⟩ + ⟨limit - min - 1, ∅⟩ :=
            Footprint.ext (by simp; omega) (by simp)
          rw [hjoints]
          nth_rewrite 1 [hsplit]
          rw [Footprint.copies_add, add_add_add_comm]
      have hne : (some limit == some min) = false := by
        simpa using hexact
      rw [hne] at hrequired ⊢
      rw [hsum]
      refine hrequired.bind ?_
      rintro ⟨current, c'⟩ hc'
      simp only [if_neg hexact]
      exact spends_compileOptional hbody hc' stop (limit - min) current

end Repetitions

/-! ### Expressions and patterns -/

/-- The items of a sequence, with a state between any two of them. -/
theorem spends_compileItems {es : List Hir}
    (h : ∀ e ∈ es, (compileExpression e).Spends e.footprint) :
    (compileItems es).Spends ⟨Hir.stateCountAll es + (es.length - 1), Hir.classesAll es⟩ := by
  induction es with
  | nil =>
    intro start stop c hc
    exact .free hc rfl
  | cons e rest ih =>
    intro start stop c hc
    obtain ⟨hfirst, hrest⟩ := List.forall_mem_cons.mp h
    have hsum : (⟨Hir.stateCountAll (e :: rest) + ((e :: rest).length - 1),
          Hir.classesAll (e :: rest)⟩ : Footprint) =
        ⟨if rest.isEmpty = true then 0 else 1, ∅⟩ + (e.footprint +
          ⟨Hir.stateCountAll rest + (rest.length - 1), Hir.classesAll rest⟩) := by
      refine Footprint.ext ?_ ?_
      · cases rest with
        | nil => simp [Hir.stateCountAll, Hir.footprint]
        | cons e' rest =>
          simp [Hir.stateCountAll, Hir.footprint]
          omega
      · simp [Hir.classesAll, Hir.footprint]
    rw [hsum, compileItems]
    refine spends_joint hc (rest.isEmpty = true) stop fun next c' hc' => ?_
    exact (hfirst start next hc').bind fun c'' hc'' => ih hrest next stop hc''

/-- The branches of an alternation. -/
theorem spends_compileBranches {es : List Hir}
    (h : ∀ e ∈ es, (compileExpression e).Spends e.footprint) :
    (compileBranches es).Spends ⟨Hir.stateCountAll es, Hir.classesAll es⟩ := by
  induction es with
  | nil =>
    intro start stop c hc
    exact .free hc rfl
  | cons e rest ih =>
    intro start stop c hc
    obtain ⟨hfirst, hrest⟩ := List.forall_mem_cons.mp h
    have hsum : (⟨Hir.stateCountAll (e :: rest), Hir.classesAll (e :: rest)⟩ : Footprint) =
        e.footprint + ⟨Hir.stateCountAll rest, Hir.classesAll rest⟩ :=
      Footprint.ext (by simp [Hir.stateCountAll, Hir.footprint])
        (by simp [Hir.classesAll, Hir.footprint])
    rw [hsum, compileBranches]
    exact (hfirst start stop hc).bind fun c' hc' => ih hrest start stop hc'

/-- The copies of a repetition share their classes. -/
theorem footprint_repetition (e : Hir) (min : ℕ) (max : Option ℕ) :
    (Hir.repetition e min max).footprint = e.footprint.repeated min max := by
  cases max with
  | none =>
    refine Footprint.ext ?_ ?_
    · simp only [Hir.footprint, Hir.stateCount, Footprint.repeated, Footprint.copies,
        Footprint.add_states]
      exact Nat.mul_succ _ _
    · simp [Hir.footprint, Hir.classes, Footprint.repeated, Footprint.copies]
  | some limit =>
    rw [Footprint.repeated]
    split
    next hlt =>
      have hmin : min ≠ 0 := by omega
      refine Footprint.ext ?_ ?_
      · simp only [Hir.footprint, Hir.stateCount, if_pos hlt, Footprint.copies,
          Footprint.add_states]
        exact Nat.mul_succ _ _
      · simp [Hir.footprint, Hir.classes, Footprint.copies, hmin]
    next hle =>
      refine Footprint.ext ?_ ?_
      · simp only [Hir.footprint, Hir.stateCount, if_neg hle, Footprint.copies,
          Footprint.add_states]
      · have hnone : (min = 0 ∧ some limit = some 0) ↔ limit = 0 := by
          rw [Option.some.injEq]
          omega
        simp only [Hir.footprint, Hir.classes, hnone, Footprint.copies, Footprint.add_classes,
          Finset.union_empty]

/-- The compiler spends what an expression needs. -/
theorem spends_compileExpression (h : Hir) : (compileExpression h).Spends h.footprint := by
  have hedge (kind : EdgeKind) :
      Compiler.Spends (fun start stop c => .ok (c.pushEdge start ⟨kind, stop⟩)) 0 := by
    intro start stop c hc
    obtain ⟨hedge, hkept⟩ := counted_pushEdge hc start ⟨kind, stop⟩
    exact .free hedge hkept
  induction h with
  | never =>
    intro start stop c hc
    exact .free hc rfl
  | epsilon => exact hedge .epsilon
  | assertion a => exact hedge (.assertion a)
  | symbol s => exact hedge (.symbol s)
  | predicate p =>
    intro start stop c hc
    have hsum : (Hir.predicate p).footprint = ⟨0, {p}⟩ + 0 := by
      rw [add_zero]
      rfl
    rw [hsum, compileExpression]
    refine (spends_internPredicate hc p).bind ?_
    rintro ⟨id, c'⟩ hc'
    exact hedge (.predicate id) start stop hc'
  | sequence es ih => exact spends_compileItems ih
  | alternation es ih => exact spends_compileBranches ih
  | repetition e min max ih =>
    rw [footprint_repetition]
    exact spends_compileRepetition ih min max

/-- A pattern needs two states around its expression. -/
def HirPattern.footprint (pattern : HirPattern) : Footprint :=
  ⟨2, ∅⟩ + pattern.expression.footprint

/-- The compiler spends what a pattern needs. -/
theorem spends_compilePattern {c : Compilation} (hc : c.Counted) (root : StateId) (ordinal : ℕ)
    (pattern : HirPattern) :
    meter.Spends c pattern.footprint id (compilePattern root ordinal pattern c) := by
  have hsum : pattern.footprint =
      ⟨1, ∅⟩ + (⟨1, ∅⟩ + (pattern.expression.footprint + 0)) := by
    rw [add_zero, ← add_assoc]
    rfl
  rw [hsum]
  unfold compilePattern
  refine (spends_addState hc).bind ?_
  rintro ⟨first, c₁⟩ hc₁
  refine (spends_addState hc₁).bind ?_
  rintro ⟨terminal, c₂⟩ hc₂
  obtain ⟨hedge, hkept⟩ := counted_pushEdge hc₂ root ⟨.epsilon, first⟩
  refine .of_used_eq hkept ?_
  refine (spends_compileExpression pattern.expression first terminal hedge).bind fun c₃ hc₃ => ?_
  obtain ⟨hterminal, hsame⟩ := counted_pushTerminal hc₃ terminal ordinal
  exact .free hterminal hsame

/-- The compiler spends what its patterns need. -/
theorem spends_compilePatterns (rootOf : HirPattern → StateId) (patterns : List HirPattern)
    {c : Compilation} (hc : c.Counted) (ordinal : ℕ) :
    meter.Spends c (patterns.map HirPattern.footprint).sum id
      (compilePatterns rootOf patterns ordinal c) := by
  induction patterns generalizing ordinal c with
  | nil => exact .free hc rfl
  | cons pattern rest ih =>
    rw [List.map_cons, List.sum_cons]
    exact (spends_compilePattern hc (rootOf pattern) ordinal pattern).bind
      fun c' hc' => ih hc' (ordinal + 1)

/-! ### Databases -/

/-- What a database needs: its roots, the states of every pattern, and each class once. -/
def patternSetFootprint (roots : ℕ) (patterns : List HirPattern) : Footprint where
  states := roots + (patterns.map fun pattern => pattern.expression.stateCount + 2).sum
  classes := Hir.classesAll (patterns.map HirPattern.expression)

/-- The footprint of the patterns, with the roots on top. -/
theorem patternSetFootprint_eq (roots : ℕ) (patterns : List HirPattern) :
    patternSetFootprint roots patterns =
      ⟨roots, ∅⟩ + (patterns.map HirPattern.footprint).sum := by
  induction patterns with
  | nil => rfl
  | cons pattern rest ih =>
    have hall := Footprint.ext_iff.mp ih
    rw [List.map_cons, List.sum_cons, ← add_assoc, add_comm (⟨roots, ∅⟩ : Footprint), add_assoc,
      ← ih]
    refine Footprint.ext ?_ ?_
    · simp [patternSetFootprint, HirPattern.footprint, Hir.footprint]
      omega
    · simp [patternSetFootprint, HirPattern.footprint, Hir.footprint, Hir.classesAll]

/-- The states and the classes of a database. -/
def PatternDatabase.footprint (database : PatternDatabase) : Footprint :=
  ⟨database.stateCount, database.predicates.toFinset⟩

/-- A database has exactly the states and the classes that it needs, none of them twice, or there is
no room for them. -/
inductive Allocates (needed : Footprint) : Except Error PatternDatabase → Prop
  /-- There is room, and what is needed is there. -/
  | ok {database : PatternDatabase} (hfits : needed.Fits) (heq : database.footprint = needed)
      (hnodup : database.predicates.Nodup) : Allocates needed (.ok database)
  /-- There is no room. -/
  | error (hfits : ¬ needed.Fits) : Allocates needed (.error .patternSetTooLarge)

/-- A compilation with so many roots. -/
theorem allocates_compilePatterns (rootOf : HirPattern → StateId) (patterns : List HirPattern)
    {roots : ℕ} (hroots : roots ≤ 2 ^ 32) (usesAssertions : Bool) :
    Allocates (patternSetFootprint roots patterns)
      ((compilePatterns rootOf patterns 0
        ⟨List.replicate roots [], List.replicate roots [], [], []⟩).map
          fun c => c.database 0 patterns usesAssertions) := by
  have hstart : Compilation.Counted
      ⟨List.replicate roots [], List.replicate roots [], [], []⟩ := by
    refine ⟨by simp [size], by simpa [size] using hroots, Nat.zero_le _, List.nodup_nil,
      fun p => iff_of_false ?_ List.not_mem_nil⟩
    rintro ⟨⟩
  have hspends := spends_compilePatterns rootOf patterns hstart 0
  have hneeded : meter.used ⟨List.replicate roots [], List.replicate roots [], [], []⟩ +
      (patterns.map HirPattern.footprint).sum = patternSetFootprint roots patterns := by
    rw [patternSetFootprint_eq]
    congr 1
    exact Footprint.ext List.length_replicate rfl
  generalize compilePatterns rootOf patterns 0
    ⟨List.replicate roots [], List.replicate roots [], [], []⟩ = call at hspends
  cases call with
  | ok c =>
    obtain ⟨(hc : c.Counted), hused, hfits⟩ := hspends.of_ok
    rw [hneeded] at hused hfits
    refine .ok hfits ?_ hc.nodup
    rw [← hused]
    refine Footprint.ext ?_ rfl
    show c.layout.states.length = c.size
    rw [c.holds_layout.length_eq, List.length_zip, hc.terminals_length]
    exact Nat.min_self _
  | error e =>
    obtain ⟨rfl, hfits⟩ := hspends.of_error
    rw [hneeded] at hfits
    exact .error hfits

/-- A database of its own has one root. -/
theorem allocates_compile (patterns : List HirPattern) :
    Allocates (patternSetFootprint 1 patterns) (compile patterns) := by
  have hone := allocates_compilePatterns (fun _ => 0) patterns (by decide : 1 ≤ 2 ^ 32)
    (patterns.any fun pattern => pattern.expression.usesAssertions)
  -- what comes after the loop over the patterns cannot fail
  show Allocates _ (compilePatterns (fun _ => 0) patterns 0
    ⟨List.replicate 1 [], List.replicate 1 [], [], []⟩ >>= fun c => _)
  cases hrun : compilePatterns (fun _ => 0) patterns 0
      ⟨List.replicate 1 [], List.replicate 1 [], [], []⟩ with
  | ok c =>
    rw [hrun] at hone
    exact hone
  | error e =>
    rw [hrun] at hone
    exact hone

/-- A shared database has two. -/
theorem allocates_compileSharedCohorts (patterns : List HirPattern) :
    Allocates (patternSetFootprint 2 patterns)
      ((compileSharedCohorts patterns).map SharedCohortCompilation.database) := by
  have htwo := allocates_compilePatterns cohortRoot patterns (by decide : 2 ≤ 2 ^ 32) false
  show Allocates _ ((compilePatterns cohortRoot patterns 0
    ⟨List.replicate 2 [], List.replicate 2 [], [], []⟩ >>= fun c => _).map _)
  cases hrun : compilePatterns cohortRoot patterns 0
      ⟨List.replicate 2 [], List.replicate 2 [], [], []⟩ with
  | ok c =>
    rw [hrun] at htwo
    exact htwo
  | error e =>
    rw [hrun] at htwo
    exact htwo

/-- Databases have exactly the states and the classes that can be read off their expressions, and
the compilers fail only when there are not enough ids for them. -/
theorem database_sizes (patterns : List HirPattern) :
    Allocates (patternSetFootprint 1 patterns) (compile patterns) ∧
      Allocates (patternSetFootprint 2 patterns)
        ((compileSharedCohorts patterns).map SharedCohortCompilation.database) :=
  ⟨allocates_compile patterns, allocates_compileSharedCohorts patterns⟩

end Rustmatch

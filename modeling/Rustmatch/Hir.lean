import Rustmatch.Predicate

/-!
# The normalized high-level representation

`hir.rs`: the expression tree shared by the parser and the NFA compiler, the constructors that keep
it normalized, and the analyses the parser runs on it. Recursion over the nested item lists goes
through companion functions, one for each way a list is read.

The constructors of the tree are `Hir.sequence`, `Hir.alternation` and `Hir.repetition`; the
normalizing functions of the same names in the source are `Hir.mkSequence`, `Hir.mkAlternation` and
`Hir.mkRepeat`.
-/

namespace Rustmatch

/-- Zero-width tests. -/
inductive Assertion where
  /-- At the start of a line. -/
  | lineStart
  /-- At the end of a line. -/
  | lineEnd
  /-- Between a word unit and another. -/
  | wordBoundary
  /-- Not there. -/
  | nonWordBoundary
deriving DecidableEq, Repr

/-- Expressions over UTF-16 code units. -/
inductive Hir where
  /-- Nothing matches. -/
  | never
  /-- The empty word. -/
  | epsilon
  /-- The empty word, where the assertion holds. -/
  | assertion (assertion : Assertion)
  /-- One unit. -/
  | symbol (symbol : UInt16)
  /-- One unit of a class. -/
  | predicate (predicate : SymbolPredicate)
  /-- One after the other. -/
  | sequence (expressions : List Hir)
  /-- One of these. -/
  | alternation (expressions : List Hir)
  /-- Copies, from `min` up to `max` or without a limit. -/
  | repetition (expression : Hir) (min : ℕ) (max : Option ℕ)

namespace Hir

/-- Induction over expressions, with one hypothesis for all the items of a list. -/
@[elab_as_elim, induction_eliminator]
theorem induction {motive : Hir → Prop} (never : motive .never) (epsilon : motive .epsilon)
    (assertion : ∀ a, motive (.assertion a)) (symbol : ∀ s, motive (.symbol s))
    (predicate : ∀ p, motive (.predicate p))
    (sequence : ∀ es, (∀ e ∈ es, motive e) → motive (.sequence es))
    (alternation : ∀ es, (∀ e ∈ es, motive e) → motive (.alternation es))
    (repetition : ∀ e min max, motive e → motive (.repetition e min max)) (h : Hir) :
    motive h :=
  @Hir.rec motive (fun es => ∀ e ∈ es, motive e) never epsilon assertion symbol predicate
    sequence alternation repetition (by simp) (fun e es he hes => by simpa using ⟨he, hes⟩) h

/-! ### Normalizing constructors -/

/-- The loop of `Hir::sequence`; `none` is the early return of `Never`. -/
def flattenSequence : List Hir → Option (List Hir)
  | [] => some []
  | .never :: _ => none
  | .epsilon :: rest => flattenSequence rest
  | .sequence nested :: rest => (flattenSequence rest).map (nested ++ ·)
  | other :: rest => (flattenSequence rest).map (other :: ·)

/-- `Hir::sequence`: flatten and drop what is empty. What cannot match makes the whole `never`. -/
def mkSequence (expressions : List Hir) : Hir :=
  match flattenSequence expressions with
  | none => .never
  | some [] => .epsilon
  | some [expression] => expression
  | some normalized => .sequence normalized

/-- The loop of `Hir::alternation`. -/
def flattenAlternation : List Hir → List Hir
  | [] => []
  | .never :: rest => flattenAlternation rest
  | .alternation nested :: rest => nested ++ flattenAlternation rest
  | other :: rest => other :: flattenAlternation rest

/-- `Hir::alternation`: flatten, and drop what cannot match. -/
def mkAlternation (expressions : List Hir) : Hir :=
  match flattenAlternation expressions with
  | [] => .never
  | [expression] => expression
  | normalized => .alternation normalized

/-- What the loop of `Hir::sequence` collects: the items of nested sequences, and the items that
are neither sequences nor skipped. -/
theorem forall_flattenSequence {P Q : Hir → Prop} (hnested : ∀ es, P (.sequence es) → ∀ e ∈ es, Q e)
    (hother : ∀ e, P e → e ≠ .never → e ≠ .epsilon → (∀ es, e ≠ .sequence es) → Q e)
    {es items : List Hir} (h : ∀ e ∈ es, P e) (hitems : flattenSequence es = some items) :
    ∀ e ∈ items, Q e := by
  induction es using flattenSequence.induct generalizing items with
  | case1 => simp_all [flattenSequence]
  | case2 => simp [flattenSequence] at hitems
  | case3 rest ih =>
    rw [flattenSequence] at hitems
    exact ih (fun e he => h e (List.mem_cons_of_mem _ he)) hitems
  | case4 nested rest ih =>
    rw [flattenSequence, Option.map_eq_some_iff] at hitems
    obtain ⟨tail, htail, rfl⟩ := hitems
    have hrest := ih (fun e he => h e (List.mem_cons_of_mem _ he)) htail
    exact fun e he => (List.mem_append.mp he).elim (hnested _ (h _ List.mem_cons_self) e) (hrest e)
  | case5 other rest hnever hepsilon hsequence ih =>
    rw [flattenSequence, Option.map_eq_some_iff] at hitems
    · obtain ⟨tail, htail, rfl⟩ := hitems
      have hrest := ih (fun e he => h e (List.mem_cons_of_mem _ he)) htail
      have hfirst := hother other (h _ List.mem_cons_self) hnever hepsilon hsequence
      exact List.forall_mem_cons.mpr ⟨hfirst, hrest⟩
    all_goals assumption

/-- What the loop of `Hir::alternation` collects. -/
theorem forall_flattenAlternation {P Q : Hir → Prop}
    (hnested : ∀ es, P (.alternation es) → ∀ e ∈ es, Q e)
    (hother : ∀ e, P e → e ≠ .never → (∀ es, e ≠ .alternation es) → Q e)
    {es : List Hir} (h : ∀ e ∈ es, P e) : ∀ e ∈ flattenAlternation es, Q e := by
  induction es using flattenAlternation.induct with
  | case1 => simp [flattenAlternation]
  | case2 rest ih =>
    rw [flattenAlternation]
    exact ih fun e he => h e (List.mem_cons_of_mem _ he)
  | case3 nested rest ih =>
    rw [flattenAlternation]
    have hrest := ih fun e he => h e (List.mem_cons_of_mem _ he)
    exact fun e he => (List.mem_append.mp he).elim (hnested _ (h _ List.mem_cons_self) e) (hrest e)
  | case4 other rest hnever halternation ih =>
    rw [flattenAlternation]
    · have hrest := ih fun e he => h e (List.mem_cons_of_mem _ he)
      have hfirst := hother other (h _ List.mem_cons_self) hnever halternation
      exact List.forall_mem_cons.mpr ⟨hfirst, hrest⟩
    all_goals assumption

/-- `Hir::repeat`: a repetition, unless something simpler will do. -/
def mkRepeat (expression : Hir) (min : ℕ) (max : Option ℕ) : Hir :=
  match expression, min, max with
  | _, _, some 0 => .epsilon
  | .epsilon, _, _ => .epsilon
  | .never, 0, _ => .epsilon
  | .never, _, _ => .never
  | expression, 1, some 1 => expression
  | expression, min, max => .repetition expression min max

/-! ### Analyses -/

mutual

/-- `Hir::nullable`: the empty word may match. -/
def nullable : Hir → Bool
  | .never | .symbol _ | .predicate _ => false
  | .epsilon | .assertion _ => true
  | .sequence expressions => allNullable expressions
  | .alternation expressions => anyNullable expressions
  | .repetition expression min _ => min == 0 || expression.nullable

/-- `expressions.iter().all(Self::nullable)`. -/
def allNullable : List Hir → Bool
  | [] => true
  | expression :: rest => expression.nullable && allNullable rest

/-- `expressions.iter().any(Self::nullable)`. -/
def anyNullable : List Hir → Bool
  | [] => false
  | expression :: rest => expression.nullable || anyNullable rest

end

mutual

/-- `Hir::minimum_consumed`: the least number of units of a match, if there is one. -/
def minimumConsumed : Hir → Option ℕ
  | .never => none
  | .epsilon | .assertion _ => some 0
  | .symbol _ => some 1
  | .predicate p => if p.isEmpty then none else some 1
  | .sequence expressions => minimumConsumedTotal expressions 0
  | .alternation expressions => minimumConsumedLeast expressions
  | .repetition expression min _ =>
    if min = 0 then some 0
    else expression.minimumConsumed.map fun length => saturatingMul length min

/-- The `try_fold` over the items of a sequence. -/
def minimumConsumedTotal : List Hir → ℕ → Option ℕ
  | [], total => some total
  | item :: rest, total =>
    match item.minimumConsumed with
    | some length => minimumConsumedTotal rest (saturatingAdd total length)
    | none => none

/-- `filter_map(Self::minimum_consumed).min()` over the branches of an alternation. -/
def minimumConsumedLeast : List Hir → Option ℕ
  | [] => none
  | branch :: rest =>
    match branch.minimumConsumed, minimumConsumedLeast rest with
    | some length, some least => some (min length least)
    | some length, none => some length
    | none, least => least

end

mutual

/-- `Hir::can_consume`: some match has a unit. -/
def canConsume : Hir → Bool
  | .never | .epsilon | .assertion _ => false
  | .symbol _ => true
  | .predicate p => !p.isEmpty
  | .sequence expressions =>
    (minimumConsumedTotal expressions 0).isSome && anyCanConsume expressions
  | .alternation expressions => anyCanConsume expressions
  | .repetition expression _ max => max != some 0 && expression.canConsume

/-- `expressions.iter().any(Self::can_consume)`. -/
def anyCanConsume : List Hir → Bool
  | [] => false
  | expression :: rest => expression.canConsume || anyCanConsume rest

end

mutual

/-- `Hir::uses_assertions`: some assertion is used. -/
def usesAssertions : Hir → Bool
  | .assertion _ => true
  | .sequence expressions => anyUsesAssertions expressions
  | .alternation expressions => anyUsesAssertions expressions
  | .repetition expression _ _ => expression.usesAssertions
  | .never | .epsilon | .symbol _ | .predicate _ => false

/-- `expressions.iter().any(Self::uses_assertions)`. -/
def anyUsesAssertions : List Hir → Bool
  | [] => false
  | expression :: rest => expression.usesAssertions || anyUsesAssertions rest

end

/-- The loop over the expressions asks each of them. -/
theorem anyUsesAssertions_eq_any (expressions : List Hir) :
    anyUsesAssertions expressions = expressions.any usesAssertions := by
  induction expressions with
  | nil => rfl
  | cons expression rest ih => rw [anyUsesAssertions, ih, List.any_cons]

/-! ### Sequences have items -/

/-- Every sequence in the expression has at least one item. -/
inductive SequencesNonempty : Hir → Prop
  | never : SequencesNonempty .never
  | epsilon : SequencesNonempty .epsilon
  | assertion (a : Assertion) : SequencesNonempty (.assertion a)
  | symbol (s : UInt16) : SequencesNonempty (.symbol s)
  | predicate (p : SymbolPredicate) : SequencesNonempty (.predicate p)
  | sequence {es : List Hir} :
      es ≠ [] → (∀ e ∈ es, SequencesNonempty e) → SequencesNonempty (.sequence es)
  | alternation {es : List Hir} :
      (∀ e ∈ es, SequencesNonempty e) → SequencesNonempty (.alternation es)
  | repetition {e : Hir} (min : ℕ) (max : Option ℕ) :
      SequencesNonempty e → SequencesNonempty (.repetition e min max)

namespace SequencesNonempty

/-- The sequences in the items of a sequence have items. -/
theorem of_mem_sequence {es : List Hir} (h : SequencesNonempty (.sequence es)) :
    ∀ e ∈ es, SequencesNonempty e := by
  cases h with
  | sequence _ hes => exact hes

/-- A sequence has items. -/
theorem ne_nil {es : List Hir} (h : SequencesNonempty (.sequence es)) : es ≠ [] := by
  cases h with
  | sequence hne _ => exact hne

/-- The sequences in the branches of an alternation have items. -/
theorem of_mem_alternation {es : List Hir} (h : SequencesNonempty (.alternation es)) :
    ∀ e ∈ es, SequencesNonempty e := by
  cases h with
  | alternation hes => exact hes

/-- The sequences in the body of a repetition have items. -/
theorem of_repetition {e : Hir} {min : ℕ} {max : Option ℕ}
    (h : SequencesNonempty (.repetition e min max)) : SequencesNonempty e := by
  cases h with
  | repetition _ _ he => exact he

/-- Flattening nested sequences keeps the property of the items. -/
theorem flattenSequence {es items : List Hir} (h : ∀ e ∈ es, SequencesNonempty e)
    (hitems : Hir.flattenSequence es = some items) : ∀ e ∈ items, SequencesNonempty e :=
  forall_flattenSequence (fun _ hes => hes.of_mem_sequence) (fun _ he _ _ _ => he) h hitems

/-- `Hir::sequence` never builds an empty sequence. -/
theorem mkSequence {es : List Hir} (h : ∀ e ∈ es, SequencesNonempty e) :
    SequencesNonempty (Hir.mkSequence es) := by
  rw [Hir.mkSequence]
  split
  · exact never
  · exact epsilon
  next expression heq => exact flattenSequence h heq _ List.mem_cons_self
  next items hne _ heq => exact sequence hne (flattenSequence h heq)

/-- The sequences in flattened branches have items. -/
theorem flattenAlternation {es : List Hir} (h : ∀ e ∈ es, SequencesNonempty e) :
    ∀ e ∈ Hir.flattenAlternation es, SequencesNonempty e :=
  forall_flattenAlternation (fun _ hes => hes.of_mem_alternation) (fun _ he _ _ => he) h

/-- `Hir::alternation` keeps the property of its branches. -/
theorem mkAlternation {es : List Hir} (h : ∀ e ∈ es, SequencesNonempty e) :
    SequencesNonempty (Hir.mkAlternation es) := by
  rw [Hir.mkAlternation]
  split
  · exact never
  next expression heq => exact flattenAlternation h _ (heq ▸ List.mem_cons_self)
  next => exact alternation (flattenAlternation h)

/-- `Hir::repeat` keeps the property of its body. -/
theorem mkRepeat {e : Hir} (min : ℕ) (max : Option ℕ) (h : SequencesNonempty e) :
    SequencesNonempty (Hir.mkRepeat e min max) := by
  rw [Hir.mkRepeat.eq_def]
  split
  · exact epsilon
  · exact epsilon
  · exact epsilon
  · exact never
  · exact h
  · exact repetition _ _ h

end SequencesNonempty

end Hir

/-- One accepted registration: a caller identity and its expression. The parser is the only
producer of these values, and the constructors it uses never leave an empty sequence. -/
structure HirPattern where
  /-- The identity that the caller registered the pattern under. -/
  patternId : PatternId
  /-- The parsed expression. -/
  expression : Hir
  /-- Whether the expression may match nothing, as `nullable` computes it. -/
  nullable : Bool
  /-- The least number of units, as `minimum_consumed` computes it. -/
  minimumConsumed : Option ℕ
  /-- Every sequence of the expression has items. -/
  sequencesNonempty : expression.SequencesNonempty

/-- `HirPattern::new`: a pattern with the results of its analyses. -/
def HirPattern.new (patternId : PatternId) (expression : Hir)
    (h : expression.SequencesNonempty) : HirPattern where
  patternId := patternId
  expression := expression
  nullable := expression.nullable
  minimumConsumed := expression.minimumConsumed
  sequencesNonempty := h

end Rustmatch

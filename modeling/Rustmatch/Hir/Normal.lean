import Rustmatch.Hir.Denotation
import Rustmatch.Parser.Accepts

/-!
# The normal form of expressions

The constructing functions of `hir.rs` drop what means nothing and flatten what nests, without
changing the denotation. The parser builds expressions with them only, so what it returns is in
normal form (`Normal`).

## Main definitions

* `Hir.SequenceItem`, `Hir.AlternationItem`, `Hir.RepetitionBody`: what a normal form may contain;
* `Hir.Normal`: the normal form.

## Main results

* `denote_mkSequence`, `denote_mkAlternation`, `denote_mkRepeat`: the denotation is kept;
* `PatternText.normal`: patterns denote normal forms;
* `normalization_preserves_meaning`: both, for the functions of the source.
-/

open Relation

namespace Rustmatch

namespace Hir

/-! ### The denotation is kept -/

section Denotation

variable (R : Reading)

/-- The items denote in two parts. -/
theorem denoteAll_append (left right : List Hir) :
    denoteAll R (left ++ right) = Comp (denoteAll R left) (denoteAll R right) := by
  induction left with
  | nil => rw [List.nil_append, denoteAll, eq_comp]
  | cons item rest ih => rw [List.cons_append, denoteAll, ih, denoteAll, comp_assoc]

/-- The branches denote in two parts. -/
theorem denoteAny_append (left right : List Hir) :
    denoteAny R (left ++ right) = denoteAny R left ⊔ denoteAny R right := by
  induction left with
  | nil => rw [List.nil_append, denoteAny, bot_sup_eq]
  | cons branch rest ih => rw [List.cons_append, denoteAny, ih, denoteAny, sup_assoc]

/-- What the loop of `Hir::sequence` keeps denotes the same; when it returns early, an item cannot
be matched. -/
theorem denoteAll_flattenSequence (expressions : List Hir) :
    denoteAll R expressions = (flattenSequence expressions).elim ⊥ (denoteAll R) := by
  induction expressions using flattenSequence.induct with
  | case1 => rfl
  | case2 rest => rw [flattenSequence, denoteAll, denote, bot_comp, Option.elim_none]
  | case3 rest ih => rw [flattenSequence, denoteAll, denote, eq_comp, ih]
  | case4 nested rest ih =>
    rw [flattenSequence, denoteAll, denote, ih]
    cases flattenSequence rest with
    | none => rw [Option.map_none, Option.elim_none, comp_bot]
    | some items =>
      rw [Option.map_some, Option.elim_some, Option.elim_some, denoteAll_append]
  | case5 other rest hnever hepsilon hsequence ih =>
    rw [flattenSequence, denoteAll, ih]
    · cases flattenSequence rest with
      | none => rw [Option.map_none, Option.elim_none, comp_bot]
      | some items => rw [Option.map_some, Option.elim_some, Option.elim_some, denoteAll]
    all_goals assumption

/-- `Hir::sequence` denotes the concatenation. -/
theorem denote_mkSequence (expressions : List Hir) :
    (mkSequence expressions).denote R = denoteAll R expressions := by
  rw [denoteAll_flattenSequence, mkSequence]
  split
  next heq => rw [heq, denote, Option.elim_none]
  next heq => rw [heq, denote, Option.elim_some, denoteAll]
  next expression heq => rw [heq, Option.elim_some, denoteAll, denoteAll, comp_eq]
  next items hnil hsingle heq => rw [heq, denote, Option.elim_some]

/-- The loop of `Hir::alternation` keeps the denotation. -/
theorem denoteAny_flattenAlternation (expressions : List Hir) :
    denoteAny R (flattenAlternation expressions) = denoteAny R expressions := by
  induction expressions using flattenAlternation.induct with
  | case1 => rfl
  | case2 rest ih => rw [flattenAlternation, denoteAny, denote, bot_sup_eq, ih]
  | case3 nested rest ih =>
    rw [flattenAlternation, denoteAny_append, denoteAny, denote, ih]
  | case4 other rest hnever halternation ih =>
    rw [flattenAlternation, denoteAny, denoteAny, ih]
    all_goals assumption

/-- `Hir::alternation` denotes the union. -/
theorem denote_mkAlternation (expressions : List Hir) :
    (mkAlternation expressions).denote R = denoteAny R expressions := by
  rw [← denoteAny_flattenAlternation, mkAlternation]
  split
  next heq => rw [heq, denote, denoteAny]
  next expression heq => rw [heq, denoteAny, denoteAny, sup_bot_eq]
  next => rw [denote]

/-! #### Repetitions -/

/-- A count between the bounds. -/
def Admits (min : ℕ) (max : Option ℕ) (n : ℕ) : Prop := min ≤ n ∧ ∀ limit ∈ max, n ≤ limit

/-- Copies of nothing are nothing. -/
theorem power_eq (n : ℕ) : power (Eq : Config → Config → Prop) n = Eq := by
  induction n with
  | zero => rfl
  | succ n ih => rw [power_succ, ih, eq_comp]

/-- Copies of what cannot match cannot match. -/
theorem power_bot_succ (n : ℕ) : power (⊥ : Config → Config → Prop) (n + 1) = ⊥ := by
  rw [power_succ, bot_comp]

/-- Iterations that all denote one relation. -/
theorem iterations_eq_of_power {body relation : Config → Config → Prop} {min : ℕ}
    {max : Option ℕ} (hadmits : ∃ n, Admits min max n)
    (hpower : ∀ n, Admits min max n → power body n = relation) :
    Iterations body min max = relation := by
  ext c d
  constructor
  · rintro ⟨n, hmin, hmax, hn⟩
    rwa [hpower n ⟨hmin, hmax⟩] at hn
  · intro h
    obtain ⟨n, hn⟩ := hadmits
    exact ⟨n, hn.1, hn.2, by rwa [hpower n hn]⟩

/-- Bounds in order admit the lower one. -/
theorem admits_min {min : ℕ} {max : Option ℕ} (h : ∀ limit ∈ max, min ≤ limit) :
    Admits min max min := ⟨le_refl _, h⟩

/-- `Hir::repeat` denotes the iterations between its bounds. -/
theorem denote_mkRepeat (expression : Hir) {min : ℕ} {max : Option ℕ}
    (h : ∀ limit ∈ max, min ≤ limit) :
    (mkRepeat expression min max).denote R = Iterations (expression.denote R) min max := by
  symm
  rw [mkRepeat.eq_def]
  split
  next =>
    rw [denote]
    apply iterations_eq_of_power ⟨min, admits_min h⟩
    rintro n ⟨-, hmax⟩
    rw [Nat.le_zero.mp (hmax 0 rfl), power_zero]
  next =>
    rw [denote]
    exact iterations_eq_of_power ⟨min, admits_min h⟩ fun n _ => power_eq n
  next =>
    -- no iteration, since the body cannot be matched
    rw [denote, denote]
    ext c d
    constructor
    · rintro ⟨n, -, -, hn⟩
      cases n with
      | zero => exact hn
      | succ n =>
        rw [power_bot_succ] at hn
        exact hn.elim
    · intro hcd
      exact ⟨0, le_refl _, fun _ _ => Nat.zero_le _, hcd⟩
  next hmin hmax =>
    rw [denote]
    apply iterations_eq_of_power ⟨min, admits_min h⟩
    rintro n ⟨hle, -⟩
    obtain ⟨k, rfl⟩ : ∃ k, n = k + 1 := Nat.exists_eq_succ_of_ne_zero fun hn => by
      subst hn
      exact hmin (Nat.le_zero.mp hle)
    exact power_bot_succ k
  next =>
    apply iterations_eq_of_power ⟨1, admits_min h⟩
    rintro n ⟨hmin, hmax⟩
    rw [le_antisymm (hmax 1 rfl) hmin, power_one]
  next => rw [denote]

end Denotation

/-! ### The normal form -/

/-- What may stand in a sequence. -/
structure SequenceItem (e : Hir) : Prop where
  /-- An item can match. -/
  ne_never : e ≠ .never
  /-- An item is not empty. -/
  ne_epsilon : e ≠ .epsilon
  /-- An item is not a sequence itself. -/
  ne_sequence : ∀ es, e ≠ .sequence es

/-- What may stand in an alternation. -/
structure AlternationItem (e : Hir) : Prop where
  /-- A branch can match. -/
  ne_never : e ≠ .never
  /-- A branch is not an alternation itself. -/
  ne_alternation : ∀ es, e ≠ .alternation es

/-- What may be repeated, and how often. -/
structure RepetitionBody (e : Hir) (min : ℕ) (max : Option ℕ) : Prop where
  /-- The body can match. -/
  ne_never : e ≠ .never
  /-- The body is not empty. -/
  ne_epsilon : e ≠ .epsilon
  /-- Some copy is allowed. -/
  max_ne_zero : max ≠ some 0
  /-- It is not repeated exactly once. -/
  ne_once : ¬ (min = 1 ∧ max = some 1)
  /-- The required copies keep to the limit on counted repetitions. -/
  min_le : min ≤ maxCountedRepetition
  /-- The allowed copies are no fewer than the required ones, and keep to the limit. -/
  max_le : ∀ limit ∈ max, min ≤ limit ∧ limit ≤ maxCountedRepetition

/-- Expressions in normal form. -/
inductive Normal : Hir → Prop
  | never : Normal .never
  | epsilon : Normal .epsilon
  | assertion (a : Assertion) : Normal (.assertion a)
  | symbol (s : UInt16) : Normal (.symbol s)
  | predicate (p : SymbolPredicate) : Normal (.predicate p)
  | sequence {es : List Hir} : 2 ≤ es.length → (∀ e ∈ es, SequenceItem e) →
      (∀ e ∈ es, Normal e) → Normal (.sequence es)
  | alternation {es : List Hir} : 2 ≤ es.length → (∀ e ∈ es, AlternationItem e) →
      (∀ e ∈ es, Normal e) → Normal (.alternation es)
  | repetition {e : Hir} {min : ℕ} {max : Option ℕ} : RepetitionBody e min max → Normal e →
      Normal (.repetition e min max)

namespace Normal

/-- The items of a normal sequence are normal, and may stand there. -/
theorem of_sequence {es : List Hir} (h : Normal (.sequence es)) :
    ∀ e ∈ es, SequenceItem e ∧ Normal e := by
  cases h with
  | sequence _ hitems hes => exact fun e he => ⟨hitems e he, hes e he⟩

/-- The branches of a normal alternation are normal, and may stand there. -/
theorem of_alternation {es : List Hir} (h : Normal (.alternation es)) :
    ∀ e ∈ es, AlternationItem e ∧ Normal e := by
  cases h with
  | alternation _ hitems hes => exact fun e he => ⟨hitems e he, hes e he⟩

/-- The items of a flattened sequence are normal, and may stand there. -/
theorem flattenSequence {es items : List Hir} (h : ∀ e ∈ es, Normal e)
    (hitems : Hir.flattenSequence es = some items) :
    ∀ e ∈ items, SequenceItem e ∧ Normal e :=
  forall_flattenSequence (fun _ hes => hes.of_sequence)
    (fun _ he hnever hepsilon hsequence => ⟨⟨hnever, hepsilon, hsequence⟩, he⟩) h hitems

/-- `Hir::sequence` builds normal forms. -/
theorem mkSequence {es : List Hir} (h : ∀ e ∈ es, Normal e) : Normal (Hir.mkSequence es) := by
  rw [Hir.mkSequence]
  split
  · exact never
  · exact epsilon
  next expression heq => exact (flattenSequence h heq _ List.mem_cons_self).2
  next items hnil hsingle heq =>
    have hitems := flattenSequence h heq
    have hlength : 2 ≤ items.length := by
      rcases items with _ | ⟨e, _ | ⟨second, rest⟩⟩
      · exact absurd rfl hnil
      · exact absurd rfl (hsingle e)
      · exact Nat.le_add_left 2 _
    exact sequence hlength (fun e he => (hitems e he).1) fun e he => (hitems e he).2

/-- The branches of a flattened alternation are normal, and may stand there. -/
theorem flattenAlternation {es : List Hir} (h : ∀ e ∈ es, Normal e) :
    ∀ e ∈ Hir.flattenAlternation es, AlternationItem e ∧ Normal e :=
  forall_flattenAlternation (fun _ hes => hes.of_alternation)
    (fun _ he hnever halternation => ⟨⟨hnever, halternation⟩, he⟩) h

/-- `Hir::alternation` builds normal forms. -/
theorem mkAlternation {es : List Hir} (h : ∀ e ∈ es, Normal e) :
    Normal (Hir.mkAlternation es) := by
  have hitems := flattenAlternation h
  rw [Hir.mkAlternation]
  split
  · exact never
  next expression heq => exact (hitems _ (heq ▸ List.mem_cons_self)).2
  next hnil hsingle =>
    have hlength : 2 ≤ (Hir.flattenAlternation es).length := by
      rcases hflat : Hir.flattenAlternation es with _ | ⟨e, _ | ⟨second, rest⟩⟩
      · exact absurd hflat hnil
      · exact absurd hflat (hsingle e)
      · exact Nat.le_add_left 2 _
    exact alternation hlength (fun e he => (hitems e he).1) fun e he => (hitems e he).2

/-- `Hir::repeat` builds normal forms, for bounds in order and not too large. -/
theorem mkRepeat {e : Hir} {min : ℕ} {max : Option ℕ} (h : Normal e)
    (hmin : min ≤ maxCountedRepetition)
    (hmax : ∀ limit ∈ max, min ≤ limit ∧ limit ≤ maxCountedRepetition) :
    Normal (Hir.mkRepeat e min max) := by
  rw [Hir.mkRepeat.eq_def]
  split
  · exact epsilon
  · exact epsilon
  · exact epsilon
  · exact never
  · exact h
  next hepsilon hnever _ hzero honce =>
    refine repetition ⟨hnever, hepsilon, hzero, ?_, hmin, hmax⟩ h
    · rintro ⟨rfl, rfl⟩
      exact honce rfl rfl

end Normal

end Hir

/-! ### Patterns are in normal form -/

open Hir (Normal)

section Patterns

variable {rules : CaseRules}

/-- A literal is normal, with case or without. -/
theorem CaseRules.normal_literal (rules : CaseRules) (unit : UInt16) :
    Normal (rules.literal unit) := by
  unfold CaseRules.literal
  split
  · exact .symbol unit
  · simp only
    split
    · exact .symbol unit
    · exact .predicate _

/-- What an escape derives is normal. -/
theorem EscapeText.normal {text : List UInt16} {expression : Hir}
    (h : EscapeText rules text expression) : Normal expression := by
  cases h with
  | literal => exact rules.normal_literal _
  | newline | tab | carriageReturn | formFeed => exact .symbol _
  | shorthand => exact .predicate _
  | wordBoundary | nonWordBoundary => exact .assertion _

/-- The bounds of a quantifier are in order and not too large. -/
theorem QuantifierText.bounds {text : List UInt16} {count : ℕ} {limit : Option ℕ}
    (h : QuantifierText text count limit) : count ≤ maxCountedRepetition ∧
      ∀ max ∈ limit, count ≤ max ∧ max ≤ maxCountedRepetition := by
  cases h with
  | optional => exact ⟨by decide, by simp [maxCountedRepetition]⟩
  | star | plus => exact ⟨by decide, by simp⟩
  | exactly _ _ hcount => exact ⟨hcount, by simpa using hcount⟩
  | atLeast _ hcount => exact ⟨hcount, by simp⟩
  | between _ _ hle _ hlimit => exact ⟨hle.trans hlimit, by simpa using ⟨hle, hlimit⟩⟩

mutual

/-- What an atom derives is normal. -/
theorem AtomText.normal {depth : ℕ} {text : List UInt16} {expression : Hir}
    (h : AtomText rules depth text expression) : Normal expression :=
  match h with
  | .any | .charClass _ => .predicate _
  | .lineStart | .lineEnd => .assertion _
  | .literal _ => rules.normal_literal _
  | .escape hescape => hescape.normal
  | .emptyGroup _ => .never
  | .group _ _ _ hbody => Normal.mkAlternation hbody.normal

/-- What the items of a sequence derive is normal. -/
theorem ItemsText.normal {depth : ℕ} {text : List UInt16} {items : List Hir}
    (h : ItemsText rules depth text items) : ∀ item ∈ items, Normal item :=
  match h with
  | .nil => fun _ hitem => absurd hitem List.not_mem_nil
  | .plain hatom hrest => List.forall_mem_cons.mpr ⟨hatom.normal, hrest.normal⟩
  | .quantified hatom hquantifier hrest =>
    List.forall_mem_cons.mpr
      ⟨Normal.mkRepeat hatom.normal hquantifier.bounds.1 hquantifier.bounds.2, hrest.normal⟩

/-- What the branches of an alternation derive is normal. -/
theorem BranchesText.normal {depth : ℕ} {text : List UInt16} {branches : List Hir}
    (h : BranchesText rules depth text branches) : ∀ branch ∈ branches, Normal branch :=
  match h with
  | .last hitems | .trailing hitems =>
    List.forall_mem_cons.mpr ⟨Normal.mkSequence hitems.normal,
      fun _ hbranch => absurd hbranch List.not_mem_nil⟩
  | .more hitems _ hrest =>
    List.forall_mem_cons.mpr ⟨Normal.mkSequence hitems.normal, hrest.normal⟩

end

/-- Patterns denote expressions in normal form. -/
theorem PatternText.normal {text : List UInt16} {expression : Hir}
    (h : PatternText rules text expression) : Normal expression := by
  cases h with
  | plain hbranches => exact Normal.mkAlternation hbranches.normal
  | flagged _ hbranches => exact Normal.mkAlternation hbranches.normal

end Patterns

/-- The constructing functions denote the plain concatenation, union and bounded iteration of their
arguments, in every text and with every meaning of the assertions, and the parser returns normal
forms. -/
theorem normalization_preserves_meaning :
    (∀ (R : Reading) (expressions : List Hir),
      (Hir.mkSequence expressions).denote R = Hir.denoteAll R expressions ∧
        (Hir.mkAlternation expressions).denote R = Hir.denoteAny R expressions) ∧
      (∀ (R : Reading) (expression : Hir) (min : ℕ) (max : Option ℕ),
        (∀ limit ∈ max, min ≤ limit) →
          (Hir.mkRepeat expression min max).denote R =
            Hir.Iterations (expression.denote R) min max) ∧
      (∀ (p : Parser) (expression : Hir), p.parseExpression = .ok expression →
        Normal expression) ∧
      ∀ (lowerUpper : UInt16 → UInt16 × UInt16) (patternId : PatternId) (units : List UInt16)
        (flags : PatternFlags) (pattern : HirPattern),
        parseWithFlags lowerUpper patternId units flags = .ok pattern →
          Normal pattern.expression := by
  refine ⟨fun R expressions => ⟨?_, ?_⟩, ?_, ?_, ?_⟩
  · exact Hir.denote_mkSequence R expressions
  · exact Hir.denote_mkAlternation R expressions
  · intro R expression min max h
    exact Hir.denote_mkRepeat R expression h
  · intro p expression h
    exact (Parser.parseExpression_eq_ok_iff.mp h).normal
  · intro lowerUpper patternId units flags pattern h
    obtain ⟨htext, -, -⟩ := parseWithFlags_eq_ok lowerUpper patternId units flags h
    exact htext.normal

end Rustmatch

import Rustmatch.Prefilter

/-!
# Pattern diagnostics

`cohort.rs`: what benchmark tools are told about each pattern. The facts are read off the expression
by functions of their own, next to the analyses of `hir.rs` and the literals of `prefilter.rs`, and
patterns are sorted into those with assertions and those without.

The name of a cohort is left out, as are the getters that only return a field.

## Main definitions

* `Hir.maximumConsumed`, `Hir.prefixSummary`, `Hir.assertionKinds`, `Hir.asciiOnly`,
  `Hir.hirNodes`: the facts;
* `PatternDiagnostics`, `CohortDiagnostics`: the reports.
-/

namespace Rustmatch

/-- `MAX_PREFIX_UNITS`: the length that summaries are cut off at. -/
def maxPrefixUnits : ℕ := 32

/-! ### Kinds of assertions -/

/-- `AssertionKinds`: a set of kinds of assertions, as bits. -/
structure AssertionKinds where
  /-- One bit for each kind. -/
  flags : UInt8
deriving DecidableEq, Repr

namespace AssertionKinds

/-- `AssertionKinds::LINE_START`: the bit of line starts. -/
def lineStart : UInt8 := (1 : UInt8) <<< 0

/-- `AssertionKinds::LINE_END`: the bit of line ends. -/
def lineEnd : UInt8 := (1 : UInt8) <<< 1

/-- `AssertionKinds::WORD_BOUNDARY`: the bit of word boundaries. -/
def wordBoundary : UInt8 := (1 : UInt8) <<< 2

/-- `AssertionKinds::NON_WORD_BOUNDARY`: the bit of their negation. -/
def nonWordBoundary : UInt8 := (1 : UInt8) <<< 3

/-- The flag of an assertion. -/
def flag : Assertion → UInt8
  | .lineStart => lineStart
  | .lineEnd => lineEnd
  | .wordBoundary => wordBoundary
  | .nonWordBoundary => nonWordBoundary

/-- `AssertionKinds::insert`: add the kind of an assertion. -/
def insert (kinds : AssertionKinds) (assertion : Assertion) : AssertionKinds :=
  ⟨kinds.flags ||| flag assertion⟩

/-- `AssertionKinds::contains`: a kind is in the set. -/
def contains (kinds : AssertionKinds) (flag : UInt8) : Bool := kinds.flags &&& flag != 0

/-- `AssertionKinds::is_empty`: no kind is in the set. -/
def isEmpty (kinds : AssertionKinds) : Bool := kinds.flags == 0

end AssertionKinds

/-! ### Longest matches -/

/-- `MaximumConsumed`: what is known of the greatest length of a match. -/
inductive MaximumConsumed where
  /-- Nothing matches. -/
  | impossible
  /-- No more than so many units. -/
  | finite (units : ℕ)
  /-- Any number of units. -/
  | unbounded
deriving DecidableEq, Repr

namespace Hir

mutual

/-- `maximum_consumed`: the greatest number of units of a match. -/
def maximumConsumed : Hir → MaximumConsumed
  | .never => .impossible
  | .epsilon | .assertion _ => .finite 0
  | .symbol _ => .finite 1
  | .predicate p => if p.isEmpty then .impossible else .finite 1
  | .sequence expressions => maximumConsumedItems expressions 0
  | .alternation expressions => maximumConsumedBranches expressions none
  | .repetition expression _ (some limit) =>
    match maximumConsumed expression with
    | .impossible => .impossible
    | .finite unit => .finite (saturatingMul unit limit)
    | .unbounded => if limit = 0 then .finite 0 else .unbounded
  | .repetition expression _ none =>
    match maximumConsumed expression with
    | .impossible => .impossible
    | .finite 0 => .finite 0
    | .finite (_ + 1) | .unbounded => .unbounded

/-- The loop over the items of a sequence. -/
def maximumConsumedItems : List Hir → ℕ → MaximumConsumed
  | [], maximum => .finite maximum
  | expression :: rest, maximum =>
    match maximumConsumed expression with
    | .impossible => .impossible
    | .finite next => maximumConsumedItems rest (saturatingAdd maximum next)
    | .unbounded => .unbounded

/-- The loop over the branches of an alternation. -/
def maximumConsumedBranches : List Hir → Option ℕ → MaximumConsumed
  | [], maximum => maximum.elim .impossible .finite
  | expression :: rest, maximum =>
    match maximumConsumed expression with
    | .impossible => maximumConsumedBranches rest maximum
    | .finite next =>
      maximumConsumedBranches rest (some (maximum.elim next fun current => max current next))
    | .unbounded => .unbounded

end

/-! ### Prefixes -/

end Hir

/-- `PrefixSummary`: the units that every match begins with, and whether there are no others. -/
structure PrefixSummary where
  /-- The units that every match begins with, cut off at the limit. -/
  units : List UInt16
  /-- Whether these units are all that the expression matches. -/
  exact : Bool
deriving DecidableEq, Repr

namespace PrefixSummary

/-- `PrefixSummary::empty_exact`: the summary of the empty word. -/
def emptyExact : PrefixSummary := ⟨[], true⟩

/-- `append_bounded` of `cohort.rs`. -/
def appendBounded (output suffix : List UInt16) : List UInt16 :=
  output ++ suffix.take (maxPrefixUnits - output.length)

/-- The loop over the required copies of a repetition, with some of them left. -/
def appendCopies (child : List UInt16) (least : ℕ) (most : Option ℕ) :
    ℕ → List UInt16 → PrefixSummary
  | 0, units => ⟨units, most == some least⟩
  | remaining + 1, units =>
    let completeLength := saturatingAdd units.length child.length
    let units := appendBounded units child
    if completeLength > maxPrefixUnits ∨ units.length = maxPrefixUnits ∧ 0 < remaining then
      ⟨units, false⟩
    else appendCopies child least most remaining units

end PrefixSummary

namespace Hir

mutual

/-- `prefix_summary`: the units that all matches begin with. -/
def prefixSummary : Hir → PrefixSummary
  | .never | .predicate _ => ⟨[], false⟩
  | .epsilon | .assertion _ => .emptyExact
  | .symbol unit => ⟨[unit], true⟩
  | .sequence expressions => prefixSummaryItems expressions ⟨[], true⟩
  | .alternation expressions => prefixSummaryBranches expressions
  | .repetition expression least most =>
    if least = 0 then ⟨[], most == some 0⟩
    else
      let child := prefixSummary expression
      if !child.exact then ⟨child.units, false⟩
      else .appendCopies child.units least most least []

/-- The loop over the items of a sequence. -/
def prefixSummaryItems : List Hir → PrefixSummary → PrefixSummary
  | [], summary => summary
  | expression :: rest, summary =>
    let child := prefixSummary expression
    let completeLength := saturatingAdd summary.units.length child.units.length
    let units := PrefixSummary.appendBounded summary.units child.units
    if child.exact = false ∨ completeLength > maxPrefixUnits ∨
        units.length = maxPrefixUnits ∧ rest ≠ [] then ⟨units, false⟩
    else prefixSummaryItems rest ⟨units, summary.exact && child.exact⟩

/-- The first branch of an alternation. -/
def prefixSummaryBranches : List Hir → PrefixSummary
  | [] => ⟨[], false⟩
  | expression :: rest => prefixSummaryShared rest (prefixSummary expression)

/-- The loop over the other branches. -/
def prefixSummaryShared : List Hir → PrefixSummary → PrefixSummary
  | [], summary => summary
  | expression :: rest, summary =>
    let candidate := prefixSummary expression
    prefixSummaryShared rest
      ⟨summary.units.take (sharedCount summary.units candidate.units),
        summary.exact && (candidate.exact && candidate.units == summary.units)⟩

end

/-! ### Other facts -/

mutual

/-- `visit_assertions`: add the kinds of all assertions of an expression. -/
def visitAssertions : Hir → AssertionKinds → AssertionKinds
  | .assertion a, kinds => kinds.insert a
  | .sequence expressions, kinds | .alternation expressions, kinds =>
    visitAllAssertions expressions kinds
  | .repetition expression _ _, kinds => visitAssertions expression kinds
  | .never, kinds | .epsilon, kinds | .symbol _, kinds | .predicate _, kinds => kinds

/-- The loop over items and over branches. -/
def visitAllAssertions : List Hir → AssertionKinds → AssertionKinds
  | [], kinds => kinds
  | expression :: rest, kinds => visitAllAssertions rest (visitAssertions expression kinds)

end

/-- `assertion_kinds`: the kinds of the assertions of an expression. -/
def assertionKinds (expression : Hir) : AssertionKinds := visitAssertions expression ⟨0⟩

mutual

/-- `ascii_only`: only ASCII units are consumed. -/
def asciiOnly : Hir → Bool
  | .never | .epsilon | .assertion _ => true
  | .symbol unit => unit < 128
  | .predicate p => p.nonAsciiRanges.isEmpty
  | .sequence expressions | .alternation expressions => allAsciiOnly expressions
  | .repetition expression _ _ => asciiOnly expression

/-- `expressions.iter().all(ascii_only)`. -/
def allAsciiOnly : List Hir → Bool
  | [] => true
  | expression :: rest => asciiOnly expression && allAsciiOnly rest

end

mutual

/-- `hir_nodes`: the number of nodes of an expression. -/
def hirNodes : Hir → ℕ
  | .sequence expressions | .alternation expressions =>
    saturatingAdd 1 (hirNodesFrom expressions 0)
  | .repetition expression _ _ => saturatingAdd 1 (hirNodes expression)
  | .never | .epsilon | .assertion _ | .symbol _ | .predicate _ => saturatingAdd 1 0

/-- The fold over items and over branches. -/
def hirNodesFrom : List Hir → ℕ → ℕ
  | [], count => count
  | expression :: rest, count => hirNodesFrom rest (saturatingAdd count (hirNodes expression))

end

end Hir

/-! ### Reports -/

/-- `PatternDiagnostics`: what is reported about one pattern. -/
structure PatternDiagnostics where
  /-- The identity of the pattern. -/
  patternId : PatternId
  /-- The place of the pattern in the order of registration. -/
  registrationOrdinal : ℕ
  /-- The kinds of assertions that the pattern uses. -/
  assertions : AssertionKinds
  /-- Whether the pattern may match nothing. -/
  nullable : Bool
  /-- The least number of units a match consumes, if it can match. -/
  minimumConsumed : Option ℕ
  /-- The greatest number of units, as far as it is known. -/
  maximumConsumed : MaximumConsumed
  /-- Whether the pattern consumes ASCII units only. -/
  asciiOnly : Bool
  /-- The length of the only text of the pattern, when there is one. -/
  provenExactLiteralUnits : Option ℕ
  /-- The length of the units that every match begins with. -/
  necessaryPrefixUnits : ℕ
  /-- The number of nodes of the expression. -/
  hirNodes : ℕ
deriving DecidableEq, Repr

namespace PatternDiagnostics

/-- `PatternDiagnostics::classify`. -/
def classify (registrationOrdinal : ℕ) (pattern : HirPattern) : PatternDiagnostics :=
  let assertions := pattern.expression.assertionKinds
  let summary := pattern.expression.prefixSummary
  { patternId := pattern.patternId
    registrationOrdinal := registrationOrdinal
    assertions := assertions
    nullable := pattern.nullable
    minimumConsumed := pattern.minimumConsumed
    maximumConsumed := pattern.expression.maximumConsumed
    asciiOnly := pattern.expression.asciiOnly
    provenExactLiteralUnits :=
      if assertions.isEmpty && summary.exact then some summary.units.length else none
    necessaryPrefixUnits := summary.units.length
    hirNodes := pattern.expression.hirNodes }

/-- `PatternDiagnostics::uses_assertions`: some assertion is used. -/
def usesAssertions (facts : PatternDiagnostics) : Bool := !facts.assertions.isEmpty

/-- `PatternDiagnostics::maximum_consumed`: the greatest length, if it is finite. -/
def finiteMaximum (facts : PatternDiagnostics) : Option ℕ :=
  match facts.maximumConsumed with
  | .finite maximum => some maximum
  | .impossible | .unbounded => none

/-- `PatternDiagnostics::has_unbounded_maximum`: matches may have any length. -/
def hasUnboundedMaximum (facts : PatternDiagnostics) : Bool :=
  facts.maximumConsumed = .unbounded

/-- `PatternDiagnostics::has_filterable_prefix`: the necessary prefix is long enough to filter
starts. -/
def hasFilterablePrefix (facts : PatternDiagnostics) : Bool := 3 ≤ facts.necessaryPrefixUnits

end PatternDiagnostics

/-- `CohortDiagnostics`: what is reported about all patterns, and how these fall into cohorts. -/
structure CohortDiagnostics where
  /-- The facts about every pattern, in the order of registration. -/
  patterns : List PatternDiagnostics
  /-- The identities of the patterns without assertions. -/
  assertionFreePatternIds : List PatternId
  /-- The identities of the others. -/
  assertionBearingPatternIds : List PatternId
deriving DecidableEq, Repr

namespace CohortDiagnostics

/-- `CohortDiagnostics::classify`. -/
def classify (patterns : List HirPattern) : CohortDiagnostics :=
  let facts := patterns.zipIdx.map fun item => PatternDiagnostics.classify item.2 item.1
  let (assertionBearing, assertionFree) := facts.partition PatternDiagnostics.usesAssertions
  ⟨facts, assertionFree.map PatternDiagnostics.patternId,
    assertionBearing.map PatternDiagnostics.patternId⟩

/-- `CohortDiagnostics::cohort_count`: the number of cohorts that have patterns. -/
def cohortCount (cohorts : CohortDiagnostics) : ℕ :=
  (if cohorts.assertionFreePatternIds.isEmpty then 0 else 1) +
    if cohorts.assertionBearingPatternIds.isEmpty then 0 else 1

end CohortDiagnostics

end Rustmatch

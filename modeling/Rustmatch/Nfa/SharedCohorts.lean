import Rustmatch.Nfa.Correct

/-!
# Two cohorts in one database

`compile_shared_cohorts` in `nfa.rs`: the patterns without assertions and those with are compiled
into one database under two roots, and the compiler notes whether all patterns with assertions begin
with the same five ASCII units.

## Main definitions

* `compileSharedCohorts`: the compiler;
* `strictAssertionAsciiFive`: the five units that an expression begins with, behind assertions.

## Main results

* `accepts_of_compileSharedCohorts`: each root accepts the patterns of its own cohort.
-/

open LabelledGraph Relation

namespace Rustmatch

/-! ### The shared beginning -/

/-- The loop of `strict_assertion_ascii_five`; `read` holds the units so far. -/
def strictItems : List Hir → List UInt8 → Bool → Option (List UInt8)
  | [], _, _ => none
  | expression :: rest, read, sawAssertion =>
    match expression, read with
    | .assertion _, [] => strictItems rest [] true
    | .epsilon, [] => strictItems rest [] sawAssertion
    | .symbol symbol, read =>
      if 1 ≤ symbol ∧ symbol < 128 then
        let read := read ++ [symbol.toUInt8]
        if read.length = 5 then if sawAssertion then some read else none
        else strictItems rest read sawAssertion
      else none
    | _, _ => none

/-- `strict_assertion_ascii_five`: the five bytes a pattern asks for behind its assertion. -/
def strictAssertionAsciiFive : Hir → Option (List UInt8)
  | .sequence expressions => strictItems expressions [] false
  | _ => none

/-- What the loop over the patterns knows about the beginning of the patterns with assertions. -/
structure SharedBeginning where
  /-- The bytes that the patterns with assertions so far begin with. -/
  assertionAsciiFive : Option (List UInt8)
  /-- Whether these patterns may have a beginning in common. -/
  assertionPrefixPossible : Bool

/-- The part of a round for a pattern with assertions. -/
def SharedBeginning.add (beginning : SharedBeginning) (pattern : HirPattern) : SharedBeginning :=
  if beginning.assertionPrefixPossible then
    match strictAssertionAsciiFive pattern.expression with
    | some five =>
      if beginning.assertionAsciiFive.all (· == five) then ⟨some five, true⟩ else ⟨none, false⟩
    | none => ⟨none, false⟩
  else beginning

/-- `PatternDatabaseView`. Five zeros stand for an unknown beginning. -/
structure PatternDatabaseView where
  /-- The root of the cohort. -/
  root : StateId
  /-- Whether this is the cohort with assertions. -/
  usesAssertions : Bool
  /-- The number of patterns of the cohort. -/
  patternCount : ℕ
  /-- The bytes that all patterns of the cohort begin with. -/
  assertionAsciiFive : List UInt8

/-- `PatternDatabaseView::assertion_ascii_five`: the beginning, unless it is unknown. -/
def PatternDatabaseView.assertionAsciiFive? (view : PatternDatabaseView) : Option (List UInt8) :=
  if view.assertionAsciiFive ≠ List.replicate 5 0 then some view.assertionAsciiFive else none

/-! ### The compiler -/

/-- The patterns of a cohort, in order. -/
def cohort (patterns : List HirPattern) (usesAssertions : Bool) : List HirPattern :=
  patterns.filter fun pattern => pattern.expression.usesAssertions == usesAssertions

/-- The root that leads to a pattern. -/
def cohortRoot (pattern : HirPattern) : StateId :=
  if pattern.expression.usesAssertions then 1 else 0

/-- `SharedCohortCompilation`: the database of both cohorts and the view of each. -/
structure SharedCohortCompilation where
  /-- The graph of both cohorts. -/
  database : PatternDatabase
  /-- The view of the patterns without assertions. -/
  assertionFree : PatternDatabaseView
  /-- The view of the patterns with assertions. -/
  assertionBearing : PatternDatabaseView

/-- The view of the patterns without assertions. -/
def assertionFreeView (patterns : List HirPattern) : PatternDatabaseView where
  root := 0
  usesAssertions := false
  patternCount := (cohort patterns false).length
  assertionAsciiFive := List.replicate 5 0

/-- The view of the patterns with assertions. -/
def assertionBearingView (patterns : List HirPattern) : PatternDatabaseView where
  root := 1
  usesAssertions := true
  patternCount := (cohort patterns true).length
  assertionAsciiFive :=
    let beginning := (cohort patterns true).foldl SharedBeginning.add ⟨none, true⟩
    (beginning.assertionAsciiFive.filter fun _ => (cohort patterns true).length ≥ 256).getD
      (List.replicate 5 0)

/-- `compile_shared_cohorts`: one graph for both cohorts, each with a root. -/
def compileSharedCohorts (patterns : List HirPattern) : Except Error SharedCohortCompilation := do
  let assertionFreeRoot ← forIndex 0
  let _ ← forIndex 1
  let c ← compilePatterns cohortRoot patterns 0 ⟨[[], []], [[], []], [], []⟩
  return ⟨c.database assertionFreeRoot patterns false, assertionFreeView patterns,
    assertionBearingView patterns⟩

/-! ### The roots -/

section Roots

variable {patterns : List HirPattern} {shared : SharedCohortCompilation}

/-- There are two roots. -/
theorem cohortRoot_lt (p : HirPattern) : cohortRoot p < 2 := by
  unfold cohortRoot
  split <;> decide

/-- Compiled cohorts consist of the pieces of their patterns. -/
theorem pieces_of_compileSharedCohorts (h : compileSharedCohorts patterns = .ok shared) :
    ∃ c pieces, Pieces cohortRoot 2 patterns c pieces ∧
      shared = ⟨c.database 0 patterns false, assertionFreeView patterns,
        assertionBearingView patterns⟩ := by
  obtain ⟨root, hroot, h⟩ := bind_eq_ok.mp h
  obtain rfl : 0 = root := Except.ok.inj hroot
  obtain ⟨_, -, h⟩ := bind_eq_ok.mp h
  obtain ⟨c, hrun, h⟩ := bind_eq_ok.mp h
  obtain ⟨pieces, hpieces⟩ :=
    @pieces_of_compilePatterns cohortRoot 2 patterns c (fun p _ => cohortRoot_lt p) hrun
  exact ⟨c, pieces, hpieces, (Except.ok.inj h).symm⟩

/-- Everything in the shared database points into it. -/
theorem compileSharedCohorts_wellFormed (h : compileSharedCohorts patterns = .ok shared) :
    shared.database.WellFormed ∧ 1 < shared.database.stateCount := by
  obtain ⟨c, pieces, hpieces, rfl⟩ := pieces_of_compileSharedCohorts h
  have hbase := hpieces.base_le
  have hwf : ∀ root < c.size, (c.database root patterns false).WellFormed := fun root hroot =>
    Compilation.wellFormed_database root patterns _ hpieces.valid hroot
      fun s i hi => ((hpieces.terminals_iff s i).mp hi).1
  exact ⟨hwf 0 (by omega), (hwf 1 (by omega)).root_lt⟩

/-- From a root, the shared database accepts the ordinals of its cohort, along the runs of their
own expressions. -/
theorem accepts_of_compileSharedCohorts (h : compileSharedCohorts patterns = .ok shared)
    {R : Reading} {root i : ℕ} (hroot : root < 2) {a b : Config} :
    shared.database.Accepts R root i a b ↔
      ∃ p, patterns[i]? = some p ∧ cohortRoot p = root ∧ p.expression.walk R a b := by
  obtain ⟨c, pieces, hpieces, rfl⟩ := pieces_of_compileSharedCohorts h
  exact Compilation.accepts_database 0 patterns _ hpieces hroot

/-- The identities are those of the patterns, in order. -/
theorem patternIds_of_compileSharedCohorts (h : compileSharedCohorts patterns = .ok shared) :
    shared.database.patternIds = patterns.map HirPattern.patternId := by
  obtain ⟨c, pieces, -, rfl⟩ := pieces_of_compileSharedCohorts h
  rfl

/-- The two cohorts have every pattern once. -/
theorem cohorts_perm (patterns : List HirPattern) :
    (cohort patterns false ++ cohort patterns true).Perm patterns := by
  have hother : (fun p : HirPattern => p.expression.usesAssertions == true) =
      fun p => !(p.expression.usesAssertions == false) := by
    funext p
    cases p.expression.usesAssertions <;> rfl
  rw [cohort, cohort, hother]
  exact List.filter_append_perm _ patterns

end Roots

end Rustmatch

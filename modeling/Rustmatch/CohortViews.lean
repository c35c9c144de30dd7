import Rustmatch.Matcher
import Rustmatch.Nfa.SharedCohorts

/-!
# Matchers over shared cohorts

`api/cohort_view_runtime.rs`, with what it runs of `prefilter.rs` and `engine.rs`: both cohorts are
compiled into one database and scanned one after the other, each from its own root. The patterns
with assertions may be scanned from those starts only at which their shared beginning stands, if
they have one. Events are buffered until both scans have succeeded.

Sizes of bitmaps, and the counters that only diagnostics read, are left out.

## Main definitions

* `Prefilter.planAssertionPrefix`, `preflightAssertionPrefix`: whether the beginning is used;
* `SharedCohortMatcher`: the matcher, its scans and its builders.
-/

namespace Rustmatch

/-! ### Plans -/

/-- `AssertionPrefixDecision`: whether the starts of the patterns with assertions are filtered. -/
inductive AssertionPrefixDecision where
  /-- The starts are filtered. -/
  | activated
  /-- The prefilter or the specialization is switched off. -/
  | disabled
  /-- The literal filter is switched off. -/
  | literalDisabled
  /-- The text is too short. -/
  | inputSize
  /-- Too many starts of the sample are candidates. -/
  | denseSample
deriving DecidableEq, Repr

/-- The test of `scan_assertion_prefix`: the five units stand at the start. -/
def beginsAt (five : List UInt8) (input : List UInt16) (start : ℕ) : Bool :=
  match getRange input start (saturatingAdd start five.length) with
  | some actual => (actual.zip five).all fun pair => pair.1 == pair.2.toUInt16
  | none => false

namespace Prefilter

/-- `Prefilter::plan_assertion_prefix`: the starts at which the shared beginning stands, if these
may be filtered. -/
def planAssertionPrefix (prefilter : Prefilter) (five : List UInt8) (input : List UInt16)
    (enabled literalEnabled : Bool) : ScanPlan × AssertionPrefixDecision :=
  if !enabled then (prefilter.startOrAll .disabled, .disabled)
  else if !literalEnabled then (prefilter.startOrAll .literalDisabled, .literalDisabled)
  else if input.length < minLiteralInputUnits then (prefilter.startOrAll .inputSize, .inputSize)
  else if isDense (beginsAt five input) input.length then
    (prefilter.startOrAll .denseSample, .denseSample)
  else
    let found := allCandidates (beginsAt five input) input.length
    (.candidates found.1 found.2, .activated)

/-- `Prefilter::preflight_assertion_prefix`: decide whether the starts may be filtered. -/
def preflightAssertionPrefix (five : List UInt8) (input : List UInt16)
    (enabled literalEnabled : Bool) : AssertionPrefixDecision :=
  if !enabled then .disabled
  else if !literalEnabled then .literalDisabled
  else if input.length < minLiteralInputUnits then .inputSize
  else if isDense (beginsAt five input) input.length then .denseSample
  else .activated

end Prefilter

/-! ### Scans of a view -/

/-- What a scan knows of its plan before it starts. -/
def ScanPlan.metrics (plan : ScanPlan) : ScanStats where
  prefilterPath := plan.path
  prefilterBypass := plan.bypass
  prefilterAdmissions := plan.admissions
  prefilterCandidateStarts := plan.candidateCount

/-- `scan_assertion_view_with_stats`: scan the cohort with assertions from every start. -/
def scanAssertionViewWithStats (database : PatternDatabase) (root : StateId)
    (prefilter : Prefilter) (input : Utf16Text)
    (prefilterEnabled literalPrefilterEnabled : Bool) : Delivery ScanStats := do
  let units := input.units
  let plan := prefilter.plan units prefilterEnabled literalPrefilterEnabled
  scanAssertionView database root input
  return { plan.metrics with assertionBypasses := 1, prefilterStartsScanned := units.length }

/-- `AssertionPrefixScan`: what the scan of the patterns with assertions reports. -/
structure AssertionPrefixScan where
  /-- The counters of the scan. -/
  stats : ScanStats
  /-- Whether the starts were filtered, and why not. -/
  decision : AssertionPrefixDecision

/-- The scan of the starts of a plan, from a root with assertions. -/
def scanAssertionPlan (database : PatternDatabase) (root : StateId) (input : Utf16Text)
    (plan : ScanPlan) (metrics : ScanStats) : Delivery ScanStats :=
  match plan with
  | .candidates candidates _ => do
    scanAssertionViewStarts database root input candidates.iter
    return { metrics with prefilterStartsScanned := candidates.count }
  | .all _ | .startTable _ _ => do
    scanAssertionView database root input
    return { metrics with prefilterStartsScanned := input.units.length }

/-- `scan_assertion_prefix_view_with_stats`: scan the cohort with assertions from the planned
starts. -/
def scanAssertionPrefixViewWithStats (database : PatternDatabase) (root : StateId)
    (five : List UInt8) (prefilter : Prefilter) (input : Utf16Text)
    (prefilterEnabled literalPrefilterEnabled : Bool) : Delivery AssertionPrefixScan := do
  let units := input.units
  let planned := prefilter.planAssertionPrefix five units prefilterEnabled literalPrefilterEnabled
  let metrics ← scanAssertionPlan database root input planned.1
    { planned.1.metrics with assertionBypasses := 1 }
  return ⟨{ metrics with
    prefilterStartsSkipped := units.length - metrics.prefilterStartsScanned }, planned.2⟩

/-- `ScanStats::merge_partition`: add the counters of another scan. -/
def ScanStats.mergePartition (stats other : ScanStats) : ScanStats where
  cacheStates := saturatingAdd stats.cacheStates other.cacheStates
  cacheHits := saturatingAdd stats.cacheHits other.cacheHits
  cacheMisses := saturatingAdd stats.cacheMisses other.cacheMisses
  fallbackTransitions := saturatingAdd stats.fallbackTransitions other.fallbackTransitions
  assertionBypasses := saturatingAdd stats.assertionBypasses other.assertionBypasses
  prefilterPath :=
    if stats.prefilterPath ≠ other.prefilterPath then .mixedParallel else stats.prefilterPath
  prefilterBypass :=
    if stats.prefilterBypass ≠ other.prefilterBypass then .mixedParallel
    else stats.prefilterBypass
  prefilterAdmissions := saturatingAdd stats.prefilterAdmissions other.prefilterAdmissions
  prefilterCandidateStarts :=
    saturatingAdd stats.prefilterCandidateStarts other.prefilterCandidateStarts
  prefilterStartsScanned := saturatingAdd stats.prefilterStartsScanned other.prefilterStartsScanned
  prefilterStartsSkipped := saturatingAdd stats.prefilterStartsSkipped other.prefilterStartsSkipped

/-! ### Matchers -/

/-- `SharedCohortView`: one cohort of a database that both cohorts share. -/
structure SharedCohortView where
  /-- The root and the ordinals of the cohort in the shared database. -/
  descriptor : PatternDatabaseView
  /-- The prefilter of the cohort. -/
  prefilter : Prefilter
  /-- The budget of the cohort's cache. -/
  stateCacheBudget : ℕ

/-- `SharedCohortMatcher`: a matcher that keeps both cohorts in one database. -/
structure SharedCohortMatcher where
  /-- The graph of all patterns. -/
  database : PatternDatabase
  /-- The cohort of the patterns without assertions. -/
  assertionFree : SharedCohortView
  /-- The cohort of the patterns with assertions. -/
  assertionBearing : SharedCohortView
  /-- Whether the start filter is used. -/
  prefilterEnabled : Bool
  /-- Whether the literal filter is used. -/
  literalPrefilterEnabled : Bool
  /-- Whether the starts of the patterns with assertions may be filtered. -/
  assertionSpecializationEnabled : Bool
  /-- Something was registered. -/
  populated : assertionFree.descriptor.patternCount ≠ 0 ∨
    assertionBearing.descriptor.patternCount ≠ 0
  /-- The cohorts are what their names say. -/
  usesAssertions : assertionFree.descriptor.usesAssertions = false ∧
    assertionBearing.descriptor.usesAssertions = true

/-- `BufferedScan`: a scan of both cohorts whose events are kept back. -/
structure BufferedScan where
  /-- The events in the order they were found. -/
  events : List Match
  /-- The counters of the scan. -/
  stats : ScanStats
  /-- What was decided about the prefix, when there was a decision to make. -/
  assertionPrefixDecision : Option AssertionPrefixDecision

/-- `ExperimentalScan`: a scan of both cohorts with the decision on its starts. -/
structure ExperimentalScan where
  /-- The events of both cohorts. -/
  events : List Match
  /-- Whether the starts were filtered, and why not. -/
  decision : AssertionPrefixDecision
  /-- The number of starts that the filter admitted. -/
  candidateCount : ℕ

namespace SharedCohortMatcher

variable (matcher : SharedCohortMatcher) (input : Utf16Text)

/-- `SharedCohortMatcher::assertion_prefix`: the shared beginning of the patterns with assertions.
-/
def assertionPrefix : Option (List UInt8) :=
  matcher.assertionBearing.descriptor.assertionAsciiFive?

/-- `SharedCohortMatcher::assertion_pattern_count`: the number of patterns with assertions. -/
def assertionPatternCount : ℕ := matcher.assertionBearing.descriptor.patternCount

/-- The matcher scans its patterns with assertions from the starts at which `five` stands. -/
structure Eligible (five : List UInt8) : Prop where
  /-- The five bytes are the shared beginning. -/
  assertionPrefix_eq : matcher.assertionPrefix = some five
  /-- Some pattern uses assertions. -/
  patternCount_ne : matcher.assertionPatternCount ≠ 0
  /-- The specialization has not been switched off. -/
  specialization : matcher.assertionSpecializationEnabled = true

/-- The round of `scan_buffered` for a populated view. -/
def scanView (view : SharedCohortView) : Delivery (ScanStats × Option AssertionPrefixDecision) :=
  if view.descriptor.usesAssertions then
    match matcher.assertionSpecializationEnabled, view.descriptor.assertionAsciiFive? with
    | true, some five => do
      let scan ← scanAssertionPrefixViewWithStats matcher.database view.descriptor.root five
        view.prefilter input matcher.prefilterEnabled matcher.literalPrefilterEnabled
      return (scan.stats, some scan.decision)
    | _, _ => do
      let stats ← scanAssertionViewWithStats matcher.database view.descriptor.root view.prefilter
        input matcher.prefilterEnabled matcher.literalPrefilterEnabled
      return (stats, none)
  else do
    let stats ← scanWithStats matcher.database view.prefilter input view.stateCacheBudget
      matcher.prefilterEnabled matcher.literalPrefilterEnabled
    return (stats, none)

/-- The loop of `scan_buffered` over the views that are left. -/
def scanViews : List SharedCohortView → Option ScanStats → Option AssertionPrefixDecision →
    Delivery (Option ScanStats × Option AssertionPrefixDecision)
  | [], combined, decision => pure (combined, decision)
  | view :: rest, combined, decision =>
    if view.descriptor.patternCount = 0 then scanViews rest combined decision
    else do
      let (stats, found) ← matcher.scanView input view
      let combined :=
        match combined with
        | some existing => existing.mergePartition stats
        | none => stats
      scanViews rest (some combined) (found.or decision)

/-- The statistics of a populated view are there in the end. -/
theorem scanViews_stats {views : List SharedCohortView} {combined : Option ScanStats}
    {decision decision' : Option AssertionPrefixDecision}
    (h : (matcher.scanViews input views combined decision).result = .ok (none, decision')) :
    combined = none ∧ ∀ view ∈ views, view.descriptor.patternCount = 0 := by
  induction views generalizing combined decision with
  | nil =>
    obtain ⟨hcombined, -⟩ := Prod.mk.inj (Except.ok.inj h)
    exact ⟨hcombined, by simp⟩
  | cons view rest ih =>
    unfold scanViews at h
    split at h
    next hempty =>
      obtain ⟨hcombined, hrest⟩ := ih h
      exact ⟨hcombined, List.forall_mem_cons.mpr ⟨hempty, hrest⟩⟩
    next =>
      generalize matcher.scanView input view = scanned at h
      obtain ⟨events, result⟩ := scanned
      cases result with
      | error reason => cases h
      | ok found =>
        -- whatever the view adds, something is there
        obtain ⟨hcombined, -⟩ := ih h
        cases hcombined

/-- `SharedCohortMatcher::scan_buffered`: scan both cohorts and keep the events. -/
def scanBuffered : Except Error BufferedScan :=
  let scanned := matcher.scanViews input [matcher.assertionFree, matcher.assertionBearing] none none
  match h : scanned.result with
  | .error error => .error error
  | .ok (some stats, decision) => .ok ⟨scanned.events, stats, decision⟩
  | .ok (none, _) => absurd (matcher.scanViews_stats input h).2 (by
      simpa only [List.forall_mem_cons, List.not_mem_nil, false_implies, implies_true, and_true,
        not_and_or] using matcher.populated)

/-- The decision about the shared beginning. -/
def decision (five : List UInt8) : AssertionPrefixDecision :=
  (matcher.assertionBearing.prefilter.planAssertionPrefix five input.units matcher.prefilterEnabled
    matcher.literalPrefilterEnabled).2

variable {matcher input} {five : List UInt8}

/-- The scan of the patterns with assertions of an eligible matcher takes the decision. -/
theorem Eligible.scanView_decision (h : matcher.Eligible five)
    {found : ScanStats × Option AssertionPrefixDecision}
    (hscan : (matcher.scanView input matcher.assertionBearing).result = .ok found) :
    found.2 = some (matcher.decision input five) := by
  have hfive : matcher.assertionBearing.descriptor.assertionAsciiFive? = some five :=
    h.assertionPrefix_eq
  rw [scanView, if_pos matcher.usesAssertions.2, h.specialization, hfive] at hscan
  obtain ⟨scan, hview, hfound⟩ := Delivery.bind_result_eq_ok.mp hscan
  obtain ⟨metrics, -, hview⟩ := Delivery.bind_result_eq_ok.mp hview
  obtain rfl := Except.ok.inj hview
  exact (Except.ok.inj hfound).symm ▸ rfl

/-- A scan of an eligible matcher takes the decision. -/
theorem Eligible.scanBuffered_decision (h : matcher.Eligible five) {scan : BufferedScan}
    (hscan : matcher.scanBuffered input = .ok scan) :
    scan.assertionPrefixDecision = some (matcher.decision input five) := by
  have hviews : ∀ {stats : Option ScanStats} {decision : Option AssertionPrefixDecision},
      (matcher.scanViews input [matcher.assertionFree, matcher.assertionBearing] none none).result =
        .ok (stats, decision) → decision = some (matcher.decision input five) := by
    intro stats decision hresult
    -- the last view decides, whatever the first does
    have hlast : ∀ combined before, (matcher.scanViews input [matcher.assertionBearing] combined
        before).result = .ok (stats, decision) → decision = some (matcher.decision input five) := by
      intro combined before hresult
      have hcount : matcher.assertionBearing.descriptor.patternCount ≠ 0 := h.patternCount_ne
      rw [scanViews, if_neg hcount] at hresult
      obtain ⟨found, hfound, hresult⟩ := Delivery.bind_result_eq_ok.mp hresult
      obtain ⟨-, rfl⟩ := Prod.mk.inj (Except.ok.inj hresult)
      rw [h.scanView_decision hfound, Option.some_or]
    rw [scanViews] at hresult
    split at hresult
    · exact hlast _ _ hresult
    · obtain ⟨found, -, hresult⟩ := Delivery.bind_result_eq_ok.mp hresult
      exact hlast _ _ hresult
  unfold scanBuffered at hscan
  simp only at hscan
  split at hscan
  next => cases hscan
  next stats decision hresult =>
    obtain rfl := Except.ok.inj hscan
    exact hviews hresult
  next decision hresult =>
    exact absurd (matcher.scanViews_stats input hresult).2 (by
      simpa only [List.forall_mem_cons, List.not_mem_nil, false_implies, implies_true, and_true,
        not_and_or] using matcher.populated)

variable (matcher input)

/-- `SharedCohortMatcher::scan_experimental`: scan both cohorts of an eligible matcher. -/
def scanExperimental (h : matcher.Eligible five) : Except Error ExperimentalScan :=
  match hscan : matcher.scanBuffered input with
  | .error error => .error error
  | .ok scan => .ok {
      events := scan.events
      decision := scan.assertionPrefixDecision.get (by rw [h.scanBuffered_decision hscan]; rfl)
      candidateCount := scan.stats.prefilterCandidateStarts }

/-- `SharedCohortMatcher::scan`: scan both cohorts and deliver the events. -/
def scan : Delivery Unit :=
  match matcher.scanBuffered input with
  | .error error => ⟨[], .error error⟩
  | .ok scan => ⟨scan.events, .ok ()⟩

/-- `SharedCohortMatcher::preflight_experimental`, with the beginning of an eligible matcher. -/
def preflightExperimental (five : List UInt8) : AssertionPrefixDecision :=
  Prefilter.preflightAssertionPrefix five input.units matcher.prefilterEnabled
    matcher.literalPrefilterEnabled

end SharedCohortMatcher

/-! ### Builders -/

namespace MatcherBuilder

/-- `build_matcher` of `cohort_view_runtime.rs`. -/
def buildSharedMatcher (builder : MatcherBuilder) (hpatterns : builder.patterns ≠ [])
    (assertionSpecializationEnabled : Bool) : Except Error SharedCohortMatcher :=
  match h : compileSharedCohorts builder.patterns with
  | .error error => .error error
  | .ok shared =>
    let cohortCount := (if shared.assertionFree.patternCount > 0 then 1 else 0) +
      if shared.assertionBearing.patternCount > 0 then 1 else 0
    have hviews : shared.assertionFree = assertionFreeView builder.patterns ∧
        shared.assertionBearing = assertionBearingView builder.patterns := by
      obtain ⟨_, _, -, rfl⟩ := pieces_of_compileSharedCohorts h
      exact ⟨rfl, rfl⟩
    .ok {
      database := shared.database
      assertionFree := {
        descriptor := shared.assertionFree
        prefilter := Prefilter.disabled
        stateCacheBudget :=
          if shared.assertionFree.patternCount = 0 then 0
          else builder.stateCacheBudget / cohortCount + builder.stateCacheBudget % cohortCount }
      assertionBearing := {
        descriptor := shared.assertionBearing
        prefilter := Prefilter.disabled
        stateCacheBudget :=
          if shared.assertionBearing.patternCount = 0 then 0
          else builder.stateCacheBudget / cohortCount }
      prefilterEnabled := builder.prefilterEnabled
      literalPrefilterEnabled := builder.literalPrefilterEnabled
      assertionSpecializationEnabled := assertionSpecializationEnabled
      populated := by
        have hlength := (cohorts_perm builder.patterns).length_eq
        have hpos := List.length_pos_of_ne_nil hpatterns
        rw [List.length_append] at hlength
        simp only [hviews.1, hviews.2, assertionFreeView, assertionBearingView]
        omega
      usesAssertions := by
        simp only [hviews.1, hviews.2]
        exact ⟨rfl, rfl⟩ }

/-- The checks before `build_matcher`. -/
def buildShared (builder : MatcherBuilder) (assertionSpecializationEnabled : Bool) :
    Except Error SharedCohortMatcher :=
  if hpatterns : builder.patterns = [] then .error .noPatterns
  else if builder.workerCount = 0 then .error .invalidWorkerCount
  else builder.buildSharedMatcher hpatterns assertionSpecializationEnabled

/-- `MatcherBuilder::build_shared_cohort_diagnostic`: build both cohorts, not specialized. -/
def buildSharedCohortDiagnostic (builder : MatcherBuilder) : Except Error SharedCohortMatcher :=
  builder.buildShared false

/-- `MatcherBuilder::build_shared_cohort_assertion_diagnostic`: build both cohorts with the
specialization. -/
def buildSharedCohortAssertionDiagnostic (builder : MatcherBuilder) :
    Except Error SharedCohortMatcher :=
  builder.buildShared true

/-- `MatcherBuilder::build_assertion_prefix_experimental`: build both cohorts with the
specialization. -/
def buildAssertionPrefixExperimental (builder : MatcherBuilder) :
    Except Error SharedCohortMatcher :=
  builder.buildShared true

end MatcherBuilder

end Rustmatch

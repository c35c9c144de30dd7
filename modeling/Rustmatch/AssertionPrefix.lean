import Rustmatch.CohortViews.Scans
import Rustmatch.Matcher.Agreement

/-!
# The assertion-prefix matcher

`experimental/assertion_prefix_v1.rs`: a matcher that is built only for pattern sets whose patterns
with assertions are many and share their beginning, and whose scans say whether the beginning was
used, or refuse to run without it.

Sizes of bitmaps are left out of the reports.

## Main definitions

* `AssertionPrefixMatcherBuilder`, `AssertionPrefixMatcher`: the builder and the matcher;
* `AssertionPrefixMatcher.scanWithPolicy`: scans.

## Main results

* `assertion_prefix_preserves_events`: the matchers over shared cohorts deliver what an ordinary
  matcher does, and a scan keeps to its policy.
-/

namespace Rustmatch

/-! ### Builders -/

/-- `StaticEligibility`: why the patterns of a matcher may be filtered by their beginning. -/
structure StaticEligibility where
  /-- The number of patterns that use assertions. -/
  assertionPatternCount : ℕ
  /-- The five bytes that the patterns with assertions all begin with. -/
  sharedAsciiPrefix : List UInt8
deriving DecidableEq, Repr

/-- `StaticIneligibility`: why they may not. -/
inductive StaticIneligibility where
  /-- No pattern uses assertions. -/
  | noAssertionBearingPatterns
  /-- Too few patterns use assertions. -/
  | tooFewAssertionBearingPatterns (found minimum : ℕ)
  /-- They do not share their first five bytes. -/
  | noSharedFiveUnitAsciiPrefix
deriving DecidableEq, Repr

/-- `BuildError`: why there is no matcher. -/
inductive BuildError where
  /-- The matcher could not be built. -/
  | matcher (error : Error)
  /-- The patterns are not eligible. -/
  | ineligible (reason : StaticIneligibility)
deriving DecidableEq, Repr

/-- `AssertionPrefixMatcherBuilder`: a builder for patterns that begin alike. -/
structure AssertionPrefixMatcherBuilder where
  /-- The builder that registers the patterns. -/
  inner : MatcherBuilder

/-- `AssertionPrefixMatcher`: a matcher whose patterns with assertions begin alike. -/
structure AssertionPrefixMatcher where
  /-- The matcher with the view of the patterns that use assertions. -/
  inner : SharedCohortMatcher
  /-- What the build found out about the shared beginning. -/
  eligibility : StaticEligibility
  /-- The shared beginning is that of the patterns with assertions. -/
  eligible : inner.Eligible eligibility.sharedAsciiPrefix

namespace AssertionPrefixMatcherBuilder

/-- `AssertionPrefixMatcherBuilder::new`: a builder without patterns. -/
def new : AssertionPrefixMatcherBuilder := ⟨MatcherBuilder.new⟩

/-- `AssertionPrefixMatcherBuilder::add_with_flags`: register a pattern in the inner builder. -/
def addWithFlags (lowerUpper : UInt16 → UInt16 × UInt16) (builder : AssertionPrefixMatcherBuilder)
    (patternId : PatternId) (units : List UInt16) (flags : PatternFlags) :
    Except BuildError AssertionPrefixMatcherBuilder :=
  match builder.inner.addWithFlags lowerUpper patternId units flags with
  | .error error => .error (.matcher error)
  | .ok inner => .ok ⟨inner⟩

/-- `AssertionPrefixMatcherBuilder::add`: register a pattern without flags. -/
def add (lowerUpper : UInt16 → UInt16 × UInt16) (builder : AssertionPrefixMatcherBuilder)
    (patternId : PatternId) (units : List UInt16) :
    Except BuildError AssertionPrefixMatcherBuilder :=
  match builder.inner.add lowerUpper patternId units with
  | .error error => .error (.matcher error)
  | .ok inner => .ok ⟨inner⟩

/-- `AssertionPrefixMatcherBuilder::build`: build the inner matcher, and see whether its patterns
are eligible. -/
def build (builder : AssertionPrefixMatcherBuilder) : Except BuildError AssertionPrefixMatcher :=
  match hinner : builder.inner.buildAssertionPrefixExperimental with
  | .error error => .error (.matcher error)
  | .ok inner =>
    if hcount : inner.assertionPatternCount = 0 then
      .error (.ineligible .noAssertionBearingPatterns)
    else if inner.assertionPatternCount < minLiteralPatternCount then
      .error (.ineligible
        (.tooFewAssertionBearingPatterns inner.assertionPatternCount minLiteralPatternCount))
    else
      match hfive : inner.assertionPrefix with
      | none => .error (.ineligible .noSharedFiveUnitAsciiPrefix)
      | some sharedAsciiPrefix => .ok {
          inner := inner
          eligibility := ⟨inner.assertionPatternCount, sharedAsciiPrefix⟩
          eligible := ⟨hfive, hcount, (MatcherBuilder.buildShared_spec hinner).2⟩ }

end AssertionPrefixMatcherBuilder

/-! ### Scans -/

/-- `ScanPolicy`: whether a scan may visit all starts. -/
inductive ScanPolicy where
  /-- Fail where the starts cannot be filtered. -/
  | requireSpecialized
  /-- Scan all starts then. -/
  | allowExactFallback
deriving DecidableEq, Repr

/-- `FallbackReason`: why the starts of a scan cannot be filtered. -/
inductive FallbackReason where
  /-- The text is too short. -/
  | inputTooShort (inputUnits minimumInputUnits : ℕ)
  /-- Too many starts of the sample are candidates. -/
  | candidateSampleTooDense
  /-- The prefilter is switched off. -/
  | accelerationDisabled
  /-- The literal filter is switched off. -/
  | literalAccelerationDisabled
deriving DecidableEq, Repr

/-- `ScanBackend`: how a scan was done. -/
inductive ScanBackend where
  /-- The starts of the patterns with assertions were filtered. -/
  | assertionPrefixV1
  /-- All starts were scanned. -/
  | genericExactFallback
deriving DecidableEq, Repr

/-- `ScanError`: why a scan failed. -/
inductive ScanError where
  /-- The scan failed. -/
  | matcher (error : Error)
  /-- The policy did not allow to scan all starts. -/
  | specializationUnavailable (reason : FallbackReason)
deriving DecidableEq, Repr

/-- `ScanReport`: what a scan with a policy reports. -/
structure ScanReport where
  /-- The policy that was asked for. -/
  policy : ScanPolicy
  /-- The eligibility of the patterns, as the build found it. -/
  eligibility : StaticEligibility
  /-- The path that delivered the events. -/
  backend : ScanBackend
  /-- Why the combined path was taken, when another one had been allowed. -/
  fallbackReason : Option FallbackReason
  /-- The number of starts that the prefix pass admitted. -/
  candidateCount : ℕ
deriving DecidableEq, Repr

/-- The events a scan with a policy hands to its sink, in order, and what it returns. -/
structure PolicyScan where
  /-- The events that the sink was given. -/
  events : List Match
  /-- The report of the scan, or its failure. -/
  result : Except ScanError ScanReport

/-- `fallback_reason`: an activated scan has none. -/
def fallbackReason (decision : AssertionPrefixDecision) (inputUnits : ℕ)
    (h : decision ≠ .activated) : FallbackReason :=
  match decision with
  | .inputSize => .inputTooShort inputUnits minLiteralInputUnits
  | .denseSample => .candidateSampleTooDense
  | .disabled => .accelerationDisabled
  | .literalDisabled => .literalAccelerationDisabled
  | .activated => absurd rfl h

namespace AssertionPrefixMatcher

variable (matcher : AssertionPrefixMatcher) (input : Utf16Text) (policy : ScanPolicy)

/-- What `scan_with_policy` does with a finished scan. -/
def deliver (scan : ExperimentalScan) : PolicyScan :=
  let fallbackReason? := if h : scan.decision ≠ .activated then
    some (fallbackReason scan.decision input.units.length h) else none
  match policy, fallbackReason? with
  | .requireSpecialized, some reason => ⟨[], .error (.specializationUnavailable reason)⟩
  | _, _ => ⟨scan.events, .ok {
      policy := policy
      eligibility := matcher.eligibility
      backend := if fallbackReason?.isSome then .genericExactFallback else .assertionPrefixV1
      fallbackReason := fallbackReason?
      candidateCount := scan.candidateCount }⟩

/-- The preflight decision, about the beginning that the matcher was built with. -/
def preflight : AssertionPrefixDecision :=
  matcher.inner.preflightExperimental input matcher.eligibility.sharedAsciiPrefix

/-- `AssertionPrefixMatcher::scan_with_policy`: filter the starts if that is possible, and do else
as the policy says. -/
def scanWithPolicy : PolicyScan :=
  if h : policy = .requireSpecialized ∧ matcher.preflight input ≠ .activated then
    ⟨[], .error (.specializationUnavailable
      (fallbackReason (matcher.preflight input) input.units.length h.2))⟩
  else
    match matcher.inner.scanExperimental input matcher.eligible with
    | .error error => ⟨[], .error (.matcher error)⟩
    | .ok scan => matcher.deliver input policy scan

end AssertionPrefixMatcher

/-! ### What a scan returns -/

/-- The preflight decides what the plan does. -/
theorem Prefilter.preflightAssertionPrefix_eq (prefilter : Prefilter) (five : List UInt8)
    (input : List UInt16) (enabled literalEnabled : Bool) :
    Prefilter.preflightAssertionPrefix five input enabled literalEnabled =
      (prefilter.planAssertionPrefix five input enabled literalEnabled).2 := by
  unfold preflightAssertionPrefix planAssertionPrefix
  split
  · rfl
  · split
    · rfl
    · split
      · rfl
      · split
        · rfl
        · rfl

section Scans

variable {builder : AssertionPrefixMatcherBuilder} {matcher : AssertionPrefixMatcher}

/-- A matcher has the patterns of its builder. -/
theorem AssertionPrefixMatcherBuilder.build_spec (h : builder.build = .ok matcher) :
    matcher.inner.BuiltFrom builder.inner.patterns := by
  unfold build at h
  split at h
  next => cases h
  next inner hinner =>
    split at h
    next => cases h
    next =>
      split at h
      next => cases h
      next =>
        split at h
        next => cases h
        next =>
          obtain rfl := Except.ok.inj h
          exact (MatcherBuilder.buildShared_spec hinner).1

namespace AssertionPrefixMatcher

/-- The decision about the shared beginning. -/
def decision (matcher : AssertionPrefixMatcher) (input : Utf16Text) : AssertionPrefixDecision :=
  matcher.inner.decision input matcher.eligibility.sharedAsciiPrefix

/-- The preflight decides as the scan does. -/
theorem preflight_eq (matcher : AssertionPrefixMatcher) (input : Utf16Text) :
    matcher.preflight input = matcher.decision input :=
  Prefilter.preflightAssertionPrefix_eq _ _ _ _ _

/-- A scan takes the decision of the plan. -/
theorem decision_of_scanExperimental {input : Utf16Text} {scan : ExperimentalScan}
    (h : matcher.inner.scanExperimental input matcher.eligible = .ok scan) :
    scan.decision = matcher.decision input := by
  unfold SharedCohortMatcher.scanExperimental at h
  split at h
  next => cases h
  next buffered hbuffered =>
    obtain rfl := Except.ok.inj h
    have hdecision := matcher.eligible.scanBuffered_decision hbuffered
    exact Option.get_of_eq_some _ hdecision

/-- A scan whose beginning is used is delivered and so is one that may do without; the report names
a reason exactly if the beginning is not used. -/
theorem deliver_eq (matcher : AssertionPrefixMatcher) (input : Utf16Text) {policy : ScanPolicy}
    {scan : ExperimentalScan}
    (h : policy = .allowExactFallback ∨ scan.decision = .activated) :
    ∃ report, matcher.deliver input policy scan = ⟨scan.events, .ok report⟩ ∧
      (report.backend = .assertionPrefixV1 ↔ report.fallbackReason = none) := by
  unfold deliver
  by_cases hactivated : scan.decision = .activated
  · rw [dif_neg (not_not.mpr hactivated)]
    cases policy <;> exact ⟨_, rfl, by simp⟩
  · obtain rfl := h.resolve_right hactivated
    rw [dif_pos hactivated]
    exact ⟨_, rfl, by simp⟩

/-- A scan is refused before it starts, or it runs and delivers the events of all patterns. -/
theorem scanWithPolicy_cases (h : builder.build = .ok matcher) (input : Utf16Text)
    (policy : ScanPolicy) :
    (policy = .requireSpecialized ∧ matcher.decision input ≠ .activated ∧ ∃ reason,
      matcher.scanWithPolicy input policy = ⟨[], .error (.specializationUnavailable reason)⟩) ∨
    ((policy = .allowExactFallback ∨ matcher.decision input = .activated) ∧ ∃ events report,
      matcher.scanWithPolicy input policy = ⟨events, .ok report⟩ ∧
      events.Perm (builder.inner.patterns.flatMap fun p => p.events input.units) ∧
      (report.backend = .assertionPrefixV1 ↔ report.fallbackReason = none)) := by
  have hpreflight := matcher.preflight_eq input
  unfold scanWithPolicy
  split
  next hrefused =>
    exact Or.inl ⟨hrefused.1, hpreflight ▸ hrefused.2, _, rfl⟩
  next hruns =>
    have hpolicy : policy = .allowExactFallback ∨ matcher.decision input = .activated := by
      rw [hpreflight] at hruns
      cases policy with
      | allowExactFallback => exact Or.inl rfl
      | requireSpecialized => exact Or.inr (not_not.mp fun hne => hruns ⟨rfl, hne⟩)
    refine Or.inr ⟨hpolicy, ?_⟩
    obtain ⟨buffered, hbuffered, hperm⟩ :=
      (AssertionPrefixMatcherBuilder.build_spec h).scanBuffered_eq input
    split
    next reason hfailed =>
      unfold SharedCohortMatcher.scanExperimental at hfailed
      split at hfailed
      next hfailed' => rw [hbuffered] at hfailed'; cases hfailed'
      next => cases hfailed
    next scan hscan =>
      -- the scan behind the policy delivers what the buffered one does, whatever it decides
      have hevents : scan.events = buffered.events := by
        unfold SharedCohortMatcher.scanExperimental at hscan
        split at hscan
        next => cases hscan
        next hbuffered' =>
          rw [hbuffered] at hbuffered'
          obtain rfl := Except.ok.inj hbuffered'
          obtain rfl := Except.ok.inj hscan
          rfl
      rw [← decision_of_scanExperimental hscan] at hpolicy
      obtain ⟨report, hreport, hbackend⟩ := matcher.deliver_eq input hpolicy
      exact ⟨scan.events, report, hreport, hevents ▸ hperm, hbackend⟩

end AssertionPrefixMatcher

end Scans

/-- Matchers over shared cohorts deliver what an ordinary matcher with the same patterns does, with
specialization and without. An assertion-prefix matcher does so under both policies: it refuses a
scan only if the policy requires the shared beginning and the plan does not use it, delivers nothing
then, and reports the specialized backend exactly if no reason is given. -/
theorem assertion_prefix_preserves_events :
    (∀ (builder : MatcherBuilder) (specialization : Bool) (shared : SharedCohortMatcher),
      builder.buildShared specialization = .ok shared → ∀ (ordinaryBuilder : MatcherBuilder)
      (ordinary : Matcher), ordinaryBuilder.patterns = builder.patterns →
      ordinaryBuilder.build = .ok ordinary → ∀ (host : Host) (input : Utf16Text),
      (ordinary.scan host input).ending ≠ .returned (.error .workerUnavailable) →
        (shared.scan input).result = .ok () ∧
          (shared.scan input).events.Perm (ordinary.scan host input).events) ∧
    ∀ (builder : AssertionPrefixMatcherBuilder) (matcher : AssertionPrefixMatcher),
      builder.build = .ok matcher → ∀ input : Utf16Text,
      (∀ (ordinaryBuilder : MatcherBuilder) (ordinary : Matcher),
        ordinaryBuilder.patterns = builder.inner.patterns → ordinaryBuilder.build = .ok ordinary →
        ∀ host : Host, (ordinary.scan host input).ending ≠ .returned (.error .workerUnavailable) →
        ∀ (policy : ScanPolicy) (report : ScanReport),
          (matcher.scanWithPolicy input policy).result = .ok report →
            (matcher.scanWithPolicy input policy).events.Perm (ordinary.scan host input).events) ∧
      (∀ reason, (matcher.scanWithPolicy input .allowExactFallback).result ≠
        .error (.specializationUnavailable reason)) ∧
      ((∃ report, (matcher.scanWithPolicy input .requireSpecialized).result = .ok report) ↔
        matcher.decision input = .activated) ∧
      matcher.preflight input = matcher.decision input ∧
      (∀ scan, matcher.inner.scanExperimental input matcher.eligible = .ok scan →
        scan.decision = matcher.decision input) ∧
      (∀ policy reason, (matcher.scanWithPolicy input policy).result =
        .error (.specializationUnavailable reason) →
          (matcher.scanWithPolicy input policy).events = []) ∧
      ∀ policy report, (matcher.scanWithPolicy input policy).result = .ok report →
        (report.backend = .assertionPrefixV1 ↔ report.fallbackReason = none) := by
  refine ⟨?_, ?_⟩
  · intro builder specialization shared hshared ordinaryBuilder ordinary hpatterns hordinary host
      input hthreads
    -- both matchers deliver the events of the same patterns, in some order
    have hscan := (MatcherBuilder.buildShared_spec hshared).1.scan_eq input
    have hevents := (MatcherBuilder.scan_perm hordinary input hthreads).2
    rw [hpatterns] at hevents
    exact ⟨hscan.1, hscan.2.trans hevents.symm⟩
  · intro builder matcher hbuild input
    -- every other part is read off the two ways in which a scan under a policy ends
    have hcases := AssertionPrefixMatcher.scanWithPolicy_cases hbuild input
    refine ⟨?_, ?_, ?_, matcher.preflight_eq input,
      fun scan => AssertionPrefixMatcher.decision_of_scanExperimental, ?_, ?_⟩
    · intro ordinaryBuilder ordinary hpatterns hordinary host hthreads policy report hreport
      have hevents := (MatcherBuilder.scan_perm hordinary input hthreads).2
      rw [hpatterns] at hevents
      obtain ⟨-, -, reason, heq⟩ | ⟨-, events, report, heq, hperm, -⟩ := hcases policy
      · rw [heq] at hreport
        cases hreport
      · rw [heq]
        exact hperm.trans hevents.symm
    · intro reason
      obtain ⟨hpolicy, -⟩ | ⟨-, events, report, heq, -⟩ := hcases .allowExactFallback
      · cases hpolicy
      · rw [heq]
        exact fun hresult => by cases hresult
    · obtain ⟨-, hdecision, reason, heq⟩ | ⟨hpolicy, events, report, heq, -⟩ :=
        hcases .requireSpecialized
      · rw [heq]
        refine ⟨?_, fun hactivated => absurd hactivated hdecision⟩
        rintro ⟨report, hreport⟩
        cases hreport
      · rw [heq]
        refine ⟨fun _ => hpolicy.resolve_left (by decide), fun _ => ⟨report, rfl⟩⟩
    · intro policy reason hreason
      obtain ⟨-, -, reason, heq⟩ | ⟨-, events, report, heq, -⟩ := hcases policy
      · rw [heq]
      · rw [heq] at hreason
        cases hreason
    · intro policy report hreport
      obtain ⟨-, -, reason, heq⟩ | ⟨-, events, report', heq, -, hbackend⟩ := hcases policy
      · rw [heq] at hreport
        cases hreport
      · rw [heq] at hreport
        obtain rfl := Except.ok.inj hreport
        exact hbackend

/-! ### Many short words -/

section Succeeds

variable {patterns : List HirPattern} {c : Compilation}

/-- When the patterns compile, so do the cohorts. -/
theorem compileSharedCohorts_ok (h : compilePatterns cohortRoot patterns 0
    ⟨[[], []], [[], []], [], []⟩ = .ok c) :
    compileSharedCohorts patterns = .ok ⟨c.database 0 patterns false, assertionFreeView patterns,
      assertionBearingView patterns⟩ := by
  unfold compileSharedCohorts
  show (compilePatterns cohortRoot patterns 0 ⟨[[], []], [[], []], [], []⟩ >>= _) = _
  rw [h]
  rfl

/-- One worker has all patterns in one partition. -/
theorem compilePartitions_one {database : PatternDatabase} (hpatterns : patterns ≠ [])
    (h : compile patterns = .ok database) (budget : ℕ) :
    ∃ partitions, compilePartitions patterns 1 budget = .ok partitions := by
  have hpos := List.length_pos_of_ne_nil hpatterns
  have hshare : share patterns.length 1 0 = patterns.length := by
    unfold share
    rw [Nat.div_one, Nat.mod_one, if_neg (Nat.not_lt_zero 0)]
    rfl
  unfold compilePartitions
  simp only
  rw [Nat.min_eq_left hpos, compilePartitionsFrom, hshare, List.take_length, h]
  exact ⟨_, rfl⟩

/-- A builder with one worker builds what compiles. -/
theorem MatcherBuilder.build_ok {builder : MatcherBuilder} {database : PatternDatabase}
    (hpatterns : builder.patterns ≠ []) (hworkers : builder.workerCount = 1)
    (hcohorts : builder.cohortCompilationEnabled = false)
    (h : compile builder.patterns = .ok database) : ∃ matcher, builder.build = .ok matcher := by
  obtain ⟨partitions, hpartitions⟩ :=
    compilePartitions_one hpatterns h builder.stateCacheBudget
  unfold build
  rw [dif_neg hpatterns, dif_neg (by omega), hcohorts, if_neg (by decide)]
  unfold buildWhole
  split
  next reason hfailed =>
    rw [hworkers, hpartitions] at hfailed
    cases hfailed
  next => exact ⟨_, rfl⟩

/-- A builder with a worker builds a matcher over shared cohorts. -/
theorem MatcherBuilder.buildShared_ok {builder : MatcherBuilder} {shared : SharedCohortCompilation}
    (hpatterns : builder.patterns ≠ []) (hworkers : builder.workerCount ≠ 0)
    (h : compileSharedCohorts builder.patterns = .ok shared) (specialization : Bool) :
    ∃ matcher, builder.buildShared specialization = .ok matcher := by
  unfold buildShared
  rw [dif_neg hpatterns, if_neg hworkers]
  unfold buildSharedMatcher
  split
  next reason hfailed =>
    rw [h] at hfailed
    cases hfailed
  next => exact ⟨_, rfl⟩

/-- A pattern set with enough patterns with assertions, all with the same beginning, is eligible. -/
theorem AssertionPrefixMatcherBuilder.build_ok {builder : AssertionPrefixMatcherBuilder}
    {inner : SharedCohortMatcher} {five : List UInt8}
    (hinner : builder.inner.buildShared true = .ok inner)
    (hcount : minLiteralPatternCount ≤ (cohort builder.inner.patterns true).length)
    (hfive : (assertionBearingView builder.inner.patterns).assertionAsciiFive? = some five) :
    ∃ matcher, builder.build = .ok matcher := by
  have hview := (MatcherBuilder.buildShared_spec hinner).1.assertionBearing_eq.1
  have hpos : 0 < minLiteralPatternCount := by decide
  unfold build
  split
  next reason hfailed =>
    have hfailed : builder.inner.buildShared true = .error reason := hfailed
    rw [hinner] at hfailed
    cases hfailed
  next inner' hinner' =>
    have hinner' : builder.inner.buildShared true = .ok inner' := hinner'
    rw [hinner] at hinner'
    obtain rfl := Except.ok.inj hinner'
    have hcount' : minLiteralPatternCount ≤ inner.assertionPatternCount := by
      rw [SharedCohortMatcher.assertionPatternCount, hview]
      exact hcount
    rw [dif_neg (by omega), if_neg (by omega)]
    split
    next hnone =>
      rw [SharedCohortMatcher.assertionPrefix, hview, hfive] at hnone
      cases hnone
    next => exact ⟨_, rfl⟩

end Succeeds

/-- `\\baaaaa`. -/
def wordPattern (patternId : ℕ) : HirPattern :=
  HirPattern.new ⟨UInt32.ofNat patternId⟩
    (.sequence (.assertion .wordBoundary :: List.replicate 5 (.symbol 0x61)))
    (.sequence (List.cons_ne_nil _ _) (by
      simp only [List.mem_cons, List.mem_replicate, forall_eq_or_imp, and_imp]
      exact ⟨.assertion _, fun e _ he => he ▸ .symbol _⟩))

/-- The identities of these patterns are distinct. -/
theorem nodup_wordPattern :
    (((List.range 256).map wordPattern).map HirPattern.patternId).Nodup := by
  rw [List.map_map]
  refine List.Nodup.map_on (fun id hid id' hid' heq => ?_) List.nodup_range
  rw [List.mem_range] at hid hid'
  have hvalue : UInt32.ofNat id = UInt32.ofNat id' := congrArg PatternId.value heq
  have hnat := congrArg UInt32.toNat hvalue
  rw [UInt32.toNat_ofNat', UInt32.toNat_ofNat'] at hnat
  omega

/-- A builder with enough words for the assertion-prefix matcher. -/
def wordBuilder : MatcherBuilder :=
  { MatcherBuilder.new with
    patternIds := ((List.range 256).map fun id => (wordPattern id).patternId).toFinset
    patterns := (List.range 256).map wordPattern
    patternIds_eq := by rw [List.map_map]; rfl
    nodup := nodup_wordPattern }

/-- Each of these patterns is a sequence of six items at most. -/
theorem wordBuilder_items : ∀ p ∈ wordBuilder.patterns, ∃ items,
    p.expression = .sequence items ∧ items.length ≤ 6 ∧ ∀ item ∈ items, item.IsEdge := by
  intro p hp
  obtain ⟨id, -, rfl⟩ := List.mem_map.mp hp
  refine ⟨_, rfl, Nat.le_refl _, ?_⟩
  simp only [List.mem_cons, List.mem_replicate, forall_eq_or_imp, and_imp]
  exact ⟨trivial, fun e _ he => he ▸ trivial⟩

/-- There are 256 of these patterns. -/
theorem length_wordBuilder : wordBuilder.patterns.length = 256 := by
  rw [wordBuilder, List.length_map, List.length_range]

/-- All words have an assertion. -/
theorem cohort_wordBuilder : cohort wordBuilder.patterns true = wordBuilder.patterns := by
  refine List.filter_eq_self.mpr fun p hp => ?_
  obtain ⟨id, -, rfl⟩ := List.mem_map.mp hp
  rfl

/-- 256 patterns that begin with the same five bytes. -/
theorem assertion_prefix_preserves_events_wordBuilder : ∃ shared matcher ordinary,
    wordBuilder.buildShared false = .ok shared ∧
    (AssertionPrefixMatcherBuilder.mk wordBuilder).build = .ok matcher ∧
    wordBuilder.build = .ok ordinary ∧
    (shared.scan textAb).events.Perm (ordinary.scan readyHost textAb).events ∧
    ∀ policy report, (matcher.scanWithPolicy textAb policy).result = .ok report →
      (matcher.scanWithPolicy textAb policy).events.Perm
        (ordinary.scan readyHost textAb).events := by
  have hne : wordBuilder.patterns ≠ [] :=
    List.ne_nil_of_length_pos (by rw [length_wordBuilder]; decide)
  obtain ⟨c, hc⟩ := @compilePatterns_ok (fun _ => 0) 6 wordBuilder.patterns wordBuilder_items 0
    ⟨[[]], [[]], [], []⟩ (by rw [length_wordBuilder]; decide)
  obtain ⟨database, hdatabase⟩ := compile_ok hc
  obtain ⟨ordinary, hordinary⟩ := MatcherBuilder.build_ok hne rfl rfl hdatabase
  obtain ⟨c', hc'⟩ := @compilePatterns_ok cohortRoot 6 wordBuilder.patterns wordBuilder_items 0
    ⟨[[], []], [[], []], [], []⟩ (by rw [length_wordBuilder]; decide)
  have hshared := MatcherBuilder.buildShared_ok hne (show wordBuilder.workerCount ≠ 0 by decide)
    (compileSharedCohorts_ok hc')
  obtain ⟨shared, hshared'⟩ := hshared false
  obtain ⟨inner, hinner⟩ := hshared true
  obtain ⟨matcher, hmatcher⟩ := @AssertionPrefixMatcherBuilder.build_ok ⟨wordBuilder⟩ inner
    (List.replicate 5 0x61) hinner (by rw [cohort_wordBuilder, length_wordBuilder]; decide)
    (by decide +kernel)
  have hthreads := MatcherBuilder.scan_ne_workerUnavailable hordinary readyHost_starts textAb
  exact ⟨shared, matcher, ordinary, hshared', hmatcher, hordinary,
    (assertion_prefix_preserves_events.1 wordBuilder false shared hshared' wordBuilder ordinary rfl
      hordinary readyHost textAb hthreads).2,
    (assertion_prefix_preserves_events.2 ⟨wordBuilder⟩ matcher hmatcher textAb).1 wordBuilder
      ordinary rfl hordinary readyHost hthreads⟩

end Rustmatch

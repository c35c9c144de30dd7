import Rustmatch.CohortParity
import Rustmatch.Matcher.Reports
import Rustmatch.Matcher.Sizes
import Rustmatch.ToMathlib.SortedLists

/-!
# What the parity campaign finds

A case is settled by the patterns that are registered for it and by whether one matcher is built
from them: all other matchers of the case are then built too, and whatever machines they run on,
they deliver the events of these patterns.

## Main results

* `fixtures_are_verified_exactly`: what a case comes to.
-/

namespace Rustmatch

namespace CohortParity

/-! ### Sorted events -/

/-- The order of tuples. -/
theorem Event.le_iff {event other : Event} : event.le other = true ↔
    event.patternId.toNat < other.patternId.toNat ∨
      event.patternId.toNat = other.patternId.toNat ∧ (event.start < other.start ∨
        event.start = other.start ∧ event.stop ≤ other.stop) := by
  unfold Event.le
  simp [UInt32.lt_iff_toNat_lt, UInt32.toNat_inj]

/-- Sorted events do not depend on the order of their delivery. -/
theorem sortUnstable_eq_of_perm {events events' : List Event} (h : events.Perm events') :
    sortUnstable events = sortUnstable events' := by
  refine SortedLists.mergeSort_eq_of_perm ?_ ?_ ?_ h
  · intro a b c hab hbc
    rw [Event.le_iff] at hab hbc ⊢
    omega
  · intro a b
    rw [Bool.or_eq_true, Event.le_iff, Event.le_iff]
    omega
  · intro a b hab hba
    rw [Event.le_iff] at hab hba
    have hid : a.patternId.toNat = b.patternId.toNat := by omega
    have hstart : a.start = b.start := by omega
    have hstop : a.stop = b.stop := by omega
    cases a
    cases b
    simp only at hid hstart hstop
    rw [UInt32.toNat_inj.mp hid, hstart, hstop]

/-! ### Settings and patterns -/

section Registrations

variable {lowerUpper : UInt16 → UInt16 × UInt16} {workerCount cacheBudget : ℕ}
  {cohortEnabled : Bool}

/-- Settings can be made before or after a registration. -/
theorem addWithFlags_configure (builder : MatcherBuilder) (patternId : PatternId)
    (units : List UInt16) (flags : PatternFlags) :
    (configure workerCount cacheBudget cohortEnabled builder).addWithFlags lowerUpper patternId
        units flags =
      (builder.addWithFlags lowerUpper patternId units flags).map
        (configure workerCount cacheBudget cohortEnabled) := by
  have hids : (configure workerCount cacheBudget cohortEnabled builder).patternIds =
      builder.patternIds := rfl
  unfold MatcherBuilder.addWithFlags
  by_cases hnew : patternId ∈ builder.patternIds
  · rw [dif_pos (hids ▸ hnew), dif_pos hnew]
    rfl
  · rw [dif_neg (hids ▸ hnew), dif_neg hnew]
    split
    next => rfl
    next => rfl

/-- And before or after all registrations of a case. -/
theorem addPatterns_configure (builder : MatcherBuilder) (patterns : List PatternSpec) :
    addPatterns lowerUpper (configure workerCount cacheBudget cohortEnabled builder) patterns =
      (addPatterns lowerUpper builder patterns).map
        (configure workerCount cacheBudget cohortEnabled) := by
  induction patterns generalizing builder with
  | nil => rfl
  | cons pattern patterns ih =>
    rw [addPatterns, addPatterns, addWithFlags_configure]
    cases builder.addWithFlags lowerUpper ⟨pattern.id⟩ pattern.source pattern.flags with
    | error error => rfl
    | ok builder => exact ih builder

/-- A matcher of a case comes from the one builder that has its patterns. -/
theorem buildMatcher_of_addPatterns {parityCase : ParityCase} {builder : MatcherBuilder}
    (h : addPatterns lowerUpper .new parityCase.patterns = .ok builder) :
    buildMatcher lowerUpper parityCase workerCount cacheBudget cohortEnabled =
      match (configure workerCount cacheBudget cohortEnabled builder).build with
      | .error error => .error (.build parityCase.id error)
      | .ok matcher => .ok (matcher,
          (configure workerCount cacheBudget cohortEnabled builder).cohortLayout matcher) := by
  unfold buildMatcher
  simp only
  rw [addPatterns_configure, h]
  rfl

end Registrations

/-! ### Scans -/

/-- The events of the patterns of a case, as they are compared. -/
noncomputable def caseEvents (patterns : List HirPattern) (input : Utf16Text) : List Event :=
  sortUnstable ((patterns.flatMap fun p => p.events input.units).map eventOf)

/-- What is collected are the events of the patterns, on any machine that starts its threads. -/
theorem collectEvents_eq {builder : MatcherBuilder} {matcher : Matcher}
    (h : builder.build = .ok matcher) {host : Host} (hstarts : host.Starts) (input : Utf16Text) :
    collectEvents matcher host input = .ok (caseEvents builder.patterns input) := by
  obtain ⟨hending, hevents⟩ := MatcherBuilder.scan_perm h input
    (MatcherBuilder.scan_ne_workerUnavailable h hstarts input)
  obtain ⟨-, hspans⟩ := MatcherBuilder.events_spec h host input
  have hall : ((matcher.scan host input).events.all fun matched =>
      matched.span.start ≤ matched.span.stop && matched.span.stop ≤ input.units.length) = true := by
    rw [List.all_eq_true]
    intro event hevent
    obtain ⟨-, hlt, hle⟩ := hspans event hevent
    simp [hlt.le, hle]
  unfold collectEvents
  simp only
  rw [if_pos hall, hending]
  simp only
  rw [caseEvents, sortUnstable_eq_of_perm (hevents.map eventOf)]

/-! ### Comparisons -/

section Cases

variable {lowerUpper : UInt16 → UInt16 × UInt16} {hosts : Run → Host} {parityCase : ParityCase}
  {builder : MatcherBuilder} {matcher : Matcher}

/-- Some patterns of the case use assertions, and some do not. -/
def Mixed (builder : MatcherBuilder) : Prop :=
  builder.cohorts.1.length ≠ 0 ∧ builder.cohorts.2.length ≠ 0

instance (builder : MatcherBuilder) : Decidable (Mixed builder) :=
  inferInstanceAs (Decidable (_ ∧ _))

/-- What the campaign reads in the report of a matcher with cohorts. -/
theorem report_of_build {workerCount cacheBudget : ℕ} (hbudget : cacheBudget ≤ usizeMax)
    (h : (configure workerCount cacheBudget true builder).build = .ok matcher)
    {report : MatcherCohortDiagnostics}
    (hreport : report = matcher.executionDiagnostics
      ((configure workerCount cacheBudget true builder).cohortLayout matcher) fun _ => 0) :
    report.enabled = true ∧ (report.cohortCount = 2 ↔ Mixed builder) ∧
      report.totalCacheBudget = cacheBudget := by
  have hresources := MatcherBuilder.resources_of_build hbudget h
  obtain ⟨freePartitions, bearingPartitions, hapart⟩ := MatcherBuilder.exists_keptApart rfl h
  -- the report counts the cohorts that have patterns
  have hcount : ∀ first second : ℕ,
      (if first > 0 then 1 else 0) + (if second > 0 then 1 else 0) = 2 ↔
        first ≠ 0 ∧ second ≠ 0 := by
    intro first second
    cases first <;> cases second <;> simp
  rw [hapart.layout_eq] at hreport
  rw [hreport]
  exact ⟨rfl, hcount builder.cohorts.1.length builder.cohorts.2.length, hresources.budget_eq⟩

/-- One comparison, when the matchers can be built: only the two sets of events can differ, or a
cohort be missing. -/
theorem verifyConfiguration_eq (hstarts : ∀ run, (hosts run).Starts)
    (hadd : addPatterns lowerUpper .new parityCase.patterns = .ok builder)
    (hbuild : (configure 1 0 false builder).build = .ok matcher) (requireMixed : Bool)
    (reference : List Event) {workerCount cacheBudget : ℕ} (hworkers : workerCount ≠ 0)
    (hbudget : cacheBudget ≤ usizeMax) :
    verifyConfiguration lowerUpper hosts parityCase requireMixed reference workerCount cacheBudget =
      if requireMixed = true ∧ ¬ Mixed builder then .error (.notMixed parityCase.id)
      else if caseEvents builder.patterns parityCase.input = reference then .ok ()
      else .error (.parity parityCase workerCount cacheBudget reference
        (caseEvents builder.patterns parityCase.input)
        (caseEvents builder.patterns parityCase.input)
        (caseEvents builder.patterns parityCase.input)) := by
  have hbuilds (cohortEnabled : Bool) : ∃ matcher',
      (configure workerCount cacheBudget cohortEnabled builder).build = .ok matcher' :=
    MatcherBuilder.exists_build rfl rfl hbuild rfl hworkers
  obtain ⟨ordinary, hordinary⟩ := hbuilds false
  obtain ⟨cohort, hcohort⟩ := hbuilds true
  have hordinary_built : buildMatcher lowerUpper parityCase workerCount cacheBudget false =
      .ok (ordinary, .disabled) := by
    rw [buildMatcher_of_addPatterns hadd, hordinary]
    exact congrArg (fun layout => Except.ok (ordinary, layout))
      (MatcherBuilder.cohortLayout_of_disabled rfl ordinary)
  have hcohort_built : buildMatcher lowerUpper parityCase workerCount cacheBudget true =
      .ok (cohort, (configure workerCount cacheBudget true builder).cohortLayout cohort) := by
    rw [buildMatcher_of_addPatterns hadd, hcohort]
  -- all scans find the same events
  have hordinary_events : ∀ run, collectEvents ordinary (hosts run) parityCase.input =
      .ok (caseEvents builder.patterns parityCase.input) :=
    fun run => collectEvents_eq hordinary (hstarts run) parityCase.input
  have hcohort_events : ∀ run, collectEvents cohort (hosts run) parityCase.input =
      .ok (caseEvents builder.patterns parityCase.input) :=
    fun run => collectEvents_eq hcohort (hstarts run) parityCase.input
  unfold verifyConfiguration
  rw [hordinary_built, hcohort_built]
  simp only [bind, Except.bind]
  generalize hreport : cohort.executionDiagnostics
    ((configure workerCount cacheBudget true builder).cohortLayout cohort) (fun _ => 0) = report
  obtain ⟨henabled, hcount, htotal⟩ := report_of_build hbudget hcohort hreport.symm
  rw [hordinary_events, hcohort_events, hcohort_events, henabled, htotal]
  have hactive : ((ordinary.executionDiagnostics .disabled fun _ => 0).enabled || !true) = false :=
    rfl
  have hmixed : ((requireMixed && report.cohortCount != 2) = true) =
      (requireMixed = true ∧ ¬ Mixed builder) := by
    rw [Bool.and_eq_true, bne_iff_ne, ne_eq, hcount]
  simp only [hactive, hmixed, bne_self_eq_false, Bool.or_self, bne_iff_ne, Bool.false_eq_true,
    if_false, ite_not]

/-- The configurations of the campaign have workers, and budgets that fit. -/
theorem of_mem_configurations : ∀ configuration ∈ configurations,
    configuration.1 ≠ 0 ∧ configuration.2 ≤ usizeMax := by decide

/-- All comparisons agree once the events are those of the reference. -/
theorem verifyConfigurations_eq_ok (hstarts : ∀ run, (hosts run).Starts)
    (hadd : addPatterns lowerUpper .new parityCase.patterns = .ok builder)
    (hbuild : (configure 1 0 false builder).build = .ok matcher) {requireMixed : Bool}
    (hmixed : ¬ (requireMixed = true ∧ ¬ Mixed builder)) {reference : List Event}
    (hreference : caseEvents builder.patterns parityCase.input = reference)
    {rest : List (ℕ × ℕ)} (hrest : ∀ configuration ∈ rest, configuration ∈ configurations)
    (comparisons : ℕ) :
    verifyConfigurations lowerUpper hosts parityCase requireMixed reference rest comparisons =
      .ok (comparisons + rest.length) := by
  induction rest generalizing comparisons with
  | nil => rfl
  | cons configuration rest ih =>
    obtain ⟨hconfiguration, hrest⟩ := List.forall_mem_cons.mp hrest
    obtain ⟨hworkers, hbudget⟩ := of_mem_configurations configuration hconfiguration
    rw [verifyConfigurations, verifyConfiguration_eq hstarts hadd hbuild requireMixed reference
      hworkers hbudget, if_neg hmixed, if_pos hreference]
    show verifyConfigurations lowerUpper hosts parityCase requireMixed reference rest
      (comparisons + 1) = _
    rw [ih hrest, List.length_cons, Nat.add_assoc, Nat.add_comm 1]

/-- What a case comes to when its patterns are registered and one matcher is built from them. -/
noncomputable def verdict (parityCase : ParityCase) (builder : MatcherBuilder)
    (expected : Option (List Event)) (requireMixed : Bool) : Except Failure CaseOutcome :=
  let events := caseEvents builder.patterns parityCase.input
  let reference := expected.getD events
  if requireMixed = true ∧ ¬ Mixed builder then .error (.notMixed parityCase.id)
  else if events = reference then .ok ⟨reference, configurations.length⟩
  else .error (.parity parityCase 1 0 reference events events events)

/-- When a case passes. -/
theorem verdict_eq_ok_iff {expected : Option (List Event)} {requireMixed : Bool}
    {outcome : CaseOutcome} :
    verdict parityCase builder expected requireMixed = .ok outcome ↔
      (requireMixed = true → Mixed builder) ∧
      (∀ events ∈ expected, events = caseEvents builder.patterns parityCase.input) ∧
      outcome = ⟨caseEvents builder.patterns parityCase.input, 18⟩ := by
  have hlength : configurations.length = 18 := rfl
  unfold verdict
  rw [hlength]
  simp only
  by_cases hmixed : requireMixed = true ∧ ¬ Mixed builder
  · rw [if_pos hmixed]
    constructor
    · intro h
      cases h
    · rintro ⟨hrequired, -⟩
      exact absurd (hrequired hmixed.1) hmixed.2
  · rw [if_neg hmixed]
    have hrequired : requireMixed = true → Mixed builder := by
      intro hrequired
      by_contra hnot
      exact hmixed ⟨hrequired, hnot⟩
    rw [and_iff_right hrequired]
    cases expected with
    | none => simp [eq_comm]
    | some reference =>
      simp only [Option.getD_some, Option.mem_some_iff, forall_eq']
      split
      next heq => simp [heq, eq_comm]
      next hne => simp [Ne.symm hne]

/-- How a case that can be built fails. -/
theorem failure_of_verdict {expected : Option (List Event)} {requireMixed : Bool}
    {failure : Failure}
    (h : verdict parityCase builder expected requireMixed = .error failure) :
    requireMixed = true ∧ failure = .notMixed parityCase.id ∨
      ∃ reference events, expected = some reference ∧ events ≠ reference ∧
        failure = .parity parityCase 1 0 reference events events events := by
  unfold verdict at h
  simp only at h
  split at h
  next hmixed => exact Or.inl ⟨hmixed.1, (Except.error.inj h).symm⟩
  next =>
    split at h
    next => cases h
    next hne =>
      cases expected with
      | none => exact absurd rfl hne
      | some reference => exact Or.inr ⟨reference, _, rfl, hne, (Except.error.inj h).symm⟩

/-- A case that can be built is decided by its events. -/
theorem verifyCase_eq_verdict (hstarts : ∀ run, (hosts run).Starts)
    (hadd : addPatterns lowerUpper .new parityCase.patterns = .ok builder)
    (hbuild : (configure 1 0 false builder).build = .ok matcher) (expected : Option (List Event))
    (requireMixed : Bool) :
    verifyCase lowerUpper hosts parityCase expected requireMixed =
      verdict parityCase builder expected requireMixed := by
  -- the reference is what was expected, or the events of the patterns
  have hreference : verifyCase lowerUpper hosts parityCase expected requireMixed =
      (verifyConfigurations lowerUpper hosts parityCase requireMixed
        (expected.getD (caseEvents builder.patterns parityCase.input)) configurations 0).map
          fun comparisons =>
            ⟨expected.getD (caseEvents builder.patterns parityCase.input), comparisons⟩ := by
    cases expected with
    | some events => rfl
    | none =>
      have hmatcher : buildMatcher lowerUpper parityCase 1 0 false =
          .ok (matcher, (configure 1 0 false builder).cohortLayout matcher) := by
        rw [buildMatcher_of_addPatterns hadd, hbuild]
      unfold verifyCase
      simp only [hmatcher, bind, Except.bind]
      rw [collectEvents_eq hbuild (hstarts .reference)]
      rfl
  have hfirst : configurations = (1, 0) :: configurations.tail := rfl
  rw [hreference, verdict]
  generalize expected.getD (caseEvents builder.patterns parityCase.input) = reference
  by_cases hmixed : requireMixed = true ∧ ¬ Mixed builder
  · rw [if_pos hmixed, hfirst, verifyConfigurations, verifyConfiguration_eq hstarts hadd hbuild
      requireMixed reference (by decide) (by decide), if_pos hmixed]
    rfl
  · rw [if_neg hmixed]
    by_cases hevents : caseEvents builder.patterns parityCase.input = reference
    · rw [if_pos hevents, verifyConfigurations_eq_ok hstarts hadd hbuild hmixed hevents
        (fun _ hmem => hmem), Nat.zero_add]
      rfl
    · rw [if_neg hevents, hfirst, verifyConfigurations, verifyConfiguration_eq hstarts hadd hbuild
        requireMixed reference (by decide) (by decide), if_neg hmixed, if_neg hevents]
      rfl

/-- A case fails with the failure of its first matcher. -/
theorem verifyCase_of_error {failure : Failure}
    (h : buildMatcher lowerUpper parityCase 1 0 false = .error failure)
    (expected : Option (List Event)) (requireMixed : Bool) :
    verifyCase lowerUpper hosts parityCase expected requireMixed = .error failure := by
  cases expected with
  | some events =>
    have hfirst : configurations = (1, 0) :: configurations.tail := rfl
    have hconfiguration : verifyConfiguration lowerUpper hosts parityCase requireMixed events 1 0 =
        .error failure := by
      unfold verifyConfiguration
      rw [h]
      rfl
    show (verifyConfigurations lowerUpper hosts parityCase requireMixed events configurations 0 >>=
      fun comparisons => Except.ok (CaseOutcome.mk events comparisons)) = _
    rw [hfirst, verifyConfigurations, hconfiguration]
    rfl
  | none =>
    unfold verifyCase
    simp only [h]
    rfl

/-- A case comes to the same on all machines. -/
theorem verifyCase_cases (parityCase : ParityCase) (expected : Option (List Event))
    (requireMixed : Bool) :
    (∃ failure, buildMatcher lowerUpper parityCase 1 0 false = .error failure ∧
      ∀ hosts, verifyCase lowerUpper hosts parityCase expected requireMixed = .error failure) ∨
    ∃ builder matcher, addPatterns lowerUpper .new parityCase.patterns = .ok builder ∧
      (configure 1 0 false builder).build = .ok matcher ∧
      ∀ hosts : Run → Host, (∀ run, (hosts run).Starts) →
        verifyCase lowerUpper hosts parityCase expected requireMixed =
          verdict parityCase builder expected requireMixed := by
  cases hadd : addPatterns lowerUpper .new parityCase.patterns with
  | error rejected =>
    have hmatcher : buildMatcher lowerUpper parityCase 1 0 false =
        .error (.registration parityCase.id rejected.1 rejected.2) := by
      unfold buildMatcher
      simp only
      rw [addPatterns_configure, hadd]
      rfl
    exact Or.inl ⟨_, hmatcher, fun hosts => verifyCase_of_error hmatcher expected requireMixed⟩
  | ok builder =>
    cases hbuild : (configure 1 0 false builder).build with
    | error error =>
      have hmatcher : buildMatcher lowerUpper parityCase 1 0 false =
          .error (.build parityCase.id error) := by
        rw [buildMatcher_of_addPatterns hadd, hbuild]
      exact Or.inl ⟨_, hmatcher, fun hosts => verifyCase_of_error hmatcher expected requireMixed⟩
    | ok matcher =>
      exact Or.inr ⟨builder, matcher, rfl, hbuild, fun hosts hstarts =>
        verifyCase_eq_verdict hstarts hadd hbuild expected requireMixed⟩

/-- A case fails for want of a matcher or of a cohort, and otherwise only with a reference from
elsewhere. -/
theorem failure_of_verifyCase (hstarts : ∀ run, (hosts run).Starts)
    {expected : Option (List Event)} {requireMixed : Bool} {failure : Failure}
    (h : verifyCase lowerUpper hosts parityCase expected requireMixed = .error failure) :
    buildMatcher lowerUpper parityCase 1 0 false = .error failure ∨
      requireMixed = true ∧ failure = .notMixed parityCase.id ∨
      ∃ reference events, expected = some reference ∧ events ≠ reference ∧
        failure = .parity parityCase 1 0 reference events events events := by
  obtain ⟨failure', hmatcher, hcase⟩ | ⟨builder, matcher, -, -, hcase⟩ :=
    @verifyCase_cases lowerUpper parityCase expected requireMixed
  · rw [hcase hosts] at h
    obtain rfl := Except.error.inj h
    exact Or.inl hmatcher
  · rw [hcase hosts hstarts] at h
    exact Or.inr (failure_of_verdict h)

end Cases

/-! ### A case with both cohorts -/

/-- What is registered is determined by its fields. -/
theorem addWithFlags_eq_ok {lowerUpper : UInt16 → UInt16 × UInt16}
    {builder builder' : MatcherBuilder} {patternId : PatternId}
    {units : List UInt16} {flags : PatternFlags} {parsed : HirPattern}
    (hnew : patternId ∉ builder.patternIds)
    (hparsed : parseWithFlags lowerUpper patternId units flags = .ok parsed)
    (hfields : builder'.fields = { builder.fields with
      patternIds := insert patternId builder.patternIds
      patterns := builder.patterns ++ [parsed] }) :
    builder.addWithFlags lowerUpper patternId units flags = .ok builder' := by
  unfold MatcherBuilder.addWithFlags
  rw [dif_neg hnew]
  split
  next error herror =>
    rw [hparsed] at herror
    cases herror
  next parsed' hparsed' =>
    obtain rfl := Except.ok.inj (hparsed.symm.trans hparsed')
    cases builder'
    unfold MatcherBuilder.fields at hfields
    simp only [BuilderFields.mk.injEq] at hfields
    obtain ⟨rfl, rfl, rfl, rfl, rfl, rfl, rfl⟩ := hfields
    rfl

/-- `^a`. -/
def anchoredPattern : HirPattern :=
  HirPattern.new ⟨2⟩ (.sequence [.assertion .lineStart, .symbol 0x61])
    (.sequence (List.cons_ne_nil _ _) (by
      simp only [List.mem_cons, List.not_mem_nil, or_false, forall_eq_or_imp, forall_eq]
      exact ⟨.assertion _, .symbol _⟩))

/-- The text of the case parses to an anchored letter. -/
theorem parse_anchored :
    parseWithFlags (fun unit => (unit, unit)) ⟨2⟩ [ascii '^', ascii 'a'] .none =
      .ok anchoredPattern := by
  have htext : PatternText ⟨PatternFlags.none.isCaseInsensitive, fun unit => (unit, unit)⟩
      [ascii '^', ascii 'a'] (.sequence [.assertion .lineStart, .symbol 0x61]) :=
    .plain (.last (.plain .lineStart (.plain (.literal rfl) .nil)))
  rw [parseWithFlags_eq_of_patternText (List.cons_ne_nil _ _) htext]
  rfl

/-- A builder that `a` and `^a` have been added to. -/
def anchoredBuilder : MatcherBuilder :=
  { letterBuilder with
    patternIds := {⟨2⟩, ⟨1⟩}
    patterns := letterBuilder.patterns ++ [anchoredPattern]
    patternIds_eq := by decide
    nodup := by decide }

/-- A case with both cohorts. -/
def anchoredCase : ParityCase where
  id := "anchored"
  patterns := [⟨1, [ascii 'a'], .none⟩, ⟨2, [ascii '^', ascii 'a'], .none⟩]
  input := textAb

/-- Both patterns of the case are registered. -/
theorem addPatterns_anchored :
    addPatterns (fun unit => (unit, unit)) .new anchoredCase.patterns = .ok anchoredBuilder := by
  have hletter : MatcherBuilder.new.addWithFlags (fun unit => (unit, unit)) ⟨1⟩ [ascii 'a'] .none =
      .ok letterBuilder := addWithFlags_eq_ok (by decide) parse_letter rfl
  have hanchored : letterBuilder.addWithFlags (fun unit => (unit, unit)) ⟨2⟩
      [ascii '^', ascii 'a'] .none = .ok anchoredBuilder :=
    addWithFlags_eq_ok (by decide) parse_anchored rfl
  show addPatterns _ _ [_, _] = _
  rw [addPatterns, hletter]
  simp only
  rw [addPatterns, hanchored]
  rfl

/-- Whatever the machines are that its scans run on, a case passes if and only if its patterns are
registered, one matcher is built from them, both cohorts have patterns where that is required, and
the events that were expected, if any were, are the events of the patterns; all eighteen comparisons
then agree. It never fails because of a layout, a budget or a scan, and only with a reference from
elsewhere because of its events. -/
theorem fixtures_are_verified_exactly (lowerUpper : UInt16 → UInt16 × UInt16)
    {hosts : Run → Host} (hstarts : ∀ run, (hosts run).Starts) (parityCase : ParityCase)
    (expected : Option (List Event)) (requireMixed : Bool) :
    (∀ outcome, verifyCase lowerUpper hosts parityCase expected requireMixed = .ok outcome ↔
      ∃ builder matcher, addPatterns lowerUpper .new parityCase.patterns = .ok builder ∧
        (configure 1 0 false builder).build = .ok matcher ∧
        (requireMixed = true → Mixed builder) ∧
        (∀ events ∈ expected, events = caseEvents builder.patterns parityCase.input) ∧
        outcome = ⟨caseEvents builder.patterns parityCase.input, 18⟩) ∧
    ∀ failure, verifyCase lowerUpper hosts parityCase expected requireMixed = .error failure →
      buildMatcher lowerUpper parityCase 1 0 false = .error failure ∨
      requireMixed = true ∧ failure = .notMixed parityCase.id ∨
      ∃ reference events, expected = some reference ∧ events ≠ reference ∧
        failure = .parity parityCase 1 0 reference events events events := by
  refine ⟨fun outcome => ?_, fun failure => failure_of_verifyCase hstarts⟩
  obtain ⟨failure, hmatcher, hcase⟩ | ⟨builder, matcher, hadd, hbuild, hcase⟩ :=
    @verifyCase_cases lowerUpper parityCase expected requireMixed
  · rw [hcase hosts]
    constructor
    · intro houtcome
      cases houtcome
    · rintro ⟨builder, matcher, hadd, hbuild, -⟩
      rw [buildMatcher_of_addPatterns hadd, hbuild] at hmatcher
      cases hmatcher
  · rw [hcase hosts hstarts, verdict_eq_ok_iff]
    constructor
    · rintro ⟨hmixed, hexpected, houtcome⟩
      exact ⟨builder, matcher, hadd, hbuild, hmixed, hexpected, houtcome⟩
    · rintro ⟨builder', matcher', hadd', -, hmixed, hexpected, houtcome⟩
      obtain rfl := Except.ok.inj (hadd.symm.trans hadd')
      exact ⟨hmixed, hexpected, houtcome⟩

/-- It passes against the events of its patterns, on a machine without vector instructions. -/
theorem fixtures_are_verified_exactly_anchoredCase : ∃ outcome,
    verifyCase (fun unit => (unit, unit)) (fun _ => readyHost) anchoredCase
      (some (caseEvents anchoredBuilder.patterns textAb)) true = .ok outcome := by
  have hbuild : ∃ matcher, (configure 1 0 false anchoredBuilder).build = .ok matcher := ⟨_, rfl⟩
  obtain ⟨matcher, hbuild⟩ := hbuild
  refine ⟨_, ((fixtures_are_verified_exactly _ (fun _ => readyHost_starts) anchoredCase _ true).1
    _).mpr ⟨anchoredBuilder, matcher, addPatterns_anchored, hbuild, fun _ => ?_, ?_, rfl⟩⟩
  · exact ⟨by decide, by decide⟩
  · intro events hevents
    exact (Option.some.inj hevents).symm

end CohortParity

end Rustmatch

import Rustmatch.Cohort.Prefixes
import Rustmatch.Hir.Normal
import Rustmatch.Matcher.Windows

/-!
# What a builder reports of its patterns

`cohort_diagnostics` of `api.rs` classifies the registered patterns before anything is compiled. The
scans of a matcher are built along other paths: the parser, the compiler, the prefilters and the
schedulers. Here every event of every scan is held against what was reported of its pattern.

## Main definitions

* `MatcherBuilder.cohortDiagnostics`;
* `PatternDiagnostics.Describes`: an event that is as the report of its pattern says.

## Main results

* `diagnostics_describe_events`: the reports are right about all events, and the cohorts that are
  reported are those that are compiled.
-/

namespace Rustmatch

/-! ### Parsed patterns -/

/-- Normal forms have no repetitions that are limited to no copies. -/
theorem Hir.Normal.positiveLimits {h : Hir} (hnormal : h.Normal) : h.PositiveLimits := by
  induction hnormal with
  | never => exact .never
  | epsilon => exact .epsilon
  | assertion a => exact .assertion a
  | symbol s => exact .symbol s
  | predicate p => exact .predicate p
  | sequence _ _ _ ih => exact .sequence ih
  | alternation _ _ _ ih => exact .alternation ih
  | repetition hbody _ ih =>
    refine .repetition (fun limit hlimit => Nat.one_le_iff_ne_zero.mpr ?_) ih
    rintro rfl
    exact hbody.max_ne_zero hlimit

/-- A pattern that the parser has returned. -/
def HirPattern.Parsed (lowerUpper : UInt16 → UInt16 × UInt16) (p : HirPattern) : Prop :=
  ∃ patternId units flags, parseWithFlags lowerUpper patternId units flags = .ok p

namespace HirPattern.Parsed

variable {lowerUpper : UInt16 → UInt16 × UInt16} {p : HirPattern}

/-- The parser reports the least length of the expression that it returns. -/
theorem minimumConsumed_eq (h : p.Parsed lowerUpper) :
    p.minimumConsumed = p.expression.minimumConsumed := by
  obtain ⟨patternId, units, flags, hparse⟩ := h
  obtain ⟨htext, heq, -⟩ := parseWithFlags_eq_ok _ _ _ _ hparse
  rw [heq]
  rfl

/-- The parser returns normal forms. -/
theorem normal (h : p.Parsed lowerUpper) : p.expression.Normal := by
  obtain ⟨patternId, units, flags, hparse⟩ := h
  obtain ⟨htext, -, -⟩ := parseWithFlags_eq_ok _ _ _ _ hparse
  exact htext.normal

/-- The parser returns expressions with canonical predicates and bounds in order. -/
theorem valid (h : p.Parsed lowerUpper) : p.expression.Valid := by
  obtain ⟨patternId, units, flags, hparse⟩ := h
  obtain ⟨htext, -, -⟩ := parseWithFlags_eq_ok _ _ _ _ hparse
  exact htext.valid

end HirPattern.Parsed

/-- Calls register what the parser returns. -/
theorem BuilderFields.parsed_of_run {lowerUpper : UInt16 → UInt16 × UInt16} {fields : BuilderFields}
    (h : ∀ p ∈ fields.patterns, p.Parsed lowerUpper) (calls : List BuilderCall) :
    ∀ p ∈ (fields.run lowerUpper calls).patterns, p.Parsed lowerUpper := by
  have hadd : ∀ {fields : BuilderFields}, (∀ p ∈ fields.patterns, p.Parsed lowerUpper) →
      ∀ patternId units flags,
        ∀ p ∈ (fields.addWithFlags lowerUpper patternId units flags).2.patterns,
          p.Parsed lowerUpper := by
    intro fields h patternId units flags
    unfold addWithFlags
    split
    next => exact h
    next =>
      split
      next => exact h
      next parsed hparsed =>
        intro p hp
        obtain hp | hp := List.mem_append.mp hp
        · exact h p hp
        · obtain rfl := List.mem_singleton.mp hp
          exact ⟨patternId, units, flags, hparsed⟩
  induction calls generalizing fields with
  | nil => exact h
  | cons call calls ih =>
    show ∀ p ∈ ((fields.call lowerUpper call).2.run lowerUpper calls).patterns, p.Parsed lowerUpper
    apply ih
    cases call with
    | add patternId units => exact hadd h _ _ _
    | addWithFlags patternId units flags => exact hadd h _ _ _
    | stateCacheBudget stateBudget => exact h
    | workerCount workerCount => exact h

/-! ### Exact literals -/

/-- Exact literals keep their loops apart. -/
theorem Hir.loopsApart_of_exactLiteral {h : Hir} {literal : List UInt16}
    (hexact : h.exactLiteral = some literal) : h.loopsApart = true := by
  have hitems : ∀ {es : List Hir} {units literal : List UInt16},
      exactItems es units = some literal → ∀ e ∈ es, ∃ unit, e.exactLiteral = some unit := by
    intro es units literal hexact
    induction es generalizing units with
    | nil => simp
    | cons e es ih =>
      rw [exactItems] at hexact
      split at hexact
      next unit hunit => exact List.forall_mem_cons.mpr ⟨⟨unit, hunit⟩, ih hexact⟩
      next => cases hexact
  induction h generalizing literal with
  | never | epsilon | assertion _ | symbol _ | predicate _ => rfl
  | sequence es ih =>
    rw [loopsApart, allLoopsApart_iff]
    intro e he
    obtain ⟨unit, hunit⟩ := hitems hexact e he
    exact ih e he hunit
  | alternation es ih =>
    obtain ⟨-, hbranches⟩ := exactBranches_eq_some hexact
    have hhead : anyLoopsAtHead es = false :=
      anyLoopsAtHead_eq_false.mpr fun e he => loopsAtHead_of_exactLiteral (hbranches e he)
    rw [loopsApart, hhead, Bool.not_false, Bool.and_true, allLoopsApart_iff]
    exact fun e he => ih e he (hbranches e he)
  | repetition e min max ih =>
    cases max with
    | none => cases hexact
    | some limit =>
      rw [exactLiteral] at hexact
      split at hexact
      next hlimit =>
        obtain ⟨unit, hunit, -⟩ := Option.map_eq_some_iff.mp hexact
        rw [loopsApart, ih hunit, hlimit, beq_self_eq_true]
        rfl
      next => cases hexact

/-- Without assertions, and with its loops apart, an expression is matched by its words. -/
theorem Hir.walk_eq_leads {h : Hir} (hne : h.SequencesNonempty) (hapart : h.loopsApart = true)
    (hfree : h.usesAssertions = false) (input : List UInt16) :
    h.walk (Reading.contextual input) = Leads (allHold input) h.language := by
  have hholds : ∀ a c, (allHold input).holds a c = true := fun _ _ => rfl
  have hreading := @walk_eq_of_assertionFree (Reading.contextual input) (allHold input) rfl h hfree
  rw [hreading.1, walk_eq_denote hne hapart, denote_eq_leads hholds]

/-! ### Reports -/

/-- `MatcherBuilder::cohort_diagnostics`: the report on the registered patterns. -/
def MatcherBuilder.cohortDiagnostics (builder : MatcherBuilder) : CohortDiagnostics :=
  CohortDiagnostics.classify builder.patterns

namespace PatternDiagnostics

/-- An event is as the report says, with assertions or without: it has the identity, it is no
shorter than the least length, its units are ASCII when that is reported, it is as long as a proven
literal is, and no shorter than the necessary prefix. -/
structure Describes (facts : PatternDiagnostics) (input : List UInt16) (event : Match) : Prop where
  /-- The event is of the reported pattern. -/
  patternId : event.patternId = facts.patternId
  /-- A least length is reported, and the event has it. -/
  minimum : ∃ least, facts.minimumConsumed = some least ∧
    event.span.start + least ≤ event.span.stop
  /-- The units of the event are ASCII where that is reported. -/
  ascii : facts.asciiOnly = true → ∀ position, event.span.start ≤ position →
    position < event.span.stop → ∃ unit, input[position]? = some unit ∧ unit < 128
  /-- The event has the length of a proven exact literal. -/
  literal : ∀ units, facts.provenExactLiteralUnits = some units →
    event.span.stop = event.span.start + units
  /-- The event is no shorter than the necessary prefix. -/
  necessary : event.span.start + facts.necessaryPrefixUnits ≤ event.span.stop

end PatternDiagnostics

/-- The necessary prefix is no longer than the shortest match: it begins every word, and has far
fewer units than the length is cut off at. -/
theorem Hir.length_prefixSummary_le {h : Hir} (hvalid : h.Valid) {least : ℕ}
    (hminimum : h.minimumConsumed = some least) : h.prefixSummary.units.length ≤ least := by
  have hleast := hvalid.analyses.leastLength
  rw [hminimum] at hleast
  obtain ⟨word, hword, -, rfl⟩ := hleast
  have hdescribes := h.describes_prefixSummary
  have hcap := hdescribes.length_le.trans maxPrefixUnits_lt_usizeMax.le
  exact le_min (hdescribes.isPrefix word hword).length_le hcap

section Events

variable {p : HirPattern} {input : List UInt16} {start stop : ℕ}

/-- Accepted ends of a pattern are as its report says. -/
theorem HirPattern.describes_of_acceptedEnds (hparsed : p.minimumConsumed =
    p.expression.minimumConsumed) (hnormal : p.expression.Normal) (hvalid : p.expression.Valid)
    (ordinal : ℕ) (h : stop ∈ p.acceptedEnds (Reading.contextual input) start) :
    (PatternDiagnostics.classify ordinal p).Describes input ⟨p.patternId, ⟨start, stop⟩⟩ := by
  obtain ⟨hlt, phase, hwalk⟩ := mem_acceptedEnds_iff.mp h
  -- without a least length there would be no run
  have hminimum : ∃ least, p.expression.minimumConsumed = some least ∧ start + least ≤ stop := by
    have hleast := Hir.walk_le_atLeast p.expression _ _ hwalk
    cases hminimum : p.expression.minimumConsumed with
    | none =>
      rw [hminimum] at hleast
      exact hleast.elim
    | some least =>
      rw [hminimum] at hleast
      exact ⟨least, rfl, hleast⟩
  constructor
  · rfl
  · show ∃ least, p.minimumConsumed = some least ∧ _
    rw [hparsed]
    exact hminimum
  · intro hascii
    exact (Hir.walk_le_through (Hir.lt_of_asciiOnly hascii) _ _ hwalk).2
  · -- the only word of the expression is its literal
    intro units hunits
    show stop = start + units
    have hproven : (if p.expression.assertionKinds.isEmpty && p.expression.prefixSummary.exact then
        some p.expression.prefixSummary.units.length else none) = some units := hunits
    rw [Hir.isEmpty_assertionKinds] at hproven
    split at hproven
    next hboth =>
      rw [Bool.and_eq_true, Bool.not_eq_true'] at hboth
      obtain ⟨hfree, hexact⟩ := hboth
      have hliteral := (Hir.agreesWithLiterals hnormal.positiveLimits hfree).literal_of_exact hexact
      rw [Hir.walk_eq_leads p.sequencesNonempty (Hir.loopsApart_of_exactLiteral hliteral)
        hfree] at hwalk
      obtain ⟨word, hword, -, hconfig⟩ := hwalk
      rw [(Hir.describes_prefixSummary p.expression).eq_singleton hexact] at hword
      obtain rfl := Set.mem_singleton_iff.mp hword
      obtain rfl := Option.some.inj hproven
      exact (Prod.mk.inj hconfig).1
    next => cases hproven
  · obtain ⟨least, hleast, hle⟩ := hminimum
    have hprefix := Hir.length_prefixSummary_le hvalid hleast
    show start + p.expression.prefixSummary.units.length ≤ stop
    omega

end Events

/-! ### Cohorts -/

/-- The cohorts that are reported are those that are compiled. -/
theorem MatcherBuilder.cohortDiagnostics_spec (builder : MatcherBuilder) :
    builder.cohortDiagnostics.assertionFreePatternIds =
        builder.cohorts.1.map HirPattern.patternId ∧
      builder.cohortDiagnostics.assertionBearingPatternIds =
        builder.cohorts.2.map HirPattern.patternId := by
  have huses : ∀ item : HirPattern × ℕ,
      (PatternDiagnostics.classify item.2 item.1).usesAssertions =
        item.1.expression.usesAssertions := by
    intro item
    show (!item.1.expression.assertionKinds.isEmpty) = _
    rw [Hir.isEmpty_assertionKinds, Bool.not_not]
  have hfacts : ∀ test : Bool → Bool,
      ((builder.patterns.zipIdx.map fun item => PatternDiagnostics.classify item.2 item.1).filter
          fun facts => test facts.usesAssertions).map PatternDiagnostics.patternId =
        (builder.patterns.filter fun p => test p.expression.usesAssertions).map
          HirPattern.patternId := by
    intro test
    have hpatterns : (builder.patterns.filter fun p => test p.expression.usesAssertions) =
        (builder.patterns.zipIdx.filter fun item => test item.1.expression.usesAssertions).map
          Prod.fst := by
      conv_lhs => rw [← List.zipIdx_map_fst 0 builder.patterns]
      rw [List.filter_map]
      rfl
    rw [hpatterns, List.filter_map, List.map_map, List.map_map]
    simp only [Function.comp_def, huses]
    rfl
  have hfree := hfacts fun uses => !uses
  have hbearing := hfacts fun uses => uses
  unfold cohortDiagnostics CohortDiagnostics.classify cohorts
  simp only [List.partition_eq_filter_filter]
  refine ⟨hfree, hbearing.trans ?_⟩
  congr 2
  funext p
  exact (Bool.not_not _).symm

/-! ### Events of scans -/

/-- Whatever calls were made, the reports on the patterns of the builder are right about every event
of every scan, with assertions or without: about its least length, its units, and the lengths of a
literal and of the necessary prefix. The greatest length is right for expressions in which every
class has a unit. The cohorts that are reported are those that are compiled. -/
theorem diagnostics_describe_events (lowerUpper : UInt16 → UInt16 × UInt16)
    (calls : List BuilderCall) {builder : MatcherBuilder}
    (hcalls : builder.fields = MatcherBuilder.new.fields.run lowerUpper calls) {matcher : Matcher}
    (h : builder.build = .ok matcher) (host : Host) (input : Utf16Text) :
    (∀ event ∈ (matcher.scan host input).events,
      ∃ ordinal p, builder.patterns[ordinal]? = some p ∧
        builder.cohortDiagnostics.patterns[ordinal]? =
          some (PatternDiagnostics.classify ordinal p) ∧
        (PatternDiagnostics.classify ordinal p).Describes input.units event ∧
        (p.expression.live = true → ∀ most,
          (PatternDiagnostics.classify ordinal p).finiteMaximum = some most →
            event.span.stop ≤ event.span.start + most)) ∧
    builder.cohortDiagnostics.assertionFreePatternIds =
      builder.cohorts.1.map HirPattern.patternId ∧
    builder.cohortDiagnostics.assertionBearingPatternIds =
      builder.cohorts.2.map HirPattern.patternId := by
  refine ⟨fun event hevent => ?_, builder.cohortDiagnostics_spec⟩
  have hparsed : ∀ p ∈ builder.patterns, p.Parsed lowerUpper := by
    have hpatterns : builder.patterns = (MatcherBuilder.new.fields.run lowerUpper calls).patterns :=
      congrArg BuilderFields.patterns hcalls
    rw [hpatterns]
    exact BuilderFields.parsed_of_run (fun p hp => absurd hp List.not_mem_nil) calls
  obtain ⟨p, hp, hid, hat⟩ := MatcherBuilder.exists_eventAt_of_mem_scan h hevent
  obtain ⟨ordinal, hordinal⟩ := List.mem_iff_getElem?.mp hp
  have haccepted := (HirPattern.isGreatest_of_eventAt hat).1
  have hdescribes := HirPattern.describes_of_acceptedEnds (hparsed p hp).minimumConsumed_eq
    (hparsed p hp).normal (hparsed p hp).valid ordinal haccepted
  rw [← hid] at hdescribes
  refine ⟨ordinal, p, hordinal, ?_, hdescribes, ?_⟩
  · show (builder.patterns.zipIdx.map fun item =>
      PatternDiagnostics.classify item.2 item.1)[ordinal]? = _
    rw [List.getElem?_map, List.getElem?_zipIdx, hordinal]
    simp
  · intro hlive most hmost
    have hfinite : p.expression.maximumConsumed = .finite most := by
      change PatternDiagnostics.finiteMaximum _ = _ at hmost
      unfold PatternDiagnostics.finiteMaximum at hmost
      split at hmost
      next maximum hmaximum =>
        obtain rfl := Option.some.inj hmost
        exact hmaximum
      all_goals cases hmost
    obtain ⟨-, phase, hwalk⟩ := HirPattern.mem_acceptedEnds_iff.mp haccepted
    have husize : input.units.length ≤ usizeMax := input.length_le.trans (by decide)
    exact ((Hir.runs_le_spans husize hlive hfinite).1 _ _ hwalk).2

/-- The report on one letter. -/
theorem diagnostics_describe_events_letterBuilder : ∃ matcher, letterBuilder.build = .ok matcher ∧
    letterBuilder.fields = MatcherBuilder.new.fields.run (fun unit => (unit, unit))
      [.add ⟨1⟩ [ascii 'a']] ∧
    ∀ event ∈ (matcher.scan readyHost textAb).events,
      ∃ ordinal p, letterBuilder.patterns[ordinal]? = some p ∧
        (PatternDiagnostics.classify ordinal p).Describes textAb.units event := by
  have hbuild : ∃ matcher, letterBuilder.build = .ok matcher := ⟨_, rfl⟩
  obtain ⟨matcher, h⟩ := hbuild
  have hfields : letterBuilder.fields = MatcherBuilder.new.fields.run (fun unit => (unit, unit))
      [.add ⟨1⟩ [ascii 'a']] := by
    show _ = (BuilderFields.addWithFlags _ _ _ _ _).2
    unfold BuilderFields.addWithFlags
    rw [if_neg (by decide), parse_letter]
    rfl
  refine ⟨matcher, h, hfields, fun event hevent => ?_⟩
  obtain ⟨ordinal, p, hp, -, hdescribes, -⟩ :=
    (diagnostics_describe_events _ _ hfields h readyHost textAb).1 event hevent
  exact ⟨ordinal, p, hp, hdescribes⟩

end Rustmatch

import Rustmatch.CohortViews
import Rustmatch.Matcher.Scans

/-!
# What a matcher over shared cohorts delivers

A root of the shared database has the events of its cohort, and the patterns with assertions have
no events away from their shared beginning. So the two scans together deliver the events of all
patterns, whatever is decided about the beginning.

## Main results

* `strictAssertionAsciiFive_spec`: the strict proof of a beginning is sound;
* `events_cohort_perm`: the events of a root;
* `SharedCohortMatcher.BuiltFrom.scanBuffered_eq`: the events of a scan.
-/

open Relation

namespace Rustmatch

/-! ### The shared beginning -/

section Beginning

variable {R : Reading}

/-- Tests and empty expressions in front do not matter. -/
theorem comp_le_of_le_eq {r s t : Config → Config → Prop} (hr : r ≤ Eq) (hs : s ≤ t) :
    Comp r s ≤ t := by
  rintro c e ⟨d, hcd, hde⟩
  exact hr c d hcd ▸ hs d e hde

/-- What the loop has read, and what it goes on to read, begins every run. -/
theorem strictItems_spec {items : List Hir} {read five : List UInt8} {sawAssertion : Bool}
    (h : strictItems items read sawAssertion = some five) :
    five.length = 5 ∧ ∃ rest, five = read ++ rest ∧
      Hir.walkItems R items ≤ Begins R (rest.map UInt8.toUInt16) := by
  -- the induction follows the items; `read` is what the loop has collected
  induction items generalizing read sawAssertion with
  | nil => cases h
  | cons expression items ih =>
    unfold strictItems at h
    split at h
    -- an assertion reads nothing
    next a =>
      obtain ⟨hlength, rest, hfive, hrest⟩ := ih h
      refine ⟨hlength, rest, hfive, comp_le_of_le_eq ?_ hrest⟩
      exact fun c d htests => htests.2
    next =>
      obtain ⟨hlength, rest, hfive, hrest⟩ := ih h
      exact ⟨hlength, rest, hfive, comp_le_of_le_eq (le_refl _) hrest⟩
    -- a unit is kept only if it is ASCII; the fifth one ends the loop, behind an assertion
    next read symbol =>
      split at h
      next hascii =>
        have hunit : symbol.toUInt8.toUInt16 = symbol := by
          rw [← UInt16.toNat_inj]
          have hlt : symbol.toNat < 128 := UInt16.lt_iff_toNat_lt.mp hascii.2
          rw [UInt8.toNat_toUInt16, UInt16.toNat_toUInt8]
          omega
        simp only at h
        split at h
        next hlength =>
          split at h
          next =>
            obtain rfl := Option.some.inj h
            refine ⟨hlength, [symbol.toUInt8], rfl, ?_⟩
            rw [List.map_singleton, hunit]
            exact (comp_mono (le_refl _) (walkItems_le_begins_nil items)).trans
              (comp_consumes_begins symbol)
          next => cases h
        next =>
          obtain ⟨hlength, rest, hfive, hrest⟩ := ih h
          refine ⟨hlength, symbol.toUInt8 :: rest, by rw [hfive, List.append_assoc]; rfl, ?_⟩
          rw [List.map_cons, hunit]
          exact (comp_mono (le_refl _) hrest).trans (comp_consumes_begins symbol)
      next => cases h
    next => cases h

/-- The strict proof is sound: every run begins with the five units. -/
theorem strictAssertionAsciiFive_spec {expression : Hir} {five : List UInt8}
    (h : strictAssertionAsciiFive expression = some five) :
    five.length = 5 ∧ expression.walk R ≤ Begins R (five.map UInt8.toUInt16) := by
  unfold strictAssertionAsciiFive at h
  split at h
  next expressions =>
    obtain ⟨hlength, rest, rfl, hrest⟩ := @strictItems_spec R _ _ _ _ h
    cases expressions with
    | nil => cases h
    | cons expression expressions => exact ⟨hlength, hrest⟩
  next => cases h

/-- A round keeps a beginning that the pattern has, finds it, or gives up for good. -/
theorem SharedBeginning.add_cases {beginning : SharedBeginning}
    (hknown : beginning.assertionPrefixPossible = false → beginning.assertionAsciiFive = none)
    (p : HirPattern) :
    (∃ five, strictAssertionAsciiFive p.expression = some five ∧
      beginning.assertionPrefixPossible = true ∧
      (∀ expected ∈ beginning.assertionAsciiFive, expected = five) ∧
      beginning.add p = ⟨some five, true⟩) ∨ beginning.add p = ⟨none, false⟩ := by
  unfold add
  split
  next hpossible =>
    split
    next five hfive =>
      split
      next hsame =>
        refine Or.inl ⟨five, hfive, hpossible, fun expected hexpected => ?_, rfl⟩
        rw [Option.mem_def.mp hexpected, Option.all_some] at hsame
        exact eq_of_beq hsame
      next => exact Or.inr rfl
    next => exact Or.inr rfl
  next hpossible =>
    -- once the beginning is not possible it stays so
    have hfalse := Bool.eq_false_iff.mpr hpossible
    have hnone := hknown hfalse
    obtain ⟨five, possible⟩ := beginning
    obtain rfl : five = none := hnone
    obtain rfl : possible = false := hfalse
    exact Or.inr rfl

/-- After the loop over the patterns, a known beginning belongs to all of them. -/
theorem strict_of_foldl_add {patterns : List HirPattern} {beginning : SharedBeginning}
    {five : List UInt8} (hknown : beginning.assertionPrefixPossible = false →
      beginning.assertionAsciiFive = none)
    (h : (patterns.foldl SharedBeginning.add beginning).assertionAsciiFive = some five) :
    (∀ p ∈ patterns, strictAssertionAsciiFive p.expression = some five) ∧
      (∀ expected ∈ beginning.assertionAsciiFive, expected = five) ∧
      (beginning.assertionAsciiFive = some five ∨ beginning.assertionPrefixPossible = true) := by
  induction patterns generalizing beginning with
  | nil => exact ⟨by simp, fun _ hexpected => Option.some.inj (hexpected.symm.trans h), Or.inl h⟩
  | cons p patterns ih =>
    rw [List.foldl_cons] at h
    obtain ⟨found, hfound, hpossible, hsame, hadd⟩ | hadd := SharedBeginning.add_cases hknown p
    · rw [hadd] at h
      obtain ⟨hrest, hfive, -⟩ := ih (by simp) h
      obtain rfl : found = five := hfive found rfl
      exact ⟨List.forall_mem_cons.mpr ⟨hfound, hrest⟩, hsame, Or.inr hpossible⟩
    · -- what is given up stays unknown
      rw [hadd] at h
      obtain ⟨-, -, hgone | hgone⟩ := ih (fun _ => rfl) h
      · cases hgone
      · cases hgone

/-- The beginning of a view belongs to all its patterns. -/
theorem strict_of_assertionBearingView {patterns : List HirPattern} {five : List UInt8}
    (h : (assertionBearingView patterns).assertionAsciiFive? = some five) :
    ∀ p ∈ cohort patterns true, strictAssertionAsciiFive p.expression = some five := by
  unfold PatternDatabaseView.assertionAsciiFive? at h
  split at h
  next hne =>
    have hfive := Option.some.inj h
    rw [hfive] at hne
    simp only [assertionBearingView] at hfive
    generalize hfold : ((cohort patterns true).foldl SharedBeginning.add ⟨none, true⟩) = beginning
      at hfive
    -- the view only keeps five units that are not the default
    have hknown : beginning.assertionAsciiFive = some five := by
      cases hknown : beginning.assertionAsciiFive with
      | none =>
        rw [hknown] at hfive
        exact absurd hfive.symm hne
      | some found =>
        rw [hknown, Option.filter_some] at hfive
        split at hfive
        · exact congrArg some hfive
        · exact absurd hfive.symm hne
    rw [← hfold] at hknown
    exact (strict_of_foldl_add (by simp) hknown).1
  next => cases h

/-- The units of a beginning are found where they stand. -/
theorem beginsAt_of_begins {five : List UInt8} {input : List UInt16} {start : ℕ}
    (hbound : input.length ≤ maxUnits) (hpos : 0 < five.length)
    (h : five.map UInt8.toUInt16 <+: input.drop start) : beginsAt five input start = true := by
  have hle := h.length_le
  rw [List.length_map, List.length_drop] at hle
  have hadd : saturatingAdd start five.length = start + five.length := by
    refine Nat.min_eq_left ?_
    unfold maxUnits at hbound
    unfold usizeMax
    omega
  have hrange := getRange_eq_some_of_begins h (le_of_eq (List.length_map _).symm) hpos
  rw [← List.length_map UInt8.toUInt16, List.take_length, List.length_map] at hrange
  have hall : ∀ units : List UInt8, ((units.map UInt8.toUInt16).zip units).all
      (fun pair => pair.1 == pair.2.toUInt16) = true := by
    intro units
    induction units with
    | nil => rfl
    | cons unit units ih => simpa using ih
  unfold beginsAt
  rw [hadd, hrange]
  exact hall five

end Beginning

/-! ### The roots -/

section Roots

variable {patterns : List HirPattern} {shared : SharedCohortCompilation}

/-- The root of a cohort. -/
def rootOfCohort (usesAssertions : Bool) : StateId := if usesAssertions then 1 else 0

/-- A pattern hangs at the root of its cohort. -/
theorem cohortRoot_eq_iff (p : HirPattern) (usesAssertions : Bool) :
    cohortRoot p = rootOfCohort usesAssertions ↔
      (p.expression.usesAssertions == usesAssertions) = true := by
  unfold cohortRoot rootOfCohort
  cases p.expression.usesAssertions <;> cases usesAssertions <;> decide

/-- The accepted ends of a pattern are those of its runs. -/
theorem HirPattern.mem_acceptedEnds_iff {p : HirPattern} {R : Reading} {start stop : ℕ} :
    stop ∈ p.acceptedEnds R start ↔
      start < stop ∧ ∃ phase, p.expression.walk R (start, false) (stop, phase) := by
  have hwalk : ∀ phase, p.expression.walk R (start, false) (stop, phase) ↔
      p.expression.denote R (start, false) (stop, phase) ∨
        p.expression.stray R (start, false) (stop, phase) := by
    intro phase
    rw [Hir.walk_eq_denote_sup_stray p.sequencesNonempty]
    exact Iff.rfl
  simp only [HirPattern.acceptedEnds, Hir.ends, Hir.strayEnds, Set.mem_union, Set.mem_ofPred_eq,
    hwalk, exists_or, and_or_left]

/-- From the root of its cohort, an ordinal has the ends of its pattern. -/
theorem ends_of_compileSharedCohorts (h : compileSharedCohorts patterns = .ok shared)
    {usesAssertions : Bool} {i : ℕ} {p : HirPattern} (hp : patterns[i]? = some p) (R : Reading)
    (start : ℕ) : shared.database.ends R (rootOfCohort usesAssertions) i start =
      if p.expression.usesAssertions == usesAssertions then p.acceptedEnds R start else ∅ := by
  have hroot : rootOfCohort usesAssertions < 2 := by cases usesAssertions <;> decide
  ext stop
  unfold PatternDatabase.ends
  simp only [accepts_of_compileSharedCohorts h hroot, hp, Option.some.injEq, exists_eq_left',
    cohortRoot_eq_iff, Set.mem_ofPred_eq]
  split
  next hcohort => simp only [hcohort, true_and, HirPattern.mem_acceptedEnds_iff]
  next hcohort => simp [hcohort]

/-- The events of a start from a root, pattern by pattern. -/
theorem eventsAt_of_compileSharedCohorts (h : compileSharedCohorts patterns = .ok shared)
    (usesAssertions : Bool) (input : List UInt16) (start : ℕ) :
    shared.database.eventsAt (Reading.contextual input) (rootOfCohort usesAssertions) start =
      (cohort patterns usesAssertions).filterMap fun p => p.eventAt input start := by
  have hids := patternIds_of_compileSharedCohorts h
  have hcount : shared.database.patternCount = patterns.length := by
    rw [PatternDatabase.patternCount, hids, List.length_map]
  unfold PatternDatabase.eventsAt
  rw [hcount, cohort, List.filterMap_filter]
  refine filterMap_range_eq fun ordinal hordinal => ?_
  have hp : patterns[ordinal]? = some patterns[ordinal] := List.getElem?_eq_getElem hordinal
  have hid : shared.database.patternId ordinal = patterns[ordinal].patternId := by
    simp [PatternDatabase.patternId, hids, hp]
  rw [ends_of_compileSharedCohorts h hp, hid]
  split
  next => rfl
  next => rw [longestEnd_empty, Option.map_none]

/-- The events of a root are those of its cohort. -/
theorem events_cohort_perm (h : compileSharedCohorts patterns = .ok shared)
    (usesAssertions : Bool) (input : List UInt16) :
    ((List.range input.length).flatMap (shared.database.eventsAt (Reading.contextual input)
      (rootOfCohort usesAssertions))).Perm
        ((cohort patterns usesAssertions).flatMap fun p => p.events input) := by
  have hstarts := funext (eventsAt_of_compileSharedCohorts h usesAssertions input)
  rw [hstarts]
  exact flatMap_filterMap_perm _ _ fun (start : ℕ) (p : HirPattern) => p.eventAt input start

/-- Without assertions it does not matter whether they are evaluated. -/
theorem eventsAt_contextFree_of_compileSharedCohorts
    (h : compileSharedCohorts patterns = .ok shared) (input : List UInt16) :
    shared.database.eventsAt (Reading.contextFree input) (rootOfCohort false) =
      shared.database.eventsAt (Reading.contextual input) (rootOfCohort false) := by
  have haccepts : ∀ i c d,
      shared.database.Accepts (Reading.contextFree input) (rootOfCohort false) i c d ↔
        shared.database.Accepts (Reading.contextual input) (rootOfCohort false) i c d := by
    intro i c d
    rw [accepts_of_compileSharedCohorts h (by decide),
      accepts_of_compileSharedCohorts h (by decide)]
    refine exists_congr fun p => and_congr_right fun _ => and_congr_right fun hroot => ?_
    have hfree := eq_of_beq ((cohortRoot_eq_iff p false).mp hroot)
    rw [(@Hir.walk_eq_of_assertionFree (Reading.contextFree input) (Reading.contextual input) rfl
      p.expression hfree).1]
  funext start
  unfold PatternDatabase.eventsAt PatternDatabase.ends
  simp only [haccepts]

/-- A start with an accepted end has the shared beginning. -/
theorem beginsAt_of_ends (h : compileSharedCohorts patterns = .ok shared) {five : List UInt8}
    (hfive : (assertionBearingView patterns).assertionAsciiFive? = some five)
    {R : Reading} (hbound : R.input.length ≤ maxUnits)
    {i start stop : ℕ} (hends : stop ∈ shared.database.ends R (rootOfCohort true) i start) :
    beginsAt five R.input start = true := by
  obtain ⟨-, phase, haccepts⟩ := hends
  obtain ⟨p, hp, hroot, hwalk⟩ := (accepts_of_compileSharedCohorts h (by decide)).mp haccepts
  have hmem : p ∈ cohort patterns true :=
    List.mem_filter.mpr ⟨List.mem_of_getElem? hp, (cohortRoot_eq_iff p true).mp hroot⟩
  obtain ⟨hlength, hwalks⟩ :=
    @strictAssertionAsciiFive_spec R _ _ (strict_of_assertionBearingView hfive p hmem)
  obtain ⟨text, ⟨-, htext⟩, hbegins⟩ := hwalks _ _ hwalk
  exact beginsAt_of_begins hbound (by omega) (hbegins.trans htext)

end Roots

/-! ### Scans -/

/-- A disabled prefilter plans all starts. -/
theorem Prefilter.plan_disabled (input : List UInt16) (enabled literalEnabled : Bool) :
    ∃ bypass, Prefilter.disabled.plan input enabled literalEnabled = .all bypass := by
  unfold plan disabled startOrAll
  cases enabled <;> cases literalEnabled <;> exact ⟨_, rfl⟩

/-- The beginning is used, with the starts at which it stands, or all starts are planned. -/
theorem Prefilter.planAssertionPrefix_cases (five : List UInt8) (input : List UInt16)
    (enabled literalEnabled : Bool) :
    (∃ bypass decision, decision ≠ .activated ∧
      Prefilter.disabled.planAssertionPrefix five input enabled literalEnabled =
        (.all bypass, decision)) ∨
    ∃ admissions, Prefilter.disabled.planAssertionPrefix five input enabled literalEnabled =
      (.candidates (allCandidates (beginsAt five input) input.length).1 admissions,
        .activated) := by
  unfold planAssertionPrefix
  split
  · exact Or.inl ⟨_, _, by decide, rfl⟩
  · split
    · exact Or.inl ⟨_, _, by decide, rfl⟩
    · split
      · exact Or.inl ⟨_, _, by decide, rfl⟩
      · split
        · exact Or.inl ⟨_, _, by decide, rfl⟩
        · exact Or.inr ⟨_, rfl⟩

namespace SharedCohortMatcher

/-- What the builders put together. -/
structure BuiltFrom (matcher : SharedCohortMatcher) (patterns : List HirPattern) : Prop where
  /-- The database and the views are those of the compiler. -/
  compiled : compileSharedCohorts patterns =
    .ok ⟨matcher.database, assertionFreeView patterns, assertionBearingView patterns⟩
  /-- The cohort without assertions has its view, and no prefilter. -/
  assertionFree_eq : matcher.assertionFree.descriptor = assertionFreeView patterns ∧
    matcher.assertionFree.prefilter = Prefilter.disabled
  /-- So has the cohort with assertions. -/
  assertionBearing_eq : matcher.assertionBearing.descriptor = assertionBearingView patterns ∧
    matcher.assertionBearing.prefilter = Prefilter.disabled

variable {matcher : SharedCohortMatcher} {patterns : List HirPattern}

/-- The events of a root. -/
noncomputable def rootEvents (matcher : SharedCohortMatcher) (input : List UInt16)
    (usesAssertions : Bool) : List Match :=
  (List.range input.length).flatMap
    (matcher.database.eventsAt (Reading.contextual input) (rootOfCohort usesAssertions))

/-- The view without assertions has the events of its root. -/
theorem BuiltFrom.scanView_assertionFree (h : matcher.BuiltFrom patterns) (input : Utf16Text) :
    ∃ found, matcher.scanView input matcher.assertionFree =
      ⟨matcher.rootEvents input.units false, .ok found⟩ := by
  have hwf := (compileSharedCohorts_wellFormed h.compiled).1
  have hdatabase : matcher.database.usesAssertions = false ∧ matcher.database.root = 0 := by
    obtain ⟨c, pieces, -, heq⟩ := pieces_of_compileSharedCohorts h.compiled
    have hdatabase := congrArg SharedCohortCompilation.database heq
    simp only at hdatabase
    rw [hdatabase]
    exact ⟨rfl, rfl⟩
  have hcontext := eventsAt_contextFree_of_compileSharedCohorts h.compiled input.units
  -- no prefilter is used with shared cohorts, so every start is visited
  obtain ⟨bypass, hplan⟩ := Prefilter.plan_disabled input.units matcher.prefilterEnabled
    matcher.literalPrefilterEnabled
  unfold scanView
  rw [matcher.usesAssertions.1]
  simp only [Bool.false_eq_true, if_false, scanWithStats, hdatabase.1, h.assertionFree_eq.2, hplan,
    scanPlan]
  obtain ⟨metrics, hscan⟩ := scanWithoutAssertionsDispatch_eq hwf
    matcher.assertionFree.stateCacheBudget input (le_usizeMax_of_mem_range input)
    { prefilterPath := (ScanPlan.all bypass).path
      prefilterBypass := (ScanPlan.all bypass).bypass
      prefilterAdmissions := (ScanPlan.all bypass).admissions
      prefilterCandidateStarts := (ScanPlan.all bypass).candidateCount
      prefilterStartsScanned := input.units.length }
  rw [hscan, hdatabase.2]
  simp only [Delivery.mk_ok_bind, Delivery.pure_eq, List.append_nil]
  exact ⟨_,
    congrArg (Delivery.mk · _) (by rw [← show rootOfCohort false = 0 from rfl, hcontext]; rfl)⟩

/-- The engine with context support has the events of the root it starts from. -/
theorem BuiltFrom.scanAssertionViewStarts_eq (h : matcher.BuiltFrom patterns) (input : Utf16Text)
    {starts : List ℕ} (hstarts : ∀ start ∈ starts, start ≤ usizeMax) :
    scanAssertionViewStarts matcher.database (rootOfCohort true) input starts =
      ⟨starts.flatMap (matcher.database.eventsAt (Reading.contextual input.units)
        (rootOfCohort true)), .ok ()⟩ := by
  obtain ⟨hwf, hroot⟩ := compileSharedCohorts_wellFormed h.compiled
  exact Rustmatch.scanAssertionViewStarts_eq hwf hroot input hstarts

/-- Whatever is decided about the beginning, the view with assertions has the events of its root.
-/
theorem BuiltFrom.scanAssertionPlan_eq (h : matcher.BuiltFrom patterns) {five : List UInt8}
    (hfive : (assertionBearingView patterns).assertionAsciiFive? = some five) (input : Utf16Text)
    (enabled literalEnabled : Bool) (metrics : ScanStats) : ∃ metrics',
    scanAssertionPlan matcher.database (rootOfCohort true) input
        (Prefilter.disabled.planAssertionPrefix five input.units enabled literalEnabled).1 metrics =
      ⟨matcher.rootEvents input.units true, .ok metrics'⟩ := by
  obtain ⟨bypass, decision, -, hplan⟩ | ⟨admissions, hplan⟩ :=
    Prefilter.planAssertionPrefix_cases five input.units enabled literalEnabled
  · rw [hplan]
    unfold scanAssertionPlan scanAssertionView
    rw [h.scanAssertionViewStarts_eq input (le_usizeMax_of_mem_range input)]
    simp only [Delivery.mk_ok_bind, Delivery.pure_eq, List.append_nil]
    exact ⟨_, rfl⟩
  · rw [hplan]
    unfold scanAssertionPlan
    simp only [iter_allCandidates]
    rw [h.scanAssertionViewStarts_eq input fun start hstart =>
      le_usizeMax_of_mem_range input start (List.mem_of_mem_filter hstart)]
    -- the starts that are left out have no events
    have hfilter := @flatMap_filter_allows matcher.database (Reading.contextual input.units)
      (rootOfCohort true) (beginsAt five input.units) (fun hends =>
        @beginsAt_of_ends patterns _ h.compiled five hfive (Reading.contextual input.units)
          input.length_le _ _ _ hends) (List.range input.units.length)
    rw [hfilter]
    simp only [Delivery.mk_ok_bind, Delivery.pure_eq, List.append_nil]
    exact ⟨_, rfl⟩

/-- The view with assertions has the events of its root, with specialization and without. -/
theorem BuiltFrom.scanView_assertionBearing (h : matcher.BuiltFrom patterns) (input : Utf16Text) :
    ∃ found, matcher.scanView input matcher.assertionBearing =
      ⟨matcher.rootEvents input.units true, .ok found⟩ := by
  have hroot : matcher.assertionBearing.descriptor.root = rootOfCohort true := by
    rw [h.assertionBearing_eq.1]
    rfl
  unfold scanView
  rw [matcher.usesAssertions.2, if_pos rfl, hroot, h.assertionBearing_eq.2]
  -- with a shared beginning only its starts are scanned, and they lose no event
  split
  next five _ hfive =>
    rw [h.assertionBearing_eq.1] at hfive
    obtain ⟨metrics, hscan⟩ := h.scanAssertionPlan_eq hfive input matcher.prefilterEnabled
      matcher.literalPrefilterEnabled { (Prefilter.disabled.planAssertionPrefix five input.units
        matcher.prefilterEnabled matcher.literalPrefilterEnabled).1.metrics with
          assertionBypasses := 1 }
    unfold scanAssertionPrefixViewWithStats
    dsimp only at hscan ⊢
    rw [hscan]
    simp only [Delivery.mk_ok_bind, Delivery.pure_eq, List.append_nil]
    exact ⟨_, rfl⟩
  next =>
    unfold scanAssertionViewWithStats scanAssertionView
    rw [h.scanAssertionViewStarts_eq input (le_usizeMax_of_mem_range input)]
    simp only [Delivery.mk_ok_bind, Delivery.pure_eq, List.append_nil]
    exact ⟨_, rfl⟩

/-- The loop over views that have their events collects them; a view that is skipped has none. -/
theorem scanViews_eq {events : SharedCohortView → List Match} {input : Utf16Text}
    {views : List SharedCohortView} (hviews : ∀ view ∈ views, ∃ found,
      matcher.scanView input view = ⟨events view, .ok found⟩)
    (hempty : ∀ view ∈ views, view.descriptor.patternCount = 0 → events view = [])
    (combined : Option ScanStats) (decision : Option AssertionPrefixDecision) : ∃ value,
    matcher.scanViews input views combined decision = ⟨views.flatMap events, .ok value⟩ := by
  induction views generalizing combined decision with
  | nil => exact ⟨_, rfl⟩
  | cons view views ih =>
    have hrest := ih (fun other hother => hviews other (List.mem_cons_of_mem _ hother))
      fun other hother => hempty other (List.mem_cons_of_mem _ hother)
    unfold scanViews
    rw [List.flatMap_cons]
    -- a view without patterns is skipped, and has no events to lose
    split
    next hcount =>
      rw [hempty view List.mem_cons_self hcount]
      exact hrest combined decision
    next =>
      obtain ⟨⟨stats, found⟩, hview⟩ := hviews view List.mem_cons_self
      rw [hview, Delivery.mk_ok_bind]
      simp only
      generalize some (_ : ScanStats) = combined
      obtain ⟨value, hvalue⟩ := hrest combined (found.or decision)
      rw [hvalue]
      exact ⟨value, rfl⟩

/-- A scan succeeds, with the events of all patterns. -/
theorem BuiltFrom.scanBuffered_eq (h : matcher.BuiltFrom patterns) (input : Utf16Text) :
    ∃ scan, matcher.scanBuffered input = .ok scan ∧
      scan.events.Perm (patterns.flatMap fun p => p.events input.units) := by
  have hevents := fun usesAssertions => events_cohort_perm h.compiled usesAssertions input.units
  have hempty : ∀ {usesAssertions}, (cohort patterns usesAssertions).length = 0 →
      matcher.rootEvents input.units usesAssertions = [] := by
    intro usesAssertions hlength
    have hperm := hevents usesAssertions
    rw [List.eq_nil_of_length_eq_zero hlength] at hperm
    exact hperm.eq_nil
  have hfree : matcher.assertionFree.descriptor.patternCount = (cohort patterns false).length := by
    rw [h.assertionFree_eq.1]
    rfl
  have hbearing : matcher.assertionBearing.descriptor.patternCount =
      (cohort patterns true).length := by
    rw [h.assertionBearing_eq.1]
    rfl
  -- both views, one after the other
  obtain ⟨value, hscan⟩ := @scanViews_eq matcher
    (fun view => matcher.rootEvents input.units view.descriptor.usesAssertions) input
    [matcher.assertionFree, matcher.assertionBearing]
    (by
      simp only [List.forall_mem_cons, List.not_mem_nil, false_implies, implies_true, and_true,
        matcher.usesAssertions.1, matcher.usesAssertions.2]
      exact ⟨h.scanView_assertionFree input, h.scanView_assertionBearing input⟩)
    (by
      simp only [List.forall_mem_cons, List.not_mem_nil, false_implies, implies_true, and_true,
        matcher.usesAssertions.1, matcher.usesAssertions.2, hfree, hbearing]
      exact ⟨hempty, hempty⟩) none none
  unfold scanBuffered
  simp only
  split
  next reason hresult =>
    rw [hscan] at hresult
    cases hresult
  next stats decision hresult =>
    refine ⟨_, rfl, ?_⟩
    rw [hscan]
    simp only [List.flatMap_cons, List.flatMap_nil, List.append_nil, matcher.usesAssertions.1,
      matcher.usesAssertions.2]
    refine ((hevents false).append (hevents true)).trans ?_
    rw [← List.flatMap_append]
    exact (cohorts_perm patterns).flatMap_right _
  -- the views have patterns, so the scan has statistics
  next decision hresult =>
    exact absurd (matcher.scanViews_stats input hresult).2 (by
      simpa only [List.forall_mem_cons, List.not_mem_nil, false_implies, implies_true, and_true,
        not_and_or] using matcher.populated)

/-- A scan returns and delivers the events of all patterns. -/
theorem BuiltFrom.scan_eq (h : matcher.BuiltFrom patterns) (input : Utf16Text) :
    (matcher.scan input).result = .ok () ∧
      (matcher.scan input).events.Perm (patterns.flatMap fun p => p.events input.units) := by
  obtain ⟨scan, hscan, hperm⟩ := h.scanBuffered_eq input
  unfold SharedCohortMatcher.scan
  rw [hscan]
  exact ⟨rfl, hperm⟩

end SharedCohortMatcher

/-- The builders put the patterns together and set the switch. -/
theorem MatcherBuilder.buildShared_spec {builder : MatcherBuilder} {specialization : Bool}
    {matcher : SharedCohortMatcher} (h : builder.buildShared specialization = .ok matcher) :
    matcher.BuiltFrom builder.patterns ∧
      matcher.assertionSpecializationEnabled = specialization := by
  unfold buildShared at h
  split at h
  next => cases h
  next hpatterns =>
    split at h
    next => cases h
    next =>
      unfold buildSharedMatcher at h
      split at h
      next => cases h
      next shared hshared =>
        obtain rfl := Except.ok.inj h
        obtain ⟨c, pieces, -, heq⟩ := pieces_of_compileSharedCohorts hshared
        subst heq
        exact ⟨⟨hshared, ⟨rfl, rfl⟩, ⟨rfl, rfl⟩⟩, rfl⟩

end Rustmatch

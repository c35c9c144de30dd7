import Rustmatch.Cache.Run
import Rustmatch.Prefilter.Candidates

/-!
# Scans of one partition

`scan_with_stats` in `engine.rs`: a plan is made, and the engine that suits the database runs on the
starts of the plan. Whatever the plan, the cache and the flags, the events are those of all starts
in turn, read with the assertions evaluated at their positions.

## Main results

* `scanWithStats_eq`: the events of a scan;
* `prefilter_preserves_events`: candidate starts change nothing.
-/

namespace Rustmatch

/-- The scan of the starts of a plan, in a database without assertions. -/
def scanPlan (database : PatternDatabase) (input : Utf16Text) (stateCacheBudget : ℕ)
    (plan : ScanPlan) (metrics : ScanStats) : Delivery ScanStats :=
  let units := input.units
  match plan with
  | .all _ =>
    scanWithoutAssertionsDispatch database input stateCacheBudget (List.range units.length)
      { metrics with prefilterStartsScanned := units.length }
  | .startTable table _ => do
    let starts := (List.range units.length).filter (table.allows units)
    let metrics ← scanWithoutAssertionsDispatch database input stateCacheBudget starts metrics
    return { metrics with prefilterStartsScanned := starts.length }
  | .candidates candidates _ =>
    scanWithoutAssertionsDispatch database input stateCacheBudget candidates.iter
      { metrics with prefilterStartsScanned := candidates.count }

/-- `scan_with_stats`: scan a text from the planned starts. -/
def scanWithStats (database : PatternDatabase) (prefilter : Prefilter) (input : Utf16Text)
    (stateCacheBudget : ℕ) (prefilterEnabled literalPrefilterEnabled : Bool) :
    Delivery ScanStats := do
  let units := input.units
  let plan := prefilter.plan units prefilterEnabled literalPrefilterEnabled
  let metrics : ScanStats :=
    { prefilterPath := plan.path
      prefilterBypass := plan.bypass
      prefilterAdmissions := plan.admissions
      prefilterCandidateStarts := plan.candidateCount }
  let metrics ←
    if database.usesAssertions then do
      scanWithAssertions database input
      return { metrics with assertionBypasses := 1, prefilterStartsScanned := units.length }
    else scanPlan database input stateCacheBudget plan metrics
  return { metrics with prefilterStartsSkipped := units.length - metrics.prefilterStartsScanned }

section Events

variable {patterns : List HirPattern} {database : PatternDatabase}

/-- Without assertions it does not matter whether they are evaluated. -/
theorem ends_contextFree (h : compile patterns = .ok database)
    (hfree : database.usesAssertions = false) (input : List UInt16) (ordinal start : ℕ) :
    database.ends (Reading.contextFree input) database.root ordinal start =
      database.ends (Reading.contextual input) database.root ordinal start := by
  have haccepts : ∀ c d, database.Accepts (Reading.contextFree input) database.root ordinal c d ↔
      database.Accepts (Reading.contextual input) database.root ordinal c d := by
    intro c d
    rw [accepts_of_compile h, accepts_of_compile h]
    refine exists_congr fun p => and_congr_right fun hp => ?_
    have hexpression : p.expression.usesAssertions = false := by
      rw [usesAssertions_of_compile h, List.any_eq_false] at hfree
      simpa using hfree p (List.mem_of_getElem? hp)
    have hwalk := (@Hir.walk_eq_of_assertionFree (Reading.contextFree input)
      (Reading.contextual input) rfl p.expression hexpression).1
    rw [hwalk]
  unfold PatternDatabase.ends
  simp only [haccepts]

/-- Patterns without assertions do not ask for the context. -/
theorem eventsAt_contextFree (h : compile patterns = .ok database)
    (hfree : database.usesAssertions = false) (input : List UInt16) :
    database.eventsAt (Reading.contextFree input) database.root =
      database.eventsAt (Reading.contextual input) database.root := by
  funext start
  unfold PatternDatabase.eventsAt
  simp only [ends_contextFree h hfree]

/-- Starts without events may be skipped. -/
theorem flatMap_filter_allows {R : Reading} {root : ℕ} {allows : ℕ → Bool}
    (hallows : ∀ {ordinal start stop : ℕ}, stop ∈ database.ends R root ordinal start →
      allows start = true) (starts : List ℕ) :
    (starts.filter allows).flatMap (database.eventsAt R root) =
      starts.flatMap (database.eventsAt R root) := by
  induction starts with
  | nil => rfl
  | cons start starts ih =>
    by_cases hstart : allows start = true
    · rw [List.filter_cons_of_pos hstart, List.flatMap_cons, List.flatMap_cons, ih]
    · have hnone : database.eventsAt R root start = [] := by
        rw [List.eq_nil_iff_forall_not_mem]
        intro event hevent
        obtain ⟨ordinal, -, -, -, hgreatest⟩ := mem_eventsAt_iff.mp hevent
        exact hstart (hallows hgreatest.1)
      rw [List.filter_cons_of_neg hstart, List.flatMap_cons, hnone, List.nil_append, ih]

/-- A scan without assertions of the starts that a sound filter allows. -/
theorem scanDispatch_filter_eq (h : compile patterns = .ok database)
    (hfree : database.usesAssertions = false) (input : Utf16Text) (budget : ℕ)
    {allows : ℕ → Bool} (hallows : ∀ {ordinal start stop : ℕ},
      stop ∈ database.ends (Reading.contextFree input.units) database.root ordinal start →
        allows start = true) (metrics : ScanStats) : ∃ metrics',
    scanWithoutAssertionsDispatch database input budget
        ((List.range input.units.length).filter allows) metrics =
      ⟨(List.range input.units.length).flatMap
        (database.eventsAt (Reading.contextual input.units) database.root), .ok metrics'⟩ := by
  obtain ⟨metrics', hscan⟩ := scanWithoutAssertionsDispatch_eq (compile_wellFormed h) budget input
    (fun start hstart => le_usizeMax_of_mem_range input start (List.mem_of_mem_filter hstart))
    metrics
  refine ⟨metrics', ?_⟩
  rw [hscan, flatMap_filter_allows hallows, eventsAt_contextFree h hfree]

/-- A plan visits all starts, or those that the start table or the literal filter allows. -/
theorem Prefilter.plan_cases (prefilter : Prefilter) (input : List UInt16)
    (enabled literalEnabled : Bool) :
    (∃ bypass, prefilter.plan input enabled literalEnabled = .all bypass) ∨
    (∃ table bypass, prefilter.startTable = some table ∧
      prefilter.plan input enabled literalEnabled = .startTable table bypass) ∨
    ∃ filter, prefilter.literal = some filter ∧ ∃ admissions,
      prefilter.plan input enabled literalEnabled =
        .candidates (allCandidates (filter.admits input) input.length).1 admissions := by
  have hstartOrAll : ∀ bypass, (∃ bypass', prefilter.startOrAll bypass = .all bypass') ∨
      ∃ table bypass', prefilter.startTable = some table ∧
        prefilter.startOrAll bypass = .startTable table bypass' := by
    intro bypass
    unfold Prefilter.startOrAll
    cases prefilter.startTable with
    | none => exact Or.inl ⟨bypass, rfl⟩
    | some table => exact Or.inr ⟨table, bypass, rfl, rfl⟩
  -- in the order of the source: switched off, no tables, a short input, too many candidates
  unfold Prefilter.plan
  cases enabled with
  | false => exact Or.inl ⟨_, rfl⟩
  | true =>
    cases literalEnabled with
    | false => exact (hstartOrAll .literalDisabled).imp_right Or.inl
    | true =>
      cases hfilter : prefilter.literal with
      | none => exact (hstartOrAll _).imp_right Or.inl
      | some filter =>
        simp only [Bool.not_true, Bool.false_eq_true, if_false]
        by_cases hshort : input.length < minLiteralInputUnits
        · rw [if_pos hshort]
          exact (hstartOrAll _).imp_right Or.inl
        · rw [if_neg hshort]
          by_cases hdense : isDense (filter.admits input) input.length = true
          · rw [if_pos hdense]
            exact (hstartOrAll _).imp_right Or.inl
          · rw [if_neg hdense]
            exact Or.inr (Or.inr ⟨filter, rfl, _, rfl⟩)

/-- The starts of a plan have all the events. -/
theorem scanPlan_eq (h : compile patterns = .ok database)
    (hfree : database.usesAssertions = false) (input : Utf16Text) (budget : ℕ)
    (enabled literalEnabled : Bool) (metrics : ScanStats) : ∃ metrics',
    scanPlan database input budget
        ((Prefilter.compile patterns database).plan input.units enabled literalEnabled) metrics =
      ⟨(List.range input.units.length).flatMap
        (database.eventsAt (Reading.contextual input.units) database.root), .ok metrics'⟩ := by
  rcases (Prefilter.compile patterns database).plan_cases input.units enabled literalEnabled with
    ⟨bypass, hplan⟩ | ⟨table, bypass, htable, hplan⟩ | ⟨filter, hfilter, admissions, hplan⟩
  -- all starts: nothing is left out
  · obtain ⟨metrics', hscan⟩ := scanWithoutAssertionsDispatch_eq (compile_wellFormed h) budget input
      (le_usizeMax_of_mem_range input) { metrics with prefilterStartsScanned := input.units.length }
    rw [hplan, scanPlan]
    exact ⟨metrics', by rw [hscan, eventsAt_contextFree h hfree]⟩
  · obtain ⟨metrics', hscan⟩ := scanDispatch_filter_eq h hfree input budget
      -- the start table allows every start of a match, and so do the literals
      (fun hends => StartTable.allows_of_ends (compile_wellFormed h)
        (Prefilter.startTable_of_compile htable) hends) metrics
    rw [hplan, scanPlan, hscan, Delivery.mk_ok_bind]
    exact ⟨_, by rw [Delivery.pure_eq, List.append_nil]⟩
  · obtain ⟨metrics', hscan⟩ := scanDispatch_filter_eq h hfree input budget
      (fun hends => admits_of_ends h hfilter input.length_le hends)
      { metrics with prefilterStartsScanned :=
          (allCandidates (filter.admits input.units) input.units.length).1.count }
    rw [hplan, scanPlan, iter_allCandidates]
    exact ⟨metrics', hscan⟩

/-- A scan returns and delivers the events of all starts in turn, whatever its plan. -/
theorem scanWithStats_eq (h : compile patterns = .ok database) (input : Utf16Text) (budget : ℕ)
    (prefilterEnabled literalPrefilterEnabled : Bool) : ∃ metrics,
    scanWithStats database (Prefilter.compile patterns database) input budget prefilterEnabled
        literalPrefilterEnabled =
      ⟨(List.range input.units.length).flatMap
        (database.eventsAt (Reading.contextual input.units) database.root), .ok metrics⟩ := by
  unfold scanWithStats
  cases hassertions : database.usesAssertions with
  | true =>
    simp only [if_true]
    rw [scanWithAssertions_eq (compile_wellFormed h)]
    simp only [Delivery.pure_eq, Delivery.mk_ok_bind, List.append_nil]
    exact ⟨_, rfl⟩
  | false =>
    obtain ⟨metrics, hscan⟩ := scanPlan_eq h hassertions input budget prefilterEnabled
      literalPrefilterEnabled
      { prefilterPath := ((Prefilter.compile patterns database).plan input.units prefilterEnabled
          literalPrefilterEnabled).path
        prefilterBypass := ((Prefilter.compile patterns database).plan input.units
          prefilterEnabled literalPrefilterEnabled).bypass
        prefilterAdmissions := ((Prefilter.compile patterns database).plan input.units
          prefilterEnabled literalPrefilterEnabled).admissions
        prefilterCandidateStarts := ((Prefilter.compile patterns database).plan input.units
          prefilterEnabled literalPrefilterEnabled).candidateCount }
    simp only [Bool.false_eq_true, if_false]
    rw [hscan, Delivery.mk_ok_bind, Delivery.pure_eq]
    exact ⟨_, by rw [List.append_nil]⟩

/-- Candidate starts change nothing: with the prefilter, with or without its literal filter, a scan
returns and delivers the same events in the same order as without. -/
theorem prefilter_preserves_events (h : compile patterns = .ok database) (input : Utf16Text)
    (budget : ℕ) (literalPrefilterEnabled : Bool) :
    (scanWithStats database (Prefilter.compile patterns database) input budget true
        literalPrefilterEnabled).events =
      (scanWithStats database (Prefilter.compile patterns database) input budget false
        literalPrefilterEnabled).events ∧
    (∃ metrics, (scanWithStats database (Prefilter.compile patterns database) input budget true
      literalPrefilterEnabled).result = .ok metrics) ∧
    ∃ metrics, (scanWithStats database (Prefilter.compile patterns database) input budget false
      literalPrefilterEnabled).result = .ok metrics := by
  obtain ⟨metrics, hwith⟩ := scanWithStats_eq h input budget true literalPrefilterEnabled
  obtain ⟨metrics', hwithout⟩ := scanWithStats_eq h input budget false literalPrefilterEnabled
  rw [hwith, hwithout]
  exact ⟨rfl, ⟨metrics, rfl⟩, metrics', rfl⟩

/-- A short text, with the prefilter and without. -/
theorem prefilter_preserves_events_privateLoop : ∃ database,
    compile [privateLoop] = .ok database ∧
    (scanWithStats database (Prefilter.compile [privateLoop] database) textAb 4 true true).events =
      (scanWithStats database (Prefilter.compile [privateLoop] database) textAb 4 false
        true).events := by
  have hcompile : ∃ database, compile [privateLoop] = .ok database := ⟨_, rfl⟩
  obtain ⟨database, hdatabase⟩ := hcompile
  exact ⟨database, hdatabase, (prefilter_preserves_events hdatabase textAb 4 true).1⟩

end Events

end Rustmatch

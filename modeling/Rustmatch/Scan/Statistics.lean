import Rustmatch.Cache.Counters
import Rustmatch.SharedCandidate

/-!
# Statistics of one scan

A scan returns counters beside its events: the starts it visited and those it left out, the path
that chose them, and what its cache did. The counters agree with each other, with the events and
with the budget, whether the starts come from a plan of the partition or from candidates that
several partitions share.

## Main definitions

* `ScanStats.CacheCounts`: what the counters of the cache say;
* `ScanStats.Truthful`: what all counters say;
* `ScanPlan.starts`: the starts of a plan.

## Main results

* `scanWithStats_truthful`: the scan of a partition on its own;
* `scanWithSharedCandidates_truthful`: the scan of a partition with shared candidates.
-/

namespace Rustmatch

/-! ### The cache -/

/-- No transition has been counted. -/
structure ScanStats.Uncounted (stats : ScanStats) : Prop where
  /-- No state was stored. -/
  cacheStates_eq : stats.cacheStates = 0
  /-- No transition was found. -/
  cacheHits_eq : stats.cacheHits = 0
  /-- No transition was missed. -/
  cacheMisses_eq : stats.cacheMisses = 0
  /-- Nothing fell back. -/
  fallbackTransitions_eq : stats.fallbackTransitions = 0

/-- The counters of a scan with a cache of `budget` states, or with none if that is zero. -/
structure ScanStats.CacheCounts (stats : ScanStats) (budget : ℕ) : Prop where
  /-- The stored states keep to the budget. -/
  states_le : stats.cacheStates ≤ budget
  /-- A cache stores the root at least. -/
  states_eq_zero : stats.cacheStates = 0 ↔ budget = 0
  /-- Without a cache no transition is counted. -/
  uncounted : budget = 0 → stats.Uncounted
  /-- A stored state misses at most once for every symbol. -/
  misses_le : stats.cacheMisses ≤ UInt16.size * stats.cacheStates
  /-- Only a full cache falls back. -/
  full_of_fallback : 0 < stats.fallbackTransitions →
    stats.cacheStates = min budget fallbackTransition

/-- Only the counters of the cache differ. -/
def ScanStats.SameScan (metrics base : ScanStats) : Prop :=
  metrics = { base with
    cacheStates := metrics.cacheStates
    cacheHits := metrics.cacheHits
    cacheMisses := metrics.cacheMisses
    fallbackTransitions := metrics.fallbackTransitions }

section Dispatch

variable {database : PatternDatabase}

/-- A scan without a cache counts no transitions. -/
theorem ScanStats.Uncounted.cacheCounts {stats : ScanStats} (h : stats.Uncounted) :
    stats.CacheCounts 0 where
  states_le := Nat.le_of_eq h.cacheStates_eq
  states_eq_zero := iff_of_true h.cacheStates_eq rfl
  uncounted _ := h
  misses_le := by
    rw [h.cacheMisses_eq]
    exact Nat.zero_le _
  full_of_fallback hpos := by
    rw [h.fallbackTransitions_eq] at hpos
    exact absurd hpos (lt_irrefl 0)

/-- A scan with a cache counts from zero and fills the cache up to the budget. -/
theorem cacheCounts_of_tally {budget : ℕ} {input : List UInt16} {starts : List ℕ}
    {metrics : ScanStats} (hbudget : budget ≠ 0) (hfresh : metrics.Uncounted) {scan : CachedScan}
    (hcached : Cached database budget scan)
    (htally : Tally database budget input metrics starts 0 0 [] scan) :
    ({ scan.metrics with cacheStates := scan.cache.states.length } : ScanStats).CacheCounts
      budget := by
  have hinvariant := hcached.invariant
  have hbounds := hinvariant.length_le_budget
  have hids := hinvariant.length_le_ids
  rw [hcached.budget_eq] at hbounds
  have hpos : 0 < scan.cache.states.length := by
    obtain ⟨set, hset, -⟩ := hcached.root
    rw [← scan.cache.length_sets]
    exact (List.getElem?_eq_some_iff.mp hset).1
  refine ⟨hbounds, iff_of_false (Nat.pos_iff_ne_zero.mp hpos) hbudget,
    fun hzero => absurd hzero hbudget, ?_, fun hfallback => ?_⟩
  · have hentries := entries_le isKnown scan.cache
    have hmisses := htally.misses_eq
    rw [hfresh.cacheMisses_eq] at hmisses
    show scan.metrics.cacheMisses ≤ UInt16.size * scan.cache.states.length
    omega
  · have hfull := htally.pressure (by rw [hfresh.fallbackTransitions_eq]; exact hfallback)
    unfold Full at hfull
    rw [scan.cache.length_sets] at hfull
    show scan.cache.states.length = _
    omega

/-- The events of a scan without assertions, and what it counts. -/
theorem scanDispatch_counts (hwf : database.WellFormed) (budget : ℕ) (input : Utf16Text)
    {starts : List ℕ} (hstarts : ∀ start ∈ starts, start ≤ usizeMax) {metrics : ScanStats}
    (hfresh : metrics.Uncounted) : ∃ metrics',
    scanWithoutAssertionsDispatch database input budget starts metrics =
      ⟨starts.flatMap (database.eventsAt (Reading.contextFree input.units) database.root),
        .ok metrics'⟩ ∧
      metrics'.SameScan metrics ∧ metrics'.CacheCounts budget := by
  obtain ⟨metrics', hscan⟩ := scanWithoutAssertionsDispatch_eq hwf budget input hstarts metrics
  refine ⟨metrics', hscan, ?_⟩
  unfold scanWithoutAssertionsDispatch at hscan
  by_cases hzero : budget = 0
  · rw [if_pos hzero, scanWithoutAssertionsNfa_eq hwf input hstarts, Delivery.mk_ok_bind,
      Delivery.pure_eq] at hscan
    obtain rfl : metrics = metrics' := Except.ok.inj (congrArg Delivery.result hscan)
    rw [hzero]
    exact ⟨rfl, hfresh.cacheCounts⟩
  · obtain ⟨scan, events, hstart, hcached, htally⟩ := exists_tally hwf input
      (Nat.one_le_iff_ne_zero.mpr hzero) hstarts metrics
    rw [if_neg hzero, scanWithoutAssertionsCached, hstart, Delivery.mk_ok_bind,
      Delivery.pure_eq] at hscan
    obtain rfl := Except.ok.inj (congrArg Delivery.result hscan)
    refine ⟨?_, cacheCounts_of_tally hzero hfresh hcached htally⟩
    have hcontinues := htally.continues
    unfold ScanStats.Continues at hcontinues
    unfold ScanStats.SameScan
    rw [hcontinues]

end Dispatch

/-! ### Plans -/

/-- The starts of a plan. -/
def ScanPlan.starts (plan : ScanPlan) (units : List UInt16) : List ℕ :=
  match plan with
  | .all _ => List.range units.length
  | .startTable table _ => (List.range units.length).filter (table.allows units)
  | .candidates bitmap _ => bitmap.iter

/-- What a plan tells the counters before a scan. -/
def ScanPlan.announcement (plan : ScanPlan) : ScanStats where
  prefilterPath := plan.path
  prefilterBypass := plan.bypass
  prefilterAdmissions := plan.admissions
  prefilterCandidateStarts := plan.candidateCount

/-- What is true of the counters of the starts before these are scanned. -/
structure ScanStats.Announces (stats : ScanStats) (units : List UInt16) (starts : List ℕ) :
    Prop where
  /-- The starts ascend, and lie in the text. -/
  sublist : starts.Sublist (List.range units.length)
  /-- The literal filter is used, or there is a reason why not. -/
  literal_iff : stats.prefilterPath = .literal ↔ stats.prefilterBypass = .none
  /-- One scan never reports what only merged reports say. -/
  not_mixed : stats.prefilterPath ≠ .mixedParallel ∧ stats.prefilterBypass ≠ .mixedParallel
  /-- What the prefilter admits are its candidates. -/
  admissions_eq : stats.prefilterAdmissions = stats.prefilterCandidateStarts
  /-- Only the literal filter counts candidates. -/
  candidates_of_ne : stats.prefilterPath ≠ .literal → stats.prefilterCandidateStarts = 0
  /-- The literal filter is not used on short texts. -/
  long_of_literal : stats.prefilterPath = .literal → minLiteralInputUnits ≤ units.length
  /-- Without a filter all starts are scanned. -/
  all_of_allStarts : stats.prefilterPath = .allStarts → starts = List.range units.length

/-- A plan that counts its starts right. -/
structure ScanPlan.Sound (plan : ScanPlan) (units : List UInt16) : Prop where
  /-- The counters are right about the starts of the plan. -/
  announces : plan.announcement.Announces units (plan.starts units)
  /-- The candidates are the starts that the literal filter leaves. -/
  candidateCount_eq : plan.path = .literal → plan.candidateCount = (plan.starts units).length

section Plans

variable {units : List UInt16}

/-- Inserting counts the starts that are allowed; the counter is too wide to saturate. -/
theorem insertAllowed_snd (allows : ℕ → Bool) {starts : List ℕ} {found : CandidateBitmap × ℕ}
    (hfits : found.2 + starts.length < 2 ^ 64) :
    (insertAllowed allows starts found).2 = found.2 + (starts.filter allows).length := by
  induction starts generalizing found with
  | nil => rfl
  | cons start starts ih =>
    rw [List.length_cons] at hfits
    unfold insertAllowed at ih ⊢
    rw [List.foldl_cons]
    by_cases hallows : allows start = true
    · rw [if_pos hallows, List.filter_cons_of_pos hallows, List.length_cons]
      have hadd : min (found.2 + 1) (2 ^ 64 - 1) = found.2 + 1 := by omega
      rw [hadd, @ih (found.1.insert start, found.2 + 1) (by show found.2 + 1 + _ < _; omega)]
      show found.2 + 1 + _ = _
      omega
    · rw [if_neg hallows, List.filter_cons_of_neg hallows]
      exact ih (by omega)

/-- The candidates of a plan are counted twice over, as admissions and as members. -/
theorem admissions_allCandidates (allows : ℕ → Bool) {length : ℕ} (hlength : length ≤ maxUnits) :
    (allCandidates allows length).2 = (allCandidates allows length).1.iter.length := by
  unfold maxUnits at hlength
  have hle : min length densitySampleUnits ≤ length := Nat.min_le_left _ _
  rw [iter_allCandidates]
  unfold allCandidates sampleCandidates
  set sampleLen := min length densitySampleUnits with hsampleLen
  have hsample := @insertAllowed_snd allows (List.range sampleLen)
    (CandidateBitmap.new sampleLen, 0) (by rw [List.length_range]; show 0 + _ < _; omega)
  have hcount : ((List.range sampleLen).filter allows).length ≤ sampleLen :=
    (List.length_filter_le _ _).trans_eq List.length_range
  have hrange : List.range length = List.range sampleLen ++
      List.range' sampleLen (length - sampleLen) := by
    have happend : List.range' 0 sampleLen ++ List.range' (0 + sampleLen) (length - sampleLen) =
        List.range' 0 (sampleLen + (length - sampleLen)) := List.range'_append_1
    rw [Nat.zero_add, Nat.add_sub_cancel' hle] at happend
    rw [List.range_eq_range', List.range_eq_range', happend]
  rw [insertAllowed_snd allows (by rw [List.length_range', hsample]; show 0 + _ + _ < _; omega),
    hsample, hrange, List.filter_append, List.length_append]
  show 0 + _ + _ = _
  omega

/-- A plan without candidates. -/
theorem Prefilter.sound_startOrAll (prefilter : Prefilter) {bypass : PrefilterBypass}
    (hnone : bypass ≠ .none) (hmixed : bypass ≠ .mixedParallel) :
    (prefilter.startOrAll bypass).Sound units := by
  unfold Prefilter.startOrAll
  cases prefilter.startTable with
  | none =>
    exact ⟨⟨List.Sublist.refl _, iff_of_false (fun h => by cases h) hnone,
      ⟨fun h => (by cases h), hmixed⟩, rfl, fun _ => rfl, fun h => (by cases h), fun _ => rfl⟩,
      fun h => (by cases h)⟩
  | some table =>
    exact ⟨⟨List.filter_sublist, iff_of_false (fun h => by cases h) hnone,
      ⟨fun h => (by cases h), hmixed⟩, rfl, fun _ => rfl, fun h => (by cases h),
      fun h => (by cases h)⟩, fun h => (by cases h)⟩

/-- A prefilter without a literal filter says why. -/
theorem Prefilter.literalUnavailable_compile {patterns : List HirPattern}
    {database : PatternDatabase} (h : (Prefilter.compile patterns database).literal = none) :
    (Prefilter.compile patterns database).literalUnavailable ≠ .none ∧
      (Prefilter.compile patterns database).literalUnavailable ≠ .mixedParallel := by
  unfold Prefilter.compile at h ⊢
  split
  next => exact ⟨fun h => (by cases h), fun h => (by cases h)⟩
  next hassertions =>
    rw [if_neg hassertions] at h
    simp only at h ⊢
    split
    next => exact ⟨fun h => (by cases h), fun h => (by cases h)⟩
    next hcount =>
      rw [if_neg hcount] at h
      split
      next hints heq =>
        rw [heq] at h
        cases h
      next => exact ⟨fun h => (by cases h), fun h => (by cases h)⟩

/-- The plans of a compiled prefilter. -/
theorem Prefilter.sound_plan (patterns : List HirPattern) (database : PatternDatabase)
    (hlength : units.length ≤ maxUnits) (enabled literalEnabled : Bool) :
    ((Prefilter.compile patterns database).plan units enabled literalEnabled).Sound units := by
  have hunavailable := @Prefilter.literalUnavailable_compile patterns database
  generalize Prefilter.compile patterns database = prefilter at hunavailable
  unfold Prefilter.plan
  split
  next =>
    exact ⟨⟨List.Sublist.refl _, iff_of_false (fun h => by cases h) (fun h => by cases h),
      ⟨fun h => (by cases h), fun h => (by cases h)⟩, rfl, fun _ => rfl, fun h => (by cases h),
      fun _ => rfl⟩, fun h => (by cases h)⟩
  next =>
    split
    next => exact prefilter.sound_startOrAll (fun h => by cases h) (fun h => by cases h)
    next =>
      split
      next hnone =>
        obtain ⟨hne, hmixed⟩ := hunavailable hnone
        exact prefilter.sound_startOrAll hne hmixed
      next filter _ =>
        split
        next => exact prefilter.sound_startOrAll (fun h => by cases h) (fun h => by cases h)
        next hlong =>
          split
          next => exact prefilter.sound_startOrAll (fun h => by cases h) (fun h => by cases h)
          next =>
            -- the candidates of a long and sparse input
            have hbuilt := built_allCandidates (filter.admits units) units.length
            refine ⟨⟨?_, iff_of_true rfl rfl, ⟨fun h => (by cases h), fun h => (by cases h)⟩,
              ?_, fun h => absurd rfl h, fun _ => Nat.not_lt.mp hlong, fun h => (by cases h)⟩,
              fun _ => hbuilt.count_eq_length⟩
            · show (allCandidates _ _).1.iter.Sublist _
              rw [iter_allCandidates]
              exact List.filter_sublist
            · exact (admissions_allCandidates _ hlength).trans hbuilt.count_eq_length.symm

end Plans

/-! ### Whole scans -/

/-- The counters of a scan with a cache budget, in a database with assertions or without, that has
delivered `events`. -/
structure ScanStats.Truthful (stats : ScanStats) (units : List UInt16) (budget : ℕ)
    (assertions : Bool) (events : List Match) : Prop where
  /-- Every start was scanned or skipped, and once. -/
  scanned_add_skipped :
    stats.prefilterStartsScanned + stats.prefilterStartsSkipped = units.length
  /-- All events come from starts that were scanned. -/
  exists_starts : ∃ starts : List ℕ, starts.Sublist (List.range units.length) ∧
    starts.length = stats.prefilterStartsScanned ∧ ∀ event ∈ events, event.span.start ∈ starts
  /-- The literal filter was used, or there is a reason why not. -/
  literal_iff : stats.prefilterPath = .literal ↔ stats.prefilterBypass = .none
  /-- One scan never reports what only merged reports say. -/
  not_mixed : stats.prefilterPath ≠ .mixedParallel ∧ stats.prefilterBypass ≠ .mixedParallel
  /-- What the prefilter admits are its candidates. -/
  admissions_eq : stats.prefilterAdmissions = stats.prefilterCandidateStarts
  /-- Only the literal filter counts candidates. -/
  candidates_of_ne : stats.prefilterPath ≠ .literal → stats.prefilterCandidateStarts = 0
  /-- The literal filter is not used on short texts. -/
  long_of_literal : stats.prefilterPath = .literal → minLiteralInputUnits ≤ units.length
  /-- Without a filter nothing is skipped. -/
  skipped_of_allStarts : stats.prefilterPath = .allStarts → stats.prefilterStartsSkipped = 0
  /-- A database with assertions bypasses the cache once. -/
  assertionBypasses_eq : stats.assertionBypasses = assertions.toNat
  /-- With assertions nothing is skipped. -/
  skipped_of_assertions : assertions = true → stats.prefilterStartsSkipped = 0
  /-- Assertions keep the cache from being used. -/
  cacheCounts : stats.CacheCounts (if assertions = true then 0 else budget)

section Scans

variable {patterns : List HirPattern} {database : PatternDatabase}

/-- Events come from the starts that are visited. -/
theorem start_mem_of_mem_flatMap {R : Reading} {root : ℕ} {starts : List ℕ} :
    ∀ event ∈ starts.flatMap (database.eventsAt R root), event.span.start ∈ starts := by
  intro event hevent
  obtain ⟨start, hstart, hevent⟩ := List.mem_flatMap.mp hevent
  obtain ⟨ordinal, -, -, heq, -⟩ := mem_eventsAt_iff.mp hevent
  rwa [heq]

/-- The scan of the starts of a plan. -/
theorem scanPlan_counts (hwf : database.WellFormed) (input : Utf16Text) (budget : ℕ)
    {plan : ScanPlan} (hplan : plan.Sound input.units) {metrics : ScanStats}
    (hfresh : metrics.Uncounted) : ∃ metrics',
    scanPlan database input budget plan metrics =
      ⟨(plan.starts input.units).flatMap
        (database.eventsAt (Reading.contextFree input.units) database.root), .ok metrics'⟩ ∧
      metrics'.SameScan { metrics with
        prefilterStartsScanned := (plan.starts input.units).length } ∧
      metrics'.CacheCounts budget := by
  have hstarts : ∀ start ∈ plan.starts input.units, start ≤ usizeMax := fun start hstart =>
    le_usizeMax_of_mem_range input start (hplan.announces.sublist.subset hstart)
  have hfresh' : ∀ scanned, ({ metrics with
      prefilterStartsScanned := scanned } : ScanStats).Uncounted := fun _ =>
    ⟨hfresh.cacheStates_eq, hfresh.cacheHits_eq, hfresh.cacheMisses_eq,
      hfresh.fallbackTransitions_eq⟩
  cases plan with
  | all bypass =>
    obtain ⟨metrics', hscan, hsame, hcounts⟩ :=
      scanDispatch_counts hwf budget input hstarts (hfresh' input.units.length)
    refine ⟨metrics', hscan, ?_, hcounts⟩
    show metrics'.SameScan { metrics with
      prefilterStartsScanned := (List.range input.units.length).length }
    rwa [List.length_range]
  | startTable table bypass =>
    -- the starts are counted while they are scanned
    obtain ⟨metrics', hscan, hsame, hcounts⟩ :=
      scanDispatch_counts hwf budget input hstarts hfresh
    refine ⟨{ metrics' with prefilterStartsScanned :=
      ((List.range input.units.length).filter (table.allows input.units)).length }, ?_, ?_,
      hcounts.states_le, hcounts.states_eq_zero, fun hzero => ?_, hcounts.misses_le,
      hcounts.full_of_fallback⟩
    · show scanPlan database input budget (.startTable table bypass) metrics = _
      rw [scanPlan]
      show (scanWithoutAssertionsDispatch database input budget
        (ScanPlan.starts (.startTable table bypass) input.units) metrics >>= _) = _
      rw [hscan, Delivery.mk_ok_bind, Delivery.pure_eq, List.append_nil]
    · unfold ScanStats.SameScan at hsame ⊢
      rw [hsame]
      rfl
    · have hquiet := hcounts.uncounted hzero
      exact ⟨hquiet.cacheStates_eq, hquiet.cacheHits_eq, hquiet.cacheMisses_eq,
        hquiet.fallbackTransitions_eq⟩
  | candidates bitmap admissions =>
    obtain ⟨metrics', hscan, hsame, hcounts⟩ :=
      scanDispatch_counts hwf budget input hstarts (hfresh' bitmap.count)
    refine ⟨metrics', hscan, ?_, hcounts⟩
    have hlength : bitmap.count = bitmap.iter.length := hplan.candidateCount_eq rfl
    show metrics'.SameScan { metrics with prefilterStartsScanned := bitmap.iter.length }
    rwa [← hlength]

/-- What was announced is true of the counters after the scan. -/
theorem ScanStats.Announces.truthful {header metrics : ScanStats} {units : List UInt16}
    {starts : List ℕ} (h : header.Announces units starts) {budget : ℕ} {assertions : Bool}
    (hsame : metrics.SameScan { header with
      assertionBypasses := assertions.toNat
      prefilterStartsScanned := starts.length })
    (hassertions : assertions = true → header.prefilterPath = .allStarts)
    (hcounts : metrics.CacheCounts (if assertions = true then 0 else budget))
    {events : List Match} (hevents : ∀ event ∈ events, event.span.start ∈ starts) :
    ({ metrics with prefilterStartsSkipped := units.length - metrics.prefilterStartsScanned } :
      ScanStats).Truthful units budget assertions events := by
  have hle := h.sublist.length_le
  rw [List.length_range] at hle
  have hskipped : header.prefilterPath = .allStarts → units.length - starts.length = 0 := by
    intro hpath
    rw [h.all_of_allStarts hpath, List.length_range, Nat.sub_self]
  unfold ScanStats.SameScan at hsame
  refine ⟨?_, ⟨starts, h.sublist, ?_, hevents⟩, ?_, ?_, ?_, ?_, ?_, ?_, ?_, fun hassert => ?_,
    ⟨hcounts.states_le, hcounts.states_eq_zero, fun hzero => ?_, hcounts.misses_le,
      hcounts.full_of_fallback⟩⟩
  · show metrics.prefilterStartsScanned + (units.length - metrics.prefilterStartsScanned) = _
    rw [hsame]
    exact Nat.add_sub_cancel' hle
  · rw [hsame]
  · rw [hsame]
    exact h.literal_iff
  · rw [hsame]
    exact h.not_mixed
  · rw [hsame]
    exact h.admissions_eq
  · rw [hsame]
    exact h.candidates_of_ne
  · rw [hsame]
    exact h.long_of_literal
  · rw [hsame]
    exact hskipped
  · rw [hsame]
  · rw [hsame]
    exact hskipped (hassertions hassert)
  · have hquiet := hcounts.uncounted hzero
    exact ⟨hquiet.cacheStates_eq, hquiet.cacheHits_eq, hquiet.cacheMisses_eq,
      hquiet.fallbackTransitions_eq⟩

/-- Where assertions are used, neither table is compiled, so all starts are visited. -/
theorem Prefilter.path_plan_of_assertions (hassertions : database.usesAssertions = true)
    (units : List UInt16) (enabled literalEnabled : Bool) :
    ((Prefilter.compile patterns database).plan units enabled literalEnabled).path =
      .allStarts := by
  have hcompile : Prefilter.compile patterns database = ⟨none, none, .assertions⟩ := by
    unfold Prefilter.compile
    rw [if_pos hassertions]
  rw [hcompile]
  cases enabled with
  | false => rfl
  | true => cases literalEnabled <;> rfl

/-- The statistics of a scan are true. Every start is scanned or skipped; every event comes from a
start that was scanned; the path and the reason against the literal filter fit together; candidates
are counted on the literal path only, which only long inputs take; assertions keep the cache and
the filters from being used; and the cache stays within its budget, and is full if transitions fell
back. -/
theorem scanWithStats_truthful (h : compile patterns = .ok database) (input : Utf16Text)
    (budget : ℕ) (prefilterEnabled literalPrefilterEnabled : Bool) : ∃ stats,
    scanWithStats database (Prefilter.compile patterns database) input budget prefilterEnabled
        literalPrefilterEnabled =
      ⟨(List.range input.units.length).flatMap
        (database.eventsAt (Reading.contextual input.units) database.root), .ok stats⟩ ∧
      stats.Truthful input.units budget database.usesAssertions
        ((List.range input.units.length).flatMap
          (database.eventsAt (Reading.contextual input.units) database.root)) := by
  have hplan := Prefilter.sound_plan patterns database input.length_le prefilterEnabled
    literalPrefilterEnabled
  have hpath : database.usesAssertions = true → _ := fun hassertions =>
    @Prefilter.path_plan_of_assertions patterns database hassertions input.units prefilterEnabled
      literalPrefilterEnabled
  obtain ⟨stats, hstats⟩ := scanWithStats_eq h input budget prefilterEnabled
    literalPrefilterEnabled
  refine ⟨stats, hstats, ?_⟩
  unfold scanWithStats at hstats
  set plan := (Prefilter.compile patterns database).plan input.units prefilterEnabled
    literalPrefilterEnabled with hplanned
  cases hassertions : database.usesAssertions with
  | true =>
    have hall := hplan.announces.all_of_allStarts (hpath hassertions)
    rw [if_pos hassertions, scanWithAssertions_eq (compile_wellFormed h)] at hstats
    obtain rfl := Except.ok.inj (congrArg Delivery.result hstats)
    have htruthful := @ScanStats.Announces.truthful plan.announcement { plan.announcement with
      assertionBypasses := 1, prefilterStartsScanned := input.units.length } _ _ hplan.announces
      budget true (by rw [hall, List.length_range]; rfl) (fun _ => hpath hassertions)
      (by rw [if_pos rfl]; exact (ScanStats.Uncounted.mk rfl rfl rfl rfl).cacheCounts)
      ((List.range input.units.length).flatMap
        (database.eventsAt (Reading.contextual input.units) database.root))
      (by rw [hall]; exact start_mem_of_mem_flatMap)
    rwa [Nat.sub_self] at htruthful
  | false =>
    obtain ⟨metrics, hscan, hsame, hcounts⟩ := scanPlan_counts (compile_wellFormed h) input budget
      hplan (ScanStats.Uncounted.mk rfl rfl rfl rfl : plan.announcement.Uncounted)
    unfold ScanPlan.announcement at hscan
    rw [if_neg (by rw [hassertions]; exact Bool.false_ne_true), hscan] at hstats
    simp only [Delivery.pure_eq, Delivery.mk_ok_bind, List.append_nil] at hstats
    -- the starts of the plan have the events of all starts
    have hevents : (plan.starts input.units).flatMap
        (database.eventsAt (Reading.contextFree input.units) database.root) =
        (List.range input.units.length).flatMap
          (database.eventsAt (Reading.contextual input.units) database.root) :=
      congrArg Delivery.events hstats
    obtain rfl := Except.ok.inj (congrArg Delivery.result hstats)
    refine hplan.announces.truthful hsame (fun hfalse => absurd hfalse Bool.false_ne_true) ?_ ?_
    · rw [if_neg Bool.false_ne_true]
      exact hcounts
    · rw [← hevents]
      exact start_mem_of_mem_flatMap

/-- The statistics of a scan with shared candidates are true, too; whether it counts the candidates
is left to whoever shares them. -/
theorem scanWithSharedCandidates_truthful (hwf : database.WellFormed)
    (hfree : database.usesAssertions = false) (prefilter : Prefilter) (input : Utf16Text)
    (budget : ℕ) {shared : SharedCandidate}
    (hshared : shared.candidates.iter.Sublist (List.range input.units.length))
    (hlong : minLiteralInputUnits ≤ input.units.length) : ∃ events stats,
    scanWithSharedCandidates database prefilter input budget shared = ⟨events, .ok stats⟩ ∧
      stats.Truthful input.units budget database.usesAssertions events ∧
      stats.prefilterPath = .literal ∧
      stats.prefilterCandidateStarts = shared.accountedCount := by
  have hsublist : (shared.candidates.iter.filter (prefilter.sharedAllowsStart input.units)).Sublist
      (List.range input.units.length) := List.filter_sublist.trans hshared
  set starts := shared.candidates.iter.filter (prefilter.sharedAllowsStart input.units) with hstarts
  set header : ScanStats :=
    { prefilterPath := .literal
      prefilterBypass := .none
      prefilterAdmissions := shared.accountedCount
      prefilterCandidateStarts := shared.accountedCount } with hheader
  obtain ⟨metrics, hscan, hsame, hcounts⟩ := @scanDispatch_counts database hwf budget input starts
    (fun start hstart => le_usizeMax_of_mem_range input start (hsublist.subset hstart)) header
    ⟨rfl, rfl, rfl, rfl⟩
  have hannounces : header.Announces input.units starts :=
    ⟨hsublist, iff_of_true rfl rfl, ⟨fun h => (by cases h), fun h => (by cases h)⟩, rfl,
      fun h => absurd rfl h, fun _ => hlong, fun h => (by cases h)⟩
  unfold ScanStats.SameScan at hsame
  have htruthful := @ScanStats.Announces.truthful header
    { metrics with prefilterStartsScanned := starts.length } _ _ hannounces budget false
    (by unfold ScanStats.SameScan; rw [hsame]; rfl)
    (fun hfalse => absurd hfalse Bool.false_ne_true) (by
      rw [if_neg Bool.false_ne_true]
      exact ⟨hcounts.states_le, hcounts.states_eq_zero, fun hzero => ⟨
        (hcounts.uncounted hzero).cacheStates_eq, (hcounts.uncounted hzero).cacheHits_eq,
        (hcounts.uncounted hzero).cacheMisses_eq,
        (hcounts.uncounted hzero).fallbackTransitions_eq⟩, hcounts.misses_le,
        hcounts.full_of_fallback⟩) _ (@start_mem_of_mem_flatMap database
          (Reading.contextFree input.units) database.root starts)
  refine ⟨_, _, ?_, hfree ▸ htruthful, ?_, ?_⟩
  · unfold scanWithSharedCandidates
    simp only [← hstarts]
    rw [hscan, Delivery.mk_ok_bind, Delivery.pure_eq, List.append_nil]
  · show metrics.prefilterPath = _
    rw [hsame]
  · show metrics.prefilterCandidateStarts = _
    rw [hsame]

end Scans

end Rustmatch

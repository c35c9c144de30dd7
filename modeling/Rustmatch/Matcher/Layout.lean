import Rustmatch.Matcher.Order
import Rustmatch.Matcher.Statistics

/-!
# The layout of the cohorts

A matcher that is built for the benchmarks remembers how its patterns were kept apart, and reports
it together with what it took of the resources of its builder. The bytes that a partition retains
are a parameter.

## Main definitions

* `CohortLayout`, `MatcherBuilder.cohortLayout`: what `build` remembers;
* `Matcher.executionDiagnostics`: the report.

## Main results

* `layouts_are_truthful`: the report says what the partitions of the matcher are compiled from.
-/

namespace Rustmatch

/-- `CohortLayout`: how the patterns of a matcher were cut into cohorts. -/
structure CohortLayout where
  /-- Whether the cohorts are kept apart. -/
  enabled : Bool
  /-- The number of patterns without assertions. -/
  assertionFreePatternCount : ℕ
  /-- The number of patterns with assertions. -/
  assertionBearingPatternCount : ℕ
  /-- The number of partitions without assertions. -/
  assertionFreePartitionCount : ℕ
  /-- The number of partitions with assertions. -/
  assertionBearingPartitionCount : ℕ
  /-- Where the partitions with assertions begin, when there are both. -/
  splitPartition : Option ℕ

namespace CohortLayout

/-- `CohortLayout::disabled`: no cohorts. -/
def disabled : CohortLayout where
  enabled := false
  assertionFreePatternCount := 0
  assertionBearingPatternCount := 0
  assertionFreePartitionCount := 0
  assertionBearingPartitionCount := 0
  splitPartition := none

/-- `CohortLayout::single`: all patterns are in one cohort. -/
def single (assertionFreePatternCount assertionBearingPatternCount partitionCount : ℕ) :
    CohortLayout where
  enabled := true
  assertionFreePatternCount := assertionFreePatternCount
  assertionBearingPatternCount := assertionBearingPatternCount
  assertionFreePartitionCount := if assertionFreePatternCount = 0 then 0 else partitionCount
  assertionBearingPartitionCount := if assertionBearingPatternCount = 0 then 0 else partitionCount
  splitPartition := none

/-- `CohortLayout::cohort_count`: the number of cohorts that have partitions. -/
def cohortCount (layout : CohortLayout) : ℕ :=
  (if layout.assertionFreePatternCount > 0 then 1 else 0) +
    if layout.assertionBearingPatternCount > 0 then 1 else 0

end CohortLayout

/-- `cohort_layout` of the matcher that `build` or `build_matcher` returns. -/
def MatcherBuilder.cohortLayout (builder : MatcherBuilder) (matcher : Matcher) : CohortLayout :=
  if builder.cohortCompilationEnabled then
    let assertionBearingPatternCount :=
      builder.patterns.countP fun pattern => pattern.expression.usesAssertions
    let assertionFreePatternCount := builder.patterns.length - assertionBearingPatternCount
    if assertionFreePatternCount = 0 ∨ assertionBearingPatternCount = 0 then
      .single assertionFreePatternCount assertionBearingPatternCount matcher.partitions.length
    else
      match allocateCohortPartitions (assertionFreePatternCount, assertionBearingPatternCount)
          builder.workerCount with
      | some (assertionFreePartitionCount, assertionBearingPartitionCount) =>
        { enabled := true
          assertionFreePatternCount := assertionFreePatternCount
          assertionBearingPatternCount := assertionBearingPatternCount
          assertionFreePartitionCount := assertionFreePartitionCount
          assertionBearingPartitionCount := assertionBearingPartitionCount
          splitPartition := matcher.splitPartition }
      | none => .disabled -- the loop never runs out of patterns
  else .disabled

/-- `MatcherCohortDiagnostics`: the report on the cohorts of a matcher. -/
structure MatcherCohortDiagnostics where
  /-- Whether the cohorts are kept apart. -/
  enabled : Bool
  /-- The number of cohorts that have partitions. -/
  cohortCount : ℕ
  /-- The number of patterns without assertions. -/
  assertionFreePatternCount : ℕ
  /-- The number of patterns with assertions. -/
  assertionBearingPatternCount : ℕ
  /-- The number of partitions without assertions. -/
  assertionFreePartitionCount : ℕ
  /-- The number of partitions with assertions. -/
  assertionBearingPartitionCount : ℕ
  /-- The number of partitions, with cohorts or without. -/
  totalPartitionCount : ℕ
  /-- The cache budget of all partitions together. -/
  totalCacheBudget : ℕ
  /-- The bytes that the partitions without assertions keep. -/
  assertionFreeRetainedBytes : ℕ
  /-- The bytes that the partitions with assertions keep. -/
  assertionBearingRetainedBytes : ℕ
  /-- The number of threads besides the caller. -/
  spawnedWorkers : ℕ
  /-- Whether events wait for the last partition. -/
  buffersBeforeDelivery : Bool

/-- `execution_diagnostics`: the report on a layout and the partitions. -/
def Matcher.executionDiagnostics (matcher : Matcher) (layout : CohortLayout)
    (retainedBytes : MatcherPartition → ℕ) : MatcherCohortDiagnostics :=
  let splitPartition := layout.splitPartition.getD matcher.partitions.length
  let assertionBearingStart := if layout.splitPartition.isSome then splitPartition else 0
  { enabled := layout.enabled
    cohortCount := layout.cohortCount
    assertionFreePatternCount := layout.assertionFreePatternCount
    assertionBearingPatternCount := layout.assertionBearingPatternCount
    assertionFreePartitionCount := layout.assertionFreePartitionCount
    assertionBearingPartitionCount := layout.assertionBearingPartitionCount
    totalPartitionCount := matcher.partitions.length
    totalCacheBudget := (matcher.partitions.map MatcherPartition.stateCacheBudget).sum
    assertionFreeRetainedBytes :=
      if layout.assertionFreePatternCount > 0 then
        ((matcher.partitions.take splitPartition).map retainedBytes).sum
      else 0
    assertionBearingRetainedBytes :=
      if layout.assertionBearingPatternCount > 0 then
        ((matcher.partitions.drop assertionBearingStart).map retainedBytes).sum
      else 0
    spawnedWorkers := matcher.spawnedWorkerCount
    buffersBeforeDelivery := matcher.partitions.length > 1 }

/-! ### Two groups of partitions -/

/-- Nothing is split if a group is empty. -/
def CohortLayout.splitOf (first second : List MatcherPartition) : Option ℕ :=
  if first = [] ∨ second = [] then none else some first.length

/-- The partitions of two cohorts that are kept apart. -/
structure MatcherBuilder.KeptApart (builder : MatcherBuilder) (matcher : Matcher)
    (freePartitions bearingPartitions : List MatcherPartition) : Prop where
  /-- The partitions without assertions come first. -/
  partitions_eq : matcher.partitions = freePartitions ++ bearingPartitions
  /-- Those are compiled from slices of the patterns without assertions. -/
  free : List.Forall₂ MatcherPartition.CompiledFrom freePartitions
    (slices builder.cohorts.1 freePartitions.length)
  /-- The others are compiled from slices of the patterns with assertions. -/
  bearing : List.Forall₂ MatcherPartition.CompiledFrom bearingPartitions
    (slices builder.cohorts.2 bearingPartitions.length)
  /-- No slice is empty, and there are slices when there are patterns. -/
  free_length : freePartitions.length ≤ builder.cohorts.1.length ∧
    (freePartitions.length = 0 ↔ builder.cohorts.1.length = 0)
  /-- So it is with the patterns with assertions. -/
  bearing_length : bearingPartitions.length ≤ builder.cohorts.2.length ∧
    (bearingPartitions.length = 0 ↔ builder.cohorts.2.length = 0)
  /-- The layout has these numbers. -/
  layout_eq : builder.cohortLayout matcher = {
    enabled := true
    assertionFreePatternCount := builder.cohorts.1.length
    assertionBearingPatternCount := builder.cohorts.2.length
    assertionFreePartitionCount := freePartitions.length
    assertionBearingPartitionCount := bearingPartitions.length
    splitPartition := CohortLayout.splitOf freePartitions bearingPartitions }

namespace MatcherBuilder

variable {builder : MatcherBuilder} {matcher : Matcher}

/-- The cohorts are as large as the builder counts them. -/
theorem length_cohorts (builder : MatcherBuilder) :
    (builder.patterns.countP fun pattern => pattern.expression.usesAssertions) =
        builder.cohorts.2.length ∧
      builder.patterns.length = builder.cohorts.1.length + builder.cohorts.2.length := by
  constructor
  · rw [cohorts, List.partition_eq_filter_filter, List.countP_eq_length_filter]
    congr 1
    refine List.filter_congr fun pattern _ => ?_
    simp
  · rw [← List.length_append]
    exact (partition_perm builder.patterns _).length_eq.symm

/-- Without assertions, and with them. -/
theorem usesAssertions_of_cohorts (builder : MatcherBuilder) :
    (∀ p ∈ builder.cohorts.1, p.expression.usesAssertions = false) ∧
      ∀ p ∈ builder.cohorts.2, p.expression.usesAssertions = true := by
  rw [cohorts, List.partition_eq_filter_filter]
  constructor
  · intro p hp
    simpa using (List.mem_filter.mp hp).2
  · intro p hp
    simpa using (List.mem_filter.mp hp).2

/-- A cohort is all of the patterns when the other one is empty. -/
theorem cohorts_of_empty (builder : MatcherBuilder) :
    (builder.cohorts.2.length = 0 → builder.cohorts.1 = builder.patterns) ∧
      (builder.cohorts.1.length = 0 → builder.cohorts.2 = builder.patterns) := by
  have hlength := builder.length_cohorts.2
  have hsublists : builder.cohorts.1.Sublist builder.patterns ∧
      builder.cohorts.2.Sublist builder.patterns := by
    rw [cohorts, List.partition_eq_filter_filter]
    exact ⟨List.filter_sublist, List.filter_sublist⟩
  exact ⟨fun hempty => hsublists.1.eq_of_length (by omega),
    fun hempty => hsublists.2.eq_of_length (by omega)⟩

/-- Without cohorts there is no layout. -/
theorem cohortLayout_of_disabled (hdisabled : builder.cohortCompilationEnabled = false)
    (matcher : Matcher) : builder.cohortLayout matcher = .disabled := by
  unfold cohortLayout
  rw [hdisabled]
  rfl

/-- The layout of a builder with cohorts, in the words of the cohorts. -/
theorem cohortLayout_eq (henabled : builder.cohortCompilationEnabled = true) (matcher : Matcher) :
    builder.cohortLayout matcher =
      if builder.cohorts.1.length = 0 ∨ builder.cohorts.2.length = 0 then
        .single builder.cohorts.1.length builder.cohorts.2.length matcher.partitions.length
      else
        match allocateCohortPartitions (builder.cohorts.1.length, builder.cohorts.2.length)
            builder.workerCount with
        | some (first, second) =>
          ⟨true, builder.cohorts.1.length, builder.cohorts.2.length, first, second,
            matcher.splitPartition⟩
        | none => .disabled := by
  obtain ⟨hcount, hlength⟩ := builder.length_cohorts
  unfold cohortLayout
  simp only
  rw [if_pos henabled, hcount, hlength, Nat.add_sub_cancel]

/-- There are as many partitions as slices. -/
theorem length_of_forall₂_slices {partitions : List MatcherPartition} {patterns : List HirPattern}
    {count : ℕ}
    (h : List.Forall₂ MatcherPartition.CompiledFrom partitions (slices patterns count)) :
    partitions.length = count := by
  rw [h.length_eq, slices, List.length_map, List.length_range]

/-- One of the cohorts has all patterns. -/
theorem keptApart_of_single {hpatterns : builder.patterns ≠ []} {hworkers : builder.workerCount ≠ 0}
    (henabled : builder.cohortCompilationEnabled = true)
    (hsingle : builder.cohorts.1.length = 0 ∨ builder.cohorts.2.length = 0)
    (h : builder.buildWhole hpatterns hworkers = .ok matcher) :
    ∃ freePartitions bearingPartitions,
      builder.KeptApart matcher freePartitions bearingPartitions := by
  have hpos := List.length_pos_of_ne_nil hpatterns
  have hworkers_pos := Nat.pos_of_ne_zero hworkers
  have hlength := builder.length_cohorts.2
  have hcompiled := groups_of_buildWhole h
  have hcount := length_of_forall₂_slices hcompiled
  rw [← hcount] at hcompiled
  have hlayout := cohortLayout_eq henabled matcher
  rw [if_pos hsingle] at hlayout
  obtain hfree | hbearing := hsingle
  · refine ⟨[], matcher.partitions, rfl, .nil, ?_, ⟨Nat.zero_le _, by simp [hfree]⟩,
      ⟨by omega, by omega⟩, ?_⟩
    · rw [builder.cohorts_of_empty.2 hfree]
      exact hcompiled
    · rw [hlayout, CohortLayout.single, if_pos hfree, if_neg (by omega),
        CohortLayout.splitOf, if_pos (Or.inl rfl)]
      rfl
  · refine ⟨matcher.partitions, [], (List.append_nil _).symm, ?_, .nil, ⟨by omega, by omega⟩,
      ⟨Nat.zero_le _, by simp [hbearing]⟩, ?_⟩
    · rw [builder.cohorts_of_empty.1 hbearing]
      exact hcompiled
    · rw [hlayout, CohortLayout.single, if_neg (by omega), if_pos hbearing,
        CohortLayout.splitOf, if_pos (Or.inr rfl)]
      rfl

/-- Both cohorts have patterns. -/
theorem keptApart_of_mixed {hpatterns : builder.patterns ≠ []} {hworkers : builder.workerCount ≠ 0}
    (henabled : builder.cohortCompilationEnabled = true)
    (hmixed : ¬ (builder.cohorts.1.length = 0 ∨ builder.cohorts.2.length = 0))
    (h : builder.buildCohorts hpatterns hworkers = .ok matcher) :
    ∃ freePartitions bearingPartitions,
      builder.KeptApart matcher freePartitions bearingPartitions := by
  obtain ⟨first, second, freePartitions, bearingPartitions, hbuilt⟩ := exists_mixedBuild hmixed h
  obtain ⟨hfirst, hsecond⟩ := hbuilt.lengths
  have hfirst_le := hbuilt.first_le
  have hsecond_le := hbuilt.second_le
  have hfree := forall₂_compiledFrom_slices hbuilt.free_eq
  have hbearing := forall₂_compiledFrom_slices hbuilt.bearing_eq
  rw [Nat.min_eq_left hfirst_le.2, ← hfirst] at hfree
  rw [Nat.min_eq_left hsecond_le.2, ← hsecond] at hbearing
  have hne : ¬ (freePartitions = [] ∨ bearingPartitions = []) := by
    rw [← List.length_eq_zero_iff, ← List.length_eq_zero_iff]
    omega
  refine ⟨freePartitions, bearingPartitions, hbuilt.partitions_eq, hfree, hbearing,
    ⟨by omega, by omega⟩, ⟨by omega, by omega⟩, ?_⟩
  rw [cohortLayout_eq henabled, if_neg hmixed, hbuilt.allocation_eq, hbuilt.split_eq,
    CohortLayout.splitOf, if_neg hne, hfirst, hsecond]

/-- With cohorts, what is built is kept apart. -/
theorem exists_keptApart (henabled : builder.cohortCompilationEnabled = true)
    (h : builder.build = .ok matcher) : ∃ freePartitions bearingPartitions,
      builder.KeptApart matcher freePartitions bearingPartitions := by
  unfold build at h
  split at h
  next => cases h
  next =>
    split at h
    next => cases h
    next =>
      by_cases hsingle : builder.cohorts.1.length = 0 ∨ builder.cohorts.2.length = 0
      · rw [buildCohorts_of_single hsingle] at h
        exact keptApart_of_single henabled hsingle h
      · exact keptApart_of_mixed henabled hsingle h

/-- The partitions of one cohort use assertions, or none of them does. -/
theorem usesAssertions_of_slices {patterns : List HirPattern} {partitions : List MatcherPartition}
    {uses : Bool} (huses : ∀ p ∈ patterns, p.expression.usesAssertions = uses)
    (hlength : partitions.length ≤ patterns.length)
    (h : List.Forall₂ MatcherPartition.CompiledFrom partitions
      (slices patterns partitions.length)) :
    ∀ partition ∈ partitions, partition.database.usesAssertions = uses := by
  intro partition hpartition
  have hpos := List.length_pos_of_mem hpartition
  obtain ⟨slice, hslice, hcompiled⟩ := exists_of_mem_forall₂ h.flip partition hpartition
  obtain ⟨index, hindex, rfl⟩ := List.mem_map.mp hslice
  rw [usesAssertions_of_compile hcompiled.database_eq]
  have hmem : ∀ p ∈ sliceAt patterns partitions.length index,
      p.expression.usesAssertions = uses := by
    intro p hp
    exact huses p (List.mem_of_mem_drop (List.mem_of_mem_take hp))
  -- there are no empty slices
  have hslice_length := length_sliceAt patterns (List.mem_range.mp hindex)
  have hshare := share_pos hpos hlength index
  obtain ⟨p, hp⟩ := List.exists_mem_of_length_pos (hslice_length.symm ▸ hshare)
  cases uses with
  | false =>
    rw [List.any_eq_false]
    intro q hq
    rw [hmem q hq]
    exact Bool.false_ne_true
  | true =>
    rw [List.any_eq_true]
    exact ⟨p, hp, hmem p hp⟩

/-- A partition has the patterns that it was compiled from. -/
theorem sum_patternCount_flatten {partitions : List MatcherPartition}
    {groups : List (List HirPattern)}
    (h : List.Forall₂ MatcherPartition.CompiledFrom partitions groups) :
    (partitions.map fun partition => partition.database.patternCount).sum =
      groups.flatten.length := by
  induction h with
  | nil => rfl
  | cons hpartition _ ih =>
    rw [List.map_cons, List.sum_cons, List.flatten_cons, List.length_append, ih,
      PatternDatabase.patternCount, patternIds_of_compile hpartition.database_eq, List.length_map]

/-- The partitions of a cohort have its patterns. -/
theorem sum_patternCount {patterns : List HirPattern} {partitions : List MatcherPartition}
    (hempty : partitions.length = 0 ↔ patterns.length = 0)
    (h : List.Forall₂ MatcherPartition.CompiledFrom partitions
      (slices patterns partitions.length)) :
    (partitions.map fun partition => partition.database.patternCount).sum = patterns.length := by
  rw [sum_patternCount_flatten h]
  cases hcount : partitions.length with
  | zero =>
    rw [hempty.mp hcount]
    rfl
  | succ count => rw [slices, flatten_slices _ (Nat.succ_pos count)]

end MatcherBuilder

/-! ### The report -/

/-- A report that is true of a matcher and of what it was built from. -/
structure MatcherCohortDiagnostics.Truthful (report : MatcherCohortDiagnostics)
    (builder : MatcherBuilder) (matcher : Matcher) (retainedBytes : MatcherPartition → ℕ) :
    Prop where
  /-- The setting is that of the builder. -/
  enabled_eq : report.enabled = builder.cohortCompilationEnabled
  /-- Without cohorts there is nothing to tell of them. -/
  disabled : builder.cohortCompilationEnabled = false →
    report.cohortCount = 0 ∧ report.assertionFreePatternCount = 0 ∧
      report.assertionBearingPatternCount = 0 ∧ report.assertionFreePartitionCount = 0 ∧
      report.assertionBearingPartitionCount = 0 ∧ report.assertionFreeRetainedBytes = 0 ∧
      report.assertionBearingRetainedBytes = 0
  /-- The partitions are those of one cohort, and behind them those of the other. -/
  cohorts : builder.cohortCompilationEnabled = true →
    ∃ freePartitions bearingPartitions, matcher.partitions = freePartitions ++ bearingPartitions ∧
      (∀ partition ∈ freePartitions, partition.database.usesAssertions = false) ∧
      (∀ partition ∈ bearingPartitions, partition.database.usesAssertions = true) ∧
      report.assertionFreePatternCount =
        (freePartitions.map fun partition => partition.database.patternCount).sum ∧
      report.assertionBearingPatternCount =
        (bearingPartitions.map fun partition => partition.database.patternCount).sum ∧
      report.assertionFreePartitionCount = freePartitions.length ∧
      report.assertionBearingPartitionCount = bearingPartitions.length ∧
      report.cohortCount = ([freePartitions, bearingPartitions].filter (!·.isEmpty)).length ∧
      report.assertionFreeRetainedBytes = (freePartitions.map retainedBytes).sum ∧
      report.assertionBearingRetainedBytes = (bearingPartitions.map retainedBytes).sum
  /-- All partitions are counted. -/
  partitions_eq : report.totalPartitionCount = matcher.partitions.length
  /-- The budget is that of the builder. -/
  budget_eq : report.totalCacheBudget = builder.stateCacheBudget
  /-- The caller and the threads are not more than the workers that were asked for. -/
  spawned_lt : report.spawnedWorkers < builder.workerCount
  /-- Events are delivered at once if there is one partition only. -/
  buffers_iff : report.buffersBeforeDelivery = false ↔ ∃ partition, matcher.partitions = [partition]

/-- The numbers of a report are those of the two groups. -/
theorem CohortLayout.sums_of_groups {first second : List MatcherPartition}
    {firstCount secondCount : ℕ} (hfirst : first.length = 0 ↔ firstCount = 0)
    (hsecond : second.length = 0 ↔ secondCount = 0) (f : MatcherPartition → ℕ) :
    ((if firstCount > 0 then 1 else 0) + (if secondCount > 0 then 1 else 0) =
      ([first, second].filter (!·.isEmpty)).length) ∧
    (if firstCount > 0 then
        (((first ++ second).take ((splitOf first second).getD (first ++ second).length)).map f).sum
      else 0) = (first.map f).sum ∧
    (if secondCount > 0 then
        (((first ++ second).drop (if (splitOf first second).isSome then
          (splitOf first second).getD (first ++ second).length else 0)).map f).sum
      else 0) = (second.map f).sum := by
  have hpos : (firstCount > 0 ↔ first.length > 0) ∧ (secondCount > 0 ↔ second.length > 0) := by
    omega
  simp only [hpos.1, hpos.2]
  cases first with
  | nil => cases second <;> simp [splitOf]
  | cons partition first =>
    cases second with
    | nil => simp [splitOf]
    | cons other second => simp [splitOf]

/-- What a matcher with cohorts reports is what its partitions are compiled from, and how the
resources of its builder were shared among them. -/
theorem layouts_are_truthful {builder : MatcherBuilder} {matcher : Matcher}
    (hbudget : builder.stateCacheBudget ≤ usizeMax) (h : builder.build = .ok matcher)
    (retainedBytes : MatcherPartition → ℕ) :
    (matcher.executionDiagnostics (builder.cohortLayout matcher) retainedBytes).Truthful builder
      matcher retainedBytes := by
  have hresources := MatcherBuilder.resources_of_build hbudget h
  have hbuffers : decide (matcher.partitions.length > 1) = false ↔
      ∃ partition, matcher.partitions = [partition] := by
    rw [← List.length_eq_one_iff, decide_eq_false_iff_not]
    have hpos := List.length_pos_of_ne_nil matcher.partitions_ne_nil
    omega
  cases henabled : builder.cohortCompilationEnabled with
  | false =>
    rw [MatcherBuilder.cohortLayout_of_disabled henabled]
    exact ⟨henabled.symm, fun _ => ⟨rfl, rfl, rfl, rfl, rfl, rfl, rfl⟩,
      fun htrue => absurd (henabled.symm.trans htrue) Bool.false_ne_true, rfl,
      hresources.budget_eq, hresources.spawned_lt, hbuffers⟩
  | true =>
    obtain ⟨freePartitions, bearingPartitions, hapart⟩ :=
      MatcherBuilder.exists_keptApart henabled h
    obtain ⟨hfree, hbearing⟩ := builder.usesAssertions_of_cohorts
    have hpartitions := hapart.partitions_eq
    have hsums := CohortLayout.sums_of_groups hapart.free_length.2 hapart.bearing_length.2
      retainedBytes
    rw [← hpartitions] at hsums
    rw [hapart.layout_eq]
    refine ⟨henabled.symm, fun hfalse => absurd (henabled.symm.trans hfalse) (by decide),
      fun _ => ⟨freePartitions, bearingPartitions, hpartitions,
        MatcherBuilder.usesAssertions_of_slices hfree hapart.free_length.1 hapart.free,
        MatcherBuilder.usesAssertions_of_slices hbearing hapart.bearing_length.1 hapart.bearing,
        (MatcherBuilder.sum_patternCount hapart.free_length.2 hapart.free).symm,
        (MatcherBuilder.sum_patternCount hapart.bearing_length.2 hapart.bearing).symm, rfl, rfl,
        hsums⟩, rfl, hresources.budget_eq, hresources.spawned_lt, hbuffers⟩

/-- The layout of one pattern without assertions and one with them. -/
theorem layouts_are_truthful_mixedBuilder : ∃ matcher,
    (mixedBuilder.setCohortCompilationEnabled true).build = .ok matcher ∧
    (matcher.executionDiagnostics ((mixedBuilder.setCohortCompilationEnabled true).cohortLayout
      matcher) fun _ => 8).Truthful (mixedBuilder.setCohortCompilationEnabled true) matcher
        fun _ => 8 := by
  have hbuild : ∃ matcher, (mixedBuilder.setCohortCompilationEnabled true).build = .ok matcher :=
    ⟨_, rfl⟩
  obtain ⟨matcher, h⟩ := hbuild
  exact ⟨matcher, h, layouts_are_truthful (by decide) h _⟩

end Rustmatch

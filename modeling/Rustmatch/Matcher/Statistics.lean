import Mathlib.Data.List.Forall2
import Rustmatch.Matcher.Diagnostics
import Rustmatch.Matcher.Partitions

/-!
# What a report says

A report of a scan merges the statistics of all partitions. Each of these is true of its partition,
and merging adds counters up and keeps a path or a reason on which all partitions agree, so the
report is true of the whole scan.

## Main definitions

* `ScanStats.Merges`: merged statistics;
* `ScanDiagnostics.Truthful`: a report that is true of a scan.

## Main results

* `ScanStats.merges_foldl`: statistics that are merged one after the other;
* `reports_are_truthful`: the reports of all matchers.
-/

namespace Rustmatch

/-! ### Merged statistics -/

namespace ScanStats

/-- The counters that are added up. -/
def counters : List (ScanStats → ℕ) :=
  [cacheStates, cacheHits, cacheMisses, fallbackTransitions, assertionBypasses,
    prefilterAdmissions, prefilterCandidateStarts, prefilterStartsScanned, prefilterStartsSkipped]

/-- A counter that stops at its greatest value. -/
def SaturatesTo (value sum : ℕ) : Prop :=
  value = sum ∨ (value = usizeMax ∧ usizeMax < sum)

/-- Statistics that are merged from parts. -/
structure Merges (total : ScanStats) (parts : List ScanStats) : Prop where
  /-- Every counter is the saturated sum of the parts'. -/
  counter_eq : ∀ counter ∈ counters, SaturatesTo (counter total) (parts.map counter).sum
  /-- A path is reported when all parts took it. -/
  path_iff : ∀ path ≠ PrefilterPath.mixedParallel,
    (total.prefilterPath = path ↔ ∀ part ∈ parts, part.prefilterPath = path)
  /-- A bypass is reported when all parts took it. -/
  bypass_iff : ∀ bypass ≠ PrefilterBypass.mixedParallel,
    (total.prefilterBypass = bypass ↔ ∀ part ∈ parts, part.prefilterBypass = bypass)

/-- A saturated sum is no greater. -/
theorem SaturatesTo.le {value sum : ℕ} (h : SaturatesTo value sum) : value ≤ sum := by
  obtain rfl | ⟨rfl, hlt⟩ := h
  · exact le_refl _
  · exact Nat.le_of_lt hlt

/-- A sum that can be counted is counted. -/
theorem SaturatesTo.eq_of_le {value sum : ℕ} (h : SaturatesTo value sum)
    (hle : sum ≤ usizeMax) : value = sum := by
  obtain rfl | ⟨-, hlt⟩ := h
  · rfl
  · exact absurd hle (Nat.not_le_of_lt hlt)

/-- Merging adds the counters up. -/
theorem counter_mergePartition {counter : ScanStats → ℕ} (h : counter ∈ counters)
    (stats other : ScanStats) :
    counter (stats.mergePartition other) = saturatingAdd (counter stats) (counter other) := by
  unfold counters at h
  simp only [List.mem_cons, List.not_mem_nil, or_false] at h
  rcases h with rfl | rfl | rfl | rfl | rfl | rfl | rfl | rfl | rfl <;> rfl

/-- One merge more. -/
theorem Merges.mergePartition {total part : ScanStats} {parts : List ScanStats}
    (h : total.Merges parts) : (total.mergePartition part).Merges (parts ++ [part]) where
  counter_eq counter hcounter := by
    rw [counter_mergePartition hcounter, List.map_append, List.sum_append, List.map_singleton,
      List.sum_singleton]
    have hsaturates := h.counter_eq counter hcounter
    unfold SaturatesTo saturatingAdd at *
    omega
  path_iff path hpath := by
    rw [List.forall_mem_append, List.forall_mem_singleton, ← h.path_iff path hpath]
    show (if _ then _ else _) = path ↔ _
    split
    next hne =>
      refine iff_of_false (Ne.symm hpath) fun heq => hne ?_
      exact heq.1.trans heq.2.symm
    next heq =>
      rw [not_not] at heq
      rw [← heq, and_self]
  bypass_iff bypass hbypass := by
    rw [List.forall_mem_append, List.forall_mem_singleton, ← h.bypass_iff bypass hbypass]
    show (if _ then _ else _) = bypass ↔ _
    split
    next hne =>
      refine iff_of_false (Ne.symm hbypass) fun heq => hne ?_
      exact heq.1.trans heq.2.symm
    next heq =>
      rw [not_not] at heq
      rw [← heq, and_self]

/-- The statistics of one partition alone. -/
theorem merges_singleton (stats : ScanStats) : stats.Merges [stats] where
  counter_eq counter _ := Or.inl (by rw [List.map_singleton, List.sum_singleton])
  path_iff _ _ := by rw [List.forall_mem_singleton]
  bypass_iff _ _ := by rw [List.forall_mem_singleton]

/-- All merges, one after the other. -/
theorem merges_foldl {total : ScanStats} {parts : List ScanStats} (h : total.Merges parts)
    (rest : List ScanStats) :
    (rest.foldl ScanStats.mergePartition total).Merges (parts ++ rest) := by
  induction rest generalizing total parts with
  | nil => rwa [List.append_nil]
  | cons part rest ih =>
    rw [List.foldl_cons, List.append_cons]
    exact ih h.mergePartition

/-- Candidates are counted twice over, also in merged statistics. -/
theorem admissions_eq_foldl {total : ScanStats}
    (h : total.prefilterAdmissions = total.prefilterCandidateStarts) {rest : List ScanStats}
    (hrest : ∀ part ∈ rest, part.prefilterAdmissions = part.prefilterCandidateStarts) :
    (rest.foldl ScanStats.mergePartition total).prefilterAdmissions =
      (rest.foldl ScanStats.mergePartition total).prefilterCandidateStarts := by
  induction rest generalizing total with
  | nil => exact h
  | cons part rest ih =>
    obtain ⟨hpart, hrest⟩ := List.forall_mem_cons.mp hrest
    rw [List.foldl_cons]
    refine ih ?_ hrest
    unfold mergePartition
    rw [h, hpart]

end ScanStats

/-! ### Partitions -/

namespace MatcherPartition

/-- Statistics that are true of the scan of a partition. -/
def Reports (partition : MatcherPartition) (input : List UInt16) (output : DiagnosedOutput) :
    Prop :=
  output.events = partition.events input ∧
    output.stats.Truthful input partition.stateCacheBudget partition.database.usesAssertions
      output.events

end MatcherPartition

namespace Matcher

variable {matcher : Matcher} {host : Host} {input : Utf16Text} {Payload : Type}
  {partitions : List MatcherPartition}

/-- A partition scanned on its own. -/
theorem scanPartitionWithStats_reports {partition : MatcherPartition} {patterns : List HirPattern}
    (h : partition.CompiledFrom patterns) :
    ∃ output, matcher.scanPartitionWithStats input partition = .ok output ∧
      partition.Reports input.units output := by
  obtain ⟨stats, hscan, htruthful⟩ := scanWithStats_truthful h.database_eq input
    partition.stateCacheBudget matcher.prefilterEnabled matcher.literalPrefilterEnabled
  refine ⟨⟨⟨partition.events input.units⟩, stats⟩, ?_, rfl, htruthful⟩
  unfold scanPartitionWithStats
  simp only [h.prefilter_eq, hscan]
  rfl

/-- Shared candidates are found in long inputs only, for partitions that all have a literal filter,
and lie in the input. -/
theorem sharedCandidatePlan_some {partitionOffset : ℕ} {plan : SharedCandidatePlan}
    (h : matcher.sharedCandidatePlan host input partitions partitionOffset = .ok (some plan)) :
    minLiteralInputUnits ≤ input.units.length ∧
      plan.candidates.iter.Sublist (List.range input.units.length) ∧
      ∀ partition ∈ partitions, ∃ filter, partition.prefilter.literal = some filter := by
  unfold sharedCandidatePlan at h
  split at h
  next => cases h
  next heligible =>
    have hlong : minLiteralInputUnits ≤ input.units.length := by
      simp only [isEligible, Bool.not_eq_true', Bool.not_eq_false, Bool.and_eq_true,
        decide_eq_true_eq] at heligible
      exact (show minLiteralInputUnits ≤ minSharedInputUnits by decide).trans heligible.2
    obtain ⟨herror, -⟩ | hnone | ⟨first, rest, plan', hfilters, hsome, hiter⟩ :=
      @sharedPlan_cases (host.machine partitionOffset) input.units input.length_le
        (partitions.map MatcherPartition.prefilter) matcher.prefilterEnabled
        matcher.literalPrefilterEnabled
    · rw [herror] at h
      cases h
    · rw [hnone] at h
      cases h
    · rw [hsome] at h
      obtain rfl : plan' = plan := Option.some.inj (Except.ok.inj h)
      refine ⟨hlong, ?_, fun partition hmem => ?_⟩
      · rw [hiter]
        exact List.filter_sublist
      · obtain ⟨filter, -, hliteral⟩ := exists_of_mapM_eq_some hfilters partition.prefilter
          (List.mem_map_of_mem hmem)
        exact ⟨filter, hliteral⟩

/-- Databases with assertions have no literal filter. -/
theorem usesAssertions_of_literal {patterns : List HirPattern} {database : PatternDatabase}
    {filter : LiteralPrefilter} (h : (Prefilter.compile patterns database).literal = some filter) :
    database.usesAssertions = false := by
  unfold Prefilter.compile at h
  split at h
  next => cases h
  next hassertions => exact Bool.eq_false_iff.mpr hassertions

/-- A partition scanned with the shared candidates of its group, or without. -/
theorem scanPlannedWithStats_reports {partitionOffset : ℕ}
    (hcompiled : ∀ partition ∈ partitions, ∃ patterns, partition.CompiledFrom patterns)
    {plan : Option SharedCandidatePlan}
    (hplan : matcher.sharedCandidatePlan host input partitions partitionOffset = .ok plan)
    {partition : MatcherPartition} (hmem : partition ∈ partitions) (index : ℕ) :
    ∃ output, matcher.scanPlannedWithStats input partition (plan.map (·.partition index)) =
      .ok output ∧ partition.Reports input.units output := by
  obtain ⟨patterns, hpartition⟩ := hcompiled partition hmem
  cases plan with
  | none => exact scanPartitionWithStats_reports hpartition
  | some plan =>
    obtain ⟨hlong, hsublist, hfilters⟩ := sharedCandidatePlan_some hplan
    obtain ⟨filter, hfilter⟩ := hfilters partition hmem
    rw [hpartition.prefilter_eq] at hfilter
    have hfree := usesAssertions_of_literal hfilter
    obtain ⟨events, stats, hscan, htruthful, -, -⟩ := @scanWithSharedCandidates_truthful
      partition.database (compile_wellFormed hpartition.database_eq) hfree partition.prefilter
      input partition.stateCacheBudget (plan.partition index) hsublist hlong
    have hstats : matcher.scanPlannedWithStats input partition
        ((some plan).map (·.partition index)) = .ok ⟨⟨events⟩, stats⟩ := by
      show scanPartitionSharedWithStats input partition (plan.partition index) = _
      unfold scanPartitionSharedWithStats
      simp only [hscan]
      rfl
    refine ⟨_, hstats, ?_, htruthful⟩
    -- the events are those of the plain scan
    have hplain := scanPlanned_eq hcompiled hplan hmem index
    rw [scanPlanned_eq_map, hstats] at hplain
    exact congrArg PartitionScanOutput.events (Except.ok.inj hplain)

/-- What a scope returns is true, partition by partition. -/
theorem forall₂_reports_of_run {hpartitions : partitions ≠ []} {partitionOffset : ℕ}
    {shared : ℕ → Option SharedCandidate} {outputs : List DiagnosedOutput}
    (hscans : ∀ index partition, partitions[index]? = some partition →
      ∃ output, matcher.scanPlannedWithStats input partition (shared index) = .ok output ∧
        partition.Reports input.units output)
    (h : (matcher.statsScope host (Hooks.none : Hooks Payload) input partitions hpartitions
      partitionOffset shared).run = .returned (.ok outputs)) :
    List.Forall₂ (fun partition output => partition.Reports input.units output) partitions
      outputs := by
  obtain ⟨hlength, houtputs⟩ := outputs_of_run h
  replace hlength : outputs.length = partitions.length := hlength
  refine List.forall₂_iff_get.mpr ⟨hlength.symm, fun index hleft hright => ?_⟩
  have hget : partitions[index]? = some partitions[index] := List.getElem?_eq_getElem hleft
  obtain ⟨output, hscan, hreports⟩ := hscans index _ hget
  have houtput := houtputs index hright
  simp only [statsScope, hget, hscan] at houtput
  obtain rfl : output = outputs[index] := Outcome.output.inj houtput
  exact hreports

/-- What the schedulers return is true, partition by partition. -/
theorem forall₂_reports_of_scanParallelIn
    (hcompiled : ∀ partition ∈ matcher.partitions, ∃ patterns, partition.CompiledFrom patterns)
    {outputs : List DiagnosedOutput} (h : matcher.scanParallelIn host input
      (matcher.statsScope host (Hooks.none : Hooks Payload) input) = .returned (.ok outputs)) :
    List.Forall₂ (fun partition output => partition.Reports input.units output)
      matcher.partitions outputs := by
  have hgroup : ∀ {partitions : List MatcherPartition} {hpartitions : partitions ≠ []}
      {partitionOffset : ℕ} {outputs : List DiagnosedOutput},
      (∀ partition ∈ partitions, partition ∈ matcher.partitions) →
      matcher.scanGroupIn host input (matcher.statsScope host (Hooks.none : Hooks Payload) input)
        partitions hpartitions partitionOffset = .returned (.ok outputs) →
      List.Forall₂ (fun partition output => partition.Reports input.units output) partitions
        outputs := by
    intro partitions hpartitions partitionOffset outputs hsub h
    obtain ⟨plan, hplan, hrun⟩ := Ending.bind_eq_ok.mp h
    refine forall₂_reports_of_run (fun index partition hget => ?_) hrun
    exact scanPlannedWithStats_reports (fun other hother => hcompiled other (hsub other hother))
      (Ending.returned.inj hplan) (List.mem_of_getElem? hget) index
  unfold scanParallelIn at h
  split at h
  next splitPartition hsplit =>
    unfold scanSplitIn at h
    split at h
    next =>
      -- one worker: the groups in turn
      obtain ⟨first, hfirst, h⟩ := Ending.bind_eq_ok.mp h
      obtain ⟨more, hmore, h⟩ := Ending.bind_eq_ok.mp h
      obtain rfl : first ++ more = outputs := Except.ok.inj (Ending.returned.inj h)
      rw [← List.take_append_drop splitPartition matcher.partitions]
      exact List.rel_append (hgroup (fun _ => List.mem_of_mem_take) hfirst)
        (hgroup (fun _ => List.mem_of_mem_drop) hmore)
    next =>
      obtain ⟨freePlan, hfree, h⟩ := Ending.bind_eq_ok.mp h
      obtain ⟨bearingPlan, hbearing, hrun⟩ := Ending.bind_eq_ok.mp h
      refine forall₂_reports_of_run (fun index partition hget => ?_) hrun
      split
      next hindex =>
        have hmem : partition ∈ matcher.partitions.take splitPartition :=
          List.mem_of_getElem? ((List.getElem?_take_of_lt hindex).trans hget)
        exact scanPlannedWithStats_reports
          (fun other hother => hcompiled other (List.mem_of_mem_take hother))
          (Ending.returned.inj hfree) hmem index
      next hindex =>
        have hmem : partition ∈ matcher.partitions.drop splitPartition := by
          refine @List.mem_of_getElem? _ _ (index - splitPartition) _ ?_
          rw [List.getElem?_drop, Nat.add_sub_cancel' (Nat.not_lt.mp hindex), hget]
        exact scanPlannedWithStats_reports
          (fun other hother => hcompiled other (List.mem_of_mem_drop hother))
          (Ending.returned.inj hbearing) hmem (index - splitPartition)
  next => exact hgroup (fun _ => id) h

/-- A scan reports the merged statistics of its partitions, or fails for want of a thread. -/
theorem scanWithDiagnostics_cases
    (hcompiled : ∀ partition ∈ matcher.partitions, ∃ patterns, partition.CompiledFrom patterns)
    (host : Host) (input : Utf16Text) :
    (∃ outputs output, ParallelScanOutput.new outputs = some output ∧
      List.Forall₂ (fun partition output => partition.Reports input.units output)
        matcher.partitions outputs ∧
      matcher.scanWithDiagnostics host input = ⟨outputs.flatMap fun output => output.events,
        .returned (.ok (matcher.diagnostics output.stats
          (if matcher.partitions.length = 1 then 0 else output.bufferedEvents)))⟩) ∨
    (¬ host.Starts ∧ matcher.scanWithDiagnostics host input =
      ⟨[], .returned (.error .workerUnavailable)⟩) := by
  have hallows := @scanParallel_allows matcher Empty hcompiled host input
  rw [scanParallel_eq_map] at hallows
  unfold scanWithDiagnostics
  rcases hpartitions : matcher.partitions with _ | ⟨partition, _ | ⟨second, rest⟩⟩
  · exact absurd hpartitions matcher.partitions_ne_nil
  · -- one partition is scanned without a scheduler
    obtain ⟨patterns, hpatterns⟩ := hcompiled partition (hpartitions ▸ List.mem_singleton_self _)
    obtain ⟨output, hscan, hreports⟩ :=
      @scanPartitionWithStats_reports matcher input partition patterns hpatterns
    refine Or.inl ⟨[output], ⟨[output], output.stats⟩, rfl, .cons hreports .nil, ?_⟩
    unfold scanPartitionWithStats at hscan
    simp only at hscan ⊢
    generalize scanWithStats _ _ _ _ _ _ = scanned at hscan ⊢
    obtain ⟨events, result⟩ := scanned
    cases result with
    | error reason => cases hscan
    | ok stats =>
      obtain rfl := Except.ok.inj hscan
      rw [List.flatMap_singleton]
      rfl
  · simp only
    cases hending : matcher.scanParallelIn host input
      (matcher.statsScope host (Hooks.none : Hooks Empty) input) with
    | returned result =>
      rw [hending] at hallows
      cases result with
      | error reason =>
        obtain heq | ⟨hstarts, heq⟩ := hallows
        · cases heq
        · obtain rfl := Except.error.inj (Ending.returned.inj heq)
          exact Or.inr ⟨hstarts, rfl⟩
      | ok outputs =>
        obtain ⟨output, hnew, houtputs⟩ :=
          ParallelScanOutput.exists_new (ne_nil_of_scanParallelIn hending)
        have hreports := forall₂_reports_of_scanParallelIn hcompiled hending
        rw [hpartitions] at hreports
        refine Or.inl ⟨outputs, output, hnew, hreports, ?_⟩
        rw [if_neg (by rw [List.length_cons, List.length_cons]; omega)]
        simp only [hnew, houtputs]
    | panicked payload => cases payload
    | outputExpected =>
      rw [hending] at hallows
      obtain heq | ⟨-, heq⟩ := hallows <;> cases heq

end Matcher

/-- The merged statistics of outputs. -/
theorem ParallelScanOutput.merges_new {outputs : List DiagnosedOutput}
    {output : ParallelScanOutput} (h : ParallelScanOutput.new outputs = some output) :
    output.partitions = outputs ∧ output.stats.Merges (outputs.map DiagnosedOutput.stats) ∧
      ((∀ part ∈ outputs.map DiagnosedOutput.stats,
        part.prefilterAdmissions = part.prefilterCandidateStarts) →
          output.stats.prefilterAdmissions = output.stats.prefilterCandidateStarts) := by
  cases outputs with
  | nil => cases h
  | cons first rest =>
    obtain rfl := Option.some.inj h
    refine ⟨rfl, ScanStats.merges_foldl (ScanStats.merges_singleton first.stats) _,
      fun hparts => ?_⟩
    obtain ⟨hfirst, hrest⟩ := List.forall_mem_cons.mp hparts
    exact ScanStats.admissions_eq_foldl hfirst hrest

/-! ### Builders -/

namespace MatcherBuilder

variable {builder : MatcherBuilder} {matcher : Matcher}

/-- What a matcher keeps of the resources that its builder was given. -/
structure Resources (builder : MatcherBuilder) (matcher : Matcher) : Prop where
  /-- The matcher remembers the workers that were asked for. -/
  requestedWorkerCount_eq : matcher.requestedWorkerCount = builder.workerCount
  /-- The shares add up to the budget. -/
  budget_eq : (matcher.partitions.map MatcherPartition.stateCacheBudget).sum =
    builder.stateCacheBudget
  /-- The caller and the threads are not more than these workers. -/
  spawned_lt : matcher.spawnedWorkerCount < builder.workerCount

/-- The build of one group keeps its resources. -/
theorem resources_of_buildWhole {hpatterns : builder.patterns ≠ []}
    {hworkers : builder.workerCount ≠ 0}
    (h : builder.buildWhole hpatterns hworkers = .ok matcher) : builder.Resources matcher := by
  unfold buildWhole at h
  split at h
  next => cases h
  next partitions hpartitions =>
    obtain rfl := Except.ok.inj h
    have hlength := length_of_compilePartitions hpartitions
    have hpos := List.length_pos_of_ne_nil hpatterns
    refine ⟨rfl, ?_, ?_⟩
    · rw [budgets_of_compilePartitions hpartitions]
      exact sum_shares (by omega) _
    · show partitions.length - 1 < builder.workerCount
      omega

/-- The build of two cohorts keeps its resources. -/
theorem resources_of_buildCohorts {hpatterns : builder.patterns ≠ []}
    {hworkers : builder.workerCount ≠ 0} (hbudget : builder.stateCacheBudget ≤ usizeMax)
    (h : builder.buildCohorts hpatterns hworkers = .ok matcher) : builder.Resources matcher := by
  by_cases hsingle : builder.cohorts.1.length = 0 ∨ builder.cohorts.2.length = 0
  · rw [buildCohorts_of_single hsingle] at h
    exact resources_of_buildWhole h
  · have hne : builder.cohorts.1 ≠ [] ∧ builder.cohorts.2 ≠ [] := by
      rw [not_or, List.length_eq_zero_iff, List.length_eq_zero_iff] at hsingle
      exact hsingle
    have hbudgets := budgets_of_buildCohorts hne.1 hne.2 hbudget h
    obtain ⟨first, second, freePartitions, bearingPartitions, hbuilt⟩ := exists_mixedBuild hsingle h
    obtain ⟨hlength, hlength'⟩ := hbuilt.lengths
    have hfirst := hbuilt.first_le
    have hsecond := hbuilt.second_le
    have hsum := hbuilt.sum_eq
    have hlengths : matcher.partitions.length = first + second := by
      rw [hbuilt.partitions_eq, List.length_append, hlength, hlength']
    refine ⟨hbuilt.workers_eq, ?_, ?_⟩
    · rw [hbudgets]
      exact sum_shares (by omega) _
    · -- one worker scans one partition of each cohort, the other after the one
      unfold Matcher.spawnedWorkerCount
      rw [hbuilt.split_eq, hbuilt.workers_eq, hlengths, hlength]
      simp only
      split <;> omega

/-- The resources of a matcher. -/
theorem resources_of_build (hbudget : builder.stateCacheBudget ≤ usizeMax)
    (h : builder.build = .ok matcher) : builder.Resources matcher := by
  unfold build at h
  split at h
  next => cases h
  next =>
    split at h
    next => cases h
    next =>
      split at h
      next => exact resources_of_buildCohorts hbudget h
      next => exact resources_of_buildWhole h

end MatcherBuilder

/-! ### Reports -/

/-- A report that is true of a scan that has delivered `events`. -/
structure ScanDiagnostics.Truthful (report : ScanDiagnostics) (builder : MatcherBuilder)
    (partitions : List MatcherPartition) (input : List UInt16) (events : List Match) : Prop where
  /-- The workers are those that the builder was asked for. -/
  requestedWorkerCount_eq : report.requestedWorkerCount = builder.workerCount
  /-- All partitions are counted. -/
  partitionCount_eq : report.partitionCount = partitions.length
  /-- The caller and the threads are not more than the workers that were asked for. -/
  spawnedWorkers_lt : report.spawnedWorkers < builder.workerCount
  /-- The budget is that of the builder. -/
  totalCacheBudget_eq : report.totalCacheBudget = builder.stateCacheBudget
  /-- Events wait for the last partition, unless there is only one. -/
  bufferedEvents_eq : report.bufferedEvents =
    if report.partitionCount = 1 then 0 else events.length
  /-- The statistics are merged from those of the partitions, each true of its partition. -/
  exists_parts : ∃ outputs : List DiagnosedOutput,
    List.Forall₂ (fun partition output => partition.Reports input output) partitions outputs ∧
      report.stats.Merges (outputs.map DiagnosedOutput.stats)
  /-- Every partition scans or skips every start, as long as the sums can be counted. -/
  scanned_add_skipped : report.partitionCount * input.length ≤ usizeMax →
    report.stats.prefilterStartsScanned + report.stats.prefilterStartsSkipped =
      report.partitionCount * input.length
  /-- What the prefilter admits are its candidates. -/
  admissions_eq : report.stats.prefilterAdmissions = report.stats.prefilterCandidateStarts
  /-- The stored states keep to the budget. -/
  cacheStates_le : report.stats.cacheStates ≤ report.totalCacheBudget
  /-- A stored state misses at most once for every symbol. -/
  cacheMisses_le : report.stats.cacheMisses ≤ UInt16.size * report.stats.cacheStates

section Sums

variable {partitions : List MatcherPartition} {input : List UInt16}
  {outputs : List DiagnosedOutput}

/-- A sum over outputs is bounded by one over partitions. -/
theorem sum_le_of_forall₂ {α β : Type} {related : α → β → Prop} {f : β → ℕ} {g : α → ℕ}
    (hle : ∀ a b, related a b → f b ≤ g a) {as : List α} {bs : List β}
    (h : List.Forall₂ related as bs) : (bs.map f).sum ≤ (as.map g).sum := by
  induction h with
  | nil => exact le_refl _
  | cons hrelated _ ih =>
    rw [List.map_cons, List.map_cons, List.sum_cons, List.sum_cons]
    exact Nat.add_le_add (hle _ _ hrelated) ih

/-- Every output is that of a partition. -/
theorem exists_of_mem_forall₂ {α β : Type} {related : α → β → Prop} {as : List α} {bs : List β}
    (h : List.Forall₂ related as bs) : ∀ b ∈ bs, ∃ a ∈ as, related a b := by
  induction h with
  | nil => exact fun b hb => absurd hb List.not_mem_nil
  | @cons a b as bs hrelated _ ih =>
    refine List.forall_mem_cons.mpr ⟨⟨a, List.mem_cons_self, hrelated⟩, fun b hb => ?_⟩
    obtain ⟨a', ha', hrelated'⟩ := ih b hb
    exact ⟨a', List.mem_cons_of_mem a ha', hrelated'⟩

/-- The starts of all partitions. -/
theorem sum_starts (h : List.Forall₂ (fun partition output => partition.Reports input output)
    partitions outputs) :
    ((outputs.map DiagnosedOutput.stats).map ScanStats.prefilterStartsScanned).sum +
      ((outputs.map DiagnosedOutput.stats).map ScanStats.prefilterStartsSkipped).sum =
        partitions.length * input.length := by
  induction h with
  | nil => exact (Nat.zero_mul _).symm
  | @cons partition output partitions outputs hreports _ ih =>
    have hstarts := hreports.2.scanned_add_skipped
    simp only [List.map_cons, List.sum_cons, List.length_cons, Nat.succ_mul]
    omega

/-- The states of all caches. -/
theorem sum_cacheStates_le (h : List.Forall₂ (fun partition output =>
    partition.Reports input output) partitions outputs) :
    ((outputs.map DiagnosedOutput.stats).map ScanStats.cacheStates).sum ≤
      (partitions.map MatcherPartition.stateCacheBudget).sum := by
  rw [List.map_map]
  refine sum_le_of_forall₂ (fun partition output hreports => ?_) h
  refine hreports.2.cacheCounts.states_le.trans ?_
  split
  · exact Nat.zero_le _
  · exact le_refl _

/-- The misses of all caches. -/
theorem sum_cacheMisses_le (h : List.Forall₂ (fun partition output =>
    partition.Reports input output) partitions outputs) :
    ((outputs.map DiagnosedOutput.stats).map ScanStats.cacheMisses).sum ≤
      UInt16.size * ((outputs.map DiagnosedOutput.stats).map ScanStats.cacheStates).sum := by
  induction h with
  | nil => exact Nat.zero_le _
  | cons hreports _ ih =>
    have hmisses := hreports.2.cacheCounts.misses_le
    simp only [List.map_cons, List.sum_cons, Nat.mul_add]
    omega

end Sums

/-- The reports of a matcher are true of its scans: the budget and the workers are those of the
builder and are kept to, starts, events and candidates are all accounted for, and the statistics are
those of the partitions, added up. A scan without a report was refused a thread, and has delivered
nothing. -/
theorem reports_are_truthful {builder : MatcherBuilder} {matcher : Matcher}
    (h : builder.build = .ok matcher) (hbudget : builder.stateCacheBudget ≤ usizeMax)
    (host : Host) (input : Utf16Text) :
    (∃ events report,
      matcher.scanWithDiagnostics host input = ⟨events, .returned (.ok report)⟩ ∧
        report.Truthful builder matcher.partitions input.units events) ∨
    (¬ host.Starts ∧ matcher.scanWithDiagnostics host input =
      ⟨[], .returned (.error .workerUnavailable)⟩) := by
  obtain ⟨groups, hbuilt⟩ := MatcherBuilder.build_spec h
  have hresources := MatcherBuilder.resources_of_build hbudget h
  refine (Matcher.scanWithDiagnostics_cases hbuilt.exists_compiledFrom host input).imp_left ?_
  rintro ⟨outputs, output, hnew, hreports, hscan⟩
  obtain ⟨hpartitions, hmerges, hadmissions⟩ := ParallelScanOutput.merges_new hnew
  have hstates := (hmerges.counter_eq ScanStats.cacheStates (by simp [ScanStats.counters]))
  have hmisses := (hmerges.counter_eq ScanStats.cacheMisses (by simp [ScanStats.counters]))
  have hscanned :=
    (hmerges.counter_eq ScanStats.prefilterStartsScanned (by simp [ScanStats.counters]))
  have hskipped :=
    (hmerges.counter_eq ScanStats.prefilterStartsSkipped (by simp [ScanStats.counters]))
  have hsum := sum_cacheStates_le hreports
  rw [hresources.budget_eq] at hsum
  refine ⟨_, _, hscan, hresources.requestedWorkerCount_eq, rfl, hresources.spawned_lt,
    hresources.budget_eq, ?_, ⟨outputs, hreports, hmerges⟩, fun hfits => ?_, ?_, ?_, ?_⟩
  · show (if matcher.partitions.length = 1 then 0 else output.bufferedEvents) =
      if matcher.partitions.length = 1 then 0 else _
    rw [ParallelScanOutput.bufferedEvents, hpartitions, List.length_flatMap]
  · replace hfits : matcher.partitions.length * input.units.length ≤ usizeMax := hfits
    have hstarts := sum_starts hreports
    show output.stats.prefilterStartsScanned + output.stats.prefilterStartsSkipped =
      matcher.partitions.length * input.units.length
    rw [hscanned.eq_of_le (by omega), hskipped.eq_of_le (by omega), hstarts]
  · refine hadmissions fun part hpart => ?_
    obtain ⟨output, houtput, rfl⟩ := List.mem_map.mp hpart
    obtain ⟨partition, -, hreport⟩ := exists_of_mem_forall₂ hreports output houtput
    exact hreport.2.admissions_eq
  · show output.stats.cacheStates ≤ (matcher.partitions.map _).sum
    rw [hresources.budget_eq]
    exact hstates.le.trans hsum
  · show output.stats.cacheMisses ≤ UInt16.size * output.stats.cacheStates
    rw [hstates.eq_of_le (hsum.trans hbudget)]
    exact hmisses.le.trans (sum_cacheMisses_le hreports)

/-- The reports on two partitions, one of them with assertions. -/
theorem reports_are_truthful_mixedBuilder : ∃ matcher events report,
    (mixedBuilder.setWorkerCount 2).build = .ok matcher ∧
    matcher.scanWithDiagnostics readyHost textAb = ⟨events, .returned (.ok report)⟩ ∧
    report.Truthful (mixedBuilder.setWorkerCount 2) matcher.partitions textAb.units events := by
  have hbuild : ∃ matcher, (mixedBuilder.setWorkerCount 2).build = .ok matcher := ⟨_, rfl⟩
  obtain ⟨matcher, hmatcher⟩ := hbuild
  obtain ⟨events, report, hscan, htruthful⟩ | ⟨hstarts, -⟩ :=
    reports_are_truthful hmatcher (by decide) readyHost textAb
  · exact ⟨matcher, events, report, hmatcher, hscan, htruthful⟩
  · exact absurd readyHost_starts hstarts

end Rustmatch

import Rustmatch.CohortViews
import Rustmatch.Matcher.Scans
import Rustmatch.Scan.Statistics
import Rustmatch.Scheduler.Maps

/-!
# Scans that report statistics

`scan_with_diagnostics` of `api.rs`. When the crate is built for benchmarks, the scan of a partition
returns its statistics beside its events, a scheduler merges them partition by partition, and a scan
reports the total. The schedulers are those of the plain build: they are given here over the scope
that they run.

Numbers of retained bytes are left out.

## Main definitions

* `Matcher.scanParallelIn`: the schedulers, over any scope;
* `ParallelScanOutput`, `ScanDiagnostics`: merged statistics, and the report;
* `Matcher.scanWithDiagnostics`.

## Main results

* `Matcher.spawnedWorkerCount_eq`: the number of threads that is reported;
* `diagnostics_change_nothing`: a scan that reports delivers what a plain scan delivers.
-/

namespace Rustmatch

/-! ### Outputs -/

/-- `PartitionScanOutput` in a build for benchmarks. -/
structure DiagnosedOutput extends PartitionScanOutput where
  /-- The counters of the partition's scan. -/
  stats : ScanStats

/-- `ParallelScanOutput` in a build for benchmarks. -/
structure ParallelScanOutput where
  /-- The outputs of the partitions, in their order. -/
  partitions : List DiagnosedOutput
  /-- The merged counters. -/
  stats : ScanStats

namespace ParallelScanOutput

/-- `ParallelScanOutput::new`; `none` where its `expect` fails. -/
def new : List DiagnosedOutput → Option ParallelScanOutput
  | [] => none
  | first :: rest => some
      ⟨first :: rest, (rest.map DiagnosedOutput.stats).foldl ScanStats.mergePartition first.stats⟩

/-- `ParallelScanOutput::buffered_events`: the events that waited, unless there was one partition.
-/
def bufferedEvents (output : ParallelScanOutput) : ℕ :=
  (output.partitions.map fun partition => partition.events.length).sum

end ParallelScanOutput

/-- `ScanDiagnostics`: the report on one scan. -/
structure ScanDiagnostics where
  /-- The number of workers that the builder was asked for. -/
  requestedWorkerCount : ℕ
  /-- The number of partitions. -/
  partitionCount : ℕ
  /-- The number of threads besides the caller. -/
  spawnedWorkers : ℕ
  /-- The cache budget of all partitions together. -/
  totalCacheBudget : ℕ
  /-- The merged counters. -/
  stats : ScanStats
  /-- The number of events that waited for the last partition. -/
  bufferedEvents : ℕ
deriving DecidableEq, Repr

/-- The events that a call hands to its sink, in order, and how it ends. -/
structure DiagnosedScan where
  /-- The events that the sink was given. -/
  events : List Match
  /-- The report, or the failure or panic that there was instead. -/
  ending : Ending Empty ScanDiagnostics

namespace Matcher

variable {α β Payload : Type} (matcher : Matcher) (host : Host) (hooks : Hooks Payload)
  (input : Utf16Text)

/-! ### Schedulers over a scope -/

/-- What a scheduler runs for some partitions, from their offset and their shared candidates. -/
abbrev ScopeOf (α Payload : Type) : Type :=
  (partitions : List MatcherPartition) → partitions ≠ [] → ℕ → (ℕ → Option SharedCandidate) →
    Scope α Payload

/-- `scan_partition_group_with_hooks`, and `scan_parallel_with_hooks` of `api.rs` for all
partitions. -/
def scanGroupIn (scopeOf : ScopeOf α Payload) (partitions : List MatcherPartition)
    (hpartitions : partitions ≠ []) (partitionOffset : ℕ) : Ending Payload (List α) := do
  let sharedPlan ← Ending.ofExcept
    (matcher.sharedCandidatePlan host input partitions partitionOffset)
  (scopeOf partitions hpartitions partitionOffset
    fun localIndex => sharedPlan.map (·.partition localIndex)).run

/-- `scan_parallel_cohorts_with_hooks`: the partitions of both cohorts at once. -/
def scanCohortsIn (scopeOf : ScopeOf α Payload) (splitPartition : ℕ) :
    Ending Payload (List α) := do
  let assertionFreePlan ← Ending.ofExcept
    (matcher.sharedCandidatePlan host input (matcher.partitions.take splitPartition) 0)
  let assertionBearingPlan ← Ending.ofExcept (matcher.sharedCandidatePlan host input
    (matcher.partitions.drop splitPartition) splitPartition)
  (scopeOf matcher.partitions matcher.partitions_ne_nil 0 fun index =>
    if index < splitPartition then assertionFreePlan.map (·.partition index)
    else assertionBearingPlan.map (·.partition (index - splitPartition))).run

/-- `scan_parallel_with_hooks` of `cohort_runtime.rs`: one worker scans the groups in turn. -/
def scanSplitIn (scopeOf : ScopeOf α Payload) (splitPartition : ℕ)
    (hsplit : 0 < splitPartition ∧ splitPartition < matcher.partitions.length) :
    Ending Payload (List α) :=
  if matcher.requestedWorkerCount = 1 then do
    let outputs ← matcher.scanGroupIn host input scopeOf (matcher.partitions.take splitPartition)
      (mt List.take_eq_nil_iff.mp (not_or.mpr ⟨Nat.ne_of_gt hsplit.1, matcher.partitions_ne_nil⟩)) 0
    let more ← matcher.scanGroupIn host input scopeOf (matcher.partitions.drop splitPartition)
      (mt List.drop_eq_nil_iff.mp (Nat.not_le_of_lt hsplit.2)) splitPartition
    return outputs ++ more
  else matcher.scanCohortsIn host input scopeOf splitPartition

/-- `Matcher::scan_parallel`, with hooks. -/
def scanParallelIn (scopeOf : ScopeOf α Payload) : Ending Payload (List α) :=
  match h : matcher.splitPartition with
  | some splitPartition => matcher.scanSplitIn host input scopeOf splitPartition
      (matcher.split_spec splitPartition h)
  | none => matcher.scanGroupIn host input scopeOf matcher.partitions matcher.partitions_ne_nil 0

/-! ### Scans with statistics -/

/-- `scan_partition`: scan one partition, with its counters. -/
def scanPartitionWithStats (partition : MatcherPartition) : Except Error DiagnosedOutput :=
  let scanned := scanWithStats partition.database partition.prefilter input
    partition.stateCacheBudget matcher.prefilterEnabled matcher.literalPrefilterEnabled
  scanned.result.map fun stats => ⟨⟨scanned.events⟩, stats⟩

/-- `scan_partition_shared`: scan one partition from shared candidates, with its counters. -/
def scanPartitionSharedWithStats (partition : MatcherPartition) (shared : SharedCandidate) :
    Except Error DiagnosedOutput :=
  let scanned := scanWithSharedCandidates partition.database partition.prefilter input
    partition.stateCacheBudget shared
  scanned.result.map fun stats => ⟨⟨scanned.events⟩, stats⟩

/-- The scan of a partition, with the shared candidates if there are any. -/
def scanPlannedWithStats (partition : MatcherPartition) :
    Option SharedCandidate → Except Error DiagnosedOutput
  | some shared => scanPartitionSharedWithStats input partition shared
  | none => matcher.scanPartitionWithStats input partition

/-- `Hooks.outcome`, for an output with statistics. -/
def diagnosedOutcome (partitionIndex : ℕ) (result : Except Error DiagnosedOutput) :
    Outcome DiagnosedOutput Payload :=
  match hooks.beforeScan partitionIndex with
  | some payload => .panic payload
  | .none =>
    match result with
    | .ok output => .output output
    | .error error => .error error

/-- The `thread::scope` of the partitions from `partitionOffset` on, with statistics. -/
def statsScope : ScopeOf DiagnosedOutput Payload :=
  fun partitions hpartitions partitionOffset shared =>
  { partitionCount := partitions.length
    beforeSpawn := fun localIndex => hooks.beforeSpawn (partitionOffset + localIndex)
    threadStarts := fun localIndex => host.workerStarts (partitionOffset + localIndex)
    scan := fun localIndex =>
      match partitions[localIndex]? with
      | some partition => diagnosedOutcome hooks (partitionOffset + localIndex)
          (matcher.scanPlannedWithStats input partition (shared localIndex))
      | none => .output ⟨⟨[]⟩, {}⟩ -- a scope asks for its own partitions only
    partitionCount_pos := List.length_pos_of_ne_nil hpartitions }

/-- `spawned_worker_count`: one thread fewer than partitions in each scope. -/
def spawnedWorkerCount : ℕ :=
  match matcher.splitPartition with
  | none => matcher.partitions.length - 1
  | some splitPartition =>
    if matcher.requestedWorkerCount = 1 then
      (splitPartition - 1) + (matcher.partitions.length - splitPartition - 1)
    else matcher.partitions.length - 1

/-- `Matcher::diagnostics`: the report on merged counters. -/
def diagnostics (stats : ScanStats) (bufferedEvents : ℕ) : ScanDiagnostics where
  requestedWorkerCount := matcher.requestedWorkerCount
  partitionCount := matcher.partitions.length
  spawnedWorkers := matcher.spawnedWorkerCount
  totalCacheBudget := (matcher.partitions.map MatcherPartition.stateCacheBudget).sum
  stats := stats
  bufferedEvents := bufferedEvents

/-- `Matcher::scan_with_diagnostics`: scan, deliver the events and report. -/
def scanWithDiagnostics : DiagnosedScan :=
  match matcher.partitions with
  | [partition] =>
    let scanned := scanWithStats partition.database partition.prefilter input
      partition.stateCacheBudget matcher.prefilterEnabled matcher.literalPrefilterEnabled
    ⟨scanned.events, .returned (scanned.result.map fun stats => matcher.diagnostics stats 0)⟩
  | _ =>
    match matcher.scanParallelIn host input (matcher.statsScope host Hooks.none input) with
    | .returned (.ok outputs) =>
      match ParallelScanOutput.new outputs with
      | some output => ⟨output.partitions.flatMap fun partition => partition.events,
          .returned (.ok (matcher.diagnostics output.stats output.bufferedEvents))⟩
      | none => ⟨[], .outputExpected⟩
    | .returned (.error error) => ⟨[], .returned (.error error)⟩
    | .panicked payload => ⟨[], .panicked payload⟩
    | .outputExpected => ⟨[], .outputExpected⟩

end Matcher

/-! ### The number of threads -/

section Threads

variable {α Payload : Type}

/-- The threads that a scope has started when its caller joins them. -/
def Scope.handles (scope : Scope α Payload) : List ℕ := (scope.spawnWorkers scope.workers).1

/-- A scope that can start all its threads starts one for every partition but the first. -/
theorem Scope.length_handles {scope : Scope α Payload}
    (h : ∀ index, scope.spawnFailure index = none) :
    scope.handles.length = scope.partitionCount - 1 := by
  have hall : ∀ indices, (scope.spawnWorkers indices).1 = indices := by
    intro indices
    induction indices with
    | nil => rfl
    | cons index rest ih => simp only [spawnWorkers, h, ih]
  rw [handles, hall, workers, List.length_range']

namespace Matcher

variable {matcher : Matcher} {host : Host} {input : Utf16Text}

/-- The scopes of a machine that starts every thread start all their threads. -/
theorem length_handles_statsScope (hstarts : host.Starts) (partitions : List MatcherPartition)
    (hpartitions : partitions ≠ []) (partitionOffset : ℕ) (shared : ℕ → Option SharedCandidate) :
    (matcher.statsScope host (Hooks.none : Hooks Payload) input partitions hpartitions
      partitionOffset shared).handles.length = partitions.length - 1 := by
  refine Scope.length_handles fun index => ?_
  have hworker : host.workerStarts (partitionOffset + index) = true := hstarts.2 _
  show (if host.workerStarts (partitionOffset + index) then none else some _) = none
  rw [if_pos hworker]

/-- The number of threads that is reported is the number of threads that the scopes of a scan start:
those of the two groups when one worker scans them in turn, and else those of the only scope. -/
theorem spawnedWorkerCount_eq (hstarts : host.Starts)
    (shared more : ℕ → Option SharedCandidate) :
    ((matcher.splitPartition = none ∨ matcher.requestedWorkerCount ≠ 1) →
      (matcher.statsScope host (Hooks.none : Hooks Payload) input matcher.partitions
        matcher.partitions_ne_nil 0 shared).handles.length = matcher.spawnedWorkerCount) ∧
    ∀ splitPartition ∈ matcher.splitPartition, matcher.requestedWorkerCount = 1 →
      ∀ hfirst hsecond,
        (matcher.statsScope host (Hooks.none : Hooks Payload) input
            (matcher.partitions.take splitPartition) hfirst 0 shared).handles.length +
          (matcher.statsScope host (Hooks.none : Hooks Payload) input
            (matcher.partitions.drop splitPartition) hsecond splitPartition more).handles.length =
          matcher.spawnedWorkerCount := by
  simp only [length_handles_statsScope hstarts]
  unfold spawnedWorkerCount
  constructor
  · rintro (hnone | hworkers)
    · rw [hnone]
    · cases matcher.splitPartition with
      | none => rfl
      | some splitPartition => exact (if_neg hworkers).symm
  · intro splitPartition hsplit hworkers hfirst hsecond
    have hspec := matcher.split_spec splitPartition hsplit
    rw [Option.mem_def.mp hsplit]
    simp only
    rw [if_pos hworkers, List.length_take, List.length_drop, Nat.min_eq_left hspec.2.le]

end Matcher

end Threads

/-! ### Reports change nothing -/

section Forget

variable {α β Payload : Type} {matcher : Matcher} {host : Host} {hooks : Hooks Payload}
  {input : Utf16Text}

/-- What is returned by two calls, one after the other. -/
theorem Ending.bind_eq_ok {ending : Ending Payload α} {next : α → Ending Payload β} {value : β} :
    ending >>= next = .returned (.ok value) ↔
      ∃ middle, ending = .returned (.ok middle) ∧ next middle = .returned (.ok value) := by
  constructor
  · intro h
    cases ending with
    | returned result =>
      cases result with
      | ok middle => exact ⟨middle, rfl, h⟩
      | error reason => cases h
    | panicked payload => cases h
    | outputExpected => cases h
  · rintro ⟨middle, rfl, hnext⟩
    exact hnext

namespace Matcher

/-- The plain schedulers are the general ones over the plain scope. -/
theorem scanParallel_eq_scanParallelIn (matcher : Matcher) (host : Host) (hooks : Hooks Payload)
    (input : Utf16Text) : matcher.scanParallel host hooks input =
      matcher.scanParallelIn host input (matcher.scope host hooks input) := by
  obtain ⟨partitions, requestedWorkerCount, splitPartition, _, _, _, _⟩ := matcher
  cases splitPartition with
  | none => rfl
  | some splitPartition => rfl

/-- Schedulers do not look at outputs. -/
theorem scanParallelIn_map (f : α → β) (scopeOf : ScopeOf α Payload) :
    matcher.scanParallelIn host input (fun partitions hpartitions offset shared =>
        (scopeOf partitions hpartitions offset shared).map f) =
      (matcher.scanParallelIn host input scopeOf).map (List.map f) := by
  have hgroup : ∀ partitions hpartitions partitionOffset,
      matcher.scanGroupIn host input (fun partitions hpartitions offset shared =>
          (scopeOf partitions hpartitions offset shared).map f) partitions hpartitions
          partitionOffset =
        (matcher.scanGroupIn host input scopeOf partitions hpartitions partitionOffset).map
          (List.map f) := by
    intro partitions hpartitions partitionOffset
    unfold scanGroupIn
    simp only [Scope.run_map, Ending.map_bind]
  unfold scanParallelIn
  split
  next splitPartition hsplit =>
    unfold scanSplitIn
    split
    next =>
      simp only [hgroup, Ending.bind_map, Ending.map_bind]
      congr 1
      funext outputs
      congr 1
      funext more
      show Ending.returned (.ok (_ ++ _)) = Ending.returned (.ok _)
      rw [List.map_append]
    next =>
      unfold scanCohortsIn
      simp only [Scope.run_map, Ending.map_bind]
  next => exact hgroup _ _ _

/-- Without its statistics the scan of a partition is the plain one. -/
theorem scanPlanned_eq_map (partition : MatcherPartition) (shared : Option SharedCandidate) :
    matcher.scanPlanned input partition shared =
      (matcher.scanPlannedWithStats input partition shared).map
        DiagnosedOutput.toPartitionScanOutput := by
  cases shared with
  | none =>
    unfold scanPlanned scanPlannedWithStats scanPartition scanPartitionWithStats
    simp only
    generalize (scanWithStats _ _ _ _ _ _).result = result
    cases result <;> rfl
  | some shared =>
    unfold scanPlanned scanPlannedWithStats scanPartitionShared scanPartitionSharedWithStats
    simp only
    generalize (scanWithSharedCandidates _ _ _ _ _).result = result
    cases result <;> rfl

/-- Without statistics the scope is the plain one. -/
theorem scope_eq_map (partitions : List MatcherPartition) (hpartitions : partitions ≠ [])
    (partitionOffset : ℕ) (shared : ℕ → Option SharedCandidate) :
    matcher.scope host hooks input partitions hpartitions partitionOffset shared =
      (matcher.statsScope host hooks input partitions hpartitions partitionOffset shared).map
        DiagnosedOutput.toPartitionScanOutput := by
  unfold scope statsScope Scope.map
  congr 1
  funext localIndex
  simp only
  cases partitions[localIndex]? with
  | none => rfl
  | some partition =>
    simp only [scanPlanned_eq_map]
    unfold Hooks.outcome diagnosedOutcome
    cases hooks.beforeScan (partitionOffset + localIndex) with
    | some payload => rfl
    | none =>
      simp only
      cases matcher.scanPlannedWithStats input partition (shared localIndex) with
      | error reason => rfl
      | ok output => rfl

/-- Without statistics the schedulers are the plain ones. -/
theorem scanParallel_eq_map (matcher : Matcher) (host : Host) (hooks : Hooks Payload)
    (input : Utf16Text) : matcher.scanParallel host hooks input =
      (matcher.scanParallelIn host input (matcher.statsScope host hooks input)).map
        (List.map DiagnosedOutput.toPartitionScanOutput) := by
  rw [scanParallel_eq_scanParallelIn, ← scanParallelIn_map]
  congr 1
  funext partitions hpartitions partitionOffset shared
  exact scope_eq_map partitions hpartitions partitionOffset shared

/-- What a scope returns. -/
theorem outputs_of_run {scope : Scope α Payload} {outputs : List α}
    (h : scope.run = .returned (.ok outputs)) : outputs.length = scope.partitionCount ∧
      ∀ index (hindex : index < outputs.length), scope.scan index = .output outputs[index] := by
  have hlaw := scope.law_run
  rw [h] at hlaw
  cases hlaw with
  | outputs _ hlength hscans => exact ⟨hlength, hscans⟩

/-- A group returns an output at least. -/
theorem ne_nil_of_scanGroupIn {scopeOf : ScopeOf α Payload} {partitions : List MatcherPartition}
    {hpartitions : partitions ≠ []} {partitionOffset : ℕ} {outputs : List α}
    (h : matcher.scanGroupIn host input scopeOf partitions hpartitions partitionOffset =
      .returned (.ok outputs)) : outputs ≠ [] := by
  obtain ⟨plan, -, hrun⟩ := Ending.bind_eq_ok.mp h
  obtain ⟨hlength, -⟩ := outputs_of_run hrun
  refine List.ne_nil_of_length_pos ?_
  rw [hlength]
  exact Scope.partitionCount_pos _

/-- Schedulers return an output at least. -/
theorem ne_nil_of_scanParallelIn {scopeOf : ScopeOf α Payload} {outputs : List α}
    (h : matcher.scanParallelIn host input scopeOf = .returned (.ok outputs)) : outputs ≠ [] := by
  unfold scanParallelIn at h
  split at h
  next splitPartition hsplit =>
    unfold scanSplitIn at h
    split at h
    next =>
      obtain ⟨first, hfirst, h⟩ := Ending.bind_eq_ok.mp h
      obtain ⟨more, -, h⟩ := Ending.bind_eq_ok.mp h
      obtain rfl : first ++ more = outputs := Except.ok.inj (Ending.returned.inj h)
      exact List.append_ne_nil_of_left_ne_nil (ne_nil_of_scanGroupIn hfirst) more
    next =>
      obtain ⟨freePlan, -, h⟩ := Ending.bind_eq_ok.mp h
      obtain ⟨bearingPlan, -, hrun⟩ := Ending.bind_eq_ok.mp h
      obtain ⟨hlength, -⟩ := outputs_of_run hrun
      refine List.ne_nil_of_length_pos ?_
      rw [hlength]
      exact Scope.partitionCount_pos _
  next => exact ne_nil_of_scanGroupIn h

end Matcher

/-- Merging keeps the outputs. -/
theorem ParallelScanOutput.exists_new {outputs : List DiagnosedOutput} (h : outputs ≠ []) :
    ∃ output, ParallelScanOutput.new outputs = some output ∧ output.partitions = outputs := by
  cases outputs with
  | nil => exact absurd rfl h
  | cons first rest => exact ⟨_, rfl, rfl⟩

/-- A scan that reports delivers what a plain scan delivers, in the same order, and ends the same
way: for every matcher, on every machine and for every input. -/
theorem diagnostics_change_nothing (matcher : Matcher) (host : Host) (input : Utf16Text) :
    (matcher.scanWithDiagnostics host input).events = (matcher.scan host input).events ∧
      (matcher.scanWithDiagnostics host input).ending.map (fun _ => ()) =
        (matcher.scan host input).ending := by
  unfold Matcher.scanWithDiagnostics Matcher.scan
  rcases hpartitions : matcher.partitions with _ | ⟨partition, _ | ⟨second, rest⟩⟩
  · exact absurd hpartitions matcher.partitions_ne_nil
  · simp only
    generalize (scanWithStats _ _ _ _ _ _).result = result
    refine ⟨trivial, ?_⟩
    cases result <;> rfl
  · -- the schedulers return the same outputs, but for the statistics
    simp only
    rw [Matcher.scanParallel_eq_map]
    cases hending : matcher.scanParallelIn host input
      (matcher.statsScope host Hooks.none input) with
    | returned result =>
      cases result with
      | error reason => exact ⟨rfl, rfl⟩
      | ok outputs =>
        obtain ⟨output, hnew, houtputs⟩ :=
          ParallelScanOutput.exists_new (Matcher.ne_nil_of_scanParallelIn hending)
        simp only [hnew, houtputs]
        refine ⟨?_, rfl⟩
        show _ = (outputs.map DiagnosedOutput.toPartitionScanOutput).flatMap
          PartitionScanOutput.events
        rw [List.flatMap_map]
    | panicked payload => cases payload
    | outputExpected => exact ⟨rfl, rfl⟩

end Forget

end Rustmatch

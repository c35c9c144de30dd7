import Mathlib.Data.Finset.Insert
import Rustmatch.Parser.Accepts
import Rustmatch.Scheduler
import Rustmatch.SharedCandidate

/-!
# Builders and matchers

`api.rs` and `api/cohort_runtime.rs`: patterns are registered in a builder, cut into partitions that
are compiled one by one, and scanned by the schedulers. A builder may keep the patterns with
assertions apart from those without; the matcher then has two groups of partitions.

What a scan finds on the machine (vector instructions, and threads that cannot be started) is a
parameter, as are the hooks that tests put in front of threads and scans. What a matcher remembers
of its groups for reports (`CohortLayout`) is no part of the `Matcher` here: scans do not read it,
and `Matcher/Layout.lean` gives it for every built matcher.

## Main definitions

* `MatcherBuilder`, `MatcherBuilder.addWithFlags`, `MatcherBuilder.build`;
* `compilePartitions`, `allocateCohortPartitions`, `cohortCacheBudget`;
* `Matcher.scanParallelWithHooks`, `Matcher.scanParallelCohortsWithHooks`,
  `Matcher.scanPartitionGroupWithHooks`: the schedulers;
* `Matcher.scan`.
-/

namespace Rustmatch

/-! ### Partitions -/

/-- `MatcherPartition`: some of the patterns, compiled together and scanned by one worker. -/
structure MatcherPartition where
  /-- The graph of the patterns of the partition. -/
  database : PatternDatabase
  /-- The prefilter of the partition. -/
  prefilter : Prefilter
  /-- The share of the cache budget. -/
  stateCacheBudget : ℕ

/-- A part of `total` that is cut into `count` parts of nearly the same size: the first parts are
larger by one. -/
def share (total count index : ℕ) : ℕ :=
  total / count + if index < total % count then 1 else 0

/-- The loop of `compile_partitions`: `remaining` partitions from `partitionIndex` on, of the
patterns from the start of the next one on. -/
def compilePartitionsFrom (patternCount partitionCount totalStateCacheBudget : ℕ) :
    ℕ → ℕ → List HirPattern → Except Error (List MatcherPartition)
  | 0, _, _ => .ok []
  | remaining + 1, partitionIndex, patterns => do
    let stop := share patternCount partitionCount partitionIndex
    let partitionPatterns := patterns.take stop
    let database ← compile partitionPatterns
    let partition : MatcherPartition :=
      ⟨database, Prefilter.compile partitionPatterns database,
        share totalStateCacheBudget partitionCount partitionIndex⟩
    let partitions ← compilePartitionsFrom patternCount partitionCount totalStateCacheBudget
      remaining (partitionIndex + 1) (patterns.drop stop)
    return partition :: partitions

/-- `compile_partitions`: cut the patterns and the budget, and compile every part. -/
def compilePartitions (patterns : List HirPattern)
    (requestedWorkerCount totalStateCacheBudget : ℕ) :
    Except Error (List MatcherPartition) :=
  let partitionCount := min requestedWorkerCount patterns.length
  compilePartitionsFrom patterns.length partitionCount totalStateCacheBudget partitionCount 0
    patterns

/-- As many partitions are compiled as remain. -/
theorem length_of_compilePartitionsFrom {patternCount partitionCount total remaining index : ℕ}
    {patterns : List HirPattern} {partitions : List MatcherPartition}
    (h : compilePartitionsFrom patternCount partitionCount total remaining index patterns =
      .ok partitions) : partitions.length = remaining := by
  induction remaining generalizing index patterns partitions with
  | zero =>
    obtain rfl := Except.ok.inj h
    rfl
  | succ remaining ih =>
    obtain ⟨database, -, h⟩ := bind_eq_ok.mp h
    obtain ⟨rest, hrest, h⟩ := bind_eq_ok.mp h
    obtain rfl := Except.ok.inj h
    rw [List.length_cons, ih hrest]

/-- There are as many partitions as workers, but not more than patterns. -/
theorem length_of_compilePartitions {patterns : List HirPattern} {workers budget : ℕ}
    {partitions : List MatcherPartition}
    (h : compilePartitions patterns workers budget = .ok partitions) :
    partitions.length = min workers patterns.length := length_of_compilePartitionsFrom h

/-! ### Cohorts -/

/-- The cohort that gets the next partition, of those that have patterns left: the one with more
patterns for each of its partitions, and the first one if the two are even. -/
def selectCohort (patternCounts allocations : ℕ × ℕ) : Option Bool :=
  if allocations.1 < patternCounts.1 then
    if allocations.2 < patternCounts.2 then
      some (patternCounts.1 * allocations.2 < patternCounts.2 * allocations.1)
    else some false
  else if allocations.2 < patternCounts.2 then some true else none

/-- The loop of `allocate_cohort_partitions`, with `remaining` partitions left to allocate; `none`
where no cohort has patterns left. -/
def allocateFrom (patternCounts : ℕ × ℕ) : ℕ → ℕ × ℕ → Option (ℕ × ℕ)
  | 0, allocations => some allocations
  | remaining + 1, allocations =>
    match selectCohort patternCounts allocations with
    | some false => allocateFrom patternCounts remaining (allocations.1 + 1, allocations.2)
    | some true => allocateFrom patternCounts remaining (allocations.1, allocations.2 + 1)
    | none => none

/-- `allocate_cohort_partitions`: how many partitions each cohort gets. -/
def allocateCohortPartitions (patternCounts : ℕ × ℕ) (requestedWorkerCount : ℕ) : Option (ℕ × ℕ) :=
  let target := min (max requestedWorkerCount 2) (patternCounts.1 + patternCounts.2)
  allocateFrom patternCounts (target - 2) (1, 1)

/-- The selected cohort has patterns left. -/
theorem selectCohort_spec {patternCounts allocations : ℕ × ℕ} :
    (selectCohort patternCounts allocations = some false → allocations.1 < patternCounts.1) ∧
    (selectCohort patternCounts allocations = some true → allocations.2 < patternCounts.2) ∧
    (selectCohort patternCounts allocations = none →
      patternCounts.1 ≤ allocations.1 ∧ patternCounts.2 ≤ allocations.2) := by
  unfold selectCohort
  split_ifs <;> simp <;> omega

/-- The loop stops with partitions for both cohorts. -/
theorem allocateFrom_spec {patternCounts : ℕ × ℕ} {remaining : ℕ} {allocations : ℕ × ℕ}
    (hfirst : 1 ≤ allocations.1 ∧ allocations.1 ≤ patternCounts.1)
    (hsecond : 1 ≤ allocations.2 ∧ allocations.2 ≤ patternCounts.2)
    (hsum : allocations.1 + allocations.2 + remaining ≤ patternCounts.1 + patternCounts.2) :
    ∃ first second, allocateFrom patternCounts remaining allocations = some (first, second) ∧
      (1 ≤ first ∧ first ≤ patternCounts.1) ∧ (1 ≤ second ∧ second ≤ patternCounts.2) ∧
      first + second = allocations.1 + allocations.2 + remaining := by
  -- the induction is on the partitions that are still to be given
  induction remaining generalizing allocations with
  | zero => exact ⟨_, _, rfl, hfirst, hsecond, rfl⟩
  | succ remaining ih =>
    obtain ⟨hfalse, htrue, hnone⟩ := @selectCohort_spec patternCounts allocations
    rw [allocateFrom]
    cases hselect : selectCohort patternCounts allocations with
    | none =>
      -- both cohorts are full only if no partition is left to give
      obtain ⟨hfull, hfull'⟩ := hnone hselect
      omega
    | some second =>
      cases second with
      | false =>
        have hroom := hfalse hselect
        obtain ⟨first, second, heq, hfirst', hsecond', hsum'⟩ :=
          @ih (allocations.1 + 1, allocations.2) (by simp only; omega) hsecond (by simp only; omega)
        exact ⟨first, second, heq, hfirst', hsecond', by simp only at hsum'; omega⟩
      | true =>
        have hroom := htrue hselect
        obtain ⟨first, second, heq, hfirst', hsecond', hsum'⟩ :=
          @ih (allocations.1, allocations.2 + 1) hfirst (by simp only; omega) (by simp only; omega)
        exact ⟨first, second, heq, hfirst', hsecond', by simp only at hsum'; omega⟩

/-- Both cohorts get partitions, as many as there are workers, but at least one for each cohort and
one for each pattern at most. -/
theorem allocateCohortPartitions_spec {patternCounts : ℕ × ℕ} (hfirst : 0 < patternCounts.1)
    (hsecond : 0 < patternCounts.2) (requestedWorkerCount : ℕ) :
    ∃ first second,
      allocateCohortPartitions patternCounts requestedWorkerCount = some (first, second) ∧
      (1 ≤ first ∧ first ≤ patternCounts.1) ∧ (1 ≤ second ∧ second ≤ patternCounts.2) ∧
      first + second = min (max requestedWorkerCount 2) (patternCounts.1 + patternCounts.2) := by
  have htarget : 2 ≤ min (max requestedWorkerCount 2) (patternCounts.1 + patternCounts.2) := by
    omega
  obtain ⟨first, second, heq, hfirst', hsecond', hsum⟩ := @allocateFrom_spec patternCounts
    (min (max requestedWorkerCount 2) (patternCounts.1 + patternCounts.2) - 2) (1, 1)
    ⟨Nat.le_refl _, hfirst⟩ ⟨Nat.le_refl _, hsecond⟩ (by simp only; omega)
  exact ⟨first, second, heq, hfirst', hsecond', by simp only at hsum; omega⟩

/-- The allocation for two cohorts that both have patterns: the loop never runs out of them. -/
def cohortAllocation (patternCounts : ℕ × ℕ) (hfirst : 0 < patternCounts.1)
    (hsecond : 0 < patternCounts.2) (requestedWorkerCount : ℕ) :
    { allocation : ℕ × ℕ // allocateCohortPartitions patternCounts requestedWorkerCount =
        some allocation ∧ 1 ≤ allocation.1 ∧ 1 ≤ allocation.2 } :=
  match h : allocateCohortPartitions patternCounts requestedWorkerCount with
  | some allocation => ⟨allocation, rfl, by
      obtain ⟨first, second, heq, hfirst', hsecond', -⟩ :=
        allocateCohortPartitions_spec hfirst hsecond requestedWorkerCount
      obtain rfl := Option.some.inj (h.symm.trans heq)
      exact ⟨hfirst'.1, hsecond'.1⟩⟩
  | none => absurd h (by
      obtain ⟨first, second, heq, -⟩ :=
        allocateCohortPartitions_spec hfirst hsecond requestedWorkerCount
      rw [heq]
      exact Option.some_ne_none _)

/-- `cohort_cache_budget`: the part of the budget that the partitions of a cohort get. -/
def cohortCacheBudget (totalBudget totalPartitions partitionStart partitionCount : ℕ) : ℕ :=
  let extraInCohort := min (totalBudget % totalPartitions - partitionStart) partitionCount
  saturatingAdd (saturatingMul (totalBudget / totalPartitions) partitionCount) extraInCohort

/-! ### Matchers -/

/-- `Matcher`. Behind `splitPartition`, if there is one, stand the partitions with assertions. -/
structure Matcher where
  /-- The partitions, in the order they are scanned and delivered in. -/
  partitions : List MatcherPartition
  /-- The number of workers that the builder was asked for. -/
  requestedWorkerCount : ℕ
  /-- Where the partitions with assertions begin, when cohorts are kept apart. -/
  splitPartition : Option ℕ
  /-- Whether the start filter is used. -/
  prefilterEnabled : Bool
  /-- Whether the literal filter is used. -/
  literalPrefilterEnabled : Bool
  /-- Something was registered. -/
  partitions_ne_nil : partitions ≠ []
  /-- Both groups have partitions. -/
  split_spec : ∀ split ∈ splitPartition, 0 < split ∧ split < partitions.length

/-- What a scan finds on the machine: the vector instructions and shard threads that the shared
candidates of the group of partitions from an index on find, and whether the thread of a partition
can be created. -/
structure Host where
  /-- What the shared candidates of a group find, by the index of its first partition. -/
  machine : ℕ → Machine
  /-- Whether the thread of a partition starts. -/
  workerStarts : ℕ → Bool

/-- `before_spawn` and `before_scan`; the latter may panic. -/
structure Hooks (Payload : Type) where
  /-- Called before the thread of a partition is started, and may refuse it. -/
  beforeSpawn : ℕ → Except Error Unit
  /-- Called before a partition is scanned; a payload is a panic. -/
  beforeScan : ℕ → Option Payload

namespace Hooks

variable {Payload : Type}

/-- The hooks of a scan outside tests. -/
def none : Hooks Payload := ⟨fun _ => .ok (), fun _ => .none⟩

/-- The outcome of a partition, once its hook has run. -/
def outcome (hooks : Hooks Payload) (partitionIndex : ℕ)
    (result : Except Error PartitionScanOutput) : Outcome PartitionScanOutput Payload :=
  match hooks.beforeScan partitionIndex with
  | some payload => .panic payload
  | .none =>
    match result with
    | .ok output => .output output
    | .error error => .error error

end Hooks

/-- A call that cannot panic. -/
def Ending.ofExcept {α Payload : Type} (result : Except Error α) : Ending Payload α :=
  .returned result

namespace Matcher

variable {Payload : Type} (matcher : Matcher) (host : Host) (hooks : Hooks Payload)
  (input : Utf16Text)

/-- `scan_partition`: scan one partition and keep its events. -/
def scanPartition (partition : MatcherPartition) : Except Error PartitionScanOutput :=
  let scanned := scanWithStats partition.database partition.prefilter input
    partition.stateCacheBudget matcher.prefilterEnabled matcher.literalPrefilterEnabled
  scanned.result.map fun _ => ⟨scanned.events⟩

/-- `scan_partition_shared`: scan one partition from shared candidates. -/
def scanPartitionShared (partition : MatcherPartition) (shared : SharedCandidate) :
    Except Error PartitionScanOutput :=
  let scanned := scanWithSharedCandidates partition.database partition.prefilter input
    partition.stateCacheBudget shared
  scanned.result.map fun _ => ⟨scanned.events⟩

/-- The scan of a partition, with the shared candidates if there are any. -/
def scanPlanned (partition : MatcherPartition) :
    Option SharedCandidate → Except Error PartitionScanOutput
  | some shared => scanPartitionShared input partition shared
  | none => matcher.scanPartition input partition

/-- `shared_candidate_plan`, for the partitions from `partitionOffset` on. -/
def sharedCandidatePlan (partitions : List MatcherPartition) (partitionOffset : ℕ) :
    Except Error (Option SharedCandidatePlan) :=
  if !isEligible partitions.length input.units.length matcher.prefilterEnabled
      matcher.literalPrefilterEnabled then .ok none
  else sharedPlan (host.machine partitionOffset) (partitions.map MatcherPartition.prefilter)
    input.units matcher.prefilterEnabled matcher.literalPrefilterEnabled

/-- The `thread::scope` of the partitions from `partitionOffset` on, with their shared candidates.
-/
def scope (partitions : List MatcherPartition) (hpartitions : partitions ≠ [])
    (partitionOffset : ℕ) (shared : ℕ → Option SharedCandidate) :
    Scope PartitionScanOutput Payload where
  partitionCount := partitions.length
  beforeSpawn localIndex := hooks.beforeSpawn (partitionOffset + localIndex)
  threadStarts localIndex := host.workerStarts (partitionOffset + localIndex)
  scan localIndex :=
    match partitions[localIndex]? with
    | some partition => hooks.outcome (partitionOffset + localIndex)
        (matcher.scanPlanned input partition (shared localIndex))
    | none => .output ⟨[]⟩ -- a scope asks for its own partitions only
  partitionCount_pos := List.length_pos_of_ne_nil hpartitions

/-- `scan_parallel_with_hooks` of `api.rs`. -/
def scanParallelWithHooks : Ending Payload (List PartitionScanOutput) := do
  let sharedPlan ← Ending.ofExcept (matcher.sharedCandidatePlan host input matcher.partitions 0)
  (matcher.scope host hooks input matcher.partitions matcher.partitions_ne_nil 0
    fun index => sharedPlan.map (·.partition index)).run

/-- `scan_parallel_cohorts_with_hooks`: scan the partitions of both cohorts at once. -/
def scanParallelCohortsWithHooks (splitPartition : ℕ) :
    Ending Payload (List PartitionScanOutput) := do
  let assertionFreePlan ← Ending.ofExcept
    (matcher.sharedCandidatePlan host input (matcher.partitions.take splitPartition) 0)
  let assertionBearingPlan ← Ending.ofExcept (matcher.sharedCandidatePlan host input
    (matcher.partitions.drop splitPartition) splitPartition)
  (matcher.scope host hooks input matcher.partitions matcher.partitions_ne_nil 0 fun index =>
    if index < splitPartition then assertionFreePlan.map (·.partition index)
    else assertionBearingPlan.map (·.partition (index - splitPartition))).run

/-- `scan_partition_group_with_hooks`: scan the partitions of a group at once. -/
def scanPartitionGroupWithHooks (partitions : List MatcherPartition) (hpartitions : partitions ≠ [])
    (partitionOffset : ℕ) : Ending Payload (List PartitionScanOutput) := do
  let sharedPlan ← Ending.ofExcept
    (matcher.sharedCandidatePlan host input partitions partitionOffset)
  (matcher.scope host hooks input partitions hpartitions partitionOffset
    fun localIndex => sharedPlan.map (·.partition localIndex)).run

/-- `scan_parallel_with_hooks` of `cohort_runtime.rs`: one worker scans the groups in turn. -/
def scanCohortsWithHooks (splitPartition : ℕ)
    (hsplit : 0 < splitPartition ∧ splitPartition < matcher.partitions.length) :
    Ending Payload (List PartitionScanOutput) :=
  if matcher.requestedWorkerCount = 1 then do
    let outputs ← matcher.scanPartitionGroupWithHooks host hooks input
      (matcher.partitions.take splitPartition)
      (by rw [ne_eq, List.take_eq_nil_iff]; simp [matcher.partitions_ne_nil]; omega) 0
    let more ← matcher.scanPartitionGroupWithHooks host hooks input
      (matcher.partitions.drop splitPartition)
      (by rw [ne_eq, List.drop_eq_nil_iff]; omega) splitPartition
    return outputs ++ more
  else matcher.scanParallelCohortsWithHooks host hooks input splitPartition

/-- `Matcher::scan_parallel`, with hooks. -/
def scanParallel : Ending Payload (List PartitionScanOutput) :=
  match h : matcher.splitPartition with
  | some splitPartition => matcher.scanCohortsWithHooks host hooks input splitPartition
      (matcher.split_spec splitPartition h)
  | none => matcher.scanParallelWithHooks host hooks input

/-- `Matcher::scan`: scan the partitions, then deliver their events. -/
def scan : Delivered Empty :=
  match matcher.partitions with
  | [partition] =>
    let scanned := scanWithStats partition.database partition.prefilter input
      partition.stateCacheBudget matcher.prefilterEnabled matcher.literalPrefilterEnabled
    ⟨scanned.events, .returned (scanned.result.map fun _ => ())⟩
  | _ => (matcher.scanParallel host Hooks.none input).deliver

end Matcher

/-! ### Builders -/

/-- `DEFAULT_STATE_CACHE_BUDGET`: the budget of a new builder. -/
def defaultStateCacheBudget : ℕ := 8192

/-- `MatcherBuilder`: the registered patterns and the settings of a matcher to be built. -/
structure MatcherBuilder where
  /-- The identities that have been registered. -/
  patternIds : Finset PatternId
  /-- The accepted patterns, in the order of registration. -/
  patterns : List HirPattern
  /-- The cache budget of all partitions together. -/
  stateCacheBudget : ℕ
  /-- The number of workers. -/
  workerCount : ℕ
  /-- Whether the start filter is used. -/
  prefilterEnabled : Bool
  /-- Whether the literal filter is used. -/
  literalPrefilterEnabled : Bool
  /-- Whether patterns with and without assertions are kept apart. -/
  cohortCompilationEnabled : Bool
  /-- The reserved identities are those of the patterns. -/
  patternIds_eq : patternIds = (patterns.map HirPattern.patternId).toFinset
  /-- No identity is registered twice. -/
  nodup : (patterns.map HirPattern.patternId).Nodup

namespace MatcherBuilder

/-- `MatcherBuilder::new`: a builder without patterns, with the default settings. -/
def new : MatcherBuilder where
  patternIds := ∅
  patterns := []
  stateCacheBudget := defaultStateCacheBudget
  workerCount := 1
  prefilterEnabled := true
  literalPrefilterEnabled := true
  cohortCompilationEnabled := false
  patternIds_eq := rfl
  nodup := List.nodup_nil

/-- `MatcherBuilder::state_cache_budget`. -/
def setStateCacheBudget (builder : MatcherBuilder) (stateBudget : ℕ) : MatcherBuilder :=
  { builder with stateCacheBudget := stateBudget }

/-- `MatcherBuilder::worker_count`. -/
def setWorkerCount (builder : MatcherBuilder) (workerCount : ℕ) : MatcherBuilder :=
  { builder with workerCount := workerCount }

/-- `MatcherBuilder::prefilter_enabled`. -/
def setPrefilterEnabled (builder : MatcherBuilder) (enabled : Bool) : MatcherBuilder :=
  { builder with prefilterEnabled := enabled }

/-- `MatcherBuilder::literal_prefilter_enabled`. -/
def setLiteralPrefilterEnabled (builder : MatcherBuilder) (enabled : Bool) : MatcherBuilder :=
  { builder with literalPrefilterEnabled := enabled }

/-- `MatcherBuilder::cohort_compilation_enabled`. -/
def setCohortCompilationEnabled (builder : MatcherBuilder) (enabled : Bool) : MatcherBuilder :=
  { builder with cohortCompilationEnabled := enabled }

/-- `MatcherBuilder::add_with_flags`; a failure leaves the builder as it was. -/
def addWithFlags (lowerUpper : UInt16 → UInt16 × UInt16) (builder : MatcherBuilder)
    (patternId : PatternId) (units : List UInt16) (flags : PatternFlags) :
    Except Error MatcherBuilder :=
  if hnew : patternId ∈ builder.patternIds then .error (.duplicatePatternId patternId)
  else
    match h : parseWithFlags lowerUpper patternId units flags with
    | .error error => .error error
    | .ok parsed =>
      have hid : parsed.patternId = patternId := by
        obtain ⟨_, hpattern, -⟩ := parseWithFlags_eq_ok _ _ _ _ h
        rw [hpattern]
        rfl
      .ok { builder with
        patternIds := insert patternId builder.patternIds
        patterns := builder.patterns ++ [parsed]
        patternIds_eq := by simp [builder.patternIds_eq, hid, Finset.union_comm]
        nodup := by
          rw [builder.patternIds_eq, List.mem_toFinset] at hnew
          rw [List.map_append, List.map_singleton, hid]
          exact builder.nodup.append (List.nodup_singleton _) (by simpa using hnew) }

/-- `MatcherBuilder::add`: register a pattern without flags. -/
def add (lowerUpper : UInt16 → UInt16 × UInt16) (builder : MatcherBuilder) (patternId : PatternId)
    (units : List UInt16) : Except Error MatcherBuilder :=
  builder.addWithFlags lowerUpper patternId units .none

/-- `MatcherBuilder::build` without cohorts. -/
def buildWhole (builder : MatcherBuilder) (hpatterns : builder.patterns ≠ [])
    (hworkers : builder.workerCount ≠ 0) : Except Error Matcher :=
  match h : compilePartitions builder.patterns builder.workerCount builder.stateCacheBudget with
  | .error error => .error error
  | .ok partitions => .ok {
      partitions := partitions
      requestedWorkerCount := builder.workerCount
      splitPartition := none
      prefilterEnabled := builder.prefilterEnabled
      literalPrefilterEnabled := builder.literalPrefilterEnabled
      partitions_ne_nil := by
        have hlength := length_of_compilePartitions h
        have hpos := List.length_pos_of_ne_nil hpatterns
        exact List.ne_nil_of_length_pos (by omega)
      split_spec := by simp }

/-- The two cohorts: the patterns without assertions and those with. -/
def cohorts (builder : MatcherBuilder) : List HirPattern × List HirPattern :=
  builder.patterns.partition fun pattern => !pattern.expression.usesAssertions

/-- `build_matcher` of `cohort_runtime.rs`. -/
def buildCohorts (builder : MatcherBuilder) (hpatterns : builder.patterns ≠ [])
    (hworkers : builder.workerCount ≠ 0) : Except Error Matcher :=
  let (assertionFree, assertionBearing) := builder.cohorts
  if hsingle : assertionFree.length = 0 ∨ assertionBearing.length = 0 then
    builder.buildWhole hpatterns hworkers
  else
    let ⟨allocation, hallocation⟩ := cohortAllocation
      (assertionFree.length, assertionBearing.length) (by simp only; omega) (by simp only; omega)
      builder.workerCount
    let totalPartitionCount := allocation.1 + allocation.2
    match hfree : compilePartitions assertionFree allocation.1
        (cohortCacheBudget builder.stateCacheBudget totalPartitionCount 0 allocation.1) with
    | .error error => .error error
    | .ok freePartitions =>
      match hbearing : compilePartitions assertionBearing allocation.2
          (cohortCacheBudget builder.stateCacheBudget totalPartitionCount allocation.1
            allocation.2) with
      | .error error => .error error
      | .ok bearingPartitions =>
        have hlengths : 0 < freePartitions.length ∧ 0 < bearingPartitions.length := by
          rw [length_of_compilePartitions hfree, length_of_compilePartitions hbearing]
          omega
        .ok {
          partitions := freePartitions ++ bearingPartitions
          requestedWorkerCount := builder.workerCount
          splitPartition := some freePartitions.length
          prefilterEnabled := builder.prefilterEnabled
          literalPrefilterEnabled := builder.literalPrefilterEnabled
          partitions_ne_nil := by
            exact List.ne_nil_of_length_pos (by rw [List.length_append]; omega)
          split_spec := by
            intro split hsplit
            obtain rfl := Option.some.inj hsplit
            rw [List.length_append]
            omega }

/-- `MatcherBuilder::build`: check the settings, and compile the partitions. -/
def build (builder : MatcherBuilder) : Except Error Matcher :=
  if hpatterns : builder.patterns = [] then .error .noPatterns
  else if hworkers : builder.workerCount = 0 then .error .invalidWorkerCount
  else if builder.cohortCompilationEnabled then builder.buildCohorts hpatterns hworkers
  else builder.buildWhole hpatterns hworkers

end MatcherBuilder

end Rustmatch

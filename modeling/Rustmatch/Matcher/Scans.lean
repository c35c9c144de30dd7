import Rustmatch.Matcher.Events
import Rustmatch.Scheduler.Law

/-!
# What a matcher delivers

A scan delivers the events of all partitions, partition by partition, or fails for want of a thread
and delivers nothing. How the patterns are cut into partitions, which engine scans a partition, the
budgets and the candidates make no difference to the events of a pattern, so matchers that are built
from the same patterns deliver the same events, in some order.

## Main results

* `Matcher.scanPlanned_eq`: a partition, with shared candidates or without;
* `Matcher.scanCohortsWithHooks_inTurn`: one worker scans the two groups of partitions in turn;
* `Matcher.scan_cases`: a scan;
* `MatcherBuilder.scan_perm`: a built matcher;
* `MatcherBuilder.scan_perm_scan`: matchers with the same patterns.
-/

namespace Rustmatch

namespace Host

/-- Every thread can be started. -/
def Starts (host : Host) : Prop :=
  (∀ offset shard, (host.machine offset).shardStarts shard = true) ∧
    ∀ partitionIndex, host.workerStarts partitionIndex = true

/-- A scheduler returns outputs, or fails because a thread cannot be started. -/
def Allows {α Payload : Type} (host : Host) (ending : Ending Payload α) (value : α) : Prop :=
  ending = .returned (.ok value) ∨
    (¬ host.Starts ∧ ending = .returned (.error .workerUnavailable))

/-- Endings that a host allows are allowed in a row. -/
theorem Allows.bind {α β Payload : Type} {host : Host} {ending : Ending Payload α} {value : α}
    (h : host.Allows ending value) {next : α → Ending Payload β} {value' : β}
    (hnext : host.Allows (next value) value') : host.Allows (ending >>= next) value' := by
  obtain rfl | ⟨hstarts, rfl⟩ := h
  · exact hnext
  · exact Or.inr ⟨hstarts, rfl⟩

end Host

namespace Matcher

variable {matcher : Matcher} {host : Host} {input : Utf16Text} {Payload : Type}
  {partitions : List MatcherPartition}

/-! ### Partitions -/

/-- A partition scanned on its own returns its events. -/
theorem scanPartition_eq {partition : MatcherPartition} {patterns : List HirPattern}
    (h : partition.CompiledFrom patterns) :
    matcher.scanPartition input partition = .ok ⟨partition.events input.units⟩ := by
  obtain ⟨metrics, hscan⟩ := scanWithStats_eq h.database_eq input partition.stateCacheBudget
    matcher.prefilterEnabled matcher.literalPrefilterEnabled
  unfold scanPartition
  simp only [h.prefilter_eq, hscan]
  rfl

/-- A partition has its events, with the shared candidates of its group and without. -/
theorem scanPlanned_eq {partitionOffset : ℕ}
    (hcompiled : ∀ partition ∈ partitions, ∃ patterns, partition.CompiledFrom patterns)
    {plan : Option SharedCandidatePlan}
    (hplan : matcher.sharedCandidatePlan host input partitions partitionOffset = .ok plan)
    {partition : MatcherPartition} (hmem : partition ∈ partitions) (index : ℕ) :
    matcher.scanPlanned input partition (plan.map (·.partition index)) =
      .ok ⟨partition.events input.units⟩ := by
  obtain ⟨patterns, hpartition⟩ := hcompiled partition hmem
  cases plan with
  | none => exact scanPartition_eq hpartition
  | some plan =>
    unfold sharedCandidatePlan at hplan
    split at hplan
    next => cases hplan
    next =>
      -- a plan that was made holds the starts that the shards allow
      obtain ⟨herror, -⟩ | hnone | ⟨first, rest, plan', hfilters, hsome, hiter⟩ :=
        @sharedPlan_cases (host.machine partitionOffset) input.units input.length_le
          (partitions.map MatcherPartition.prefilter) matcher.prefilterEnabled
          matcher.literalPrefilterEnabled
      · rw [herror] at hplan
        cases hplan
      · rw [hnone] at hplan
        cases hplan
      · rw [hsome] at hplan
        obtain rfl : plan' = plan := Option.some.inj (Except.ok.inj hplan)
        obtain ⟨filter, hfilter, hliteral⟩ := exists_of_mapM_eq_some hfilters partition.prefilter
          (List.mem_map_of_mem hmem)
        -- all filters come from compiled prefilters, so their tables have the full size
        have hsized : ∀ other ∈ first :: rest, other.Sized := by
          intro other hother
          obtain ⟨prefilter, hprefilter, heq⟩ := exists_of_mem_mapM hfilters other hother
          obtain ⟨partition', hmem', rfl⟩ := List.mem_map.mp hprefilter
          obtain ⟨patterns', hpartition'⟩ := hcompiled partition' hmem'
          rw [hpartition'.prefilter_eq] at heq
          exact (Prefilter.knows_of_compile heq).1
        rw [hpartition.prefilter_eq] at hliteral
        obtain ⟨metrics, hscan⟩ := scanWithSharedCandidates_eq hpartition.database_eq hliteral
          hfilter hsized input partition.stateCacheBudget
          (show (plan'.partition index).candidates.iter = _ from hiter)
        show scanPartitionShared input partition (plan'.partition index) = _
        unfold scanPartitionShared
        simp only [hpartition.prefilter_eq, hscan]
        rfl

/-- Shared candidates are found, or found to be of no use, unless a thread cannot be started. -/
theorem sharedCandidatePlan_cases (matcher : Matcher) (host : Host) (input : Utf16Text)
    (partitions : List MatcherPartition) (partitionOffset : ℕ) :
    (∃ plan, matcher.sharedCandidatePlan host input partitions partitionOffset = .ok plan) ∨
      (¬ host.Starts ∧ matcher.sharedCandidatePlan host input partitions partitionOffset =
        .error .workerUnavailable) := by
  unfold sharedCandidatePlan
  split
  next => exact Or.inl ⟨_, rfl⟩
  next =>
    obtain ⟨herror, shard, hshard⟩ | hnone | ⟨first, rest, plan, -, hsome, -⟩ :=
      @sharedPlan_cases (host.machine partitionOffset) input.units input.length_le
        (partitions.map MatcherPartition.prefilter) matcher.prefilterEnabled
        matcher.literalPrefilterEnabled
    · refine Or.inr ⟨fun hstarts => ?_, herror⟩
      rw [hstarts.1] at hshard
      cases hshard
    · exact Or.inl ⟨_, hnone⟩
    · exact Or.inl ⟨_, hsome⟩

/-! ### Schedulers -/

/-- What the partitions of a group return. -/
noncomputable def outputs (partitions : List MatcherPartition) (input : Utf16Text) :
    List PartitionScanOutput :=
  partitions.map fun partition => ⟨partition.events input.units⟩

/-- A scope whose partitions have their events returns them. -/
theorem scope_run (matcher : Matcher) (host : Host) {hpartitions : partitions ≠ []}
    {partitionOffset : ℕ} {shared : ℕ → Option SharedCandidate}
    (hscans : ∀ index partition, partitions[index]? = some partition →
      matcher.scanPlanned input partition (shared index) = .ok ⟨partition.events input.units⟩) :
    host.Allows (matcher.scope host (Hooks.none : Hooks Payload) input partitions hpartitions
      partitionOffset shared).run (outputs partitions input) := by
  -- no scan of a partition panics or fails
  have hscan : ∀ index (hindex : index < partitions.length),
      (matcher.scope host (Hooks.none : Hooks Payload) input partitions hpartitions partitionOffset
        shared).scan index = .output ⟨partitions[index].events input.units⟩ := by
    intro index hindex
    have hget : partitions[index]? = some partitions[index] := List.getElem?_eq_getElem hindex
    simp only [scope, hget, hscans index _ hget]
    rfl
  -- only what the law needs to know of the scope is kept
  generalize hscope : matcher.scope host (Hooks.none : Hooks Payload) input partitions hpartitions
    partitionOffset shared = workers at *
  have hcount : workers.partitionCount = partitions.length := by rw [← hscope]; rfl
  have hlaw := workers.law_run
  generalize workers.run = ending at hlaw
  cases hlaw with
  | @panicked index payload hindex hpanic =>
    -- only a worker that scans can panic
    have hlt : index < partitions.length := by
      obtain ⟨-, hlt, -⟩ | ⟨rfl, -⟩ := hindex
      · rwa [hcount] at hlt
      · exact List.length_pos_of_ne_nil hpartitions
    rw [hscan index hlt] at hpanic
    cases hpanic
  | @spawnError error _ hfails =>
    obtain ⟨index, -, -, hfailure, -⟩ := hfails
    have hstart : workers.spawnFailure index =
        if host.workerStarts (partitionOffset + index) then none else some .workerUnavailable := by
      rw [← hscope]
      rfl
    rw [hstart] at hfailure
    split at hfailure
    next => cases hfailure
    next hworker =>
      obtain rfl := Option.some.inj hfailure
      exact Or.inr ⟨fun hstarts => hworker (hstarts.2 _), rfl⟩
  | scanError _ _ hlt herror _ =>
    rw [hscan _ (hcount ▸ hlt)] at herror
    cases herror
  | @outputs values _ hlength hvalues =>
    have heq : values = Matcher.outputs partitions input := by
      refine List.ext_getElem (by rw [hlength, hcount, Matcher.outputs, List.length_map])
        fun index hleft hright => ?_
      have hvalue := hvalues index hleft
      rw [hscan index (by omega)] at hvalue
      simp only [Matcher.outputs, List.getElem_map]
      exact (Outcome.output.inj hvalue).symm
    exact Or.inl (by rw [heq])

/-- A plan made for a group. -/
theorem allows_plan {α : Type} (matcher : Matcher) {host : Host} {input : Utf16Text}
    {partitions : List MatcherPartition} {partitionOffset : ℕ}
    {next : Option SharedCandidatePlan → Ending Payload α} {value : α}
    (hnext : ∀ plan,
      matcher.sharedCandidatePlan host input partitions partitionOffset = .ok plan →
        host.Allows (next plan) value) :
    host.Allows (Ending.ofExcept
      (matcher.sharedCandidatePlan host input partitions partitionOffset) >>= next) value := by
  obtain ⟨plan, hplan⟩ | ⟨hstarts, herror⟩ :=
    matcher.sharedCandidatePlan_cases host input partitions partitionOffset
  · rw [hplan]
    exact hnext plan hplan
  · rw [herror]
    exact Or.inr ⟨hstarts, rfl⟩

/-- One worker scans the two groups of partitions in turn: whatever the threads of the groups do,
the scan ends as the scopes of the groups end one after the other, with the shared candidates of
each. -/
theorem scanCohortsWithHooks_inTurn (matcher : Matcher) (host : Host) (hooks : Hooks Payload)
    (input : Utf16Text) {splitPartition : ℕ}
    (hsplit : 0 < splitPartition ∧ splitPartition < matcher.partitions.length)
    (hworkers : matcher.requestedWorkerCount = 1)
    {freePlan bearingPlan : Option SharedCandidatePlan}
    (hfree : matcher.sharedCandidatePlan host input (matcher.partitions.take splitPartition) 0 =
      .ok freePlan)
    (hbearing : matcher.sharedCandidatePlan host input (matcher.partitions.drop splitPartition)
      splitPartition = .ok bearingPlan) :
    ∃ hfirst hsecond, ∀ ending,
      InTurn Scope.Ends
        [matcher.scope host hooks input (matcher.partitions.take splitPartition) hfirst 0
            fun localIndex => freePlan.map (·.partition localIndex),
          matcher.scope host hooks input (matcher.partitions.drop splitPartition) hsecond
            splitPartition fun localIndex => bearingPlan.map (·.partition localIndex)] ending ↔
        ending = matcher.scanCohortsWithHooks host hooks input splitPartition hsplit := by
  have hfirst : matcher.partitions.take splitPartition ≠ [] :=
    mt List.take_eq_nil_iff.mp (not_or.mpr ⟨Nat.ne_of_gt hsplit.1, matcher.partitions_ne_nil⟩)
  have hsecond : matcher.partitions.drop splitPartition ≠ [] :=
    mt List.drop_eq_nil_iff.mp (Nat.not_le_of_lt hsplit.2)
  refine ⟨hfirst, hsecond, fun ending => ?_⟩
  rw [InTurn.ends_pair_iff]
  unfold scanCohortsWithHooks scanPartitionGroupWithHooks
  rw [if_pos hworkers, hfree, hbearing]
  rfl

section Schedulers

variable (hcompiled : ∀ partition ∈ matcher.partitions, ∃ patterns, partition.CompiledFrom patterns)

include hcompiled

/-- A parallel scan is refused, or has the outputs. -/
theorem scanParallelWithHooks_allows (host : Host) (input : Utf16Text) :
    host.Allows (matcher.scanParallelWithHooks host (Hooks.none : Hooks Payload) input)
      (outputs matcher.partitions input) :=
  allows_plan matcher fun _ hplan => matcher.scope_run host fun index _ hget =>
    scanPlanned_eq hcompiled hplan (List.mem_of_getElem? hget) index

/-- A parallel scan of both cohorts is refused, or has the outputs. -/
theorem scanParallelCohortsWithHooks_allows (host : Host) (input : Utf16Text)
    (splitPartition : ℕ) :
    host.Allows (matcher.scanParallelCohortsWithHooks host (Hooks.none : Hooks Payload) input
      splitPartition) (outputs matcher.partitions input) := by
  refine allows_plan matcher fun freePlan hfree => allows_plan matcher fun bearingPlan hbearing =>
    matcher.scope_run host fun index partition hget => ?_
  split
  next hindex =>
    -- the partition stands in front of the split
    have hmem : partition ∈ matcher.partitions.take splitPartition :=
      List.mem_of_getElem? ((List.getElem?_take_of_lt hindex).trans hget)
    exact scanPlanned_eq (fun other hother => hcompiled other (List.mem_of_mem_take hother)) hfree
      hmem index
  next hindex =>
    have hmem : partition ∈ matcher.partitions.drop splitPartition := by
      refine @List.mem_of_getElem? _ _ (index - splitPartition) _ ?_
      rw [List.getElem?_drop, Nat.add_sub_cancel' (Nat.not_lt.mp hindex), hget]
    exact scanPlanned_eq (fun other hother => hcompiled other (List.mem_of_mem_drop hother))
      hbearing hmem (index - splitPartition)

/-- The scan of a group is refused, or has the outputs. -/
theorem scanPartitionGroupWithHooks_allows (host : Host) (input : Utf16Text)
    {hpartitions : partitions ≠ []}
    (hsub : ∀ partition ∈ partitions, partition ∈ matcher.partitions)
    (partitionOffset : ℕ) :
    host.Allows (matcher.scanPartitionGroupWithHooks host (Hooks.none : Hooks Payload) input
      partitions hpartitions partitionOffset) (outputs partitions input) :=
  allows_plan matcher fun _ hplan => matcher.scope_run host fun index _ hget =>
    scanPlanned_eq (fun other hother => hcompiled other (hsub other hother)) hplan
      (List.mem_of_getElem? hget) index

/-- All schedulers return the outputs of the partitions in their order. -/
theorem scanParallel_allows (host : Host) (input : Utf16Text) :
    host.Allows (matcher.scanParallel host (Hooks.none : Hooks Payload) input)
      (outputs matcher.partitions input) := by
  unfold scanParallel
  split
  next splitPartition hsplit =>
    unfold scanCohortsWithHooks
    split
    next =>
      refine (scanPartitionGroupWithHooks_allows hcompiled host input
        (fun _ => List.mem_of_mem_take) 0).bind
        ((scanPartitionGroupWithHooks_allows hcompiled host input
          (fun _ => List.mem_of_mem_drop) splitPartition).bind ?_)
      refine Or.inl ?_
      show Ending.returned (.ok (_ ++ _)) = _
      rw [outputs, outputs, ← List.map_append, List.take_append_drop, ← outputs]
    next => exact scanParallelCohortsWithHooks_allows hcompiled host input splitPartition
  next => exact scanParallelWithHooks_allows hcompiled host input

/-- A scan delivers the events of all partitions in their order, or fails for want of a thread and
delivers nothing. -/
theorem scan_cases (host : Host) (input : Utf16Text) :
    matcher.scan host input = ⟨matcher.partitions.flatMap fun partition =>
      partition.events input.units, .returned (.ok ())⟩ ∨
    (¬ host.Starts ∧
      matcher.scan host input = ⟨[], .returned (.error .workerUnavailable)⟩) := by
  unfold scan
  split
  next partition hpartition =>
    have hmem : partition ∈ matcher.partitions := hpartition ▸ List.mem_singleton_self partition
    obtain ⟨patterns, hpatterns⟩ := hcompiled partition hmem
    obtain ⟨metrics, hscan⟩ := scanWithStats_eq hpatterns.database_eq input
      partition.stateCacheBudget matcher.prefilterEnabled matcher.literalPrefilterEnabled
    simp only [hpatterns.prefilter_eq, hscan, hpartition, List.flatMap_singleton]
    exact Or.inl rfl
  next =>
    obtain heq | ⟨hstarts, heq⟩ := @scanParallel_allows matcher Empty hcompiled host input
    · rw [heq]
      exact Or.inl (by simp [Ending.deliver, outputs, List.flatMap_map])
    · rw [heq]
      exact Or.inr ⟨hstarts, rfl⟩

end Schedulers

end Matcher

/-! ### Matchers with the same patterns -/

section Built

variable {builder builder' : MatcherBuilder} {matcher matcher' : Matcher} {host host' : Host}

namespace MatcherBuilder

/-- Every partition of a matcher is compiled. -/
theorem BuiltFrom.exists_compiledFrom {groups : List (List HirPattern)}
    (h : BuiltFrom matcher builder groups) :
    ∀ partition ∈ matcher.partitions, ∃ patterns, partition.CompiledFrom patterns := by
  have hcompiled := h.compiled
  generalize matcher.partitions = partitions at hcompiled
  clear h
  induction hcompiled with
  | nil => simp
  | cons hpartition _ ih => exact List.forall_mem_cons.mpr ⟨⟨_, hpartition⟩, ih⟩

/-- A scan returns and delivers the events of all registered patterns, unless a thread is refused.
-/
theorem scan_perm (h : builder.build = .ok matcher) (input : Utf16Text)
    (hthreads : (matcher.scan host input).ending ≠ .returned (.error .workerUnavailable)) :
    (matcher.scan host input).ending = .returned (.ok ()) ∧
      (matcher.scan host input).events.Perm
        (builder.patterns.flatMap fun p => p.events input.units) := by
  obtain ⟨groups, hbuilt⟩ := build_spec h
  obtain heq | ⟨-, heq⟩ := matcher.scan_cases hbuilt.exists_compiledFrom host input
  · rw [heq]
    exact ⟨rfl, (flatMap_events_perm hbuilt.compiled input.units).trans
      (hbuilt.perm.flatMap_right _)⟩
  · rw [heq] at hthreads
    exact absurd rfl hthreads

/-- On a machine that starts every thread, none is refused. -/
theorem scan_ne_workerUnavailable (h : builder.build = .ok matcher) (hstarts : host.Starts)
    (input : Utf16Text) :
    (matcher.scan host input).ending ≠ .returned (.error .workerUnavailable) := by
  obtain ⟨groups, hbuilt⟩ := build_spec h
  obtain heq | ⟨hnot, -⟩ := matcher.scan_cases hbuilt.exists_compiledFrom host input
  · rw [heq]
    exact fun hending => by cases hending
  · exact absurd hstarts hnot

/-- Matchers with the same patterns deliver the same events. -/
theorem scan_perm_scan (h : builder.build = .ok matcher) (h' : builder'.build = .ok matcher')
    (hpatterns : builder.patterns = builder'.patterns) (input : Utf16Text)
    (hthreads : (matcher.scan host input).ending ≠ .returned (.error .workerUnavailable))
    (hthreads' : (matcher'.scan host' input).ending ≠ .returned (.error .workerUnavailable)) :
    (matcher.scan host input).ending = .returned (.ok ()) ∧
      (matcher'.scan host' input).ending = .returned (.ok ()) ∧
      (matcher.scan host input).events.Perm (matcher'.scan host' input).events := by
  obtain ⟨hending, hevents⟩ := scan_perm h input hthreads
  obtain ⟨hending', hevents'⟩ := scan_perm h' input hthreads'
  rw [← hpatterns] at hevents'
  exact ⟨hending, hending', hevents.trans hevents'.symm⟩

end MatcherBuilder

end Built

end Rustmatch

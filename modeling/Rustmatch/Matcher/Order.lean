import Rustmatch.Matcher.Partitions
import Rustmatch.Matcher.Registrations

/-!
# The order of events

What a scan delivers is fixed by the builder and the input, and not only up to order: partition by
partition, in each start by start, and at a start in the order of the registrations. In particular
the events of one pattern are delivered in the order of their starts, and they are the same in every
matcher that has the pattern, whatever else was registered.

## Main definitions

* `MatcherBuilder.groups`: the patterns of each partition.

## Main results

* `delivery_order`: the events of a scan, in their order;
* `pattern_events_are_its_own`: the events of one pattern.
-/

namespace Rustmatch

/-! ### Groups -/

/-- The slices of a list that is cut into `count` parts of nearly the same size. -/
def slices {α : Type} (items : List α) (count : ℕ) : List (List α) :=
  (List.range count).map (sliceAt items count)

/-- Compiled slices are compiled from their patterns. -/
theorem forall₂_compiledFrom_of_mapM {cut : List (List HirPattern × ℕ)}
    {partitions : List MatcherPartition} (h : cut.mapM compileSlice = .ok partitions) :
    List.Forall₂ MatcherPartition.CompiledFrom partitions (cut.map Prod.fst) := by
  induction cut generalizing partitions with
  | nil =>
    obtain rfl := Except.ok.inj h
    exact .nil
  | cons slice cut ih =>
    rw [List.mapM_cons] at h
    obtain ⟨partition, hpartition, h⟩ := bind_eq_ok.mp h
    obtain ⟨rest, hrest, h⟩ := bind_eq_ok.mp h
    obtain rfl := Except.ok.inj h
    obtain ⟨database, hdatabase, hpartition⟩ := bind_eq_ok.mp hpartition
    obtain rfl := Except.ok.inj hpartition
    exact .cons ⟨hdatabase, rfl⟩ (ih hrest)

/-- The partitions are compiled from the slices. -/
theorem forall₂_compiledFrom_slices {patterns : List HirPattern} {workers budget : ℕ}
    {partitions : List MatcherPartition}
    (h : compilePartitions patterns workers budget = .ok partitions) :
    List.Forall₂ MatcherPartition.CompiledFrom partitions
      (slices patterns (min workers patterns.length)) := by
  rw [compilePartitions_eq_mapM] at h
  have hslices : slices patterns (min workers patterns.length) =
      (partitionSlices patterns (min workers patterns.length) budget).map Prod.fst := by
    unfold slices partitionSlices
    rw [List.map_map]
    rfl
  rw [hslices]
  exact forall₂_compiledFrom_of_mapM h

namespace MatcherBuilder

variable {builder : MatcherBuilder} {matcher : Matcher}

/-- The patterns of the partitions: slices of all patterns, or of the two cohorts if both have
patterns and are to be kept apart. -/
def groups (builder : MatcherBuilder) : List (List HirPattern) :=
  if builder.cohortCompilationEnabled = true ∧
      ¬ (builder.cohorts.1.length = 0 ∨ builder.cohorts.2.length = 0) then
    match allocateCohortPartitions (builder.cohorts.1.length, builder.cohorts.2.length)
        builder.workerCount with
    | some (first, second) => slices builder.cohorts.1 first ++ slices builder.cohorts.2 second
    | none => [] -- the loop never runs out of patterns
  else slices builder.patterns (min builder.workerCount builder.patterns.length)

/-- One group is cut into slices, in order. -/
theorem groups_of_buildWhole {hpatterns : builder.patterns ≠ []}
    {hworkers : builder.workerCount ≠ 0}
    (h : builder.buildWhole hpatterns hworkers = .ok matcher) :
    List.Forall₂ MatcherPartition.CompiledFrom matcher.partitions
      (slices builder.patterns (min builder.workerCount builder.patterns.length)) := by
  unfold buildWhole at h
  split at h
  next => cases h
  next partitions hpartitions =>
    obtain rfl := Except.ok.inj h
    exact forall₂_compiledFrom_slices hpartitions

/-- The cohorts are cut into slices, the one without assertions first. -/
theorem groups_of_buildCohorts {hpatterns : builder.patterns ≠ []}
    {hworkers : builder.workerCount ≠ 0} (henabled : builder.cohortCompilationEnabled = true)
    (h : builder.buildCohorts hpatterns hworkers = .ok matcher) :
    List.Forall₂ MatcherPartition.CompiledFrom matcher.partitions builder.groups := by
  unfold groups
  by_cases hsingle : builder.cohorts.1.length = 0 ∨ builder.cohorts.2.length = 0
  · rw [if_neg fun hmixed => hmixed.2 hsingle]
    rw [buildCohorts_of_single hsingle] at h
    exact groups_of_buildWhole h
  · rw [if_pos ⟨henabled, hsingle⟩]
    obtain ⟨first, second, freePartitions, bearingPartitions, hbuilt⟩ := exists_mixedBuild hsingle h
    have hfree := forall₂_compiledFrom_slices hbuilt.free_eq
    have hbearing := forall₂_compiledFrom_slices hbuilt.bearing_eq
    rw [Nat.min_eq_left hbuilt.first_le.2] at hfree
    rw [Nat.min_eq_left hbuilt.second_le.2] at hbearing
    rw [hbuilt.allocation_eq, hbuilt.partitions_eq]
    exact List.rel_append hfree hbearing

/-- The partitions of a matcher are compiled from the groups of its builder. -/
theorem forall₂_groups (h : builder.build = .ok matcher) :
    List.Forall₂ MatcherPartition.CompiledFrom matcher.partitions builder.groups := by
  unfold build at h
  split at h
  next => cases h
  next =>
    split at h
    next => cases h
    next =>
      split at h
      next henabled => exact groups_of_buildCohorts henabled h
      next hdisabled =>
        unfold groups
        rw [if_neg fun hmixed => hdisabled hmixed.1]
        exact groups_of_buildWhole h

/-- The groups are cut from the patterns in the order of their registrations, with the cohorts kept
apart if they are compiled. -/
theorem flatten_groups (h : builder.build = .ok matcher) :
    builder.groups.flatten =
      if builder.cohortCompilationEnabled = true ∧
          ¬ (builder.cohorts.1.length = 0 ∨ builder.cohorts.2.length = 0) then
        builder.cohorts.1 ++ builder.cohorts.2
      else builder.patterns := by
  unfold build at h
  split at h
  next => cases h
  next hpatterns =>
    have hpos := List.length_pos_of_ne_nil hpatterns
    split at h
    next => cases h
    next hworkers =>
      unfold groups
      split
      next hmixed =>
        obtain ⟨first, second, heq, hfirst, hsecond, -⟩ := @allocateCohortPartitions_spec
          (builder.cohorts.1.length, builder.cohorts.2.length) (by simp only; omega)
          (by simp only; omega) builder.workerCount
        rw [heq]
        simp only
        rw [List.flatten_append, slices, slices, flatten_slices _ (by omega),
          flatten_slices _ (by omega)]
      next => exact flatten_slices builder.patterns (by omega)

/-- All patterns are in the groups, each once. -/
theorem flatten_groups_perm (h : builder.build = .ok matcher) :
    builder.groups.flatten.Perm builder.patterns := by
  rw [flatten_groups h]
  split
  · exact partition_perm builder.patterns _
  · exact List.Perm.refl _

end MatcherBuilder

/-! ### The events of a group -/

/-- The events of some patterns: start by start, and at a start pattern by pattern. -/
noncomputable def groupEvents (input : List UInt16) (group : List HirPattern) : List Match :=
  (List.range input.length).flatMap fun start =>
    group.filterMap fun p => p.eventAt input start

section Events

variable {builder builder' : MatcherBuilder} {matcher matcher' : Matcher} {host host' : Host}
  {input : List UInt16}

/-- The events of a compiled partition, in their order. -/
theorem MatcherPartition.CompiledFrom.events_eq {partition : MatcherPartition}
    {patterns : List HirPattern} (h : partition.CompiledFrom patterns) (input : List UInt16) :
    partition.events input = groupEvents input patterns := by
  unfold MatcherPartition.events groupEvents
  rw [show partition.database.eventsAt (Reading.contextual input) partition.database.root =
    fun start => patterns.filterMap fun p => p.eventAt input start from
      funext (h.eventsAt_eq input)]

/-- The events of partitions are those of their groups. -/
theorem flatMap_events_eq {partitions : List MatcherPartition} {groups : List (List HirPattern)}
    (h : List.Forall₂ MatcherPartition.CompiledFrom partitions groups) (input : List UInt16) :
    (partitions.flatMap fun partition => partition.events input) =
      groups.flatMap (groupEvents input) := by
  induction h with
  | nil => rfl
  | cons hpartition _ ih =>
    rw [List.flatMap_cons, List.flatMap_cons, ih, hpartition.events_eq]

/-- What a scan delivers, in its order. -/
theorem MatcherBuilder.scan_events_eq (h : builder.build = .ok matcher) (input : Utf16Text)
    (hthreads : (matcher.scan host input).ending ≠ .returned (.error .workerUnavailable)) :
    (matcher.scan host input).events = builder.groups.flatMap (groupEvents input.units) := by
  obtain ⟨groups, hbuilt⟩ := MatcherBuilder.build_spec h
  obtain heq | ⟨-, heq⟩ := matcher.scan_cases hbuilt.exists_compiledFrom host input
  · rw [heq]
    exact flatMap_events_eq (MatcherBuilder.forall₂_groups h) input.units
  · rw [heq] at hthreads
    exact absurd rfl hthreads

/-- A pattern is the only one with its identity. -/
theorem filter_patternId_eq {group : List HirPattern}
    (hnodup : (group.map HirPattern.patternId).Nodup) {p : HirPattern} (hp : p ∈ group) :
    (group.filter fun q => q.patternId = p.patternId) = [p] := by
  induction group with
  | nil => exact absurd hp List.not_mem_nil
  | cons q group ih =>
    rw [List.map_cons, List.nodup_cons] at hnodup
    obtain ⟨hnew, hnodup⟩ := hnodup
    obtain rfl | hmem := List.mem_cons.mp hp
    · have hnone : (group.filter fun q => q.patternId = p.patternId) = [] := by
        rw [List.filter_eq_nil_iff]
        intro q hq heq
        exact hnew (of_decide_eq_true heq ▸ List.mem_map_of_mem hq)
      rw [List.filter_cons_of_pos (by rw [decide_eq_true_eq]), hnone]
    · have hne : ¬ q.patternId = p.patternId := by
        intro heq
        exact hnew (heq ▸ List.mem_map_of_mem hmem)
      rw [List.filter_cons_of_neg (by rwa [decide_eq_true_eq]), ih hnodup hmem]

/-- The events at a start with an identity are those of the patterns with that identity. -/
theorem filter_filterMap_eventAt (group : List HirPattern) (start : ℕ) (id : PatternId) :
    ((group.filterMap fun p => p.eventAt input start).filter fun event => event.patternId = id) =
      (group.filter fun p => p.patternId = id).filterMap fun p => p.eventAt input start := by
  rw [List.filter_filterMap, List.filterMap_filter]
  refine List.filterMap_congr fun p _ => ?_
  cases hevent : p.eventAt input start with
  | none => exact (ite_self _).symm
  | some event =>
    have hid : event.patternId = p.patternId := (Prod.mk.inj (HirPattern.key_of_eventAt hevent)).1
    rw [Option.filter_some, hid]

/-- The events of a group with the identity of one of its patterns are those of the pattern. -/
theorem filter_groupEvents {group : List HirPattern}
    (hnodup : (group.map HirPattern.patternId).Nodup) {p : HirPattern} (hp : p ∈ group) :
    ((groupEvents input group).filter fun event => event.patternId = p.patternId) =
      p.events input := by
  unfold groupEvents
  rw [List.filter_flatMap]
  simp only [filter_filterMap_eventAt, filter_patternId_eq hnodup hp]
  rw [HirPattern.events, List.filterMap_eq_flatMap_toList]
  rfl

/-- A group without the identity has no events with it. -/
theorem filter_groupEvents_of_notMem {group : List HirPattern} {id : PatternId}
    (hid : id ∉ group.map HirPattern.patternId) :
    ((groupEvents input group).filter fun event => event.patternId = id) = [] := by
  have hnone : (group.filter fun p => p.patternId = id) = [] := by
    rw [List.filter_eq_nil_iff]
    intro p hp heq
    exact hid (of_decide_eq_true heq ▸ List.mem_map_of_mem hp)
  unfold groupEvents
  rw [List.filter_flatMap]
  simp only [filter_filterMap_eventAt, hnone]
  exact List.flatMap_eq_nil_iff.mpr fun _ _ => rfl

/-- The events with the identity of one of the patterns, in all groups. -/
theorem filter_flatMap_groupEvents {groups : List (List HirPattern)}
    (hnodup : (groups.flatten.map HirPattern.patternId).Nodup) {p : HirPattern}
    (hp : p ∈ groups.flatten) :
    ((groups.flatMap (groupEvents input)).filter fun event => event.patternId = p.patternId) =
      p.events input := by
  induction groups with
  | nil => exact absurd hp List.not_mem_nil
  | cons group groups ih =>
    rw [List.flatten_cons, List.map_append, List.nodup_append'] at hnodup
    obtain ⟨hgroup, hgroups, hdisjoint⟩ := hnodup
    rw [List.flatMap_cons, List.filter_append]
    obtain hmem | hmem := List.mem_append.mp hp
    · -- no other group has the identity
      have hother : ((groups.flatMap (groupEvents input)).filter
          fun event => event.patternId = p.patternId) = [] := by
        rw [List.filter_flatMap, List.flatMap_eq_nil_iff]
        intro other hother
        refine filter_groupEvents_of_notMem fun hid => ?_
        obtain ⟨q, hq, heq⟩ := List.mem_map.mp hid
        exact hdisjoint (List.mem_map_of_mem hmem)
          (heq ▸ List.mem_map_of_mem (List.mem_flatten_of_mem hother hq))
      rw [filter_groupEvents hgroup hmem, hother, List.append_nil]
    · have hid : p.patternId ∉ group.map HirPattern.patternId := fun hid =>
        hdisjoint hid (List.mem_map_of_mem hmem)
      rw [filter_groupEvents_of_notMem hid, List.nil_append]
      exact ih hgroups hmem

/-- What a scan delivers is fixed by the builder and the input: the patterns are cut into one group
for each partition, in the order of their registrations but with the cohorts kept apart, and the
events come group by group, in each start by start, and at a start pattern by pattern. Neither the
machine, nor the cache budget, nor the prefilters make a difference. -/
theorem delivery_order (h : builder.build = .ok matcher) (input : Utf16Text)
    (hthreads : (matcher.scan host input).ending ≠ .returned (.error .workerUnavailable)) :
    builder.groups.length = matcher.partitions.length ∧
      (builder.groups.flatten =
        if builder.cohortCompilationEnabled = true ∧
            ¬ (builder.cohorts.1.length = 0 ∨ builder.cohorts.2.length = 0) then
          builder.cohorts.1 ++ builder.cohorts.2
        else builder.patterns) ∧
      (matcher.scan host input).events =
        builder.groups.flatMap fun group => (List.range input.units.length).flatMap fun start =>
          group.filterMap fun p => p.eventAt input.units start :=
  ⟨(MatcherBuilder.forall₂_groups h).length_eq.symm, MatcherBuilder.flatten_groups h,
    MatcherBuilder.scan_events_eq h input hthreads⟩

/-- The order of two cohorts, on a text of two units. -/
theorem delivery_order_mixedBuilder : ∃ matcher,
    ((mixedBuilder.setWorkerCount 2).setCohortCompilationEnabled true).build = .ok matcher ∧
    (matcher.scan readyHost textAb).events =
      ((mixedBuilder.setWorkerCount 2).setCohortCompilationEnabled true).groups.flatMap
        fun group => (List.range textAb.units.length).flatMap fun start =>
          group.filterMap fun p => p.eventAt textAb.units start := by
  have hbuild : ∃ matcher, ((mixedBuilder.setWorkerCount 2).setCohortCompilationEnabled
      true).build = .ok matcher := ⟨_, rfl⟩
  obtain ⟨matcher, h⟩ := hbuild
  exact ⟨matcher, h, (delivery_order h textAb
    (MatcherBuilder.scan_ne_workerUnavailable h readyHost_starts textAb)).2.2⟩

/-- What a scan delivers of a pattern are its events alone. -/
theorem MatcherBuilder.filter_scan_events (h : builder.build = .ok matcher) {p : HirPattern}
    (hp : p ∈ builder.patterns) (input : Utf16Text)
    (hthreads : (matcher.scan host input).ending ≠ .returned (.error .workerUnavailable)) :
    ((matcher.scan host input).events.filter fun event => event.patternId = p.patternId) =
      p.events input.units := by
  have hperm := MatcherBuilder.flatten_groups_perm h
  rw [MatcherBuilder.scan_events_eq h input hthreads]
  exact filter_flatMap_groupEvents
    ((hperm.map HirPattern.patternId).nodup_iff.mpr builder.nodup) (hperm.mem_iff.mpr hp)

/-- The events of a pattern are its own: they are delivered in the order of their starts, and they
are the same in the scans of all matchers that have the pattern, whatever else was registered,
before or after it, and however the matchers were built. -/
theorem pattern_events_are_its_own (h : builder.build = .ok matcher)
    (h' : builder'.build = .ok matcher') {p : HirPattern} (hp : p ∈ builder.patterns)
    (hp' : p ∈ builder'.patterns) (input : Utf16Text)
    (hthreads : (matcher.scan host input).ending ≠ .returned (.error .workerUnavailable))
    (hthreads' : (matcher'.scan host' input).ending ≠ .returned (.error .workerUnavailable)) :
    ((matcher.scan host input).events.filter fun event => event.patternId = p.patternId) =
        ((matcher'.scan host' input).events.filter fun event => event.patternId = p.patternId) ∧
      (((matcher.scan host input).events.filter fun event => event.patternId = p.patternId).map
        fun event => event.span.start).Pairwise (· < ·) := by
  rw [MatcherBuilder.filter_scan_events h hp input hthreads,
    MatcherBuilder.filter_scan_events h' hp' input hthreads']
  refine ⟨rfl, ?_⟩
  rw [HirPattern.events, List.pairwise_map, List.pairwise_filterMap]
  refine List.pairwise_lt_range.imp fun hlt event hevent event' hevent' => ?_
  -- the event of a start has that start
  rw [(Prod.mk.inj (HirPattern.key_of_eventAt hevent)).2,
    (Prod.mk.inj (HirPattern.key_of_eventAt hevent')).2]
  exact hlt

/-- The events of one pattern, with one worker and with two. -/
theorem pattern_events_are_its_own_mixedBuilder : ∃ matcher matcher',
    (mixedBuilder.setWorkerCount 1).build = .ok matcher ∧
    (mixedBuilder.setWorkerCount 2).build = .ok matcher' ∧
    ((matcher.scan readyHost textAb).events.filter fun event =>
        event.patternId = boundaryPattern.patternId) =
      (matcher'.scan readyHost textAb).events.filter fun event =>
        event.patternId = boundaryPattern.patternId := by
  have hbuild : ∃ matcher, (mixedBuilder.setWorkerCount 1).build = .ok matcher := ⟨_, rfl⟩
  have hbuild' : ∃ matcher, (mixedBuilder.setWorkerCount 2).build = .ok matcher := ⟨_, rfl⟩
  obtain ⟨matcher, h⟩ := hbuild
  obtain ⟨matcher', h'⟩ := hbuild'
  have hmem : boundaryPattern ∈ mixedBuilder.patterns :=
    List.mem_cons_of_mem _ (List.mem_singleton_self _)
  exact ⟨matcher, matcher', h, h', (pattern_events_are_its_own h h' hmem hmem textAb
    (MatcherBuilder.scan_ne_workerUnavailable h readyHost_starts textAb)
    (MatcherBuilder.scan_ne_workerUnavailable h' readyHost_starts textAb)).1⟩

end Events

end Rustmatch

import Mathlib.Data.List.Forall2
import Rustmatch.Matcher

/-!
# The events of a pattern

Every pattern has events of its own, which depend on nothing but its identity, its expression and
the input. The events of a partition are those of its patterns, start by start instead of pattern by
pattern, and the partitions of a matcher have every registered pattern once.

## Main definitions

* `HirPattern.events`: the events of a pattern;
* `MatcherPartition.CompiledFrom`: the patterns of a partition.

## Main results

* `MatcherPartition.CompiledFrom.events_perm`: the events of a partition;
* `compilePartitions_spec`: the partitions have all patterns, in order;
* `MatcherBuilder.build_spec`: a matcher has all patterns of its builder.
-/

namespace Rustmatch

/-! ### Patterns -/

namespace HirPattern

/-- The ends after a start that a compiled pattern accepts. -/
def acceptedEnds (p : HirPattern) (R : Reading) (start : ℕ) : Set ℕ :=
  p.expression.ends R start ∪ p.expression.strayEnds R start

/-- The event of a start: its longest end. -/
noncomputable def eventAt (p : HirPattern) (input : List UInt16) (start : ℕ) : Option Match :=
  (longestEnd (p.acceptedEnds (Reading.contextual input) start)).map fun stop =>
    ⟨p.patternId, ⟨start, stop⟩⟩

/-- The events of a pattern alone, in the order of their starts. -/
noncomputable def events (p : HirPattern) (input : List UInt16) : List Match :=
  (List.range input.length).filterMap (p.eventAt input)

end HirPattern

section Lists

variable {α β γ : Type}

/-- A list by its indices. -/
theorem filterMap_range_eq {f : ℕ → Option β} {g : α → Option β} {items : List α}
    (h : ∀ index (hindex : index < items.length), f index = g items[index]) :
    (List.range items.length).filterMap f = items.filterMap g := by
  induction items generalizing f with
  | nil => rfl
  | cons item items ih =>
    have hrest : (List.range items.length).filterMap (f ∘ Nat.succ) = items.filterMap g :=
      ih fun index hindex => h (index + 1) (Nat.succ_lt_succ hindex)
    have hfirst : f 0 = g item := h 0 (Nat.zero_lt_succ _)
    rw [List.length_cons, List.range_succ_eq_map, List.filterMap_cons, List.filterMap_cons,
      List.filterMap_map, hrest, hfirst]

/-- Row by row or column by column. -/
theorem flatMap_filterMap_perm (rows : List α) (columns : List β) (f : α → β → Option γ) :
    (rows.flatMap fun row => columns.filterMap (f row)).Perm
      (columns.flatMap fun column => rows.filterMap fun row => f row column) := by
  induction rows with
  | nil => simp
  | cons row rows ih =>
    have hfirst : columns.filterMap (f row) =
        columns.flatMap fun column => (f row column).toList :=
      List.filterMap_eq_flatMap_toList _ _
    have hcons : (fun column => (row :: rows).filterMap fun row => f row column) =
        fun column => (f row column).toList ++ rows.filterMap fun row => f row column := by
      funext column
      cases hentry : f row column <;> simp [hentry]
    rw [List.flatMap_cons, hfirst, hcons]
    exact (ih.append_left _).trans (List.flatMap_append_perm _ _ _)

end Lists

/-! ### Partitions -/

namespace MatcherPartition

/-- The partition is compiled from these patterns. -/
structure CompiledFrom (partition : MatcherPartition) (patterns : List HirPattern) : Prop where
  /-- The database is the compiled one. -/
  database_eq : compile patterns = .ok partition.database
  /-- The prefilter is the one for these patterns. -/
  prefilter_eq : partition.prefilter = Prefilter.compile patterns partition.database

/-- The events of a partition: those of all starts in turn. -/
noncomputable def events (partition : MatcherPartition) (input : List UInt16) : List Match :=
  (List.range input.length).flatMap
    (partition.database.eventsAt (Reading.contextual input) partition.database.root)

variable {partition : MatcherPartition} {patterns : List HirPattern}

/-- The accepted ends of a pattern are those of its ordinal. -/
theorem CompiledFrom.acceptedEnds_eq (h : partition.CompiledFrom patterns) {ordinal : ℕ}
    {p : HirPattern} (hp : patterns[ordinal]? = some p) (R : Reading) (start : ℕ) :
    p.acceptedEnds R start =
      partition.database.ends R partition.database.root ordinal start := by
  rw [HirPattern.acceptedEnds, ends_of_compile h.database_eq hp]

/-- The events of a start, pattern by pattern. -/
theorem CompiledFrom.eventsAt_eq (h : partition.CompiledFrom patterns) (input : List UInt16)
    (start : ℕ) :
    partition.database.eventsAt (Reading.contextual input) partition.database.root start =
      patterns.filterMap fun p => p.eventAt input start := by
  have hids := patternIds_of_compile h.database_eq
  have hcount : partition.database.patternCount = patterns.length := by
    rw [PatternDatabase.patternCount, hids, List.length_map]
  unfold PatternDatabase.eventsAt
  rw [hcount]
  refine filterMap_range_eq fun ordinal hordinal => ?_
  have hp : patterns[ordinal]? = some patterns[ordinal] := List.getElem?_eq_getElem hordinal
  have hid : partition.database.patternId ordinal = patterns[ordinal].patternId := by
    simp [PatternDatabase.patternId, hids, hp]
  rw [HirPattern.eventAt, h.acceptedEnds_eq hp, hid]

/-- A pattern of a partition has an event wherever it accepts an end, and that event has the
greatest accepted end. -/
theorem CompiledFrom.exists_event (h : partition.CompiledFrom patterns) {p : HirPattern}
    (hp : p ∈ patterns) {input : List UInt16} {start stop : ℕ}
    (hstop : stop ∈ p.acceptedEnds (Reading.contextual input) start) :
    ∃ event ∈ p.events input, event.patternId = p.patternId ∧ event.span.start = start ∧
      IsGreatest (p.acceptedEnds (Reading.contextual input) start) event.span.stop := by
  obtain ⟨ordinal, hordinal⟩ := List.mem_iff_getElem?.mp hp
  have hends := h.acceptedEnds_eq hordinal (Reading.contextual input) start
  have hbounded : BddAbove (p.acceptedEnds (Reading.contextual input) start) := by
    rw [hends]
    exact bddAbove_ends ordinal
  have hstart : start < input.length := by
    rw [hends] at hstop
    obtain ⟨hlt, hle⟩ := ends_bounded hstop
    exact Nat.lt_of_lt_of_le hlt hle
  cases hlongest : longestEnd (p.acceptedEnds (Reading.contextual input) start) with
  | none =>
    rw [longestEnd_eq_none_iff.mp hlongest] at hstop
    exact absurd hstop (Set.notMem_empty stop)
  | some longest =>
    have hgreatest := (longestEnd_eq_some_iff hbounded).mp hlongest
    refine ⟨⟨p.patternId, ⟨start, longest⟩⟩, ?_, rfl, rfl, hgreatest⟩
    exact List.mem_filterMap.mpr
      ⟨start, List.mem_range.mpr hstart, by rw [HirPattern.eventAt, hlongest]; rfl⟩

/-- The events of a partition are those of its patterns. -/
theorem CompiledFrom.events_perm (h : partition.CompiledFrom patterns) (input : List UInt16) :
    (partition.events input).Perm (patterns.flatMap fun p => p.events input) := by
  have hstarts : partition.database.eventsAt (Reading.contextual input) partition.database.root =
      fun start => patterns.filterMap fun p => p.eventAt input start :=
    funext (h.eventsAt_eq input)
  rw [events, hstarts]
  exact flatMap_filterMap_perm _ _ fun (start : ℕ) (p : HirPattern) => p.eventAt input start

end MatcherPartition

/-- The events of partitions are those of all their patterns. -/
theorem flatMap_events_perm {partitions : List MatcherPartition} {groups : List (List HirPattern)}
    (h : List.Forall₂ MatcherPartition.CompiledFrom partitions groups) (input : List UInt16) :
    (partitions.flatMap fun partition => partition.events input).Perm
      (groups.flatten.flatMap fun p => p.events input) := by
  induction h with
  | nil => rfl
  | cons hpartition _ ih =>
    rw [List.flatMap_cons, List.flatten_cons, List.flatMap_append]
    exact (hpartition.events_perm input).append ih

/-- Every pattern is in a partition. -/
theorem exists_compiledFrom_of_mem {partitions : List MatcherPartition}
    {groups : List (List HirPattern)}
    (h : List.Forall₂ MatcherPartition.CompiledFrom partitions groups) {p : HirPattern}
    (hp : p ∈ groups.flatten) :
    ∃ partition patterns, MatcherPartition.CompiledFrom partition patterns ∧ p ∈ patterns := by
  induction h with
  | nil => cases hp
  | @cons partition patterns _ _ hpartition _ ih =>
    rw [List.flatten_cons, List.mem_append] at hp
    obtain hp | hp := hp
    · exact ⟨partition, patterns, hpartition, hp⟩
    · exact ih hp

/-! ### Cutting the patterns -/

/-- Where a part begins. -/
def shareStart (total count index : ℕ) : ℕ := index * (total / count) + min index (total % count)

/-- The next share begins behind this one. -/
theorem shareStart_succ (total count index : ℕ) :
    shareStart total count (index + 1) =
      shareStart total count index + share total count index := by
  unfold shareStart share
  rw [Nat.succ_mul]
  split <;> omega

/-- The last part ends where everything does. -/
theorem shareStart_count {count : ℕ} (hcount : 0 < count) (total : ℕ) :
    shareStart total count count = total := by
  have hmod := Nat.mod_lt total hcount
  have hdiv := Nat.div_add_mod total count
  unfold shareStart
  rw [Nat.min_eq_right (by omega)]
  exact hdiv

/-- Shares lie inside the total. -/
theorem shareStart_le {count index : ℕ} (hindex : index ≤ count) (hcount : 0 < count) (total : ℕ) :
    shareStart total count index ≤ total :=
  calc shareStart total count index ≤ shareStart total count count :=
        Nat.add_le_add (Nat.mul_le_mul_right _ hindex) (min_le_min_right _ hindex)
    _ = total := shareStart_count hcount total

/-- The loop compiles all patterns that are left, in order. -/
theorem compilePartitionsFrom_spec {patternCount partitionCount total remaining index : ℕ}
    (hcount : 0 < partitionCount) (hindex : index + remaining = partitionCount)
    {patterns : List HirPattern} {partitions : List MatcherPartition}
    (hlength : shareStart patternCount partitionCount index + patterns.length = patternCount)
    (h : compilePartitionsFrom patternCount partitionCount total remaining index patterns =
      .ok partitions) :
    ∃ groups, groups.flatten = patterns ∧
      List.Forall₂ MatcherPartition.CompiledFrom partitions groups := by
  -- the induction is on the partitions that are still to be compiled
  induction remaining generalizing index patterns partitions with
  | zero =>
    obtain rfl := Except.ok.inj h
    obtain rfl : index = partitionCount := hindex
    rw [shareStart_count hcount] at hlength
    -- all shares are given away, so no pattern is left
    have hempty : patterns = [] := List.eq_nil_of_length_eq_zero (by omega)
    exact ⟨[], hempty.symm, .nil⟩
  | succ remaining ih =>
    obtain ⟨database, hdatabase, h⟩ := bind_eq_ok.mp h
    obtain ⟨rest, hrest, h⟩ := bind_eq_ok.mp h
    obtain rfl := Except.ok.inj h
    -- the next share ends inside the patterns, so what follows is as long as the rest
    have hnext := shareStart_succ patternCount partitionCount index
    have hend := shareStart_le (by omega : index + 1 ≤ partitionCount) hcount patternCount
    obtain ⟨groups, hgroups, hcompiled⟩ := ih (by omega) (by rw [List.length_drop]; omega) hrest
    exact ⟨_ :: groups, by rw [List.flatten_cons, hgroups, List.take_append_drop],
      .cons ⟨hdatabase, rfl⟩ hcompiled⟩

/-- The partitions have all patterns, in order. -/
theorem compilePartitions_spec {patterns : List HirPattern} {workers budget : ℕ}
    (hpatterns : patterns ≠ []) (hworkers : workers ≠ 0) {partitions : List MatcherPartition}
    (h : compilePartitions patterns workers budget = .ok partitions) :
    ∃ groups, groups.flatten = patterns ∧
      List.Forall₂ MatcherPartition.CompiledFrom partitions groups := by
  have hpos := List.length_pos_of_ne_nil hpatterns
  refine compilePartitionsFrom_spec (by omega) (Nat.zero_add _) ?_ h
  simp [shareStart]

/-- A cut list loses and doubles nothing. -/
theorem partition_perm (patterns : List HirPattern) (test : HirPattern → Bool) :
    ((patterns.partition test).1 ++ (patterns.partition test).2).Perm patterns := by
  rw [List.partition_eq_filter_filter]
  exact List.filter_append_perm test patterns

namespace MatcherBuilder

variable {builder : MatcherBuilder} {matcher : Matcher}

/-- A matcher has the patterns of its builder, and its flags. -/
structure BuiltFrom (matcher : Matcher) (builder : MatcherBuilder)
    (groups : List (List HirPattern)) : Prop where
  /-- The groups have the patterns of the builder, each once. -/
  perm : groups.flatten.Perm builder.patterns
  /-- Every partition is compiled from its group. -/
  compiled : List.Forall₂ MatcherPartition.CompiledFrom matcher.partitions groups

/-- The build of one group has the patterns of the builder. -/
theorem buildWhole_spec {hpatterns : builder.patterns ≠ []} {hworkers : builder.workerCount ≠ 0}
    (h : builder.buildWhole hpatterns hworkers = .ok matcher) :
    ∃ groups, BuiltFrom matcher builder groups := by
  unfold buildWhole at h
  split at h
  next => cases h
  next partitions hpartitions =>
    obtain rfl := Except.ok.inj h
    obtain ⟨groups, hgroups, hcompiled⟩ := compilePartitions_spec hpatterns hworkers hpartitions
    exact ⟨groups, hgroups ▸ List.Perm.refl _, hcompiled⟩

/-- The build of two cohorts has the patterns of the builder. -/
theorem buildCohorts_spec {hpatterns : builder.patterns ≠ []} {hworkers : builder.workerCount ≠ 0}
    (h : builder.buildCohorts hpatterns hworkers = .ok matcher) :
    ∃ groups, BuiltFrom matcher builder groups := by
  unfold buildCohorts at h
  simp only at h
  split at h
  -- a cohort without patterns: the source builds one group of partitions
  next => exact buildWhole_spec h
  next hcohorts =>
    have hne : builder.cohorts.1 ≠ [] ∧ builder.cohorts.2 ≠ [] := by
      rw [not_or, List.length_eq_zero_iff, List.length_eq_zero_iff] at hcohorts
      exact hcohorts
    split at h
    next => cases h
    next freePartitions hfree =>
      split at h
      next => cases h
      next bearingPartitions hbearing =>
        obtain rfl := Except.ok.inj h
        -- every cohort gets a partition at least, so its patterns are all compiled
        obtain ⟨-, hfirst, hsecond⟩ := (cohortAllocation (builder.cohorts.1.length,
          builder.cohorts.2.length) (by simp only; omega) (by simp only; omega)
          builder.workerCount).property
        obtain ⟨groups, hgroups, hcompiled⟩ := compilePartitions_spec hne.1
          (Nat.pos_iff_ne_zero.mp hfirst) hfree
        obtain ⟨groups', hgroups', hcompiled'⟩ := compilePartitions_spec hne.2
          (Nat.pos_iff_ne_zero.mp hsecond) hbearing
        refine ⟨groups ++ groups', ?_, List.rel_append hcompiled hcompiled'⟩
        rw [List.flatten_append, hgroups, hgroups']
        exact partition_perm builder.patterns _

/-- A matcher has the patterns of its builder, each in one partition. -/
theorem build_spec (h : builder.build = .ok matcher) :
    ∃ groups, BuiltFrom matcher builder groups := by
  unfold build at h
  split at h
  next => cases h
  next =>
    split at h
    next => cases h
    next =>
      split at h
      next => exact buildCohorts_spec h
      next => exact buildWhole_spec h

end MatcherBuilder

end Rustmatch

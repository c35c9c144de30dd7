import Rustmatch.Matcher.Agreement

/-!
# Partitions tile the patterns and the budget

`compile_partitions` cuts the patterns into contiguous slices and the cache budget into parts, and
compiles slice by slice. When the patterns are split into two cohorts, each cohort gets a part of
the budget and cuts that part again; the parts of parts are the parts of one cut.

## Main definitions

* `partitionSlices`: the slices, each with its part of the budget.

## Main results

* `compilePartitions_eq_mapM`: the slices are compiled one by one;
* `flatten_slices`, `sum_shares`: the slices tile the patterns, and the parts the budget;
* `share_cohortCacheBudget`: two cuts are one;
* `partitions_tile_patterns_and_budget`: both, for builders.
-/

namespace Rustmatch

/-! ### Parts -/

/-- Shares differ by one at most. -/
theorem share_le_succ (total count index index' : ℕ) :
    share total count index ≤ share total count index' + 1 := by
  unfold share
  split <;> split <;> omega

/-- A part is empty only when there are more parts than things. -/
theorem share_pos {total count : ℕ} (hcount : 0 < count) (hle : count ≤ total) (index : ℕ) :
    0 < share total count index :=
  lt_of_lt_of_le (Nat.div_pos hle hcount) (Nat.le_add_right _ _)

/-- The parts before an index. -/
theorem sum_shares_range (total count n : ℕ) :
    ((List.range n).map (share total count)).sum = shareStart total count n := by
  induction n with
  | zero => simp [shareStart]
  | succ n ih =>
    rw [List.range_succ, List.map_append, List.sum_append, ih, List.map_singleton,
      List.sum_singleton, shareStart_succ]

/-- The parts add up to the whole. -/
theorem sum_shares {count : ℕ} (hcount : 0 < count) (total : ℕ) :
    ((List.range count).map (share total count)).sum = total := by
  rw [sum_shares_range, shareStart_count hcount]

section Slices

variable {α : Type}

/-- `&patterns[start..end]` of a partition. -/
def sliceAt (items : List α) (count index : ℕ) : List α :=
  (items.drop (shareStart items.length count index)).take (share items.length count index)

/-- A slice lies inside the list. -/
theorem length_sliceAt (items : List α) {count index : ℕ} (hindex : index < count) :
    (sliceAt items count index).length = share items.length count index := by
  have hend := shareStart_le (Nat.succ_le_of_lt hindex) (by omega) items.length
  rw [shareStart_succ] at hend
  unfold sliceAt
  rw [List.length_take, List.length_drop]
  omega

/-- The first slices are the beginning of the list. -/
theorem flatten_slices_range (items : List α) (count n : ℕ) :
    ((List.range n).map (sliceAt items count)).flatten =
      items.take (shareStart items.length count n) := by
  induction n with
  | zero => simp [shareStart]
  | succ n ih =>
    rw [List.range_succ, List.map_append, List.flatten_append, ih, List.map_singleton,
      List.flatten_singleton, shareStart_succ, List.take_add]
    rfl

/-- The slices are the list. -/
theorem flatten_slices (items : List α) {count : ℕ} (hcount : 0 < count) :
    ((List.range count).map (sliceAt items count)).flatten = items := by
  rw [flatten_slices_range, shareStart_count hcount, List.take_length]

end Slices

/-! ### Slices are compiled one by one -/

/-- One round of the loop of `compile_partitions`. -/
def compileSlice (slice : List HirPattern × ℕ) : Except Error MatcherPartition := do
  let database ← compile slice.1
  return ⟨database, Prefilter.compile slice.1 database, slice.2⟩

/-- The slices of the patterns with their parts of the budget. -/
def partitionSlices (patterns : List HirPattern) (count budget : ℕ) : List (List HirPattern × ℕ) :=
  (List.range count).map fun index => (sliceAt patterns count index, share budget count index)

/-- The loop compiles the slices that are left. -/
theorem compilePartitionsFrom_eq_mapM (patterns : List HirPattern) (count budget remaining : ℕ)
    (index : ℕ) :
    compilePartitionsFrom patterns.length count budget remaining index
        (patterns.drop (shareStart patterns.length count index)) =
      ((List.range' index remaining).map fun index =>
        (sliceAt patterns count index, share budget count index)).mapM compileSlice := by
  induction remaining generalizing index with
  | zero => rfl
  | succ remaining ih =>
    rw [List.range'_succ, List.map_cons, List.mapM_cons, ← ih (index + 1), shareStart_succ,
      compilePartitionsFrom, List.drop_drop]
    unfold compileSlice sliceAt
    simp only [bind_assoc, pure_bind]

/-- `compile_partitions` compiles its slices one by one. -/
theorem compilePartitions_eq_mapM (patterns : List HirPattern) (workers budget : ℕ) :
    compilePartitions patterns workers budget =
      (partitionSlices patterns (min workers patterns.length) budget).mapM compileSlice := by
  have hall := compilePartitionsFrom_eq_mapM patterns (min workers patterns.length) budget
    (min workers patterns.length) 0
  have hstart : shareStart patterns.length (min workers patterns.length) 0 = 0 := by
    simp [shareStart]
  rw [hstart, List.drop_zero, ← List.range_eq_range'] at hall
  exact hall

/-- Compiled slices keep their parts of the budget. -/
theorem budgets_of_mapM {slices : List (List HirPattern × ℕ)} {partitions : List MatcherPartition}
    (h : slices.mapM compileSlice = .ok partitions) :
    partitions.map MatcherPartition.stateCacheBudget = slices.map Prod.snd := by
  induction slices generalizing partitions with
  | nil =>
    obtain rfl := Except.ok.inj h
    rfl
  | cons slice slices ih =>
    rw [List.mapM_cons] at h
    obtain ⟨partition, hpartition, h⟩ := bind_eq_ok.mp h
    obtain ⟨rest, hrest, h⟩ := bind_eq_ok.mp h
    obtain rfl := Except.ok.inj h
    obtain ⟨database, -, hpartition⟩ := bind_eq_ok.mp hpartition
    obtain rfl := Except.ok.inj hpartition
    rw [List.map_cons, List.map_cons, ih hrest]

/-- The budgets of compiled partitions are the parts of the budget. -/
theorem budgets_of_compilePartitions {patterns : List HirPattern} {workers budget : ℕ}
    {partitions : List MatcherPartition}
    (h : compilePartitions patterns workers budget = .ok partitions) :
    partitions.map MatcherPartition.stateCacheBudget =
      (List.range (min workers patterns.length)).map
        (share budget (min workers patterns.length)) := by
  rw [compilePartitions_eq_mapM] at h
  rw [budgets_of_mapM h, partitionSlices, List.map_map]
  rfl

/-! ### Two cuts are one -/

/-- The part of the budget that a cohort gets: nothing saturates. -/
theorem cohortCacheBudget_eq {budget total start count : ℕ} (hfits : start + count ≤ total)
    (hbudget : budget ≤ usizeMax) :
    cohortCacheBudget budget total start count =
      budget / total * count + min (budget % total - start) count := by
  have hdiv := Nat.div_add_mod budget total
  have hmul : budget / total * count ≤ budget / total * total :=
    Nat.mul_le_mul_left _ (by omega)
  rw [Nat.mul_comm] at hdiv
  unfold cohortCacheBudget saturatingAdd saturatingMul
  dsimp only
  omega

/-- A part of the cohort's part is the part of the whole at the same place. -/
theorem share_cohortCacheBudget {budget total start count index : ℕ}
    (hfits : start + count ≤ total) (hbudget : budget ≤ usizeMax) (hindex : index < count) :
    share (cohortCacheBudget budget total start count) count index =
      share budget total (start + index) := by
  have hcount : 0 < count := by omega
  rw [cohortCacheBudget_eq hfits hbudget]
  unfold share
  obtain hlt | hall := lt_or_ge (budget % total - start) count
  · -- the larger parts end inside this cohort
    have hextra : min (budget % total - start) count = budget % total - start :=
      Nat.min_eq_left hlt.le
    have hdiv : (budget / total * count + (budget % total - start)) / count = budget / total := by
      rw [Nat.add_comm, Nat.add_mul_div_right _ _ hcount, Nat.div_eq_of_lt hlt, Nat.zero_add]
    have hmod : (budget / total * count + (budget % total - start)) % count =
        budget % total - start := by
      rw [Nat.add_comm, Nat.add_mul_mod_self_right, Nat.mod_eq_of_lt hlt]
    have hiff : index < budget % total - start ↔ start + index < budget % total := by omega
    rw [hextra, hdiv, hmod]
    simp only [hiff]
  · -- all parts of this cohort are larger
    have hextra : min (budget % total - start) count = count := Nat.min_eq_right hall
    have hdiv : (budget / total * count + count) / count = budget / total + 1 := by
      rw [← Nat.succ_mul, Nat.mul_div_cancel _ hcount]
    have hmod : (budget / total * count + count) % count = 0 := by
      rw [← Nat.succ_mul, Nat.mul_mod_left]
    have hlarge : start + index < budget % total := by omega
    rw [hextra, hdiv, hmod, if_neg (Nat.not_lt_zero index), if_pos hlarge]

/-- The parts of both cohorts, one after the other, are the parts of one cut. -/
theorem shares_cohortCacheBudget {budget : ℕ} (hbudget : budget ≤ usizeMax) (first second : ℕ) :
    (List.range first).map
          (share (cohortCacheBudget budget (first + second) 0 first) first) ++
        (List.range second).map
          (share (cohortCacheBudget budget (first + second) first second) second) =
      (List.range (first + second)).map (share budget (first + second)) := by
  rw [List.range_add, List.map_append, List.map_map]
  congr 1
  · refine List.map_congr_left fun index hindex => ?_
    rw [share_cohortCacheBudget (by omega) hbudget (List.mem_range.mp hindex), Nat.zero_add]
  · refine List.map_congr_left fun index hindex => ?_
    exact share_cohortCacheBudget (le_refl _) hbudget (List.mem_range.mp hindex)

/-! ### Builders -/

/-- The budgets of a matcher with two cohorts are the parts of one cut. -/
theorem MatcherBuilder.budgets_of_buildCohorts {builder : MatcherBuilder} {matcher : Matcher}
    {hpatterns : builder.patterns ≠ []} {hworkers : builder.workerCount ≠ 0}
    (hfree : builder.cohorts.1 ≠ []) (hbearing : builder.cohorts.2 ≠ [])
    (hbudget : builder.stateCacheBudget ≤ usizeMax)
    (h : builder.buildCohorts hpatterns hworkers = .ok matcher) :
    matcher.partitions.map MatcherPartition.stateCacheBudget =
      (List.range matcher.partitions.length).map
        (share builder.stateCacheBudget matcher.partitions.length) := by
  unfold buildCohorts at h
  simp only at h
  split at h
  next hsingle =>
    rw [List.length_eq_zero_iff, List.length_eq_zero_iff] at hsingle
    exact absurd hsingle (not_or.mpr ⟨hfree, hbearing⟩)
  next hcohorts =>
    obtain ⟨first, second, heq, hfirst, hsecond, -⟩ := @allocateCohortPartitions_spec
      (builder.cohorts.1.length, builder.cohorts.2.length) (by simp only; omega)
      (by simp only; omega) builder.workerCount
    -- the allocation of the builder is the one that the loop finds
    have hallocation := Option.some.inj (heq.symm.trans (cohortAllocation
      (builder.cohorts.1.length, builder.cohorts.2.length) (by simp only; omega)
      (by simp only; omega) builder.workerCount).property.1)
    simp only at hfirst hsecond
    split at h
    next => cases h
    next freePartitions hfreePartitions =>
      split at h
      next => cases h
      next bearingPartitions hbearingPartitions =>
        obtain rfl := Except.ok.inj h
        have hlength := length_of_compilePartitions hfreePartitions
        have hlength' := length_of_compilePartitions hbearingPartitions
        have hbudgets := budgets_of_compilePartitions hfreePartitions
        have hbudgets' := budgets_of_compilePartitions hbearingPartitions
        rw [← hallocation] at hlength hlength' hbudgets hbudgets'
        rw [Nat.min_eq_left hfirst.2] at hlength hbudgets
        rw [Nat.min_eq_left hsecond.2] at hlength' hbudgets'
        show (freePartitions ++ bearingPartitions).map _ =
          (List.range (freePartitions ++ bearingPartitions).length).map
            (share _ (freePartitions ++ bearingPartitions).length)
        rw [List.length_append, hlength, hlength', List.map_append, hbudgets, hbudgets']
        exact shares_cohortCacheBudget hbudget first second

/-- What `build_matcher` makes of two cohorts that both have patterns. -/
structure MatcherBuilder.MixedBuild (builder : MatcherBuilder) (matcher : Matcher)
    (first second : ℕ) (freePartitions bearingPartitions : List MatcherPartition) : Prop where
  /-- The seats are those that the apportionment gives to the cohorts. -/
  allocation_eq : allocateCohortPartitions (builder.cohorts.1.length, builder.cohorts.2.length)
    builder.workerCount = some (first, second)
  /-- The first cohort has a seat, and no more seats than patterns. -/
  first_le : 1 ≤ first ∧ first ≤ builder.cohorts.1.length
  /-- So has the second. -/
  second_le : 1 ≤ second ∧ second ≤ builder.cohorts.2.length
  /-- The seats are as many as the workers, two at least and no more than the patterns. -/
  sum_eq : first + second =
    min (max builder.workerCount 2) (builder.cohorts.1.length + builder.cohorts.2.length)
  /-- The partitions of the first cohort are compiled with its share of the budget. -/
  free_eq : compilePartitions builder.cohorts.1 first
    (cohortCacheBudget builder.stateCacheBudget (first + second) 0 first) = .ok freePartitions
  /-- The partitions of the second cohort are compiled with the rest. -/
  bearing_eq : compilePartitions builder.cohorts.2 second
    (cohortCacheBudget builder.stateCacheBudget (first + second) first second) =
      .ok bearingPartitions
  /-- The partitions of the first cohort come first. -/
  partitions_eq : matcher.partitions = freePartitions ++ bearingPartitions
  /-- The split stands behind them. -/
  split_eq : matcher.splitPartition = some freePartitions.length
  /-- The matcher remembers the workers that were asked for. -/
  workers_eq : matcher.requestedWorkerCount = builder.workerCount

namespace MatcherBuilder

variable {builder : MatcherBuilder} {matcher : Matcher} {hpatterns : builder.patterns ≠ []}
  {hworkers : builder.workerCount ≠ 0}

/-- A cohort that has all patterns is compiled as if there were no cohorts. -/
theorem buildCohorts_of_single
    (hsingle : builder.cohorts.1.length = 0 ∨ builder.cohorts.2.length = 0) :
    builder.buildCohorts hpatterns hworkers = builder.buildWhole hpatterns hworkers := by
  unfold buildCohorts
  simp only
  rw [dif_pos hsingle]

/-- Cohorts that both have patterns are built from their seats. -/
theorem exists_mixedBuild
    (hmixed : ¬ (builder.cohorts.1.length = 0 ∨ builder.cohorts.2.length = 0))
    (h : builder.buildCohorts hpatterns hworkers = .ok matcher) :
    ∃ first second freePartitions bearingPartitions,
      builder.MixedBuild matcher first second freePartitions bearingPartitions := by
  obtain ⟨first, second, heq, hfirst, hsecond, hsum⟩ := @allocateCohortPartitions_spec
    (builder.cohorts.1.length, builder.cohorts.2.length) (by simp only; omega)
    (by simp only; omega) builder.workerCount
  -- the allocation of the builder is the one that the loop finds
  have hallocation := Option.some.inj (heq.symm.trans (cohortAllocation
    (builder.cohorts.1.length, builder.cohorts.2.length) (by simp only; omega)
    (by simp only; omega) builder.workerCount).property.1)
  unfold buildCohorts at h
  simp only at h
  rw [dif_neg hmixed] at h
  split at h
  next => cases h
  next freePartitions hfreePartitions =>
    split at h
    next => cases h
    next bearingPartitions hbearingPartitions =>
      obtain rfl := Except.ok.inj h
      rw [← hallocation] at hfreePartitions hbearingPartitions
      exact ⟨first, second, freePartitions, bearingPartitions, heq, hfirst, hsecond, hsum,
        hfreePartitions, hbearingPartitions, rfl, rfl, rfl⟩

/-- The cohorts have as many partitions as were allocated to them. -/
theorem MixedBuild.lengths {first second : ℕ}
    {freePartitions bearingPartitions : List MatcherPartition}
    (h : builder.MixedBuild matcher first second freePartitions bearingPartitions) :
    freePartitions.length = first ∧ bearingPartitions.length = second := by
  rw [length_of_compilePartitions h.free_eq, length_of_compilePartitions h.bearing_eq]
  exact ⟨Nat.min_eq_left h.first_le.2, Nat.min_eq_left h.second_le.2⟩

end MatcherBuilder

/-- Patterns are cut into nonempty contiguous slices of nearly the same size, as many as there are
workers or patterns, and compiled slice by slice; the parts of the budget add up to it. When there
are two cohorts, the budgets of their partitions are the parts of one cut of the whole budget. -/
theorem partitions_tile_patterns_and_budget :
    (∀ patterns : List HirPattern, patterns ≠ [] → ∀ workers, 1 ≤ workers → ∀ budget,
      ∃ slices : List (List HirPattern × ℕ),
        compilePartitions patterns workers budget = slices.mapM compileSlice ∧
        slices.length = min workers patterns.length ∧
        (∀ slice ∈ slices, slice.1 ≠ []) ∧
        (slices.map Prod.fst).flatten = patterns ∧
        (∀ slice ∈ slices, ∀ other ∈ slices, slice.1.length ≤ other.1.length + 1) ∧
        (slices.map Prod.snd).sum = budget) ∧
    (∀ budget ≤ usizeMax, ∀ first second,
      (List.range first).map
            (share (cohortCacheBudget budget (first + second) 0 first) first) ++
          (List.range second).map
            (share (cohortCacheBudget budget (first + second) first second) second) =
        (List.range (first + second)).map (share budget (first + second))) ∧
    ∀ (builder : MatcherBuilder) (matcher : Matcher), builder.cohortCompilationEnabled = true →
      builder.cohorts.1 ≠ [] → builder.cohorts.2 ≠ [] → builder.stateCacheBudget ≤ usizeMax →
      builder.build = .ok matcher →
        matcher.partitions.map MatcherPartition.stateCacheBudget =
          (List.range matcher.partitions.length).map
            (share builder.stateCacheBudget matcher.partitions.length) := by
  refine ⟨fun patterns hpatterns workers hworkers budget => ?_,
    fun budget hbudget first second => shares_cohortCacheBudget hbudget first second,
    fun builder matcher henabled hfree hbearing hbudget h => ?_⟩
  · have hpos := List.length_pos_of_ne_nil hpatterns
    have hcount : 0 < min workers patterns.length := by omega
    -- the slice with a number is as long as its share
    have hmem : ∀ slice ∈ partitionSlices patterns (min workers patterns.length) budget,
        ∃ index, slice.1.length = share patterns.length (min workers patterns.length) index := by
      intro slice hslice
      obtain ⟨index, hindex, rfl⟩ := List.mem_map.mp hslice
      exact ⟨index, length_sliceAt patterns (List.mem_range.mp hindex)⟩
    refine ⟨_, compilePartitions_eq_mapM patterns workers budget, ?_, fun slice hslice => ?_, ?_,
      fun slice hslice other hother => ?_, ?_⟩
    · rw [partitionSlices, List.length_map, List.length_range]
    · obtain ⟨index, hlength⟩ := hmem slice hslice
      refine List.ne_nil_of_length_pos ?_
      rw [hlength]
      exact share_pos hcount (Nat.min_le_right _ _) index
    · rw [partitionSlices, List.map_map]
      exact flatten_slices patterns hcount
    · obtain ⟨index, hlength⟩ := hmem slice hslice
      obtain ⟨index', hlength'⟩ := hmem other hother
      rw [hlength, hlength']
      exact share_le_succ _ _ _ _
    · rw [partitionSlices, List.map_map]
      exact sum_shares hcount budget
  -- both cohorts have patterns, so the build is one of cohorts
  · unfold MatcherBuilder.build at h
    split at h
    next => cases h
    next =>
      split at h
      next => cases h
      next =>
        exact MatcherBuilder.budgets_of_buildCohorts hfree hbearing hbudget h

/-- The budget of two cohorts is cut like that of one group. -/
theorem partitions_tile_patterns_and_budget_mixedBuilder : ∃ matcher,
    (mixedBuilder.setCohortCompilationEnabled true).build = .ok matcher ∧
      matcher.partitions.map MatcherPartition.stateCacheBudget =
        (List.range matcher.partitions.length).map
          (share defaultStateCacheBudget matcher.partitions.length) := by
  have hbuild : ∃ matcher, (mixedBuilder.setCohortCompilationEnabled true).build = .ok matcher :=
    ⟨_, rfl⟩
  obtain ⟨matcher, h⟩ := hbuild
  exact ⟨matcher, h, partitions_tile_patterns_and_budget.2.2
    (mixedBuilder.setCohortCompilationEnabled true) matcher rfl (List.cons_ne_nil _ _)
    (List.cons_ne_nil _ _) (by decide) h⟩

/-- Seven states of a budget for three partitions of two cohorts: three, two and two. -/
example :
    (List.range 2).map (share (cohortCacheBudget 7 3 0 2) 2) ++
      (List.range 1).map (share (cohortCacheBudget 7 3 2 1) 1) = [3, 2, 2] := by
  decide

end Rustmatch

import Rustmatch.Matcher.Partitions
import Rustmatch.Nfa.Sizes

/-!
# How large a matcher is

Every partition of a matcher has a root of its own and its own table of classes; besides that it is
no matter of size into how many partitions a set of patterns is cut. A part of a set is never larger
than the set, so that more workers, or cohorts, never make a build fail.

## Main definitions

* `Matcher.footprint`: the states of all partitions, and the classes of any of them.

## Main results

* `builds_fit`: the size of a matcher, and the errors of a build.
-/

namespace Rustmatch

/-- The states of all partitions, and the classes that have an id in some of them. -/
def Matcher.footprint (matcher : Matcher) : Footprint :=
  (matcher.partitions.map fun partition => partition.database.footprint).sum

/-! ### Parts of sets -/

/-- The order of the patterns is no matter of size. -/
theorem patternSetFootprint_perm {patterns others : List HirPattern} (h : patterns.Perm others)
    (roots : ℕ) : patternSetFootprint roots patterns = patternSetFootprint roots others := by
  rw [patternSetFootprint_eq, patternSetFootprint_eq,
    List.Perm.sum_eq (h.map HirPattern.footprint)]

/-- A part of a set fits if the set does. -/
theorem fits_of_sublist {patterns part : List HirPattern} (h : part.Sublist patterns)
    {roots : ℕ} (hfits : (patternSetFootprint roots patterns).Fits) :
    (patternSetFootprint roots part).Fits := by
  obtain ⟨rest, hperm⟩ := h.exists_perm_append
  rw [patternSetFootprint_perm hperm, patternSetFootprint_eq, List.map_append, List.sum_append,
    ← add_assoc, ← patternSetFootprint_eq] at hfits
  exact Compilation.meter.fits_of_add hfits

/-- The partitions of a set are as large as the set, with a root each. -/
theorem sum_footprint {partitions : List MatcherPartition} {groups : List (List HirPattern)}
    (h : List.Forall₂ MatcherPartition.CompiledFrom partitions groups) :
    (partitions.map fun partition => partition.database.footprint).sum =
      patternSetFootprint partitions.length groups.flatten := by
  rw [patternSetFootprint_eq]
  induction h with
  | nil => rfl
  | @cons partition patterns partitions groups hpartition _ ih =>
    have hone : partition.database.footprint =
        ⟨1, ∅⟩ + (patterns.map HirPattern.footprint).sum := by
      have hallocates := allocates_compile patterns
      rw [hpartition.1, patternSetFootprint_eq] at hallocates
      cases hallocates with
      | ok hfits heq hnodup => exact heq
    have hroots : (⟨(partition :: partitions).length, ∅⟩ : Footprint) =
        ⟨1, ∅⟩ + ⟨partitions.length, ∅⟩ :=
      Footprint.ext (Nat.add_comm _ _) rfl
    rw [List.map_cons, List.sum_cons, ih, hone, List.flatten_cons, List.map_append,
      List.sum_append, hroots, add_add_add_comm]

/-! ### Partitions that do not fit -/

/-- A slice that does not compile is too large. -/
theorem error_of_mapM_compileSlice {cut : List (List HirPattern × ℕ)} {e : Error}
    (h : cut.mapM compileSlice = .error e) :
    e = .patternSetTooLarge ∧ ∃ slice ∈ cut, ¬ (patternSetFootprint 1 slice.1).Fits := by
  induction cut with
  | nil => cases h
  | cons slice cut ih =>
    have hallocates := allocates_compile slice.1
    rw [List.mapM_cons] at h
    cases hslice : compile slice.1 with
    | error e' =>
      have hfirst : compileSlice slice = .error e' := by
        rw [compileSlice, hslice]
        rfl
      rw [hfirst] at h
      obtain rfl := Except.error.inj h
      rw [hslice] at hallocates
      cases hallocates with
      | error hfits => exact ⟨rfl, slice, List.mem_cons_self, hfits⟩
    | ok database =>
      have hfirst : compileSlice slice = .ok ⟨database, Prefilter.compile slice.1 database,
          slice.2⟩ := by
        rw [compileSlice, hslice]
        rfl
      rw [hfirst] at h
      cases hrest : cut.mapM compileSlice with
      | ok partitions =>
        rw [hrest] at h
        cases h
      | error e' =>
        rw [hrest] at h
        obtain rfl := Except.error.inj h
        obtain ⟨he, slice', hslice', hfits⟩ := ih hrest
        exact ⟨he, slice', List.mem_cons_of_mem _ hslice', hfits⟩

/-- Partitions of patterns that do not compile have too many patterns to start with. -/
theorem error_of_compilePartitions {patterns : List HirPattern} {workers budget : ℕ} {e : Error}
    (h : compilePartitions patterns workers budget = .error e) :
    e = .patternSetTooLarge ∧ ¬ (patternSetFootprint 1 patterns).Fits := by
  rw [compilePartitions_eq_mapM] at h
  obtain ⟨he, slice, hslice, hfits⟩ := error_of_mapM_compileSlice h
  obtain ⟨index, -, rfl⟩ := List.mem_map.mp hslice
  refine ⟨he, fun hall => hfits (fits_of_sublist ?_ hall)⟩
  exact (List.take_sublist _ _).trans (List.drop_sublist _ _)

namespace MatcherBuilder

variable {builder : MatcherBuilder} {hpatterns : builder.patterns ≠ []}
  {hworkers : builder.workerCount ≠ 0} {e : Error}

/-- The build of one group fails when the ids run out. -/
theorem error_of_buildWhole (h : builder.buildWhole hpatterns hworkers = .error e) :
    e = .patternSetTooLarge ∧ ¬ (patternSetFootprint 1 builder.patterns).Fits := by
  unfold buildWhole at h
  split at h
  next e' herror =>
    obtain rfl := Except.error.inj h
    exact error_of_compilePartitions herror
  next => cases h

/-- The build of two cohorts fails when the ids run out. -/
theorem error_of_buildCohorts (h : builder.buildCohorts hpatterns hworkers = .error e) :
    e = .patternSetTooLarge ∧ ¬ (patternSetFootprint 1 builder.patterns).Fits := by
  -- a cohort is a part of the patterns
  have hcohorts : builder.cohorts.1.Sublist builder.patterns ∧
      builder.cohorts.2.Sublist builder.patterns := by
    rw [cohorts, List.partition_eq_filter_filter]
    exact ⟨List.filter_sublist, List.filter_sublist⟩
  unfold buildCohorts at h
  simp only at h
  split at h
  next => exact error_of_buildWhole h
  next =>
    split at h
    next e' herror =>
      obtain rfl := Except.error.inj h
      obtain ⟨he, hfits⟩ := error_of_compilePartitions herror
      exact ⟨he, fun hall => hfits (fits_of_sublist hcohorts.1 hall)⟩
    next =>
      split at h
      next e' herror =>
        obtain rfl := Except.error.inj h
        obtain ⟨he, hfits⟩ := error_of_compilePartitions herror
        exact ⟨he, fun hall => hfits (fits_of_sublist hcohorts.2 hall)⟩
      next => cases h

/-- One worker compiles all patterns at once. -/
theorem fits_of_buildWhole {matcher : Matcher} (hone : builder.workerCount = 1)
    (h : builder.buildWhole hpatterns hworkers = .ok matcher) :
    (patternSetFootprint 1 builder.patterns).Fits := by
  unfold buildWhole at h
  split at h
  next => cases h
  next partitions hpartitions =>
    obtain ⟨groups, hgroups, hcompiled⟩ := compilePartitions_spec hpatterns hworkers hpartitions
    have hlength := length_of_compilePartitions hpartitions
    have hpos := List.length_pos_of_ne_nil hpatterns
    rw [hone, Nat.min_eq_left hpos, hcompiled.length_eq] at hlength
    obtain ⟨group, rfl⟩ := List.length_eq_one_iff.mp hlength
    rw [List.flatten_singleton] at hgroups
    -- the one partition was compiled from all patterns
    cases hcompiled with
    | cons hpartition _ =>
      have hallocates := allocates_compile group
      rw [hpartition.1, hgroups] at hallocates
      cases hallocates with
      | ok hfits heq hnodup => exact hfits

/-- A set that is too large for one worker. -/
theorem build_eq_error (hpatterns : builder.patterns ≠ []) (hone : builder.workerCount = 1)
    (hcohorts : builder.cohortCompilationEnabled = false)
    (hfits : ¬ (patternSetFootprint 1 builder.patterns).Fits) :
    builder.build = .error .patternSetTooLarge := by
  have hworkers : builder.workerCount ≠ 0 := by omega
  unfold build
  rw [dif_neg hpatterns, dif_neg hworkers, hcohorts]
  show builder.buildWhole hpatterns hworkers = _
  cases hwhole : builder.buildWhole hpatterns hworkers with
  | ok matcher => exact absurd (fits_of_buildWhole hone hwhole) hfits
  | error e => rw [(error_of_buildWhole hwhole).1]

/-- There are three ways for a build to fail. -/
theorem error_of_build (h : builder.build = .error e) :
    builder.patterns = [] ∧ e = .noPatterns ∨
    builder.patterns ≠ [] ∧ builder.workerCount = 0 ∧ e = .invalidWorkerCount ∨
    builder.patterns ≠ [] ∧ e = .patternSetTooLarge ∧
      ¬ (patternSetFootprint 1 builder.patterns).Fits := by
  unfold build at h
  split at h
  next hpatterns => exact Or.inl ⟨hpatterns, (Except.error.inj h).symm⟩
  next hpatterns =>
    split at h
    next hworkers => exact Or.inr (Or.inl ⟨hpatterns, hworkers, (Except.error.inj h).symm⟩)
    next hworkers =>
      refine Or.inr (Or.inr ⟨hpatterns, ?_⟩)
      split at h
      next => exact error_of_buildCohorts h
      next => exact error_of_buildWhole h

/-- What one worker compiles at once, more workers and cohorts compile too. -/
theorem exists_build {builder' : MatcherBuilder} {matcher : Matcher}
    (hone : builder.workerCount = 1) (hcohorts : builder.cohortCompilationEnabled = false)
    (h : builder.build = .ok matcher) (hsame : builder'.patterns = builder.patterns)
    (hworkers' : builder'.workerCount ≠ 0) : ∃ matcher', builder'.build = .ok matcher' := by
  have hfits : builder.patterns ≠ [] ∧ (patternSetFootprint 1 builder.patterns).Fits := by
    unfold build at h
    split at h
    next => cases h
    next hpatterns =>
      split at h
      next => cases h
      next hworkers =>
        rw [hcohorts] at h
        exact ⟨hpatterns, @fits_of_buildWhole builder hpatterns hworkers matcher hone h⟩
  cases hbuild : builder'.build with
  | ok matcher' => exact ⟨matcher', rfl⟩
  | error e' =>
    obtain ⟨hnone, -⟩ | ⟨-, hzero, -⟩ | ⟨-, -, hlarge⟩ := error_of_build hbuild
    · exact absurd (hsame.symm.trans hnone) hfits.1
    · exact absurd hzero hworkers'
    · exact absurd hfits.2 (hsame ▸ hlarge)

/-- A matcher has the states and the classes of its patterns, and a root for every partition. A
build fails only for want of patterns, of workers, or of ids; and if ids are wanting, then also with
one worker and without cohorts. -/
theorem builds_fit (builder : MatcherBuilder) :
    (∀ matcher, builder.build = .ok matcher →
      matcher.footprint = patternSetFootprint matcher.partitions.length builder.patterns) ∧
    ∀ e, builder.build = .error e →
      builder.patterns = [] ∧ e = .noPatterns ∨
      builder.patterns ≠ [] ∧ builder.workerCount = 0 ∧ e = .invalidWorkerCount ∨
      e = .patternSetTooLarge ∧
        ((builder.setWorkerCount 1).setCohortCompilationEnabled false).build =
          .error .patternSetTooLarge := by
  refine ⟨fun matcher h => ?_, fun e h => ?_⟩
  · obtain ⟨groups, hbuilt⟩ := build_spec h
    rw [Matcher.footprint, sum_footprint hbuilt.compiled]
    exact patternSetFootprint_perm hbuilt.perm _
  · obtain hnone | hworkers | ⟨hpatterns, he, hfits⟩ := error_of_build h
    · exact Or.inl hnone
    · exact Or.inr (Or.inl hworkers)
    · -- with one worker, the patterns are compiled at once, and they do not fit
      exact Or.inr (Or.inr ⟨he, build_eq_error hpatterns rfl rfl hfits⟩)

end MatcherBuilder

end Rustmatch

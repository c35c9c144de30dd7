import Rustmatch.Matcher
import Rustmatch.ToMathlib.Apportionment

/-!
# How workers are shared out

`allocate_cohort_partitions` with every sum, product and expectation checked. The loop gives one
partition at a time to the cohort with the most patterns for each of its partitions, so what comes
out is an apportionment by highest averages.

## Main definitions

* `allocateCohortPartitionsChecked`: the function, where a step that overflows or finds no cohort is
  `none`.

## Main results

* `allocateFrom_highestAverages`: the apportionment along the loop;
* `cohort_apportionment_is_proportional`: what the function returns.
-/

open Apportionment

namespace Rustmatch

/-- A product in `u128`. -/
def checkedMul128 (a b : ℕ) : Option ℕ := if a * b < 2 ^ 128 then some (a * b) else none

/-- The selection of `max_by`, with both pressures in `u128`. -/
def selectCohortChecked (patternCounts allocations : ℕ × ℕ) : Option Bool :=
  if allocations.1 < patternCounts.1 then
    if allocations.2 < patternCounts.2 then do
      let leftPressure ← checkedMul128 patternCounts.1 allocations.2
      let rightPressure ← checkedMul128 patternCounts.2 allocations.1
      return leftPressure < rightPressure
    else some false
  else if allocations.2 < patternCounts.2 then some true else none

/-- The loop of `allocate_cohort_partitions`. -/
def allocateWhile (patternCounts : ℕ × ℕ) (target : ℕ) (allocations : ℕ × ℕ) : Option (ℕ × ℕ) :=
  if allocations.1 + allocations.2 < target then
    match selectCohortChecked patternCounts allocations with
    | some false => allocateWhile patternCounts target (allocations.1 + 1, allocations.2)
    | some true => allocateWhile patternCounts target (allocations.1, allocations.2 + 1)
    | none => none
  else some allocations
termination_by target - (allocations.1 + allocations.2)

/-- `allocate_cohort_partitions`. -/
def allocateCohortPartitionsChecked (patternCounts : ℕ × ℕ) (requestedWorkerCount : ℕ) :
    Option (ℕ × ℕ) := do
  let totalPatterns ← checkedAdd patternCounts.1 patternCounts.2
  allocateWhile patternCounts (min (max requestedWorkerCount 2) totalPatterns) (1, 1)

/-! ### No step faults -/

section Loop

variable {patternCounts allocations : ℕ × ℕ}

/-- Two machine words have a product of 128 bits. -/
theorem checkedMul128_eq_some {a b : ℕ} (ha : a ≤ usizeMax) (hb : b ≤ usizeMax) :
    checkedMul128 a b = some (a * b) := by
  have hlargest : usizeMax * usizeMax < 2 ^ 128 := by decide
  exact if_pos (lt_of_le_of_lt (Nat.mul_le_mul ha hb) hlargest)

/-- No product of the comparison overflows. -/
theorem selectCohortChecked_eq (hfirst : patternCounts.1 ≤ usizeMax)
    (hsecond : patternCounts.2 ≤ usizeMax) :
    selectCohortChecked patternCounts allocations = selectCohort patternCounts allocations := by
  unfold selectCohortChecked selectCohort
  split
  next hroom =>
    split
    next hroom' =>
      rw [checkedMul128_eq_some hfirst (hroom'.le.trans hsecond),
        checkedMul128_eq_some hsecond (hroom.le.trans hfirst)]
      rfl
    next => rfl
  next => rfl

/-- The loop runs until the target is reached. -/
theorem allocateWhile_eq (hfirst : patternCounts.1 ≤ usizeMax)
    (hsecond : patternCounts.2 ≤ usizeMax) (target : ℕ) (allocations : ℕ × ℕ) :
    allocateWhile patternCounts target allocations =
      allocateFrom patternCounts (target - (allocations.1 + allocations.2)) allocations := by
  obtain ⟨remaining, hremaining⟩ : ∃ remaining,
      target - (allocations.1 + allocations.2) = remaining := ⟨_, rfl⟩
  -- the loop runs as often as partitions are missing
  induction remaining generalizing allocations with
  | zero =>
    have hdone : ¬ allocations.1 + allocations.2 < target := by omega
    rw [hremaining, allocateWhile, if_neg hdone, allocateFrom]
  | succ remaining ih =>
    have hmore : allocations.1 + allocations.2 < target := by omega
    have hleft : target - (allocations.1 + 1 + allocations.2) = remaining := by omega
    have hleft' : target - (allocations.1 + (allocations.2 + 1)) = remaining := by omega
    have hnext := ih (allocations.1 + 1, allocations.2) hleft
    have hnext' := ih (allocations.1, allocations.2 + 1) hleft'
    rw [hleft] at hnext
    rw [hleft'] at hnext'
    rw [hremaining, allocateWhile, if_pos hmore, allocateFrom,
      selectCohortChecked_eq hfirst hsecond]
    cases selectCohort patternCounts allocations with
    | none => rfl
    | some second =>
      cases second with
      | false => exact hnext
      | true => exact hnext'

/-! ### Proportions -/

/-- A pair as a family over the two cohorts. -/
def cohortOf (pair : ℕ × ℕ) (second : Bool) : ℕ := if second then pair.2 else pair.1

/-- The selected cohort has room, and no cohort with room has more patterns for each of its
partitions. -/
theorem selectCohort_most {second : Bool}
    (h : selectCohort patternCounts allocations = some second) :
    cohortOf allocations second < cohortOf patternCounts second ∧
      ∀ other, other ≠ second → cohortOf allocations other < cohortOf patternCounts other →
        cohortOf patternCounts other * cohortOf allocations second ≤
          cohortOf patternCounts second * cohortOf allocations other := by
  unfold selectCohort at h
  split at h
  next hroom =>
    split at h
    -- with room in both cohorts the pressures are compared
    next hroom' =>
      have hpressure := Option.some.inj h
      cases second with
      | false =>
        have hle := not_lt.mp (of_decide_eq_false hpressure)
        refine ⟨hroom, fun other hne _ => ?_⟩
        obtain rfl : other = true := Bool.eq_true_of_not_eq_false hne
        exact hle
      | true =>
        have hlt := of_decide_eq_true hpressure
        refine ⟨hroom', fun other hne _ => ?_⟩
        obtain rfl : other = false := Bool.eq_false_of_not_eq_true hne
        exact hlt.le
    -- the other cohort has no room, so it has no claim
    next hfull =>
      obtain rfl := Option.some.inj h
      refine ⟨hroom, fun other hne hother => ?_⟩
      obtain rfl : other = true := Bool.eq_true_of_not_eq_false hne
      exact absurd hother hfull
  next hfull =>
    split at h
    next hroom' =>
      obtain rfl := Option.some.inj h
      refine ⟨hroom', fun other hne hother => ?_⟩
      obtain rfl : other = false := Bool.eq_false_of_not_eq_true hne
      exact absurd hother hfull
    next => cases h

/-- One more partition for a cohort. -/
theorem cohortOf_grow (allocations : ℕ × ℕ) :
    cohortOf (allocations.1 + 1, allocations.2) =
        Function.update (cohortOf allocations) false (cohortOf allocations false + 1) ∧
      cohortOf (allocations.1, allocations.2 + 1) =
        Function.update (cohortOf allocations) true (cohortOf allocations true + 1) := by
  constructor
  · funext second
    cases second with
    | false => rfl
    | true => rfl
  · funext second
    cases second with
    | false => rfl
    | true => rfl

/-- The loop keeps the allocations an apportionment by highest averages. -/
theorem allocateFrom_highestAverages {remaining : ℕ} {result : ℕ × ℕ}
    (h : HighestAverages (cohortOf patternCounts) (cohortOf patternCounts) (cohortOf allocations))
    (hresult : allocateFrom patternCounts remaining allocations = some result) :
    HighestAverages (cohortOf patternCounts) (cohortOf patternCounts) (cohortOf result) := by
  induction remaining generalizing allocations with
  | zero =>
    obtain rfl := Option.some.inj hresult
    exact h
  | succ remaining ih =>
    obtain ⟨hgrow, hgrow'⟩ := cohortOf_grow allocations
    rw [allocateFrom] at hresult
    cases hselect : selectCohort patternCounts allocations with
    | none => simp [hselect] at hresult
    | some second =>
      obtain ⟨hroom, hmost⟩ := selectCohort_most hselect
      -- the chosen cohort has the best claim, so one more for it keeps the averages highest
      cases second with
      | false =>
        simp only [hselect] at hresult
        apply ih _ hresult
        rw [hgrow]
        exact h.grow hroom hmost
      | true =>
        simp only [hselect] at hresult
        apply ih _ hresult
        rw [hgrow']
        exact h.grow hroom hmost

end Loop

/-- Where two cohorts partition one list, the loop ends with partitions for both cohorts, one for
each pattern at most and as many as there are workers, and no step overflows or finds no cohort.
The partitions are apportioned by highest averages. -/
theorem cohort_apportionment_is_proportional {first second : ℕ} (hfirst : 1 ≤ first)
    (hsecond : 1 ≤ second) (hsum : first + second ≤ usizeMax) (requestedWorkerCount : ℕ) :
    ∃ a b, allocateCohortPartitionsChecked (first, second) requestedWorkerCount = some (a, b) ∧
      allocateCohortPartitions (first, second) requestedWorkerCount = some (a, b) ∧
      (1 ≤ a ∧ a ≤ first) ∧ (1 ≤ b ∧ b ≤ second) ∧
      a + b = min (max requestedWorkerCount 2) (first + second) ∧
      (1 < a → b < second → second * (a - 1) ≤ first * b) ∧
      (1 < b → a < first → first * (b - 1) ≤ second * a) := by
  obtain ⟨a, b, heq, ha, hb, htotal⟩ := @allocateCohortPartitions_spec (first, second) hfirst
    hsecond requestedWorkerCount
  have hchecked : allocateCohortPartitionsChecked (first, second) requestedWorkerCount =
      some (a, b) := by
    unfold allocateCohortPartitionsChecked
    have hpatterns : checkedAdd first second = some (first + second) := if_pos hsum
    rw [hpatterns]
    show allocateWhile (first, second) _ (1, 1) = some (a, b)
    rw [allocateWhile_eq (le_trans (Nat.le_add_right _ _) hsum)
      (le_trans (Nat.le_add_left _ _) hsum)]
    exact heq
  have haverages : HighestAverages (cohortOf (first, second)) (cohortOf (first, second))
      (cohortOf (a, b)) := by
    have hone : cohortOf (1, 1) = fun _ => 1 := by
      funext cohort
      cases cohort <;> rfl
    apply allocateFrom_highestAverages _ heq
    rw [hone]
    exact highestAverages_one
  exact ⟨a, b, hchecked, heq, ha, hb, htotal, haverages false true (by decide),
    haverages true false (by decide)⟩

/-- Six patterns and two, for four workers: three partitions and one. -/
theorem cohort_apportionment_is_proportional_four :
    ∃ a b, allocateCohortPartitionsChecked (6, 2) 4 = some (a, b) ∧ a + b = 4 := by
  obtain ⟨a, b, hchecked, -, -, -, htotal, -⟩ :=
    @cohort_apportionment_is_proportional 6 2 (by decide) (by decide) (by decide) 4
  exact ⟨a, b, hchecked, htotal⟩

end Rustmatch

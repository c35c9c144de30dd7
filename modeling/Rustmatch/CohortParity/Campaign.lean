import Rustmatch.CohortParity.Exact

/-!
# Receipts of the parity campaign

A family of cases leaves the same receipt on all machines, digest included. What it counts is
determined by how many cases there are.

## Main results

* `campaign_is_deterministic`: the receipt of a family of cases;
* `rejections_agree`: cases that are to be rejected.
-/

namespace Rustmatch

namespace CohortParity

variable {lowerUpper : UInt16 → UInt16 × UInt16}

/-! ### Families -/

section Families

variable {hosts hosts' : ℕ → Run → Host}

/-- The loop over the cases does the same on all machines. -/
theorem verifyCases_congr (hstarts : ∀ place run, (hosts place run).Starts)
    (hstarts' : ∀ place run, (hosts' place run).Starts) (place : ℕ) (evidence : FamilyAccumulator)
    (cases : List ParityCase) :
    verifyCases lowerUpper hosts place evidence cases =
      verifyCases lowerUpper hosts' place evidence cases := by
  induction cases generalizing place evidence with
  | nil => rfl
  | cons parityCase cases ih =>
    have hcase : verifyCase lowerUpper (hosts place) parityCase none true =
        verifyCase lowerUpper (hosts' place) parityCase none true := by
      obtain ⟨failure, -, hcase⟩ | ⟨builder, matcher, -, -, hcase⟩ :=
        @verifyCase_cases lowerUpper parityCase none true
      · rw [hcase, hcase]
      · rw [hcase _ (hstarts place), hcase _ (hstarts' place)]
    rw [verifyCases, verifyCases, hcase]
    cases verifyCase lowerUpper (hosts' place) parityCase none true with
    | error failure =>
      show Except.error failure = Except.error failure
      rfl
    | ok outcome => exact ih _ _

/-- The evidence after some cases that passed: their builders have the patterns whose events were
counted. -/
structure Gathered (lowerUpper : UInt16 → UInt16 × UInt16) (before after : FamilyAccumulator)
    (cases : List ParityCase) : Prop where
  /-- The family stays the same. -/
  family_eq : after.family = before.family
  /-- Every case counts as passed. -/
  matched_eq : after.matchedCases = before.matchedCases + cases.length
  /-- No case counts as rejected. -/
  rejected_eq : after.rejectedCases = before.rejectedCases
  /-- Every case is mixed. -/
  mixed_eq : after.mixedCohortCases = before.mixedCohortCases + cases.length
  /-- Every case adds its eighteen comparisons. -/
  comparisons_eq : after.comparisons = before.comparisons + 18 * cases.length
  /-- The events are those of the registered patterns, case by case. -/
  events_eq : ∃ counts : List ℕ, List.Forall₂ (fun parityCase count => ∃ builder,
      addPatterns lowerUpper .new parityCase.patterns = .ok builder ∧ Mixed builder ∧
        count = (caseEvents builder.patterns parityCase.input).length) cases counts ∧
    after.referenceEvents = min usizeMax (before.referenceEvents + counts.sum)

/-- What recording a case that passed does to the counts. -/
theorem recordMatched_counts (evidence : FamilyAccumulator) (caseId : String)
    (events : List Event) (comparisons : ℕ) :
    (evidence.recordMatched caseId events comparisons true).family = evidence.family ∧
      (evidence.recordMatched caseId events comparisons true).matchedCases =
        evidence.matchedCases + 1 ∧
      (evidence.recordMatched caseId events comparisons true).rejectedCases =
        evidence.rejectedCases ∧
      (evidence.recordMatched caseId events comparisons true).mixedCohortCases =
        evidence.mixedCohortCases + 1 ∧
      (evidence.recordMatched caseId events comparisons true).comparisons =
        evidence.comparisons + comparisons ∧
      (evidence.recordMatched caseId events comparisons true).referenceEvents =
        saturatingAdd evidence.referenceEvents events.length :=
  ⟨rfl, rfl, rfl, rfl, rfl, rfl⟩

/-- A case that passed before the others. -/
theorem Gathered.cons {before after : FamilyAccumulator} {parityCase : ParityCase}
    {cases : List ParityCase} {builder : MatcherBuilder}
    (hadd : addPatterns lowerUpper .new parityCase.patterns = .ok builder) (hmixed : Mixed builder)
    (h : Gathered lowerUpper (before.recordMatched parityCase.id
      (caseEvents builder.patterns parityCase.input) 18 true) after cases) :
    Gathered lowerUpper before after (parityCase :: cases) := by
  obtain ⟨hfamily, hmatched, hrejected, hcohorts, hcomparisons, hevents⟩ := recordMatched_counts
    before parityCase.id (caseEvents builder.patterns parityCase.input) 18
  obtain ⟨counts, hcounts, hsum⟩ := h.events_eq
  refine ⟨h.family_eq.trans hfamily, ?_, h.rejected_eq.trans hrejected, ?_, ?_, _ :: counts,
    .cons ⟨builder, hadd, hmixed, rfl⟩ hcounts, ?_⟩
  · rw [h.matched_eq, hmatched, List.length_cons]
    omega
  · rw [h.mixed_eq, hcohorts, List.length_cons]
    omega
  · rw [h.comparisons_eq, hcomparisons, List.length_cons]
    omega
  · rw [hsum, hevents, List.sum_cons, saturatingAdd]
    omega

/-- A case of a family that passes has both cohorts. -/
theorem exists_builder_of_verifyCase {hosts : Run → Host} (hstarts : ∀ run, (hosts run).Starts)
    {parityCase : ParityCase} {outcome : CaseOutcome}
    (h : verifyCase lowerUpper hosts parityCase none true = .ok outcome) :
    ∃ builder, addPatterns lowerUpper .new parityCase.patterns = .ok builder ∧ Mixed builder ∧
      outcome = ⟨caseEvents builder.patterns parityCase.input, 18⟩ := by
  obtain ⟨failure, -, hcase⟩ | ⟨builder, matcher, hadd, -, hcase⟩ :=
    @verifyCase_cases lowerUpper parityCase none true
  · rw [hcase] at h
    cases h
  · rw [hcase _ hstarts, verdict_eq_ok_iff] at h
    exact ⟨builder, hadd, h.1 rfl, h.2.2⟩

/-- All cases of a family pass, or one of them fails. -/
theorem verifyCases_cases (hstarts : ∀ place run, (hosts place run).Starts) (place : ℕ)
    {evidence : FamilyAccumulator} (hfits : evidence.referenceEvents ≤ usizeMax)
    (cases : List ParityCase) :
    (∃ evidence', verifyCases lowerUpper hosts place evidence cases = .ok evidence' ∧
      Gathered lowerUpper evidence evidence' cases) ∨
    ∃ failure, verifyCases lowerUpper hosts place evidence cases = .error failure ∧
      ∃ parityCase ∈ cases, buildMatcher lowerUpper parityCase 1 0 false = .error failure ∨
        failure = .notMixed parityCase.id := by
  induction cases generalizing place evidence with
  | nil =>
    refine Or.inl ⟨evidence, rfl, rfl, rfl, rfl, rfl, rfl, [], .nil, ?_⟩
    rw [List.sum_nil, Nat.add_zero, Nat.min_eq_right hfits]
  | cons parityCase cases ih =>
    rw [verifyCases]
    cases hcase : verifyCase lowerUpper (hosts place) parityCase none true with
    | error failure =>
      refine Or.inr ⟨failure, rfl, parityCase, List.mem_cons_self, ?_⟩
      obtain hbuild | ⟨-, hmixed⟩ | ⟨reference, events, hnone, -⟩ :=
        failure_of_verifyCase (hstarts place) hcase
      · exact Or.inl hbuild
      · exact Or.inr hmixed
      · cases hnone
    | ok outcome =>
      obtain ⟨builder, hadd, hmixed, houtcome⟩ := exists_builder_of_verifyCase (hstarts place) hcase
      have hnext : (evidence.recordMatched parityCase.id outcome.events outcome.comparisons
          true).referenceEvents ≤ usizeMax := Nat.min_le_right _ _
      obtain ⟨evidence', heq, hgathered⟩ | ⟨failure, heq, other, hother, hfailure⟩ :=
        ih (place + 1) hnext
      · refine Or.inl ⟨evidence', heq, ?_⟩
        rw [houtcome] at hgathered
        exact .cons hadd hmixed hgathered
      · exact Or.inr ⟨failure, heq, other, List.mem_cons_of_mem _ hother, hfailure⟩

end Families

/-- A family of cases leaves the same receipt, or the same failure, on all machines. In a receipt
all cases passed, with both cohorts and eighteen comparisons each, and the events of their patterns
were counted; a failure is that of a case whose patterns are not registered, from which no matcher
is built, or which lacks a cohort. -/
theorem campaign_is_deterministic (lowerUpper : UInt16 → UInt16 × UInt16)
    {hosts hosts' : ℕ → Run → Host} (hstarts : ∀ place run, (hosts place run).Starts)
    (hstarts' : ∀ place run, (hosts' place run).Starts) (name : String)
    (cases : List ParityCase) :
    verifyCaseFamily lowerUpper hosts name cases = verifyCaseFamily lowerUpper hosts' name cases ∧
    (∀ receipt, verifyCaseFamily lowerUpper hosts name cases = .ok receipt →
      receipt.family = name ∧ receipt.cases = cases.length ∧
      receipt.matchedCases = cases.length ∧ receipt.rejectedCases = 0 ∧
      receipt.mixedCohortCases = cases.length ∧ receipt.comparisons = 18 * cases.length ∧
      ∃ counts : List ℕ, List.Forall₂ (fun parityCase count => ∃ builder,
          addPatterns lowerUpper .new parityCase.patterns = .ok builder ∧ Mixed builder ∧
            count = (caseEvents builder.patterns parityCase.input).length) cases counts ∧
        receipt.referenceEvents = min usizeMax counts.sum) ∧
    ∀ failure, verifyCaseFamily lowerUpper hosts name cases = .error failure →
      ∃ parityCase ∈ cases, buildMatcher lowerUpper parityCase 1 0 false = .error failure ∨
        failure = .notMixed parityCase.id := by
  refine ⟨?_, ?_⟩
  · rw [verifyCaseFamily, verifyCaseFamily, verifyCases_congr hstarts hstarts']
  · rw [verifyCaseFamily]
    obtain ⟨evidence, heq, hgathered⟩ | ⟨failure, heq, hcase⟩ :=
      @verifyCases_cases lowerUpper hosts hstarts 0 (.new name) (Nat.zero_le _) cases
    · rw [heq]
      constructor
      · intro receipt hreceipt
        obtain rfl := Except.ok.inj hreceipt
        obtain ⟨counts, hcounts, hsum⟩ := hgathered.events_eq
        refine ⟨hgathered.family_eq, ?_, ?_, hgathered.rejected_eq, ?_, ?_, counts, hcounts, ?_⟩
        · show evidence.matchedCases + evidence.rejectedCases = _
          rw [hgathered.matched_eq, hgathered.rejected_eq]
          exact Nat.zero_add _
        · exact hgathered.matched_eq.trans (Nat.zero_add _)
        · exact hgathered.mixed_eq.trans (Nat.zero_add _)
        · exact hgathered.comparisons_eq.trans (Nat.zero_add _)
        · rw [← Nat.zero_add counts.sum]
          exact hsum
      · intro failure hfailure
        cases hfailure
    · rw [heq]
      constructor
      · intro receipt hreceipt
        cases hreceipt
      · intro failure' hfailure
        obtain rfl := Except.error.inj hfailure
        exact hcase

/-- A machine with vector instructions that starts every thread. -/
def vectorHost : Host := ⟨fun _ => ⟨true, fun _ => true⟩, fun _ => true⟩

/-- A family of one case leaves a receipt. -/
theorem exists_receipt_anchoredCase : ∃ receipt,
    verifyCaseFamily (fun unit => (unit, unit)) (fun _ _ => readyHost) "anchored" [anchoredCase] =
      .ok receipt := by
  have hbuild : ∃ matcher, (configure 1 0 false anchoredBuilder).build = .ok matcher := ⟨_, rfl⟩
  obtain ⟨matcher, hbuild⟩ := hbuild
  have hcase : verifyCase (fun unit => (unit, unit)) (fun _ => readyHost) anchoredCase none true =
      .ok ⟨caseEvents anchoredBuilder.patterns anchoredCase.input, 18⟩ := by
    rw [verifyCase_eq_verdict (fun _ => readyHost_starts) addPatterns_anchored hbuild]
    refine verdict_eq_ok_iff.mpr ⟨fun _ => ⟨by decide, by decide⟩, ?_, rfl⟩
    intro _ hnone
    cases hnone
  unfold verifyCaseFamily
  rw [verifyCases, hcase]
  exact ⟨_, rfl⟩

/-- The machines with and without vector instructions leave the receipt of eighteen comparisons. -/
theorem campaign_is_deterministic_anchoredCase : ∃ receipt,
    verifyCaseFamily (fun unit => (unit, unit)) (fun _ _ => readyHost) "anchored" [anchoredCase] =
        .ok receipt ∧
      verifyCaseFamily (fun unit => (unit, unit)) (fun _ _ => vectorHost) "anchored"
        [anchoredCase] = .ok receipt ∧
      receipt.comparisons = 18 := by
  have hvector : vectorHost.Starts := ⟨fun _ _ => rfl, fun _ => rfl⟩
  obtain ⟨hsame, hreceipts, -⟩ := campaign_is_deterministic (fun unit => (unit, unit))
    (fun _ _ => readyHost_starts) (fun _ _ => hvector) "anchored" [anchoredCase]
  obtain ⟨receipt, hreceipt⟩ := exists_receipt_anchoredCase
  exact ⟨receipt, hreceipt, hsame ▸ hreceipt, (hreceipts receipt hreceipt).2.2.2.2.2.1⟩

/-! ### Rejections -/

section Rejections

variable {parityCase : ParityCase}

/-- A construction fails with a rejected pattern, or ends as the build of the registered ones. -/
theorem constructionResult_eq (parityCase : ParityCase) (workerCount : ℕ) (cohortEnabled : Bool) :
    constructionResult lowerUpper parityCase workerCount cohortEnabled =
      match addPatterns lowerUpper .new parityCase.patterns with
      | .error rejected => .error rejected.2
      | .ok builder => (configure workerCount defaultStateCacheBudget cohortEnabled
          builder).build.map fun _ => () := by
  have hbuilder : (MatcherBuilder.new.setWorkerCount workerCount).setCohortCompilationEnabled
      cohortEnabled = configure workerCount defaultStateCacheBudget cohortEnabled .new := rfl
  unfold constructionResult
  rw [hbuilder]
  simp only
  rw [addPatterns_configure]
  cases addPatterns lowerUpper .new parityCase.patterns <;> rfl

/-- With and without cohorts, a build fails for the same reasons, unless ids run out. -/
theorem error_of_build_configure {builder : MatcherBuilder} {workerCount : ℕ}
    {cohortEnabled : Bool} {e : Error}
    (h : (configure workerCount defaultStateCacheBudget cohortEnabled builder).build = .error e)
    (hids : e ≠ .patternSetTooLarge) (cohortEnabled' : Bool) :
    (configure workerCount defaultStateCacheBudget cohortEnabled' builder).build = .error e := by
  obtain ⟨hnone, rfl⟩ | ⟨hpatterns, hworkers, rfl⟩ | ⟨-, rfl, -⟩ :=
    MatcherBuilder.error_of_build h
  · unfold MatcherBuilder.build
    exact dif_pos hnone
  · unfold MatcherBuilder.build
    exact (dif_neg hpatterns).trans (dif_pos hworkers)
  · exact absurd rfl hids

/-- One worker without cohorts needs the most ids. -/
theorem error_of_build_cohorts {builder : MatcherBuilder} {e : Error}
    (h : (configure 1 defaultStateCacheBudget true builder).build = .error e) :
    (configure 1 defaultStateCacheBudget false builder).build = .error e := by
  by_cases hids : e = .patternSetTooLarge
  · obtain ⟨-, rfl⟩ | ⟨-, hworkers, -⟩ | ⟨hpatterns, -, hfits⟩ := MatcherBuilder.error_of_build h
    · cases hids
    · cases hworkers
    · rw [hids]
      exact MatcherBuilder.build_eq_error hpatterns rfl rfl hfits
  · exact error_of_build_configure h hids false

/-- A mapped result fails as the result does. -/
theorem map_eq_error {α β : Type} {result : Except Error α} {f : α → β} {e : Error} :
    result.map f = .error e ↔ result = .error e := by
  cases result <;> simp [Except.map]

/-- What fails with cohorts fails without. -/
theorem constructionResult_of_cohorts {e : Error}
    (h : constructionResult lowerUpper parityCase 1 true = .error e) :
    constructionResult lowerUpper parityCase 1 false = .error e := by
  rw [constructionResult_eq] at h ⊢
  cases hadd : addPatterns lowerUpper .new parityCase.patterns with
  | error rejected =>
    rw [hadd] at h
    exact h
  | ok builder =>
    rw [hadd] at h
    exact map_eq_error.mpr (error_of_build_cohorts (map_eq_error.mp h))

/-- What fails for another reason than ids fails with the same reason. -/
theorem constructionResult_of_error {workerCount : ℕ} {cohortEnabled : Bool} {e : Error}
    (hids : e ≠ .patternSetTooLarge)
    (h : constructionResult lowerUpper parityCase workerCount cohortEnabled = .error e)
    (cohortEnabled' : Bool) :
    constructionResult lowerUpper parityCase workerCount cohortEnabled' = .error e := by
  rw [constructionResult_eq] at h ⊢
  cases hadd : addPatterns lowerUpper .new parityCase.patterns with
  | error rejected =>
    rw [hadd] at h
    exact h
  | ok builder =>
    rw [hadd] at h
    exact map_eq_error.mpr (error_of_build_configure (map_eq_error.mp h) hids cohortEnabled')

end Rejections

/-- Matchers with and without cohorts are rejected for the same reasons, with any number of workers,
unless a set of patterns is too large. A case that must be rejected passes if and only if it is
rejected with cohorts; otherwise it is accepted in both modes, or it is too large for one worker
that compiles all patterns at once, which is reported as a mismatch. -/
theorem rejections_agree (lowerUpper : UInt16 → UInt16 × UInt16) (parityCase : ParityCase) :
    (∀ workerCount e, e ≠ .patternSetTooLarge →
      (constructionResult lowerUpper parityCase workerCount false = .error e ↔
        constructionResult lowerUpper parityCase workerCount true = .error e)) ∧
    (verifyRejectedCase lowerUpper parityCase = .ok () ↔
      ∃ e, constructionResult lowerUpper parityCase 1 true = .error e) ∧
    ∀ failure, verifyRejectedCase lowerUpper parityCase = .error failure →
      failure = .accepted parityCase.id ∨
        failure = .rejection parityCase.id (.error .patternSetTooLarge) (.ok ()) := by
  refine ⟨fun workerCount e hids => ⟨fun h => constructionResult_of_error hids h true,
    fun h => constructionResult_of_error hids h false⟩, ?_⟩
  unfold verifyRejectedCase
  simp only
  cases hcohort : constructionResult lowerUpper parityCase 1 true with
  | error e =>
    rw [constructionResult_of_cohorts hcohort]
    simp [Except.isOk, Except.toBool]
  | ok built =>
    cases hordinary : constructionResult lowerUpper parityCase 1 false with
    | ok built' => simp [Except.isOk, Except.toBool, eq_comm]
    | error e =>
      have hids : e = .patternSetTooLarge := by
        by_contra hids
        rw [constructionResult_of_error hids hordinary true] at hcohort
        cases hcohort
      rw [hids]
      simp [eq_comm]

end CohortParity

end Rustmatch

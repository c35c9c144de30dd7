import Rustmatch.Matcher.Layout

/-!
# The parity campaign

`cohort_parity.rs`: every case is matched by ordinary matchers and by matchers with cohorts, for all
worker counts and cache budgets of the campaign, and the events are compared with those of one
reference. Cases that must be rejected are built with and without cohorts.

Scans run on machines that are parameters, one for every scan. The cases are read from files or
generated, which is left out; so are the texts of the failures, whose data are kept.

## Main definitions

* `verifyCase`, `verifyCaseFamily`: the comparison, and the receipt of a family of cases;
* `verifyRejectedCase`: cases that no matcher accepts.
-/

namespace Rustmatch

namespace CohortParity

/-- `WORKER_COUNTS`: the numbers of workers that are compared. -/
def workerCounts : List ℕ := [1, 2, 3, 4, 8, 128]

/-- `CACHE_BUDGETS`: the cache budgets that are compared. -/
def cacheBudgets : List ℕ := [0, 1, 8192]

/-- `PatternSpec`, with the units of its text. -/
structure PatternSpec where
  /-- The identity to register the pattern under. -/
  id : UInt32
  /-- The text of the pattern. -/
  source : List UInt16
  /-- The flags to parse it with. -/
  flags : PatternFlags

/-- `ParityCase`: patterns and a text that every configuration must scan alike. -/
structure ParityCase where
  /-- The name of the case, for its receipts and failures. -/
  id : String
  /-- The patterns, in the order they are registered in. -/
  patterns : List PatternSpec
  /-- The text that every configuration scans. -/
  input : Utf16Text

/-- `Event`: an identity, a start and an end. -/
structure Event where
  /-- The identity of the pattern. -/
  patternId : UInt32
  /-- Where the match starts. -/
  start : ℕ
  /-- Where the match ends. -/
  stop : ℕ
deriving DecidableEq, Repr

/-- How events are ordered, as tuples are. -/
def Event.le (event other : Event) : Bool :=
  event.patternId < other.patternId ||
    event.patternId == other.patternId && (event.start < other.start ||
      event.start == other.start && event.stop ≤ other.stop)

/-- `sort_unstable`: equal events are the same, so that stability does not matter. -/
def sortUnstable (events : List Event) : List Event := events.mergeSort Event.le

/-- What the campaign can fail with. -/
inductive Failure where
  /-- A pattern was rejected. -/
  | registration (caseId : String) (patternId : UInt32) (error : Error)
  /-- A matcher could not be built. -/
  | build (caseId : String) (error : Error)
  /-- A scan failed. -/
  | scan (error : Error)
  /-- An assertion of the campaign panics. -/
  | panic
  /-- The reports do not tell the two matchers apart. -/
  | activation (caseId : String) (workerCount cacheBudget : ℕ)
  /-- The case has no cohorts of both kinds. -/
  | notMixed (caseId : String)
  /-- The reported budget is not the configured one. -/
  | cacheBudget (caseId : String) (configured actual : ℕ)
  /-- `parity_failure`. -/
  | parity (parityCase : ParityCase) (workerCount cacheBudget : ℕ)
    (reference ordinary cohort repeated : List Event)
  /-- The two constructions end differently. -/
  | rejection (caseId : String) (ordinary cohort : Except Error Unit)
  /-- A case that should be rejected was accepted. -/
  | accepted (caseId : String)

/-- The scans of a case. -/
inductive Run where
  /-- The scan that the others are compared with. -/
  | reference
  /-- A scan without cohorts. -/
  | ordinary (workerCount cacheBudget : ℕ)
  /-- A scan with cohorts. -/
  | cohort (workerCount cacheBudget : ℕ)
  /-- The same scan again. -/
  | repeated (workerCount cacheBudget : ℕ)

section Campaign

variable (lowerUpper : UInt16 → UInt16 × UInt16)

/-! ### Matchers of a case -/

/-- The loop that registers the patterns of a case; a rejection names its pattern. -/
def addPatterns (builder : MatcherBuilder) :
    List PatternSpec → Except (UInt32 × Error) MatcherBuilder
  | [] => .ok builder
  | pattern :: patterns =>
    match builder.addWithFlags lowerUpper ⟨pattern.id⟩ pattern.source pattern.flags with
    | .error error => .error (pattern.id, error)
    | .ok builder => addPatterns builder patterns

/-- The settings of a builder. -/
def configure (workerCount cacheBudget : ℕ) (cohortEnabled : Bool) (builder : MatcherBuilder) :
    MatcherBuilder :=
  ((builder.setWorkerCount workerCount).setStateCacheBudget cacheBudget).setCohortCompilationEnabled
    cohortEnabled

/-- `build_matcher`: a matcher and the layout that it remembers. -/
def buildMatcher (parityCase : ParityCase) (workerCount cacheBudget : ℕ) (cohortEnabled : Bool) :
    Except Failure (Matcher × CohortLayout) :=
  let builder := configure workerCount cacheBudget cohortEnabled .new
  match addPatterns lowerUpper builder parityCase.patterns with
  | .error (patternId, error) => .error (.registration parityCase.id patternId error)
  | .ok builder =>
    match builder.build with
    | .error error => .error (.build parityCase.id error)
    | .ok matcher => .ok (matcher, builder.cohortLayout matcher)

/-- `construction_result`: register and build, and tell whether that failed. -/
def constructionResult (parityCase : ParityCase) (workerCount : ℕ) (cohortEnabled : Bool) :
    Except Error Unit :=
  let builder :=
    (MatcherBuilder.new.setWorkerCount workerCount).setCohortCompilationEnabled cohortEnabled
  match addPatterns lowerUpper builder parityCase.patterns with
  | .error (_, error) => .error error
  | .ok builder => builder.build.map fun _ => ()

/-- The tuple that the callback pushes. -/
def eventOf (matched : Match) : Event :=
  ⟨matched.patternId.value, matched.span.start, matched.span.stop⟩

/-- `collect_events`. The callback asserts that every span lies in the input. -/
def collectEvents (matcher : Matcher) (host : Host) (input : Utf16Text) :
    Except Failure (List Event) :=
  let delivered := matcher.scan host input
  if delivered.events.all fun matched => matched.span.start ≤ matched.span.stop &&
      matched.span.stop ≤ input.units.length then
    match delivered.ending with
    | .returned (.ok _) => .ok (sortUnstable (delivered.events.map eventOf))
    | .returned (.error error) => .error (.scan error)
    | .panicked _ | .outputExpected => .error .panic
  else .error .panic

/-! ### Comparisons -/

/-- What `verify_case` does for one worker count and one cache budget. -/
def verifyConfiguration (hosts : Run → Host) (parityCase : ParityCase) (requireMixed : Bool)
    (reference : List Event) (workerCount cacheBudget : ℕ) : Except Failure Unit := do
  let ordinary ← buildMatcher lowerUpper parityCase workerCount cacheBudget false
  let cohort ← buildMatcher lowerUpper parityCase workerCount cacheBudget true
  -- the retained bytes of the reports are not read
  let ordinaryLayout := ordinary.1.executionDiagnostics ordinary.2 fun _ => 0
  let cohortLayout := cohort.1.executionDiagnostics cohort.2 fun _ => 0
  if ordinaryLayout.enabled || !cohortLayout.enabled then
    .error (.activation parityCase.id workerCount cacheBudget)
  else if requireMixed && cohortLayout.cohortCount != 2 then .error (.notMixed parityCase.id)
  else if cohortLayout.totalCacheBudget != cacheBudget then
    .error (.cacheBudget parityCase.id cacheBudget cohortLayout.totalCacheBudget)
  else do
    let ordinaryEvents ← collectEvents ordinary.1 (hosts (.ordinary workerCount cacheBudget))
      parityCase.input
    let cohortEvents ← collectEvents cohort.1 (hosts (.cohort workerCount cacheBudget))
      parityCase.input
    let repeatedEvents ← collectEvents cohort.1 (hosts (.repeated workerCount cacheBudget))
      parityCase.input
    if ordinaryEvents != reference || cohortEvents != reference || repeatedEvents != reference then
      .error (.parity parityCase workerCount cacheBudget reference ordinaryEvents cohortEvents
        repeatedEvents)
    else .ok ()

/-- The pairs of a worker count and a cache budget, in the order of the two loops. -/
def configurations : List (ℕ × ℕ) :=
  workerCounts.flatMap fun workerCount => cacheBudgets.map fun cacheBudget =>
    (workerCount, cacheBudget)

/-- The loops of `verify_case`: how many comparisons there were. -/
def verifyConfigurations (hosts : Run → Host) (parityCase : ParityCase) (requireMixed : Bool)
    (reference : List Event) : List (ℕ × ℕ) → ℕ → Except Failure ℕ
  | [], comparisons => .ok comparisons
  | configuration :: rest, comparisons => do
    verifyConfiguration lowerUpper hosts parityCase requireMixed reference configuration.1
      configuration.2
    verifyConfigurations hosts parityCase requireMixed reference rest (comparisons + 1)

/-- `CaseOutcome`: what a case that has passed leaves behind. -/
structure CaseOutcome where
  /-- The events all configurations agree on. -/
  events : List Event
  /-- The number of configurations that were compared. -/
  comparisons : ℕ

/-- `verify_case`: compare all configurations with the reference. -/
def verifyCase (hosts : Run → Host) (parityCase : ParityCase) (expected : Option (List Event))
    (requireMixed : Bool) : Except Failure CaseOutcome := do
  let reference ←
    match expected with
    | some events => .ok events
    | none => do
      let matcher ← buildMatcher lowerUpper parityCase 1 0 false
      collectEvents matcher.1 (hosts .reference) parityCase.input
  let comparisons ← verifyConfigurations lowerUpper hosts parityCase requireMixed reference
    configurations 0
  return ⟨reference, comparisons⟩

/-- `verify_rejected_case`: both constructions must be rejected alike. -/
def verifyRejectedCase (parityCase : ParityCase) : Except Failure Unit :=
  let ordinary := constructionResult lowerUpper parityCase 1 false
  let cohort := constructionResult lowerUpper parityCase 1 true
  if ordinary ≠ cohort then .error (.rejection parityCase.id ordinary cohort)
  else if ordinary.isOk then .error (.accepted parityCase.id)
  else .ok ()

/-! ### Receipts -/

/-- `StableDigest::update`: fold bytes into the digest. -/
def updateDigest (digest : UInt64) (bytes : List UInt8) : UInt64 :=
  bytes.foldl (fun digest byte => (digest ^^^ byte.toUInt64) * 0x100000001b3) digest

/-- `to_le_bytes` of a number of `count` bytes. -/
def leBytes (count value : ℕ) : List UInt8 :=
  (List.range count).map fun place => UInt8.ofNat (value / 256 ^ place)

/-- `FamilyAccumulator`: the evidence of the cases of a family so far. -/
structure FamilyAccumulator where
  /-- The name of the family. -/
  family : String
  /-- The cases that passed so far. -/
  matchedCases : ℕ
  /-- The cases that were rejected as expected. -/
  rejectedCases : ℕ
  /-- The cases with patterns both with and without assertions. -/
  mixedCohortCases : ℕ
  /-- The configurations compared so far. -/
  comparisons : ℕ
  /-- The events of the references, capped at the greatest count. -/
  referenceEvents : ℕ
  /-- The digest of these events. -/
  digest : UInt64
deriving DecidableEq, Repr

namespace FamilyAccumulator

/-- `FamilyAccumulator::new`: no evidence yet. -/
def new (family : String) : FamilyAccumulator where
  family
  matchedCases := 0
  rejectedCases := 0
  mixedCohortCases := 0
  comparisons := 0
  referenceEvents := 0
  digest := 0xcbf29ce484222325

/-- `FamilyAccumulator::record`: fold the events of a case into the digest. -/
def record (evidence : FamilyAccumulator) (caseId : String) (events : List Event) :
    FamilyAccumulator :=
  let digest := updateDigest evidence.digest caseId.toUTF8.toList
  let digest := updateDigest digest (leBytes 8 events.length)
  { evidence with
    digest := events.foldl (fun digest event =>
      updateDigest (updateDigest (updateDigest digest (leBytes 4 event.patternId.toNat))
        (leBytes 8 event.start)) (leBytes 8 event.stop)) digest }

/-- `FamilyAccumulator::record_matched`: count a case that has passed. -/
def recordMatched (evidence : FamilyAccumulator) (caseId : String) (events : List Event)
    (comparisons : ℕ) (mixed : Bool) : FamilyAccumulator :=
  { evidence with
    matchedCases := evidence.matchedCases + 1
    mixedCohortCases := evidence.mixedCohortCases + if mixed then 1 else 0
    comparisons := evidence.comparisons + comparisons
    referenceEvents := saturatingAdd evidence.referenceEvents events.length }.record caseId events

end FamilyAccumulator

/-- `FamilyReceipt`, with the digest as a number. -/
structure FamilyReceipt where
  /-- The name of the family. -/
  family : String
  /-- The number of cases, passed and rejected. -/
  cases : ℕ
  /-- The cases that passed. -/
  matchedCases : ℕ
  /-- The cases that were rejected as expected. -/
  rejectedCases : ℕ
  /-- The cases with patterns both with and without assertions. -/
  mixedCohortCases : ℕ
  /-- The configurations that were compared. -/
  comparisons : ℕ
  /-- The events of the references. -/
  referenceEvents : ℕ
  /-- The digest of these events. -/
  eventDigest : UInt64
deriving DecidableEq, Repr

/-- `FamilyAccumulator::finish`: the receipt of the evidence. -/
def FamilyAccumulator.finish (evidence : FamilyAccumulator) : FamilyReceipt where
  family := evidence.family
  cases := evidence.matchedCases + evidence.rejectedCases
  matchedCases := evidence.matchedCases
  rejectedCases := evidence.rejectedCases
  mixedCohortCases := evidence.mixedCohortCases
  comparisons := evidence.comparisons
  referenceEvents := evidence.referenceEvents
  eventDigest := evidence.digest

/-- The loop of `verify_case_family`; the machines of a case are those of its place. -/
def verifyCases (hosts : ℕ → Run → Host) : ℕ → FamilyAccumulator → List ParityCase →
    Except Failure FamilyAccumulator
  | _, evidence, [] => .ok evidence
  | place, evidence, parityCase :: cases => do
    let outcome ← verifyCase lowerUpper (hosts place) parityCase none true
    verifyCases hosts (place + 1)
      (evidence.recordMatched parityCase.id outcome.events outcome.comparisons true) cases

/-- `verify_case_family`: verify all cases of a family, up to the first failure. -/
def verifyCaseFamily (hosts : ℕ → Run → Host) (name : String) (cases : List ParityCase) :
    Except Failure FamilyReceipt := do
  let evidence ← verifyCases lowerUpper hosts 0 (.new name) cases
  return evidence.finish

end Campaign

end CohortParity

end Rustmatch

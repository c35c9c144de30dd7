import Rustmatch.Nfa.Correct
import Rustmatch.Prefilter.StartTable

/-!
# Generations of marks over whole runs

Two scratches keep their visit marks from one closure to the next and only clear them when the
generation counter wraps: that of the deterministic cache marks a state when it is pushed, and that
of the start table when it is popped. Here both are followed through any number of closures, so the
counter may wrap any number of times. In between, a scan does with the rest of its scratch what it
likes.

## Main definitions

* `ClosureCall`: what a closure is asked for;
* `ScratchRun`, `ClosureScratchRun`: the closures computed so far, with their answers.

## Main results

* `generation_of_scratchRun`, `generation_of_closureScratchRun`: where the counter stands;
* `closures_are_exact_across_generations`: every answer is the closure that was asked for.
-/

open Relation MarkedSearch

namespace Rustmatch

/-- What a closure is asked for: the closure of some states, or of those that a symbol leads to. -/
inductive ClosureCall where
  /-- The closure of some states. -/
  | closure (seeds : List StateId)
  /-- The closure of what a symbol leads to. -/
  | transition (source : List StateId) (symbol : UInt16)
deriving DecidableEq, Repr

/-- The states that a closure starts from. -/
def ClosureCall.seeds (database : PatternDatabase) : ClosureCall → List StateId
  | .closure seeds => seeds
  | .transition source symbol => database.matchingTargets source symbol

/-- An answer lists the states that epsilon edges lead to, each once and in order. -/
structure ClosureCall.Answered (database : PatternDatabase) (call : ClosureCall)
    (answer : List StateId) : Prop where
  /-- The states ascend. -/
  sorted : answer.Pairwise (· < ·)
  /-- They are those that some seed leads to. -/
  mem_iff : ∀ s, s ∈ answer ↔ ∃ t ∈ call.seeds database, Reach database.epsilonTargets t s

section Runs

variable (database : PatternDatabase)

/-- The transitions that were computed with the scratch of a scan, and their answers. Everything
else that the scan does leaves the marks and their generation alone. -/
inductive ScratchRun : Scratch → List (ClosureCall × List StateId) → Prop
  /-- Nothing has been computed. -/
  | new : ScratchRun (Scratch.new database) []
  /-- A step that leaves the marks alone. -/
  | other {scratch scratch' : Scratch} {answers : List (ClosureCall × List StateId)} :
      ScratchRun scratch answers → scratch'.cacheSeen = scratch.cacheSeen →
      scratch'.cacheGeneration = scratch.cacheGeneration → ScratchRun scratch' answers
  /-- A transition is computed. -/
  | transition {scratch : Scratch} {answers : List (ClosureCall × List StateId)}
      (source : List StateId) (symbol : UInt16) : ScratchRun scratch answers →
      ScratchRun (computeTransition database source symbol scratch.resetCachedTransition)
        (answers ++ [(.transition source symbol,
          (computeTransition database source symbol scratch.resetCachedTransition).next)])

/-- `epsilon_closure_into` or `transition_into`. -/
def ClosureScratch.call (scratch : ClosureScratch) : ClosureCall → List StateId × ClosureScratch
  | .closure seeds => scratch.epsilonClosureInto database seeds
  | .transition source symbol => scratch.transitionInto database source symbol

/-- The closures that were computed with the scratch of a start table, and their answers. -/
inductive ClosureScratchRun : ClosureScratch → List (ClosureCall × List StateId) → Prop
  /-- Nothing has been computed. -/
  | new : ClosureScratchRun (ClosureScratch.new database.stateCount) []
  /-- A closure is computed. -/
  | call {scratch : ClosureScratch} {answers : List (ClosureCall × List StateId)}
      (call : ClosureCall) : (∀ s ∈ call.seeds database, s < database.stateCount) →
      ClosureScratchRun scratch answers →
      ClosureScratchRun (scratch.call database call).2
        (answers ++ [(call, (scratch.call database call).1)])

end Runs

/-! ### The counter -/

/-- Where the counter stands after a number of generations. -/
def generationAfter : ℕ → ℕ
  | 0 => 0
  | count + 1 => count % (2 ^ 32 - 1) + 1

/-- The counter goes from its largest value to one. -/
theorem toNat_nextGeneration {seen : List UInt32} {generation : UInt32} {count : ℕ}
    (h : generation.toNat = generationAfter count) :
    (nextGeneration seen generation).2.toNat = generationAfter (count + 1) := by
  have hnext : (generation + 1).toNat = (generation.toNat + 1) % 2 ^ 32 := UInt32.toNat_add _ _
  have hlt := generation.toNat_lt
  unfold nextGeneration
  split
  -- zero is skipped: the marks are cleared and the count starts at one again
  next hwrap =>
    have hzero : (0 : UInt32).toNat = 0 := rfl
    rw [hwrap, hzero] at hnext
    show 1 = count % (2 ^ 32 - 1) + 1
    cases count with
    | zero => rfl
    | succ count =>
      rw [generationAfter] at h
      omega
  next hwrap =>
    have hne : (generation + 1).toNat ≠ 0 := fun hzero => hwrap (UInt32.toNat_inj.mp hzero)
    show (generation + 1).toNat = count % (2 ^ 32 - 1) + 1
    cases count with
    | zero =>
      rw [generationAfter] at h
      omega
    | succ count =>
      rw [generationAfter] at h
      omega

section Runs

variable {database : PatternDatabase} {answers : List (ClosureCall × List StateId)}

/-- The generation counts the calls, up to its wrap. -/
theorem generation_of_scratchRun {scratch : Scratch} (h : ScratchRun database scratch answers) :
    scratch.cacheGeneration.toNat = generationAfter answers.length := by
  induction h with
  | new => rfl
  | other _ _ hgeneration ih => rw [hgeneration, ih]
  | transition source symbol _ ih =>
    rw [List.length_append]
    exact toNat_nextGeneration ih

/-- The generation counts the calls, up to its wrap. -/
theorem generation_of_closureScratchRun {scratch : ClosureScratch}
    (h : ClosureScratchRun database scratch answers) :
    scratch.generation.toNat = generationAfter answers.length := by
  induction h with
  | new => rfl
  | call call _ _ ih =>
    rw [List.length_append]
    cases call with
    | closure seeds => exact toNat_nextGeneration ih
    | transition source symbol => exact toNat_nextGeneration ih

/-! ### The answers -/

/-- One more transition with the scratch of a scan. -/
theorem answered_computeTransition (hwf : database.WellFormed) {scratch : Scratch}
    (h : Stamped database scratch) (source : List StateId) (symbol : UInt16) :
    (ClosureCall.transition source symbol).Answered database
      (computeTransition database source symbol scratch.resetCachedTransition).next := by
  obtain ⟨-, hsorted, hmem⟩ := mem_computeTransition hwf h source symbol
  exact ⟨hsorted, hmem⟩

/-- One more closure with the scratch of a start table. -/
theorem answered_closeStack (hwf : database.WellFormed) {scratch : ClosureScratch}
    (h : scratch.Stamped database) {call : ClosureCall}
    (hseeds : ∀ s ∈ call.seeds database, s < database.stateCount) :
    (scratch.call database call).2.Stamped database ∧
      call.Answered database (scratch.call database call).1 := by
  have hcall : scratch.call database call =
      scratch.closeStack database (call.seeds database).reverse := by
    cases call <;> rfl
  have hstack : ∀ s ∈ (call.seeds database).reverse, s < database.stateCount :=
    fun s hs => hseeds s (List.mem_reverse.mp hs)
  obtain ⟨hstamped, hmem⟩ := ClosureScratch.closeStack_spec hwf h hstack
  have hsucc : ∀ u < database.stateCount, ∀ v ∈ database.epsilonTargets u,
      v < database.stateCount := fun u _ v hv => epsilonTargets_lt hwf v hv
  have hnodup := drain_nodup hsucc h.next.1.length_eq (fun u hu => h.marked_next hu) hstack
  rw [hcall]
  refine ⟨hstamped, SortedLists.pairwise_lt_mergeSort hnodup, fun s => (hmem s).trans ?_⟩
  simp only [List.mem_reverse]

/-- The stamps stay in order along a run, and all answers are right. -/
theorem answered_of_scratchRun (hwf : database.WellFormed) {scratch : Scratch}
    (h : ScratchRun database scratch answers) :
    Stamped database scratch ∧ ∀ answer ∈ answers, answer.1.Answered database answer.2 := by
  induction h with
  | new => exact ⟨stamps_replicate database.stateCount, by simp⟩
  | other _ hseen hgeneration ih => exact ⟨ih.1.congr hseen hgeneration, ih.2⟩
  | transition source symbol _ ih =>
    obtain ⟨hstamped, hanswers⟩ := ih
    refine ⟨(mem_computeTransition hwf hstamped source symbol).1, ?_⟩
    rw [List.forall_mem_append, List.forall_mem_singleton]
    exact ⟨hanswers, answered_computeTransition hwf hstamped source symbol⟩

/-- Every call of a run is answered, and leaves the marks in order. -/
theorem answered_of_closureScratchRun (hwf : database.WellFormed) {scratch : ClosureScratch}
    (h : ClosureScratchRun database scratch answers) :
    scratch.Stamped database ∧ ∀ answer ∈ answers, answer.1.Answered database answer.2 := by
  induction h with
  | new => exact ⟨ClosureScratch.stamped_new database, by simp⟩
  | call call hseeds _ ih =>
    obtain ⟨hstamped, hanswers⟩ := ih
    obtain ⟨hstamped', hanswer⟩ := answered_closeStack hwf hstamped hseeds
    refine ⟨hstamped', ?_⟩
    rw [List.forall_mem_append, List.forall_mem_singleton]
    exact ⟨hanswers, hanswer⟩

end Runs

/-- However many closures have been computed with a scratch, and however often its counter has
wrapped: no mark that is left counts as a visit of the next generation, and every answer so far
lists the states it was asked for, each once and in order. -/
theorem closures_are_exact_across_generations {database : PatternDatabase}
    (hwf : database.WellFormed) :
    (∀ scratch answers, ScratchRun database scratch answers →
      scratch.cacheGeneration.toNat = generationAfter answers.length ∧
      (∀ stamp ∈ scratch.resetCachedTransition.cacheSeen,
        stamp ≠ scratch.resetCachedTransition.cacheGeneration) ∧
      ∀ answer ∈ answers, answer.1.Answered database answer.2) ∧
    ∀ scratch answers, ClosureScratchRun database scratch answers →
      scratch.generation.toNat = generationAfter answers.length ∧
      (∀ stamp ∈ (nextGeneration scratch.seen scratch.generation).1,
        stamp ≠ (nextGeneration scratch.seen scratch.generation).2) ∧
      ∀ answer ∈ answers, answer.1.Answered database answer.2 := by
  refine ⟨fun scratch answers h => ?_, fun scratch answers h => ?_⟩
  · obtain ⟨hstamped, hanswers⟩ := answered_of_scratchRun hwf h
    exact ⟨generation_of_scratchRun h, hstamped.next.2, hanswers⟩
  · obtain ⟨hstamped, hanswers⟩ := answered_of_closureScratchRun hwf h
    exact ⟨generation_of_closureScratchRun h, hstamped.next.2, hanswers⟩

/-- Two transitions with the scratch of one scan. -/
theorem closures_are_exact_across_generations_loop : ∃ database,
    compile [privateLoop] = .ok database ∧ ∀ first second : UInt16,
      let once := computeTransition database [database.root] first
        (Scratch.new database).resetCachedTransition
      let twice := computeTransition database once.next second once.resetCachedTransition
      (ClosureCall.transition [database.root] first).Answered database once.next ∧
        (ClosureCall.transition once.next second).Answered database twice.next := by
  have hcompile : ∃ database, compile [privateLoop] = .ok database := ⟨_, rfl⟩
  obtain ⟨database, h⟩ := hcompile
  refine ⟨database, h, fun first second => ?_⟩
  have honce := @ScratchRun.transition database _ _ [database.root] first ScratchRun.new
  have htwice := honce.transition (computeTransition database [database.root] first
    (Scratch.new database).resetCachedTransition).next second
  obtain ⟨-, -, hanswers⟩ :=
    (closures_are_exact_across_generations (compile_wellFormed h)).1 _ _ htwice
  rw [List.forall_mem_append, List.forall_mem_append, List.forall_mem_singleton,
    List.forall_mem_singleton] at hanswers
  exact ⟨hanswers.1.2, hanswers.2⟩

end Rustmatch

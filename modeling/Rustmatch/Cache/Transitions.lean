import Rustmatch.Cache
import Rustmatch.Engine.Exact

/-!
# Transitions of the deterministic cache

One transition computes the set of states that a symbol leads to, as a sorted list, and a table
remembers its result. The marks of the closure are stamps, and each transition is a new generation
of them.

## Main results

* `mem_computeTransition`: a transition is the sorted list of the successors;
* `transition_setTransition`: filling in an unknown transition.
-/

open Relation MarkedSearch

namespace Rustmatch

/-- The states that a symbol leads to from a list of states, with their closure. -/
def PatternDatabase.Successors (database : PatternDatabase) (source : List StateId)
    (symbol : UInt16) : Set ℕ :=
  {s | ∃ t ∈ database.matchingTargets source symbol, Reach database.epsilonTargets t s}

/-- The stamps of the scratch are in order. -/
def Stamped (database : PatternDatabase) (scratch : Scratch) : Prop :=
  Stamps database.stateCount scratch.cacheSeen scratch.cacheGeneration

section Transitions

variable {database : PatternDatabase} {scratch scratch' : Scratch}

/-- Only the generations matter. -/
theorem Stamped.congr (h : Stamped database scratch)
    (hseen : scratch'.cacheSeen = scratch.cacheSeen)
    (hgeneration : scratch'.cacheGeneration = scratch.cacheGeneration) :
    Stamped database scratch' := by
  unfold Stamped
  rw [hseen, hgeneration]
  exact h

/-- Targets of matching edges and of epsilon edges are states of the database. -/
theorem matchingTargets_lt (hwf : database.WellFormed) {source : List StateId} {symbol : UInt16} :
    ∀ t ∈ database.matchingTargets source symbol, t < database.stateCount := by
  intro t ht
  obtain ⟨s, -, ht⟩ := List.mem_flatMap.mp ht
  obtain ⟨edge, hedge, rfl⟩ := List.mem_map.mp ht
  exact hwf.target_lt edge
    (PatternDatabase.mem_edges_of_mem_edgesFrom (List.mem_of_mem_filter hedge))

/-- Epsilon edges lead to states. -/
theorem epsilonTargets_lt (hwf : database.WellFormed) {s : ℕ} :
    ∀ t ∈ database.epsilonTargets s, t < database.stateCount := by
  intro t ht
  obtain ⟨edge, hedge, rfl⟩ := List.mem_map.mp ht
  exact hwf.target_lt edge
    (PatternDatabase.mem_edges_of_mem_edgesFrom (List.mem_of_mem_filter hedge))

/-- After a reset, a transition gives the successors in increasing order. -/
theorem mem_computeTransition (hwf : database.WellFormed) (h : Stamped database scratch)
    (source : List StateId) (symbol : UInt16) :
    Stamped database (computeTransition database source symbol scratch.resetCachedTransition) ∧
      (computeTransition database source symbol scratch.resetCachedTransition).next.Pairwise
        (· < ·) ∧
      ∀ s, s ∈ (computeTransition database source symbol scratch.resetCachedTransition).next ↔
        s ∈ database.Successors source symbol := by
  have hstart : Explored (generationMarks scratch.resetCachedTransition.cacheGeneration)
      database.epsilonTargets database.stateCount scratch.resetCachedTransition.cacheSeen [] :=
    Explored.empty h.next.1.length_eq fun s hs => h.marked_next hs
  obtain ⟨hexplored, hmem⟩ := foldl_extend_spec
    (fun u _ v hv => epsilonTargets_lt hwf v hv) hstart
    (matchingTargets_lt hwf : ∀ t ∈ database.matchingTargets source symbol, _)
  refine ⟨h.next.1.foldl_extend _ _, SortedLists.pairwise_lt_mergeSort hexplored.nodup,
    fun s => ?_⟩
  refine List.mem_mergeSort.trans ((hmem s).trans ?_)
  simp [PatternDatabase.Successors]

/-- The successors of a frontier are the next frontier. -/
theorem successors_eq_frontier {input : List UInt16} {start p : ℕ} {source : List StateId}
    {symbol : UInt16} (hsymbol : input[p]? = some symbol)
    (hsource : ∀ s, s ∈ source ↔ s ∈ database.Frontier (Reading.contextFree input) database.root
      start (p, decide (start < p))) :
    database.Successors source symbol =
      database.Frontier (Reading.contextFree input) database.root start (p + 1, true) := by
  ext s
  have hmatching : ∀ t, t ∈ database.matchingTargets source symbol ↔ ∃ u ∈ source, ∃ l,
      database.Graph u l t ∧
        (Reading.contextFree input).act l (p, decide (start < p)) (p + 1, true) := fun t =>
    @mem_matchingTargets_iff database (Reading.contextFree input) (p, decide (start < p)) symbol
      hsymbol source t
  rw [mem_frontier_succ follows_epsilonTargets]
  constructor
  · rintro ⟨t, ht, hreach⟩
    obtain ⟨u, hu, l, hedge, hact⟩ := (hmatching t).mp ht
    exact ⟨u, (hsource u).mp hu, l, t, hedge, hact, hreach⟩
  · rintro ⟨u, hu, l, t, hedge, hact, hreach⟩
    exact ⟨t, (hmatching t).mpr ⟨u, (hsource u).mpr hu, l, hedge, hact⟩, hreach⟩

/-- Transitions leave the slots alone. -/
theorem Terminals.computeTransition {count : ℕ} {best : ℕ → Option ℕ}
    (h : Terminals count best scratch) (source : List StateId) (symbol : UInt16) :
    Terminals count best
      (Rustmatch.computeTransition database source symbol scratch.resetCachedTransition) := by
  exact h.congr rfl rfl

end Transitions

/-! ### Transition tables -/

namespace DeterministicState

variable {state : DeterministicState}

/-- The table has a slot for every ASCII symbol, and lists no unknown transition beyond. -/
structure Tabled (state : DeterministicState) : Prop where
  /-- Every ASCII symbol has a slot. -/
  ascii_length : state.asciiTransitions.length = 128
  /-- The list holds entries that have been computed. -/
  known : ∀ entry ∈ state.nonAsciiTransitions, entry.2 ≠ unknownTransition

/-- A new state knows no transition. -/
theorem transition_new (database : PatternDatabase) (nfaStates : List StateId) (symbol : UInt16) :
    (new database nfaStates).transition symbol = unknownTransition := by
  unfold transition new
  split
  · rw [List.getD_eq_getElem?_getD, List.getElem?_getD_replicate_default_eq]
  · rfl

/-- The tables of a new state have their shape. -/
theorem tabled_new (database : PatternDatabase) (nfaStates : List StateId) :
    (new database nfaStates).Tabled :=
  ⟨List.length_replicate, fun _ h => absurd h List.not_mem_nil⟩

/-- Filling in an unknown transition changes the table at its symbol only. -/
theorem transition_setTransition (h : state.Tabled) {symbol : UInt16} {value : ℕ}
    (hunknown : state.transition symbol = unknownTransition) (other : UInt16) :
    (state.setTransition symbol value).transition other =
      if other = symbol then value else state.transition other := by
  unfold setTransition
  by_cases hascii : symbol < 128
  · rw [if_pos hascii]
    unfold transition
    by_cases hother : other < 128
    · have hlt : symbol.toNat < state.asciiTransitions.length := by
        rw [h.ascii_length]
        exact UInt16.lt_iff_toNat_lt.mp hascii
      rw [if_pos hother, if_pos hother, List.getD_eq_getElem?_getD, List.getElem?_set]
      by_cases heq : other = symbol
      · subst heq
        rw [if_pos rfl, if_pos hlt, if_pos rfl]
        rfl
      · have hne : symbol.toNat ≠ other.toNat := fun h => heq (UInt16.toNat_inj.mp h).symm
        rw [if_neg hne, if_neg heq, List.getD_eq_getElem?_getD]
    · rw [if_neg hother, if_neg hother, if_neg]
      exact fun heq => hother (heq ▸ hascii)
  · rw [if_neg hascii]
    unfold transition at hunknown ⊢
    rw [if_neg hascii] at hunknown
    by_cases hother : other < 128
    · rw [if_pos hother, if_pos hother, if_neg]
      exact fun heq => hascii (heq ▸ hother)
    · rw [if_neg hother, if_neg hother, List.lookup_append]
      by_cases heq : other = symbol
      · subst heq
        -- an unknown symbol beyond ASCII is not listed yet
        have hnone : state.nonAsciiTransitions.lookup other = none := by
          cases hlookup : state.nonAsciiTransitions.lookup other with
          | none => rfl
          | some value =>
            rw [hlookup, Option.getD_some] at hunknown
            obtain ⟨l, r, hsplit, -⟩ := List.lookup_eq_some_iff.mp hlookup
            have hmem : (other, value) ∈ state.nonAsciiTransitions := by
              rw [hsplit]
              simp
            exact absurd hunknown (h.known _ hmem)
        rw [if_pos rfl, hnone]
        simp
      · rw [if_neg heq]
        cases state.nonAsciiTransitions.lookup other with
        | none => simp [List.lookup_cons, List.lookup_nil, beq_eq_false_iff_ne.mpr heq]
        | some value => rfl

/-- Storing an entry keeps the shape of the tables. -/
theorem Tabled.setTransition (h : state.Tabled) (symbol : UInt16) {value : ℕ}
    (hvalue : value ≠ unknownTransition) : (state.setTransition symbol value).Tabled := by
  unfold DeterministicState.setTransition
  split
  · exact ⟨by rw [List.length_set, h.ascii_length], h.known⟩
  · refine ⟨h.ascii_length, fun entry hentry => ?_⟩
    cases List.mem_append.mp hentry with
    | inl hold => exact h.known entry hold
    | inr hnew =>
      rw [List.mem_singleton.mp hnew]
      exact hvalue

/-- Storing an entry keeps the set. -/
@[simp]
theorem nfaStates_setTransition (state : DeterministicState) (symbol : UInt16) (value : ℕ) :
    (state.setTransition symbol value).nfaStates = state.nfaStates := by
  unfold DeterministicState.setTransition
  split <;> rfl

/-- Storing an entry keeps the terminals. -/
@[simp]
theorem terminals_setTransition (state : DeterministicState) (symbol : UInt16) (value : ℕ) :
    (state.setTransition symbol value).terminals = state.terminals := by
  unfold DeterministicState.setTransition
  split <;> rfl

end DeterministicState

end Rustmatch

import Mathlib.Order.Lattice.Nat
import Rustmatch.Engine
import Rustmatch.Hir.Denotation
import Rustmatch.Nfa.Patterns

/-!
# Frontiers and longest ends

What a scan of one start is meant to compute, stated on the graph of a database. The frontier of a
position holds the states that some path from the root reaches there. It starts as the closure of
the root and moves on one symbol at a time: the closure of what the matching edges lead to. The
events of a start report, for each ordinal, the longest end at which it is accepted.

## Main definitions

* `PatternDatabase.Frontier`: the states reached at a position;
* `Follows`: a successor function that gives exactly the zero-width edges of a reading;
* `longestEnd`, `PatternDatabase.eventsAt`: the longest accepted ends and the events they make.

## Main results

* `mem_frontier_start`, `mem_frontier_succ`: how frontiers are computed;
* `follows_epsilonTargets`, `follows_assertionTargets`: the two engines and their readings.
-/

open LabelledGraph Relation MarkedSearch

namespace Rustmatch

/-! ### Longest ends -/

/-- The greatest element of a bounded set of ends, if there is one. -/
noncomputable def longestEnd (ends : Set ℕ) : Option ℕ :=
  haveI := Classical.dec ends.Nonempty
  if ends.Nonempty then some (sSup ends) else none

/-- Without ends there is no longest one. -/
theorem longestEnd_empty : longestEnd ∅ = none := if_neg Set.not_nonempty_empty

/-- The longest end is the greatest. -/
theorem longestEnd_of_isGreatest {ends : Set ℕ} {stop : ℕ} (h : IsGreatest ends stop) :
    longestEnd ends = some stop := by
  unfold longestEnd
  rw [if_pos h.nonempty, h.csSup_eq]

/-- A longest end is the greatest one. -/
theorem longestEnd_eq_some_iff {ends : Set ℕ} (hb : BddAbove ends) {stop : ℕ} :
    longestEnd ends = some stop ↔ IsGreatest ends stop := by
  constructor
  · intro h
    unfold longestEnd at h
    split at h
    next hne =>
      obtain rfl := Option.some.inj h
      exact ⟨Nat.sSup_mem hne hb, fun stop hstop => le_csSup hb hstop⟩
    next => cases h
  · exact longestEnd_of_isGreatest

/-- There is a longest end when there are ends. -/
theorem longestEnd_eq_none_iff {ends : Set ℕ} : longestEnd ends = none ↔ ends = ∅ := by
  unfold longestEnd
  rw [← Set.not_nonempty_iff_eq_empty]
  split
  next hne => simp [hne]
  next hne => simp [hne]

/-! ### Frontiers -/

namespace PatternDatabase

variable (database : PatternDatabase) (R : Reading) (root start : ℕ)

/-- The states that a path from the root reaches in a configuration. -/
def Frontier (c : Config) : Set ℕ :=
  {s | Along R.act database.Graph root s (start, false) c}

/-- The events of one start: the longest end of every ordinal that has one, by ordinal. -/
noncomputable def eventsAt : List Match :=
  (List.range database.patternCount).filterMap fun ordinal =>
    (longestEnd (database.ends R root ordinal start)).map fun stop =>
      ⟨database.patternId ordinal, ⟨start, stop⟩⟩

end PatternDatabase

/-- The zero-width edges of a reading, as a successor function at every configuration. -/
structure Follows (R : Reading) (database : PatternDatabase)
    (follow : Config → StateId → List StateId) : Prop where
  /-- The successors are the targets of the zero-width edges that hold here. -/
  mem_iff : ∀ c s t, t ∈ follow c s ↔ ∃ l, database.Graph s l t ∧ R.act l c c

section Frontier

variable {database : PatternDatabase} {R : Reading} {root start : ℕ}
  {follow : Config → StateId → List StateId}

/-- Walks advance. -/
theorem Advances.of_walk {x y : ℕ × Config} (w : Walk R.act database.Graph x y) :
    Hir.Advances R x.2 y.2 := by
  induction w with
  | refl => exact Hir.Advances.refl _
  | tail _ hmove ih =>
    obtain ⟨l, -, hact⟩ := hmove
    exact ih.trans (Hir.Advances.of_act hact)

/-- The phase of a configuration that a scan from `start` reaches is determined by its position. -/
theorem phase_of_mem_frontier {s p : ℕ} {phase : Bool}
    (h : s ∈ database.Frontier R root start (p, phase)) :
    start ≤ p ∧ phase = decide (start < p) ∧ (start < p → p ≤ R.input.length) := by
  have hadvances := Advances.of_walk h
  cases hadvances with
  | inl heq =>
    obtain ⟨rfl, rfl⟩ := Prod.mk.inj heq
    simp
  | inr hlt =>
    obtain ⟨hlt, hle, hphase⟩ := hlt
    have hlt : start < p := hlt
    exact ⟨hlt.le, by rw [decide_eq_true hlt]; exact hphase, fun _ => hle⟩

/-- A closure at a configuration is a walk that stays there. -/
theorem along_of_reach (hfollow : Follows R database follow) {c : Config} {s t : ℕ}
    (h : Reach (follow c) s t) : Along R.act database.Graph s t c c := by
  induction h with
  | refl => exact Along.refl _ _
  | tail _ hstep ih =>
    obtain ⟨l, hedge, hact⟩ := (hfollow.mem_iff c _ _).mp hstep
    exact ih.trans (Along.edge hedge hact)

/-- Before the first symbol: the closure of the root. -/
theorem mem_frontier_start (hfollow : Follows R database follow) {s : ℕ} :
    s ∈ database.Frontier R root start (start, false) ↔ Reach (follow (start, false)) root s := by
  constructor
  · intro w
    -- a walk that ends where it began has been there all along
    have hstay : ∀ y : ℕ × Config, Walk R.act database.Graph (root, (start, false)) y →
        y.2 = (start, false) → Reach (follow (start, false)) root y.1 := by
      intro y w
      induction w with
      | refl => exact fun _ => ReflTransGen.refl
      | @tail x y w hmove ih =>
        intro hy
        obtain ⟨l, hedge, hact⟩ := hmove
        rw [hy] at hact
        have hx : x.2 = (start, false) := by
          cases Hir.Advances.of_act hact with
          | inl heq => exact heq.symm
          | inr hlt => exact absurd hlt.2.2 Bool.false_ne_true
        rw [hx] at hact
        exact (ih hx).tail ((hfollow.mem_iff _ _ _).mpr ⟨l, hedge, hact⟩)
    exact hstay _ w rfl
  · exact along_of_reach hfollow

/-- After one more symbol: the closure of what the edges for it lead to. -/
theorem mem_frontier_succ (hfollow : Follows R database follow) {p s : ℕ} :
    s ∈ database.Frontier R root start (p + 1, true) ↔
      ∃ u ∈ database.Frontier R root start (p, decide (start < p)), ∃ l v,
        database.Graph u l v ∧ R.act l (p, decide (start < p)) (p + 1, true) ∧
          Reach (follow (p + 1, true)) v s := by
  constructor
  · intro w
    have hlast : ∀ y : ℕ × Config, Walk R.act database.Graph (root, (start, false)) y →
        y.2 = (p + 1, true) →
        ∃ u ∈ database.Frontier R root start (p, decide (start < p)), ∃ l v,
          database.Graph u l v ∧ R.act l (p, decide (start < p)) (p + 1, true) ∧
            Reach (follow (p + 1, true)) v y.1 := by
      intro y w
      induction w with
      | refl =>
        intro hy
        exact absurd (Prod.mk.inj hy).2 Bool.false_ne_true
      | @tail x y w hmove ih =>
        intro hy
        obtain ⟨l, hedge, hact⟩ := hmove
        rw [hy] at hact
        cases R.act_cases hact with
        | inl hstay =>
          -- the last move stays at the new position and prolongs the closure
          obtain ⟨u, hu, k, v, huv, hconsume, hreach⟩ := ih hstay.symm
          rw [← hstay] at hact
          exact ⟨u, hu, k, v, huv, hconsume,
            hreach.tail ((hfollow.mem_iff _ _ _).mpr ⟨l, hedge, hact⟩)⟩
        | inr hmoves =>
          -- the last move consumes the symbol
          obtain ⟨x₁, q, phase⟩ := x
          obtain rfl : p = q := Nat.succ.inj (Prod.mk.inj hmoves.2).1
          have hmem : x₁ ∈ database.Frontier R root start (p, phase) := w
          obtain ⟨-, rfl, -⟩ := phase_of_mem_frontier hmem
          exact ⟨x₁, hmem, l, y.1, hedge, hact, ReflTransGen.refl⟩
    exact hlast _ w rfl
  · rintro ⟨u, hu, l, v, hedge, hact, hreach⟩
    exact (Along.trans hu (Along.edge hedge hact)).trans (along_of_reach hfollow hreach)

/-- Acceptance is a reported state in a frontier. -/
theorem mem_ends_iff {ordinal stop : ℕ} :
    stop ∈ database.ends R root ordinal start ↔ start < stop ∧
      ∃ s ∈ database.Frontier R root start (stop, true), ordinal ∈ database.terminalsAt s := by
  constructor
  · rintro ⟨hlt, phase, s, hs, w⟩
    obtain ⟨-, hphase, -⟩ := phase_of_mem_frontier w
    rw [decide_eq_true hlt] at hphase
    subst hphase
    exact ⟨hlt, s, w, hs⟩
  · rintro ⟨hlt, s, w, hs⟩
    exact ⟨hlt, true, s, hs, w⟩

/-- Accepted ends lie inside the input. -/
theorem ends_bounded {ordinal stop : ℕ} (h : stop ∈ database.ends R root ordinal start) :
    start < stop ∧ stop ≤ R.input.length := by
  obtain ⟨hlt, s, hs, -⟩ := mem_ends_iff.mp h
  exact ⟨hlt, (phase_of_mem_frontier hs).2.2 hlt⟩

/-- Ends lie in the text. -/
theorem bddAbove_ends (ordinal : ℕ) : BddAbove (database.ends R root ordinal start) :=
  ⟨R.input.length, fun _ h => (ends_bounded h).2⟩

/-- The events of a start report, for each ordinal, the greatest accepted end and nothing else. -/
theorem mem_eventsAt_iff {event : Match} :
    event ∈ database.eventsAt R root start ↔ ∃ ordinal < database.patternCount,
      event.patternId = database.patternId ordinal ∧ event.span.start = start ∧
        IsGreatest (database.ends R root ordinal start) event.span.stop := by
  unfold PatternDatabase.eventsAt
  simp only [List.mem_filterMap, List.mem_range, Option.map_eq_some_iff]
  constructor
  · rintro ⟨ordinal, hlt, stop, hstop, rfl⟩
    exact ⟨ordinal, hlt, rfl, rfl, (longestEnd_eq_some_iff (bddAbove_ends ordinal)).mp hstop⟩
  · rintro ⟨ordinal, hlt, hid, hstart, hgreatest⟩
    obtain ⟨id, first, stop⟩ := event
    obtain rfl : id = database.patternId ordinal := hid
    obtain rfl : first = start := hstart
    exact ⟨ordinal, hlt, stop, longestEnd_of_isGreatest hgreatest, rfl⟩

end Frontier

/-! ### What the engines follow -/

section Edges

variable {database : PatternDatabase} {input : List UInt16}

/-- A filter on edge kinds that agrees with a condition on labels selects the targets of the edges
whose label meets the condition. -/
theorem mem_targets_iff {test : EdgeKind → Bool} {P : Label → Prop}
    (hknown : ∀ kind, test kind = true → ∃ l, database.label kind = some l)
    (hiff : ∀ kind l, database.label kind = some l → (test kind = true ↔ P l)) {s t : ℕ} :
    t ∈ ((database.edgesFrom s).filter fun edge => test edge.kind).map Edge.target ↔
      ∃ l, database.Graph s l t ∧ P l := by
  simp only [List.mem_map, List.mem_filter]
  constructor
  · rintro ⟨edge, ⟨hedge, htest⟩, ht⟩
    obtain ⟨l, hl⟩ := hknown edge.kind htest
    exact ⟨l, ⟨edge, hedge, ht, hl⟩, (hiff edge.kind l hl).mp htest⟩
  · rintro ⟨l, ⟨edge, hedge, ht, hl⟩, hP⟩
    exact ⟨edge, ⟨hedge, (hiff edge.kind l hl).mpr hP⟩, ht⟩

/-- `extend_epsilon_closure` follows the edges that no symbol and no context is needed for. -/
theorem follows_epsilonTargets :
    Follows (Reading.contextFree input) database fun _ => database.epsilonTargets where
  mem_iff c s t := by
    refine @mem_targets_iff database (fun kind => kind == .epsilon) _ (fun kind htest => ?_)
      (fun kind l hl => ?_) s t
    · exact ⟨.epsilon, by rw [beq_iff_eq.mp htest]; rfl⟩
    · cases kind with
      | epsilon =>
        obtain rfl := Option.some.inj hl
        exact iff_of_true rfl rfl
      | assertion a =>
        obtain rfl := Option.some.inj hl
        exact iff_of_false Bool.false_ne_true fun hact => Bool.false_ne_true hact.1
      | symbol u =>
        obtain rfl := Option.some.inj hl
        exact iff_of_false Bool.false_ne_true (Reading.not_consumes_self _)
      | predicate id =>
        obtain ⟨p, -, rfl⟩ := Option.map_eq_some_iff.mp hl
        exact iff_of_false Bool.false_ne_true (Reading.not_consumes_self _)

/-- `extend_assertion_closure` also follows the assertions that hold at the position. -/
theorem follows_assertionTargets :
    Follows (Reading.contextual input) database (database.assertionTargets input) where
  mem_iff c s t := by
    refine @mem_targets_iff database (PatternDatabase.followsWithoutConsuming input c) _
      (fun kind htest => ?_) (fun kind l hl => ?_) s t
    · cases kind with
      | epsilon => exact ⟨.epsilon, rfl⟩
      | assertion a => exact ⟨.assertion a, rfl⟩
      | symbol u => exact absurd htest Bool.false_ne_true
      | predicate id => exact absurd htest Bool.false_ne_true
    · cases kind with
      | epsilon =>
        obtain rfl := Option.some.inj hl
        exact iff_of_true rfl rfl
      | assertion a =>
        obtain rfl := Option.some.inj hl
        exact ⟨fun htest => ⟨htest, rfl⟩, fun hact => hact.1⟩
      | symbol u =>
        obtain rfl := Option.some.inj hl
        exact iff_of_false Bool.false_ne_true (Reading.not_consumes_self _)
      | predicate id =>
        obtain ⟨p, -, rfl⟩ := Option.map_eq_some_iff.mp hl
        exact iff_of_false Bool.false_ne_true (Reading.not_consumes_self _)

/-- The edges that a symbol matches are those that consume it. -/
theorem mem_matchingTargets_iff {R : Reading} {c : Config} {symbol : UInt16}
    (hsymbol : R.input[c.1]? = some symbol) {source : List StateId} {t : ℕ} :
    t ∈ database.matchingTargets source symbol ↔
      ∃ s ∈ source, ∃ l, database.Graph s l t ∧ R.act l c (c.1 + 1, true) := by
  -- an edge that reads nothing stays where it is, so it does not lead behind the symbol
  have hne : c.1 ≠ c.1 + 1 := (Nat.succ_ne_self _).symm
  have htargets : ∀ s, t ∈ ((database.edgesFrom s).filter fun edge =>
        database.edgeMatches edge.kind symbol).map Edge.target ↔
      ∃ l, database.Graph s l t ∧ R.act l c (c.1 + 1, true) := by
    intro s
    -- every edge that matches has a label, and the label acts as the edge is tested
    refine @mem_targets_iff database (fun kind => database.edgeMatches kind symbol) _
      (fun kind htest => ?_) (fun kind l hl => ?_) s t
    · cases kind with
      | epsilon => exact absurd htest Bool.false_ne_true
      | assertion a => exact absurd htest Bool.false_ne_true
      | symbol u => exact ⟨.symbol u, rfl⟩
      | predicate id =>
        obtain ⟨p, hp, -⟩ := (Option.any_eq_true ..).mp htest
        exact ⟨.predicate p, by rw [PatternDatabase.label, hp]; rfl⟩
    · cases kind with
      | epsilon =>
        obtain rfl := Option.some.inj hl
        exact iff_of_false Bool.false_ne_true fun hact => hne (congrArg Prod.fst hact)
      | assertion a =>
        obtain rfl := Option.some.inj hl
        exact iff_of_false Bool.false_ne_true fun hact => hne (congrArg Prod.fst hact.2)
      | symbol u =>
        obtain rfl := Option.some.inj hl
        exact (R.consumes_iff hsymbol).symm
      | predicate id =>
        obtain ⟨p, hp, rfl⟩ := Option.map_eq_some_iff.mp hl
        show database.edgeMatches (.predicate id) symbol = true ↔ _
        rw [PatternDatabase.edgeMatches, hp, Option.any_some]
        exact (R.consumes_iff hsymbol).symm
  simp only [PatternDatabase.matchingTargets, List.mem_flatMap, htargets]

end Edges

end Rustmatch

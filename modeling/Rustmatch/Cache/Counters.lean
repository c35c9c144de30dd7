import Mathlib.Algebra.Group.Action.Defs
import Mathlib.Algebra.Order.BigOperators.Group.List
import Mathlib.Algebra.Order.Group.Nat
import Mathlib.Data.Fintype.Card
import Mathlib.Data.Fintype.Powerset
import Mathlib.Order.Interval.Finset.Nat
import Rustmatch.Cache.Run

/-!
# What the counters of a cached scan count

Hits, misses and fallbacks are counted by the transitions of the cached engine. Over a whole scan
they account for every symbol that the exact engine would read, once each; a miss whose successors
did not fit is counted as a fallback too. Misses are the slots that have been filled in, so no slot
misses twice. Fallbacks only happen once the cache is full.

The counters of the source are `u64`. Each of them grows by one at a time, so a scan would have to
make more than `2 ^ 64` transitions to overflow one; the counters are natural numbers here.

## Main definitions

* `DeterministicCache.entries`: the slots of the tables with a given kind of entry;
* `PatternDatabase.symbolsRead`: the symbols behind a start until no state is left;
* `CachedMoment.Counted`: what the counters say at every moment.

## Main results

* `cached_scan_counts`: the counters of a whole scan;
* `fallbacks_only_when_full`: fallbacks and the budget.
-/

open Relation MarkedSearch

namespace Rustmatch

/-! ### Slots -/

/-- The slots of a table whose entry satisfies `p`. -/
def DeterministicState.slots (p : ℕ → Bool) (state : DeterministicState) :
    Finset (Fin UInt16.size) :=
  Finset.univ.filter fun symbol => p (state.transition (UInt16.ofFin symbol)) = true

/-- How many slots of all tables have an entry that satisfies `p`. -/
def DeterministicCache.entries (p : ℕ → Bool) (cache : DeterministicCache) : ℕ :=
  (cache.states.map fun state => (state.slots p).card).sum

/-- Some transition is stored. -/
def isKnown (entry : ℕ) : Bool := entry != unknownTransition

/-- The successors did not fit. -/
def isFallback (entry : ℕ) : Bool := entry == fallbackTransition

section Slots

variable {p : ℕ → Bool}

/-- A new table has no entries. -/
theorem slots_new (hp : p unknownTransition = false) (database : PatternDatabase)
    (set : List StateId) : (DeterministicState.new database set).slots p = ∅ := by
  unfold DeterministicState.slots
  rw [Finset.filter_eq_empty_iff]
  intro symbol _
  rw [DeterministicState.transition_new, hp]
  exact Bool.false_ne_true

/-- Filling in an unknown slot adds that slot, if its entry counts. -/
theorem card_slots_setTransition (hp : p unknownTransition = false) {state : DeterministicState}
    (htabled : state.Tabled) {symbol : UInt16} {entry : ℕ}
    (hunknown : state.transition symbol = unknownTransition) :
    ((state.setTransition symbol entry).slots p).card =
      (state.slots p).card + (p entry).toNat := by
  have hslot : symbol.toFin ∉ state.slots p := by
    unfold DeterministicState.slots
    rw [Finset.mem_filter, UInt16.ofFin_toFin, hunknown, hp]
    exact fun h => Bool.false_ne_true h.2
  -- the entries of the other slots stay
  have hother : ∀ other : Fin UInt16.size, other ≠ symbol.toFin →
      (other ∈ (state.setTransition symbol entry).slots p ↔ other ∈ state.slots p) := by
    intro other hne
    have hsymbol : UInt16.ofFin other ≠ symbol := by
      rintro rfl
      exact hne (UInt16.toFin_ofFin other).symm
    unfold DeterministicState.slots
    rw [Finset.mem_filter, Finset.mem_filter,
      DeterministicState.transition_setTransition htabled hunknown, if_neg hsymbol]
  have hself : symbol.toFin ∈ (state.setTransition symbol entry).slots p ↔ p entry = true := by
    unfold DeterministicState.slots
    rw [Finset.mem_filter, UInt16.ofFin_toFin,
      DeterministicState.transition_setTransition htabled hunknown, if_pos rfl]
    exact and_iff_right (Finset.mem_univ _)
  cases hentry : p entry with
  | false =>
    have hsame : (state.setTransition symbol entry).slots p = state.slots p := by
      ext other
      by_cases heq : other = symbol.toFin
      · rw [heq, hself, hentry]
        exact iff_of_false Bool.false_ne_true hslot
      · exact hother other heq
    rw [hsame]
    exact (Nat.add_zero _).symm
  | true =>
    have hinsert : (state.setTransition symbol entry).slots p =
        insert symbol.toFin (state.slots p) := by
      ext other
      rw [Finset.mem_insert]
      by_cases heq : other = symbol.toFin
      · rw [heq, hself, hentry]
        exact iff_of_true rfl (Or.inl rfl)
      · rw [hother other heq]
        exact (or_iff_right heq).symm
    rw [hinsert, Finset.card_insert_of_notMem hslot, Bool.toNat_true]

/-- A sum over a list in which one item is changed. -/
theorem sum_map_modify {α : Type} (f : α → ℕ) (change : α → α) {items : List α} {index : ℕ}
    {item : α} (hitem : items[index]? = some item) :
    ((items.modify index change).map f).sum + f item = (items.map f).sum + f (change item) := by
  induction items generalizing index with
  | nil => cases hitem
  | cons first items ih =>
    cases index with
    | zero =>
      obtain rfl := Option.some.inj hitem
      rw [List.modify_zero_cons, List.map_cons, List.map_cons, List.sum_cons, List.sum_cons]
      omega
    | succ index =>
      have hrest := ih hitem
      rw [List.modify_succ_cons, List.map_cons, List.map_cons, List.sum_cons, List.sum_cons]
      omega

variable {cache : DeterministicCache}

/-- Storing an entry in an unknown slot. -/
theorem entries_setTransition (hp : p unknownTransition = false) {id : ℕ}
    {state : DeterministicState} (hid : cache.states[id]? = some state) (htabled : state.Tabled)
    {symbol : UInt16} {entry : ℕ} (hunknown : state.transition symbol = unknownTransition) :
    (cache.setTransition id symbol entry).entries p = cache.entries p + (p entry).toNat := by
  have hsum := sum_map_modify (fun state => (state.slots p).card)
    (fun state => state.setTransition symbol entry) hid
  rw [card_slots_setTransition hp htabled hunknown] at hsum
  show ((cache.states.modify id _).map _).sum = (cache.states.map _).sum + _
  omega

/-- Interning a set stores no entry. -/
theorem entries_intern (hp : p unknownTransition = false) (database : PatternDatabase)
    (set : List StateId) : (cache.intern database set).2.entries p = cache.entries p := by
  unfold DeterministicCache.intern
  split
  next => rfl
  next =>
    split
    next => rfl
    next =>
      show ((cache.states ++ [DeterministicState.new database set]).map _).sum = _
      rw [List.map_append, List.sum_append, List.map_singleton, List.sum_singleton,
        slots_new hp]
      exact Nat.add_zero _

/-- No table has more slots than there are symbols. -/
theorem entries_le (p : ℕ → Bool) (cache : DeterministicCache) :
    cache.entries p ≤ UInt16.size * cache.states.length := by
  have hle : ∀ entry ∈ cache.states.map fun state => (state.slots p).card,
      entry ≤ UInt16.size := by
    intro entry hentry
    obtain ⟨state, -, rfl⟩ := List.mem_map.mp hentry
    exact (Finset.card_filter_le _ _).trans_eq (Finset.card_fin _)
  have hsum := List.sum_le_card_nsmul _ _ hle
  rw [List.length_map, smul_eq_mul, Nat.mul_comm] at hsum
  exact hsum

end Slots

/-! ### Symbols -/

namespace PatternDatabase

variable (database : PatternDatabase) (input : List UInt16) (start : ℕ)

/-- Some state is left before the symbol at a position. -/
def Alive (p : ℕ) : Prop :=
  (database.Frontier (Reading.contextFree input) database.root start
    (p, decide (start < p))).Nonempty

open Classical in
/-- The symbols that a start reads: those before which some state is left. -/
noncomputable def symbolsRead : ℕ :=
  ((Finset.Ico start input.length).filter fun p => database.Alive input start p).card

variable {database input start}

/-- The root is left at its own start. -/
theorem alive_start : database.Alive input start start := by
  refine ⟨database.root, ?_⟩
  rw [decide_eq_false (lt_irrefl start), mem_frontier_start follows_epsilonTargets]

/-- A start is alive behind a symbol when its frontier is not empty. -/
theorem alive_succ_iff {p : ℕ} (hp : start ≤ p) : database.Alive input start (p + 1) ↔
    (database.Frontier (Reading.contextFree input) database.root start (p + 1, true)).Nonempty := by
  unfold Alive
  rw [decide_eq_true (Nat.lt_succ_of_le hp)]

/-- Where some state is left, some state was left before. -/
theorem Alive.of_succ {p : ℕ} (hp : start ≤ p) (h : database.Alive input start (p + 1)) :
    database.Alive input start p := by
  obtain ⟨s, hs⟩ := (alive_succ_iff hp).mp h
  obtain ⟨t, ht, -⟩ := (mem_frontier_succ follows_epsilonTargets).mp hs
  exact ⟨t, ht⟩

/-- A start that is alive was alive before. -/
theorem Alive.of_le {p q : ℕ} (hp : start ≤ p) (hpq : p ≤ q)
    (h : database.Alive input start q) : database.Alive input start p := by
  induction hpq with
  | refl => exact h
  | step hle ih => exact ih (h.of_succ (hp.trans hle))

/-- The symbols read by a start whose states die out behind a symbol. -/
theorem symbolsRead_of_dead {p : ℕ} (hp : start ≤ p) (hlt : p < input.length)
    (halive : database.Alive input start p) (hdead : ¬ database.Alive input start (p + 1)) :
    database.symbolsRead input start = p + 1 - start := by
  classical
  unfold symbolsRead
  rw [← Nat.card_Ico start (p + 1)]
  congr 1
  ext q
  rw [Finset.mem_filter, Finset.mem_Ico, Finset.mem_Ico]
  constructor
  · rintro ⟨⟨hq, -⟩, hlive⟩
    refine ⟨hq, Nat.lt_of_not_le fun hle => ?_⟩
    exact hdead (hlive.of_le (by omega) hle)
  · rintro ⟨hq, hle⟩
    exact ⟨⟨hq, by omega⟩, halive.of_le hq (by omega)⟩

/-- The symbols read by a start that reaches the end of the input. -/
theorem symbolsRead_of_length_le {p : ℕ} (hp : start ≤ p) (hle : input.length ≤ p)
    (hend : p = start ∨ p ≤ input.length) (halive : database.Alive input start p) :
    database.symbolsRead input start = p - start := by
  classical
  have hall : ∀ q ∈ Finset.Ico start input.length, database.Alive input start q := by
    intro q hq
    have hq := Finset.mem_Ico.mp hq
    exact halive.of_le hq.1 (by omega)
  unfold symbolsRead
  rw [Finset.filter_true_of_mem hall, Nat.card_Ico]
  omega

end PatternDatabase

/-! ### One transition -/

/-- The transitions that the counters know of. -/
def ScanStats.transitions (metrics : ScanStats) : ℕ :=
  metrics.cacheHits + metrics.cacheMisses + metrics.fallbackTransitions

/-- Only the counters of transitions differ. -/
def ScanStats.Continues (metrics base : ScanStats) : Prop :=
  metrics = { base with
    cacheHits := metrics.cacheHits
    cacheMisses := metrics.cacheMisses
    fallbackTransitions := metrics.fallbackTransitions }

/-- Who continues a continuation continues what that continues. -/
theorem ScanStats.Continues.trans {metrics metrics' base : ScanStats}
    (h : metrics.Continues base) (h' : metrics'.Continues metrics) : metrics'.Continues base := by
  unfold Continues at h h' ⊢
  rw [h', h]

section Transitions

variable {database : PatternDatabase} {budget : ℕ} {scan : CachedScan}

/-- What an entry does to the counters. -/
theorem outcomeFor_counts (entry : ℕ) (metrics : ScanStats) :
    let outcome := CachedScan.outcomeFor entry metrics
    outcome.2.Continues metrics ∧ outcome.2.cacheMisses = metrics.cacheMisses ∧
      outcome.2.fallbackTransitions = metrics.fallbackTransitions + (isFallback entry).toNat ∧
      outcome.2.transitions = metrics.transitions + (isFallback entry).toNat ∧
      (outcome.1 = .uncached → isFallback entry = true) := by
  unfold CachedScan.outcomeFor isFallback ScanStats.transitions
  by_cases hdead : entry = deadTransition
  · rw [if_pos hdead, hdead]
    exact ⟨rfl, rfl, rfl, rfl, fun h => by cases h⟩
  · rw [if_neg hdead]
    by_cases hfallback : entry = fallbackTransition
    · rw [if_pos hfallback, hfallback]
      exact ⟨rfl, rfl, rfl, rfl, fun _ => rfl⟩
    · rw [if_neg hfallback, beq_false_of_ne hfallback]
      exact ⟨rfl, rfl, rfl, rfl, fun h => by cases h⟩

/-- A fallback entry stands for successors that did not fit. -/
theorem Stored.of_isFallback {sets : List (List StateId)} {source : List StateId}
    {symbol : UInt16} {entry : ℕ} (h : Stored database budget sets source symbol entry)
    (hids : sets.length ≤ fallbackTransition) (hfallback : isFallback entry = true) :
    (database.Successors source symbol).Nonempty ∧ Full budget sets := by
  obtain rfl : entry = fallbackTransition := beq_iff_eq.mp hfallback
  -- no state has the number of the mark
  cases h with
  | fallback hne _ hfull => exact ⟨hne, hfull⟩
  | state hid _ =>
    have hlt := (List.getElem?_eq_some_iff.mp hid).1
    exact absurd hids (Nat.not_le_of_lt hlt)

/-- An outcome is dead exactly when nothing is left. -/
theorem TransitionOutcome.Reaches.dead_iff {outcome : TransitionOutcome} {successors : Set ℕ}
    (h : outcome.Reaches scan successors) (hcached : Cached database budget scan)
    (huncached : outcome = .uncached → successors.Nonempty) :
    outcome = .dead ↔ ¬ successors.Nonempty := by
  cases outcome with
  | dead =>
    rw [show successors = ∅ from h]
    exact iff_of_true rfl Set.not_nonempty_empty
  | cached id =>
    obtain ⟨set, hid, hset⟩ := h
    obtain ⟨s, hs⟩ := List.exists_mem_of_ne_nil set
      (hcached.invariant.ne_nil set (List.mem_of_getElem? hid))
    exact iff_of_false (fun heq => by cases heq) fun hempty => hempty ⟨s, (hset s).mp hs⟩
  | uncached => exact iff_of_false (fun heq => by cases heq) fun hempty => hempty (huncached rfl)

/-- Following an outcome counts nothing and leaves the cache alone. -/
theorem follow_counts (outcome : TransitionOutcome) (stop : ℕ) :
    (CachedScan.follow database outcome stop scan).2.metrics = scan.metrics ∧
      (CachedScan.follow database outcome stop scan).2.cache = scan.cache := by
  cases outcome with
  | dead => exact ⟨rfl, rfl⟩
  | cached id => exact ⟨rfl, rfl⟩
  | uncached => exact ⟨rfl, rfl⟩

/-- The cursor behind an outcome. -/
theorem follow_cursor (outcome : TransitionOutcome) (stop : ℕ) :
    (CachedScan.follow database outcome stop scan).1 = match outcome with
      | .dead => none
      | .cached id => some (.cached id)
      | .uncached => some .uncached := by
  cases outcome with
  | dead => rfl
  | cached id => rfl
  | uncached => rfl

/-- Interned sets hold states of the database. -/
def DeterministicCache.Bounded (database : PatternDatabase) (cache : DeterministicCache) : Prop :=
  ∀ set ∈ cache.sets, ∀ s ∈ set, s < database.stateCount

/-- Sets that are there stay there. -/
theorem Full.of_le {sets sets' : List (List StateId)} (h : Full budget sets)
    (hle : sets.length ≤ sets'.length) : Full budget sets' := by
  obtain h | h := h
  · exact Or.inl (h.trans hle)
  · exact Or.inr (h.trans hle)

/-- Interning a set only adds that set. -/
theorem sets_intern (cache : DeterministicCache) (set : List StateId) :
    (cache.intern database set).2.sets = cache.sets ∨
      (cache.intern database set).2.sets = cache.sets ++ [set] := by
  unfold DeterministicCache.intern
  split
  next => exact Or.inl rfl
  next =>
    split
    next => exact Or.inl rfl
    next => exact Or.inr (cache.sets_push set)

/-- Closures stay among the states of the database. -/
theorem reach_lt (hwf : database.WellFormed) {s t : ℕ} (hs : s < database.stateCount)
    (h : Reach database.epsilonTargets s t) : t < database.stateCount := by
  induction h with
  | refl => exact hs
  | tail _ hstep _ => exact epsilonTargets_lt hwf _ hstep

/-- Successors are states. -/
theorem successors_lt (hwf : database.WellFormed) {source : List StateId} {symbol : UInt16}
    {s : ℕ} (hs : s ∈ database.Successors source symbol) : s < database.stateCount := by
  obtain ⟨t, ht, hreach⟩ := hs
  exact reach_lt hwf (matchingTargets_lt hwf t ht) hreach

/-- What the first half of a new transition counts and interns. -/
theorem internSuccessors_counts (hwf : database.WellFormed) (h : Cached database budget scan)
    (hbounded : scan.cache.Bounded database) (id : ℕ) (symbol : UInt16) :
    let interned := (CachedScan.internSuccessors database id symbol scan).2
    interned.metrics.Continues scan.metrics ∧
      interned.metrics.cacheMisses = scan.metrics.cacheMisses + 1 ∧
      interned.metrics.fallbackTransitions = scan.metrics.fallbackTransitions ∧
      interned.metrics.transitions = scan.metrics.transitions + 1 ∧
      (∀ p : ℕ → Bool, p unknownTransition = false →
        interned.cache.entries p = scan.cache.entries p) ∧
      scan.cache.sets.length ≤ interned.cache.sets.length ∧
      interned.cache.Bounded database := by
  set next := (computeTransition database (scan.cache.nfaStates id) symbol
    scan.scratch.resetCachedTransition).next with hnext
  have hcache : (CachedScan.internSuccessors database id symbol scan).2.cache = scan.cache ∨
      (CachedScan.internSuccessors database id symbol scan).2.cache =
        (scan.cache.intern database next).2 := by
    unfold CachedScan.internSuccessors
    simp only
    split
    next => exact Or.inl rfl
    next => exact Or.inr rfl
  refine ⟨rfl, rfl, rfl, ?_, ?_⟩
  · show scan.metrics.cacheHits + (scan.metrics.cacheMisses + 1) +
      scan.metrics.fallbackTransitions = scan.metrics.transitions + 1
    unfold ScanStats.transitions
    omega
  obtain heq | heq := hcache
  · rw [heq]
    exact ⟨fun _ _ => rfl, le_refl _, hbounded⟩
  · rw [heq]
    refine ⟨fun p hp => entries_intern hp database next, ?_⟩
    obtain hsets | hsets := @sets_intern database scan.cache next
    · unfold DeterministicCache.Bounded
      rw [hsets]
      exact ⟨le_refl _, hbounded⟩
    · unfold DeterministicCache.Bounded
      rw [hsets]
      refine ⟨by rw [List.length_append]; omega, fun set hset => ?_⟩
      obtain hold | hnew := List.mem_append.mp hset
      · exact hbounded set hold
      · obtain rfl := List.mem_singleton.mp hnew
        intro s hs
        obtain ⟨-, -, hmem⟩ := mem_computeTransition hwf h.stamped (scan.cache.nfaStates id) symbol
        exact successors_lt hwf ((hmem s).mp hs)

/-- What a transition from a filled slot counts. -/
theorem transition_counts (h : Cached database budget scan) {id : ℕ} {state : DeterministicState}
    (hid : scan.cache.states[id]? = some state) {symbol : UInt16}
    (hknown : state.transition symbol ≠ unknownTransition) :
    let result := CachedScan.transition database id symbol scan
    result.2.cache = scan.cache ∧ result.2.metrics.Continues scan.metrics ∧
      result.2.metrics.cacheMisses = scan.metrics.cacheMisses ∧
      result.2.metrics.transitions = scan.metrics.transitions + 1 ∧
      (result.2.metrics.fallbackTransitions = scan.metrics.fallbackTransitions ∨
        Full budget scan.cache.sets) ∧
      (result.1 = .uncached → (database.Successors state.nfaStates symbol).Nonempty ∧
        Full budget scan.cache.sets) := by
  have hstored := h.invariant.stored state (List.mem_of_getElem? hid) symbol
  have hids := h.invariant.length_le_ids
  rw [← scan.cache.length_sets] at hids
  rw [h.budget_eq] at hstored
  unfold CachedScan.transition
  rw [storedTransition_of_getElem? hid, if_neg hknown]
  by_cases hfallback : state.transition symbol = fallbackTransition
  · -- the successors did not fit, and are computed once more
    have hfull := hstored.of_isFallback hids (beq_iff_eq.mpr hfallback)
    rw [if_pos hfallback]
    exact ⟨rfl, rfl, rfl, rfl, Or.inr hfull.2, fun _ => hfull⟩
  · have hnone : isFallback (state.transition symbol) = false := beq_false_of_ne hfallback
    obtain ⟨hkept, hmisses, hfallbacks, htransitions, huncached⟩ := outcomeFor_counts
      (state.transition symbol) { scan.metrics with cacheHits := scan.metrics.cacheHits + 1 }
    rw [hnone] at hfallbacks htransitions huncached
    rw [if_neg hfallback]
    refine ⟨rfl, hkept, hmisses, ?_, Or.inl hfallbacks, fun heq => ?_⟩
    · refine htransitions.trans ?_
      show scan.metrics.cacheHits + 1 + scan.metrics.cacheMisses +
        scan.metrics.fallbackTransitions = scan.metrics.transitions + 1
      unfold ScanStats.transitions
      omega
    · exact absurd (huncached heq) Bool.false_ne_true

/-- What a transition without the cache counts. -/
theorem uncachedTransition_counts (hwf : database.WellFormed) (h : Cached database budget scan)
    (symbol : UInt16) :
    let result := CachedScan.uncachedTransition database symbol scan
    result.2.cache = scan.cache ∧ result.2.metrics.Continues scan.metrics ∧
      result.2.metrics.cacheMisses = scan.metrics.cacheMisses ∧
      result.2.metrics.transitions = scan.metrics.transitions + 1 ∧
      (result.1 = .uncached →
        (database.Successors scan.scratch.active symbol).Nonempty) := by
  obtain ⟨-, -, hnext⟩ := mem_computeTransition hwf h.stamped scan.scratch.active symbol
  refine ⟨rfl, rfl, rfl, rfl, fun heq => ?_⟩
  set next := (computeTransition database scan.scratch.active symbol
    scan.scratch.resetCachedTransition).next with hnextEq
  have hne : next ≠ [] := by
    intro hnil
    have hdead : (CachedScan.uncachedTransition database symbol scan).1 = .dead := by
      show (if next.isEmpty = true then TransitionOutcome.dead else _) = _
      rw [if_pos (List.isEmpty_iff.mpr hnil)]
    rw [hdead] at heq
    cases heq
  obtain ⟨s, hs⟩ := List.exists_mem_of_ne_nil _ hne
  exact ⟨s, (hnext s).mp hs⟩

end Transitions

/-! ### The counters of a run -/

section Tally

variable (database : PatternDatabase) (budget : ℕ) (input : List UInt16) (base : ScanStats)
  (all : List ℕ)

/-- What the counters of a scan say, `base` being what they began with: behind the starts that are
done, `readSoFar` symbols of the next one have been read; `pending` transitions are counted as
misses while their slots are still to be filled in. -/
structure Tally (readSoFar pending : ℕ) (upcoming : List ℕ) (scan : CachedScan) : Prop where
  /-- The other counters are those the scan began with. -/
  continues : scan.metrics.Continues base
  /-- A miss is a slot that has been filled in, or is about to be. -/
  misses_eq : scan.metrics.cacheMisses =
    base.cacheMisses + scan.cache.entries isKnown + pending
  /-- The transitions are the symbols of the starts that are done, those read since, and the entries
  that had to be made or went past the table. -/
  transitions_eq : ∃ done, all = done ++ upcoming ∧ scan.metrics.transitions =
    base.transitions + (done.map (database.symbolsRead input)).sum + readSoFar +
      scan.cache.entries isFallback + pending
  /-- Nothing falls back before the cache is full. -/
  pressure : base.fallbackTransitions < scan.metrics.fallbackTransitions →
    Full budget scan.cache.sets
  /-- The tables stay inside the bounds of the database. -/
  bounded : scan.cache.Bounded database

/-- What the counters say at a moment. -/
def CachedMoment.Counted (moment : CachedMoment) : Prop :=
  match moment.phase with
  | .idle => Tally database budget input base all 0 0 moment.starts moment.scan
  | .reading start position cursor =>
    start ≤ position ∧ (position = start ∨ position ≤ input.length) ∧
      database.Alive input start position ∧
      (cursor = .uncached → Full budget moment.scan.cache.sets) ∧
      Tally database budget input base all (position - start) 0 (start :: moment.starts)
        moment.scan
  | .storing start position _ _ _ =>
    start ≤ position ∧ position < input.length ∧ database.Alive input start position ∧
      Tally database budget input base all (position - start) 1 (start :: moment.starts)
        moment.scan

variable {database budget input base all} {readSoFar pending start position : ℕ}
  {starts upcoming : List ℕ} {events : List Match} {scan scan' : CachedScan}

/-- The tally depends on the cache and the counters only. -/
theorem Tally.congr (h : Tally database budget input base all readSoFar pending upcoming scan)
    (hcache : scan'.cache = scan.cache) (hmetrics : scan'.metrics = scan.metrics) :
    Tally database budget input base all readSoFar pending upcoming scan' := by
  obtain ⟨hcontinues, hmisses, htransitions, hpressure, hbounded⟩ := h
  refine ⟨?_, ?_, ?_, ?_, ?_⟩
  · rw [hmetrics]
    exact hcontinues
  · rw [hcache, hmetrics]
    exact hmisses
  · rw [hcache, hmetrics]
    exact htransitions
  · rw [hcache, hmetrics]
    exact hpressure
  · rw [hcache]
    exact hbounded

/-- A start has been read to its end. -/
theorem Tally.finish
    (h : Tally database budget input base all readSoFar 0 (start :: starts) scan)
    (hread : database.symbolsRead input start = readSoFar) :
    Tally database budget input base all 0 0 starts scan := by
  obtain ⟨done, hall, htransitions⟩ := h.transitions_eq
  refine ⟨h.continues, h.misses_eq, ⟨done ++ [start], ?_, ?_⟩, h.pressure, h.bounded⟩
  · rw [hall, List.append_assoc, List.singleton_append]
  · rw [htransitions, List.map_append, List.sum_append, List.map_singleton, List.sum_singleton,
      hread]
    omega

/-- The counters when a start is reported. -/
theorem counted_report
    (h : Tally database budget input base all readSoFar 0 (start :: starts) scan)
    (hread : database.symbolsRead input start = readSoFar) :
    (CachedMoment.report database start starts events scan).Counted database budget input base
      all :=
  (h.finish hread).congr rfl rfl

/-- The counters when the outcome of a symbol is followed. -/
theorem counted_proceed {result : TransitionOutcome × CachedScan} (hle : start ≤ position)
    (hlt : position < input.length) (halive : database.Alive input start position)
    (hcached : Cached database budget result.2)
    (hreaches : result.1.Reaches result.2
      (database.Frontier (Reading.contextFree input) database.root start (position + 1, true)))
    (huncached : result.1 = .uncached →
      (database.Frontier (Reading.contextFree input) database.root start
        (position + 1, true)).Nonempty ∧ Full budget result.2.cache.sets)
    (htally : Tally database budget input base all (position + 1 - start) 0 (start :: starts)
      result.2) :
    (CachedMoment.proceed database start position starts events result).Counted database budget
      input base all := by
  have hdead := hreaches.dead_iff hcached fun h => (huncached h).1
  rw [← PatternDatabase.alive_succ_iff hle] at hdead
  obtain ⟨hmetrics, hcache⟩ := @follow_counts database result.2 result.1 (position + 1)
  have hcursor := @follow_cursor database result.2 result.1 (position + 1)
  have hfollowed := htally.congr hcache hmetrics
  unfold CachedMoment.proceed
  generalize CachedScan.follow database result.1 (position + 1) result.2 = followed at *
  obtain ⟨cursor, scan'⟩ := followed
  cases houtcome : result.1 with
  | dead =>
    rw [houtcome] at hcursor
    obtain rfl : cursor = none := hcursor
    exact counted_report hfollowed
      (PatternDatabase.symbolsRead_of_dead hle hlt halive (hdead.mp houtcome))
  | cached id =>
    rw [houtcome] at hcursor hdead
    obtain rfl : cursor = some (.cached id) := hcursor
    refine ⟨Nat.le_succ_of_le hle, Or.inr hlt, ?_, fun heq => (by cases heq), hfollowed⟩
    exact Classical.not_not.mp fun hnot => by cases hdead.mpr hnot
  | uncached =>
    obtain ⟨hne, hfull⟩ := huncached houtcome
    rw [houtcome] at hcursor
    obtain rfl : cursor = some .uncached := hcursor
    refine ⟨Nat.le_succ_of_le hle, Or.inr hlt, (PatternDatabase.alive_succ_iff hle).mpr hne,
      fun _ => ?_, hfollowed⟩
    have hsets : scan'.cache = result.2.cache := hcache
    show Full budget scan'.cache.sets
    rw [hsets]
    exact hfull

/-- One more transition that misses no slot. -/
theorem Tally.count (h : Tally database budget input base all readSoFar 0 upcoming scan)
    (hcache : scan'.cache = scan.cache) (hcontinues : scan'.metrics.Continues scan.metrics)
    (hmisses : scan'.metrics.cacheMisses = scan.metrics.cacheMisses)
    (htransitions : scan'.metrics.transitions = scan.metrics.transitions + 1)
    (hfull : scan'.metrics.fallbackTransitions = scan.metrics.fallbackTransitions ∨
      Full budget scan.cache.sets) :
    Tally database budget input base all (readSoFar + 1) 0 upcoming scan' := by
  obtain ⟨done, hall, hcount⟩ := h.transitions_eq
  refine ⟨h.continues.trans hcontinues, ?_, ⟨done, hall, ?_⟩, fun hmore => ?_, ?_⟩
  · rw [hcache, hmisses]
    exact h.misses_eq
  · rw [hcache, htransitions, hcount]
    omega
  · rw [hcache]
    obtain hsame | hfull := hfull
    · rw [hsame] at hmore
      exact h.pressure hmore
    · exact hfull
  · rw [hcache]
    exact h.bounded

/-- One symbol from a slot that is filled in, or without the cache. -/
theorem counted_move (hwf : database.WellFormed) {cursor : ScanCursor} {symbol : UInt16}
    (hsymbol : input[position]? = some symbol) (hle : start ≤ position)
    (hscanning : CachedScanning database budget input start position cursor scan)
    (hknown : ∀ id, cursor = .cached id →
      scan.cache.storedTransition id symbol ≠ unknownTransition)
    (halive : database.Alive input start position)
    (huncached : cursor = .uncached → Full budget scan.cache.sets)
    (htally : Tally database budget input base all (position - start) 0 (start :: starts) scan) :
    (CachedMoment.proceed database start position starts events
      (CachedScan.step database cursor symbol scan)).Counted database budget input base all := by
  have hlt : position < input.length := (List.getElem?_eq_some_iff.mp hsymbol).1
  obtain ⟨hcached, hreaches, -⟩ := step_spec hwf hsymbol hscanning hknown
  have hsum : position + 1 - start = position - start + 1 := by omega
  cases cursor with
  | cached id =>
    obtain ⟨state, hid, hset⟩ := hscanning.state_of_cached
    have hentry := hknown id rfl
    rw [storedTransition_of_getElem? hid] at hentry
    obtain ⟨hcache, hcontinues, hmisses, htransitions, hfallbacks, hnot⟩ :=
      @transition_counts database budget scan hscanning.cached id state hid symbol hentry
    refine counted_proceed hle hlt halive hcached hreaches (fun heq => ?_) ?_
    · show _ ∧ Full budget (CachedScan.transition database id symbol scan).2.cache.sets
      rw [← successors_eq_frontier hsymbol hset, hcache]
      exact hnot heq
    · rw [hsum]
      exact htally.count hcache hcontinues hmisses htransitions hfallbacks
  | uncached =>
    obtain ⟨hcache, hcontinues, hmisses, htransitions, hnot⟩ :=
      uncachedTransition_counts hwf hscanning.cached symbol
    refine counted_proceed hle hlt halive hcached hreaches (fun heq => ?_) ?_
    · show _ ∧ Full budget (CachedScan.uncachedTransition database symbol scan).2.cache.sets
      rw [← successors_eq_frontier hsymbol hscanning.cursor_at, hcache]
      exact ⟨hnot heq, huncached rfl⟩
    · rw [hsum]
      exact htally.count hcache hcontinues hmisses htransitions (Or.inr (huncached rfl))

/-- One symbol whose slot has been found unknown: the entry is stored. -/
theorem counted_store {id entry : ℕ} {symbol : UInt16} (hle : start ≤ position)
    (hlt : position < input.length)
    (hstoring : Storing database budget id symbol
      (database.Frontier (Reading.contextFree input) database.root start (position + 1, true))
      entry scan)
    (halive : database.Alive input start position)
    (htally : Tally database budget input base all (position - start) 1 (start :: starts) scan) :
    (CachedMoment.proceed database start position starts events
      (CachedScan.storeTransition id symbol entry scan)).Counted database budget input base
        all := by
  obtain ⟨hcached, hreaches⟩ := storeTransition_spec hstoring
  obtain ⟨state, hid, hunknown, hsuccessors, hstored⟩ := hstoring.unknown
  obtain ⟨hcontinues, hmisses, hfallbacks, htransitions, huncached⟩ :=
    outcomeFor_counts entry scan.metrics
  have htabled := hstoring.cached.invariant.tabled state (List.mem_of_getElem? hid)
  have hids := hstoring.cached.invariant.length_le_ids
  rw [← scan.cache.length_sets] at hids
  rw [hstoring.cached.budget_eq] at hstored
  have hfull := hstored.of_isFallback hids
  have hsets := scan.cache.sets_setTransition id symbol entry
  have hknown : isKnown entry = true := bne_iff_ne.mpr hstoring.entry_ne
  obtain ⟨done, hall, hcount⟩ := htally.transitions_eq
  rw [hsuccessors] at hfull
  refine counted_proceed hle hlt halive hcached hreaches (fun heq => ?_)
    ⟨htally.continues.trans hcontinues, ?_, ⟨done, hall, ?_⟩, fun hmore => ?_, ?_⟩
  · show _ ∧ Full budget (scan.cache.setTransition id symbol entry).sets
    rw [hsets]
    exact hfull (huncached heq)
  · -- the slot that was missed is filled in
    refine hmisses.trans (htally.misses_eq.trans ?_)
    show _ = _ + (scan.cache.setTransition id symbol entry).entries isKnown + 0
    rw [entries_setTransition rfl hid htabled hunknown, hknown, Bool.toNat_true]
    omega
  · refine htransitions.trans ?_
    show _ = _ + (scan.cache.setTransition id symbol entry).entries isFallback + 0
    rw [entries_setTransition rfl hid htabled hunknown, hcount]
    omega
  · show Full budget (scan.cache.setTransition id symbol entry).sets
    rw [hsets]
    cases hentry : isFallback entry with
    | true => exact (hfull hentry).2
    | false =>
      rw [hentry] at hfallbacks
      exact htally.pressure (hmore.trans_eq hfallbacks)
  · show ∀ set ∈ (scan.cache.setTransition id symbol entry).sets, _
    rw [hsets]
    exact htally.bounded

/-- The counters stay true in every step. -/
theorem CachedMoment.Counted.step (hwf : database.WellFormed) {total : List Match}
    {moment moment' : CachedMoment} (hsound : moment.Sound database input budget total)
    (h : moment.Counted database budget input base all)
    (hstep : CachedMoment.Step database input moment moment') :
    moment'.Counted database budget input base all := by
  cases hstep with
  | start =>
    refine ⟨le_refl _, Or.inl rfl, PatternDatabase.alive_start, fun heq => (by cases heq), ?_⟩
    rw [Nat.sub_self]
    exact Tally.congr h rfl rfl
  | @intern start position state symbol starts events scan hsymbol hunknown =>
    obtain ⟨hle, -, halive, -, htally⟩ := h
    have hlt : position < input.length := (List.getElem?_eq_some_iff.mp hsymbol).1
    obtain ⟨hcontinues, hmisses, hfallbacks, htransitions, hentries, hgrows, hbounded⟩ :=
      internSuccessors_counts hwf hsound.cached htally.bounded state symbol
    obtain ⟨done, hall, hcount⟩ := htally.transitions_eq
    refine ⟨hle, hlt, halive, htally.continues.trans hcontinues, ?_, ⟨done, hall, ?_⟩,
      fun hmore => ?_, hbounded⟩
    · rw [hmisses, htally.misses_eq, hentries isKnown rfl]
    · rw [htransitions, hcount, hentries isFallback rfl]
    · rw [hfallbacks] at hmore
      exact (htally.pressure hmore).of_le hgrows
  | store =>
    obtain ⟨hle, hlt, halive, htally⟩ := h
    obtain ⟨-, hstoring, -, -⟩ := hsound
    exact counted_store hle hlt hstoring halive htally
  | move hsymbol hknown =>
    obtain ⟨hle, -, halive, huncached, htally⟩ := h
    obtain ⟨-, hscanning, -⟩ := hsound
    exact counted_move hwf hsymbol hle hscanning hknown halive huncached htally
  | stop hlast =>
    obtain ⟨hle, hend, halive, -, htally⟩ := h
    exact counted_report htally
      (PatternDatabase.symbolsRead_of_length_le hle hlast hend halive)

/-- The counters stay true along a run. -/
theorem CachedMoment.Counted.of_run (hwf : database.WellFormed) {total : List Match}
    {moment moment' : CachedMoment} (hsound : moment.Sound database input budget total)
    (h : moment.Counted database budget input base all)
    (hrun : ReflTransGen (CachedMoment.Step database input) moment moment') :
    moment'.Counted database budget input base all := by
  induction hrun with
  | refl => exact h
  | tail hrun hstep ih => exact ih.step hwf (CachedMoment.sound_of_run hwf hsound hrun) hstep

/-- A fresh cache has counted nothing. -/
theorem counted_new (hwf : database.WellFormed) (hbudget : 1 ≤ budget) (metrics : ScanStats)
    (starts : List ℕ) :
    CachedMoment.Counted database budget input metrics starts
      ⟨.idle, starts, [], CachedScan.new database budget metrics⟩ := by
  set closure := extendClosure database.epsilonTargets database.root
    ((List.replicate database.stateCount false).map fun _ => false, []) with hclosure
  set rootStates := closure.2.mergeSort (· ≤ ·) with hroot
  have hentries : ∀ p : ℕ → Bool, p unknownTransition = false →
      (CachedScan.new database budget metrics).cache.entries p = 0 := fun p hp =>
    entries_intern hp database rootStates
  have hbounded : (CachedScan.new database budget metrics).cache.Bounded database := by
    obtain ⟨set, hset, hmem⟩ := (cached_new hwf hbudget metrics).root
    have hsets : (CachedScan.new database budget metrics).cache.sets = [rootStates] :=
      intern_empty hbudget rootStates
    rw [hsets] at hset
    unfold DeterministicCache.Bounded
    rw [hsets]
    intro other hother s hs
    obtain rfl := List.mem_singleton.mp hother
    obtain rfl : rootStates = set := Option.some.inj hset
    exact reach_lt hwf hwf.root_lt ((hmem s).mp hs)
  refine ⟨rfl, ?_, ⟨[], rfl, ?_⟩, fun hmore => absurd hmore (lt_irrefl _), hbounded⟩
  · rw [hentries isKnown rfl]
    rfl
  · rw [hentries isFallback rfl]
    rfl

/-- A cached scan ends with true counters. -/
theorem exists_tally (hwf : database.WellFormed) (input : Utf16Text) (hbudget : 1 ≤ budget)
    {starts : List ℕ} (hstarts : ∀ start ∈ starts, start ≤ usizeMax) (metrics : ScanStats) :
    ∃ scan events,
      CachedScan.starts database input starts (CachedScan.new database budget metrics) =
        ⟨events, .ok scan⟩ ∧
      Cached database budget scan ∧
      Tally database budget input.units metrics starts 0 0 [] scan := by
  obtain ⟨scan, events, hscan, hrun⟩ := run_starts input hstarts []
    (CachedScan.new database budget metrics)
  have hsound := CachedMoment.sound_new hwf hbudget input.units starts metrics
  refine ⟨scan, events, hscan, (CachedMoment.sound_of_run hwf hsound hrun).cached, ?_⟩
  exact (counted_new hwf hbudget metrics starts).of_run hwf hsound hrun

end Tally

/-! ### Whole scans -/

section Scans

variable {database : PatternDatabase} {budget : ℕ}

/-- A cache with distinct sets of states has less sets than there are sets of states. -/
theorem length_sets_lt {cache : DeterministicCache} (h : CacheInvariant database cache)
    (hbounded : cache.Bounded database) : cache.sets.length < 2 ^ database.stateCount := by
  set subsets := ((Finset.range database.stateCount).powerset).erase ∅ with hsubsets
  have hmaps : ∀ set ∈ cache.sets, set.toFinset ∈ subsets := by
    intro set hset
    rw [hsubsets, Finset.mem_erase, Finset.mem_powerset]
    refine ⟨fun hempty => h.ne_nil set hset ?_, fun s hs => ?_⟩
    · rwa [List.toFinset_eq_empty_iff] at hempty
    · exact Finset.mem_range.mpr (hbounded set hset s (List.mem_toFinset.mp hs))
  -- sorted sets with the same members are equal
  have hnodup : (cache.sets.map List.toFinset).Nodup := by
    refine h.distinct.map_on fun set hset other hother heq => ?_
    refine (h.sorted set hset).eq_of_mem_iff (h.sorted other hother) fun s => ?_
    rw [← List.mem_toFinset, heq, List.mem_toFinset]
  have hcard : cache.sets.length ≤ subsets.card := by
    rw [← List.length_map, ← List.toFinset_card_of_nodup hnodup]
    refine Finset.card_le_card fun set hset => ?_
    obtain ⟨other, hother, rfl⟩ := List.mem_map.mp (List.mem_toFinset.mp hset)
    exact hmaps other hother
  have hpowerset : subsets.card = 2 ^ database.stateCount - 1 := by
    rw [hsubsets, Finset.card_erase_of_mem (Finset.empty_mem_powerset _), Finset.card_powerset,
      Finset.card_range]
  have hpos := Nat.two_pow_pos database.stateCount
  omega

/-- The counters of a whole scan. Misses are the slots of the transition tables that are filled in
at the end, so no slot misses twice. Hits, misses and fallbacks account for every symbol behind
every start up to the one at which no state is left, once each, except that a miss whose successors
did not fit is counted as a fallback, too, when the fallback is stored. -/
theorem cached_scan_counts (hwf : database.WellFormed) (input : Utf16Text) (hbudget : 1 ≤ budget)
    {starts : List ℕ} (hstarts : ∀ start ∈ starts, start ≤ usizeMax) (metrics : ScanStats) :
    ∃ scan events,
      CachedScan.starts database input starts (CachedScan.new database budget metrics) =
        ⟨events, .ok scan⟩ ∧
      scan.metrics.cacheMisses = metrics.cacheMisses + scan.cache.entries isKnown ∧
      scan.metrics.cacheHits + scan.metrics.cacheMisses + scan.metrics.fallbackTransitions =
        metrics.cacheHits + metrics.cacheMisses + metrics.fallbackTransitions +
          (starts.map (database.symbolsRead input.units)).sum +
          scan.cache.entries isFallback := by
  obtain ⟨scan, events, hscan, -, htally⟩ := exists_tally hwf input hbudget hstarts metrics
  obtain ⟨done, hall, htransitions⟩ := htally.transitions_eq
  rw [List.append_nil] at hall
  subst hall
  exact ⟨scan, events, hscan, htally.misses_eq, htransitions⟩

/-- The counters with a cache of one state. -/
theorem cached_scan_counts_privateLoop : ∃ database scan events,
    compile [privateLoop] = .ok database ∧
    CachedScan.starts database textAb [0, 1] (CachedScan.new database 1 {}) =
      ⟨events, .ok scan⟩ ∧
    scan.metrics.cacheHits + scan.metrics.cacheMisses + scan.metrics.fallbackTransitions =
      ([0, 1].map (database.symbolsRead textAb.units)).sum + scan.cache.entries isFallback := by
  have hcompile : ∃ database, compile [privateLoop] = .ok database := ⟨_, rfl⟩
  obtain ⟨database, hdatabase⟩ := hcompile
  obtain ⟨scan, events, hscan, -, hcount⟩ := @cached_scan_counts database 1
    (compile_wellFormed hdatabase) textAb (le_refl 1) [0, 1] (by decide) {}
  refine ⟨database, scan, events, hdatabase, hscan, hcount.trans ?_⟩
  show 0 + 0 + 0 + _ + _ = _
  omega

/-- Fallbacks and the budget. A scan that had to fall back has filled its cache, to the budget or to
the last id; one whose budget holds every set of states never falls back. The cache never has more
states than the budget, and never misses a symbol twice at the same state. -/
theorem fallbacks_only_when_full (hwf : database.WellFormed) (input : Utf16Text)
    (hbudget : 1 ≤ budget) {starts : List ℕ} (hstarts : ∀ start ∈ starts, start ≤ usizeMax)
    (metrics : ScanStats) : ∃ events metrics',
    scanWithoutAssertionsCached database input budget starts metrics = ⟨events, .ok metrics'⟩ ∧
    (metrics.fallbackTransitions < metrics'.fallbackTransitions →
      metrics'.cacheStates = min budget fallbackTransition) ∧
    (2 ^ database.stateCount ≤ min budget fallbackTransition →
      metrics'.fallbackTransitions ≤ metrics.fallbackTransitions) ∧
    metrics'.cacheStates ≤ budget ∧
    metrics'.cacheMisses ≤ metrics.cacheMisses + UInt16.size * metrics'.cacheStates := by
  obtain ⟨scan, events, hscan, hcached, htally⟩ := exists_tally hwf input hbudget hstarts metrics
  have hinvariant := hcached.invariant
  have hbounds := hinvariant.length_le_budget
  have hids := hinvariant.length_le_ids
  rw [hcached.budget_eq] at hbounds
  refine ⟨events, { scan.metrics with cacheStates := scan.cache.states.length }, ?_,
    fun hmore => ?_, fun hroom => Nat.not_lt.mp fun hmore => ?_, hbounds, ?_⟩
  · rw [scanWithoutAssertionsCached, hscan, Delivery.mk_ok_bind, Delivery.pure_eq,
      List.append_nil]
  · -- a full cache has as many states as it may have
    have hfull := htally.pressure hmore
    unfold Full at hfull
    rw [scan.cache.length_sets] at hfull
    show scan.cache.states.length = _
    omega
  · have hfull := htally.pressure hmore
    have hlt := length_sets_lt hinvariant htally.bounded
    unfold Full at hfull
    omega
  · have hentries := entries_le isKnown scan.cache
    have hmisses := htally.misses_eq
    show scan.metrics.cacheMisses ≤ _ + UInt16.size * scan.cache.states.length
    omega

/-- A cache of one state stays there. -/
theorem fallbacks_only_when_full_privateLoop : ∃ database events metrics',
    compile [privateLoop] = .ok database ∧
    scanWithoutAssertionsCached database textAb 1 [0, 1] {} = ⟨events, .ok metrics'⟩ ∧
    metrics'.cacheStates ≤ 1 := by
  have hcompile : ∃ database, compile [privateLoop] = .ok database := ⟨_, rfl⟩
  obtain ⟨database, hdatabase⟩ := hcompile
  obtain ⟨events, metrics', hscan, -, -, hstates, -⟩ := @fallbacks_only_when_full database 1
    (compile_wellFormed hdatabase) textAb (le_refl 1) [0, 1] (by decide) {}
  exact ⟨database, events, metrics', hdatabase, hscan, hstates⟩

end Scans

end Rustmatch

import Rustmatch.Cache.Invariant

/-!
# One symbol of a cached scan

A cached scan stands at the frontier of its position, either as an interned state or as the active
set of the scratch. Every transition moves it to the next frontier, whatever the table held, and
keeps the invariant of the cache, also between the interning of a set and the writing of the entry
for it.

## Main results

* `storing_internSuccessors`, `storeTransition_spec`: the two halves of a new transition;
* `transition_of_known`, `uncachedTransition_spec`: the transitions that leave the cache as it is;
* `follow_spec`: what the scan does with a transition.
-/

open Relation MarkedSearch

namespace Rustmatch

/-! ### One transition -/

/-- What holds of a cached scan between transitions. -/
structure Cached (database : PatternDatabase) (budget : ℕ) (scan : CachedScan) : Prop where
  /-- The stored sets and entries are right. -/
  invariant : CacheInvariant database scan.cache
  /-- The cache has the budget that the scan was given. -/
  budget_eq : scan.cache.budget = budget
  /-- The first stored set is the closure of the root. -/
  root : ∃ set, scan.cache.sets[0]? = some set ∧
    ∀ s, s ∈ set ↔ Reach database.epsilonTargets database.root s
  /-- The marks of the scratch are those of earlier generations. -/
  stamped : Stamped database scan.scratch

/-- What the outcome of a transition to `successors` says. -/
def TransitionOutcome.Reaches (outcome : TransitionOutcome) (scan : CachedScan)
    (successors : Set ℕ) : Prop :=
  match outcome with
  | .dead => successors = ∅
  | .cached id => ∃ set, scan.cache.sets[id]? = some set ∧ ∀ s, s ∈ set ↔ s ∈ successors
  | .uncached => ∀ s, s ∈ scan.scratch.next ↔ s ∈ successors

section Step

variable {database : PatternDatabase} {budget : ℕ} {scan : CachedScan}

/-- What the cache says about one of its states. -/
theorem storedTransition_of_getElem? {cache : DeterministicCache} {id : ℕ}
    {state : DeterministicState} (hid : cache.states[id]? = some state) (symbol : UInt16) :
    cache.storedTransition id symbol = state.transition symbol := by
  rw [DeterministicCache.storedTransition, hid]
  rfl

/-- The outcome that a correct table entry gives. -/
theorem reaches_outcomeFor (h : CacheInvariant database scan.cache) {source : List StateId}
    {symbol : UInt16} {entry : ℕ} {metrics : ScanStats} (hknown : entry ≠ unknownTransition)
    (hstored : Stored database scan.cache.budget scan.cache.sets source symbol entry)
    (hnext : entry = fallbackTransition →
      ∀ s, s ∈ scan.scratch.next ↔ s ∈ database.Successors source symbol) :
    (CachedScan.outcomeFor entry metrics).1.Reaches scan (database.Successors source symbol) := by
  unfold CachedScan.outcomeFor
  cases hstored with
  | unknown => exact absurd rfl hknown
  | dead hempty =>
    rw [if_pos rfl]
    exact hempty
  | fallback hne hnot hfull =>
    rw [if_neg (by decide), if_pos rfl]
    exact hnext rfl
  | @state _ set hid hiff =>
    have hlt : entry < fallbackTransition := by
      have := (List.getElem?_eq_some_iff.mp hid).1
      rw [scan.cache.length_sets] at this
      exact this.trans_le h.length_le_ids
    have hmarks : fallbackTransition < deadTransition := by decide
    rw [if_neg (by omega), if_neg (by omega)]
    exact ⟨set, hid, hiff⟩

/-- The ids a cache has given stay valid while it grows. -/
theorem Cached.of_grows (h : Cached database budget scan) {scan' : CachedScan}
    (hinvariant : CacheInvariant database scan'.cache)
    (hbudget : scan'.cache.budget = scan.cache.budget)
    (hgrows : ∀ (id : ℕ) (set : List StateId), scan.cache.sets[id]? = some set →
      scan'.cache.sets[id]? = some set)
    (hstamped : Stamped database scan'.scratch) : Cached database budget scan' := by
  obtain ⟨set, hroot, hiff⟩ := h.root
  exact ⟨hinvariant, hbudget.trans h.budget_eq, ⟨set, hgrows 0 set hroot, hiff⟩, hstamped⟩

/-- The set of an id is that of its state. -/
theorem nfaStates_of_getElem? {cache : DeterministicCache} {id : ℕ} {state : DeterministicState}
    (hid : cache.states[id]? = some state) : cache.nfaStates id = state.nfaStates := by
  rw [DeterministicCache.nfaStates, hid]
  rfl

/-- What is known between the two halves of a transition: the entry about to be stored is correct,
the table still says unknown, and the successors are at hand. -/
structure Storing (database : PatternDatabase) (budget : ℕ) (id : ℕ) (symbol : UInt16)
    (successors : Set ℕ) (entry : ℕ) (scan : CachedScan) : Prop where
  /-- The cache is sound. -/
  cached : Cached database budget scan
  /-- The slot is still unknown, and the entry is right for it. -/
  unknown : ∃ state, scan.cache.states[id]? = some state ∧
    state.transition symbol = unknownTransition ∧
    database.Successors state.nfaStates symbol = successors ∧
    Stored database scan.cache.budget scan.cache.sets state.nfaStates symbol entry
  /-- The entry says something. -/
  entry_ne : entry ≠ unknownTransition
  /-- The scratch holds the successors. -/
  mem_next : ∀ s, s ∈ scan.scratch.next ↔ s ∈ successors

/-- The first half of a transition interns the successors if there is room. -/
theorem storing_internSuccessors (hwf : database.WellFormed) (h : Cached database budget scan)
    {id : ℕ} {state : DeterministicState} (hid : scan.cache.states[id]? = some state)
    {symbol : UInt16} (hunknown : state.transition symbol = unknownTransition) :
    Storing database budget id symbol (database.Successors state.nfaStates symbol)
      (CachedScan.internSuccessors database id symbol scan).1
      (CachedScan.internSuccessors database id symbol scan).2 := by
  obtain ⟨hstamped, hsorted, hnext⟩ :=
    mem_computeTransition hwf h.stamped state.nfaStates symbol
  unfold CachedScan.internSuccessors
  simp only [nfaStates_of_getElem? hid]
  set scratch := computeTransition database state.nfaStates symbol
    scan.scratch.resetCachedTransition with hscratch
  by_cases hempty : scratch.next.isEmpty = true
  · -- no successors: the entry will be dead
    simp only [hempty, if_true, Option.getD_some]
    have hsuccessors : database.Successors state.nfaStates symbol = ∅ := by
      ext s
      rw [← hnext, List.isEmpty_iff.mp hempty]
      simp
    exact ⟨h.of_grows h.invariant rfl (fun _ _ hold => hold) hstamped,
      ⟨state, hid, hunknown, rfl, .dead hsuccessors⟩, by decide, hnext⟩
  · -- successors: their set is interned, unless the cache is full
    simp only [hempty, if_false, Bool.false_eq_true]
    have hne : scratch.next ≠ [] := fun heq => hempty (by rw [heq]; rfl)
    have hnonempty : (database.Successors state.nfaStates symbol).Nonempty := by
      obtain ⟨s, hs⟩ := List.exists_mem_of_ne_nil _ hne
      exact ⟨s, (hnext s).mp hs⟩
    obtain ⟨hinterned, hbudget, hold, hresult⟩ := h.invariant.intern hsorted hne
    set interned := scan.cache.intern database scratch.next with hintern
    have hgrows : ∀ (j : ℕ) (other : List StateId), scan.cache.sets[j]? = some other →
        interned.2.sets[j]? = some other := by
      intro j other hj
      rw [DeterministicCache.getElem?_sets] at hj ⊢
      obtain ⟨old, hget, rfl⟩ := Option.map_eq_some_iff.mp hj
      rw [hold j old hget]
      rfl
    -- a new id is no mark, and a fallback entry means that no stored set has the members
    have hentry : interned.1.getD fallbackTransition ≠ unknownTransition ∧
        Stored database interned.2.budget interned.2.sets state.nfaStates symbol
          (interned.1.getD fallbackTransition) := by
      cases hcase : interned.1 with
      | some j =>
        rw [hcase] at hresult
        have hlt := (List.getElem?_eq_some_iff.mp hresult).1
        rw [interned.2.length_sets] at hlt
        have hids := hinterned.length_le_ids
        have hmarks : fallbackTransition < unknownTransition := by decide
        refine ⟨?_, .state hresult hnext⟩
        rw [Option.getD_some]
        omega
      | none =>
        rw [hcase] at hresult
        obtain ⟨hfull, hnot, hsame⟩ := hresult
        rw [hsame]
        refine ⟨by decide, .fallback hnonempty (fun other hother hiff => ?_) hfull⟩
        have hequal : scratch.next = other :=
          hsorted.eq_of_mem_iff (h.invariant.sorted other hother)
            fun s => (hnext s).trans (hiff s).symm
        exact hnot (hequal ▸ hother)
    exact ⟨h.of_grows hinterned hbudget hgrows hstamped,
      ⟨state, hold id state hid, hunknown, rfl, hentry.2⟩, hentry.1, hnext⟩

/-- The second half of a transition stores the entry and goes where it says. -/
theorem storeTransition_spec {id : ℕ} {symbol : UInt16} {successors : Set ℕ} {entry : ℕ}
    (h : Storing database budget id symbol successors entry scan) :
    Cached database budget (CachedScan.storeTransition id symbol entry scan).2 ∧
      (CachedScan.storeTransition id symbol entry scan).1.Reaches
        (CachedScan.storeTransition id symbol entry scan).2 successors := by
  obtain ⟨state, hid, hunknown, hsuccessors, hstored⟩ := h.unknown
  obtain ⟨hinvariant, hsets⟩ :=
    h.cached.invariant.setTransition hid hunknown h.entry_ne hstored
  refine ⟨h.cached.of_grows hinvariant rfl (fun j other hj => ?_) h.cached.stamped, ?_⟩
  · show (scan.cache.setTransition id symbol entry).sets[j]? = some other
    rw [hsets]
    exact hj
  · rw [← hsuccessors]
    refine reaches_outcomeFor hinvariant h.entry_ne ?_ fun _ => ?_
    · show Stored database scan.cache.budget (scan.cache.setTransition id symbol entry).sets _ _ _
      rw [hsets]
      exact hstored
    · rw [hsuccessors]
      exact h.mem_next

/-- Transitions leave the slots alone. -/
theorem Terminals.internSuccessors {count : ℕ} {best : ℕ → Option ℕ}
    (h : Terminals count best scan.scratch) (id : ℕ) (symbol : UInt16) :
    Terminals count best (CachedScan.internSuccessors database id symbol scan).2.scratch :=
  h.computeTransition _ _

/-- A transition from an interned state whose entry is known. -/
theorem transition_of_known (hwf : database.WellFormed) (h : Cached database budget scan) {id : ℕ}
    {state : DeterministicState} (hid : scan.cache.states[id]? = some state) {symbol : UInt16}
    (hknown : state.transition symbol ≠ unknownTransition) :
    Cached database budget (CachedScan.transition database id symbol scan).2 ∧
      (CachedScan.transition database id symbol scan).1.Reaches
        (CachedScan.transition database id symbol scan).2
        (database.Successors state.nfaStates symbol) ∧
      ∀ count best, Terminals count best scan.scratch →
        Terminals count best (CachedScan.transition database id symbol scan).2.scratch := by
  obtain ⟨hstamped, -, hnext⟩ := mem_computeTransition hwf h.stamped state.nfaStates symbol
  have hstored := h.invariant.stored state (List.mem_of_getElem? hid) symbol
  unfold CachedScan.transition
  rw [storedTransition_of_getElem? hid, nfaStates_of_getElem? hid, if_neg hknown]
  by_cases hfallback : state.transition symbol = fallbackTransition
  · rw [if_pos hfallback]
    exact ⟨h.of_grows h.invariant rfl (fun _ _ hold => hold) hstamped, hnext,
      fun count best hterminals => hterminals.computeTransition _ _⟩
  · rw [if_neg hfallback]
    refine ⟨h.of_grows h.invariant rfl (fun _ _ hold => hold) h.stamped, ?_,
      fun _ _ hterminals => hterminals⟩
    exact reaches_outcomeFor h.invariant hknown hstored fun heq => absurd heq hfallback

/-- A transition from the active set. -/
theorem uncachedTransition_spec (hwf : database.WellFormed) (h : Cached database budget scan)
    (symbol : UInt16) :
    Cached database budget (CachedScan.uncachedTransition database symbol scan).2 ∧
      (CachedScan.uncachedTransition database symbol scan).1.Reaches
        (CachedScan.uncachedTransition database symbol scan).2
        (database.Successors scan.scratch.active symbol) ∧
      ∀ count best, Terminals count best scan.scratch →
        Terminals count best (CachedScan.uncachedTransition database symbol scan).2.scratch := by
  obtain ⟨hstamped, hsorted, hnext⟩ :=
    mem_computeTransition hwf h.stamped scan.scratch.active symbol
  refine ⟨h.of_grows h.invariant rfl (fun _ _ hold => hold) hstamped, ?_,
    fun count best hterminals => hterminals.computeTransition _ _⟩
  set scratch := computeTransition database scan.scratch.active symbol
    scan.scratch.resetCachedTransition with hscratch
  show (if scratch.next.isEmpty = true then TransitionOutcome.dead else _).Reaches
    ⟨scan.cache, scratch, _⟩ _
  -- the outcome is dead, or it is the stored set if there is one; nothing is interned here
  by_cases hempty : scratch.next.isEmpty = true
  · rw [if_pos hempty]
    show database.Successors scan.scratch.active symbol = ∅
    ext s
    rw [← hnext, List.isEmpty_iff.mp hempty]
    simp
  · rw [if_neg hempty]
    split
    next id hlookup => exact ⟨_, h.invariant.lookup_eq_some_iff.mp hlookup, hnext⟩
    next => exact hnext

end Step

/-! ### The scan of one start -/

/-- Where the cursor stands: at an interned state or at the active set that equals `frontier`. -/
def ScanCursor.At (cursor : ScanCursor) (scan : CachedScan) (frontier : Set ℕ) : Prop :=
  match cursor with
  | .cached id => ∃ set, scan.cache.sets[id]? = some set ∧ ∀ s, s ∈ set ↔ s ∈ frontier
  | .uncached => ∀ s, s ∈ scan.scratch.active ↔ s ∈ frontier

section Scan

variable {database : PatternDatabase} {budget : ℕ} {scan : CachedScan} {input : List UInt16}
  {start p : ℕ}

/-- What holds before the symbol at `p` is read. -/
structure CachedScanning (database : PatternDatabase) (budget : ℕ) (input : List UInt16)
    (start p : ℕ) (cursor : ScanCursor) (scan : CachedScan) : Prop where
  /-- The cache is sound. -/
  cached : Cached database budget scan
  /-- The cursor stands at the frontier of the start, behind the symbols read so far. -/
  cursor_at : cursor.At scan (database.Frontier (Reading.contextFree input) database.root start
    (p, decide (start < p)))
  /-- The longest ends found so far are those of the model. -/
  terminals : Terminals database.patternCount (fun ordinal => longestEnd
    (database.endsUpTo (Reading.contextFree input) database.root ordinal start p)) scan.scratch

/-- The interned state that a cursor stands at. -/
theorem CachedScanning.state_of_cached {id : ℕ}
    (h : CachedScanning database budget input start p (.cached id) scan) :
    ∃ state, scan.cache.states[id]? = some state ∧ ∀ s, s ∈ state.nfaStates ↔
      s ∈ database.Frontier (Reading.contextFree input) database.root start
        (p, decide (start < p)) := by
  obtain ⟨set, hid, hset⟩ := h.cursor_at
  rw [DeterministicCache.getElem?_sets] at hid
  obtain ⟨state, hstate, rfl⟩ := Option.map_eq_some_iff.mp hid
  exact ⟨state, hstate, hset⟩

/-- One symbol, from the active set or from a state whose entry is known. -/
theorem step_spec (hwf : database.WellFormed) {symbol : UInt16} (hsymbol : input[p]? = some symbol)
    {cursor : ScanCursor} (h : CachedScanning database budget input start p cursor scan)
    (hknown : ∀ id, cursor = .cached id →
      scan.cache.storedTransition id symbol ≠ unknownTransition) :
    Cached database budget (CachedScan.step database cursor symbol scan).2 ∧
      (CachedScan.step database cursor symbol scan).1.Reaches
        (CachedScan.step database cursor symbol scan).2
        (database.Frontier (Reading.contextFree input) database.root start (p + 1, true)) ∧
      Terminals database.patternCount (fun ordinal => longestEnd
        (database.endsUpTo (Reading.contextFree input) database.root ordinal start p))
        (CachedScan.step database cursor symbol scan).2.scratch := by
  cases cursor with
  | cached id =>
    obtain ⟨state, hid, hset⟩ := h.state_of_cached
    have hentry := hknown id rfl
    rw [storedTransition_of_getElem? hid] at hentry
    obtain ⟨hcached, hreaches, hterminals⟩ := transition_of_known hwf h.cached hid hentry
    rw [successors_eq_frontier hsymbol hset] at hreaches
    exact ⟨hcached, hreaches, hterminals _ _ h.terminals⟩
  | uncached =>
    obtain ⟨hcached, hreaches, hterminals⟩ := uncachedTransition_spec hwf h.cached symbol
    rw [successors_eq_frontier hsymbol h.cursor_at] at hreaches
    exact ⟨hcached, hreaches, hterminals _ _ h.terminals⟩

/-- One symbol, from a state whose entry is not known yet: the first half of the transition. -/
theorem storing_of_unknown (hwf : database.WellFormed) {symbol : UInt16}
    (hsymbol : input[p]? = some symbol) {id : ℕ}
    (h : CachedScanning database budget input start p (.cached id) scan)
    (hunknown : scan.cache.storedTransition id symbol = unknownTransition) :
    Storing database budget id symbol
      (database.Frontier (Reading.contextFree input) database.root start (p + 1, true))
      (CachedScan.internSuccessors database id symbol scan).1
      (CachedScan.internSuccessors database id symbol scan).2 := by
  obtain ⟨state, hid, hset⟩ := h.state_of_cached
  rw [storedTransition_of_getElem? hid] at hunknown
  rw [← successors_eq_frontier hsymbol hset]
  exact storing_internSuccessors hwf h.cached hid hunknown

/-- Following the outcome records the next frontier, or finds it empty. -/
theorem follow_spec (hwf : database.WellFormed) (hp : start ≤ p) {outcome : TransitionOutcome}
    (hcached : Cached database budget scan)
    (hreaches : outcome.Reaches scan
      (database.Frontier (Reading.contextFree input) database.root start (p + 1, true)))
    (hterminals : Terminals database.patternCount (fun ordinal => longestEnd
      (database.endsUpTo (Reading.contextFree input) database.root ordinal start p))
      scan.scratch) :
    match CachedScan.follow database outcome (p + 1) scan with
    | (some cursor, scan') => CachedScanning database budget input start (p + 1) cursor scan'
    | (none, scan') => Cached database budget scan' ∧
        Terminals database.patternCount (fun ordinal => longestEnd
          (database.ends (Reading.contextFree input) database.root ordinal start))
          scan'.scratch := by
  have hphase : decide (start < p + 1) = true := decide_eq_true (Nat.lt_succ_of_le hp)
  -- the terminals of the reached set are the patterns that end behind the symbol
  have hreported : ∀ source : List StateId, (∀ s, s ∈ source ↔ s ∈ database.Frontier
        (Reading.contextFree input) database.root start (p + 1, true)) →
      ∀ ordinal, ordinal ∈ database.terminalsOf source ↔
        p + 1 ∈ database.ends (Reading.contextFree input) database.root ordinal start := by
    intro source hsource ordinal
    rw [PatternDatabase.mem_terminalsOf_iff, mem_ends_iff]
    simp only [hsource]
    exact ⟨fun hs => ⟨Nat.lt_succ_of_le hp, hs⟩, fun hs => hs.2⟩
  have hstamped : ∀ ordinals, Stamped database
      (scan.scratch.recordTerminals ordinals (p + 1)) := fun ordinals =>
    hcached.stamped.congr (Scratch.recordTerminals_cacheSeen _ _ _)
      (Scratch.recordTerminals_cacheGeneration _ _ _)
  -- a dead end stops the start: no state is left, so no pattern ends later
  cases outcome with
  | dead =>
    refine ⟨hcached, hterminals.of_eq fun ordinal _ => ?_⟩
    have hempty : database.Frontier (Reading.contextFree input) database.root start
        (p + 1, true) = ∅ := hreaches
    have hnone : ∀ s, s ∉ database.Frontier (Reading.contextFree input) database.root start
        (p + 1, decide (start < p + 1)) := by
      intro s hs
      rw [hphase, hempty] at hs
      exact hs
    have hends := endsUpTo_eq_ends_of_empty follows_epsilonTargets hnone (by omega) ordinal
    have hnotMem : p + 1 ∉ database.ends (Reading.contextFree input) database.root ordinal
        start := by
      intro hmem
      obtain ⟨-, s, hs, -⟩ := mem_ends_iff.mp hmem
      rw [hempty] at hs
      exact hs
    rw [← hends, endsUpTo_succ_of_notMem hnotMem]
  | cached id =>
    obtain ⟨set, hid, hset⟩ := hreaches
    have hfound := hid
    rw [DeterministicCache.getElem?_sets] at hfound
    obtain ⟨state, hstate, rfl⟩ := Option.map_eq_some_iff.mp hfound
    have hterminalsOf : scan.cache.terminals id = database.terminalsOf state.nfaStates := by
      rw [DeterministicCache.terminals, hstate]
      exact hcached.invariant.terminals_eq state (List.mem_of_getElem? hstate)
    refine ⟨hcached.of_grows hcached.invariant rfl (fun _ _ hold => hold) (hstamped _), ?_, ?_⟩
    · rw [hphase]
      exact ⟨state.nfaStates, hid, hset⟩
    · show Terminals _ _ (scan.scratch.recordTerminals (scan.cache.terminals id) (p + 1))
      rw [hterminalsOf]
      exact hterminals.endsUpTo_succ hwf (hreported _ hset)
  | uncached =>
    refine ⟨hcached.of_grows hcached.invariant rfl (fun _ _ hold => hold)
      ((hstamped _).congr rfl rfl), ?_, ?_⟩
    · rw [hphase]
      show ∀ s, s ∈ (scan.scratch.recordTerminals _ (p + 1)).next ↔ _
      rw [Scratch.recordTerminals_next]
      exact hreaches
    · exact (hterminals.endsUpTo_succ hwf (hreported _ hreaches)).congr rfl rfl

/-- The scan of a start begins at the closure of the root. -/
theorem cachedScanning_start (h : Cached database budget scan)
    (hterminals : ∃ best, Terminals database.patternCount best scan.scratch) (start : ℕ) :
    CachedScanning database budget input start start (.cached 0)
      { scan with scratch := scan.scratch.resetCachedStart } := by
  obtain ⟨best, hbest⟩ := hterminals
  have hreset : Terminals database.patternCount (fun _ => none) scan.scratch.resetCachedStart :=
    (hbest.congr rfl rfl :
      Terminals _ best { scan.scratch with active := [], next := [] }).resetTerminals
  refine ⟨h.of_grows h.invariant rfl (fun _ _ hold => hold) (h.stamped.congr rfl rfl), ?_, ?_⟩
  · obtain ⟨set, hroot, hset⟩ := h.root
    refine ⟨set, hroot, fun s => ?_⟩
    rw [decide_eq_false (lt_irrefl start), mem_frontier_start follows_epsilonTargets, hset]
  · refine hreset.of_eq fun ordinal _ => ?_
    rw [endsUpTo_start, longestEnd_empty]

end Scan

end Rustmatch

import Rustmatch.Cache.Transitions

/-!
# What the deterministic cache stores

`CacheInvariant` is what holds of the cache at every moment: it stays within its budget, its sets
are distinct and not empty, and every stored transition is the true one. A fallback entry is only
written when the cache is full, so the set it stands for is never interned later.

## Main results

* `CacheInvariant.intern`, `CacheInvariant.setTransition`: the two ways the cache changes;
* `CacheInvariant.entry_iff`: what a stored entry says about the successors.
-/

open Relation MarkedSearch

namespace Rustmatch

/-- The interned sets, by state id. -/
def DeterministicCache.sets (cache : DeterministicCache) : List (List StateId) :=
  cache.states.map DeterministicState.nfaStates

/-- The cache with one more set behind the others. -/
def DeterministicCache.push (database : PatternDatabase) (cache : DeterministicCache)
    (set : List StateId) : DeterministicCache where
  budget := cache.budget
  states := cache.states ++ [DeterministicState.new database set]
  hashBuckets := Function.update cache.hashBuckets (stateSetHash set)
    (cache.hashBuckets (stateSetHash set) ++ [cache.states.length])

/-- A pushed set comes last. -/
theorem DeterministicCache.sets_push {database : PatternDatabase} (cache : DeterministicCache)
    (set : List StateId) : (cache.push database set).sets = cache.sets ++ [set] := by
  unfold DeterministicCache.push DeterministicCache.sets
  rw [List.map_append]
  rfl

/-- There is no room for another set. -/
def Full (budget : ℕ) (sets : List (List StateId)) : Prop :=
  budget ≤ sets.length ∨ fallbackTransition ≤ sets.length

/-- What an entry for `symbol` in the table of `source` stands for. -/
inductive Stored (database : PatternDatabase) (budget : ℕ) (sets : List (List StateId))
    (source : List StateId) (symbol : UInt16) : ℕ → Prop
  /-- The entry has not been made. -/
  | unknown : Stored database budget sets source symbol unknownTransition
  /-- No state is left. -/
  | dead : database.Successors source symbol = ∅ →
      Stored database budget sets source symbol deadTransition
  /-- The successors are not stored, and there is no room for them. -/
  | fallback : (database.Successors source symbol).Nonempty →
      (∀ set ∈ sets, ¬ ∀ s, s ∈ set ↔ s ∈ database.Successors source symbol) →
      Full budget sets → Stored database budget sets source symbol fallbackTransition
  /-- The successors are the set with this id. -/
  | state {id : ℕ} {set : List StateId} : sets[id]? = some set →
      (∀ s, s ∈ set ↔ s ∈ database.Successors source symbol) →
      Stored database budget sets source symbol id

/-- What holds of the cache at every moment. -/
structure CacheInvariant (database : PatternDatabase) (cache : DeterministicCache) : Prop where
  /-- The budget is kept. -/
  length_le_budget : cache.states.length ≤ cache.budget
  /-- No id is one of the two that stand for no state. -/
  length_le_ids : cache.states.length ≤ fallbackTransition
  /-- The states of a set ascend. -/
  sorted : ∀ set ∈ cache.sets, set.Pairwise (· < ·)
  /-- The empty set is not stored: a dead frontier has an entry of its own. -/
  ne_nil : ∀ set ∈ cache.sets, set ≠ []
  /-- No set is stored twice. -/
  distinct : cache.sets.Nodup
  /-- A state carries the terminals of its set. -/
  terminals_eq : ∀ state ∈ cache.states, state.terminals = database.terminalsOf state.nfaStates
  /-- The tables of every state have their shape. -/
  tabled : ∀ state ∈ cache.states, state.Tabled
  /-- Every stored set is found by its hash. -/
  bucket : ∀ (id : ℕ) (set : List StateId), cache.sets[id]? = some set →
    id ∈ cache.hashBuckets (stateSetHash set)
  /-- Every entry says what the transition does. -/
  stored : ∀ state ∈ cache.states, ∀ symbol,
    Stored database cache.budget cache.sets state.nfaStates symbol (state.transition symbol)

section

variable {database : PatternDatabase} {cache : DeterministicCache}

/-- Every state has a set. -/
theorem DeterministicCache.length_sets (cache : DeterministicCache) :
    cache.sets.length = cache.states.length := List.length_map _

/-- The set with an id is that of the state. -/
theorem DeterministicCache.getElem?_sets (cache : DeterministicCache) (id : ℕ) :
    cache.sets[id]? = cache.states[id]?.map DeterministicState.nfaStates := List.getElem?_map

/-- Only one state is changed. -/
theorem DeterministicCache.getElem?_setTransition (cache : DeterministicCache) (id : ℕ)
    (symbol : UInt16) (entry j : ℕ) :
    (cache.setTransition id symbol entry).states[j]? =
      cache.states[j]?.map fun other =>
        if id = j then other.setTransition symbol entry else other := by
  show (cache.states.modify id _)[j]? = _
  rw [List.getElem?_modify]
  cases cache.states[j]? with
  | none => rfl
  | some other =>
    show some _ = some _
    split <;> rfl

/-- A transition changes no set. -/
theorem DeterministicCache.sets_setTransition (cache : DeterministicCache) (id : ℕ)
    (symbol : UInt16) (entry : ℕ) : (cache.setTransition id symbol entry).sets = cache.sets := by
  apply List.ext_getElem?
  intro j
  rw [getElem?_sets, getElem?_sets, getElem?_setTransition, Option.map_map]
  cases cache.states[j]? with
  | none => rfl
  | some other =>
    show some (DeterministicState.nfaStates (if id = j then _ else _)) = some _
    split
    · rw [DeterministicState.nfaStates_setTransition]
    · rfl

/-- Every state is an old one, or the changed one. -/
theorem DeterministicCache.mem_setTransition {id : ℕ} {state : DeterministicState}
    (hid : cache.states[id]? = some state) {symbol : UInt16} {entry : ℕ} {new : DeterministicState}
    (hnew : new ∈ (cache.setTransition id symbol entry).states) :
    new ∈ cache.states ∨ new = state.setTransition symbol entry := by
  obtain ⟨j, hj⟩ := List.mem_iff_getElem?.mp hnew
  rw [getElem?_setTransition] at hj
  obtain ⟨other, hother, rfl⟩ := Option.map_eq_some_iff.mp hj
  by_cases hij : id = j
  · rw [if_pos hij]
    rw [← hij, hid] at hother
    exact Or.inr (by rw [Option.some.inj hother])
  · rw [if_neg hij]
    exact Or.inl (List.mem_of_getElem? hother)

/-- The empty cache. -/
theorem cacheInvariant_empty (database : PatternDatabase) (budget : ℕ) :
    CacheInvariant database ⟨budget, [], fun _ => []⟩ where
  length_le_budget := Nat.zero_le _
  length_le_ids := Nat.zero_le _
  sorted set h := absurd h List.not_mem_nil
  ne_nil set h := absurd h List.not_mem_nil
  distinct := List.nodup_nil
  terminals_eq state h := absurd h List.not_mem_nil
  tabled state h := absurd h List.not_mem_nil
  bucket id set h := by simp [DeterministicCache.sets] at h
  stored state h := absurd h List.not_mem_nil

namespace CacheInvariant

/-- Interned sets with the same members are the same state. -/
theorem id_unique (h : CacheInvariant database cache) {i j : ℕ} {set other : List StateId}
    (hi : cache.sets[i]? = some set) (hj : cache.sets[j]? = some other)
    (heq : ∀ s, s ∈ set ↔ s ∈ other) : i = j := by
  have hset : set = other :=
    (h.sorted set (List.mem_of_getElem? hi)).eq_of_mem_iff
      (h.sorted other (List.mem_of_getElem? hj)) heq
  subst hset
  have hlt := (List.getElem?_eq_some_iff.mp hi).1
  exact (List.getElem?_inj hlt h.distinct).mp (hi.trans hj.symm)

/-- A lookup finds a set exactly when it is interned, whatever else its bucket holds. -/
theorem lookup_eq_some_iff (h : CacheInvariant database cache) {set : List StateId} {id : ℕ} :
    cache.lookup set = some id ↔ cache.sets[id]? = some set := by
  constructor
  · intro hlookup
    have hfound := List.find?_some hlookup
    rw [DeterministicCache.getElem?_sets]
    exact beq_iff_eq.mp hfound
  · intro hid
    unfold DeterministicCache.lookup
    cases hfind : (cache.hashBuckets (stateSetHash set)).find? fun candidate =>
        (cache.states[candidate]?.map DeterministicState.nfaStates) == some set with
    | none =>
      have hnone := List.find?_eq_none.mp hfind id (h.bucket id set hid)
      rw [← DeterministicCache.getElem?_sets, hid] at hnone
      exact absurd (beq_self_eq_true _) hnone
    | some other =>
      have hfound := List.find?_some hfind
      have hother := beq_iff_eq.mp hfound
      rw [← DeterministicCache.getElem?_sets] at hother
      rw [h.id_unique hid hother fun _ => Iff.rfl]

/-- Room for one more set means that no entry is a fallback. -/
theorem stored_append (hroom : ¬ Full cache.budget cache.sets) {source set : List StateId}
    {symbol : UInt16} {entry : ℕ}
    (h : Stored database cache.budget cache.sets source symbol entry) :
    Stored database cache.budget (cache.sets ++ [set]) source symbol entry := by
  cases h with
  | unknown => exact .unknown
  | dead hempty => exact .dead hempty
  | fallback _ _ hfull => exact absurd hfull hroom
  | state hid hmem =>
    refine .state ?_ hmem
    rw [List.getElem?_append_left (List.getElem?_eq_some_iff.mp hid).1]
    exact hid

/-- The bucket of a set that is interned after one more set has been put behind the others. -/
theorem bucket_push (h : CacheInvariant database cache) {set other : List StateId} {id : ℕ}
    (hid : (cache.sets ++ [set])[id]? = some other) :
    id ∈ (cache.push database set).hashBuckets (stateSetHash other) := by
  have hplace : id ∈ cache.hashBuckets (stateSetHash other) ∨
      other = set ∧ id = cache.states.length := by
    rw [List.getElem?_append] at hid
    split at hid
    · exact Or.inl (h.bucket id other hid)
    next hlt =>
      have hzero := (List.getElem?_eq_some_iff.mp hid).1
      rw [List.length_singleton] at hzero
      have hlast : id - cache.sets.length = 0 := by omega
      rw [hlast] at hid
      refine Or.inr ⟨(Option.some.inj hid).symm, ?_⟩
      rw [cache.length_sets] at hlt hlast
      omega
  show id ∈ Function.update cache.hashBuckets (stateSetHash set)
    (cache.hashBuckets (stateSetHash set) ++ [cache.states.length]) (stateSetHash other)
  by_cases hhash : stateSetHash other = stateSetHash set
  · -- the bucket of the new set keeps what it held and gets the new id behind it
    rw [hhash, Function.update_self]
    cases hplace with
    | inl hold => exact List.mem_append_left _ (hhash ▸ hold)
    | inr hlast => exact List.mem_append_right _ (List.mem_singleton.mpr hlast.2)
  · rw [Function.update_of_ne hhash]
    cases hplace with
    | inl hold => exact hold
    | inr hlast => exact absurd (congrArg stateSetHash hlast.1) hhash

/-- One more set keeps the invariant while there is room for it. -/
theorem push (h : CacheInvariant database cache) {set : List StateId}
    (hsorted : set.Pairwise (· < ·)) (hne : set ≠ []) (hnew : set ∉ cache.sets)
    (hroom : ¬ Full cache.budget cache.sets) :
    CacheInvariant database (cache.push database set) := by
  have hlength : (cache.push database set).states.length = cache.states.length + 1 := by
    rw [DeterministicCache.push, List.length_append, List.length_singleton]
  have hbounds : cache.states.length < cache.budget ∧
      cache.states.length < fallbackTransition := by
    unfold Full at hroom
    rw [cache.length_sets, not_or, not_le, not_le] at hroom
    exact hroom
  -- what holds of the sets so far and of the new one holds of all
  have hsets : ∀ {P : List StateId → Prop}, (∀ other ∈ cache.sets, P other) → P set →
      ∀ other ∈ (cache.push database set).sets, P other := by
    intro P hold hlast
    rw [cache.sets_push]
    exact List.forall_mem_append.mpr ⟨hold, List.forall_mem_singleton.mpr hlast⟩
  have hstates : ∀ {P : DeterministicState → Prop}, (∀ state ∈ cache.states, P state) →
      P (DeterministicState.new database set) → ∀ state ∈ (cache.push database set).states,
        P state := fun hold hlast =>
    List.forall_mem_append.mpr ⟨hold, List.forall_mem_singleton.mpr hlast⟩
  refine ⟨?_, ?_, hsets h.sorted hsorted, hsets h.ne_nil hne, ?_, hstates h.terminals_eq rfl,
    hstates h.tabled (DeterministicState.tabled_new database set), fun id other hid => ?_,
    hstates (fun state hstate symbol => ?_) fun symbol => ?_⟩
  · rw [hlength]
    exact hbounds.1
  · rw [hlength]
    exact hbounds.2
  · rw [cache.sets_push, List.nodup_append]
    refine ⟨h.distinct, List.nodup_singleton _, fun a ha b hb => ?_⟩
    rw [List.mem_singleton.mp hb]
    exact fun heq => hnew (heq ▸ ha)
  · rw [cache.sets_push] at hid
    exact h.bucket_push hid
  · rw [cache.sets_push]
    exact stored_append hroom (h.stored state hstate symbol)
  · -- a new state knows no transition yet
    rw [DeterministicState.transition_new]
    exact .unknown

/-- Interning keeps the invariant and the ids given so far. It fails only when the cache is full
and does not hold the set. -/
theorem intern (h : CacheInvariant database cache) {set : List StateId}
    (hsorted : set.Pairwise (· < ·)) (hne : set ≠ []) :
    CacheInvariant database (cache.intern database set).2 ∧
      (cache.intern database set).2.budget = cache.budget ∧
      (∀ (id : ℕ) (state : DeterministicState), cache.states[id]? = some state →
        (cache.intern database set).2.states[id]? = some state) ∧
      match (cache.intern database set).1 with
      | some id => (cache.intern database set).2.sets[id]? = some set
      | none => Full cache.budget cache.sets ∧ set ∉ cache.sets ∧
          (cache.intern database set).2 = cache := by
  unfold DeterministicCache.intern
  cases hlookup : cache.lookup set with
  | some id => exact ⟨h, rfl, fun _ _ h => h, h.lookup_eq_some_iff.mp hlookup⟩
  | none =>
    have hnew : set ∉ cache.sets := by
      intro hmem
      obtain ⟨id, hid⟩ := List.mem_iff_getElem?.mp hmem
      rw [h.lookup_eq_some_iff.mpr hid] at hlookup
      cases hlookup
    -- the guard of the source counts states, `Full` counts sets
    have hguard : (cache.states.length ≥ cache.budget ||
        cache.states.length ≥ fallbackTransition) = true ↔ Full cache.budget cache.sets := by
      unfold Full
      rw [Bool.or_eq_true, decide_eq_true_eq, decide_eq_true_eq, cache.length_sets]
    by_cases hfull : (cache.states.length ≥ cache.budget ||
        cache.states.length ≥ fallbackTransition) = true
    · simp only [hfull, if_true]
      exact ⟨h, trivial, fun _ _ h => h, hguard.mp hfull, hnew, trivial⟩
    · simp only [hfull, if_false, Bool.false_eq_true]
      refine ⟨h.push hsorted hne hnew (mt hguard.mpr hfull), trivial, fun id state hid => ?_, ?_⟩
      · exact (List.getElem?_append_left (List.getElem?_eq_some_iff.mp hid).1).trans hid
      · show (cache.push database set).sets[cache.states.length]? = some set
        rw [cache.sets_push, ← cache.length_sets, List.getElem?_append_right (le_refl _),
          Nat.sub_self]
        rfl

/-- Filling in an unknown transition with a correct entry keeps the invariant and the sets. -/
theorem setTransition (h : CacheInvariant database cache) {id : ℕ} {state : DeterministicState}
    (hid : cache.states[id]? = some state) {symbol : UInt16} {entry : ℕ}
    (hunknown : state.transition symbol = unknownTransition) (hentry : entry ≠ unknownTransition)
    (hstored : Stored database cache.budget cache.sets state.nfaStates symbol entry) :
    CacheInvariant database (cache.setTransition id symbol entry) ∧
      (cache.setTransition id symbol entry).sets = cache.sets := by
  have hsets := cache.sets_setTransition id symbol entry
  have hstate := List.mem_of_getElem? hid
  have hlength : (cache.setTransition id symbol entry).states.length = cache.states.length := by
    rw [← DeterministicCache.length_sets, hsets, DeterministicCache.length_sets]
  -- what holds of the old states and of the changed one holds of all
  have hall : ∀ {P : DeterministicState → Prop}, (∀ old ∈ cache.states, P old) →
      P (state.setTransition symbol entry) →
        ∀ new ∈ (cache.setTransition id symbol entry).states, P new := by
    intro P hold hchanged new hnew
    obtain hnew | rfl := DeterministicCache.mem_setTransition hid hnew
    · exact hold new hnew
    · exact hchanged
  refine ⟨⟨?_, ?_, ?_, ?_, ?_, ?_, ?_, ?_, ?_⟩, hsets⟩
  · rw [hlength]
    exact h.length_le_budget
  · rw [hlength]
    exact h.length_le_ids
  · rw [hsets]
    exact h.sorted
  · rw [hsets]
    exact h.ne_nil
  · rw [hsets]
    exact h.distinct
  · refine hall h.terminals_eq ?_
    rw [DeterministicState.terminals_setTransition, DeterministicState.nfaStates_setTransition]
    exact h.terminals_eq state hstate
  · exact hall h.tabled ((h.tabled state hstate).setTransition symbol hentry)
  · rw [hsets]
    exact h.bucket
  · rw [hsets]
    refine hall h.stored fun other => ?_
    rw [DeterministicState.nfaStates_setTransition,
      DeterministicState.transition_setTransition (h.tabled state hstate) hunknown]
    by_cases hother : other = symbol
    · rw [if_pos hother, hother]
      exact hstored
    · rw [if_neg hother]
      exact h.stored state hstate other

/-- A stored entry is dead exactly when there are no successors, the id of a state exactly when
that state holds the successors, a fallback only when the successors are not interned, and never
anything else. -/
theorem entry_iff (h : CacheInvariant database cache) {state : DeterministicState}
    (hstate : state ∈ cache.states) {symbol : UInt16}
    (hknown : state.transition symbol ≠ unknownTransition) :
    (state.transition symbol = deadTransition ↔
        database.Successors state.nfaStates symbol = ∅) ∧
      (∀ (id : ℕ) (set : List StateId), cache.sets[id]? = some set →
        (state.transition symbol = id ↔
          ∀ s, s ∈ set ↔ s ∈ database.Successors state.nfaStates symbol)) ∧
      (state.transition symbol = fallbackTransition →
        (database.Successors state.nfaStates symbol).Nonempty ∧
          ∀ set ∈ cache.sets, ¬ ∀ s, s ∈ set ↔ s ∈ database.Successors state.nfaStates symbol) ∧
      (state.transition symbol = deadTransition ∨ state.transition symbol = fallbackTransition ∨
        state.transition symbol < cache.states.length) := by
  -- ids stay below the marks, so no id is taken for a mark
  have hids : ∀ (id : ℕ) (set : List StateId), cache.sets[id]? = some set →
      id < fallbackTransition := by
    intro id set hid
    have hlt := (List.getElem?_eq_some_iff.mp hid).1
    rw [cache.length_sets] at hlt
    exact hlt.trans_le h.length_le_ids
  have hmarks : fallbackTransition < deadTransition := by decide
  have hnonempty : ∀ set ∈ cache.sets,
      (∀ s, s ∈ set ↔ s ∈ database.Successors state.nfaStates symbol) →
      (database.Successors state.nfaStates symbol).Nonempty := by
    intro set hset hiff
    obtain ⟨s, hs⟩ := List.exists_mem_of_ne_nil set (h.ne_nil set hset)
    exact ⟨s, (hiff s).mp hs⟩
  have hcase := h.stored state hstate symbol
  -- the entry is generalized, so that each case of `Stored` says which number it is
  revert hknown hcase
  generalize state.transition symbol = entry
  intro hknown hcase
  cases hcase with
  | unknown => exact absurd rfl hknown
  | dead hempty =>
    refine ⟨iff_of_true rfl hempty, fun id set hid => ?_, fun heq => ?_, Or.inl rfl⟩
    · refine iff_of_false (fun heq => ?_) fun hiff => ?_
      · have := hids id set hid
        omega
      · have := hnonempty set (List.mem_of_getElem? hid) hiff
        rw [hempty] at this
        exact Set.not_nonempty_empty this
    · omega
  | fallback hne hnot hfull =>
    refine ⟨iff_of_false hmarks.ne hne.ne_empty, fun id set hid => ?_, fun _ => ⟨hne, hnot⟩,
      Or.inr (Or.inl rfl)⟩
    refine iff_of_false (fun heq => ?_) (hnot set (List.mem_of_getElem? hid))
    have := hids id set hid
    omega
  | @state _ held hid hiff =>
    have hlt := hids entry held hid
    have hne := hnonempty held (List.mem_of_getElem? hid) hiff
    have hstates := (List.getElem?_eq_some_iff.mp hid).1
    rw [cache.length_sets] at hstates
    refine ⟨iff_of_false (fun heq => ?_) hne.ne_empty, fun id set hset => ?_, fun heq => ?_,
      Or.inr (Or.inr hstates)⟩
    · omega
    · constructor
      · rintro rfl
        rw [hid] at hset
        exact Option.some.inj hset ▸ hiff
      · intro hiff'
        exact h.id_unique hid hset fun s => (hiff s).trans (hiff' s).symm
    · omega

end CacheInvariant

end

end Rustmatch

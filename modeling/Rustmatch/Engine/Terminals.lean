import Mathlib.Data.List.GetD
import Rustmatch.Engine.Frontier
import Rustmatch.ToMathlib.SortedLists

/-!
# Recorded terminals

The longest ends of a start are kept in one slot for each ordinal, together with the list of
ordinals whose slot is filled, so that only those are cleared before the next start. `Terminals`
says that the two are in step; the events of a start are read off them.

## Main results

* `Terminals.recordTerminals`, `Terminals.resetTerminals`: recording and clearing;
* `reportTouched_eq_eventsAt`: the report, once the slots hold the longest ends.
-/

namespace Rustmatch

/-- The slots of a scratch hold `best`, and the touched ordinals are those whose slot is filled. -/
structure Terminals (count : ℕ) (best : ℕ → Option ℕ) (scratch : Scratch) : Prop where
  /-- There is a slot for every ordinal. -/
  length_eq : scratch.bestEnd.length = count
  /-- Every slot holds its value. -/
  getD_eq : ∀ ordinal < count, scratch.bestEnd.getD ordinal none = best ordinal
  /-- No ordinal is touched twice. -/
  nodup : scratch.touchedOrdinals.Nodup
  /-- An ordinal is touched when its slot is filled. -/
  mem_iff : ∀ ordinal, ordinal ∈ scratch.touchedOrdinals ↔ ordinal < count ∧ best ordinal ≠ none

namespace Scratch

variable (scratch : Scratch) (ordinals : List ℕ) (stop : ℕ)

/-- Recording changes nothing but the slots and the touched ordinals. -/
theorem recordTerminals_eq : ∃ best touched,
    scratch.recordTerminals ordinals stop =
      { scratch with bestEnd := best, touchedOrdinals := touched } := by
  induction ordinals generalizing scratch with
  | nil => exact ⟨scratch.bestEnd, scratch.touchedOrdinals, rfl⟩
  | cons ordinal ordinals ih =>
    obtain ⟨best, touched, heq⟩ := ih (scratch.recordTerminal ordinal stop)
    exact ⟨best, touched, heq⟩

/-- Recording ends keeps the next frontier. -/
@[simp]
theorem recordTerminals_next : (scratch.recordTerminals ordinals stop).next = scratch.next := by
  obtain ⟨best, touched, heq⟩ := recordTerminals_eq scratch ordinals stop
  rw [heq]

/-- Recording ends keeps the marks of the frontier. -/
@[simp]
theorem recordTerminals_activeSeen :
    (scratch.recordTerminals ordinals stop).activeSeen = scratch.activeSeen := by
  obtain ⟨best, touched, heq⟩ := recordTerminals_eq scratch ordinals stop
  rw [heq]

/-- Recording ends keeps the marks of the next frontier. -/
@[simp]
theorem recordTerminals_nextSeen :
    (scratch.recordTerminals ordinals stop).nextSeen = scratch.nextSeen := by
  obtain ⟨best, touched, heq⟩ := recordTerminals_eq scratch ordinals stop
  rw [heq]

/-- Recording ends keeps the generations. -/
@[simp]
theorem recordTerminals_cacheSeen :
    (scratch.recordTerminals ordinals stop).cacheSeen = scratch.cacheSeen := by
  obtain ⟨best, touched, heq⟩ := recordTerminals_eq scratch ordinals stop
  rw [heq]

/-- Recording ends keeps the current generation. -/
@[simp]
theorem recordTerminals_cacheGeneration :
    (scratch.recordTerminals ordinals stop).cacheGeneration = scratch.cacheGeneration := by
  obtain ⟨best, touched, heq⟩ := recordTerminals_eq scratch ordinals stop
  rw [heq]

end Scratch

namespace Terminals

variable {count : ℕ} {best : ℕ → Option ℕ} {scratch scratch' : Scratch}

/-- Only the slots and the touched ordinals matter. -/
theorem congr (h : Terminals count best scratch) (hbest : scratch'.bestEnd = scratch.bestEnd)
    (htouched : scratch'.touchedOrdinals = scratch.touchedOrdinals) :
    Terminals count best scratch' where
  length_eq := by rw [hbest, h.length_eq]
  getD_eq ordinal hlt := by rw [hbest, h.getD_eq ordinal hlt]
  nodup := by
    rw [htouched]
    exact h.nodup
  mem_iff ordinal := by rw [htouched, h.mem_iff]

/-- Only the ends of the patterns matter. -/
theorem of_eq {best' : ℕ → Option ℕ} (h : Terminals count best scratch)
    (heq : ∀ ordinal < count, best ordinal = best' ordinal) : Terminals count best' scratch where
  length_eq := h.length_eq
  getD_eq ordinal hlt := (h.getD_eq ordinal hlt).trans (heq ordinal hlt)
  nodup := h.nodup
  mem_iff ordinal := by
    rw [h.mem_iff]
    exact and_congr_right fun hlt => by rw [heq ordinal hlt]

/-- A new scratch has no ends. -/
theorem new (database : PatternDatabase) :
    Terminals database.patternCount (fun _ => none) (Scratch.new database) where
  length_eq := List.length_replicate
  getD_eq ordinal _ := by
    rw [Scratch.new, List.getD_eq_getElem?_getD, List.getElem?_getD_replicate_default_eq]
  nodup := List.nodup_nil
  mem_iff ordinal := by simp [Scratch.new]

/-- One slot is filled. -/
theorem recordTerminal (h : Terminals count best scratch) {ordinal : ℕ} (hlt : ordinal < count)
    (stop : ℕ) : Terminals count (Function.update best ordinal (some stop))
      (scratch.recordTerminal ordinal stop) where
  length_eq := by
    rw [Scratch.recordTerminal, List.length_set, h.length_eq]
  getD_eq other hother := by
    rw [Scratch.recordTerminal, List.getD_eq_getElem?_getD, List.getElem?_set]
    -- only the slot of this ordinal changes
    by_cases heq : other = ordinal
    · subst heq
      rw [if_pos rfl, if_pos (h.length_eq ▸ hlt), Function.update_self]
      rfl
    · rw [if_neg (Ne.symm heq), Function.update_of_ne heq, ← h.getD_eq other hother,
        List.getD_eq_getElem?_getD]
  nodup := by
    rw [Scratch.recordTerminal]
    show (if scratch.bestEnd.getD ordinal none = none then scratch.touchedOrdinals ++ [ordinal]
      else scratch.touchedOrdinals).Nodup
    split
    -- an empty slot has not been touched before, so the list gets no duplicate
    next hnone =>
      rw [h.getD_eq ordinal hlt] at hnone
      have hnew : ordinal ∉ scratch.touchedOrdinals := fun hmem =>
        ((h.mem_iff ordinal).mp hmem).2 hnone
      rw [List.nodup_append]
      refine ⟨h.nodup, List.nodup_singleton _, fun a ha b hb => ?_⟩
      rw [List.mem_singleton.mp hb]
      exact fun heq => hnew (heq ▸ ha)
    next => exact h.nodup
  mem_iff other := by
    rw [Scratch.recordTerminal]
    show other ∈ (if scratch.bestEnd.getD ordinal none = none
      then scratch.touchedOrdinals ++ [ordinal] else scratch.touchedOrdinals) ↔ _
    rw [h.getD_eq ordinal hlt]
    by_cases heq : other = ordinal
    · subst heq
      rw [Function.update_self]
      by_cases hnone : best other = none
      · rw [if_pos hnone]
        simp [hlt]
      · rw [if_neg hnone, h.mem_iff]
        simp [hlt, hnone]
    · rw [Function.update_of_ne heq, ← h.mem_iff other]
      split
      · simp [heq]
      · exact Iff.rfl

/-- The slots of the recorded ordinals are filled. -/
theorem recordTerminals (h : Terminals count best scratch) {ordinals : List ℕ}
    (hlt : ∀ ordinal ∈ ordinals, ordinal < count) (stop : ℕ) :
    Terminals count (fun ordinal => if ordinal ∈ ordinals then some stop else best ordinal)
      (scratch.recordTerminals ordinals stop) := by
  induction ordinals generalizing scratch best with
  | nil =>
    refine h.of_eq fun ordinal _ => ?_
    rw [if_neg List.not_mem_nil]
  | cons first ordinals ih =>
    have hfirst := h.recordTerminal (hlt first List.mem_cons_self) stop
    have hrest := ih hfirst fun ordinal hmem => hlt ordinal (List.mem_cons_of_mem _ hmem)
    refine hrest.of_eq fun ordinal _ => ?_
    by_cases heq : ordinal = first
    · subst heq
      rw [Function.update_self, if_pos List.mem_cons_self]
      split <;> rfl
    · rw [Function.update_of_ne heq]
      simp [heq]

/-- The loop that clears the touched slots leaves the others as they are. -/
theorem clearSlots_spec (touched : List ℕ) (slots : List (Option ℕ)) :
    (touched.foldl (fun slots ordinal => slots.set ordinal none) slots).length = slots.length ∧
    ∀ ordinal, (touched.foldl (fun slots ordinal => slots.set ordinal none) slots).getD
      ordinal none = if ordinal ∈ touched then none else slots.getD ordinal none := by
  induction touched generalizing slots with
  | nil => exact ⟨rfl, fun ordinal => (if_neg List.not_mem_nil).symm⟩
  | cons first touched ih =>
    obtain ⟨hlength, hget⟩ := ih (slots.set first none)
    refine ⟨by rw [List.foldl_cons, hlength, List.length_set], fun ordinal => ?_⟩
    rw [List.foldl_cons, hget, List.getD_eq_getElem?_getD, List.getElem?_set]
    by_cases heq : ordinal = first
    · subst heq
      rw [if_pos rfl, if_pos List.mem_cons_self]
      split
      · rfl
      · split <;> rfl
    · rw [if_neg (Ne.symm heq), List.getD_eq_getElem?_getD]
      simp [heq]

/-- All slots are cleared. -/
theorem resetTerminals (h : Terminals count best scratch) :
    Terminals count (fun _ => none) scratch.resetTerminals := by
  obtain ⟨hlength, hget⟩ := clearSlots_spec scratch.touchedOrdinals scratch.bestEnd
  refine ⟨hlength.trans h.length_eq, fun ordinal hlt => ?_, List.nodup_nil, fun ordinal => ?_⟩
  · refine (hget ordinal).trans ?_
    split
    · rfl
    -- a slot that was not touched is empty already
    next hnot =>
      rw [h.getD_eq ordinal hlt]
      by_contra hsome
      exact hnot ((h.mem_iff ordinal).mpr ⟨hlt, hsome⟩)
  · simp [Scratch.resetTerminals]

/-- Sorting does not change which ordinals are touched. -/
theorem sortTouched (h : Terminals count best scratch) :
    Terminals count best scratch.sortTouched where
  length_eq := h.length_eq
  getD_eq := h.getD_eq
  nodup := (List.mergeSort_perm _ _).nodup_iff.mpr h.nodup
  mem_iff ordinal := by
    rw [← h.mem_iff]
    exact (List.mergeSort_perm _ _).mem_iff

/-- The sorted touched ordinals are those with a filled slot, in order. -/
theorem touchedOrdinals_sortTouched (h : Terminals count best scratch) :
    scratch.sortTouched.touchedOrdinals =
      (List.range count).filter fun ordinal => (best ordinal).isSome := by
  refine SortedLists.mergeSort_eq_filter_range h.nodup fun ordinal => ?_
  rw [h.mem_iff, Option.isSome_iff_ne_none]

end Terminals

/-- The report of a start, once the slots hold the longest ends. -/
theorem reportTouched_eq_eventsAt {database : PatternDatabase} {R : Reading} {root start : ℕ}
    {scratch : Scratch}
    (h : Terminals database.patternCount
      (fun ordinal => longestEnd (database.ends R root ordinal start)) scratch) :
    reportTouched database start scratch.sortTouched = database.eventsAt R root start := by
  rw [reportTouched, h.touchedOrdinals_sortTouched, PatternDatabase.eventsAt]
  have hslot : ∀ ordinal < database.patternCount, scratch.sortTouched.bestEnd.getD ordinal none =
      longestEnd (database.ends R root ordinal start) := fun ordinal hlt => h.getD_eq ordinal hlt
  -- the induction is on how many ordinals have been looked at
  have hinitial : ∀ n ≤ database.patternCount,
      ((List.range n).filter fun ordinal =>
          (longestEnd (database.ends R root ordinal start)).isSome).map (fun ordinal =>
            (⟨database.patternId ordinal, ⟨start,
              (scratch.sortTouched.bestEnd.getD ordinal none).getD 0⟩⟩ : Match)) =
        (List.range n).filterMap fun ordinal =>
          (longestEnd (database.ends R root ordinal start)).map fun stop =>
            ⟨database.patternId ordinal, ⟨start, stop⟩⟩ := by
    intro n hn
    induction n with
    | zero => rfl
    | succ n ih =>
      rw [List.range_succ, List.filter_append, List.map_append, List.filterMap_append,
        ih (Nat.le_of_succ_le hn)]
      congr 1
      cases hend : longestEnd (database.ends R root n start) with
      | none => simp [hend]
      | some stop =>
        have hn := hslot n hn
        rw [hend, List.getD_eq_getElem?_getD] at hn
        simp [hend, hn]
  exact hinitial _ (le_refl _)

end Rustmatch

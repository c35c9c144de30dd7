import Rustmatch.Scheduler

/-!
# Schedulers do not look at outputs

A scheduler only stores what the scans of partitions return. Changing every output changes the
outputs that it returns, and nothing else: not what it starts, nor which error or panic it ends
with.

## Main results

* `Scope.run_map`: a scope whose outputs are changed.
-/

namespace Rustmatch

variable {α β Payload : Type}

/-- Changes the output of a partition. -/
def Outcome.map (f : α → β) : Outcome α Payload → Outcome β Payload
  | .output value => .output (f value)
  | .error reason => .error reason
  | .panic payload => .panic payload

/-- Changes what is returned. -/
def Ending.map (f : α → β) : Ending Payload α → Ending Payload β
  | .returned result => .returned (result.map f)
  | .panicked payload => .panicked payload
  | .outputExpected => .outputExpected

/-- Changes the outputs that have been joined. -/
def Joined.map (f : α → β) (joined : Joined α Payload) : Joined β Payload :=
  ⟨joined.outputs.map (Option.map f), joined.scanError, joined.workerPanic⟩

/-- Changes the outputs of all partitions. -/
def Scope.map (f : α → β) (scope : Scope α Payload) : Scope β Payload where
  partitionCount := scope.partitionCount
  beforeSpawn := scope.beforeSpawn
  threadStarts := scope.threadStarts
  scan index := (scope.scan index).map f
  partitionCount_pos := scope.partitionCount_pos

namespace Ending

/-- A returned value is mapped. -/
@[simp]
theorem map_returned_ok (f : α → β) (value : α) :
    (returned (.ok value) : Ending Payload α).map f = returned (.ok (f value)) := rfl

/-- A returned error stays. -/
@[simp]
theorem map_returned_error (f : α → β) (error : Error) :
    (returned (.error error) : Ending Payload α).map f = returned (.error error) := rfl

/-- What follows a changed value. -/
theorem map_bind {γ : Type} (f : β → γ) (ending : Ending Payload α)
    (next : α → Ending Payload β) :
    (ending >>= next).map f = ending >>= fun value => (next value).map f := by
  cases ending with
  | returned result => cases result <;> rfl
  | panicked payload => rfl
  | outputExpected => rfl

/-- What follows sees the mapped value. -/
theorem bind_map {γ : Type} (f : α → β) (ending : Ending Payload α)
    (next : β → Ending Payload γ) :
    ending.map f >>= next = ending >>= fun value => next (f value) := by
  cases ending with
  | returned result => cases result <;> rfl
  | panicked payload => rfl
  | outputExpected => rfl

end Ending

namespace Joined

variable (f : α → β) (joined : Joined α Payload)

/-- Taking note of a changed outcome. -/
theorem record_map (index : ℕ) (outcome : Outcome α Payload) :
    (joined.map f).record index (outcome.map f) = (joined.record index outcome).map f := by
  cases outcome with
  | output value =>
    unfold Outcome.map record map
    rw [List.map_set, Option.map_some]
  | error error => rfl
  | panic payload => rfl

/-- All outputs are there after a change exactly when they were there before. -/
theorem mapM_id_map (outputs : List (Option α)) :
    (outputs.map (Option.map f)).mapM id = (outputs.mapM id).map (List.map f) := by
  induction outputs with
  | nil => rfl
  | cons output outputs ih =>
    rw [List.map_cons, List.mapM_cons, List.mapM_cons, ih]
    cases output with
    | none => rfl
    | some value =>
      cases outputs.mapM id with
      | none => rfl
      | some values => rfl

/-- What follows the last join of changed outputs. -/
theorem finish_map (spawnError : Option Error) :
    (joined.map f).finish spawnError = (joined.finish spawnError).map (List.map f) := by
  unfold finish map
  simp only
  cases joined.workerPanic with
  | some payload => rfl
  | none =>
    cases spawnError.or joined.scanError with
    | some error => rfl
    | none =>
      simp only [mapM_id_map]
      cases joined.outputs.mapM id with
      | none => rfl
      | some outputs => rfl

end Joined

namespace Scope

variable (f : α → β) (scope : Scope α Payload)

/-- The same threads are started. -/
theorem spawnWorkers_map (indices : List ℕ) :
    (scope.map f).spawnWorkers indices = scope.spawnWorkers indices := by
  induction indices with
  | nil => rfl
  | cons index rest ih =>
    unfold spawnWorkers
    rw [ih]
    rfl

/-- At first nothing is joined, mapped or not. -/
theorem unjoined_map : (scope.map f).unjoined = scope.unjoined.map f := by
  unfold unjoined Joined.map
  rw [List.map_replicate]
  rfl

/-- Mapped outputs are joined as the outputs are. -/
theorem joinWorkers_map (handles : List ℕ) (spawnError : Option Error)
    (joined : Joined α Payload) :
    (scope.map f).joinWorkers handles spawnError (joined.map f) =
      (scope.joinWorkers handles spawnError joined).map (List.map f) := by
  unfold joinWorkers
  rw [← Joined.finish_map]
  congr 1
  -- one thread after the other
  induction handles generalizing joined with
  | nil => rfl
  | cons index handles ih =>
    rw [List.foldl_cons, List.foldl_cons, ← ih]
    congr 1
    exact joined.record_map f index (scope.scan index)

/-- A scope whose outputs are changed returns the changed outputs, and ends the same way if it
returns none. -/
theorem run_map : (scope.map f).run = scope.run.map (List.map f) := by
  have hworkers : (scope.map f).spawnWorkers (scope.map f).workers =
      scope.spawnWorkers scope.workers := scope.spawnWorkers_map f scope.workers
  unfold run
  rw [hworkers]
  generalize scope.spawnWorkers scope.workers = spawned
  obtain ⟨handles, spawnError⟩ := spawned
  simp only
  unfold scanAndJoin
  cases spawnError with
  | some error =>
    rw [unjoined_map]
    exact scope.joinWorkers_map f handles (some error) scope.unjoined
  | none =>
    have hscan : (scope.map f).scan 0 = (scope.scan 0).map f := rfl
    simp only [hscan, unjoined_map]
    have hrecord := fun outcome => (scope.unjoined).record_map f 0 outcome
    cases scope.scan 0 with
    | panic payload => rfl
    | output value =>
      refine Eq.trans ?_ (scope.joinWorkers_map f handles none
        (scope.unjoined.record 0 (.output value)))
      rw [← hrecord]
      rfl
    | error error =>
      refine Eq.trans ?_ (scope.joinWorkers_map f handles none
        (scope.unjoined.record 0 (.error error)))
      rw [← hrecord]
      rfl

end Scope

end Rustmatch

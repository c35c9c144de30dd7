import Mathlib.Data.List.Range
import Mathlib.Data.List.TakeWhile
import Mathlib.Order.WellFounded
import Rustmatch.Scheduler

/-!
# The law of scoped workers

Whatever the threads do, a scheduler ends as it does when every thread has finished before it is
joined: what the caller will make of the outcomes does not depend on the moment at which it learns
them. That ending is a panic if a scan panicked, else the error that kept a thread from starting,
else the error of the lowest-numbered partition, else the outputs in the order of the partitions.

## Main results

* `Scope.step_wellFounded`, `Scope.exists_step`: every interleaving ends;
* `Scope.ends_iff`: all end in the same way;
* `Scope.law_run`: the law of that ending;
* `InTurn.ends_pair_iff`: two scopes in turn;
* `scans_all_or_nothing`: schedulers and what they deliver.
-/

namespace Rustmatch

namespace Outcome

variable {α Payload : Type}

/-- The output of a partition. -/
def output? : Outcome α Payload → Option α
  | .output value => some value
  | _ => none

/-- The error of a partition. -/
def error? : Outcome α Payload → Option Error
  | .error reason => some reason
  | _ => none

/-- The panic of a partition. -/
def panic? : Outcome α Payload → Option Payload
  | .panic payload => some payload
  | _ => none

/-- The error of an outcome is the one it ended with. -/
theorem error?_eq_some {outcome : Outcome α Payload} {reason : Error} :
    outcome.error? = some reason ↔ outcome = .error reason := by
  cases outcome <;> simp [error?]

/-- The payload of an outcome is the one it ended with. -/
theorem panic?_eq_some {outcome : Outcome α Payload} {payload : Payload} :
    outcome.panic? = some payload ↔ outcome = .panic payload := by
  cases outcome <;> simp [panic?]

/-- A partition without error and panic has an output. -/
theorem exists_output {outcome : Outcome α Payload} (herror : outcome.error? = none)
    (hpanic : outcome.panic? = none) : ∃ value, outcome = .output value := by
  cases outcome with
  | output value => exact ⟨value, rfl⟩
  | error reason => cases herror
  | panic payload => cases hpanic

end Outcome

namespace Scope

variable {α Payload : Type} {scope : Scope α Payload}

/-! ### Interleavings end as the scope does -/

/-- How the scope will end, from where the caller is. -/
def outlook (scope : Scope α Payload) : Caller α Payload → Ending Payload (List α)
  | .spawning rest handles =>
    let (more, spawnError) := scope.spawnWorkers rest
    scope.scanAndJoin (handles ++ more) spawnError
  | .joining handles spawnError joined => scope.joinWorkers handles spawnError joined
  | .unwinding payload => .panicked payload
  | .ended ending => ending

/-- No step changes how the scope will end. -/
theorem outlook_step {moment next : Moment α Payload} (h : scope.Step moment next) :
    scope.outlook next.caller = scope.outlook moment.caller := by
  cases h with
  | start hstart => simp [outlook, spawnWorkers, hstart]
  | fail hfail => simp [outlook, spawnWorkers, hfail, scanAndJoin]
  | @scan handles running outcome hscan hpanic =>
    cases outcome with
    | output value => simp [outlook, spawnWorkers, scanAndJoin, hscan]
    | error error => simp [outlook, spawnWorkers, scanAndJoin, hscan]
    | panic payload => exact absurd rfl (hpanic payload)
  | unwind hscan => simp [outlook, spawnWorkers, scanAndJoin, hscan]
  | stop => rfl
  | join => rfl
  | leave => rfl
  | leaveUnwinding => rfl

/-- Nor does an interleaving. -/
theorem outlook_of_reaches {moment : Moment α Payload} (h : scope.Reaches moment) :
    scope.outlook moment.caller = scope.run := by
  induction h with
  | refl => rfl
  | tail _ hstep ih => exact (outlook_step hstep).trans ih

/-- The steps that the caller has left. -/
def Caller.weight : Caller α Payload → ℕ
  | .spawning rest handles => 3 * rest.length + handles.length + 3
  | .joining handles _ _ => handles.length + 1
  | .unwinding _ => 1
  | .ended _ => 0

/-- Every step leaves fewer steps. -/
theorem weight_step {moment next : Moment α Payload} (h : scope.Step moment next) :
    Caller.weight next.caller + next.running.card <
      Caller.weight moment.caller + moment.running.card := by
  cases h with
  | @start index rest handles running =>
    have hcard := Finset.card_insert_le index running
    simp only [Caller.weight, List.length_cons, List.length_append, List.length_nil]
    omega
  | fail | scan | unwind | leave | leaveUnwinding =>
    simp only [Caller.weight, List.length_cons]
    omega
  | stop hmem => exact Nat.add_lt_add_left (Finset.card_erase_lt_of_mem hmem) _
  | join =>
    simp only [Caller.weight, List.length_cons]
    omega

/-- No interleaving goes on forever. -/
theorem step_wellFounded (scope : Scope α Payload) : WellFounded (flip scope.Step) :=
  Subrelation.wf (fun h => weight_step h)
    (measure fun moment : Moment α Payload => Caller.weight moment.caller + moment.running.card).wf

/-- Before its end a scope can take a step. -/
theorem exists_step (scope : Scope α Payload) (moment : Moment α Payload) :
    (∃ ending, moment = ⟨.ended ending, ∅⟩) ∨ ∃ next, scope.Step moment next := by
  obtain ⟨caller, running⟩ := moment
  obtain rfl | ⟨index, hindex⟩ := running.eq_empty_or_nonempty
  -- with no thread running the caller can always go on, until the scope has ended
  · cases caller with
    | spawning rest handles =>
      refine Or.inr ?_
      cases rest with
      | nil =>
        cases hscan : scope.scan 0 with
        | output value => exact ⟨_, .scan hscan (by simp)⟩
        | error error => exact ⟨_, .scan hscan (by simp)⟩
        | panic payload => exact ⟨_, .unwind hscan⟩
      | cons index rest =>
        cases hfailure : scope.spawnFailure index with
        | none => exact ⟨_, .start hfailure⟩
        | some error => exact ⟨_, .fail hfailure⟩
    | joining handles spawnError joined =>
      cases handles with
      | nil => exact Or.inr ⟨_, .leave⟩
      | cons index handles => exact Or.inr ⟨_, .join (Finset.notMem_empty index)⟩
    | unwinding payload => exact Or.inr ⟨_, .leaveUnwinding⟩
    | ended ending => exact Or.inl ⟨ending, rfl⟩
  · exact Or.inr ⟨_, .stop hindex⟩

/-- From every moment an interleaving leads to an end. -/
theorem exists_ended (scope : Scope α Payload) (moment : Moment α Payload) :
    ∃ ending, Relation.ReflTransGen scope.Step moment ⟨.ended ending, ∅⟩ := by
  induction moment using scope.step_wellFounded.induction with
  | _ moment ih =>
    obtain ⟨ending, rfl⟩ | ⟨next, hstep⟩ := scope.exists_step moment
    · exact ⟨ending, .refl⟩
    · obtain ⟨ending, hrest⟩ := ih next hstep
      exact ⟨ending, .head hstep hrest⟩

/-- The ending does not depend on the interleaving. -/
theorem ends_iff {ending : Ending Payload (List α)} : scope.Ends ending ↔ ending = scope.run := by
  constructor
  · exact fun h => outlook_of_reaches h
  · rintro rfl
    obtain ⟨ending, h⟩ := scope.exists_ended scope.initial
    obtain rfl : ending = scope.run := outlook_of_reaches h
    exact h

/-! ### The law -/

/-- No thread fails to start. -/
def SpawnsAll (scope : Scope α Payload) : Prop :=
  ∀ index, 1 ≤ index → index < scope.partitionCount → scope.spawnFailure index = none

/-- The first thread that is not started is not started for this reason. -/
def SpawnFails (scope : Scope α Payload) (error : Error) : Prop :=
  ∃ index, 1 ≤ index ∧ index < scope.partitionCount ∧ scope.spawnFailure index = some error ∧
    ∀ other, 1 ≤ other → other < index → scope.spawnFailure other = none

/-- A partition is scanned: on its thread, if that was started, or on the caller, if all were. -/
def Scans (scope : Scope α Payload) (index : ℕ) : Prop :=
  (1 ≤ index ∧ index < scope.partitionCount ∧
    ∀ other, 1 ≤ other → other ≤ index → scope.spawnFailure other = none) ∨
  (index = 0 ∧ scope.SpawnsAll)

/-- How a scope must end. -/
inductive Law (scope : Scope α Payload) : Ending Payload (List α) → Prop
  /-- The payload is that of a partition that was scanned. -/
  | panicked {index : ℕ} {payload : Payload} : scope.Scans index →
      scope.scan index = .panic payload → Law scope (.panicked payload)
  /-- No partition panicked, and a thread was refused. -/
  | spawnError {error : Error} :
      (∀ index, scope.Scans index → ∀ payload, scope.scan index ≠ .panic payload) →
      scope.SpawnFails error → Law scope (.returned (.error error))
  /-- All threads started, none panicked, and the error is that of the first to fail. -/
  | scanError {index : ℕ} {error : Error} : scope.SpawnsAll →
      (∀ index < scope.partitionCount, ∀ payload, scope.scan index ≠ .panic payload) →
      index < scope.partitionCount → scope.scan index = .error error →
      (∀ other < index, ∀ error, scope.scan other ≠ .error error) →
      Law scope (.returned (.error error))
  /-- All partitions have returned their outputs, in order. -/
  | outputs {outputs : List α} : scope.SpawnsAll → outputs.length = scope.partitionCount →
      (∀ index (h : index < outputs.length), scope.scan index = .output outputs[index]) →
      Law scope (.returned (.ok outputs))

/-- When all threads start, every partition is scanned. -/
theorem SpawnsAll.scans (h : scope.SpawnsAll) {index : ℕ} (hindex : index < scope.partitionCount) :
    scope.Scans index := by
  by_cases hzero : index = 0
  · exact Or.inr ⟨hzero, h⟩
  · exact Or.inl ⟨by omega, hindex, fun other hpos hle => h other hpos (by omega)⟩

/-! ### The loops of a scheduler -/

/-- The loop that starts threads stops at the first that fails. -/
theorem spawnWorkers_eq (scope : Scope α Payload) (indices : List ℕ) :
    scope.spawnWorkers indices =
      (indices.takeWhile fun index => (scope.spawnFailure index).isNone,
        indices.findSome? scope.spawnFailure) := by
  induction indices with
  | nil => rfl
  | cons index indices ih =>
    cases hfailure : scope.spawnFailure index with
    | none => simp [spawnWorkers, hfailure, ih]
    | some error => simp [spawnWorkers, hfailure]

/-- The first of some numbers in a row with a property. -/
theorem findSome?_range'_eq_some {β : Type} {f : ℕ → Option β} {first count : ℕ} {value : β}
    (h : (List.range' first count).findSome? f = some value) :
    ∃ index, first ≤ index ∧ index < first + count ∧ f index = some value ∧
      ∀ other, first ≤ other → other < index → f other = none := by
  induction count generalizing first with
  | zero => cases h
  | succ count ih =>
    rw [List.range'_succ, List.findSome?_cons] at h
    cases hfirst : f first with
    | some found =>
      rw [hfirst] at h
      obtain rfl := Option.some.inj h
      exact ⟨first, Nat.le_refl _, by omega, hfirst, fun other hle hlt => by omega⟩
    | none =>
      rw [hfirst] at h
      obtain ⟨index, hle, hlt, hvalue, hnone⟩ := ih h
      refine ⟨index, by omega, by omega, hvalue, fun other hother hlt' => ?_⟩
      obtain rfl | hne := eq_or_ne other first
      · exact hfirst
      · exact hnone other (by omega) hlt'

/-- Numbers in a row, up to the first without a property. -/
theorem mem_takeWhile_range' {p : ℕ → Bool} {first count index : ℕ} :
    index ∈ (List.range' first count).takeWhile p ↔
      first ≤ index ∧ index < first + count ∧
        ∀ other, first ≤ other → other ≤ index → p other = true := by
  induction count generalizing first with
  | zero =>
    simp only [List.range'_zero, List.takeWhile_nil, List.not_mem_nil, false_iff]
    omega
  | succ count ih =>
    rw [List.range'_succ, List.takeWhile_cons]
    split
    next hfirst =>
      rw [List.mem_cons, ih]
      constructor
      · rintro (rfl | ⟨hle, hlt, hall⟩)
        · exact ⟨Nat.le_refl _, by omega, fun other hle hle' => by
            obtain rfl : other = index := by omega
            exact hfirst⟩
        · refine ⟨by omega, by omega, fun other hother hle' => ?_⟩
          -- the first number was tested on its own, the others in the rest of the run
          obtain rfl | hne := eq_or_ne other first
          · exact hfirst
          · exact hall other (by omega) hle'
      · rintro ⟨hle, hlt, hall⟩
        by_cases hindex : index = first
        · exact Or.inl hindex
        · exact Or.inr ⟨by omega, by omega, fun other hother => hall other (by omega)⟩
    next hfirst =>
      simp only [List.not_mem_nil, false_iff]
      rintro ⟨hle, -, hall⟩
      exact hfirst (hall first (Nat.le_refl _) hle)

/-- What is known once the partitions below a number have been joined. -/
def joinedUpTo (scope : Scope α Payload) (count : ℕ) : Joined α Payload where
  outputs := (List.range scope.partitionCount).map fun index =>
    if index < count then (scope.scan index).output? else none
  scanError := (List.range count).findSome? fun index => (scope.scan index).error?
  workerPanic := (List.range count).findSome? fun index => (scope.scan index).panic?

/-- At first nothing is joined. -/
theorem joinedUpTo_zero (scope : Scope α Payload) : scope.joinedUpTo 0 = scope.unjoined := by
  simp [joinedUpTo, unjoined, List.map_const']

/-- One more partition is joined. -/
theorem record_joinedUpTo (scope : Scope α Payload) (count : ℕ) :
    (scope.joinedUpTo count).record count (scope.scan count) = scope.joinedUpTo (count + 1) := by
  have houtputs : (scope.joinedUpTo (count + 1)).outputs =
      (scope.joinedUpTo count).outputs.set count (scope.scan count).output? := by
    refine List.ext_getElem (by simp [joinedUpTo]) fun index hleft hright => ?_
    rw [List.getElem_set]
    simp only [joinedUpTo, List.getElem_map, List.getElem_range]
    by_cases hindex : count = index
    · rw [if_pos hindex, if_pos (by omega), hindex]
    · rw [if_neg hindex]
      exact if_congr (by omega) rfl rfl
  have hblank : (scope.joinedUpTo count).outputs.set count none =
      (scope.joinedUpTo count).outputs := by
    refine List.ext_getElem (by simp) fun index hleft hright => ?_
    rw [List.getElem_set]
    simp only [joinedUpTo, List.getElem_map, List.getElem_range]
    by_cases hindex : count = index
    · rw [if_pos hindex, if_neg (by omega)]
    · rw [if_neg hindex]
  have hsnoc : ∀ {β : Type} (f : ℕ → Option β),
      (List.range (count + 1)).findSome? f = ((List.range count).findSome? f).or (f count) := by
    intro β f
    rw [List.range_succ, List.findSome?_append, List.findSome?_singleton]
  have herror := hsnoc fun index => (scope.scan index).error?
  have hpanic := hsnoc fun index => (scope.scan index).panic?
  -- an outcome has an output, an error or a panic, and lacks the other two
  cases hscan : scope.scan count with
  | output value =>
    rw [hscan] at houtputs herror hpanic
    exact Joined.ext houtputs.symm (herror.trans Option.or_none).symm
      (hpanic.trans Option.or_none).symm
  | error error =>
    rw [hscan] at houtputs herror hpanic
    exact Joined.ext (houtputs.trans hblank).symm herror.symm
      (hpanic.trans Option.or_none).symm
  | panic payload =>
    rw [hscan] at houtputs herror hpanic
    exact Joined.ext (houtputs.trans hblank).symm
      (herror.trans Option.or_none).symm hpanic.symm

/-- All partitions are joined in order. -/
theorem foldl_record {first : ℕ} (hfirst : first ≤ scope.partitionCount) :
    (List.range' first (scope.partitionCount - first)).foldl
        (fun joined index => joined.record index (scope.scan index)) (scope.joinedUpTo first) =
      scope.joinedUpTo scope.partitionCount := by
  obtain ⟨count, hcount⟩ := Nat.exists_eq_add_of_le hfirst
  have hcount' : scope.partitionCount - first = count := by omega
  rw [hcount']
  induction count generalizing first with
  | zero => rw [List.range'_zero, List.foldl_nil, hcount, Nat.add_zero]
  | succ count ih =>
    rw [List.range'_succ, List.foldl_cons, record_joinedUpTo]
    exact ih (by omega) (by omega) (by omega)

/-- The panic that is resumed is one of a joined partition. -/
theorem workerPanic_foldl (handles : List ℕ) (joined : Joined α Payload) :
    (handles.foldl (fun joined index =>
        joined.record index (scope.scan index)) joined).workerPanic =
      joined.workerPanic.or (handles.findSome? fun index => (scope.scan index).panic?) := by
  induction handles generalizing joined with
  | nil => exact Option.or_none.symm
  | cons index handles ih =>
    rw [List.foldl_cons, ih, List.findSome?_cons]
    cases scope.scan index with
    | output value => rfl
    | error error => rfl
    | panic payload =>
      cases hpanic : joined.workerPanic <;> simp [Joined.record, Outcome.panic?, hpanic]

/-- When every thread is started, the scope ends with what is known once all partitions are joined,
or unwinds with the panic of the caller. -/
theorem scanAndJoin_workers (scope : Scope α Payload) :
    scope.scanAndJoin scope.workers none =
      (scope.joinedUpTo scope.partitionCount).finish none := by
  have hjoin : ∀ outcome, scope.scan 0 = outcome →
      scope.joinWorkers scope.workers none (scope.unjoined.record 0 outcome) =
        (scope.joinedUpTo scope.partitionCount).finish none := by
    rintro outcome rfl
    rw [joinWorkers, ← joinedUpTo_zero, record_joinedUpTo, workers,
      foldl_record scope.partitionCount_pos]
  cases hscan : scope.scan 0 with
  | output value =>
    rw [scanAndJoin, hscan]
    exact hjoin _ hscan
  | error error =>
    rw [scanAndJoin, hscan]
    exact hjoin _ hscan
  | panic payload =>
    have hpanic : (scope.joinedUpTo scope.partitionCount).workerPanic = some payload := by
      obtain ⟨count, hcount⟩ := Nat.exists_eq_succ_of_ne_zero scope.partitionCount_pos.ne'
      show (List.range scope.partitionCount).findSome? _ = _
      rw [hcount, List.range_succ_eq_map, List.findSome?_cons, hscan]
      rfl
    rw [scanAndJoin, hscan, Joined.finish, hpanic]

/-- Outputs that are all there are all returned. -/
theorem mapM_id_map_some {β : Type} (values : List β) :
    (values.map some).mapM id = some values := by
  induction values with
  | nil => rfl
  | cons value values ih => simp [ih]

/-- Once all partitions are joined, the law decides. -/
theorem law_finish_joinedUpTo (hspawns : scope.SpawnsAll) :
    scope.Law ((scope.joinedUpTo scope.partitionCount).finish none) := by
  unfold Joined.finish
  cases hpanic : (scope.joinedUpTo scope.partitionCount).workerPanic with
  | some payload =>
    obtain ⟨index, hindex, hscan⟩ := List.exists_of_findSome?_eq_some hpanic
    exact .panicked (hspawns.scans (List.mem_range.mp hindex)) (Outcome.panic?_eq_some.mp hscan)
  | none =>
    -- no worker panicked, so what they have is errors and outputs
    have hcalm : ∀ index < scope.partitionCount, (scope.scan index).panic? = none :=
      fun index hindex => List.findSome?_eq_none_iff.mp hpanic index (List.mem_range.mpr hindex)
    cases herror : (scope.joinedUpTo scope.partitionCount).scanError with
    | some error =>
      have hfirst := herror
      rw [joinedUpTo, List.range_eq_range'] at hfirst
      obtain ⟨index, -, hlt, hscan, hbefore⟩ := findSome?_range'_eq_some hfirst
      refine .scanError hspawns (fun other hother payload hpayload => ?_) (by omega)
        (Outcome.error?_eq_some.mp hscan) fun other hother error hscan' => ?_
      · have hnone := hcalm other hother
        rw [hpayload] at hnone
        cases hnone
      · have hnone := hbefore other (Nat.zero_le _) hother
        rw [hscan'] at hnone
        cases hnone
    | none =>
      have hgood : ∀ index < scope.partitionCount, (scope.scan index).error? = none :=
        fun index hindex => List.findSome?_eq_none_iff.mp herror index (List.mem_range.mpr hindex)
      have hvalue : ∀ index : Fin scope.partitionCount, ∃ value,
          scope.scan index = .output value := fun index =>
        Outcome.exists_output (hgood index index.isLt) (hcalm index index.isLt)
      choose value hvalue using hvalue
      -- every partition has an output, and they stand in the order of the partitions
      have houtputs : (scope.joinedUpTo scope.partitionCount).outputs =
          (List.ofFn value).map some := by
        refine List.ext_getElem (by simp [joinedUpTo]) fun index hleft hright => ?_
        have hindex : index < scope.partitionCount := by simpa [joinedUpTo] using hleft
        simp [joinedUpTo, hindex, hvalue ⟨index, hindex⟩, Outcome.output?]
      simp only [houtputs, mapM_id_map_some, Option.or_none]
      exact .outputs hspawns List.length_ofFn fun index hindex => by
        have hlt : index < scope.partitionCount := by simpa using hindex
        rw [List.getElem_ofFn]
        exact hvalue ⟨index, hlt⟩

/-- A scope ends by the law. -/
theorem law_run (scope : Scope α Payload) : scope.Law scope.run := by
  unfold run
  rw [spawnWorkers_eq]
  show scope.Law (scope.scanAndJoin (scope.workers.takeWhile _) _)
  cases hfailure : scope.workers.findSome? scope.spawnFailure with
  | none =>
    have hnone := List.findSome?_eq_none_iff.mp hfailure
    have hall : (scope.workers.takeWhile fun index => (scope.spawnFailure index).isNone) =
        scope.workers :=
      List.takeWhile_eq_self_iff.mpr fun index hindex => by rw [hnone index hindex]; rfl
    rw [hall, scanAndJoin_workers]
    -- all threads were started, so all partitions are joined
    refine law_finish_joinedUpTo fun index hpos hlt => hnone index ?_
    rw [workers, List.mem_range'_1]
    omega
  | some error =>
    obtain ⟨index, hpos, hlt, hfails, hbefore⟩ := findSome?_range'_eq_some hfailure
    -- the workers before the one that failed were started, and only they scan
    have hscans : ∀ other, scope.Scans other ↔
        other ∈ scope.workers.takeWhile fun index => (scope.spawnFailure index).isNone := by
      intro other
      rw [workers, mem_takeWhile_range']
      simp only [Option.isNone_iff_eq_none]
      constructor
      · rintro (⟨hpos', hlt', hstarted⟩ | ⟨-, hall⟩)
        · exact ⟨hpos', by omega, hstarted⟩
        · rw [hall index hpos (by omega)] at hfails
          cases hfails
      · exact fun ⟨hpos', hlt', hstarted⟩ => Or.inl ⟨hpos', by omega, hstarted⟩
    show scope.Law (Joined.finish _ (some error))
    rw [Joined.finish, workerPanic_foldl, unjoined, Option.none_or]
    split
    next payload hpanic =>
      obtain ⟨other, hother, hscan⟩ := List.exists_of_findSome?_eq_some hpanic
      exact .panicked ((hscans other).mpr hother) (Outcome.panic?_eq_some.mp hscan)
    next hpanic =>
      refine .spawnError (fun other hother payload hscan => ?_)
        ⟨index, hpos, by omega, hfails, hbefore⟩
      have hnone := List.findSome?_eq_none_iff.mp hpanic other ((hscans other).mp hother)
      rw [hscan] at hnone
      cases hnone

end Scope

/-! ### Deliveries -/

section Deliveries

variable {Payload : Type}

namespace Scope

/-- All threads are started and all partitions have an output. -/
def Succeeds {α : Type} (scope : Scope α Payload) : Prop :=
  scope.SpawnsAll ∧ ∀ index < scope.partitionCount, ∃ output, scope.scan index = .output output

/-- The events of the partitions that have an output, in the order of the partitions. -/
def events (scope : Scope PartitionScanOutput Payload) : List Match :=
  (List.range scope.partitionCount).flatMap fun index =>
    ((scope.scan index).output?.map PartitionScanOutput.events).getD []

/-- No output is missing when all threads have returned. -/
theorem Law.ne_outputExpected {α : Type} {scope : Scope α Payload}
    {ending : Ending Payload (List α)}
    (h : scope.Law ending) : ending ≠ .outputExpected := by
  cases h <;> exact fun heq => by cases heq

/-- A scope returns outputs exactly when it succeeds. -/
theorem Law.succeeds_iff {α : Type} {scope : Scope α Payload} {ending : Ending Payload (List α)}
    (h : scope.Law ending) : scope.Succeeds ↔ ∃ outputs, ending = .returned (.ok outputs) := by
  constructor
  · rintro ⟨hspawns, hscans⟩
    -- every other ending names a partition that has no output
    cases h with
    | @panicked index payload hindex hpanic =>
      have hlt : index < scope.partitionCount := by
        obtain ⟨-, hlt, -⟩ | ⟨rfl, -⟩ := hindex
        · exact hlt
        · exact scope.partitionCount_pos
      obtain ⟨output, houtput⟩ := hscans index hlt
      rw [hpanic] at houtput
      cases houtput
    | spawnError hcalm hfails =>
      obtain ⟨index, hpos, hlt, hfailure, -⟩ := hfails
      rw [hspawns index hpos hlt] at hfailure
      cases hfailure
    | scanError _ _ hlt herror _ =>
      obtain ⟨output, houtput⟩ := hscans _ hlt
      rw [herror] at houtput
      cases houtput
    | outputs => exact ⟨_, rfl⟩
  · rintro ⟨outputs, rfl⟩
    cases h with
    | outputs hspawns hlength hscans =>
      exact ⟨hspawns, fun index hindex => ⟨_, hscans index (hlength ▸ hindex)⟩⟩

/-- The outputs of a scope have its events. -/
theorem Law.flatMap_events {scope : Scope PartitionScanOutput Payload}
    {outputs : List PartitionScanOutput} (h : scope.Law (.returned (.ok outputs))) :
    outputs.flatMap PartitionScanOutput.events = scope.events := by
  cases h with
  | outputs _ hlength hscans =>
    have houtputs : outputs.map PartitionScanOutput.events =
        (List.range scope.partitionCount).map fun index =>
          ((scope.scan index).output?.map PartitionScanOutput.events).getD [] := by
      refine List.ext_getElem (by simp [hlength]) fun index hleft hright => ?_
      have hindex : index < outputs.length := by simpa using hleft
      simp [hscans index hindex, Outcome.output?]
    rw [List.flatMap_def, houtputs, ← List.flatMap_def, events]

end Scope

/-- What ends without a value ends what was to follow. -/
theorem Ending.bind_eq_self {α : Type} {ending : Ending Payload α}
    (h : ∀ value, ending ≠ .returned (.ok value)) (next : α → Ending Payload α) :
    ending >>= next = ending := by
  cases ending with
  | returned result =>
    cases result with
    | ok value => exact absurd rfl (h value)
    | error reason => rfl
  | panicked payload => rfl
  | outputExpected => rfl

namespace InTurn

variable {α : Type} {groups : List (Scope α Payload)} {ending : Ending Payload (List α)}

/-- What is known of single scopes is known of scopes in turn. -/
theorem mono {Ends Ends' : Scope α Payload → Ending Payload (List α) → Prop}
    (hends : ∀ scope ending, Ends scope ending → Ends' scope ending)
    (h : InTurn Ends groups ending) :
    InTurn Ends' groups ending := by
  induction h with
  | nil => exact .nil
  | fails hscope hfails => exact .fails (hends _ _ hscope) hfails
  | next hscope _ ih => exact .next (hends _ _ hscope) ih

/-- All interleavings of scopes in turn end as the first one does when it returns no outputs, and
else as the others do, with the outputs of both. -/
theorem ends_iff {scope : Scope α Payload} {rest : List (Scope α Payload)} :
    InTurn Scope.Ends (scope :: rest) ending ↔
      (scope.run = ending ∧ ∀ outputs, ending ≠ .returned (.ok outputs)) ∨
      ∃ outputs more, scope.run = .returned (.ok outputs) ∧ InTurn Scope.Ends rest more ∧
        ending = more.bind fun more => .returned (.ok (outputs ++ more)) := by
  constructor
  · intro h
    cases h with
    | fails hscope hfails => exact Or.inl ⟨(Scope.ends_iff.mp hscope).symm, hfails⟩
    | next hscope hrest =>
      exact Or.inr ⟨_, _, (Scope.ends_iff.mp hscope).symm, hrest, rfl⟩
  · rintro (⟨hscope, hfails⟩ | ⟨outputs, more, hscope, hrest, rfl⟩)
    · exact .fails (Scope.ends_iff.mpr hscope.symm) hfails
    · exact .next (Scope.ends_iff.mpr hscope.symm) hrest

/-- One scope in turn is the scope. -/
theorem ends_singleton_iff {scope : Scope α Payload} :
    InTurn Scope.Ends [scope] ending ↔ ending = scope.run := by
  have hnothing : ∀ outputs : List α,
      (Ending.returned (.ok []) : Ending Payload (List α)).bind
        (fun more => .returned (.ok (outputs ++ more))) = .returned (.ok outputs) := by
    intro outputs
    show Ending.returned (.ok (outputs ++ [])) = _
    rw [List.append_nil]
  rw [ends_iff]
  constructor
  · rintro (⟨hscope, -⟩ | ⟨outputs, more, hscope, hnil, rfl⟩)
    · exact hscope.symm
    · cases hnil with
      | nil => rw [hscope, hnothing]
  · rintro rfl
    by_cases houtputs : ∃ outputs, scope.run = .returned (.ok outputs)
    · obtain ⟨outputs, houtputs⟩ := houtputs
      exact Or.inr ⟨outputs, _, houtputs, .nil, by rw [houtputs, hnothing]⟩
    · exact Or.inl ⟨rfl, fun outputs heq => houtputs ⟨outputs, heq⟩⟩

/-- Two scopes in turn, as a computation: the second is run when the first has returned outputs. -/
theorem ends_pair_iff {first second : Scope α Payload} :
    InTurn Scope.Ends [first, second] ending ↔
      ending = first.run >>= fun outputs => second.run >>= fun more =>
        .returned (.ok (outputs ++ more)) := by
  rw [ends_iff]
  simp only [ends_singleton_iff]
  by_cases houtputs : ∃ outputs, first.run = .returned (.ok outputs)
  · obtain ⟨outputs, houtputs⟩ := houtputs
    rw [houtputs]
    constructor
    · rintro (⟨rfl, hfails⟩ | ⟨outputs', more, hsame, rfl, rfl⟩)
      · exact absurd rfl (hfails outputs)
      · cases hsame
        rfl
    · rintro rfl
      exact Or.inr ⟨outputs, _, rfl, rfl, rfl⟩
  · have hfails : ∀ outputs, first.run ≠ .returned (.ok outputs) := not_exists.mp houtputs
    rw [Ending.bind_eq_self hfails]
    constructor
    · rintro (⟨hscope, -⟩ | ⟨outputs, more, hscope, -, -⟩)
      · exact hscope.symm
      · exact absurd hscope (hfails outputs)
    · rintro rfl
      exact Or.inl ⟨rfl, hfails⟩

/-- Scopes in turn have an output for every partition when nothing fails. -/
theorem ne_outputExpected (h : InTurn Scope.Law groups ending) : ending ≠ .outputExpected := by
  induction h with
  | nil => exact fun heq => by cases heq
  | fails hscope => exact hscope.ne_outputExpected
  | @next scope rest outputs ending _ _ ih =>
    cases ending with
    | returned result => cases result <;> exact fun heq => by cases heq
    | panicked payload => exact fun heq => by cases heq
    | outputExpected => exact absurd rfl ih

/-- Groups return outputs exactly when all of them succeed. -/
theorem succeed_iff (h : InTurn Scope.Law groups ending) :
    (∀ scope ∈ groups, scope.Succeeds) ↔ ∃ outputs, ending = .returned (.ok outputs) := by
  induction h with
  | nil => exact ⟨fun _ => ⟨[], rfl⟩, fun _ => by simp⟩
  | @fails scope rest ending hscope hfails =>
    have hnot : ¬ scope.Succeeds := fun hsucceeds => by
      obtain ⟨outputs, houtputs⟩ := hscope.succeeds_iff.mp hsucceeds
      exact hfails outputs houtputs
    exact ⟨fun hall => absurd (hall scope List.mem_cons_self) hnot,
      fun ⟨outputs, houtputs⟩ => absurd houtputs (hfails outputs)⟩
  | @next scope rest outputs ending hscope _ ih =>
    have hsucceeds : scope.Succeeds := hscope.succeeds_iff.mpr ⟨outputs, rfl⟩
    rw [List.forall_mem_cons, ih]
    constructor
    · rintro ⟨-, more, rfl⟩
      exact ⟨outputs ++ more, rfl⟩
    · rintro ⟨all, hall⟩
      refine ⟨hsucceeds, ?_⟩
      match ending, hall with
      | .returned (.ok more), _ => exact ⟨more, rfl⟩

/-- Groups that all succeed deliver their events in order. -/
theorem deliver_eq {groups : List (Scope PartitionScanOutput Payload)}
    {ending : Ending Payload (List PartitionScanOutput)} (h : InTurn Scope.Law groups ending)
    {outputs : List PartitionScanOutput} (hending : ending = .returned (.ok outputs)) :
    outputs.flatMap PartitionScanOutput.events = groups.flatMap Scope.events := by
  induction h generalizing outputs with
  | nil =>
    cases hending
    rfl
  | fails hscope hfails => exact absurd hending (hfails outputs)
  | @next scope rest first ending hscope _ ih =>
    match ending, hending with
    | .returned (.ok more), hall =>
      cases hall
      rw [List.flatMap_append, hscope.flatMap_events, ih rfl, List.flatMap_cons]

end InTurn

/-- Without outputs nothing is delivered. -/
theorem Ending.deliver_of_ne {ending : Ending Payload (List PartitionScanOutput)}
    (h : ∀ outputs, ending ≠ .returned (.ok outputs)) :
    ending.deliver.events = [] ∧ ending.deliver.ending ≠ .returned (.ok ()) := by
  cases ending with
  | returned result =>
    cases result with
    | ok outputs => exact absurd rfl (h outputs)
    | error error => exact ⟨rfl, fun heq => by cases heq⟩
  | panicked payload => exact ⟨rfl, fun heq => by cases heq⟩
  | outputExpected => exact ⟨rfl, fun heq => by cases heq⟩

/-- Every interleaving of a scheduler ends, always in the same way, and by the law; so do schedulers
in turn. The sink gets the events of all partitions in their order, or nothing. -/
theorem scans_all_or_nothing (groups : List (Scope PartitionScanOutput Payload)) :
    (∀ scope ∈ groups, WellFounded (flip scope.Step) ∧
      (∀ moment, (∃ ending, moment = ⟨.ended ending, ∅⟩) ∨ ∃ next, scope.Step moment next) ∧
      ∀ ending, scope.Ends ending ↔ ending = scope.run) ∧
    ∀ ending, InTurn Scope.Ends groups ending →
      InTurn Scope.Law groups ending ∧ ending ≠ .outputExpected ∧
      ((∀ scope ∈ groups, scope.Succeeds) →
        ending.deliver = ⟨groups.flatMap Scope.events, .returned (.ok ())⟩) ∧
      ((¬ ∀ scope ∈ groups, scope.Succeeds) →
        ending.deliver.events = [] ∧ ending.deliver.ending ≠ .returned (.ok ())) := by
  refine ⟨fun scope _ => ⟨scope.step_wellFounded, scope.exists_step, fun _ => Scope.ends_iff⟩,
    fun ending hends => ?_⟩
  have hlaw : InTurn Scope.Law groups ending := hends.mono fun scope ending hscope => by
    rw [Scope.ends_iff.mp hscope]
    exact scope.law_run
  refine ⟨hlaw, hlaw.ne_outputExpected, fun hsucceed => ?_, fun hfail => ?_⟩
  · obtain ⟨outputs, rfl⟩ := hlaw.succeed_iff.mp hsucceed
    rw [Ending.deliver, hlaw.deliver_eq rfl]
  · rw [hlaw.succeed_iff, not_exists] at hfail
    exact Ending.deliver_of_ne hfail

/-- Three partitions: the thread of the last one cannot be created, and the other one panics. -/
def tornScope : Scope PartitionScanOutput Unit where
  partitionCount := 3
  beforeSpawn _ := .ok ()
  threadStarts index := index == 1
  scan index := if index = 1 then .panic () else .output ⟨[⟨⟨1⟩, ⟨0, 1⟩⟩]⟩
  partitionCount_pos := by decide

/-- A worker panics, and the thread of another one is refused. -/
theorem scans_all_or_nothing_tornScope :
    InTurn Scope.Ends [tornScope] (.panicked ()) ∧ InTurn Scope.Law [tornScope] (.panicked ()) ∧
      (Ending.panicked () : Ending Unit (List PartitionScanOutput)).deliver.events = [] := by
  have hends : InTurn Scope.Ends [tornScope] (.panicked ()) :=
    .fails (Scope.ends_iff.mpr rfl) fun outputs heq => by cases heq
  exact ⟨hends, ((scans_all_or_nothing [tornScope]).2 _ hends).1, rfl⟩

end Deliveries

end Rustmatch

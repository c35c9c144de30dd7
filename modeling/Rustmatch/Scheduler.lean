import Mathlib.Data.Finset.Card
import Mathlib.Logic.Relation
import Rustmatch.Types

/-!
# Scoped workers

The schedulers of `api.rs` and `api/cohort_runtime.rs`. A scheduler starts a thread for every
partition but the first, scans the first one itself, joins the threads in order, and only then looks
at what it has: a panic, an error that kept a thread from starting, an error of a scan, or the
outputs of all partitions. The three scheduler functions of the source differ in the partitions they
scan and in how they number them, so they are one `Scope` with their own values.

A scope is given in two ways. `Scope.run` is the body of `thread::scope` with every thread finished
when it is joined. `Scope.Step` is the machine in which threads finish whenever they like: the
caller goes on to join only those that have finished, and leaves the scope only when none is
running.

## Main definitions

* `Outcome`, `Ending`: how the scan of a partition and how a scheduler ends;
* `Scope.run`: a scheduler, thread by thread;
* `Scope.Step`, `Scope.Ends`: the interleavings of a scheduler and its threads;
* `InTurn`: scopes that run one after the other.
-/

namespace Rustmatch

/-- How the scan of a partition ends. -/
inductive Outcome (α Payload : Type) where
  /-- It returns its output. -/
  | output (value : α)
  /-- It returns an error. -/
  | error (error : Error)
  /-- It panics. -/
  | panic (payload : Payload)

/-- How a scheduler ends: it returns, it panics, or a partition has no output although nothing
failed. -/
inductive Ending (Payload α : Type) where
  /-- The outputs, or an error. -/
  | returned (result : Except Error α)
  /-- A panic, with its payload. -/
  | panicked (payload : Payload)
  /-- An output is missing. -/
  | outputExpected

namespace Ending

variable {α β Payload : Type}

/-- Goes on after a value; everything else ends the call. -/
def bind (ending : Ending Payload α) (next : α → Ending Payload β) : Ending Payload β :=
  match ending with
  | .returned (.ok value) => next value
  | .returned (.error error) => .returned (.error error)
  | .panicked payload => .panicked payload
  | .outputExpected => .outputExpected

instance : Monad (Ending Payload) where
  pure value := .returned (.ok value)
  bind := bind

end Ending

/-- What one scheduler runs. Partitions are numbered from zero; the first is scanned by the caller.
-/
structure Scope (α Payload : Type) where
  /-- The number of partitions. -/
  partitionCount : ℕ
  /-- `before_spawn`. -/
  beforeSpawn : ℕ → Except Error Unit
  /-- Whether the thread of a partition can be created. -/
  threadStarts : ℕ → Bool
  /-- `before_scan` and the scan of a partition. -/
  scan : ℕ → Outcome α Payload
  /-- There is a partition for the caller. -/
  partitionCount_pos : 0 < partitionCount

/-- What a scheduler knows about the partitions it has joined. -/
@[ext]
structure Joined (α Payload : Type) where
  /-- The output of every partition that has returned one. -/
  outputs : List (Option α)
  /-- The error of the first partition that failed. -/
  scanError : Option Error
  /-- The payload of the first thread that panicked. -/
  workerPanic : Option Payload

namespace Joined

variable {α Payload : Type}

/-- Takes note of a partition; of errors and of panics the first one stays. -/
def record (joined : Joined α Payload) (index : ℕ) : Outcome α Payload → Joined α Payload
  | .output value => { joined with outputs := joined.outputs.set index (some value) }
  | .error error => { joined with scanError := joined.scanError.or (some error) }
  | .panic payload => { joined with workerPanic := joined.workerPanic.or (some payload) }

/-- What follows the last join. -/
def finish (joined : Joined α Payload) (spawnError : Option Error) : Ending Payload (List α) :=
  match joined.workerPanic with
  | some payload => .panicked payload
  | none =>
    match spawnError.or joined.scanError with
    | some error => .returned (.error error)
    | none =>
      match joined.outputs.mapM id with
      | some outputs => .returned (.ok outputs)
      | none => .outputExpected

end Joined

namespace Scope

variable {α Payload : Type} (scope : Scope α Payload)

/-- The partitions that get a thread. -/
def workers : List ℕ := List.range' 1 (scope.partitionCount - 1)

/-- Why a thread is not started. -/
def spawnFailure (index : ℕ) : Option Error :=
  match scope.beforeSpawn index with
  | .error error => some error
  | .ok () => if scope.threadStarts index then none else some .workerUnavailable

/-- Before the first join. -/
def unjoined : Joined α Payload := ⟨List.replicate scope.partitionCount none, none, none⟩

/-! ### One thread after the other -/

/-- The loop that starts threads: the handles, and why it stopped early. -/
def spawnWorkers : List ℕ → List ℕ × Option Error
  | [] => ([], none)
  | index :: rest =>
    match scope.spawnFailure index with
    | some error => ([], some error)
    | none =>
      let (handles, spawnError) := spawnWorkers rest
      (index :: handles, spawnError)

/-- The loop that joins threads, and what follows. -/
def joinWorkers (handles : List ℕ) (spawnError : Option Error) (joined : Joined α Payload) :
    Ending Payload (List α) :=
  (handles.foldl (fun joined index => joined.record index (scope.scan index)) joined).finish
    spawnError

/-- The scan of the caller, unless a thread could not be started, and what follows. -/
def scanAndJoin (handles : List ℕ) (spawnError : Option Error) : Ending Payload (List α) :=
  match spawnError with
  | some error => scope.joinWorkers handles (some error) scope.unjoined
  | none =>
    match scope.scan 0 with
    | .panic payload => .panicked payload
    | .output value => scope.joinWorkers handles none (scope.unjoined.record 0 (.output value))
    | .error error => scope.joinWorkers handles none (scope.unjoined.record 0 (.error error))

/-- The body of `thread::scope`, with threads that have finished when they are joined. -/
def run : Ending Payload (List α) :=
  let (handles, spawnError) := scope.spawnWorkers scope.workers
  scope.scanAndJoin handles spawnError

end Scope

/-! ### Interleavings -/

/-- Where the caller is: in the loop that starts threads or about to scan, in the loop that joins
them, unwinding, or behind the scope. -/
inductive Caller (α Payload : Type) where
  /-- In the loop that starts threads, or about to scan the first partition. -/
  | spawning (rest handles : List ℕ)
  /-- In the loop that joins the threads. -/
  | joining (handles : List ℕ) (spawnError : Option Error) (joined : Joined α Payload)
  /-- Waiting for the threads, to panic. -/
  | unwinding (payload : Payload)
  /-- Behind the scope. -/
  | ended (ending : Ending Payload (List α))

/-- The caller, and the partitions whose threads are running. -/
structure Moment (α Payload : Type) where
  /-- What the caller is about to do. -/
  caller : Caller α Payload
  /-- The partitions whose threads have not ended. -/
  running : Finset ℕ

namespace Scope

variable {α Payload : Type} (scope : Scope α Payload)

/-- One step of the caller or of a thread. -/
inductive Step : Moment α Payload → Moment α Payload → Prop
  /-- The next thread is started. -/
  | start {index : ℕ} {rest handles : List ℕ} {running : Finset ℕ} :
      scope.spawnFailure index = none →
      Step ⟨.spawning (index :: rest) handles, running⟩
        ⟨.spawning rest (handles ++ [index]), insert index running⟩
  /-- The next thread is refused, so the started ones are joined. -/
  | fail {index : ℕ} {rest handles : List ℕ} {running : Finset ℕ} {error : Error} :
      scope.spawnFailure index = some error →
      Step ⟨.spawning (index :: rest) handles, running⟩
        ⟨.joining handles (some error) scope.unjoined, running⟩
  /-- The caller scans its partition, and begins to join. -/
  | scan {handles : List ℕ} {running : Finset ℕ} {outcome : Outcome α Payload} :
      scope.scan 0 = outcome → (∀ payload, outcome ≠ .panic payload) →
      Step ⟨.spawning [] handles, running⟩
        ⟨.joining handles none (scope.unjoined.record 0 outcome), running⟩
  /-- The scan of the caller panics. -/
  | unwind {handles : List ℕ} {running : Finset ℕ} {payload : Payload} :
      scope.scan 0 = .panic payload →
      Step ⟨.spawning [] handles, running⟩ ⟨.unwinding payload, running⟩
  /-- A thread ends. -/
  | stop {caller : Caller α Payload} {index : ℕ} {running : Finset ℕ} : index ∈ running →
      Step ⟨caller, running⟩ ⟨caller, running.erase index⟩
  /-- The caller joins a thread that has ended. -/
  | join {index : ℕ} {handles : List ℕ} {spawnError : Option Error} {joined : Joined α Payload}
      {running : Finset ℕ} : index ∉ running →
      Step ⟨.joining (index :: handles) spawnError joined, running⟩
        ⟨.joining handles spawnError (joined.record index (scope.scan index)), running⟩
  /-- All threads are joined. -/
  | leave {spawnError : Option Error} {joined : Joined α Payload} :
      Step ⟨.joining [] spawnError joined, ∅⟩ ⟨.ended (joined.finish spawnError), ∅⟩
  /-- The panic leaves the scope once no thread runs. -/
  | leaveUnwinding {payload : Payload} :
      Step ⟨.unwinding payload, ∅⟩ ⟨.ended (.panicked payload), ∅⟩

/-- Before the first thread. -/
def initial : Moment α Payload := ⟨.spawning scope.workers [], ∅⟩

/-- Some interleaving leads to a moment. -/
def Reaches (moment : Moment α Payload) : Prop :=
  Relation.ReflTransGen scope.Step scope.initial moment

/-- Some interleaving ends a scope. -/
def Ends (ending : Ending Payload (List α)) : Prop := scope.Reaches ⟨.ended ending, ∅⟩

end Scope

/-- Scopes run one after the other, each once the one before it has returned its outputs; `Ends`
says how one scope ends. -/
inductive InTurn {α Payload : Type} (Ends : Scope α Payload → Ending Payload (List α) → Prop) :
    List (Scope α Payload) → Ending Payload (List α) → Prop
  /-- No scope is left. -/
  | nil : InTurn Ends [] (.returned (.ok []))
  /-- A scope that fails ends them all. -/
  | fails {scope : Scope α Payload} {rest : List (Scope α Payload)}
      {ending : Ending Payload (List α)} : Ends scope ending →
      (∀ outputs, ending ≠ .returned (.ok outputs)) → InTurn Ends (scope :: rest) ending
  /-- The outputs of a scope stand before those of the next. -/
  | next {scope : Scope α Payload} {rest : List (Scope α Payload)} {outputs : List α}
      {ending : Ending Payload (List α)} : Ends scope (.returned (.ok outputs)) →
      InTurn Ends rest ending →
      InTurn Ends (scope :: rest) (ending.bind fun more => .returned (.ok (outputs ++ more)))

/-! ### Delivery -/

/-- `PartitionScanOutput`: what the scan of one partition returns. -/
structure PartitionScanOutput where
  /-- The events of the partition, in the order they were found. -/
  events : List Match

/-- The events that a call hands to its sink, in order, and how it ends. -/
structure Delivered (Payload : Type) where
  /-- The events that the sink was given. -/
  events : List Match
  /-- What the call returned, or its panic. -/
  ending : Ending Payload Unit

/-- `ParallelScanOutput::deliver`, after a scheduler that returned the outputs of all partitions. -/
def Ending.deliver {Payload : Type} :
    Ending Payload (List PartitionScanOutput) → Delivered Payload
  | .returned (.ok outputs) => ⟨outputs.flatMap PartitionScanOutput.events, .returned (.ok ())⟩
  | .returned (.error error) => ⟨[], .returned (.error error)⟩
  | .panicked payload => ⟨[], .panicked payload⟩
  | .outputExpected => ⟨[], .outputExpected⟩

end Rustmatch

import Mathlib.Logic.Function.Basic
import Rustmatch.Engine
import Rustmatch.ScanStats

/-!
# The engine with a lazy deterministic cache

`engine.rs`: deterministic states are sorted lists of NFA states, interned up to a budget, with a
table of transitions that is filled on demand. A transition whose target does not fit is recorded
as a fallback and computed again each time it is taken; the scan then runs uncached until the set
it has reached is found among the interned ones.

Transition entries are state ids, or one of three marks at the top of the range of `u32`. The hash
buckets are a function from hashes to lists of ids.
-/

open MarkedSearch

namespace Rustmatch

/-- `UNKNOWN_TRANSITION`: the slot has not been filled in. -/
def unknownTransition : ℕ := 2 ^ 32 - 1

/-- `DEAD_TRANSITION`: no state is left. -/
def deadTransition : ℕ := 2 ^ 32 - 2

/-- `FALLBACK_TRANSITION`: the successors could not be stored. -/
def fallbackTransition : ℕ := 2 ^ 32 - 3

/-- `ScanCursor`: where a cached scan stands in the tables, or that it has left them. -/
inductive ScanCursor where
  /-- At a stored state. -/
  | cached (state : ℕ)
  /-- At a frontier in the scratch. -/
  | uncached
deriving DecidableEq, Repr

/-- `TransitionOutcome`: where a symbol leads. -/
inductive TransitionOutcome where
  /-- No state is left. -/
  | dead
  /-- The next state is stored. -/
  | cached (state : ℕ)
  /-- The next frontier is in the scratch. -/
  | uncached
deriving DecidableEq, Repr

/-- `DeterministicState`: a stored set of states with its transition table. -/
structure DeterministicState where
  /-- The states of the closed frontier, in ascending order. -/
  nfaStates : List StateId
  /-- The ordinals that accept in one of these states. -/
  terminals : List ℕ
  /-- One entry for each of the ASCII symbols. -/
  asciiTransitions : List ℕ
  /-- The entries of the other symbols that have been read so far. -/
  nonAsciiTransitions : List (UInt16 × ℕ)

namespace DeterministicState

/-- `DeterministicState::new`: a set of states whose transitions are all unknown. -/
def new (database : PatternDatabase) (nfaStates : List StateId) : DeterministicState where
  nfaStates := nfaStates
  terminals := database.terminalsOf nfaStates
  asciiTransitions := List.replicate 128 unknownTransition
  nonAsciiTransitions := []

/-- `DeterministicState::transition`: the entry for a symbol. -/
def transition (state : DeterministicState) (symbol : UInt16) : ℕ :=
  if symbol < 128 then state.asciiTransitions.getD symbol.toNat unknownTransition
  else (state.nonAsciiTransitions.lookup symbol).getD unknownTransition

/-- `DeterministicState::set_transition`: write the entry for a symbol. -/
def setTransition (state : DeterministicState) (symbol : UInt16) (transition : ℕ) :
    DeterministicState :=
  if symbol < 128 then
    { state with asciiTransitions := state.asciiTransitions.set symbol.toNat transition }
  else
    { state with nonAsciiTransitions := state.nonAsciiTransitions ++ [(symbol, transition)] }

end DeterministicState

/-- One round of the hash: `hash ^= byte` and a multiplication that wraps. -/
def hashByte (hash : UInt64) (byte : UInt64) : UInt64 := (hash ^^^ byte) * 0x100000001b3

/-- `usize::to_le_bytes`. -/
def toLeBytes (index : ℕ) : List UInt64 :=
  (List.range 8).map fun k => UInt64.ofNat (index >>> (8 * k) % 256)

/-- `state_set_hash`: the hash of a set, over the bytes of its ids. -/
def stateSetHash (states : List StateId) : UInt64 :=
  (states.flatMap toLeBytes).foldl hashByte 0xcbf29ce484222325

/-- `DeterministicCache`: the sets of states stored by a scan. -/
structure DeterministicCache where
  /-- The greatest number of states that may be stored. -/
  budget : ℕ
  /-- The stored states; an id is an index. -/
  states : List DeterministicState
  /-- The ids of the states whose sets have a hash. -/
  hashBuckets : UInt64 → List ℕ

namespace DeterministicCache

variable (cache : DeterministicCache)

/-- `DeterministicCache::lookup`: the id of a stored set. -/
def lookup (nfaStates : List StateId) : Option ℕ :=
  (cache.hashBuckets (stateSetHash nfaStates)).find? fun candidate =>
    (cache.states[candidate]?.map DeterministicState.nfaStates) == some nfaStates

/-- `DeterministicCache::intern`: the id of a set, which is stored if there is room for it. -/
def intern (database : PatternDatabase) (nfaStates : List StateId) :
    Option ℕ × DeterministicCache :=
  match cache.lookup nfaStates with
  | some state => (some state, cache)
  | none =>
    if cache.states.length ≥ cache.budget || cache.states.length ≥ fallbackTransition then
      (none, cache)
    else
      let state := cache.states.length
      let hash := stateSetHash nfaStates
      (some state, { cache with
        states := cache.states ++ [DeterministicState.new database nfaStates]
        hashBuckets := Function.update cache.hashBuckets hash (cache.hashBuckets hash ++ [state]) })

/-- `DeterministicCache::terminals`: the ordinals that a stored set accepts. -/
def terminals (state : ℕ) : List ℕ :=
  (cache.states[state]?.map DeterministicState.terminals).getD []

/-- The NFA states of a deterministic state. -/
def nfaStates (state : ℕ) : List StateId :=
  (cache.states[state]?.map DeterministicState.nfaStates).getD []

/-- `self.states[state].transition(symbol)`. -/
def storedTransition (state : ℕ) (symbol : UInt16) : ℕ :=
  (cache.states[state]?.map (·.transition symbol)).getD unknownTransition

/-- `self.states[state].set_transition(symbol, transition)`. -/
def setTransition (state : ℕ) (symbol : UInt16) (transition : ℕ) : DeterministicCache :=
  { cache with states := cache.states.modify state (·.setTransition symbol transition) }

end DeterministicCache

namespace Scratch

/-- `Scratch::reset_cached_start`: forget the ends of the last start. -/
def resetCachedStart (scratch : Scratch) : Scratch :=
  resetTerminals { scratch with active := [], next := [] }

/-- `Scratch::reset_cached_transition`; the new generation is `cacheGeneration`. -/
def resetCachedTransition (scratch : Scratch) : Scratch :=
  let stamps := nextGeneration scratch.cacheSeen scratch.cacheGeneration
  { scratch with next := [], cacheSeen := stamps.1, cacheGeneration := stamps.2 }

end Scratch

/-- `compute_transition`: the sorted closure of what a symbol leads to, with the marks of one
generation. The closure is `extend_epsilon_closure_generation`. -/
def computeTransition (database : PatternDatabase) (source : List StateId) (symbol : UInt16)
    (scratch : Scratch) : Scratch :=
  let closure := (database.matchingTargets source symbol).foldl
    (fun closure seed => extend (generationMarks scratch.cacheGeneration) database.epsilonTargets
      seed closure.1 [] closure.2)
    (scratch.cacheSeen, scratch.next)
  { scratch with cacheSeen := closure.1, next := closure.2.mergeSort (· ≤ ·) }

/-- What a cached scan carries along: the cache, the scratch and the counters. -/
structure CachedScan where
  /-- The deterministic states stored so far. -/
  cache : DeterministicCache
  /-- The working sets of the engine, reused by every closure. -/
  scratch : Scratch
  /-- The counters of the scan. -/
  metrics : ScanStats

namespace CachedScan

variable (database : PatternDatabase)

/-- `DeterministicCache::new`. The root is interned into an empty cache, which succeeds for every
nonzero budget. -/
def new (budget : ℕ) (metrics : ScanStats) : CachedScan :=
  let scratch := (Scratch.new database).resetStart
  let closure := extendClosure database.epsilonTargets database.root
    (scratch.activeSeen, scratch.active)
  let rootStates := closure.2.mergeSort (· ≤ ·)
  { cache := ((⟨budget, [], fun _ => []⟩ : DeterministicCache).intern database rootStates).2
    scratch := { scratch with activeSeen := closure.1, active := [] }
    metrics := metrics }

/-- `DeterministicCache::outcome_for`: what an entry says, counting a fallback. -/
def outcomeFor (transition : ℕ) (metrics : ScanStats) : TransitionOutcome × ScanStats :=
  if transition = deadTransition then (.dead, metrics)
  else if transition = fallbackTransition then
    (.uncached, { metrics with fallbackTransitions := metrics.fallbackTransitions + 1 })
  else (.cached transition, metrics)

/-- The first half of a transition that is not known yet: the successors are computed and interned.
The result is the entry to store. -/
def internSuccessors (state : ℕ) (symbol : UInt16) (scan : CachedScan) : ℕ × CachedScan :=
  let metrics := { scan.metrics with cacheMisses := scan.metrics.cacheMisses + 1 }
  let scratch := computeTransition database (scan.cache.nfaStates state) symbol
    scan.scratch.resetCachedTransition
  let interned := if scratch.next.isEmpty then (some deadTransition, scan.cache)
    else scan.cache.intern database scratch.next
  (interned.1.getD fallbackTransition, ⟨interned.2, scratch, metrics⟩)

/-- The second half: the entry is stored. -/
def storeTransition (state : ℕ) (symbol : UInt16) (transition : ℕ) (scan : CachedScan) :
    TransitionOutcome × CachedScan :=
  let outcome := outcomeFor transition scan.metrics
  (outcome.1, ⟨scan.cache.setTransition state symbol transition, scan.scratch, outcome.2⟩)

/-- `DeterministicCache::transition`. -/
def transition (state : ℕ) (symbol : UInt16) (scan : CachedScan) :
    TransitionOutcome × CachedScan :=
  let known := scan.cache.storedTransition state symbol
  if known = unknownTransition then
    let interned := internSuccessors database state symbol scan
    storeTransition state symbol interned.1 interned.2
  else if known = fallbackTransition then
    let metrics :=
      { scan.metrics with fallbackTransitions := scan.metrics.fallbackTransitions + 1 }
    let scratch := computeTransition database (scan.cache.nfaStates state) symbol
      scan.scratch.resetCachedTransition
    (.uncached, ⟨scan.cache, scratch, metrics⟩)
  else
    let outcome := outcomeFor known { scan.metrics with cacheHits := scan.metrics.cacheHits + 1 }
    (outcome.1, { scan with metrics := outcome.2 })

/-- One uncached transition, from the active set; it ends in the cache when the set it reaches is
interned. -/
def uncachedTransition (symbol : UInt16) (scan : CachedScan) : TransitionOutcome × CachedScan :=
  let metrics :=
    { scan.metrics with fallbackTransitions := scan.metrics.fallbackTransitions + 1 }
  let scratch := scan.scratch.resetCachedTransition
  let scratch := computeTransition database scratch.active symbol scratch
  let outcome :=
    if scratch.next.isEmpty then .dead
    else match scan.cache.lookup scratch.next with
      | some state => .cached state
      | none => .uncached
  (outcome, ⟨scan.cache, scratch, metrics⟩)

/-- The transition of one symbol, from wherever the cursor stands. -/
def step (cursor : ScanCursor) (symbol : UInt16) (scan : CachedScan) :
    TransitionOutcome × CachedScan :=
  match cursor with
  | .cached state => transition database state symbol scan
  | .uncached => uncachedTransition database symbol scan

/-- What the scan does with a transition: the terminals it reaches are recorded, and the cursor
follows it; `none` ends the loop. -/
def follow (outcome : TransitionOutcome) (stop : ℕ) (scan : CachedScan) :
    Option ScanCursor × CachedScan :=
  match outcome with
  | .dead => (none, scan)
  | .cached state =>
    (some (.cached state), { scan with
      scratch := scan.scratch.recordTerminals (scan.cache.terminals state) stop })
  | .uncached =>
    let scratch := scan.scratch.recordTerminals (database.terminalsOf scan.scratch.next) stop
    (some .uncached, { scan with
      scratch := { scratch with active := scratch.next, next := scratch.active } })

/-- The loop over the symbols of one start. -/
def symbols : List UInt16 → ℕ → ScanCursor → CachedScan → Except Error CachedScan
  | [], _, _, scan => .ok scan
  | symbol :: rest, position, cursor, scan => do
    let (outcome, scan) := step database cursor symbol scan
    let next ← checkedSucc position
    let stop ← positionUtf16 next
    match follow database outcome stop scan with
    | (none, scan) => return scan
    | (some cursor, scan) => symbols rest (position + 1) cursor scan

/-- The loop over the starts. -/
def starts (input : Utf16Text) : List ℕ → CachedScan → Delivery CachedScan
  | [], scan => pure scan
  | start :: rest, scan => do
    let scan := { scan with scratch := scan.scratch.resetCachedStart }
    let scan ← Delivery.ofExcept
      (symbols database (input.units.drop start) start (.cached 0) scan)
    let start ← Delivery.ofExcept (positionUtf16 start)
    let scan := { scan with scratch := scan.scratch.sortTouched }
    Delivery.emit (reportTouched database start scan.scratch)
    starts input rest scan

end CachedScan

/-- `scan_without_assertions_cached`: scan the starts with a new cache. -/
def scanWithoutAssertionsCached (database : PatternDatabase) (input : Utf16Text)
    (stateCacheBudget : ℕ) (starts : List ℕ) (metrics : ScanStats) : Delivery ScanStats := do
  let scan ← CachedScan.starts database input starts
    (CachedScan.new database stateCacheBudget metrics)
  return { scan.metrics with cacheStates := scan.cache.states.length }

/-- `scan_without_assertions_dispatch`: scan with a cache, or without one if the budget is zero. -/
def scanWithoutAssertionsDispatch (database : PatternDatabase) (input : Utf16Text)
    (stateCacheBudget : ℕ) (starts : List ℕ) (metrics : ScanStats) : Delivery ScanStats :=
  if stateCacheBudget = 0 then do
    scanWithoutAssertionsNfa database input starts
    return metrics
  else scanWithoutAssertionsCached database input stateCacheBudget starts metrics

end Rustmatch

import Rustmatch.Nfa
import Rustmatch.ToMathlib.MarkedSearch

/-!
# The exact engines

`engine.rs` without the state cache: scans that run the compiled graph on one start after the
other, with scratch storage that is reused between starts and between symbols.

The engines differ in which zero-width edges they follow and in the root they start from, so
`scanExact` takes both as parameters. The stack of a closure is empty between calls and is no part
of the scratch record; closures are searches that mark on push.
-/

open MarkedSearch

namespace Rustmatch

/-- `Scratch`: storage reused between starts. -/
structure Scratch where
  /-- The states of the frontier. -/
  active : List StateId
  /-- The states that the next symbol leads to. -/
  next : List StateId
  /-- The marks of the states of the frontier. -/
  activeSeen : List Bool
  /-- The marks of the states in `next`. -/
  nextSeen : List Bool
  /-- The generation in which a closure last met a state. -/
  cacheSeen : List UInt32
  /-- The generation of the current closure. -/
  cacheGeneration : UInt32
  /-- For every ordinal, the greatest end found from this start. -/
  bestEnd : List (Option ℕ)
  /-- The ordinals with an end, in the order they were found. -/
  touchedOrdinals : List ℕ

namespace Scratch

/-- `Scratch::new`: empty working sets for a database. -/
def new (database : PatternDatabase) : Scratch where
  active := []
  next := []
  activeSeen := List.replicate database.stateCount false
  nextSeen := List.replicate database.stateCount false
  cacheSeen := List.replicate database.stateCount 0
  cacheGeneration := 0
  bestEnd := List.replicate database.patternCount none
  touchedOrdinals := []

/-- `Scratch::reset_terminals`: forget the recorded ends. -/
def resetTerminals (scratch : Scratch) : Scratch :=
  { scratch with
    bestEnd := scratch.touchedOrdinals.foldl (fun best ordinal => best.set ordinal none)
      scratch.bestEnd
    touchedOrdinals := [] }

/-- `Scratch::reset_start`: forget the frontier and the recorded ends. -/
def resetStart (scratch : Scratch) : Scratch :=
  resetTerminals { scratch with
    active := []
    activeSeen := scratch.activeSeen.map fun _ => false }

/-- `Scratch::reset_next`: forget the next frontier. -/
def resetNext (scratch : Scratch) : Scratch :=
  { scratch with next := [], nextSeen := scratch.nextSeen.map fun _ => false }

/-- The two swaps after a symbol. -/
def swap (scratch : Scratch) : Scratch :=
  { scratch with
    active := scratch.next
    next := scratch.active
    activeSeen := scratch.nextSeen
    nextSeen := scratch.activeSeen }

/-- `record_terminal`: record an end for an ordinal. -/
def recordTerminal (scratch : Scratch) (ordinal stop : ℕ) : Scratch :=
  { scratch with
    touchedOrdinals :=
      if scratch.bestEnd.getD ordinal none = none then scratch.touchedOrdinals ++ [ordinal]
      else scratch.touchedOrdinals
    bestEnd := scratch.bestEnd.set ordinal (some stop) }

/-- The loop of `record_terminal` over the ordinals reported at one position. -/
def recordTerminals (scratch : Scratch) (ordinals : List ℕ) (stop : ℕ) : Scratch :=
  ordinals.foldl (fun scratch ordinal => scratch.recordTerminal ordinal stop) scratch

/-- `touched_ordinals.sort_unstable()`. -/
def sortTouched (scratch : Scratch) : Scratch :=
  { scratch with touchedOrdinals := scratch.touchedOrdinals.mergeSort (· ≤ ·) }

end Scratch

namespace PatternDatabase

variable (database : PatternDatabase)

/-- Targets of the edges that `extend_epsilon_closure` follows. -/
def epsilonTargets (state : StateId) : List StateId :=
  ((database.edgesFrom state).filter fun edge => edge.kind == .epsilon).map Edge.target

/-- Whether an edge is followed without consuming: `follows_without_consuming`, at a position of
the input. -/
def followsWithoutConsuming (input : List UInt16) (position : Config) : EdgeKind → Bool
  | .epsilon => true
  | .assertion a => assertionMatches a input position.1 position.2
  | .symbol _ | .predicate _ => false

/-- Targets of the edges that `extend_assertion_closure` follows at a position of the input. -/
def assertionTargets (input : List UInt16) (position : Config) (state : StateId) : List StateId :=
  ((database.edgesFrom state).filter fun edge =>
    followsWithoutConsuming input position edge.kind).map Edge.target

/-- Targets of the edges that a symbol matches, from all states of a list. -/
def matchingTargets (source : List StateId) (symbol : UInt16) : List StateId :=
  source.flatMap fun state =>
    ((database.edgesFrom state).filter fun edge => database.edgeMatches edge.kind symbol).map
      Edge.target

/-- The ordinals reported at the states of a list, in order. -/
def terminalsOf (source : List StateId) : List ℕ := source.flatMap database.terminalsAt

end PatternDatabase

/-- `extend_epsilon_closure` and `extend_assertion_closure`: a search from `seed` over the edges
that `follow` gives, with the marks `seen`. -/
def extendClosure (follow : StateId → List StateId) (seed : StateId)
    (closure : List Bool × List StateId) : List Bool × List StateId :=
  extend boolMarks follow seed closure.1 [] closure.2

section ScanExact

variable (database : PatternDatabase) (follow : Config → StateId → List StateId)

/-- One symbol: the closure of everything it leads to becomes the new active set, and the
terminals in it are recorded. -/
def scanSymbol (position stop : ℕ) (symbol : UInt16) (scratch : Scratch) : Scratch :=
  let scratch := scratch.resetNext
  let closure := (database.matchingTargets scratch.active symbol).foldl
    (fun closure seed => extendClosure (follow (position + 1, true)) seed closure)
    (scratch.nextSeen, scratch.next)
  let scratch := { scratch with nextSeen := closure.1, next := closure.2 }
  (scratch.recordTerminals (database.terminalsOf scratch.next) stop).swap

/-- The loop over the symbols from a start; it ends early when no state is active. -/
def scanSymbols : List UInt16 → ℕ → Scratch → Except Error Scratch
  | [], _, scratch => .ok scratch
  | symbol :: rest, position, scratch => do
    let next ← checkedSucc position
    let stop ← positionUtf16 next
    let scratch := scanSymbol database follow position stop symbol scratch
    if scratch.active.isEmpty then return scratch else scanSymbols rest (position + 1) scratch

/-- The events of one start, once its longest ends are known. A touched ordinal always has one. -/
def reportTouched (start : ℕ) (scratch : Scratch) : List Match :=
  scratch.touchedOrdinals.map fun ordinal =>
    ⟨database.patternId ordinal, ⟨start, (scratch.bestEnd.getD ordinal none).getD 0⟩⟩

/-- The scan of one start up to its report. -/
def scanStart (root : StateId) (input : Utf16Text) (start : ℕ) (scratch : Scratch) :
    Except Error Scratch :=
  let scratch := scratch.resetStart
  let closure := extendClosure (follow (start, false)) root (scratch.activeSeen, scratch.active)
  let scratch := { scratch with activeSeen := closure.1, active := closure.2 }
  scanSymbols database follow (input.units.drop start) start scratch

/-- The loop over the starts. -/
def scanStarts (root : StateId) (input : Utf16Text) : List ℕ → Scratch → Delivery Unit
  | [], _ => pure ()
  | start :: rest, scratch => do
    let scratch ← Delivery.ofExcept (scanStart database follow root input start scratch)
    let start ← Delivery.ofExcept (positionUtf16 start)
    let scratch := scratch.sortTouched
    Delivery.emit (reportTouched database start scratch)
    scanStarts root input rest scratch

/-- The common body of the exact engines. -/
def scanExact (root : StateId) (input : Utf16Text) (starts : List ℕ) : Delivery Unit :=
  scanStarts database follow root input starts (Scratch.new database)

end ScanExact

/-- `scan_without_assertions_nfa`: scan the starts without looking at the context. -/
def scanWithoutAssertionsNfa (database : PatternDatabase) (input : Utf16Text) (starts : List ℕ) :
    Delivery Unit :=
  scanExact database (fun _ => database.epsilonTargets) database.root input starts

/-- `scan_assertion_view_starts`: scan the starts from a root, in their context. -/
def scanAssertionViewStarts (database : PatternDatabase) (root : StateId) (input : Utf16Text)
    (starts : List ℕ) : Delivery Unit :=
  scanExact database (database.assertionTargets input.units) root input starts

/-- `scan_assertion_view`: scan every start from a root. -/
def scanAssertionView (database : PatternDatabase) (root : StateId) (input : Utf16Text) :
    Delivery Unit :=
  scanAssertionViewStarts database root input (List.range input.units.length)

/-- `scan_with_assertions`: scan every start from the root of the database. -/
def scanWithAssertions (database : PatternDatabase) (input : Utf16Text) : Delivery Unit :=
  scanExact database (database.assertionTargets input.units) database.root input
    (List.range input.units.length)

end Rustmatch

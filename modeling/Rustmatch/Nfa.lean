import Mathlib.Data.List.Basic
import Rustmatch.Reading
import Rustmatch.ToMathlib.LabelledGraph

/-!
# The pattern database and its compiler

`nfa.rs`: the immutable database that the engines read, and the compiler that builds it. The
compiler works on growing lists of pending edges and terminals, one of each for every state, and
lays them out as slices of two flat arrays at the end.

The mutable compilation context of the source is the record `Compilation`, passed through and
returned. Loops over counts recurse on the number of rounds still to come.
-/

open LabelledGraph

namespace Rustmatch

/-- The index of a state; `StateId::for_index` keeps it below `2 ^ 32`. -/
abbrev StateId := ℕ

/-- The index of an interned predicate; `PredicateId::for_index` keeps it below `2 ^ 32`. -/
abbrev PredicateId := ℕ

/-- `StateId::for_index` and `PredicateId::for_index`. -/
def forIndex (index : ℕ) : Except Error ℕ :=
  if index < 2 ^ 32 then .ok index else .error .patternSetTooLarge

/-- What an edge asks for. -/
inductive EdgeKind where
  /-- Nothing. -/
  | epsilon
  /-- An assertion that holds. -/
  | assertion (assertion : Assertion)
  /-- A unit. -/
  | symbol (symbol : UInt16)
  /-- A unit of an interned class. -/
  | predicate (id : PredicateId)
deriving DecidableEq, Repr

/-- One transition. -/
structure Edge where
  /-- What the edge consumes or tests. -/
  kind : EdgeKind
  /-- Where it leads. -/
  target : StateId
deriving DecidableEq, Repr

/-- The slices of the flat arrays that belong to one state. -/
structure State where
  /-- Where the edges of the state begin. -/
  edgeStart : ℕ
  /-- How many edges there are. -/
  edgeLen : ℕ
  /-- Where the ordinals that it accepts begin. -/
  terminalStart : ℕ
  /-- How many ordinals it accepts. -/
  terminalLen : ℕ
deriving DecidableEq, Repr

/-- The compiled patterns. -/
structure PatternDatabase where
  /-- The state that every scan starts in. -/
  root : StateId
  /-- The states; an id is an index. -/
  states : List State
  /-- The edges of all states, one slice after the other. -/
  edges : List Edge
  /-- The interned classes; an id is an index. -/
  predicates : List SymbolPredicate
  /-- The accepted ordinals of all states, one slice after the other. -/
  terminalOrdinals : List ℕ
  /-- The identities of the patterns, by ordinal. -/
  patternIds : List PatternId
  /-- Whether some pattern has assertions. -/
  usesAssertions : Bool

namespace PatternDatabase

variable (database : PatternDatabase)

/-- `PatternDatabase::state_count`: the number of states. -/
def stateCount : ℕ := database.states.length

/-- `PatternDatabase::pattern_count`: the number of patterns. -/
def patternCount : ℕ := database.patternIds.length

/-- `PatternDatabase::edges_from`. A well-formed database is never asked for a missing state. -/
def edgesFrom (state : StateId) : List Edge :=
  match database.states[state]? with
  | some s => (database.edges.drop s.edgeStart).take s.edgeLen
  | none => []

/-- `PatternDatabase::terminals_at`: the ordinals that a state accepts. -/
def terminalsAt (state : StateId) : List ℕ :=
  match database.states[state]? with
  | some s => (database.terminalOrdinals.drop s.terminalStart).take s.terminalLen
  | none => []

/-- `PatternDatabase::pattern_id`: the identity of an ordinal. -/
def patternId (ordinal : ℕ) : PatternId := database.patternIds.getD ordinal ⟨0⟩

/-- `PatternDatabase::edge_matches`: an edge consumes a symbol. -/
def edgeMatches (kind : EdgeKind) (symbol : UInt16) : Bool :=
  match kind with
  | .epsilon | .assertion _ => false
  | .symbol expected => expected == symbol
  | .predicate id => database.predicates[id]?.any fun predicate => predicate.matches symbol

/-- All indices of the database point into it. -/
structure WellFormed : Prop where
  /-- The root is a state. -/
  root_lt : database.root < database.stateCount
  /-- The edges of a state lie in the flat array. -/
  edges_le : ∀ s ∈ database.states, s.edgeStart + s.edgeLen ≤ database.edges.length
  /-- So do the ordinals that it accepts. -/
  terminals_le : ∀ s ∈ database.states,
    s.terminalStart + s.terminalLen ≤ database.terminalOrdinals.length
  /-- Every edge leads to a state. -/
  target_lt : ∀ edge ∈ database.edges, edge.target < database.stateCount
  /-- Every class that an edge asks for is interned. -/
  predicate_lt : ∀ edge ∈ database.edges, ∀ id, edge.kind = .predicate id →
    id < database.predicates.length
  /-- Every accepted ordinal is that of a pattern. -/
  ordinal_lt : ∀ ordinal ∈ database.terminalOrdinals, ordinal < database.patternCount

end PatternDatabase

/-! ### The compilation context -/

/-- The compilation context: pending edges and terminals of every state, and the predicates
interned so far with their ids. -/
structure Compilation where
  /-- The edges of every state, in the order they were added. -/
  edges : List (List Edge)
  /-- The ordinals that every state accepts. -/
  terminals : List (List ℕ)
  /-- The interned classes. -/
  predicates : List SymbolPredicate
  /-- The id of every interned class. -/
  predicateIds : List (SymbolPredicate × PredicateId)

namespace Compilation

/-- `add_state`: a new state without edges, if it has an id. -/
def addState (c : Compilation) : Except Error (StateId × Compilation) := do
  let id ← forIndex c.edges.length
  return (id, { c with edges := c.edges ++ [[]], terminals := c.terminals ++ [[]] })

/-- `edges[start].push(edge)`. -/
def pushEdge (c : Compilation) (start : StateId) (edge : Edge) : Compilation :=
  { c with edges := c.edges.modify start (· ++ [edge]) }

/-- `add_epsilon`: an edge that consumes nothing. -/
def addEpsilon (c : Compilation) (start stop : StateId) : Compilation :=
  c.pushEdge start ⟨.epsilon, stop⟩

/-- `terminals[state].push(ordinal)`. -/
def pushTerminal (c : Compilation) (state : StateId) (ordinal : ℕ) : Compilation :=
  { c with terminals := c.terminals.modify state (· ++ [ordinal]) }

/-- `intern_predicate`: the id of a class, which gets one if it has none. -/
def internPredicate (c : Compilation) (predicate : SymbolPredicate) :
    Except Error (PredicateId × Compilation) :=
  match c.predicateIds.lookup predicate with
  | some id => .ok (id, c)
  | none => do
    let id ← forIndex c.predicates.length
    return (id, { c with predicates := c.predicates ++ [predicate],
                         predicateIds := (predicate, id) :: c.predicateIds })

end Compilation

/-- What compiles one expression between two states. -/
abbrev Compiler := StateId → StateId → Compilation → Except Error Compilation

/-- The loop over the required copies of a repetition, with `n` copies to come; the last one ends
in `stop` when nothing follows it. -/
def compileRequired (body : Compiler) (exact : Bool) (stop : StateId) :
    ℕ → StateId → Compilation → Except Error (StateId × Compilation)
  | 0, current, c => .ok (current, c)
  | n + 1, current, c => do
    let (next, c) ← if n = 0 && exact then .ok (stop, c) else c.addState
    let c ← body current next c
    compileRequired body exact stop n next c

/-- The loop over the optional copies of a repetition, with `n` copies to come. -/
def compileOptional (body : Compiler) (stop : StateId) :
    ℕ → StateId → Compilation → Except Error Compilation
  | 0, _, c => .ok c
  | n + 1, current, c => do
    let c := c.addEpsilon current stop
    let (next, c) ← if n = 0 then .ok (stop, c) else c.addState
    let c ← body current next c
    compileOptional body stop n next c

/-- `compile_repetition`: the required copies, then a loop or the optional ones. -/
def compileRepetition (body : Compiler) (min : ℕ) (max : Option ℕ) (start stop : StateId)
    (c : Compilation) : Except Error Compilation := do
  let (current, c) ← compileRequired body (max == some min) stop min start c
  match max with
  | some limit =>
    if limit = min then
      if min = 0 then return c.addEpsilon start stop else return c
    else compileOptional body stop (limit - min) current c
  | none =>
    let c := c.addEpsilon current stop
    let (loopEnd, c) ← c.addState
    let c ← body current loopEnd c
    return c.addEpsilon loopEnd current

mutual

/-- `compile_expression`: add the fragment of an expression between two states. -/
def compileExpression : Hir → Compiler
  | .never, _, _, c => .ok c
  | .epsilon, start, stop, c => .ok (c.pushEdge start ⟨.epsilon, stop⟩)
  | .assertion a, start, stop, c => .ok (c.pushEdge start ⟨.assertion a, stop⟩)
  | .symbol s, start, stop, c => .ok (c.pushEdge start ⟨.symbol s, stop⟩)
  | .predicate p, start, stop, c => do
    let (id, c) ← c.internPredicate p
    return c.pushEdge start ⟨.predicate id, stop⟩
  | .sequence expressions, start, stop, c => compileItems expressions start stop c
  | .alternation expressions, start, stop, c => compileBranches expressions start stop c
  | .repetition expression min max, start, stop, c =>
    compileRepetition (compileExpression expression) min max start stop c

/-- The loop over the items of a sequence; the last one ends in `stop`. -/
def compileItems : List Hir → Compiler
  | [], _, _, c => .ok c
  | item :: rest, current, stop, c => do
    let (next, c) ← if rest.isEmpty then .ok (stop, c) else c.addState
    let c ← compileExpression item current next c
    compileItems rest next stop c

/-- The loop over the branches of an alternation. -/
def compileBranches : List Hir → Compiler
  | [], _, _, c => .ok c
  | branch :: rest, start, stop, c => do
    let c ← compileExpression branch start stop c
    compileBranches rest start stop c

end

/-- One round of the loop over the patterns: a first and a terminal state, an edge from `root`, and
the expression between them. -/
def compilePattern (root : StateId) (ordinal : ℕ) (pattern : HirPattern) (c : Compilation) :
    Except Error Compilation := do
  let (first, c) ← c.addState
  let (terminal, c) ← c.addState
  let c := c.pushEdge root ⟨.epsilon, first⟩
  let c ← compileExpression pattern.expression first terminal c
  return c.pushTerminal terminal ordinal

/-- The loop over the patterns; `rootOf` chooses the root that leads to a pattern. -/
def compilePatterns (rootOf : HirPattern → StateId) :
    List HirPattern → ℕ → Compilation → Except Error Compilation
  | [], _, c => .ok c
  | pattern :: rest, ordinal, c => do
    let c ← compilePattern (rootOf pattern) ordinal pattern c
    compilePatterns rootOf rest (ordinal + 1) c

/-- The flat arrays. -/
structure Layout where
  /-- The states with their slices. -/
  states : List State
  /-- The edges, slice after slice. -/
  edges : List Edge
  /-- The ordinals, slice after slice. -/
  terminalOrdinals : List ℕ

/-- Appends the edges and terminals of one more state. -/
def Layout.push (layout : Layout) (pending : List Edge × List ℕ) : Layout where
  states := layout.states ++
    [⟨layout.edges.length, pending.1.length, layout.terminalOrdinals.length, pending.2.length⟩]
  edges := layout.edges ++ pending.1
  terminalOrdinals := layout.terminalOrdinals ++ pending.2

/-- The loop that lays out the pending edges and terminals. -/
def Compilation.layout (c : Compilation) : Layout :=
  (c.edges.zip c.terminals).foldl Layout.push ⟨[], [], []⟩

/-- The database over the flat arrays of a finished compilation. -/
def Compilation.database (c : Compilation) (root : StateId) (patterns : List HirPattern)
    (usesAssertions : Bool) : PatternDatabase where
  root := root
  states := c.layout.states
  edges := c.layout.edges
  predicates := c.predicates
  terminalOrdinals := c.layout.terminalOrdinals
  patternIds := patterns.map HirPattern.patternId
  usesAssertions := usesAssertions

/-- `compile`: one graph for all patterns, entered by one root. -/
def compile (patterns : List HirPattern) : Except Error PatternDatabase := do
  let root ← forIndex 0
  let c ← compilePatterns (fun _ => root) patterns 0 ⟨[[]], [[]], [], []⟩
  return c.database root patterns
    (patterns.any fun pattern => pattern.expression.usesAssertions)

end Rustmatch

import Rustmatch.Parser

/-!
# The parser with its panics

`parser.rs` again, this time with everything that can go wrong in it besides the errors it returns:
slices are indexed, machine integers overflow, `unreachable!` and `expect` are reached. The index
and the number of open groups are the mutable state they are in the source, and a run that stops
keeps the state in which it stopped. Loops and calls take fuel, so that a run that would not end
panics as well.

Two more numbers are kept for the record and never read: how many groups were open at most, and how
many would have been had every group with a body been entered.

## Main definitions

* `Cursor`, `Stopped`, `Checked`: the state, how a run stops, and runs;
* `Checked.parseAlternation`, `Checked.parseAtom`, `Checked.parseGroup`: the parser;
* `Checked.parseWithFlags`: a whole registration.
-/

namespace Rustmatch

/-- The mutable fields of `Parser`, and what is recorded about `groupDepth`. -/
structure Cursor where
  /-- The index of the unit to be read. -/
  index : ℕ
  /-- The number of open groups. -/
  groupDepth : ℕ
  /-- The largest value that `groupDepth` had. -/
  deepest : ℕ
  /-- The largest number of groups with a body that were open, with the one just begun. -/
  attempted : ℕ

/-- Why a run panics. -/
inductive Panic where
  /-- An index outside a slice. -/
  | indexOutOfRange
  /-- An arithmetic overflow. -/
  | overflow
  /-- `unreachable!`. -/
  | unreachableReached
  /-- `expect` on nothing. -/
  | expectFailed
  /-- The recursion was cut off, which the source does not do. -/
  | outOfFuel

/-- How a run stops before its end. -/
inductive Stop where
  /-- With an error. -/
  | error (reason : Error)
  /-- With a panic. -/
  | panic (cause : Panic)

/-- A run that stopped, and the state it stopped in. -/
structure Stopped where
  /-- Why the run stopped. -/
  stop : Stop
  /-- The fields of the parser then. -/
  cursor : Cursor

/-- A part of the parser, run from some state. -/
abbrev Checked := StateT Cursor (Except Stopped)

namespace Checked

variable {α : Type}

/-! ### Operations that may panic -/

/-- Returns an error. -/
def fail (reason : Error) : Checked α := fun cursor => .error ⟨.error reason, cursor⟩

/-- Panics. -/
def panic (cause : Panic) : Checked α := fun cursor => .error ⟨.panic cause, cursor⟩

/-- `self.index`. -/
def position : Checked ℕ := fun cursor => .ok (cursor.index, cursor)

/-- `self.index += 1`. -/
def advance : Checked Unit := fun cursor =>
  if cursor.index + 1 ≤ usizeMax then .ok ((), { cursor with index := cursor.index + 1 })
  else .error ⟨.panic .overflow, cursor⟩

/-- `index + 1`. -/
def successor (index : ℕ) : Checked ℕ :=
  if index + 1 ≤ usizeMax then pure (index + 1) else panic .overflow

/-- `units[index]`. -/
def unitAt (units : List UInt16) (index : ℕ) : Checked UInt16 :=
  match units[index]? with
  | some unit => pure unit
  | none => panic .indexOutOfRange

/-- `unit - b'0'`. -/
def digitOf (unit : UInt16) : Checked ℕ :=
  if ascii '0' ≤ unit then pure (unit - ascii '0').toNat else panic .overflow

/-- `u16::try_from(value).expect(..)`. -/
def countOf (value : ℕ) : Checked ℕ :=
  if value < 2 ^ 16 then pure value else panic .expectFailed

/-- `shorthand`: the class of a shorthand, or a panic. -/
def shorthand (unit : UInt16) : Checked SymbolPredicate :=
  if unit = 0x64 then pure .digit
  else if unit = 0x44 then pure SymbolPredicate.digit.complement
  else if unit = 0x77 then pure .word
  else if unit = 0x57 then pure SymbolPredicate.word.complement
  else if unit = 0x73 then pure .whitespace
  else if unit = 0x53 then pure SymbolPredicate.whitespace.complement
  else panic .unreachableReached

/-- `self.group_depth == MAX_GROUP_NESTING`, asked when a group with a body begins. -/
def nestingReached : Checked Bool := fun cursor =>
  .ok (cursor.groupDepth == maxGroupNesting,
    { cursor with attempted := max cursor.attempted (cursor.groupDepth + 1) })

/-- `self.group_depth += 1`. -/
def enterGroup : Checked Unit := fun cursor =>
  if cursor.groupDepth + 1 ≤ usizeMax then
    .ok ((), { cursor with groupDepth := cursor.groupDepth + 1,
                           deepest := max cursor.deepest (cursor.groupDepth + 1) })
  else .error ⟨.panic .overflow, cursor⟩

/-- `self.group_depth -= 1`, before the result of `body` is looked at. -/
def thenLeaveGroup (body : Checked α) : Checked α := fun cursor =>
  match body cursor with
  | .ok (value, inner) =>
    if inner.groupDepth = 0 then .error ⟨.panic .overflow, inner⟩
    else .ok (value, { inner with groupDepth := inner.groupDepth - 1 })
  | .error ⟨.error reason, inner⟩ =>
    if inner.groupDepth = 0 then .error ⟨.panic .overflow, inner⟩
    else .error ⟨.error reason, { inner with groupDepth := inner.groupDepth - 1 }⟩
  | .error ⟨.panic cause, inner⟩ => .error ⟨.panic cause, inner⟩

section Productions

variable (p : Parser)

/-- `Err(invalid(..)?)`. -/
def refuse (start stop : ℕ) : Checked α := fail (p.invalid start stop)

/-- `Parser::current_is`: a character stands at the index. -/
def currentIs (expected : Char) : Checked Bool := do
  let index ← position
  return p.currentIs index expected

/-! ### Escapes and character classes -/

/-- `Parser::parse_escape`: what follows a backslash outside a class. -/
def parseEscape : Checked Hir := do
  let start ← position
  advance
  let index ← position
  match p.units[index]? with
  | none => refuse p start index
  | some escaped => do
    advance
    if isEscapedLiteral escaped then return p.literal escaped
    else if escaped = ascii 'n' then return .symbol 0x0a
    else if escaped = ascii 't' then return .symbol 0x09
    else if escaped = ascii 'r' then return .symbol 0x0d
    else if escaped = ascii 'f' then return .symbol 0x0c
    else if isShorthand escaped then do
      let predicate ← shorthand escaped
      return .predicate predicate
    else if escaped = 0x62 then return .assertion .wordBoundary
    else if escaped = 0x42 then return .assertion .nonWordBoundary
    else do
      let index ← position
      refuse p start index

/-- `Parser::parse_class_token`: a literal, a shorthand or a dash inside a class. -/
def parseClassToken : Checked ClassToken := do
  let start ← position
  let unit ← unitAt p.units start
  advance
  if unit = ascii '-' then return .rangeMarker start
  else if unit ≠ ascii '\\' then return .literal unit start
  else do
    let index ← position
    match p.units[index]? with
    | none => refuse p start index
    | some escaped => do
      advance
      if escaped ∈ [0x5c, 0x5d, 0x5b, 0x2d, 0x5e] then return .literal escaped start
      else if escaped = ascii 'n' then return .literal 0x0a start
      else if escaped = ascii 't' then return .literal 0x09 start
      else if escaped = ascii 'r' then return .literal 0x0d start
      else if escaped = ascii 'f' then return .literal 0x0c start
      else if escaped ∈ [0x64, 0x77, 0x73] then do
        let predicate ← shorthand escaped
        return .predicate predicate
      else do
        let index ← position
        refuse p start index

/-- What the loop of `Parser::parse_character_class` does with a token. -/
def pushToken (classStart : ℕ) (state : Parser.ClassState) : ClassToken → Checked Parser.ClassState
  | .literal symbol place =>
    match state.rangeStart with
    | some (start, rangePosition) =>
      match p.insertClassRange state.predicate start symbol with
      | some predicate => return { state with predicate := predicate, rangeStart := none }
      | none => do
        let index ← position
        refuse p rangePosition index
    | none =>
      return { state with predicate := state.flush p, pendingLiteral := some (symbol, place) }
  | .predicate members =>
    if state.rangeStart.isSome then do
      let index ← position
      refuse p classStart index
    else return { state with predicate := (state.flush p).union members, pendingLiteral := none }
  | .rangeMarker place =>
    match state.pendingLiteral with
    | none => do
      let index ← position
      refuse p place index
    | some start => return { state with pendingLiteral := none, rangeStart := some start }

/-- The loop of `Parser::parse_character_class`. -/
def parseClassItems (classStart : ℕ) : ℕ → Parser.ClassState → Checked SymbolPredicate
  | 0, _ => panic .outOfFuel
  | fuel + 1, state => do
    let index ← position
    match p.units[index]? with
    | none => refuse p classStart index
    | some unit =>
      if unit = ascii ']' then
        if state.rangeStart.isSome then do
          let stop ← successor index
          refuse p classStart stop
        else do
          advance
          return state.flush p
      else do
        let token ← parseClassToken p
        let state ← pushToken p classStart state token
        parseClassItems classStart fuel state

/-- `Parser::parse_character_class`, from the first token on. -/
def parseClassBody (fuel classStart : ℕ) (inverted : Bool) : Checked Hir := do
  let predicate ← parseClassItems p classStart fuel .initial
  return .predicate (if inverted then predicate.complement else predicate)

/-- `Parser::parse_character_class`: what follows a bracket. -/
def parseCharacterClass (fuel : ℕ) : Checked Hir := do
  let classStart ← position
  advance
  let inverted ← currentIs p '^'
  if inverted then do
    advance
    parseClassBody p fuel classStart true
  else parseClassBody p fuel classStart false

/-! ### Repetitions -/

/-- The loop of `Parser::parse_count`. -/
def parseDigits : ℕ → ℕ → Checked ℕ
  | 0, _ => panic .outOfFuel
  | fuel + 1, value => do
    let index ← position
    match p.units[index]? with
    | none => return value
    | some unit =>
      if ascii '0' ≤ unit ∧ unit ≤ ascii '9' then do
        let digit ← digitOf unit
        advance
        parseDigits fuel (Parser.countDigit value digit)
      else return value

/-- `Parser::parse_count`: the digits of a count. -/
def parseCount (fuel quantifierStart : ℕ) : Checked ℕ := do
  let numberStart ← position
  let value ← parseDigits p fuel 0
  let index ← position
  if index = numberStart ∨ value > maxCountedRepetition then do
    let next ← successor numberStart
    refuse p quantifierStart (min (max index next) p.units.length)
  else countOf value

/-- The upper bound of `Parser::parse_counted_repetition`, behind the lower one. -/
def parseLimit (fuel start count : ℕ) : Checked (Option ℕ) := do
  let closed ← currentIs p '}'
  if closed then do
    advance
    return some count
  else do
    let comma ← currentIs p ','
    if comma then do
      advance
      let closed ← currentIs p '}'
      if closed then do
        advance
        return none
      else do
        let limit ← parseCount p fuel start
        let closed ← currentIs p '}'
        if !closed then do
          let index ← position
          refuse p start (min index p.units.length)
        else do
          advance
          return some limit
    else do
      let index ← position
      refuse p start (min index p.units.length)

/-- `Parser::parse_counted_repetition`: what follows a brace. -/
def parseCountedRepetition (fuel : ℕ) (expression : Hir) : Checked Hir := do
  let start ← position
  advance
  let count ← parseCount p fuel start
  let limit ← parseLimit p fuel start count
  if Parser.badBounds count limit then do
    let index ← position
    refuse p start index
  else return .mkRepeat expression count limit

/-- A repetition is not followed by another repetition operator. -/
def finishRepetition (start : ℕ) (repeated : Hir) : Checked Hir := do
  let index ← position
  if (p.units[index]?).any isRepetitionOperator then do
    let stop ← successor index
    refuse p start stop
  else return repeated

/-- `Parser::parse_repetition`: a quantifier behind an atom, if there is one. -/
def parseRepetition (fuel : ℕ) (expression : Hir) : Checked Hir := do
  let start ← position
  if p.currentIs start '?' then do
    advance
    finishRepetition p start (.mkRepeat expression 0 (some 1))
  else if p.currentIs start '*' then do
    advance
    finishRepetition p start (.mkRepeat expression 0 none)
  else if p.currentIs start '+' then do
    advance
    finishRepetition p start (.mkRepeat expression 1 none)
  else if p.currentIs start '{' then do
    let repeated ← parseCountedRepetition p fuel expression
    finishRepetition p start repeated
  else return expression

/-! ### Expressions -/

mutual

/-- `Parser::parse_alternation`: branches, up to the end of the text or of the group. -/
def parseAlternation : ℕ → Bool → Checked Hir
  | 0, _ => panic .outOfFuel
  | fuel + 1, inGroup => do
    let first ← parseSequence fuel inGroup
    let rest ← parseBranches fuel inGroup
    return .mkAlternation (first :: rest)

/-- The loop of `Parser::parse_alternation`. -/
def parseBranches : ℕ → Bool → Checked (List Hir)
  | 0, _ => panic .outOfFuel
  | fuel + 1, inGroup => do
    let bar ← currentIs p '|'
    if bar then do
      advance
      let index ← position
      if index = p.units.length ∨ (inGroup ∧ p.currentIs index ')') then return []
      else do
        let branch ← parseSequence fuel inGroup
        let rest ← parseBranches fuel inGroup
        return branch :: rest
    else return []

/-- `Parser::parse_sequence`: the items of one branch. -/
def parseSequence : ℕ → Bool → Checked Hir
  | 0, _ => panic .outOfFuel
  | fuel + 1, inGroup => do
    let items ← parseItems fuel inGroup
    return .mkSequence items

/-- The loop of `Parser::parse_sequence`. -/
def parseItems : ℕ → Bool → Checked (List Hir)
  | 0, _ => panic .outOfFuel
  | fuel + 1, inGroup => do
    let index ← position
    match p.units[index]? with
    | none => return []
    | some unit =>
      if unit = ascii '|' ∨ (inGroup ∧ unit = ascii ')') then return []
      else if unit = ascii ')' then do
        let stop ← successor index
        refuse p index stop
      else do
        let atom ← parseAtom fuel
        let item ← parseRepetition p fuel atom
        let rest ← parseItems fuel inGroup
        return item :: rest

/-- `Parser::parse_atom`: one atom, without its quantifier. -/
def parseAtom : ℕ → Checked Hir
  | 0 => panic .outOfFuel
  | fuel + 1 => do
    let index ← position
    let unit ← unitAt p.units index
    if unit = ascii '.' then do
      advance
      return .predicate .any
    else if unit = ascii '\\' then parseEscape p
    else if unit = ascii '[' then parseCharacterClass p fuel
    else if unit = ascii '(' then parseGroup fuel
    else if unit = ascii '^' then do
      advance
      return .assertion .lineStart
    else if unit = ascii '$' then do
      advance
      return .assertion .lineEnd
    else if isRepetitionOperator unit then do
      let stop ← successor index
      refuse p index stop
    else do
      advance
      return p.literal unit

/-- `Parser::parse_group`, up to the first unit of the body. -/
def parseGroup : ℕ → Checked Hir
  | 0 => panic .outOfFuel
  | fuel + 1 => do
    let start ← position
    advance
    let question ← currentIs p '?'
    if question then do
      advance
      let colon ← currentIs p ':'
      if !colon then do
        let index ← position
        refuse p start (min index p.units.length)
      else do
        advance
        parseGroupBody fuel start
    else parseGroupBody fuel start

/-- `Parser::parse_group`, from the first unit of the body on. -/
def parseGroupBody : ℕ → ℕ → Checked Hir
  | 0, _ => panic .outOfFuel
  | fuel + 1, start => do
    let closed ← currentIs p ')'
    if closed then do
      advance
      return .never
    else do
      let reached ← nestingReached
      if reached then fail (.patternNestingTooDeep p.patternId maxGroupNesting)
      else do
        enterGroup
        let expression ← thenLeaveGroup (parseAlternation fuel true)
        let closed ← currentIs p ')'
        if !closed then refuse p start p.units.length
        else do
          advance
          return expression

end

/-! ### Whole texts -/

/-- The loop of `Parser::consume_flag_prefix`. -/
def readFlags : ℕ → ℕ → Bool → Bool → Checked (Bool × Bool × ℕ)
  | 0, _, _, _ => panic .outOfFuel
  | fuel + 1, cursor, sawFlag, sawCaseInsensitive =>
    match p.units[cursor]? with
    | none => return (sawFlag, sawCaseInsensitive, cursor)
    | some unit =>
      if unit = ascii 'i' then do
        let next ← successor cursor
        readFlags fuel next true true
      else if unit = ascii 's' then do
        let next ← successor cursor
        readFlags fuel next true sawCaseInsensitive
      else return (sawFlag, sawCaseInsensitive, cursor)

/-- `self.index = index`. -/
def setIndex (index : ℕ) : Checked Unit := fun cursor => .ok ((), { cursor with index := index })

/-- `Parser::consume_flag_prefix`, with the parser that goes on. -/
def consumeFlagPrefix (fuel : ℕ) : Checked Parser :=
  if getRange p.units 0 2 ≠ some [ascii '(', ascii '?'] then return p
  else do
    let (sawFlag, sawCaseInsensitive, cursor) ← readFlags p fuel 2 false false
    if sawFlag && p.currentIs cursor ')' then do
      let next ← successor cursor
      setIndex next
      return { p with caseInsensitive := p.caseInsensitive || sawCaseInsensitive }
    else return p

/-- The test of `parse_with_flags` for patterns that only match the empty word. -/
def zeroWidth (expression : Hir) : Bool :=
  expression.nullable && expression.minimumConsumed == some 0 && !expression.canConsume

/-- The tests of `parse_with_flags` behind the expression. -/
def finishPattern (expression : Hir) : Checked Hir := do
  let index ← position
  if index ≠ p.units.length then do
    let stop ← successor index
    refuse p index stop
  else if zeroWidth expression then refuse p 0 p.units.length
  else return expression

/-- `parse_with_flags`, for the parser `p` that it makes. -/
def parseWithFlags (fuel : ℕ) : Checked Hir :=
  if p.units.isEmpty then fail (.emptyPattern p.patternId)
  else do
    let p ← consumeFlagPrefix p fuel
    let expression ← parseAlternation p fuel false
    finishPattern p expression

end Productions

end Checked

/-- Before the first unit. -/
def Cursor.start : Cursor := ⟨0, 0, 0, 0⟩

end Rustmatch

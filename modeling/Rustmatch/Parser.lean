import Rustmatch.Hir

/-!
# The parser

`parser.rs`: a recursive-descent parser for patterns as UTF-16 code units. It walks the units by
index. A result carries the index behind what was read together with a proof that the parser never
went back, from which all recursion ends. The case table of `case_fold.rs` is a parameter.

The mutable state of the source is the index and the number of open groups; both are arguments here.
The loop of `parse_sequence` is `parseItems`, that of `parse_alternation` is `parseBranches`.

## Main definitions

* `Parser.parseAlternation`, `parseSequence`, `parseAtom`, `parseGroup`;
* `Parser.parseExpression`: a whole text.
-/

namespace Rustmatch

/-- `MAX_COUNTED_REPETITION`: the greatest count in a repetition. -/
def maxCountedRepetition : ℕ := 1000

/-- `MAX_GROUP_NESTING`: how many groups may be open. -/
def maxGroupNesting : ℕ := 256

/-- `u16::from` of an ASCII character. -/
def ascii (character : Char) : UInt16 := UInt16.ofNat character.toNat

/-- `is_repetition_operator`: the unit begins a quantifier. -/
def isRepetitionOperator (unit : UInt16) : Bool :=
  unit ∈ [0x3f, 0x2a, 0x2b, 0x7b]

/-- `is_escaped_literal`: behind a backslash the unit stands for itself. -/
def isEscapedLiteral (unit : UInt16) : Bool :=
  unit ∈ [0x5c, 0x2e, 0x2a, 0x2b, 0x3f, 0x5b, 0x5d, 0x28, 0x29, 0x7c, 0x5e, 0x24, 0x2d, 0x7b, 0x7d]

/-- `is_shorthand`: behind a backslash the unit is a class. -/
def isShorthand (unit : UInt16) : Bool :=
  unit ∈ [0x64, 0x44, 0x77, 0x57, 0x73, 0x53]

/-- `shorthand`, for the units that it is called with. -/
def shorthand (unit : UInt16) (h : isShorthand unit = true) : SymbolPredicate :=
  if hd : unit = 0x64 then .digit
  else if hD : unit = 0x44 then SymbolPredicate.digit.complement
  else if hw : unit = 0x77 then .word
  else if hW : unit = 0x57 then SymbolPredicate.word.complement
  else if hs : unit = 0x73 then .whitespace
  else if hS : unit = 0x53 then SymbolPredicate.whitespace.complement
  else absurd h (by simp [isShorthand, hd, hD, hw, hW, hs, hS])

/-- `ClassToken`: what `parse_class_token` reads inside a class. -/
inductive ClassToken where
  /-- A literal and its index. -/
  | literal (unit : UInt16) (position : ℕ)
  /-- A shorthand class. -/
  | predicate (predicate : SymbolPredicate)
  /-- A dash and its index. -/
  | rangeMarker (position : ℕ)

/-- How case is treated. -/
structure CaseRules where
  /-- Whether case is disregarded. -/
  caseInsensitive : Bool
  /-- `case_fold::lower_upper`. -/
  lowerUpper : UInt16 → UInt16 × UInt16

namespace CaseRules

/-- `Parser::literal`: one unit, with its other cases if case is disregarded. -/
def literal (rules : CaseRules) (symbol : UInt16) : Hir :=
  if !rules.caseInsensitive then .symbol symbol
  else
    let (lower, upper) := rules.lowerUpper symbol
    if lower = upper then .symbol symbol
    else .predicate ((SymbolPredicate.empty.insert lower).insert upper)

/-- `Parser::insert_class_literal`: insert one unit, with its other cases if case is disregarded. -/
def insertClassLiteral (rules : CaseRules) (predicate : SymbolPredicate) (symbol : UInt16) :
    SymbolPredicate :=
  let predicate := predicate.insert symbol
  if rules.caseInsensitive then
    let (lower, upper) := rules.lowerUpper symbol
    (predicate.insert lower).insert upper
  else predicate

/-- `Parser::insert_class_range`; `none` stands for the answer `false`. -/
def insertClassRange (rules : CaseRules) (predicate : SymbolPredicate) (start stop : UInt16) :
    Option SymbolPredicate := do
  let predicate ← predicate.insertRange start stop
  if rules.caseInsensitive then
    let (startLower, startUpper) := rules.lowerUpper start
    let (stopLower, stopUpper) := rules.lowerUpper stop
    if startLower ≠ startUpper ∧ stopLower ≠ stopUpper then
      let predicate ←
        if (start, stop) ≠ (startLower, stopLower) then predicate.insertRange startLower stopLower
        else some predicate
      if (start, stop) ≠ (startUpper, stopUpper) then predicate.insertRange startUpper stopUpper
      else some predicate
    else some predicate
  else some predicate

end CaseRules

/-- `Parser`, without its index and its number of open groups. -/
structure Parser extends CaseRules where
  /-- The identity of the pattern, for diagnostics. -/
  patternId : PatternId
  /-- The text of the pattern. -/
  units : List UInt16

/-- A value that was read from `start` on, and the index behind it. -/
structure Parsed (start : ℕ) (α : Type) where
  /-- What was read. -/
  value : α
  /-- The index behind it. -/
  index : ℕ
  /-- The parser never goes back. -/
  start_le : start ≤ index

namespace Parsed

variable {α : Type} {start start' : ℕ}

/-- What was read from `start` on was read from an earlier index on. -/
def weaken (h : start' ≤ start) (parsed : Parsed start α) : Parsed start' α :=
  ⟨parsed.value, parsed.index, Nat.le_trans h parsed.start_le⟩

end Parsed

namespace Parser

/-- `invalid`, with the conversions of `span` and `position`. -/
def invalid (p : Parser) (start stop : ℕ) : Error :=
  if start < 2 ^ 64 ∧ stop < 2 ^ 64 then .invalidPattern p.patternId ⟨start, stop⟩
  else .patternTooLarge p.patternId

/-- `Parser::current_is`: a character stands at the index. -/
def currentIs (p : Parser) (index : ℕ) (expected : Char) : Bool :=
  p.units[index]? == some (ascii expected)

/-! ### Escapes -/

/-- `Parser::parse_escape`: what follows a backslash outside a class. -/
def parseEscape (p : Parser) (index : ℕ) : Except Error (Parsed (index + 1) Hir) :=
  match p.units[index + 1]? with
  | none => .error (p.invalid index (index + 1))
  | some escaped =>
    let read expression := .ok ⟨expression, index + 2, Nat.le_succ _⟩
    if isEscapedLiteral escaped then read (p.literal escaped)
    else if escaped = ascii 'n' then read (.symbol 0x0a)
    else if escaped = ascii 't' then read (.symbol 0x09)
    else if escaped = ascii 'r' then read (.symbol 0x0d)
    else if escaped = ascii 'f' then read (.symbol 0x0c)
    else if h : isShorthand escaped = true then read (.predicate (shorthand escaped h))
    else if escaped = 0x62 then read (.assertion .wordBoundary)
    else if escaped = 0x42 then read (.assertion .nonWordBoundary)
    else .error (p.invalid index (index + 2))

/-! ### Character classes -/

/-- `Parser::parse_class_token`: a literal, a shorthand or a dash inside a class. -/
def parseClassToken (p : Parser) (index : ℕ) (h : index < p.units.length) :
    Except Error (Parsed (index + 1) ClassToken) :=
  let unit := p.units[index]
  if unit = ascii '-' then .ok ⟨.rangeMarker index, index + 1, Nat.le_refl _⟩
  else if unit ≠ ascii '\\' then .ok ⟨.literal unit index, index + 1, Nat.le_refl _⟩
  else
    match p.units[index + 1]? with
    | none => .error (p.invalid index (index + 1))
    | some escaped =>
      let read token := .ok ⟨token, index + 2, Nat.le_succ _⟩
      if escaped ∈ [0x5c, 0x5d, 0x5b, 0x2d, 0x5e] then read (.literal escaped index)
      else if escaped = ascii 'n' then read (.literal 0x0a index)
      else if escaped = ascii 't' then read (.literal 0x09 index)
      else if escaped = ascii 'r' then read (.literal 0x0d index)
      else if escaped = ascii 'f' then read (.literal 0x0c index)
      else if hshorthand : escaped ∈ [0x64, 0x77, 0x73] then
        read (.predicate (shorthand escaped (by simp_all [isShorthand]; tauto)))
      else .error (p.invalid index (index + 2))

/-- The variables of the loop of `Parser::parse_character_class`. -/
structure ClassState where
  /-- The units inserted so far. -/
  predicate : SymbolPredicate
  /-- The last literal and its index, while it may still begin a range. -/
  pendingLiteral : Option (UInt16 × ℕ)
  /-- The literal that a range has begun with, once its dash has been read. -/
  rangeStart : Option (UInt16 × ℕ)

/-- Before the first token. -/
def ClassState.initial : ClassState := ⟨.empty, none, none⟩

/-- Inserts the literal that waits for a range marker. -/
def ClassState.flush (state : ClassState) (p : Parser) : SymbolPredicate :=
  match state.pendingLiteral with
  | some (symbol, _) => p.insertClassLiteral state.predicate symbol
  | none => state.predicate

/-- What the loop does with a token; `index` is the index behind it. -/
def ClassState.push (state : ClassState) (p : Parser) (classStart index : ℕ) :
    ClassToken → Except Error ClassState
  | .literal symbol position =>
    match state.rangeStart with
    | some (start, rangePosition) =>
      match p.insertClassRange state.predicate start symbol with
      | some predicate => .ok { state with predicate := predicate, rangeStart := none }
      | none => .error (p.invalid rangePosition index)
    | none =>
      .ok { state with predicate := state.flush p, pendingLiteral := some (symbol, position) }
  | .predicate members =>
    if state.rangeStart.isSome then .error (p.invalid classStart index)
    else .ok { state with predicate := (state.flush p).union members, pendingLiteral := none }
  | .rangeMarker position =>
    match state.pendingLiteral with
    | none => .error (p.invalid position index)
    | some start => .ok { state with pendingLiteral := none, rangeStart := some start }

/-- The loop of `Parser::parse_character_class`, up to the closing bracket. -/
def parseClassItems (p : Parser) (classStart index : ℕ) (state : ClassState) :
    Except Error (Parsed index SymbolPredicate) :=
  if h : index < p.units.length then
    if p.units[index] = ascii ']' then
      if state.rangeStart.isSome then .error (p.invalid classStart (index + 1))
      else .ok ⟨state.flush p, index + 1, Nat.le_succ _⟩
    else do
      let token ← p.parseClassToken index h
      let state ← state.push p classStart token.index token.value
      let rest ← parseClassItems p classStart token.index state
      return rest.weaken (Nat.le_trans (Nat.le_succ _) token.start_le)
  else .error (p.invalid classStart index)
termination_by p.units.length - index
decreasing_by
  have := token.start_le
  omega

/-- `Parser::parse_character_class`, from the first token on. -/
def parseClassBody (p : Parser) (classStart first : ℕ) (inverted : Bool) :
    Except Error (Parsed first Hir) := do
  let items ← p.parseClassItems classStart first .initial
  return ⟨.predicate (if inverted then items.value.complement else items.value), items.index,
    items.start_le⟩

/-- `Parser::parse_character_class`: what follows a bracket. -/
def parseCharacterClass (p : Parser) (index : ℕ) : Except Error (Parsed (index + 1) Hir) :=
  if p.currentIs (index + 1) '^' then do
    let inverted ← p.parseClassBody index (index + 2) true
    return inverted.weaken (Nat.le_succ _)
  else p.parseClassBody index (index + 1) false

/-! ### Repetitions -/

/-- `u32::MAX`. -/
def u32Max : ℕ := 2 ^ 32 - 1

/-- The value of a count with one more digit, kept just above the largest count that is allowed. -/
def countDigit (value digit : ℕ) : ℕ :=
  min (min (min (value * 10) u32Max + digit) u32Max) (maxCountedRepetition + 1)

/-- The loop of `Parser::parse_count`. -/
def parseDigits (p : Parser) (index value : ℕ) : Parsed index ℕ :=
  match _h : p.units[index]? with
  | none => ⟨value, index, Nat.le_refl _⟩
  | some unit =>
    if ascii '0' ≤ unit ∧ unit ≤ ascii '9' then
      (parseDigits p (index + 1) (countDigit value (unit - ascii '0').toNat)).weaken (Nat.le_succ _)
    else ⟨value, index, Nat.le_refl _⟩
termination_by p.units.length - index
decreasing_by
  obtain ⟨hlt, -⟩ := List.getElem?_eq_some_iff.mp _h
  omega

/-- `Parser::parse_count`: the digits of a count. -/
def parseCount (p : Parser) (quantifierStart index : ℕ) : Except Error (Parsed index ℕ) :=
  let digits := p.parseDigits index 0
  if digits.index = index ∨ digits.value > maxCountedRepetition then
    .error (p.invalid quantifierStart (min (max digits.index (index + 1)) p.units.length))
  else .ok digits

/-- The upper bound of `Parser::parse_counted_repetition`, behind the lower one. -/
def parseLimit (p : Parser) (start index count : ℕ) : Except Error (Parsed index (Option ℕ)) :=
  if p.currentIs index '}' then .ok ⟨some count, index + 1, Nat.le_succ _⟩
  else if p.currentIs index ',' then
    if p.currentIs (index + 1) '}' then .ok ⟨none, index + 2, by omega⟩
    else do
      let limit ← p.parseCount start (index + 1)
      if !p.currentIs limit.index '}' then
        .error (p.invalid start (min limit.index p.units.length))
      else .ok ⟨some limit.value, limit.index + 1, by have := limit.start_le; omega⟩
  else .error (p.invalid start (min index p.units.length))

/-- The bounds that `Parser::parse_counted_repetition` refuses. -/
def badBounds (count : ℕ) (limit : Option ℕ) : Bool :=
  limit.any (· < count) || limit == some 0 || maxCountedRepetition < count ||
    limit.any (maxCountedRepetition < ·)

/-- `Parser::parse_counted_repetition`: what follows a brace. -/
def parseCountedRepetition (p : Parser) (expression : Hir) (index : ℕ) :
    Except Error (Parsed index Hir) := do
  let count ← p.parseCount index (index + 1)
  let limit ← p.parseLimit index count.index count.value
  if badBounds count.value limit.value then .error (p.invalid index limit.index)
  else return ⟨.mkRepeat expression count.value limit.value, limit.index, by
    have := count.start_le
    have := limit.start_le
    omega⟩

/-- A repetition is not followed by another repetition operator. -/
def finishRepetition (p : Parser) (start : ℕ) (repeated : Parsed start Hir) :
    Except Error (Parsed start Hir) :=
  if (p.units[repeated.index]?).any isRepetitionOperator then
    .error (p.invalid start (repeated.index + 1))
  else .ok repeated

/-- `Parser::parse_repetition`: a quantifier behind an atom, if there is one. -/
def parseRepetition (p : Parser) (expression : Hir) (index : ℕ) :
    Except Error (Parsed index Hir) :=
  if p.currentIs index '?' then
    p.finishRepetition index ⟨.mkRepeat expression 0 (some 1), index + 1, Nat.le_succ _⟩
  else if p.currentIs index '*' then
    p.finishRepetition index ⟨.mkRepeat expression 0 none, index + 1, Nat.le_succ _⟩
  else if p.currentIs index '+' then
    p.finishRepetition index ⟨.mkRepeat expression 1 none, index + 1, Nat.le_succ _⟩
  else if p.currentIs index '{' then do
    let repeated ← p.parseCountedRepetition expression index
    p.finishRepetition index repeated
  else .ok ⟨expression, index, Nat.le_refl _⟩

/-! ### Expressions -/

mutual

/-- `Parser::parse_alternation`: branches, up to the end of the text or of the group. -/
def parseAlternation (p : Parser) (inGroup : Bool) (groupDepth index : ℕ) :
    Except Error (Parsed index Hir) := do
  let first ← p.parseSequence inGroup groupDepth index
  let rest ← p.parseBranches inGroup groupDepth first.index
  return ⟨.mkAlternation (first.value :: rest.value), rest.index,
    Nat.le_trans first.start_le rest.start_le⟩
termination_by (p.units.length - index, 5)
decreasing_by
  · exact Prod.Lex.right _ (by decide)
  · have := first.start_le
    exact Prod.Lex.right' _ (by omega) (by decide)

/-- The loop of `Parser::parse_alternation`: the branches behind the first one. -/
def parseBranches (p : Parser) (inGroup : Bool) (groupDepth index : ℕ) :
    Except Error (Parsed index (List Hir)) :=
  if h : p.currentIs index '|' = true then
    if index + 1 = p.units.length ∨ (inGroup ∧ p.currentIs (index + 1) ')') then
      .ok ⟨[], index + 1, Nat.le_succ _⟩
    else do
      let branch ← p.parseSequence inGroup groupDepth (index + 1)
      let rest ← p.parseBranches inGroup groupDepth branch.index
      return ⟨branch.value :: rest.value, rest.index, by
        have := branch.start_le
        have := rest.start_le
        omega⟩
  else .ok ⟨[], index, Nat.le_refl _⟩
termination_by (p.units.length - index, 4)
decreasing_by
  · obtain ⟨hlt, -⟩ := List.getElem?_eq_some_iff.mp (eq_of_beq h)
    exact Prod.Lex.left _ _ (by omega)
  · obtain ⟨hlt, -⟩ := List.getElem?_eq_some_iff.mp (eq_of_beq h)
    have := branch.start_le
    exact Prod.Lex.left _ _ (by omega)

/-- `Parser::parse_sequence`: the items of one branch. -/
def parseSequence (p : Parser) (inGroup : Bool) (groupDepth index : ℕ) :
    Except Error (Parsed index Hir) := do
  let items ← p.parseItems inGroup groupDepth index
  return ⟨.mkSequence items.value, items.index, items.start_le⟩
termination_by (p.units.length - index, 3)
decreasing_by exact Prod.Lex.right _ (by decide)

/-- The loop of `Parser::parse_sequence`. -/
def parseItems (p : Parser) (inGroup : Bool) (groupDepth index : ℕ) :
    Except Error (Parsed index (List Hir)) :=
  if h : index < p.units.length then
    let unit := p.units[index]
    if unit = ascii '|' ∨ (inGroup ∧ unit = ascii ')') then .ok ⟨[], index, Nat.le_refl _⟩
    else if unit = ascii ')' then .error (p.invalid index (index + 1))
    else do
      let atom ← p.parseAtom groupDepth index h
      let item ← p.parseRepetition atom.value atom.index
      let rest ← p.parseItems inGroup groupDepth item.index
      return ⟨item.value :: rest.value, rest.index, by
        have := atom.start_le
        have := item.start_le
        have := rest.start_le
        omega⟩
  else .ok ⟨[], index, Nat.le_refl _⟩
termination_by (p.units.length - index, 2)
decreasing_by
  · exact Prod.Lex.right _ (by decide)
  · have := atom.start_le
    have := item.start_le
    exact Prod.Lex.left _ _ (by omega)

/-- `Parser::parse_atom`: one atom, without its quantifier. -/
def parseAtom (p : Parser) (groupDepth index : ℕ) (h : index < p.units.length) :
    Except Error (Parsed (index + 1) Hir) :=
  let unit := p.units[index]
  let read expression := .ok ⟨expression, index + 1, Nat.le_refl _⟩
  if unit = ascii '.' then read (.predicate .any)
  else if unit = ascii '\\' then p.parseEscape index
  else if unit = ascii '[' then p.parseCharacterClass index
  else if unit = ascii '(' then p.parseGroup groupDepth index h
  else if unit = ascii '^' then read (.assertion .lineStart)
  else if unit = ascii '$' then read (.assertion .lineEnd)
  else if isRepetitionOperator unit then .error (p.invalid index (index + 1))
  else read (p.literal unit)
termination_by (p.units.length - index, 1)
decreasing_by exact Prod.Lex.right _ (by decide)

/-- `Parser::parse_group`, up to the first unit of the body. -/
def parseGroup (p : Parser) (groupDepth index : ℕ) (_h : index < p.units.length) :
    Except Error (Parsed (index + 1) Hir) :=
  if p.currentIs (index + 1) '?' then
    if !p.currentIs (index + 2) ':' then
      .error (p.invalid index (min (index + 2) p.units.length))
    else do
      let group ← p.parseGroupBody groupDepth index (index + 3)
      return group.weaken (by omega)
  else p.parseGroupBody groupDepth index (index + 1)
termination_by (p.units.length - index, 0)
decreasing_by all_goals exact Prod.Lex.left _ _ (by omega)

/-- `Parser::parse_group`, from the first unit of the body on. -/
def parseGroupBody (p : Parser) (groupDepth start index : ℕ) :
    Except Error (Parsed index Hir) :=
  if p.currentIs index ')' then .ok ⟨.never, index + 1, Nat.le_succ _⟩
  else if groupDepth = maxGroupNesting then
    .error (.patternNestingTooDeep p.patternId maxGroupNesting)
  else do
    let expression ← p.parseAlternation true (groupDepth + 1) index
    if !p.currentIs expression.index ')' then .error (p.invalid start p.units.length)
    else return ⟨expression.value, expression.index + 1,
      Nat.le_succ_of_le expression.start_le⟩
termination_by (p.units.length - index, 6)
decreasing_by exact Prod.Lex.right _ (by decide)

end

/-- The loop of `Parser::consume_flag_prefix` from `cursor` on: whether there was a flag, whether
one of them was `i`, and the cursor behind the flags. -/
def readFlags (p : Parser) (cursor : ℕ) (sawFlag sawCaseInsensitive : Bool) : Bool × Bool × ℕ :=
  if h : cursor < p.units.length then
    if p.units[cursor] = ascii 'i' then p.readFlags (cursor + 1) true true
    else if p.units[cursor] = ascii 's' then p.readFlags (cursor + 1) true sawCaseInsensitive
    else (sawFlag, sawCaseInsensitive, cursor)
  else (sawFlag, sawCaseInsensitive, cursor)
termination_by p.units.length - cursor

/-- `Parser::consume_flag_prefix`: the parser with its flag, and the index behind the prefix. -/
def consumeFlagPrefix (p : Parser) : Parser × ℕ :=
  if getRange p.units 0 2 ≠ some [ascii '(', ascii '?'] then (p, 0)
  else
    let (sawFlag, sawCaseInsensitive, cursor) := p.readFlags 2 false false
    if sawFlag && p.currentIs cursor ')' then
      ({ p with caseInsensitive := p.caseInsensitive || sawCaseInsensitive }, cursor + 1)
    else (p, 0)

/-- A whole text: the parser of `parse_with_flags`, up to the test for patterns of width zero. -/
def parseExpression (p : Parser) : Except Error Hir :=
  let (p, index) := p.consumeFlagPrefix
  do
    let expression ← p.parseAlternation false 0 index
    if expression.index ≠ p.units.length then
      .error (p.invalid expression.index (expression.index + 1))
    else return expression.value

end Parser

end Rustmatch

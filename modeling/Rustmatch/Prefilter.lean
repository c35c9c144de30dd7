import Mathlib.Algebra.Order.Floor.Div
import Rustmatch.Cache
import Rustmatch.ToMathlib.WordBits

/-!
# Candidate starts

`prefilter.rs`: filters that rule out starts before the engine runs. The start table holds the
first symbols and the pairs of first symbols that the compiled graph can read. The literal filter
holds the first three, four or five units of a prefix that every pattern must begin with. A plan
chooses which filter a scan uses, after a look at how dense the candidates of a sample are.

The tables of one partition and the union of the tables of several are asked the same way, with
`PrefixTables.allows`.
-/

open MarkedSearch WordBits

namespace Rustmatch

/-- `MIN_LITERAL_PATTERN_COUNT`: with fewer patterns the literal filter is not used. -/
def minLiteralPatternCount : ℕ := 256

/-- `MIN_LITERAL_INPUT_UNITS`: on shorter texts the literal filter is not used. -/
def minLiteralInputUnits : ℕ := 1024 * 1024

/-- `MIN_LITERAL_UNITS`: shorter literals are not kept. -/
def minLiteralUnits : ℕ := 3

/-- `MAX_LITERAL_UNITS`: the length that literals are cut off at. -/
def maxLiteralUnits : ℕ := 32

/-- `DENSITY_SAMPLE_UNITS`: the length of the sample that decides on density. -/
def densitySampleUnits : ℕ := 64 * 1024

/-- `ASCII_TRIPLE_WORDS`: the words for all triples of ASCII units. -/
def asciiTripleWords : ℕ := 128 * 128 * 128 / 64

/-- `FOUR_PREFIX_HASH_WORDS`: the words for the hashes of four units. -/
def fourPrefixHashWords : ℕ := 2 ^ 19 / 64

/-- `FIVE_PREFIX_HASH_WORDS`: the words for the hashes of five units. -/
def fivePrefixHashWords : ℕ := 2 ^ 20 / 64

/-- A word of a bit table. -/
abbrev Word := BitVec 64

/-! ### Candidate bitmaps -/

/-- `CandidateBitmap`: a set of starts as bits of machine words, with its size. -/
structure CandidateBitmap where
  /-- The bits, in words of 64. -/
  words : List Word
  /-- The number of set bits. -/
  startCount : ℕ
  /-- The number of bits in use. -/
  bitLen : ℕ

namespace CandidateBitmap

/-- `CandidateBitmap::new`: a bitmap without starts. -/
def new (bitLen : ℕ) : CandidateBitmap where
  words := List.replicate (bitLen ⌈/⌉ 64) 0#64
  startCount := 0
  bitLen := bitLen

/-- `CandidateBitmap::insert`: add a start. -/
def insert (candidates : CandidateBitmap) (start : ℕ) : CandidateBitmap :=
  if containsBit candidates.words start then candidates
  else { candidates with
    words := setBit candidates.words start
    startCount := candidates.startCount + 1 }

/-- `CandidateBitmap::copy_prefix`: take over the starts of a sample. -/
def copyPrefix (candidates sample : CandidateBitmap) : CandidateBitmap :=
  { candidates with
    words := sample.words ++ candidates.words.drop sample.words.length
    startCount := sample.startCount }

/-- `CandidateBitmap::count`: the number of starts. -/
def count (candidates : CandidateBitmap) : ℕ := candidates.startCount

/-- `CandidateBitmap::iter`: the starts in order. -/
def iter (candidates : CandidateBitmap) : List ℕ := members candidates.words

end CandidateBitmap

/-- Inserts the starts that a filter allows and counts them: the loop of `scan_starts` and of
`scan_assertion_prefix`. -/
def insertAllowed (allows : ℕ → Bool) (starts : List ℕ) (found : CandidateBitmap × ℕ) :
    CandidateBitmap × ℕ :=
  starts.foldl (fun found start =>
    if allows start then (found.1.insert start, min (found.2 + 1) (2 ^ 64 - 1)) else found) found

/-! ### The start table -/

/-- `ClosureScratch`; the stack is empty between calls. -/
structure ClosureScratch where
  /-- The generation in which a state was last met. -/
  seen : List UInt32
  /-- The current generation. -/
  generation : UInt32

namespace ClosureScratch

/-- `ClosureScratch::new`. -/
def new (stateCount : ℕ) : ClosureScratch := ⟨List.replicate stateCount 0, 0⟩

/-- The sorted closure of the states on the stack, in a new generation of marks. -/
def closeStack (database : PatternDatabase) (stack : List StateId) (scratch : ClosureScratch) :
    List StateId × ClosureScratch :=
  let stamps := nextGeneration scratch.seen scratch.generation
  let drained := drain (generationMarks stamps.2) database.epsilonTargets stamps.1 stack []
  (drained.2.mergeSort (· ≤ ·), ⟨drained.1, stamps.2⟩)

/-- `ClosureScratch::epsilon_closure_into`: the states that epsilon edges lead to, in order. -/
def epsilonClosureInto (database : PatternDatabase) (seeds : List StateId)
    (scratch : ClosureScratch) : List StateId × ClosureScratch :=
  scratch.closeStack database seeds.reverse

/-- `ClosureScratch::transition_into`: the closure of what a symbol leads to. -/
def transitionInto (database : PatternDatabase) (source : List StateId) (symbol : UInt16)
    (scratch : ClosureScratch) : List StateId × ClosureScratch :=
  scratch.closeStack database (database.matchingTargets source symbol).reverse

end ClosureScratch

/-- `StartTable`: the ASCII units, and the pairs of them, that a match may begin with. -/
structure StartTable where
  /-- One bit for each ASCII unit that a match may begin with. -/
  firstAscii : List Word
  /-- One bit for each pair of ASCII units that a match may begin with. -/
  pairAscii : List Word

namespace StartTable

variable (database : PatternDatabase)

/-- One round of the loop over the second symbols. -/
def addSecond (first : ℕ) (firstStates : List StateId) (acceptsAfterFirst : Bool)
    (built : ClosureScratch × List Word) (second : ℕ) : ClosureScratch × List Word :=
  let pair := first * 128 + second
  if acceptsAfterFirst then (built.1, setBit built.2 pair)
  else
    let (secondStates, scratch) :=
      built.1.transitionInto database firstStates (UInt16.ofNat second)
    (scratch, if secondStates.isEmpty then built.2 else setBit built.2 pair)

/-- One round of the loop over the first symbols. -/
def addFirst (root : List StateId) (built : ClosureScratch × StartTable) (first : ℕ) :
    ClosureScratch × StartTable :=
  let (firstStates, scratch) := built.1.transitionInto database root (UInt16.ofNat first)
  if firstStates.isEmpty then (scratch, built.2)
  else
    let acceptsAfterFirst := firstStates.any fun state => !(database.terminalsAt state).isEmpty
    let pairs := (List.range 128).foldl (addSecond database first firstStates acceptsAfterFirst)
      (scratch, built.2.pairAscii)
    (pairs.1, ⟨setBit built.2.firstAscii first, pairs.2⟩)

/-- `StartTable::compile`: the units and pairs of units that lead from the root to a state. -/
def compile : Option StartTable :=
  if database.usesAssertions then none
  else
    let closure := ClosureScratch.new database.stateCount
    let (root, closure) := closure.epsilonClosureInto database [database.root]
    some ((List.range 128).foldl (addFirst database root)
      (closure, ⟨List.replicate 2 0#64, List.replicate 256 0#64⟩)).2

/-- `StartTable::allows`: a match may begin at a start. -/
def allows (table : StartTable) (input : List UInt16) (start : ℕ) : Bool :=
  let first := input.getD start 0
  if 128 ≤ first then true
  else if !containsBit table.firstAscii first.toNat then false
  else
    match input[start + 1]? with
    | none => true
    | some second =>
      if 128 ≤ second then true
      else containsBit table.pairAscii (first.toNat * 128 + second.toNat)

end StartTable

/-! ### Necessary literals -/

/-- `append_bounded`: append, and cut off at the limit. -/
def appendBounded (output suffix : List UInt16) : List UInt16 :=
  output ++ suffix.take (maxLiteralUnits - output.length)

/-- A literal appended a number of times. -/
def appendRepeated (literal : List UInt16) : ℕ → List UInt16 → List UInt16
  | 0, output => output
  | n + 1, output => appendRepeated literal n (appendBounded output literal)

/-- The same, up to the longest length. -/
def appendRepeatedBounded (literal : List UInt16) : ℕ → List UInt16 → List UInt16
  | 0, output => output
  | n + 1, output =>
    let output := appendBounded output literal
    if output.length = maxLiteralUnits then output else appendRepeatedBounded literal n output

namespace Hir

mutual

/-- `exact_literal`: the only text that an expression matches, if there is one. -/
def exactLiteral : Hir → Option (List UInt16)
  | .epsilon => some []
  | .symbol unit => some [unit]
  | .sequence expressions => exactItems expressions []
  | .alternation expressions => exactBranches expressions
  | .repetition expression min (some max) =>
    if min = max then (exactLiteral expression).map fun unit => appendRepeated unit min []
    else none
  | .never | .assertion _ | .predicate _ | .repetition _ _ none => none

/-- The loop over the items of a sequence. -/
def exactItems : List Hir → List UInt16 → Option (List UInt16)
  | [], literal => some literal
  | expression :: rest, literal =>
    match exactLiteral expression with
    | some unit => exactItems rest (appendBounded literal unit)
    | none => none

/-- All branches of an alternation have the literal of the first. -/
def exactBranches : List Hir → Option (List UInt16)
  | [] => none
  | expression :: rest =>
    match exactLiteral expression with
    | some first => if exactBranchesAre first rest then some first else none
    | none => none

/-- `expressions.all(|expression| exact_literal(expression).as_ref() == Some(&first))`. -/
def exactBranchesAre (first : List UInt16) : List Hir → Bool
  | [] => true
  | expression :: rest =>
    exactLiteral expression == some first && exactBranchesAre first rest

end

/-- How far two literals agree. -/
def sharedCount (left right : List UInt16) : ℕ :=
  ((left.zip right).takeWhile fun pair => pair.1 == pair.2).length

mutual

/-- `necessary_prefix`: units that every match begins with. -/
def necessaryPrefix : Hir → List UInt16
  | .symbol unit => [unit]
  | .sequence expressions => necessaryItems expressions []
  | .alternation expressions => necessaryBranches expressions
  | .repetition expression min _ =>
    if min > 0 then
      match exactLiteral expression with
      | some literal => appendRepeatedBounded literal min []
      | none => necessaryPrefix expression
    else []
  | .never | .epsilon | .assertion _ | .predicate _ => []

/-- The loop over the items of a sequence. -/
def necessaryItems : List Hir → List UInt16 → List UInt16
  | [], units => units
  | expression :: rest, units =>
    let units := appendBounded units (necessaryPrefix expression)
    if (exactLiteral expression).isNone || units.length = maxLiteralUnits then units
    else necessaryItems rest units

/-- The first branch of an alternation. -/
def necessaryBranches : List Hir → List UInt16
  | [] => []
  | expression :: rest => necessaryShared (necessaryPrefix expression) rest

/-- The loop over the other branches. -/
def necessaryShared (units : List UInt16) : List Hir → List UInt16
  | [] => units
  | expression :: rest =>
    let units := units.take (sharedCount units (necessaryPrefix expression))
    if units.isEmpty then units else necessaryShared units rest

end

end Hir

/-- `NecessaryLiteral`: units that every match of a pattern begins with. -/
structure NecessaryLiteral where
  /-- The ordinal of the pattern. -/
  ordinal : ℕ
  /-- Where in a match the literal stands. -/
  offset : ℕ
  /-- The units of the literal. -/
  units : List UInt16
deriving DecidableEq, Repr

/-- `NecessaryLiteral::from_pattern`: the necessary prefix of a pattern, if it is long enough. -/
def NecessaryLiteral.fromPattern (ordinal : ℕ) (expression : Hir) : Option NecessaryLiteral :=
  let units := expression.necessaryPrefix.take maxLiteralUnits
  if minLiteralUnits ≤ units.length then some ⟨ordinal, 0, units⟩ else none

/-! ### Literal tables -/

/-- `ascii_triple_index`: the bit of three ASCII units. -/
def asciiTripleIndex (first second third : UInt16) : ℕ :=
  first.toNat <<< 14 ||| second.toNat <<< 7 ||| third.toNat

/-- `prefix_hash_index`: the bit of the hash of some units. -/
def prefixHashIndex (units : List UInt16) (bitCount : ℕ) : ℕ :=
  (units.foldl (fun hash symbol => hashByte hash symbol.toUInt64) 0xcbf29ce484222325 &&&
    UInt64.ofNat (bitCount - 1)).toNat

/-- The bit tables of `LiteralPrefilter` and of `UnionLiteralFilter`. -/
structure PrefixTables where
  /-- One bit for each literal of three ASCII units. -/
  asciiThreeExact : List Word
  /-- The hashes of the literals of four units. -/
  asciiFourHash : List Word
  /-- The hashes of the first five units of longer literals. -/
  asciiFiveHash : List Word
  /-- Whether there is a literal of three units. -/
  hasThree : Bool
  /-- Whether there is a literal of four units. -/
  hasFour : Bool
  /-- Whether there is a longer literal. -/
  hasFive : Bool

namespace PrefixTables

/-- Whether a start is allowed by the three, four or five units from it on; `fourBits` and
`fiveBits` are the sizes that the hashes are reduced to. -/
def allows (tables : PrefixTables) (fourBits fiveBits : ℕ) (input : List UInt16) (start : ℕ) :
    Bool :=
  let triple := (input.drop start).take minLiteralUnits
  if triple.any (128 ≤ ·) then true
  else if tables.hasThree && containsBit tables.asciiThreeExact
      (asciiTripleIndex (triple.getD 0 0) (triple.getD 1 0) (triple.getD 2 0)) then true
  else
    match getRange input start (start + 4) with
    | none => false
    | some four =>
      if 128 ≤ four.getD 3 0 then true
      else if tables.hasFour &&
          containsBit tables.asciiFourHash (prefixHashIndex four fourBits) then
        true
      else
        match getRange input start (start + 5) with
        | none => false
        | some five =>
          if 128 ≤ five.getD 4 0 then true
          else tables.hasFive && containsBit tables.asciiFiveHash (prefixHashIndex five fiveBits)

end PrefixTables

/-- `LiteralPrefilter`. -/
abbrev LiteralPrefilter := PrefixTables

namespace LiteralPrefilter

/-- One round of the loop over the hints. -/
def add (tables : LiteralPrefilter) (hint : NecessaryLiteral) : LiteralPrefilter :=
  let units := hint.units
  if units.length = 3 then
    { tables with
      hasThree := true
      asciiThreeExact :=
        if (units.take 3).all (· < 128) then
          setBit tables.asciiThreeExact
            (asciiTripleIndex (units.getD 0 0) (units.getD 1 0) (units.getD 2 0))
        else tables.asciiThreeExact }
  else if units.length = 4 then
    { tables with
      hasFour := true
      asciiFourHash :=
        if (units.take 4).all (· < 128) then
          setBit tables.asciiFourHash (prefixHashIndex (units.take 4) (fourPrefixHashWords * 64))
        else tables.asciiFourHash }
  else
    { tables with
      hasFive := true
      asciiFiveHash :=
        if (units.take 5).all (· < 128) then
          setBit tables.asciiFiveHash (prefixHashIndex (units.take 5) (fivePrefixHashWords * 64))
        else tables.asciiFiveHash }

/-- `LiteralPrefilter::compile`. -/
def compile (hints : List NecessaryLiteral) : LiteralPrefilter :=
  hints.foldl add
    { asciiThreeExact := List.replicate asciiTripleWords 0#64
      asciiFourHash := List.replicate fourPrefixHashWords 0#64
      asciiFiveHash := List.replicate fivePrefixHashWords 0#64
      hasThree := false
      hasFour := false
      hasFive := false }

/-- `LiteralPrefilter::prefix_allows`: a literal may stand at a start. -/
def prefixAllows (filter : LiteralPrefilter) (input : List UInt16) (start : ℕ) : Bool :=
  filter.allows (fourPrefixHashWords * 64) (fivePrefixHashWords * 64) input start

/-- The test of `LiteralPrefilter::scan_starts`: three units are left and the filter allows. -/
def admits (filter : LiteralPrefilter) (input : List UInt16) (start : ℕ) : Bool :=
  (checkedAdd start minLiteralUnits).any (· ≤ input.length) && prefixAllows filter input start

end LiteralPrefilter

/-! ### Plans -/

/-- `ScanPlan`: which starts a scan visits, and why. -/
inductive ScanPlan where
  /-- Every start is scanned. -/
  | all (bypass : PrefilterBypass)
  /-- The starts that the table allows. -/
  | startTable (table : StartTable) (bypass : PrefilterBypass)
  /-- The candidates of the literal filter. -/
  | candidates (candidates : CandidateBitmap) (admissions : ℕ)

namespace ScanPlan

/-- `ScanPlan::path`: how the starts are chosen. -/
def path : ScanPlan → PrefilterPath
  | .all _ => .allStarts
  | .startTable _ _ => .startTable
  | .candidates _ _ => .literal

/-- `ScanPlan::bypass`: why the literal filter is not used. -/
def bypass : ScanPlan → PrefilterBypass
  | .all bypass => bypass
  | .startTable _ bypass => bypass
  | .candidates _ _ => .none

/-- `ScanPlan::admissions`: the starts that the literal filter lets pass. -/
def admissions : ScanPlan → ℕ
  | .candidates _ admissions => admissions
  | .all _ | .startTable _ _ => 0

/-- `ScanPlan::candidate_count`: the candidates of the literal filter. -/
def candidateCount : ScanPlan → ℕ
  | .candidates bitmap _ => bitmap.count
  | .all _ | .startTable _ _ => 0

end ScanPlan

/-- `Prefilter`: the tables that starts are looked up in before they are scanned. -/
structure Prefilter where
  /-- The units and pairs that matches begin with, when these are known. -/
  startTable : Option StartTable
  /-- The tables of the necessary literals, when every pattern has one. -/
  literal : Option LiteralPrefilter
  /-- Why there are no such tables. -/
  literalUnavailable : PrefilterBypass

/-- The sample of a plan: the candidates of the first units, and how many were admitted. -/
def sampleCandidates (allows : ℕ → Bool) (length : ℕ) : CandidateBitmap × ℕ :=
  let sampleLen := min length densitySampleUnits
  insertAllowed allows (List.range sampleLen) (CandidateBitmap.new sampleLen, 0)

/-- Whether at least half of the sample are candidates. -/
def isDense (allows : ℕ → Bool) (length : ℕ) : Bool :=
  saturatingMul (sampleCandidates allows length).1.count 2 ≥ min length densitySampleUnits

/-- The candidates of the whole input, once the sample is known. -/
def allCandidates (allows : ℕ → Bool) (length : ℕ) : CandidateBitmap × ℕ :=
  let sample := sampleCandidates allows length
  let sampleLen := min length densitySampleUnits
  insertAllowed allows (List.range' sampleLen (length - sampleLen))
    ((CandidateBitmap.new length).copyPrefix sample.1, sample.2)

namespace Prefilter

/-- `Prefilter::disabled`: no tables. -/
def disabled : Prefilter := ⟨none, none, .disabled⟩

/-- `Prefilter::compile`. -/
def compile (patterns : List HirPattern) (database : PatternDatabase) : Prefilter :=
  if database.usesAssertions then ⟨none, none, .assertions⟩
  else
    let startTable := StartTable.compile database
    if patterns.length < minLiteralPatternCount then ⟨startTable, none, .patternCount⟩
    else
      match patterns.zipIdx.mapM fun item =>
        NecessaryLiteral.fromPattern item.2 item.1.expression with
      | some hints => ⟨startTable, some (LiteralPrefilter.compile hints), .none⟩
      | none => ⟨startTable, none, .unfilterable⟩

/-- `Prefilter::start_or_all`: the start table if there is one, or all starts. -/
def startOrAll (prefilter : Prefilter) (bypass : PrefilterBypass) : ScanPlan :=
  match prefilter.startTable with
  | some table => .startTable table bypass
  | none => .all bypass

/-- `Prefilter::plan`: choose the starts to scan. -/
def plan (prefilter : Prefilter) (input : List UInt16) (enabled literalEnabled : Bool) : ScanPlan :=
  if !enabled then .all .disabled
  else if !literalEnabled then prefilter.startOrAll .literalDisabled
  else
    match prefilter.literal with
    | none => prefilter.startOrAll prefilter.literalUnavailable
    | some filter =>
      if input.length < minLiteralInputUnits then prefilter.startOrAll .inputSize
      else if isDense (filter.admits input) input.length then prefilter.startOrAll .denseSample
      else
        let found := allCandidates (filter.admits input) input.length
        .candidates found.1 found.2

/-- `Prefilter::shared_allows_start`: a start is allowed by the private tables. -/
def sharedAllowsStart (prefilter : Prefilter) (input : List UInt16) (start : ℕ) : Bool :=
  (checkedAdd start minLiteralUnits).any (· ≤ input.length) &&
    prefilter.literal.any fun filter => filter.prefixAllows input start

end Prefilter

end Rustmatch

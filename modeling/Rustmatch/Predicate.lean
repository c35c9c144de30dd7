import Rustmatch.Types

/-!
# Predicates over the complete UTF-16 code-unit domain

`predicate.rs`: a set of code units is a 128-bit mask for the ASCII half and a sorted list of
inclusive ranges for the rest.
-/

namespace Rustmatch

/-- A set of UTF-16 code units. -/
structure SymbolPredicate where
  /-- One bit for each ASCII unit. -/
  ascii : BitVec 128
  /-- The ranges of the other units, with both ends. -/
  nonAsciiRanges : List (UInt16 × UInt16)
deriving DecidableEq, Repr

/-- `ascii_range_mask`: the bits `start ..= stop`, for `start <= stop < 128`. -/
def asciiRangeMask (start stop : UInt16) : BitVec 128 :=
  let belowStop : BitVec 128 :=
    if stop = 127 then BitVec.allOnes 128 else (1#128 <<< (stop.toNat + 1)) - 1#128
  (BitVec.allOnes 128 <<< start.toNat) &&& belowStop

/-- `u16::saturating_add(1)`. -/
def saturatingSucc (unit : UInt16) : UInt16 := if unit = 0xffff then unit else unit + 1

/-- The order of `sort_unstable` on pairs. -/
def rangeLe (left right : UInt16 × UInt16) : Bool :=
  left.1 < right.1 || (left.1 == right.1 && left.2 ≤ right.2)

/-- One round of the merge loop; the last merged range is at the head. -/
def mergeRange (merged : List (UInt16 × UInt16)) (range : UInt16 × UInt16) :
    List (UInt16 × UInt16) :=
  match merged with
  | (previousStart, previousStop) :: rest =>
    if range.1 ≤ saturatingSucc previousStop then
      (previousStart, max previousStop range.2) :: rest
    else range :: merged
  | [] => [range]

/-- `normalize_ranges`: sorts the ranges and merges those that overlap or touch. -/
def normalizeRanges (ranges : List (UInt16 × UInt16)) : List (UInt16 × UInt16) :=
  ((ranges.mergeSort rangeLe).foldl mergeRange []).reverse

namespace SymbolPredicate

/-- `SymbolPredicate::empty`: no unit. -/
def empty : SymbolPredicate := ⟨0#128, []⟩

/-- `SymbolPredicate::any`: every unit. -/
def any : SymbolPredicate := ⟨BitVec.allOnes 128, [(128, 0xffff)]⟩

/-- `SymbolPredicate::insert_range`; `none` stands for the answer `false`, which leaves the
predicate as it was. -/
def insertRange (predicate : SymbolPredicate) (start stop : UInt16) : Option SymbolPredicate :=
  if stop < start then none
  else
    let ascii :=
      if start < 128 then predicate.ascii ||| asciiRangeMask start (min stop 127)
      else predicate.ascii
    let nonAsciiRanges :=
      if 128 ≤ stop then normalizeRanges (predicate.nonAsciiRanges ++ [(max start 128, stop)])
      else predicate.nonAsciiRanges
    some ⟨ascii, nonAsciiRanges⟩

/-- `SymbolPredicate::insert`: one unit more. -/
def insert (predicate : SymbolPredicate) (symbol : UInt16) : SymbolPredicate :=
  (predicate.insertRange symbol symbol).getD predicate

/-- `SymbolPredicate::from_ranges`: the units of some ranges. -/
def fromRanges (ranges : List (UInt16 × UInt16)) : SymbolPredicate :=
  ranges.foldl (fun predicate range => (predicate.insertRange range.1 range.2).getD predicate) empty

/-- `SymbolPredicate::digit`: the ASCII digits. -/
def digit : SymbolPredicate := fromRanges [(0x30, 0x39)]

/-- `SymbolPredicate::word`: the ASCII letters, the digits and the underscore. -/
def word : SymbolPredicate := (fromRanges [(0x61, 0x7a), (0x41, 0x5a), (0x30, 0x39)]).insert 0x5f

/-- `SymbolPredicate::whitespace`: the space and five control characters. -/
def whitespace : SymbolPredicate :=
  [0x20, 0x09, 0x0a, 0x0b, 0x0c, 0x0d].foldl insert empty

/-- `SymbolPredicate::union`: the units of both. -/
def union (left right : SymbolPredicate) : SymbolPredicate :=
  ⟨left.ascii ||| right.ascii, normalizeRanges (left.nonAsciiRanges ++ right.nonAsciiRanges)⟩

/-- The loop of `SymbolPredicate::complement`: the gaps before each range, starting at `next`. -/
def complementRanges : List (UInt16 × UInt16) → ℕ → List (UInt16 × UInt16)
  | [], next => if next < 2 ^ 16 then [(UInt16.ofNat next, 0xffff)] else []
  | (start, stop) :: rest, next =>
    if next < start.toNat then
      (UInt16.ofNat next, start - 1) :: complementRanges rest (stop.toNat + 1)
    else complementRanges rest (stop.toNat + 1)

/-- `SymbolPredicate::complement`: the units that are not matched. -/
def complement (predicate : SymbolPredicate) : SymbolPredicate :=
  ⟨~~~predicate.ascii, complementRanges predicate.nonAsciiRanges 128⟩

/-- `SymbolPredicate::matches`. The ranges are sorted, so the partition point of "ends before the
symbol" is the first range that does not. -/
def «matches» (predicate : SymbolPredicate) (symbol : UInt16) : Bool :=
  if symbol < 128 then predicate.ascii &&& (1#128 <<< symbol.toNat) != 0#128
  else
    match (predicate.nonAsciiRanges.dropWhile fun range => range.2 < symbol).head? with
    | some (start, stop) => start ≤ symbol && symbol ≤ stop
    | none => false

/-- `SymbolPredicate::is_empty`: no unit is matched. -/
def isEmpty (predicate : SymbolPredicate) : Bool :=
  predicate.ascii == 0#128 && predicate.nonAsciiRanges.isEmpty

example : (digit.matches 0x35, digit.matches 0x61, word.complement.matches 0x3b1) =
    (true, false, true) := by decide

end SymbolPredicate

end Rustmatch

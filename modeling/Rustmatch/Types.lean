import Mathlib.Algebra.GroupWithZero.Nat
import Mathlib.Data.List.Basic
import Mathlib.Data.Nat.Notation

/-!
# Domain values and failures

The values that cross the crate boundary (`types.rs`, `error.rs`): pattern identities, UTF-16
spans and texts, match events, and the failures of registration, build and scan. Code units are
`UInt16`; positions and lengths are natural numbers, with the bounds of `usize` and `u64` checked
where the code checks them.

`Delivery` is what a function with a callback does: the events handed to the sink, in order,
followed by its result. Events handed over before a failure stay delivered.
-/

namespace Rustmatch

/-- `usize::MAX` on a 64-bit target. -/
def usizeMax : ℕ := 2 ^ 64 - 1

/-- `usize::saturating_add`. -/
def saturatingAdd (a b : ℕ) : ℕ := min (a + b) usizeMax

/-- `usize::saturating_mul`. -/
def saturatingMul (a b : ℕ) : ℕ := min (a * b) usizeMax

/-- `usize::checked_add`. -/
def checkedAdd (a b : ℕ) : Option ℕ := if a + b ≤ usizeMax then some (a + b) else none

/-- Sums that saturate in between saturate at the end. -/
theorem foldl_saturatingAdd (counts : List ℕ) {total : ℕ} (htotal : total ≤ usizeMax) :
    counts.foldl saturatingAdd total = min (total + counts.sum) usizeMax := by
  induction counts generalizing total with
  | nil => exact (Nat.min_eq_left htotal).symm
  | cons count counts ih =>
    have hfirst : saturatingAdd total count ≤ usizeMax := Nat.min_le_right _ _
    rw [List.foldl_cons, ih hfirst, List.sum_cons]
    unfold saturatingAdd
    omega

/-- `slice.get(start..stop)`. -/
def getRange {α : Type} (items : List α) (start stop : ℕ) : Option (List α) :=
  if start ≤ stop ∧ stop ≤ items.length then some ((items.drop start).take (stop - start)) else none

/-- Stable caller-provided identity for one registered pattern. -/
structure PatternId where
  /-- The number that the caller chose. -/
  value : UInt32
deriving DecidableEq, Repr

/-- Compile-time options applied to one registered pattern. -/
structure PatternFlags where
  /-- One bit for each option. -/
  bits : UInt8
deriving DecidableEq, Repr

namespace PatternFlags

/-- No optional pattern behavior. -/
def none : PatternFlags := ⟨0⟩

/-- Match literals and character classes without regard to single-unit case. -/
def caseInsensitive : PatternFlags := ⟨1⟩

/-- `PatternFlags::is_case_insensitive`. -/
def isCaseInsensitive (flags : PatternFlags) : Bool :=
  flags.bits &&& caseInsensitive.bits != 0

end PatternFlags

/-- Zero-based, half-open positions measured in UTF-16 code units. -/
structure Utf16Span where
  /-- The first unit of the span. -/
  start : ℕ
  /-- The unit behind the span. -/
  stop : ℕ
deriving DecidableEq, Repr

/-- One reported pattern match. -/
structure Match where
  /-- The pattern that matched. -/
  patternId : PatternId
  /-- Where it matched. -/
  span : Utf16Span
deriving DecidableEq, Repr

/-- The longest vector of code units: a Rust allocation holds at most `isize::MAX` bytes. -/
def maxUnits : ℕ := 2 ^ 62 - 1

/-- Finite text materialized as owned UTF-16 code units. -/
structure Utf16Text where
  /-- The code units. -/
  units : List UInt16
  /-- A vector never outgrows the address space. -/
  length_le : units.length ≤ maxUnits

/-- A pattern registration, matcher build, or scan failure. -/
inductive Error where
  /-- The identity had already been registered. -/
  | duplicatePatternId (patternId : PatternId)
  /-- The pattern has no code units. -/
  | emptyPattern (patternId : PatternId)
  /-- The pattern uses a construct that is not supported. -/
  | unsupportedPattern (patternId : PatternId) (span : Utf16Span) (codeUnit : UInt16)
  /-- The syntax of the pattern is malformed. -/
  | invalidPattern (patternId : PatternId) (span : Utf16Span)
  /-- No pattern was registered before building. -/
  | noPatterns
  /-- The number of workers is zero. -/
  | invalidWorkerCount
  /-- The states or classes run out of ids. -/
  | patternSetTooLarge
  /-- A position in the pattern cannot be represented. -/
  | patternTooLarge (patternId : PatternId)
  /-- The groups are nested too deeply. -/
  | patternNestingTooDeep (patternId : PatternId) (limit : ℕ)
  /-- A position in the input cannot be represented. -/
  | inputTooLarge
  /-- A worker could not be started. -/
  | workerUnavailable
deriving DecidableEq, Repr

/-- A computation returns when each of its two halves does. -/
theorem bind_eq_ok {α β : Type} {call : Except Error α} {next : α → Except Error β} {value : β} :
    (call >>= next) = .ok value ↔ ∃ middle, call = .ok middle ∧ next middle = .ok value := by
  cases call with
  | error error => simp [bind, Except.bind]
  | ok middle => simp [bind, Except.bind]

/-- The events a call hands to its sink, in order, and what the call returns. -/
structure Delivery (α : Type) where
  /-- The events that the sink was given. -/
  events : List Match
  /-- What the call returned. -/
  result : Except Error α

namespace Delivery

variable {α β : Type}

/-- Returns without touching the sink. -/
def ofExcept (result : Except Error α) : Delivery α := ⟨[], result⟩

/-- Hands events to the sink. -/
def emit (events : List Match) : Delivery Unit := ⟨events, .ok ()⟩

/-- Runs `next` after a successful call; after a failed one nothing more is delivered. -/
def bind (call : Delivery α) (next : α → Delivery β) : Delivery β :=
  match call.result with
  | .ok value => ⟨call.events ++ (next value).events, (next value).result⟩
  | .error error => ⟨call.events, .error error⟩

instance : Monad Delivery where
  pure value := ⟨[], .ok value⟩
  bind := bind

/-- A success hands its value on. -/
@[simp]
theorem ofExcept_ok_bind (value : α) (next : α → Delivery β) :
    (ofExcept (.ok value) >>= next) = next value := rfl

/-- What is emitted comes first. -/
@[simp]
theorem emit_bind (events : List Match) (next : Unit → Delivery β) :
    (emit events >>= next) = ⟨events ++ (next ()).events, (next ()).result⟩ := rfl

/-- What was delivered before comes first. -/
@[simp]
theorem mk_ok_bind (events : List Match) (value : α) (next : α → Delivery β) :
    ((⟨events, .ok value⟩ : Delivery α) >>= next) =
      ⟨events ++ (next value).events, (next value).result⟩ := rfl

/-- A pure value delivers nothing. -/
@[simp]
theorem pure_eq (value : α) : (pure value : Delivery α) = ⟨[], .ok value⟩ := rfl

/-- A call sequence returns when each of its two halves does. -/
theorem bind_result_eq_ok {call : Delivery α} {next : α → Delivery β} {value : β} :
    (call >>= next).result = .ok value ↔
      ∃ middle, call.result = .ok middle ∧ (next middle).result = .ok value := by
  obtain ⟨events, result⟩ := call
  cases result with
  | error reason =>
    show (Except.error reason : Except Error β) = .ok value ↔ _
    simp
  | ok middle => simp

end Delivery

/-- `position_utf16`: positions are reported as `u64`. -/
def positionUtf16 (index : ℕ) : Except Error ℕ :=
  if index < 2 ^ 64 then .ok index else .error .inputTooLarge

/-- `checked_add(1)` on a position. -/
def checkedSucc (position : ℕ) : Except Error ℕ :=
  if position + 1 ≤ usizeMax then .ok (position + 1) else .error .inputTooLarge

/-- A position below the limit is converted. -/
@[simp]
theorem positionUtf16_eq_ok {index : ℕ} (h : index < 2 ^ 64) : positionUtf16 index = .ok index :=
  if_pos h

/-- Positions inside a text have a successor. -/
theorem checkedSucc_eq_ok (input : Utf16Text) {position : ℕ} (h : position < input.units.length) :
    checkedSucc position = .ok (position + 1) := by
  have := input.length_le
  refine if_pos ?_
  unfold maxUnits at this
  unfold usizeMax
  omega

/-- Positions up to the end of a text are reported as they are. -/
theorem positionUtf16_of_le (input : Utf16Text) {index : ℕ} (h : index ≤ input.units.length) :
    positionUtf16 index = .ok index := by
  have := input.length_le
  refine if_pos ?_
  unfold maxUnits at this
  omega

end Rustmatch

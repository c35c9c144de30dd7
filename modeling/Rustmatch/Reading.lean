import Mathlib.Order.BooleanAlgebra.Basic
import Mathlib.Order.CompletePartialOrder
import Mathlib.Order.ConditionallyCompleteLattice.Basic
import Rustmatch.Hir

/-!
# Positions in a text and what holds there

The zero-width tests of the scan (`engine.rs`): line edges and word boundaries, read at a position
of the input together with the phase `after_current`, which is false at the start of a scan and
true once a unit has been consumed.

A `Reading` of a text fixes which assertions hold where. The engine with context support reads
them by `assertionMatches`; the engines without it never follow an assertion edge, which is the
reading in which no assertion holds. Everything about walks through a compiled graph is stated for
an arbitrary reading, so that both kinds of engine are covered at once.
-/

namespace Rustmatch

/-- `is_ascii_word`: a letter, a digit or the underscore. -/
def isAsciiWord (symbol : UInt16) : Bool :=
  (0x30 ≤ symbol && symbol ≤ 0x39) || (0x41 ≤ symbol && symbol ≤ 0x5a) || symbol == 0x5f ||
    (0x61 ≤ symbol && symbol ≤ 0x7a)

/-- `is_word_boundary`: a word begins or ends at a position. -/
def isWordBoundary (input : List UInt16) (position : ℕ) : Bool :=
  let before := if position = 0 then false else input[position - 1]?.any isAsciiWord
  let after := input[position]?.any isAsciiWord
  before != after

/-- `assertion_matches`: whether an assertion holds at a position, before or behind its unit. -/
def assertionMatches (assertion : Assertion) (input : List UInt16) (position : ℕ)
    (afterCurrent : Bool) : Bool :=
  match assertion with
  | .lineStart => position == 0 || input[position - 1]? == some 0x0a
  | .lineEnd =>
    afterCurrent && (position == input.length || input[position]? == some 0x0a)
  | .wordBoundary => isWordBoundary input position
  | .nonWordBoundary => !isWordBoundary input position

/-- `(position, after_current)`. -/
abbrev Config := ℕ × Bool

/-- What an edge of a compiled graph asks for, with predicates spelled out. -/
inductive Label where
  /-- Nothing. -/
  | epsilon
  /-- An assertion that holds. -/
  | assertion (assertion : Assertion)
  /-- A unit. -/
  | symbol (symbol : UInt16)
  /-- A unit of a class. -/
  | predicate (predicate : SymbolPredicate)

/-- A text and the assertions that hold in it. -/
structure Reading where
  /-- The text. -/
  input : List UInt16
  /-- Whether an assertion holds at a configuration. -/
  holds : Assertion → Config → Bool

namespace Reading

/-- Assertions are evaluated by `assertion_matches`. -/
def contextual (input : List UInt16) : Reading where
  input := input
  holds assertion config := assertionMatches assertion input config.1 config.2

/-- No assertion holds anywhere. -/
def contextFree (input : List UInt16) : Reading where
  input := input
  holds _ _ := false

variable (R : Reading)

/-- One unit satisfying `accepts` is consumed. -/
def Consumes (accepts : UInt16 → Bool) (c d : Config) : Prop :=
  ∃ unit, R.input[c.1]? = some unit ∧ accepts unit = true ∧ d = (c.1 + 1, true)

/-- The assertion holds and nothing is consumed. -/
def Tests (assertion : Assertion) (c d : Config) : Prop :=
  R.holds assertion c = true ∧ c = d

/-- How a label moves the position. -/
def act : Label → Config → Config → Prop
  | .epsilon => Eq
  | .assertion a => R.Tests a
  | .symbol s => R.Consumes (s == ·)
  | .predicate p => R.Consumes p.matches

/-- The text of a reading with context. -/
@[simp]
theorem contextual_input (input : List UInt16) : (contextual input).input = input := rfl

/-- Consuming a unit changes the position. -/
theorem not_consumes_self {accepts : UInt16 → Bool} {c : Config} : ¬ R.Consumes accepts c c := by
  rintro ⟨unit, -, -, hc⟩
  exact Nat.succ_ne_self c.1 (Prod.mk.inj hc).1.symm

/-- At a unit, a label that consumes is one that accepts the unit. -/
theorem consumes_iff {accepts : UInt16 → Bool} {c : Config} {unit : UInt16}
    (hunit : R.input[c.1]? = some unit) :
    R.Consumes accepts c (c.1 + 1, true) ↔ accepts unit = true := by
  constructor
  · rintro ⟨other, hother, haccepts, -⟩
    rw [hunit] at hother
    rw [Option.some.inj hother]
    exact haccepts
  · exact fun haccepts => ⟨unit, hunit, haccepts, rfl⟩

/-- Labels only move forward, by one unit or not at all; the phase changes with the first unit. -/
theorem act_cases {l : Label} {c d : Config} (h : R.act l c d) :
    d = c ∨ c.1 < R.input.length ∧ d = (c.1 + 1, true) := by
  have hconsumes : ∀ accepts, R.Consumes accepts c d →
      c.1 < R.input.length ∧ d = (c.1 + 1, true) := by
    rintro accepts ⟨unit, hunit, -, hd⟩
    exact ⟨(List.getElem?_eq_some_iff.mp hunit).1, hd⟩
  cases l with
  | epsilon => exact Or.inl h.symm
  | assertion a => exact Or.inl h.2.symm
  | symbol s => exact Or.inr (hconsumes _ h)
  | predicate p => exact Or.inr (hconsumes _ h)

end Reading

end Rustmatch

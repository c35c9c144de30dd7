import Rustmatch.Parser.Classes

/-!
# The class ranges of a text

A scanner reads a text from left to right and finds the ranges of its character classes. Outside
classes it only looks for an escape or for the opening of a class; inside it keeps the literal that
came last, in case a range marker follows. It takes no notice of groups or quantifiers, and what it
finds in texts that are not patterns means nothing.

## Main definitions

* `RangeScan`, `RangeScan.step`: the states of the scanner and its steps;
* `classRanges`: the ranges of a text;
* `Scans`: a part of a text, from one state to another.

## Main results

* `ClassItemsText.scans_class`: the ranges of a class are those of its items;
* `EscapeText.scans`, `QuantifierText.scans`: other phrases have no ranges.
-/

namespace Rustmatch

/-- Where the scanner is: outside classes, behind a backslash there, behind the bracket that opens a
class, among the items of a class with the literal that came last, behind a backslash there, behind
a range marker, and behind a backslash there. -/
inductive RangeScan where
  /-- Outside a class. -/
  | outside
  /-- Behind a backslash outside a class. -/
  | escaped
  /-- Behind the bracket that opens a class. -/
  | opened
  /-- Inside a class, behind a literal that may begin a range, or behind something else. -/
  | items (pending : Option UInt16)
  /-- Behind a backslash inside a class. -/
  | itemEscaped
  /-- Behind the dash of a range. -/
  | marked (start : UInt16)
  /-- Behind a backslash behind the dash of a range. -/
  | markedEscaped (start : UInt16)

/-- What an escaped unit stands for in a class. -/
def unescape (unit : UInt16) : UInt16 :=
  if unit = ascii 'n' then 0x0a
  else if unit = ascii 't' then 0x09
  else if unit = ascii 'r' then 0x0d
  else if unit = ascii 'f' then 0x0c
  else unit

namespace RangeScan

/-- A unit among the items of a class. -/
def stepItem (pending : Option UInt16) (unit : UInt16) : RangeScan :=
  if unit = ascii ']' then .outside
  else if unit = ascii '-' then pending.elim (.items none) .marked
  else if unit = ascii '\\' then .itemEscaped
  else .items (some unit)

/-- One unit: the next state, and the range that ends here. -/
def step : RangeScan → UInt16 → RangeScan × List (UInt16 × UInt16)
  | .outside, unit =>
    (if unit = ascii '\\' then .escaped else if unit = ascii '[' then .opened else .outside, [])
  | .escaped, _ => (.outside, [])
  | .opened, unit => (if unit = ascii '^' then .items none else stepItem none unit, [])
  | .items pending, unit => (stepItem pending unit, [])
  | .itemEscaped, unit =>
    -- a shorthand is no end of a range
    (.items (if unit ∈ [ascii 'd', ascii 'w', ascii 's'] then none else some (unescape unit)), [])
  | .marked start, unit =>
    if unit = ascii '\\' then (.markedEscaped start, []) else (.items none, [(start, unit)])
  | .markedEscaped start, unit => (.items none, [(start, unescape unit)])

/-- A text. -/
def run : RangeScan → List UInt16 → RangeScan × List (UInt16 × UInt16)
  | state, [] => (state, [])
  | state, unit :: rest =>
    let next := step state unit
    let found := run next.1 rest
    (found.1, next.2 ++ found.2)

end RangeScan

open RangeScan

/-- The range of an item. -/
def ClassItem.ranges : ClassItem → List (UInt16 × UInt16)
  | .range start stop => [(start, stop)]
  | .literal _ | .members _ => []

/-- The ranges of the character classes of a text, from left to right. -/
def classRanges (text : List UInt16) : List (UInt16 × UInt16) := (run .outside text).2

/-- The class of a range from an escaped `-` to `/` and of `Z-a` has two ranges; `Z-a` outside a
class is none. -/
example : classRanges [ascii '[', ascii '\\', ascii '-', ascii '-', ascii '/', ascii 'Z',
    ascii '-', ascii 'a', ascii ']', ascii 'Z', ascii '-', ascii 'a'] =
      [(ascii '-', ascii '/'), (ascii 'Z', ascii 'a')] := by decide

/-- The scanner goes from one state to another over a text, and finds some ranges on the way. -/
def Scans (state : RangeScan) (text : List UInt16) (state' : RangeScan)
    (ranges : List (UInt16 × UInt16)) : Prop := run state text = (state', ranges)

section Scans

variable {state state' state'' : RangeScan} {text text' : List UInt16} {unit : UInt16}
  {ranges ranges' : List (UInt16 × UInt16)}

/-- The empty text keeps the state. -/
theorem Scans.nil : Scans state [] state [] := rfl

/-- The first unit makes a step. -/
theorem Scans.cons (h : step state unit = (state', ranges))
    (h' : Scans state' text state'' ranges') :
    Scans state (unit :: text) state'' (ranges ++ ranges') := by
  unfold Scans at h' ⊢
  rw [run, h]
  dsimp only
  rw [h']

/-- A unit where no range ends. -/
theorem Scans.skip (h : step state unit = (state', [])) (h' : Scans state' text state'' ranges) :
    Scans state (unit :: text) state'' ranges := Scans.cons h h'

/-- Two parts of a text. -/
theorem Scans.append (h : Scans state text state' ranges)
    (h' : Scans state' text' state'' ranges') :
    Scans state (text ++ text') state'' (ranges ++ ranges') := by
  unfold Scans at h
  induction text generalizing state ranges with
  | nil =>
    obtain ⟨rfl, rfl⟩ := Prod.mk.inj h
    exact h'
  | cons unit text ih =>
    obtain ⟨rfl, rfl⟩ := Prod.mk.inj h
    rw [List.append_assoc]
    exact Scans.cons rfl (ih rfl)

/-- A scan from outside a class finds the ranges of the text. -/
theorem Scans.classRanges_eq (h : Scans .outside text state ranges) : classRanges text = ranges :=
  congrArg Prod.snd h

/-- Text without escapes and classes. -/
theorem scans_plain (h : ∀ unit ∈ text, unit ≠ ascii '\\' ∧ unit ≠ ascii '[') :
    Scans .outside text .outside [] := by
  induction text with
  | nil => exact Scans.nil
  | cons unit text ih =>
    obtain ⟨⟨hescape, hopen⟩, hrest⟩ := List.forall_mem_cons.mp h
    refine Scans.skip ?_ (ih hrest)
    show (if _ then _ else if _ then _ else _, _) = _
    rw [if_neg hescape, if_neg hopen]

/-! ### Character classes -/

/-- A literal of a class becomes the pending one. -/
theorem ClassLiteralText.scans_items (h : ClassLiteralText text unit) (pending : Option UInt16) :
    Scans (.items pending) text (.items (some unit)) [] := by
  cases h with
  | plain hunit =>
    simp only [List.mem_cons, List.not_mem_nil, or_false, not_or] at hunit
    refine Scans.skip ?_ Scans.nil
    show (stepItem pending unit, _) = _
    rw [stepItem, if_neg hunit.1, if_neg hunit.2.1, if_neg hunit.2.2]
  | escaped hunit =>
    simp only [List.mem_cons, List.not_mem_nil, or_false] at hunit
    obtain rfl | rfl | rfl | rfl | rfl := hunit
    all_goals rfl
  | newline | tab | carriageReturn | formFeed => rfl

/-- A literal behind a range marker ends a range. -/
theorem ClassLiteralText.scans_marked (h : ClassLiteralText text unit) (start : UInt16) :
    Scans (.marked start) text (.items none) [(start, unit)] := by
  cases h with
  | plain hunit =>
    simp only [List.mem_cons, List.not_mem_nil, or_false, not_or] at hunit
    have hstep : step (.marked start) unit = (.items none, [(start, unit)]) := if_neg hunit.2.2
    exact Scans.cons hstep Scans.nil
  | escaped hunit =>
    simp only [List.mem_cons, List.not_mem_nil, or_false] at hunit
    obtain rfl | rfl | rfl | rfl | rfl := hunit
    all_goals rfl
  | newline | tab | carriageReturn | formFeed => rfl

/-- An item is scanned for its ranges. -/
theorem ClassItemText.scans {item : ClassItem} (h : ClassItemText text item)
    (pending : Option UInt16) :
    ∃ pending', Scans (.items pending) text (.items pending') item.ranges := by
  cases h with
  | literal hliteral => exact ⟨_, hliteral.scans_items pending⟩
  | range hstart hstop =>
    exact ⟨none, (hstart.scans_items pending).append (Scans.skip rfl (hstop.scans_marked _))⟩
  | digit | word | whitespace => exact ⟨none, rfl⟩

/-- The items of a class. -/
theorem ClassItemsText.scans {items : List ClassItem} (h : ClassItemsText text items)
    (pending : Option UInt16) : ∃ pending',
    Scans (.items pending) text (.items pending') (items.flatMap ClassItem.ranges) := by
  induction h generalizing pending with
  | nil => exact ⟨pending, Scans.nil⟩
  | cons hitem _ ih =>
    obtain ⟨pending', hfirst⟩ := hitem.scans pending
    obtain ⟨pending'', hrest⟩ := ih pending'
    exact ⟨pending'', hfirst.append hrest⟩

/-- Without a caret the items begin right behind the bracket. -/
theorem scans_opened (hhead : text.head? ≠ some (ascii '^')) (hne : text ≠ [])
    (h : Scans (.items none) text state ranges) : Scans .opened text state ranges := by
  cases text with
  | nil => exact absurd rfl hne
  | cons unit text =>
    have hunit : unit ≠ ascii '^' := fun heq => hhead (congrArg some heq)
    have hstep : step .opened unit = step (.items none) unit := by
      show (if _ then _ else _, _) = _
      rw [if_neg hunit]
      rfl
    unfold Scans at h ⊢
    rw [run, hstep]
    exact h

/-- The ranges of a class are those of its items. -/
theorem ClassItemsText.scans_class {items : List ClassItem} (h : ClassItemsText text items) :
    (text.head? ≠ some (ascii '^') → Scans .outside (ascii '[' :: (text ++ [ascii ']'])) .outside
      (items.flatMap ClassItem.ranges)) ∧
    Scans .outside (ascii '[' :: ascii '^' :: (text ++ [ascii ']'])) .outside
      (items.flatMap ClassItem.ranges) := by
  obtain ⟨pending, hitems⟩ := h.scans none
  have hclose : Scans (.items pending) [ascii ']'] .outside [] := rfl
  have hscan := hitems.append hclose
  rw [List.append_nil] at hscan
  have hopen : step .outside (ascii '[') = (.opened, []) := rfl
  refine ⟨fun hhead => Scans.skip hopen (scans_opened ?_ (by simp) hscan),
    Scans.skip hopen (Scans.skip rfl hscan)⟩
  cases text with
  | nil => decide
  | cons unit text => exact hhead

/-! ### Other phrases -/

/-- An escape has no ranges. -/
theorem EscapeText.scans {rules : CaseRules} {expression : Hir}
    (h : EscapeText rules text expression) : Scans .outside text .outside [] := by
  cases h with
  | literal | newline | tab | carriageReturn | formFeed | shorthand | wordBoundary
  | nonWordBoundary => rfl

/-- An opening has no ranges. -/
theorem OpeningText.scans (h : OpeningText text) : Scans .outside text .outside [] := by
  cases h with
  | capturing | plain => rfl

/-- A count has no ranges. -/
theorem CountText.scans {count : ℕ} (h : CountText text count) :
    Scans .outside text .outside [] := by
  refine scans_plain fun unit hunit => ?_
  obtain ⟨-, hle⟩ := h.digits unit hunit
  refine ⟨?_, ?_⟩
  · rintro rfl
    exact absurd hle (by decide)
  · rintro rfl
    exact absurd hle (by decide)

/-- A quantifier has no ranges. -/
theorem QuantifierText.scans {count : ℕ} {limit : Option ℕ}
    (h : QuantifierText text count limit) : Scans .outside text .outside [] := by
  cases h with
  | optional | star | plus => rfl
  | exactly hcount => exact Scans.skip rfl (hcount.scans.append (Scans.skip rfl Scans.nil))
  | atLeast hcount =>
    exact Scans.skip rfl (hcount.scans.append (Scans.skip rfl (Scans.skip rfl Scans.nil)))
  | between hcount hlimit =>
    exact Scans.skip rfl (hcount.scans.append
      (Scans.skip rfl (hlimit.scans.append (Scans.skip rfl Scans.nil))))

end Scans

end Rustmatch

import Rustmatch.Parser

/-!
# The pattern grammar

Which texts are patterns, and which expression each denotes. The grammar is stated over texts, with
no reference to positions or to what follows a phrase. A quantifier is never followed by another
one: the next item of a sequence would have to begin with the second, and no atom does.

## Main definitions

* `ClassText`, `QuantifierText`: the phrases without recursion;
* `AtomText`, `ItemsText`, `BranchesText`: the recursive phrases, inside a number of groups;
* `PatternText`: whole patterns.

## Main results

* `PatternText.sequencesNonempty`: no pattern has an empty sequence.
-/

namespace Rustmatch

/-! ### Escapes and character classes -/

/-- An escape outside character classes. -/
inductive EscapeText (rules : CaseRules) : List UInt16 → Hir → Prop
  | literal {unit : UInt16} : isEscapedLiteral unit = true →
      EscapeText rules [ascii '\\', unit] (rules.literal unit)
  | newline : EscapeText rules [ascii '\\', ascii 'n'] (.symbol 0x0a)
  | tab : EscapeText rules [ascii '\\', ascii 't'] (.symbol 0x09)
  | carriageReturn : EscapeText rules [ascii '\\', ascii 'r'] (.symbol 0x0d)
  | formFeed : EscapeText rules [ascii '\\', ascii 'f'] (.symbol 0x0c)
  | shorthand {unit : UInt16} (h : isShorthand unit = true) :
      EscapeText rules [ascii '\\', unit] (.predicate (shorthand unit h))
  | wordBoundary : EscapeText rules [ascii '\\', ascii 'b'] (.assertion .wordBoundary)
  | nonWordBoundary : EscapeText rules [ascii '\\', ascii 'B'] (.assertion .nonWordBoundary)

/-- A literal inside a character class. -/
inductive ClassLiteralText : List UInt16 → UInt16 → Prop
  | plain {unit : UInt16} : unit ∉ [ascii ']', ascii '-', ascii '\\'] → ClassLiteralText [unit] unit
  | escaped {unit : UInt16} :
      unit ∈ [ascii '\\', ascii ']', ascii '[', ascii '-', ascii '^'] →
      ClassLiteralText [ascii '\\', unit] unit
  | newline : ClassLiteralText [ascii '\\', ascii 'n'] 0x0a
  | tab : ClassLiteralText [ascii '\\', ascii 't'] 0x09
  | carriageReturn : ClassLiteralText [ascii '\\', ascii 'r'] 0x0d
  | formFeed : ClassLiteralText [ascii '\\', ascii 'f'] 0x0c

/-- What one item of a character class adds to the predicate; `none` where a range descends. -/
inductive ClassItem where
  /-- One unit. -/
  | literal (unit : UInt16)
  /-- The units from one to another. -/
  | range (start stop : UInt16)
  /-- The members of a shorthand class. -/
  | members (predicate : SymbolPredicate)

/-- The predicate with the item added. -/
def ClassItem.addTo (rules : CaseRules) (predicate : SymbolPredicate) :
    ClassItem → Option SymbolPredicate
  | .literal unit => some (rules.insertClassLiteral predicate unit)
  | .range start stop => rules.insertClassRange predicate start stop
  | .members other => some (predicate.union other)

/-- One item of a character class. -/
inductive ClassItemText : List UInt16 → ClassItem → Prop
  | literal {text : List UInt16} {unit : UInt16} : ClassLiteralText text unit →
      ClassItemText text (.literal unit)
  | range {text text' : List UInt16} {start stop : UInt16} : ClassLiteralText text start →
      ClassLiteralText text' stop → ClassItemText (text ++ ascii '-' :: text') (.range start stop)
  | digit : ClassItemText [ascii '\\', ascii 'd'] (.members .digit)
  | word : ClassItemText [ascii '\\', ascii 'w'] (.members .word)
  | whitespace : ClassItemText [ascii '\\', ascii 's'] (.members .whitespace)

/-- The items of a character class. -/
inductive ClassItemsText : List UInt16 → List ClassItem → Prop
  | nil : ClassItemsText [] []
  | cons {text text' : List UInt16} {item : ClassItem} {items : List ClassItem} :
      ClassItemText text item → ClassItemsText text' items →
      ClassItemsText (text ++ text') (item :: items)

/-- A character class: the union of its items, or what is left of all units. -/
inductive ClassText (rules : CaseRules) : List UInt16 → SymbolPredicate → Prop
  | positive {text : List UInt16} {items : List ClassItem} {predicate : SymbolPredicate} :
      ClassItemsText text items → text.head? ≠ some (ascii '^') →
      items.foldlM (ClassItem.addTo rules) .empty = some predicate →
      ClassText rules (ascii '[' :: (text ++ [ascii ']'])) predicate
  | inverted {text : List UInt16} {items : List ClassItem} {predicate : SymbolPredicate} :
      ClassItemsText text items →
      items.foldlM (ClassItem.addTo rules) .empty = some predicate →
      ClassText rules (ascii '[' :: ascii '^' :: (text ++ [ascii ']'])) predicate.complement

/-! ### Quantifiers -/

/-- The value of a decimal digit. -/
def digitValue (unit : UInt16) : ℕ := (unit - ascii '0').toNat

/-- The value of decimal digits. -/
def decimalValue (digits : List UInt16) : ℕ :=
  digits.foldl (fun value unit => value * 10 + digitValue unit) 0

/-- A decimal count. -/
structure CountText (text : List UInt16) (count : ℕ) : Prop where
  /-- There is a digit. -/
  ne_nil : text ≠ []
  /-- All units are digits. -/
  digits : ∀ unit ∈ text, ascii '0' ≤ unit ∧ unit ≤ ascii '9'
  /-- Their value is the count. -/
  value : decimalValue text = count

/-- A quantifier and its bounds. -/
inductive QuantifierText : List UInt16 → ℕ → Option ℕ → Prop
  | optional : QuantifierText [ascii '?'] 0 (some 1)
  | star : QuantifierText [ascii '*'] 0 none
  | plus : QuantifierText [ascii '+'] 1 none
  | exactly {text : List UInt16} {count : ℕ} : CountText text count → 1 ≤ count →
      count ≤ maxCountedRepetition →
      QuantifierText (ascii '{' :: (text ++ [ascii '}'])) count (some count)
  | atLeast {text : List UInt16} {count : ℕ} : CountText text count →
      count ≤ maxCountedRepetition →
      QuantifierText (ascii '{' :: (text ++ [ascii ',', ascii '}'])) count none
  | between {text text' : List UInt16} {count limit : ℕ} : CountText text count →
      CountText text' limit → count ≤ limit → 1 ≤ limit → limit ≤ maxCountedRepetition →
      QuantifierText (ascii '{' :: (text ++ ascii ',' :: (text' ++ [ascii '}']))) count
        (some limit)

/-! ### Expressions -/

/-- The opening of a group. -/
inductive OpeningText : List UInt16 → Prop
  | capturing : OpeningText [ascii '(']
  | plain : OpeningText [ascii '(', ascii '?', ascii ':']

/-- The units that do not stand for themselves outside character classes. -/
def isReserved (unit : UInt16) : Bool :=
  unit ∈ [ascii '.', ascii '\\', ascii '[', ascii '(', ascii ')', ascii '|', ascii '^', ascii '$',
    ascii '?', ascii '*', ascii '+', ascii '{']

mutual

/-- An atom inside `depth` groups. -/
inductive AtomText (rules : CaseRules) : ℕ → List UInt16 → Hir → Prop
  | any {depth : ℕ} : AtomText rules depth [ascii '.'] (.predicate .any)
  | lineStart {depth : ℕ} : AtomText rules depth [ascii '^'] (.assertion .lineStart)
  | lineEnd {depth : ℕ} : AtomText rules depth [ascii '$'] (.assertion .lineEnd)
  | literal {depth : ℕ} {unit : UInt16} : isReserved unit = false →
      AtomText rules depth [unit] (rules.literal unit)
  | escape {depth : ℕ} {text : List UInt16} {expression : Hir} :
      EscapeText rules text expression → AtomText rules depth text expression
  | charClass {depth : ℕ} {text : List UInt16} {predicate : SymbolPredicate} :
      ClassText rules text predicate → AtomText rules depth text (.predicate predicate)
  | emptyGroup {depth : ℕ} {opening : List UInt16} : OpeningText opening →
      AtomText rules depth (opening ++ [ascii ')']) .never
  | group {depth : ℕ} {opening body : List UInt16} {branches : List Hir} : OpeningText opening →
      depth < maxGroupNesting → body ≠ [] → BranchesText rules (depth + 1) body branches →
      AtomText rules depth (opening ++ body ++ [ascii ')']) (.mkAlternation branches)

/-- The items of a sequence: atoms, each with a quantifier or without. -/
inductive ItemsText (rules : CaseRules) : ℕ → List UInt16 → List Hir → Prop
  | nil {depth : ℕ} : ItemsText rules depth [] []
  | plain {depth : ℕ} {text text' : List UInt16} {atom : Hir} {items : List Hir} :
      AtomText rules depth text atom → ItemsText rules depth text' items →
      ItemsText rules depth (text ++ text') (atom :: items)
  | quantified {depth : ℕ} {text quantifier text' : List UInt16} {atom : Hir} {items : List Hir}
      {count : ℕ} {limit : Option ℕ} :
      AtomText rules depth text atom → QuantifierText quantifier count limit →
      ItemsText rules depth text' items →
      ItemsText rules depth (text ++ quantifier ++ text') (.mkRepeat atom count limit :: items)

/-- The branches of an alternation. A bar at the very end adds no branch; any other empty branch is
a branch. -/
inductive BranchesText (rules : CaseRules) : ℕ → List UInt16 → List Hir → Prop
  | last {depth : ℕ} {text : List UInt16} {items : List Hir} : ItemsText rules depth text items →
      BranchesText rules depth text [.mkSequence items]
  | trailing {depth : ℕ} {text : List UInt16} {items : List Hir} :
      ItemsText rules depth text items →
      BranchesText rules depth (text ++ [ascii '|']) [.mkSequence items]
  | more {depth : ℕ} {text text' : List UInt16} {items branches : List Hir} :
      ItemsText rules depth text items → text' ≠ [] → BranchesText rules depth text' branches →
      BranchesText rules depth (text ++ ascii '|' :: text') (.mkSequence items :: branches)

end

/-- The prefix of a pattern that sets flags. -/
structure FlagPrefixText (flags : List UInt16) : Prop where
  /-- There is a flag. -/
  ne_nil : flags ≠ []
  /-- All flags are known. -/
  known : ∀ unit ∈ flags, unit = ascii 'i' ∨ unit = ascii 's'

/-- A whole pattern. -/
inductive PatternText (rules : CaseRules) : List UInt16 → Hir → Prop
  | plain {text : List UInt16} {branches : List Hir} : BranchesText rules 0 text branches →
      PatternText rules text (.mkAlternation branches)
  | flagged {flags text : List UInt16} {branches : List Hir} : FlagPrefixText flags →
      BranchesText { rules with
        caseInsensitive := rules.caseInsensitive || flags.contains (ascii 'i') } 0 text branches →
      PatternText rules (ascii '(' :: ascii '?' :: (flags ++ ascii ')' :: text))
        (.mkAlternation branches)

/-! ### Sequences of patterns have items -/

section SequencesNonempty

variable {rules : CaseRules}

open Hir

/-- A literal has no empty sequence. -/
theorem CaseRules.sequencesNonempty_literal (rules : CaseRules) (unit : UInt16) :
    SequencesNonempty (rules.literal unit) := by
  unfold CaseRules.literal
  split
  · exact .symbol unit
  · simp only
    split
    · exact .symbol unit
    · exact .predicate _

/-- What an escape derives has no empty sequence. -/
theorem EscapeText.sequencesNonempty {text : List UInt16} {expression : Hir}
    (h : EscapeText rules text expression) : SequencesNonempty expression := by
  cases h with
  | literal => exact rules.sequencesNonempty_literal _
  | newline | tab | carriageReturn | formFeed => exact .symbol _
  | shorthand => exact .predicate _
  | wordBoundary | nonWordBoundary => exact .assertion _

mutual

/-- What an atom derives has no empty sequence. -/
theorem AtomText.sequencesNonempty {depth : ℕ} {text : List UInt16} {expression : Hir}
    (h : AtomText rules depth text expression) : SequencesNonempty expression :=
  match h with
  | .any | .charClass _ => .predicate _
  | .lineStart | .lineEnd => .assertion _
  | .literal _ => rules.sequencesNonempty_literal _
  | .escape hescape => hescape.sequencesNonempty
  | .emptyGroup _ => .never
  | .group _ _ _ hbody => SequencesNonempty.mkAlternation hbody.sequencesNonempty

/-- What the items of a sequence derive has no empty sequence. -/
theorem ItemsText.sequencesNonempty {depth : ℕ} {text : List UInt16} {items : List Hir}
    (h : ItemsText rules depth text items) : ∀ item ∈ items, SequencesNonempty item :=
  match h with
  | .nil => fun _ hitem => absurd hitem List.not_mem_nil
  | .plain hatom hrest =>
    List.forall_mem_cons.mpr ⟨hatom.sequencesNonempty, hrest.sequencesNonempty⟩
  | .quantified hatom _ hrest =>
    List.forall_mem_cons.mpr
      ⟨SequencesNonempty.mkRepeat _ _ hatom.sequencesNonempty, hrest.sequencesNonempty⟩

/-- What the branches of an alternation derive has no empty sequence. -/
theorem BranchesText.sequencesNonempty {depth : ℕ} {text : List UInt16} {branches : List Hir}
    (h : BranchesText rules depth text branches) : ∀ branch ∈ branches, SequencesNonempty branch :=
  match h with
  | .last hitems | .trailing hitems =>
    List.forall_mem_cons.mpr ⟨SequencesNonempty.mkSequence hitems.sequencesNonempty,
      fun _ hbranch => absurd hbranch List.not_mem_nil⟩
  | .more hitems _ hrest =>
    List.forall_mem_cons.mpr
      ⟨SequencesNonempty.mkSequence hitems.sequencesNonempty, hrest.sequencesNonempty⟩

end

/-- No pattern has an empty sequence. -/
theorem PatternText.sequencesNonempty {text : List UInt16} {expression : Hir}
    (h : PatternText rules text expression) : SequencesNonempty expression := by
  cases h with
  | plain hbranches => exact SequencesNonempty.mkAlternation hbranches.sequencesNonempty
  | flagged _ hbranches => exact SequencesNonempty.mkAlternation hbranches.sequencesNonempty

end SequencesNonempty

end Rustmatch

import Rustmatch.Hir.CompiledRuns
import Rustmatch.ToMathlib.RelationSimulations

/-!
# Runs inside a window

What a run of a fragment does depends on the units it consumes and on one unit before and one unit
behind them: an assertion looks at the two neighbours of a position, and the ends of the text count
as line feeds. A text and a window cut out of it therefore have the same runs inside the window,
moved by its offset, as long as the neighbours at its edges are told apart by no assertion.

## Main definitions

* `Hir.labels`: the labels of the edges of a fragment;
* `Hir.avoids`: expressions that consume a unit nowhere;
* `unitBefore`, `unitAfter`: the neighbours of a position;
* `Window`: a part of a text that reads like a text of its own.

## Main results

* `Hir.runs_agree`: runs agree along a map when the labels of the fragment do;
* `Hir.walk_le_through`: what a run consumes;
* `assertionMatches_eq`: assertions look at the neighbours of a position;
* `Window.walk_iff`: runs inside a window.
-/

open Relation

namespace Rustmatch

/-! ### The labels of a fragment -/

namespace Hir

mutual

/-- What the edges of a fragment ask for. -/
def labels : Hir → List Label
  | .never | .epsilon => []
  | .assertion a => [.assertion a]
  | .symbol s => [.symbol s]
  | .predicate p => [.predicate p]
  | .sequence expressions | .alternation expressions => labelsAll expressions
  | .repetition expression _ _ => expression.labels

/-- The labels of all the expressions of a list. -/
def labelsAll : List Hir → List Label
  | [] => []
  | expression :: rest => expression.labels ++ labelsAll rest

end

/-- A label of the list is one of an expression. -/
theorem mem_labelsAll {es : List Hir} {l : Label} :
    l ∈ labelsAll es ↔ ∃ e ∈ es, l ∈ e.labels := by
  induction es with
  | nil => simp [labelsAll]
  | cons e es ih => rw [labelsAll, List.mem_append, ih, List.exists_mem_cons_iff]

section Agreement

variable {R R' : Reading} {f : Config → Config} {P Q : Config → Prop}

/-- Items that agree one by one agree together. -/
theorem walkItems_agree {es : List Hir} (h : ∀ e ∈ es, Agrees f P Q (e.walk R) (e.walk R')) :
    Agrees f P Q (walkItems R es) (walkItems R' es) := by
  induction es with
  | nil => exact .eq
  | cons e es ih =>
    exact (h e List.mem_cons_self).comp (ih fun e he => h e (List.mem_cons_of_mem _ he))

/-- Branches that agree one by one agree together. -/
theorem walkAny_agree {es : List Hir} (h : ∀ e ∈ es, Agrees f P Q (e.walk R) (e.walk R')) :
    Agrees f P Q (walkAny R es) (walkAny R' es) := by
  induction es with
  | nil => exact .bot
  | cons e es ih =>
    exact (h e List.mem_cons_self).sup (ih fun e he => h e (List.mem_cons_of_mem _ he))

/-- Turns of branches that agree one by one agree together. -/
theorem turnAny_agree {es : List Hir} (h : ∀ e ∈ es, Agrees f P Q (e.turn R) (e.turn R')) :
    Agrees f P Q (turnAny R es) (turnAny R' es) := by
  induction es with
  | nil => exact .bot
  | cons e es ih =>
    exact (h e List.mem_cons_self).sup (ih fun e he => h e (List.mem_cons_of_mem _ he))

/-- Runs and round trips agree along a map when single labels do. -/
theorem runs_agree {h : Hir} (hact : ∀ l ∈ h.labels, Agrees f P Q (R.act l) (R'.act l)) :
    Agrees f P Q (h.walk R) (h.walk R') ∧ Agrees f P Q (h.turn R) (h.turn R') := by
  induction h with
  | never => exact ⟨.bot, .bot⟩
  | epsilon => exact ⟨.eq, .bot⟩
  | assertion a => exact ⟨hact (.assertion a) (List.mem_singleton_self _), .bot⟩
  | symbol s => exact ⟨hact (.symbol s) (List.mem_singleton_self _), .bot⟩
  | predicate p => exact ⟨hact (.predicate p) (List.mem_singleton_self _), .bot⟩
  | sequence es ih =>
    have hitem := fun e he => ih e he fun l hl => hact l (mem_labelsAll.mpr ⟨e, he, hl⟩)
    cases es with
    | nil => exact ⟨.bot, .bot⟩
    | cons e es =>
      exact ⟨walkItems_agree fun e he => (hitem e he).1, (hitem e List.mem_cons_self).2⟩
  | alternation es ih =>
    have hbranch := fun e he => ih e he fun l hl => hact l (mem_labelsAll.mpr ⟨e, he, hl⟩)
    have hturn := turnAny_agree fun e he => (hbranch e he).2
    have hwalk := walkAny_agree fun e he => (hbranch e he).1
    exact ⟨hturn.reflTransGen.comp hwalk, hturn⟩
  | repetition e min max ih =>
    obtain ⟨hwalk, hturn⟩ := ih hact
    refine ⟨(hwalk.power min).comp ?_, ?_⟩
    · cases max with
      | none => exact (hturn.sup hwalk).reflTransGen
      | some limit =>
        unfold repetitionTail
        by_cases hlimit : limit < min
        · simp only [hlimit, if_true]
          exact .bot
        · simp only [hlimit, if_false]
          exact hturn.optionalRun hwalk _
    · show Agrees f P Q (repetitionTurn _ _ min max) (repetitionTurn _ _ min max)
      unfold repetitionTurn
      split
      · exact hturn.sup hwalk
      · exact .bot
      · exact hturn

end Agreement

/-- A relation that is closed under composition and holds what the labels of a fragment do holds its
runs. -/
theorem walk_le_of_labels {R : Reading} {T : Config → Config → Prop} (hrefl : ∀ c, T c c)
    (htrans : ∀ {c d e}, T c d → T d e → T c e) {h : Hir}
    (hact : ∀ l ∈ h.labels, R.act l ≤ T) : h.walk R ≤ T := by
  intro c d hcd
  -- the runs agree with themselves, and nothing leaves what is related to `c`
  have hagree : ∀ l ∈ h.labels, Agrees id (T c) (fun _ => True) (R.act l) (R.act l) := by
    intro l hl
    exact ⟨fun _ _ hab => hab, fun _ _ hab => ⟨_, rfl, hab⟩,
      fun ha hab => htrans ha (hact l hl _ _ hab), fun _ _ => trivial⟩
  exact (runs_agree hagree).1.forward (hrefl c) hcd

end Hir

/-- The units that a label consumes. -/
def Label.accepts : Label → UInt16 → Bool
  | .epsilon | .assertion _ => fun _ => false
  | .symbol s => (s == ·)
  | .predicate p => p.matches

namespace Hir

/-- No label of the expression consumes the unit. -/
def avoids (unit : UInt16) (h : Hir) : Bool := h.labels.all fun l => !l.accepts unit

/-- Between two positions of a text there are such units only. -/
def Through (R : Reading) (good : UInt16 → Prop) (c d : Config) : Prop :=
  c.1 ≤ d.1 ∧ ∀ p, c.1 ≤ p → p < d.1 → ∃ unit, R.input[p]? = some unit ∧ good unit

/-- The units that a run consumes are accepted by labels of its fragment. -/
theorem walk_le_through {R : Reading} {good : UInt16 → Prop} {h : Hir}
    (haccepts : ∀ l ∈ h.labels, ∀ unit, l.accepts unit = true → good unit) :
    h.walk R ≤ Through R good := by
  have hconsumes : ∀ {accepts : UInt16 → Bool}, (∀ unit, accepts unit = true → good unit) →
      R.Consumes accepts ≤ Through R good := by
    rintro accepts hgood c d ⟨unit, hunit, haccepted, rfl⟩
    refine ⟨Nat.le_succ _, fun p hlow hhigh => ?_⟩
    obtain rfl : p = c.1 := Nat.le_antisymm (Nat.le_of_lt_succ hhigh) hlow
    exact ⟨unit, hunit, hgood unit haccepted⟩
  have hstays : ∀ c, Through R good c c := fun c =>
    ⟨le_refl _, fun p hlow hhigh => absurd hhigh (Nat.not_lt_of_le hlow)⟩
  have htrans : ∀ {c d e}, Through R good c d → Through R good d e → Through R good c e := by
    rintro c d e ⟨hcd, hfirst⟩ ⟨hde, hsecond⟩
    refine ⟨hcd.trans hde, fun p hlow hhigh => ?_⟩
    by_cases hp : p < d.1
    · exact hfirst p hlow hp
    · exact hsecond p (Nat.le_of_not_lt hp) hhigh
  refine walk_le_of_labels hstays htrans fun l hl => ?_
  have hgood := haccepts l hl
  cases l with
  | epsilon =>
    rintro c d rfl
    exact hstays c
  | assertion a =>
    rintro c d ⟨-, rfl⟩
    exact hstays c
  | symbol s => exact hconsumes hgood
  | predicate p => exact hconsumes hgood

end Hir

/-! ### The neighbours of a position -/

/-- The unit before a position; the start of a text counts as a line feed. -/
def unitBefore (input : List UInt16) (position : ℕ) : UInt16 :=
  if position = 0 then 0x0a else input.getD (position - 1) 0x0a

/-- The unit behind a position; the end of a text counts as a line feed. -/
def unitAfter (input : List UInt16) (position : ℕ) : UInt16 := input.getD position 0x0a

/-- What an assertion says of two neighbours. -/
def Assertion.between (before after : UInt16) (afterCurrent : Bool) : Assertion → Bool
  | .lineStart => before == 0x0a
  | .lineEnd => afterCurrent && after == 0x0a
  | .wordBoundary => isAsciiWord before != isAsciiWord after
  | .nonWordBoundary => !(isAsciiWord before != isAsciiWord after)

/-- No line feed is a word unit, so the ends of a text are no word units either. -/
theorem any_isAsciiWord (unit : Option UInt16) :
    unit.any isAsciiWord = isAsciiWord (unit.getD 0x0a) := by
  cases unit with
  | none => rfl
  | some unit => rfl

/-- A word boundary lies between a word unit and another. -/
theorem isWordBoundary_eq (input : List UInt16) (position : ℕ) :
    isWordBoundary input position =
      (isAsciiWord (unitBefore input position) != isAsciiWord (unitAfter input position)) := by
  have hbefore : (if position = 0 then false else input[position - 1]?.any isAsciiWord) =
      isAsciiWord (unitBefore input position) := by
    unfold unitBefore
    split
    · rfl
    · rw [any_isAsciiWord, List.getD_eq_getElem?_getD]
  show ((if position = 0 then false else _) != _) = _
  rw [hbefore, any_isAsciiWord, unitAfter, List.getD_eq_getElem?_getD]

/-- Inside a text, an assertion looks at the neighbours of its position and at nothing else. -/
theorem assertionMatches_eq {input : List UInt16} {position : ℕ} (h : position ≤ input.length)
    (assertion : Assertion) (afterCurrent : Bool) :
    assertionMatches assertion input position afterCurrent =
      assertion.between (unitBefore input position) (unitAfter input position) afterCurrent := by
  cases assertion with
  | lineStart =>
    cases position with
    | zero => rfl
    | succ position =>
      have hunit : input[position]? = some input[position] := List.getElem?_eq_getElem h
      simp [assertionMatches, Assertion.between, unitBefore, hunit]
  | lineEnd =>
    show (afterCurrent && _) = (afterCurrent && _)
    congr 1
    obtain hlt | rfl := Nat.lt_or_eq_of_le h
    · have hunit : input[position]? = some input[position] := List.getElem?_eq_getElem hlt
      simp [unitAfter, hunit, Nat.ne_of_lt hlt]
    · simp [unitAfter]
  | wordBoundary => exact isWordBoundary_eq input position
  | nonWordBoundary => exact congrArg not (isWordBoundary_eq input position)

/-! ### Windows -/

/-- From `low` to `high`, the window reads like the text from the offset on. -/
structure Window (text window : List UInt16) (offset low high : ℕ) : Prop where
  /-- The part that agrees lies in the window. -/
  high_le : high ≤ window.length
  /-- It lies in the text too. -/
  offset_add_high_le : offset + high ≤ text.length
  /-- The units are the same. -/
  unit : ∀ p, low ≤ p → p < high → text[offset + p]? = window[p]?
  /-- The unit in front of the part is the same. -/
  before : unitBefore text (offset + low) = unitBefore window low
  /-- So is the unit behind it. -/
  after : unitAfter text (offset + high) = unitAfter window high

namespace Window

variable {text window : List UInt16} {offset low high : ℕ}

/-- A configuration of the window in the text. -/
def move (offset : ℕ) (c : Config) : Config := (offset + c.1, c.2)

/-- Different configurations are moved apart. -/
theorem move_injective : (move offset).Injective := by
  rintro ⟨p, phase⟩ ⟨q, phase'⟩ h
  obtain ⟨hp, hphase⟩ := Prod.mk.inj h
  exact Prod.ext (Nat.add_left_cancel hp) hphase

/-- The unit before a position of the window. -/
theorem unitBefore_eq (h : Window text window offset low high) {p : ℕ} (hlow : low ≤ p)
    (hhigh : p ≤ high) : unitBefore text (offset + p) = unitBefore window p := by
  obtain rfl | hlt := Nat.eq_or_lt_of_le hlow
  · exact h.before
  · have hunit := h.unit (p - 1) (by omega) (by omega)
    rw [unitBefore, unitBefore, if_neg (by omega), if_neg (by omega),
      List.getD_eq_getElem?_getD, List.getD_eq_getElem?_getD, Nat.add_sub_assoc (by omega), hunit]

/-- The unit behind a position of the window. -/
theorem unitAfter_eq (h : Window text window offset low high) {p : ℕ} (hlow : low ≤ p)
    (hhigh : p ≤ high) : unitAfter text (offset + p) = unitAfter window p := by
  obtain rfl | hlt := Nat.eq_or_lt_of_le hhigh
  · exact h.after
  · rw [unitAfter, unitAfter, List.getD_eq_getElem?_getD, List.getD_eq_getElem?_getD,
      h.unit p hlow hlt]

/-- A unit that is consumed inside the window is consumed in the text. -/
theorem consumes_agree (h : Window text window offset low high) (accepts : UInt16 → Bool) :
    Agrees (move offset) (low ≤ ·.1) (·.1 ≤ offset + high)
      ((Reading.contextual window).Consumes accepts)
      ((Reading.contextual text).Consumes accepts) where
  image := by
    rintro ⟨p, phase⟩ d hp hd ⟨unit, hunit, haccepts, rfl⟩
    have hlt : p < high := by
      have : offset + (p + 1) ≤ offset + high := hd
      omega
    exact ⟨unit, (h.unit p hp hlt).trans hunit, haccepts, rfl⟩
  preimage := by
    rintro ⟨p, phase⟩ y hp hy ⟨unit, hunit, haccepts, rfl⟩
    have hlt : p < high := by
      have : offset + p + 1 ≤ offset + high := hy
      omega
    exact ⟨(p + 1, true), rfl, unit, (h.unit p hp hlt).symm.trans hunit, haccepts, rfl⟩
  forward := by
    rintro ⟨p, phase⟩ d hp ⟨unit, -, -, rfl⟩
    exact Nat.le_succ_of_le hp
  backward := by
    rintro ⟨p, phase⟩ y hy ⟨unit, -, -, rfl⟩
    exact Nat.le_of_succ_le hy

/-- Labels do in the text what they do in the window. -/
theorem act_agree (h : Window text window offset low high) (l : Label) :
    Agrees (move offset) (low ≤ ·.1) (·.1 ≤ offset + high) ((Reading.contextual window).act l)
      ((Reading.contextual text).act l) := by
  cases l with
  | epsilon => exact .eq
  | symbol s => exact h.consumes_agree _
  | predicate p => exact h.consumes_agree _
  | assertion a =>
    -- both texts show the same neighbours
    have hholds : ∀ {p : ℕ} {phase : Bool}, low ≤ p → p ≤ high →
        assertionMatches a text (offset + p) phase = assertionMatches a window p phase := by
      intro p phase hlow hhigh
      have hp : p ≤ window.length := Nat.le_trans hhigh h.high_le
      have htext : offset + p ≤ text.length :=
        Nat.le_trans (Nat.add_le_add_left hhigh offset) h.offset_add_high_le
      rw [assertionMatches_eq hp, assertionMatches_eq htext, h.unitBefore_eq hlow hhigh,
        h.unitAfter_eq hlow hhigh]
    constructor
    · rintro ⟨p, phase⟩ d hp hd ⟨ha, rfl⟩
      exact ⟨(hholds hp (Nat.le_of_add_le_add_left hd)).trans ha, rfl⟩
    · rintro ⟨p, phase⟩ y hp hy ⟨ha, rfl⟩
      exact ⟨(p, phase), rfl, (hholds hp (Nat.le_of_add_le_add_left hy)).symm.trans ha, rfl⟩
    · rintro c d hc ⟨-, rfl⟩
      exact hc
    · rintro x y hy ⟨-, rfl⟩
      exact hy

/-- Inside a window the runs are those of the text. -/
theorem walk_iff (h : Window text window offset low high) {e : Hir} {c d : Config}
    (hlow : low ≤ c.1) (hhigh : d.1 ≤ high) :
    e.walk (Reading.contextual text) (move offset c) (move offset d) ↔
      e.walk (Reading.contextual window) c d :=
  (Hir.runs_agree fun l _ => h.act_agree l).1.iff move_injective hlow
    (Nat.add_le_add_left hhigh offset)

end Window

end Rustmatch

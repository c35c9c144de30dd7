import Rustmatch.Hir.CompiledRuns
import Rustmatch.Prefilter

/-!
# Necessary prefixes are necessary

Every run through the compiled fragment of an expression reads a text that begins with the necessary
prefix of the expression. This covers the stray runs too: an expression with a nonempty necessary
prefix, and one that is an exact literal, does not start with a loop, so a run has no way back to
where it began.

## Main definitions

* `Reads`: the text between two configurations;
* `Spells`, `Begins`: runs over texts with a given literal, cut off at the longest length, and over
  texts with a given beginning.

## Main results

* `walk_le_spells`: exact literals;
* `walk_le_begins`: necessary prefixes.
-/

open Relation

namespace Rustmatch

/-! ### Texts between configurations -/

variable (R : Reading)

/-- `text` is what lies between two configurations. -/
def Reads (c d : Config) (text : List UInt16) : Prop :=
  c.1 + text.length = d.1 ∧ text <+: R.input.drop c.1

/-- Runs over texts that are `literal`, as far as literals are kept. -/
def Spells (literal : List UInt16) (c d : Config) : Prop :=
  ∃ text, Reads R c d text ∧ text.take maxLiteralUnits = literal

/-- Runs over texts that begin with `literal`. -/
def Begins (literal : List UInt16) (c d : Config) : Prop :=
  ∃ text, Reads R c d text ∧ literal <+: text

variable {R} {a b : List UInt16}

/-- Nothing is read without a step. -/
theorem Reads.nil (c : Config) : Reads R c c [] := ⟨rfl, List.nil_prefix⟩

/-- Texts are read one after the other. -/
theorem Reads.append {c d e : Config} {text rest : List UInt16} (h : Reads R c d text)
    (hrest : Reads R d e rest) : Reads R c e (text ++ rest) := by
  obtain ⟨hlength, tail, htail⟩ := h
  obtain ⟨hlength', tail', htail'⟩ := hrest
  have hdrop : R.input.drop d.1 = tail := by
    rw [← hlength, ← List.drop_drop, ← htail, List.drop_left]
  refine ⟨by rw [List.length_append]; omega, tail', ?_⟩
  rw [List.append_assoc, htail', hdrop, htail]

/-- What is consumed is one accepted unit. -/
theorem Reads.of_consumes {accepts : UInt16 → Bool} {c d : Config}
    (h : R.Consumes accepts c d) : ∃ unit, Reads R c d [unit] ∧ accepts unit = true := by
  obtain ⟨unit, hunit, haccepts, rfl⟩ := h
  obtain ⟨hlt, rfl⟩ := List.getElem?_eq_some_iff.mp hunit
  exact ⟨_, ⟨rfl, R.input.drop (c.1 + 1), (List.drop_eq_getElem_cons hlt).symm⟩, haccepts⟩

/-- Every run reads some text. -/
theorem walk_le_begins_nil (h : Hir) : h.walk R ≤ Begins R [] := by
  refine (Hir.walk_le_of_closed (fun c => ⟨[], Reads.nil c, List.nil_prefix⟩) ?_ ?_ h).1
  · rintro c d e ⟨text, htext, -⟩ ⟨rest, hrest, -⟩
    exact ⟨text ++ rest, htext.append hrest, List.nil_prefix⟩
  · intro l c d hact
    have hconsumes : ∀ accepts, R.Consumes accepts c d → Begins R [] c d := by
      intro accepts h
      obtain ⟨unit, hunit, -⟩ := Reads.of_consumes h
      exact ⟨[unit], hunit, List.nil_prefix⟩
    cases l with
    | epsilon => exact hact ▸ ⟨[], Reads.nil c, List.nil_prefix⟩
    | assertion a => exact hact.2 ▸ ⟨[], Reads.nil c, List.nil_prefix⟩
    | symbol s => exact hconsumes _ hact
    | predicate p => exact hconsumes _ hact

/-- Items in a row read some text. -/
theorem walkItems_le_begins_nil (es : List Hir) : Hir.walkItems R es ≤ Begins R [] := by
  have hitems := @walk_le_begins_nil R (.sequence (.epsilon :: es))
  rw [Hir.walk, Hir.walkSequence, Hir.walk, eq_comp] at hitems
  exact hitems

/-- What begins with a text begins with the beginnings of that text. -/
theorem begins_mono (h : a <+: b) : Begins R b ≤ Begins R a := by
  rintro c d ⟨text, htext, hb⟩
  exact ⟨text, htext, h.trans hb⟩

/-- What spells a text begins with it. -/
theorem spells_le_begins : Spells R a ≤ Begins R a := by
  rintro c d ⟨text, htext, rfl⟩
  exact ⟨text, htext, List.take_prefix _ _⟩

/-- Nothing spells the empty text. -/
theorem eq_le_spells : (Eq : Config → Config → Prop) ≤ Spells R [] := by
  rintro c d rfl
  exact ⟨[], Reads.nil c, rfl⟩

/-- Literals in a row. -/
theorem comp_spells : Comp (Spells R a) (Spells R b) ≤ Spells R (appendBounded a b) := by
  rintro c e ⟨d, ⟨text, htext, rfl⟩, ⟨rest, hrest, rfl⟩⟩
  refine ⟨text ++ rest, htext.append hrest, ?_⟩
  rw [appendBounded, List.take_append, List.take_take, List.length_take]
  congr 2
  omega

/-- A literal before a beginning. -/
theorem comp_spells_begins : Comp (Spells R a) (Begins R b) ≤ Begins R (appendBounded a b) := by
  rintro c e ⟨d, ⟨text, htext, rfl⟩, ⟨rest, hrest, tail, rfl⟩⟩
  refine ⟨text ++ (b ++ tail), htext.append hrest, ?_⟩
  rw [appendBounded, List.length_take]
  by_cases hshort : text.length ≤ maxLiteralUnits
  · rw [List.take_of_length_le hshort]
    exact (List.prefix_append_right_inj text).mpr
      ((List.take_prefix _ _).trans (List.prefix_append _ _))
  · have hnone : maxLiteralUnits - min maxLiteralUnits text.length = 0 := by omega
    rw [hnone, List.take_zero, List.append_nil]
    exact (List.take_prefix _ _).trans (List.prefix_append _ _)

/-- A unit before a beginning. -/
theorem comp_consumes_begins (unit : UInt16) :
    Comp (R.Consumes (unit == ·)) (Begins R b) ≤ Begins R (unit :: b) := by
  rintro c e ⟨d, hconsumes, text, htext, hb⟩
  obtain ⟨other, hother, heq⟩ := Reads.of_consumes hconsumes
  obtain rfl := eq_of_beq heq
  exact ⟨[unit] ++ text, hother.append htext, List.prefix_cons_inj unit |>.mpr hb⟩

/-- What follows a beginning does not matter. -/
theorem comp_begins (s : Config → Config → Prop) (hs : s ≤ Begins R []) :
    Comp (Begins R a) s ≤ Begins R a := by
  rintro c e ⟨d, ⟨text, htext, ha⟩, hde⟩
  obtain ⟨rest, hrest, -⟩ := hs _ _ hde
  exact ⟨text ++ rest, htext.append hrest, ha.trans (List.prefix_append _ _)⟩

/-- Nothing is appended to a full literal. -/
theorem appendBounded_of_length_eq (h : a.length = maxLiteralUnits) : appendBounded a b = a := by
  rw [appendBounded, h, Nat.sub_self, List.take_zero, List.append_nil]

/-- Nothing is appended to a full literal any number of times. -/
theorem appendRepeated_of_length_eq (h : a.length = maxLiteralUnits) (n : ℕ) :
    appendRepeated b n a = a := by
  induction n with
  | zero => rfl
  | succ n ih => rw [appendRepeated, appendBounded_of_length_eq h, ih]

/-- Stopping at the longest length changes nothing. -/
theorem appendRepeatedBounded_eq (literal : List UInt16) (n : ℕ) (output : List UInt16) :
    appendRepeatedBounded literal n output = appendRepeated literal n output := by
  induction n generalizing output with
  | zero => rfl
  | succ n ih =>
    rw [appendRepeatedBounded, appendRepeated]
    split
    next hfull => rw [appendRepeated_of_length_eq hfull]
    next => exact ih _

/-- Copies of a literal. -/
theorem comp_power_spells {r s : Config → Config → Prop} (hr : r ≤ Spells R a)
    (hs : s ≤ Spells R b) (n : ℕ) : Comp r (power s n) ≤ Spells R (appendRepeated b n a) := by
  induction n generalizing r a with
  | zero =>
    rw [power_zero, comp_eq]
    exact hr
  | succ n ih =>
    rw [power_succ, ← comp_assoc]
    exact ih ((comp_mono hr hs).trans comp_spells)

/-! ### Exact literals -/

namespace Hir

/-- The items of a sequence that is an exact literal. -/
theorem comp_walkItems_le_spells {es : List Hir}
    (ih : ∀ e ∈ es, ∀ literal, e.exactLiteral = some literal → e.walk R ≤ Spells R literal)
    {r : Config → Config → Prop} (hr : r ≤ Spells R a) {literal : List UInt16}
    (h : exactItems es a = some literal) : Comp r (walkItems R es) ≤ Spells R literal := by
  induction es generalizing r a with
  | nil =>
    rw [exactItems, Option.some.injEq] at h
    rw [walkItems, comp_eq, ← h]
    exact hr
  | cons e es ihes =>
    rw [exactItems] at h
    cases hunit : e.exactLiteral with
    | none => simp [hunit] at h
    | some unit =>
      simp only [hunit] at h
      have hfirst := ih e List.mem_cons_self unit hunit
      rw [walkItems, ← comp_assoc]
      exact ihes (fun e he => ih e (List.mem_cons_of_mem _ he))
        ((comp_mono hr hfirst).trans comp_spells) h

/-- All branches are exactly the first literal. -/
theorem exactBranchesAre_iff {first : List UInt16} {es : List Hir} :
    exactBranchesAre first es = true ↔ ∀ e ∈ es, e.exactLiteral = some first := by
  induction es with
  | nil => simp [exactBranchesAre]
  | cons e es ih => rw [exactBranchesAre, Bool.and_eq_true, ih, List.forall_mem_cons, beq_iff_eq]

/-- All branches of an alternation that is an exact literal are that literal. -/
theorem exactBranches_eq_some {es : List Hir} {literal : List UInt16}
    (h : exactBranches es = some literal) :
    es ≠ [] ∧ ∀ e ∈ es, e.exactLiteral = some literal := by
  cases es with
  | nil => cases h
  | cons e es =>
    rw [exactBranches] at h
    cases hfirst : e.exactLiteral with
    | none => simp [hfirst] at h
    | some first =>
      simp only [hfirst] at h
      split at h
      next hall =>
        obtain rfl := Option.some.inj h
        exact ⟨List.cons_ne_nil _ _,
          List.forall_mem_cons.mpr ⟨hfirst, exactBranchesAre_iff.mp hall⟩⟩
      next => cases h

/-- An exact literal does not start with a loop. -/
theorem loopsAtHead_of_exactLiteral {h : Hir} {literal : List UInt16}
    (hexact : h.exactLiteral = some literal) : h.loopsAtHead = false := by
  induction h generalizing literal with
  | never => rfl
  | epsilon => rfl
  | assertion a => rfl
  | symbol s => rfl
  | predicate p => rfl
  | sequence es ih =>
    cases es with
    | nil => rfl
    | cons e es =>
      rw [exactLiteral, exactItems] at hexact
      cases hunit : e.exactLiteral with
      | none => simp [hunit] at hexact
      | some unit => exact ih e List.mem_cons_self hunit
  | alternation es ih =>
    have hall := (exactBranches_eq_some hexact).2
    exact anyLoopsAtHead_eq_false.mpr fun e he => ih e he (hall e he)
  | repetition e min max ih =>
    cases max with
    | none => cases hexact
    | some max =>
      rw [exactLiteral] at hexact
      split at hexact
      next heq =>
        obtain ⟨unit, hunit, -⟩ := Option.map_eq_some_iff.mp hexact
        have hloop := ih hunit
        subst heq
        rw [loopsAtHead, hloop]
        split
        -- no copies at all: nothing is left that could loop
        next hzero =>
          subst hzero
          rfl
        next => rfl
      next => cases hexact

/-- A run through an exact literal reads that literal. -/
theorem walk_le_spells {h : Hir} {literal : List UInt16}
    (hexact : h.exactLiteral = some literal) : h.walk R ≤ Spells R literal := by
  induction h generalizing literal with
  | never => cases hexact
  | epsilon =>
    obtain rfl := Option.some.inj hexact
    exact eq_le_spells
  | assertion a => cases hexact
  | symbol s =>
    obtain rfl := Option.some.inj hexact
    intro c d hcd
    obtain ⟨unit, hunit, haccepts⟩ := Reads.of_consumes hcd
    obtain rfl := beq_iff_eq.mp haccepts
    exact ⟨[s], hunit, rfl⟩
  | predicate p => cases hexact
  | sequence es ih =>
    cases es with
    | nil => exact bot_le
    | cons e es =>
      have hitems := comp_walkItems_le_spells (fun e he literal => ih e he) eq_le_spells hexact
      rw [eq_comp] at hitems
      exact hitems
  | alternation es ih =>
    obtain ⟨-, hall⟩ := exactBranches_eq_some hexact
    -- no branch turns, so a run is a run of one branch
    have hturn : turnAny R es = ⊥ := turnAny_eq_bot (loopsAtHead_of_exactLiteral hexact)
    rw [walk, hturn, reflTransGen_bot, eq_comp]
    exact walkAny_le fun e he => ih e he (hall e he)
  | repetition e min max ih =>
    cases max with
    | none => cases hexact
    | some max =>
      rw [exactLiteral] at hexact
      split at hexact
      next heq =>
        obtain ⟨unit, hunit, rfl⟩ := Option.map_eq_some_iff.mp hexact
        subst heq
        -- an exact count leaves nothing to the optional copies
        have htail : repetitionTail (e.turn R) (e.walk R) min (some min) = Eq := by
          rw [repetitionTail, if_neg (lt_irrefl min), Nat.sub_self]
          rfl
        have hcopies := @comp_power_spells R [] unit Eq (e.walk R) eq_le_spells (ih hunit) min
        rw [eq_comp] at hcopies
        rw [walk, htail, comp_eq]
        exact hcopies
      next => cases hexact

/-! ### Necessary prefixes -/

/-- What the literals share is a beginning of the right one. -/
theorem take_sharedCount (left right : List UInt16) :
    left.take (sharedCount left right) <+: right := by
  induction left generalizing right with
  | nil => simp
  | cons x left ih =>
    cases right with
    | nil => simp [sharedCount]
    | cons y right =>
      unfold sharedCount
      rw [List.zip_cons_cons, List.takeWhile_cons]
      split
      next heq =>
        obtain rfl : x = y := beq_iff_eq.mp heq
        rw [List.length_cons, List.take_succ_cons]
        exact List.cons_prefix_cons.mpr ⟨rfl, ih right⟩
      next => simp

/-- A literal shares all of itself. -/
theorem sharedCount_self (units : List UInt16) : sharedCount units units = units.length := by
  induction units with
  | nil => rfl
  | cons x units ih =>
    unfold sharedCount at ih ⊢
    rw [List.zip_cons_cons, List.takeWhile_cons, if_pos (beq_self_eq_true x), List.length_cons, ih,
      List.length_cons]

/-- What the branches share is a beginning of each. -/
theorem prefixOf_necessaryShared (units : List UInt16) (es : List Hir) :
    necessaryShared units es <+: units ∧
      ∀ e ∈ es, necessaryShared units es <+: e.necessaryPrefix := by
  induction es generalizing units with
  | nil => exact ⟨List.prefix_refl _, by simp⟩
  | cons e es ih =>
    have hunits : units.take (sharedCount units e.necessaryPrefix) <+: units :=
      List.take_prefix _ _
    have hfirst := take_sharedCount units e.necessaryPrefix
    rw [necessaryShared]
    split
    next hempty =>
      rw [List.isEmpty_iff.mp hempty]
      exact ⟨List.nil_prefix, fun _ _ => List.nil_prefix⟩
    next =>
      obtain ⟨hle, hall⟩ := ih (units.take (sharedCount units e.necessaryPrefix))
      exact ⟨hle.trans hunits, List.forall_mem_cons.mpr ⟨hle.trans hfirst, hall⟩⟩

/-- The necessary prefix of an alternation is a beginning of those of its branches. -/
theorem prefixOf_necessaryBranches {es : List Hir} :
    ∀ e ∈ es, necessaryBranches es <+: e.necessaryPrefix := by
  cases es with
  | nil => simp
  | cons e es =>
    obtain ⟨hfirst, hall⟩ := prefixOf_necessaryShared e.necessaryPrefix es
    exact List.forall_mem_cons.mpr ⟨hfirst, hall⟩

/-- Items of exact literals leave a full literal as it is. -/
theorem eq_of_exactItems {es : List Hir} {units literal : List UInt16}
    (hlength : units.length = maxLiteralUnits) (hexact : exactItems es units = some literal) :
    units = literal := by
  induction es with
  | nil => exact Option.some.inj hexact
  | cons e es ih =>
    rw [exactItems] at hexact
    cases hunit : e.exactLiteral with
    | none => simp [hunit] at hexact
    | some unit =>
      simp only [hunit, appendBounded_of_length_eq hlength] at hexact
      exact ih hexact

/-- Items of exact literals contribute those literals to the necessary prefix. -/
theorem necessaryItems_of_exactItems {es : List Hir}
    (hes : ∀ e ∈ es, ∀ literal, e.exactLiteral = some literal → e.necessaryPrefix = literal)
    {units literal : List UInt16} (hexact : exactItems es units = some literal) :
    necessaryItems es units = literal := by
  induction es generalizing units with
  | nil => exact Option.some.inj hexact
  | cons e es ih =>
    rw [exactItems] at hexact
    cases hunit : e.exactLiteral with
    | none => simp [hunit] at hexact
    | some unit =>
      simp only [hunit] at hexact
      rw [necessaryItems, hes e List.mem_cons_self unit hunit, hunit]
      simp only [Option.isNone_some, Bool.false_or, decide_eq_true_eq]
      split
      -- the prefix is full, and the items that are left do not change the literal either
      next hlength => exact eq_of_exactItems hlength hexact
      next => exact ih (fun e he => hes e (List.mem_cons_of_mem _ he)) hexact

/-- What branches with the same prefix share is that prefix. -/
theorem necessaryShared_eq {es : List Hir} {units : List UInt16}
    (hes : ∀ e ∈ es, e.necessaryPrefix = units) : necessaryShared units es = units := by
  induction es with
  | nil => rfl
  | cons e es ih =>
    rw [necessaryShared, hes e List.mem_cons_self, sharedCount_self, List.take_length]
    split
    · rfl
    · exact ih fun e he => hes e (List.mem_cons_of_mem _ he)

/-- The necessary prefix of an exact literal is that literal. -/
theorem necessaryPrefix_of_exactLiteral {h : Hir} {literal : List UInt16}
    (hexact : h.exactLiteral = some literal) : h.necessaryPrefix = literal := by
  induction h generalizing literal with
  | never => cases hexact
  | epsilon => exact Option.some.inj hexact
  | assertion a => cases hexact
  | symbol s => exact Option.some.inj hexact
  | predicate p => cases hexact
  | sequence es ih =>
    exact necessaryItems_of_exactItems (fun e he literal => ih e he) hexact
  | alternation es ih =>
    obtain ⟨hne, hall⟩ := exactBranches_eq_some hexact
    cases es with
    | nil => exact absurd rfl hne
    | cons e es =>
      rw [necessaryPrefix, necessaryBranches, ih e List.mem_cons_self (hall e List.mem_cons_self)]
      exact necessaryShared_eq fun e he =>
        ih e (List.mem_cons_of_mem _ he) (hall e (List.mem_cons_of_mem _ he))
  | repetition e min max ih =>
    cases max with
    | none => cases hexact
    | some max =>
      rw [exactLiteral] at hexact
      split at hexact
      next heq =>
        obtain ⟨unit, hunit, rfl⟩ := Option.map_eq_some_iff.mp hexact
        rw [necessaryPrefix, hunit]
        split
        · exact appendRepeatedBounded_eq unit min []
        next hmin =>
          obtain rfl : min = 0 := by omega
          rfl
      next => cases hexact

/-- An expression with a necessary prefix does not start with a loop. -/
theorem loopsAtHead_of_necessaryPrefix {h : Hir} (hne : h.necessaryPrefix ≠ []) :
    h.loopsAtHead = false := by
  induction h with
  | never => rfl
  | epsilon => rfl
  | assertion a => rfl
  | symbol s => rfl
  | predicate p => rfl
  | sequence es ih =>
    cases es with
    | nil => rfl
    | cons e es =>
      show e.loopsAtHead = false
      by_cases hfirst : e.necessaryPrefix = []
      · -- the first item contributes nothing, so it must be an exact literal
        cases hunit : e.exactLiteral with
        | some unit => exact loopsAtHead_of_exactLiteral hunit
        | none =>
          rw [necessaryPrefix, necessaryItems, hunit, hfirst] at hne
          exact absurd rfl hne
      · exact ih e List.mem_cons_self hfirst
  | alternation es ih =>
    -- a branch without a prefix would leave nothing to share
    refine anyLoopsAtHead_eq_false.mpr fun e he => ih e he fun hempty => hne ?_
    have hshared := prefixOf_necessaryBranches e he
    rw [hempty] at hshared
    exact List.prefix_nil.mp hshared
  | repetition e min max ih =>
    rw [necessaryPrefix] at hne
    split at hne
    next hmin =>
      rw [loopsAtHead, if_neg (by omega)]
      cases hunit : e.exactLiteral with
      | some unit => exact loopsAtHead_of_exactLiteral hunit
      | none =>
        rw [hunit] at hne
        exact ih hne
    next => exact absurd rfl hne

/-- The items of a sequence, after a literal. -/
theorem comp_walkItems_le_begins {es : List Hir}
    (ih : ∀ e ∈ es, e.walk R ≤ Begins R e.necessaryPrefix) {r : Config → Config → Prop}
    (hr : r ≤ Spells R a) : Comp r (walkItems R es) ≤ Begins R (necessaryItems es a) := by
  induction es generalizing r a with
  | nil =>
    rw [walkItems, comp_eq]
    exact hr.trans spells_le_begins
  | cons e es ihes =>
    have hfirst := ih e List.mem_cons_self
    rw [walkItems, ← comp_assoc, necessaryItems]
    split
    · -- the prefix ends here, the other items do not matter
      exact (comp_mono ((comp_mono hr hfirst).trans comp_spells_begins) (le_refl _)).trans
        (comp_begins _ (walkItems_le_begins_nil es))
    next hmore =>
      rw [Bool.or_eq_true, not_or] at hmore
      obtain ⟨unit, hunit⟩ : ∃ unit, e.exactLiteral = some unit := by
        cases hexact : e.exactLiteral with
        | some unit => exact ⟨unit, rfl⟩
        | none => exact absurd (by rw [hexact]; rfl) hmore.1
      rw [necessaryPrefix_of_exactLiteral hunit]
      exact ihes (fun e he => ih e (List.mem_cons_of_mem _ he))
        ((comp_mono hr (walk_le_spells hunit)).trans comp_spells)

/-- What follows the required copies of a repetition reads any text: it is a run of a repetition
without required copies. -/
theorem repetitionTail_le_begins_nil (e : Hir) (min : ℕ) (max : Option ℕ) :
    repetitionTail (e.turn R) (e.walk R) min max ≤ Begins R [] := by
  cases max with
  | none =>
    have hloop := @walk_le_begins_nil R (.repetition e 0 none)
    rw [walk, power_zero, eq_comp] at hloop
    exact hloop
  | some limit =>
    have hoptional := @walk_le_begins_nil R (.repetition e 0 (some (limit - min)))
    rw [walk, power_zero, eq_comp, repetitionTail, if_neg (Nat.not_lt_zero _)] at hoptional
    rw [repetitionTail]
    split
    · exact bot_le
    · exact hoptional

/-- Copies read any text: they are the runs of an exact repetition. -/
theorem power_le_begins_nil (e : Hir) (n : ℕ) : power (e.walk R) n ≤ Begins R [] := by
  have hexact := @walk_le_begins_nil R (.repetition e n (some n))
  rw [walk, repetitionTail, if_neg (lt_irrefl n), Nat.sub_self, optionalRun, comp_eq] at hexact
  exact hexact

/-- The required copies of a repetition. -/
theorem power_le_begins {e : Hir} (he : e.walk R ≤ Begins R e.necessaryPrefix) {min : ℕ}
    (hmin : min > 0) (max : Option ℕ) :
    power (e.walk R) min ≤ Begins R (necessaryPrefix (.repetition e min max)) := by
  rw [necessaryPrefix, if_pos hmin]
  cases hunit : e.exactLiteral with
  | some unit =>
    have hexact := @comp_power_spells R [] unit Eq (e.walk R) eq_le_spells
      (walk_le_spells hunit) min
    rw [eq_comp] at hexact
    show _ ≤ Begins R (appendRepeatedBounded unit min [])
    rw [appendRepeatedBounded_eq]
    exact hexact.trans spells_le_begins
  | none =>
    -- the first copy reads the prefix, the others do not matter
    obtain ⟨n, rfl⟩ : ∃ n, min = n + 1 := ⟨min - 1, by omega⟩
    rw [power_succ]
    exact (comp_mono he (le_refl _)).trans (comp_begins _ (power_le_begins_nil e n))

/-- Every run of an expression reads a text that begins with the necessary prefix. -/
theorem walk_le_begins (h : Hir) : h.walk R ≤ Begins R h.necessaryPrefix := by
  induction h with
  | never => exact bot_le
  | epsilon => exact walk_le_begins_nil .epsilon
  | assertion a => exact walk_le_begins_nil (.assertion a)
  | symbol s => exact (@walk_le_spells R (.symbol s) [s] rfl).trans spells_le_begins
  | predicate p => exact walk_le_begins_nil (.predicate p)
  | sequence es ih =>
    cases es with
    | nil => exact bot_le
    | cons e es =>
      have hitems := comp_walkItems_le_begins ih (@eq_le_spells R)
      rw [eq_comp] at hitems
      exact hitems
  | alternation es ih =>
    by_cases hempty : necessaryPrefix (.alternation es) = []
    · rw [hempty]
      exact walk_le_begins_nil _
    · have hturn : turnAny R es = ⊥ := turnAny_eq_bot (loopsAtHead_of_necessaryPrefix hempty)
      have hbranch : ∀ e ∈ es, e.walk R ≤ Begins R (necessaryPrefix (.alternation es)) :=
        fun e he => (ih e he).trans (begins_mono (prefixOf_necessaryBranches e he))
      rw [walk, hturn, reflTransGen_bot, eq_comp]
      exact walkAny_le hbranch
  | repetition e min max ih =>
    by_cases hmin : min > 0
    · rw [walk]
      exact (comp_mono (power_le_begins ih hmin max) (le_refl _)).trans
        (comp_begins _ (repetitionTail_le_begins_nil e min max))
    · rw [necessaryPrefix, if_neg hmin]
      exact walk_le_begins_nil _

end Hir

end Rustmatch

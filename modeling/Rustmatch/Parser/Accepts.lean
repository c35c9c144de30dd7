import Rustmatch.Parser.Complete

/-!
# The parser accepts exactly the patterns

`parse_with_flags`: the parser of whole texts, behind the prefix that sets flags, accepts a text
with an expression exactly when the grammar derives it; a registration fails besides when the
pattern can only match the empty word.

## Main results

* `parseExpression_eq_ok_iff`: the accepted texts and their expressions;
* `parseWithFlags_accepts_grammar`: registrations.
-/

namespace Rustmatch

namespace Parser

variable {p : Parser}

/-! ### The flag prefix -/

/-- A range of the text is a slice. -/
theorem isSlice_of_getRange {items slice : List UInt16} {start stop : ℕ}
    (h : getRange items start stop = some slice) : IsSlice items start slice stop := by
  unfold getRange at h
  split at h
  next hrange =>
    obtain rfl := Option.some.inj h
    refine ⟨?_, List.take_prefix _ _⟩
    rw [List.length_take, List.length_drop]
    omega
  next => cases h

/-- A slice is a range of the text. -/
theorem getRange_of_isSlice {items slice : List UInt16} {start stop : ℕ}
    (hstart : start ≤ items.length) (h : IsSlice items start slice stop) :
    getRange items start stop = some slice := by
  have hlength : stop - start = slice.length := by
    rw [h.stop_eq]
    omega
  rw [getRange, if_pos ⟨h.start_le, h.stop_le hstart⟩, hlength,
    ← List.prefix_iff_eq_take.mp h.isPrefix]

/-- A unit that names a flag. -/
def IsFlag (unit : UInt16) : Prop := unit = ascii 'i' ∨ unit = ascii 's'

instance (unit : UInt16) : Decidable (IsFlag unit) := inferInstanceAs (Decidable (_ ∨ _))

/-- The loop reads the longest run of flags. -/
theorem readFlags_spec (cursor : ℕ) (sawFlag sawCaseInsensitive : Bool) : ∃ flags stop,
    IsSlice p.units cursor flags stop ∧ (∀ unit ∈ flags, IsFlag unit) ∧
    (∀ unit, p.units[stop]? = some unit → ¬ IsFlag unit) ∧
    p.readFlags cursor sawFlag sawCaseInsensitive =
      (sawFlag || !flags.isEmpty, sawCaseInsensitive || flags.contains (ascii 'i'), stop) := by
  -- one case a branch of the loop: two kinds of flags, another unit, the end of the text
  induction cursor, sawFlag, sawCaseInsensitive using readFlags.induct p with
  | case1 cursor sawFlag sawCaseInsensitive hlt hunit ih =>
    obtain ⟨flags, stop, hslice, hflags, hend, heq⟩ := ih
    have hget : p.units[cursor]? = some (ascii 'i') := hunit ▸ List.getElem?_eq_getElem hlt
    refine ⟨ascii 'i' :: flags, stop, isSlice_cons.mpr ⟨hget, hslice⟩,
      List.forall_mem_cons.mpr ⟨Or.inl rfl, hflags⟩, hend, ?_⟩
    rw [readFlags, dif_pos hlt, if_pos hunit, heq]
    simp
  | case2 cursor sawFlag sawCaseInsensitive hlt hunit hunit' ih =>
    obtain ⟨flags, stop, hslice, hflags, hend, heq⟩ := ih
    have hget : p.units[cursor]? = some (ascii 's') := hunit' ▸ List.getElem?_eq_getElem hlt
    refine ⟨ascii 's' :: flags, stop, isSlice_cons.mpr ⟨hget, hslice⟩,
      List.forall_mem_cons.mpr ⟨Or.inr rfl, hflags⟩, hend, ?_⟩
    have hne : (ascii 'i' == ascii 's') = false := by decide
    rw [readFlags, dif_pos hlt, if_neg hunit, if_pos hunit', heq, List.contains_cons, hne]
    simp
  | case3 cursor sawFlag sawCaseInsensitive hlt hunit hunit' =>
    refine ⟨[], cursor, isSlice_nil.mpr rfl, by simp, fun unit hget => ?_, ?_⟩
    · obtain rfl := Option.some.inj ((List.getElem?_eq_getElem hlt).symm.trans hget)
      exact not_or.mpr ⟨hunit, hunit'⟩
    · rw [readFlags, dif_pos hlt, if_neg hunit, if_neg hunit']
      simp
  | case4 cursor sawFlag sawCaseInsensitive hlt =>
    refine ⟨[], cursor, isSlice_nil.mpr rfl, by simp, fun unit hget => ?_, ?_⟩
    · rw [List.getElem?_eq_none (Nat.not_lt.mp hlt)] at hget
      cases hget
    · rw [readFlags, dif_neg hlt]
      simp

/-- The prefix that sets `flags` stands at the beginning and ends at `stop`. -/
def HasFlags (p : Parser) (flags : List UInt16) (stop : ℕ) : Prop :=
  FlagPrefixText flags ∧
    IsSlice p.units 0 (ascii '(' :: ascii '?' :: (flags ++ [ascii ')'])) stop

/-- The same parser once `flags` are set. -/
def withFlags (p : Parser) (flags : List UInt16) : Parser :=
  { p with caseInsensitive := p.caseInsensitive || flags.contains (ascii 'i') }

/-- What `HasFlags` says about the units. -/
theorem hasFlags_iff {flags : List UInt16} {stop : ℕ} : p.HasFlags flags stop ↔
    FlagPrefixText flags ∧ IsSlice p.units 0 [ascii '(', ascii '?'] 2 ∧
      ∃ close, IsSlice p.units 2 flags close ∧ p.units[close]? = some (ascii ')') ∧
        stop = close + 1 := by
  refine and_congr_right fun _ => ?_
  rw [isSlice_cons, isSlice_cons, isSlice_append, isSlice_pair]
  simp only [isSlice_singleton, Nat.zero_add, and_true, and_assoc]

/-- The flags end where the parenthesis is closed. -/
theorem not_isFlag_of_close {index : ℕ} (hclose : p.units[index]? = some (ascii ')')) :
    ∀ unit, p.units[index]? = some unit → ¬ IsFlag unit := by
  intro unit hunit
  obtain rfl := Option.some.inj (hclose.symm.trans hunit)
  decide

/-- A text has one prefix of flags at most. -/
theorem HasFlags.unique {flags flags' : List UInt16} {stop stop' : ℕ} (h : p.HasFlags flags stop)
    (h' : p.HasFlags flags' stop') : flags = flags' ∧ stop = stop' := by
  obtain ⟨hflags, -, close, hrun, hclose, rfl⟩ := hasFlags_iff.mp h
  obtain ⟨hflags', -, close', hrun', hclose', rfl⟩ := hasFlags_iff.mp h'
  obtain ⟨rfl, rfl⟩ := hrun.run_unique hflags.known (not_isFlag_of_close hclose) hrun'
    hflags'.known (not_isFlag_of_close hclose')
  exact ⟨rfl, rfl⟩

/-- The prefix is consumed when it is there. -/
theorem consumeFlagPrefix_cases (p : Parser) :
    (∃ flags stop, p.HasFlags flags stop ∧ p.consumeFlagPrefix = (p.withFlags flags, stop)) ∨
      (∀ flags stop, ¬ p.HasFlags flags stop) ∧ p.consumeFlagPrefix = (p, 0) := by
  obtain ⟨flags, close, hrun, hknown, hend, hread⟩ := p.readFlags_spec 2 false false
  by_cases hopen : getRange p.units 0 2 = some [ascii '(', ascii '?']
  · by_cases hclose : flags ≠ [] ∧ p.currentIs close ')' = true
    · have hconsume : p.consumeFlagPrefix = (p.withFlags flags, close + 1) := by
        simp [consumeFlagPrefix, hopen, hread, hclose, withFlags]
      exact Or.inl ⟨flags, close + 1, hasFlags_iff.mpr ⟨⟨hclose.1, hknown⟩,
        isSlice_of_getRange hopen, close, hrun, currentIs_iff.mp hclose.2, rfl⟩, hconsume⟩
    · have hconsume : p.consumeFlagPrefix = (p, 0) := by
        simpa [consumeFlagPrefix, hopen, hread] using hclose
      refine Or.inr ⟨fun flags' stop' hset => hclose ?_, hconsume⟩
      obtain ⟨hflags', -, close', hrun', hclose', -⟩ := hasFlags_iff.mp hset
      obtain ⟨rfl, rfl⟩ := hrun'.run_unique hflags'.known (not_isFlag_of_close hclose') hrun
        hknown hend
      exact ⟨hflags'.ne_nil, currentIs_iff.mpr hclose'⟩
  · have hconsume : p.consumeFlagPrefix = (p, 0) := if_pos hopen
    refine Or.inr ⟨fun flags' stop' hset => hopen ?_, hconsume⟩
    exact getRange_of_isSlice (Nat.zero_le _) (hasFlags_iff.mp hset).2.1

/-- What stands behind the flags. -/
theorem HasFlags.units_eq {flags : List UInt16} {stop : ℕ} (h : p.HasFlags flags stop) :
    p.units = ascii '(' :: ascii '?' :: (flags ++ ascii ')' :: p.units.drop stop) := by
  have hdrop := h.2.drop_eq
  rw [List.drop_zero] at hdrop
  calc p.units = _ := hdrop
    _ = _ := by simp

/-- A text that begins with flags. -/
theorem hasFlags_of_units_eq {flags rest : List UInt16} (hflags : FlagPrefixText flags)
    (h : p.units = ascii '(' :: ascii '?' :: (flags ++ ascii ')' :: rest)) :
    ∃ stop, p.HasFlags flags stop ∧ p.units.drop stop = rest := by
  have happend : p.units = (ascii '(' :: ascii '?' :: (flags ++ [ascii ')'])) ++ rest := by
    rw [h]
    simp
  refine ⟨_, ⟨hflags, isSlice_of_eq_append happend⟩, ?_⟩
  rw [happend]
  exact List.drop_left

/-- Flags are no group. -/
theorem HasFlags.not_yields {flags : List UInt16} {stop last : ℕ} {expression : Hir}
    (h : p.HasFlags flags stop) : ¬ Yields (p.parseAlternation false 0 0) expression last := by
  obtain ⟨hflags, hopening, close, hrun, -, -⟩ := hasFlags_iff.mp h
  obtain ⟨hparen, hquestion, -⟩ := isSlice_pair.mp hopening
  obtain ⟨hlt, hunit⟩ := List.getElem?_eq_some_iff.mp hparen
  obtain ⟨flag, rest, rfl⟩ := List.exists_cons_of_ne_nil hflags.ne_nil
  have hcolon : p.currentIs 2 ':' = false := by
    rw [Bool.eq_false_iff, ne_eq, currentIs_iff, (isSlice_cons.mp hrun).1, Option.some.injEq]
    obtain rfl | rfl := hflags.known flag List.mem_cons_self <;> decide
  have hgroup : p.parseGroup 0 0 hlt = .error (p.invalid 0 (min 2 p.units.length)) := by
    rw [parseGroup, if_pos (currentIs_iff.mpr hquestion), if_pos (by rw [hcolon]; rfl)]
  have hatom : p.parseAtom 0 0 hlt = .error (p.invalid 0 (min 2 p.units.length)) := by
    rw [parseAtom]
    simp only [hunit]
    rw [if_neg (by decide), if_neg (by decide), if_neg (by decide), if_pos trivial, hgroup]
  -- the first item of the first branch would be the group
  intro hread
  rw [parseAlternation] at hread
  obtain ⟨first, middle, hle, hfirst, -⟩ := yields_bind_iff.mp hread
  rw [parseSequence, parseItems, dif_pos hlt] at hfirst
  simp only [hunit, hatom] at hfirst
  rw [if_neg (by decide), if_neg (by decide)] at hfirst
  cases hfirst

/-! ### Whole texts -/

/-- From an index on, the accepted texts are lists of branches. -/
theorem yields_parseAlternation_iff {index : ℕ} (hindex : index ≤ p.units.length)
    {expression : Hir} :
    Yields (p.parseAlternation false 0 index) expression p.units.length ↔
      ∃ branches, BranchesText p.toCaseRules 0 (p.units.drop index) branches ∧
        expression = .mkAlternation branches := by
  constructor
  · intro h
    obtain ⟨-, text, branches, hslice, hbranches, rfl⟩ :=
      parseAlternation_sound (Nat.zero_le maxGroupNesting) h
    obtain rfl := (isSlice_drop hindex).mp hslice
    exact ⟨branches, hbranches, rfl⟩
  · rintro ⟨branches, hbranches, rfl⟩
    have hends : p.Ends false p.units.length := by
      intro unit hunit
      rw [List.getElem?_eq_none (Nat.le_refl _)] at hunit
      cases hunit
    obtain ⟨first, rest, middle, rfl, ⟨hle, hfirst⟩, ⟨hle', hrest⟩⟩ :=
      parseBranches_complete hbranches ((isSlice_drop hindex).mpr rfl) hends
    rw [parseAlternation]
    exact yields_bind_iff.mpr ⟨first, middle, hle, hfirst,
      yields_bind_iff.mpr ⟨rest, _, hle', hrest, yields_pure.mpr ⟨rfl, rfl⟩⟩⟩

/-- A whole text is read when the branches end at its end. -/
theorem parseExpression_eq_ok {p' : Parser} {index : ℕ} (h : p.consumeFlagPrefix = (p', index))
    {expression : Hir} :
    p.parseExpression = .ok expression ↔
      Yields (p'.parseAlternation false 0 index) expression p'.units.length := by
  unfold parseExpression
  rw [h]
  constructor
  · intro hread
    obtain ⟨⟨value, last, hle⟩, halternation, hrest⟩ := bind_eq_ok.mp hread
    split at hrest
    next => cases hrest
    next hlast =>
      cases hrest
      obtain rfl := not_not.mp hlast
      exact ⟨hle, halternation⟩
  · rintro ⟨hle, halternation⟩
    refine bind_eq_ok.mpr ⟨_, halternation, ?_⟩
    rw [if_neg (not_not.mpr rfl)]
    rfl

/-- Patterns with flags and without. -/
theorem patternText_iff {rules : CaseRules} {text : List UInt16} {expression : Hir} :
    PatternText rules text expression ↔
      (∃ branches, BranchesText rules 0 text branches ∧ expression = .mkAlternation branches) ∨
        ∃ flags rest branches, FlagPrefixText flags ∧
          text = ascii '(' :: ascii '?' :: (flags ++ ascii ')' :: rest) ∧
          BranchesText { rules with
            caseInsensitive := rules.caseInsensitive || flags.contains (ascii 'i') } 0 rest
            branches ∧
          expression = .mkAlternation branches := by
  constructor
  · rintro (hbranches | ⟨hflags, hbranches⟩)
    · exact Or.inl ⟨_, hbranches, rfl⟩
    · exact Or.inr ⟨_, _, _, hflags, rfl, hbranches, rfl⟩
  · rintro (⟨branches, hbranches, rfl⟩ | ⟨flags, rest, branches, hflags, rfl, hbranches, rfl⟩)
    · exact .plain hbranches
    · exact .flagged hflags hbranches

/-- The parser accepts a text with an expression exactly when the grammar derives it. -/
theorem parseExpression_eq_ok_iff {expression : Hir} :
    p.parseExpression = .ok expression ↔ PatternText p.toCaseRules p.units expression := by
  rw [patternText_iff]
  obtain ⟨flags, stop, hset, hconsume⟩ | ⟨hnone, hconsume⟩ := p.consumeFlagPrefix_cases
  · rw [parseExpression_eq_ok hconsume,
      @yields_parseAlternation_iff (p.withFlags flags) _ (hset.2.stop_le (Nat.zero_le _))]
    constructor
    · rintro ⟨branches, hbranches, rfl⟩
      exact Or.inr ⟨flags, _, branches, hset.1, hset.units_eq, hbranches, rfl⟩
    · rintro
        (⟨branches, hbranches, rfl⟩ | ⟨flags', rest, branches, hflags', hunits, hbranches, rfl⟩)
      · exact absurd ((yields_parseAlternation_iff (Nat.zero_le _)).mpr ⟨branches, hbranches, rfl⟩)
          hset.not_yields
      · obtain ⟨stop', hset', rfl⟩ := hasFlags_of_units_eq hflags' hunits
        obtain ⟨rfl, rfl⟩ := hset.unique hset'
        exact ⟨branches, hbranches, rfl⟩
  · rw [parseExpression_eq_ok hconsume, yields_parseAlternation_iff (Nat.zero_le _), List.drop_zero]
    refine ⟨Or.inl, ?_⟩
    rintro (hplain | ⟨flags, rest, branches, hflags, hunits, -, -⟩)
    · exact hplain
    · obtain ⟨stop, hset, -⟩ := hasFlags_of_units_eq hflags hunits
      exact absurd hset (hnone flags stop)

/-- A text is a pattern in at most one way. -/
theorem PatternText.unique {p : Parser} {expression expression' : Hir}
    (h : PatternText p.toCaseRules p.units expression)
    (h' : PatternText p.toCaseRules p.units expression') : expression = expression' :=
  Except.ok.inj ((parseExpression_eq_ok_iff.mpr h).symm.trans (parseExpression_eq_ok_iff.mpr h'))

/-- `Parser::new`, with the case table. -/
def new (lowerUpper : UInt16 → UInt16 × UInt16) (patternId : PatternId) (units : List UInt16)
    (flags : PatternFlags) : Parser where
  caseInsensitive := flags.isCaseInsensitive
  lowerUpper := lowerUpper
  patternId := patternId
  units := units

end Parser

/-! ### Registrations -/

section ParseWithFlags

variable (lowerUpper : UInt16 → UInt16 × UInt16) (patternId : PatternId) (units : List UInt16)
  (flags : PatternFlags)

/-- The patterns that `parse_with_flags` refuses because they only match the empty word. -/
def HirPattern.isZeroWidth (pattern : HirPattern) : Bool :=
  pattern.nullable && pattern.minimumConsumed == some 0 && !pattern.expression.canConsume

/-- `parse_with_flags`: refuse the empty text, parse, and refuse what has no width. -/
def parseWithFlags : Except Error HirPattern :=
  if units.isEmpty then .error (.emptyPattern patternId)
  else
    let p := Parser.new lowerUpper patternId units flags
    match h : p.parseExpression with
    | .error error => .error error
    | .ok expression =>
      let pattern := HirPattern.new patternId expression
        (Parser.parseExpression_eq_ok_iff.mp h).sequencesNonempty
      if pattern.isZeroWidth then .error (p.invalid 0 units.length) else .ok pattern

/-- What is accepted is a pattern with its identity. -/
theorem parseWithFlags_eq_ok {pattern : HirPattern}
    (h : parseWithFlags lowerUpper patternId units flags = .ok pattern) :
    ∃ htext : PatternText ⟨flags.isCaseInsensitive, lowerUpper⟩ units pattern.expression,
      pattern = .new patternId pattern.expression htext.sequencesNonempty ∧
        pattern.isZeroWidth = false := by
  unfold parseWithFlags at h
  split at h
  next => cases h
  next =>
    simp only at h
    split at h
    next => cases h
    next expression hexpression =>
      split at h
      next => cases h
      next hwidth =>
        cases h
        exact ⟨Parser.parseExpression_eq_ok_iff.mp hexpression, rfl, Bool.eq_false_iff.mpr hwidth⟩

variable {lowerUpper patternId units flags}

/-- A text of the grammar is either accepted with its expression or refused as zero-width. -/
theorem parseWithFlags_eq_of_patternText {expression : Hir} (hunits : units ≠ [])
    (htext : PatternText ⟨flags.isCaseInsensitive, lowerUpper⟩ units expression) :
    parseWithFlags lowerUpper patternId units flags =
      if (HirPattern.new patternId expression htext.sequencesNonempty).isZeroWidth then
        .error ((Parser.new lowerUpper patternId units flags).invalid 0 units.length)
      else .ok (.new patternId expression htext.sequencesNonempty) := by
  have hnonempty : ¬ units.isEmpty = true := by rwa [List.isEmpty_iff]
  have hread := (@Parser.parseExpression_eq_ok_iff (.new lowerUpper patternId units flags) _).mpr
    htext
  rw [parseWithFlags, if_neg hnonempty]
  simp only
  split
  next error herror =>
    rw [hread] at herror
    cases herror
  next other hother =>
    obtain rfl : expression = other := Except.ok.inj (hread.symm.trans hother)
    rfl

/-- A syntax error is passed on. -/
theorem parseWithFlags_eq_of_error {reason : Error} (hunits : units ≠ [])
    (h : (Parser.new lowerUpper patternId units flags).parseExpression = .error reason) :
    parseWithFlags lowerUpper patternId units flags = .error reason := by
  have hnonempty : ¬ units.isEmpty = true := by rwa [List.isEmpty_iff]
  rw [parseWithFlags, if_neg hnonempty]
  simp only
  split
  next other hother => rw [Except.error.inj (hother.symm.trans h)]
  next expression hexpression =>
    rw [h] at hexpression
    cases hexpression

variable (lowerUpper patternId units flags)

/-- A registration is accepted when its text is a pattern that can consume units. -/
theorem parseWithFlags_accepts_grammar (hunits : units ≠ []) :
    (∀ expression, (Parser.new lowerUpper patternId units flags).parseExpression = .ok expression ↔
      PatternText ⟨flags.isCaseInsensitive, lowerUpper⟩ units expression) ∧
    ∀ pattern, parseWithFlags lowerUpper patternId units flags = .ok pattern ↔
      ∃ h : PatternText ⟨flags.isCaseInsensitive, lowerUpper⟩ units pattern.expression,
        pattern = .new patternId pattern.expression h.sequencesNonempty ∧
          pattern.isZeroWidth = false := by
  refine ⟨fun expression => Parser.parseExpression_eq_ok_iff, fun pattern =>
    ⟨parseWithFlags_eq_ok lowerUpper patternId units flags, ?_⟩⟩
  rintro ⟨htext, hpattern, hwidth⟩
  rw [hpattern] at hwidth
  rw [parseWithFlags_eq_of_patternText hunits htext, if_neg (Bool.eq_false_iff.mp hwidth),
    ← hpattern]

/-- The bars in front of the two ends of `(a|)|` add no branches. -/
theorem parseWithFlags_accepts_bars :
    (Parser.new (fun unit => (unit, unit)) ⟨7⟩
      [ascii '(', ascii 'a', ascii '|', ascii ')', ascii '|'] .none).parseExpression =
        .ok (.symbol 0x61) := by
  have hletter : BranchesText ⟨false, fun unit => (unit, unit)⟩ 1 [ascii 'a', ascii '|']
      [.mkSequence [.symbol 0x61]] :=
    .trailing (.plain (.literal rfl) .nil)
  have hgroup : BranchesText ⟨false, fun unit => (unit, unit)⟩ 0
      [ascii '(', ascii 'a', ascii '|', ascii ')', ascii '|'] [.mkSequence [.symbol 0x61]] :=
    .trailing (.plain (.group .capturing (by decide) (List.cons_ne_nil _ _) hletter) .nil)
  exact ((parseWithFlags_accepts_grammar (fun unit => (unit, unit)) ⟨7⟩ _ .none
    (List.cons_ne_nil _ _)).1 _).mpr (.plain hgroup)

end ParseWithFlags

end Rustmatch

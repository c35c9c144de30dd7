import Rustmatch.Matcher.Reports
import Rustmatch.Matcher.Sizes

/-!
# Scans and the oracles of the tests

The tests compare scans with two oracles. The interpreter of expressions finds the longest match of
every start; the engines agree with it on all expressions that keep their loops apart. The oracle
for literals tries every start of the input; matchers for sets of literals, which can spell any
word, agree with it however they are built.

## Main definitions

* `Hir.expectedSpans`: the oracle for expressions;
* `literalOracle`: the oracle for literals;
* `LiteralRegistration`: a text that spells a word.

## Main results

* `scans_match_interpreter`: expressions that keep their loops apart;
* `literals_match_oracle`: sets of literals.
-/

namespace Rustmatch

/-! ### The interpreter -/

namespace Hir

/-- `interpret` of the tests. -/
def interpret (input : List UInt16) (h : Hir) (start : ℕ) : Finset ℕ :=
  (h.interpretFrom input (start, false)).image Prod.fst

/-- The longest match of a start, which is not empty. -/
def longestMatch (input : List UInt16) (h : Hir) (start : ℕ) : Option ℕ :=
  let ends := (h.interpret input start).filter (start < ·)
  if hends : ends.Nonempty then some (ends.max' hends) else none

/-- What the test `bounded_generated_composition_agrees_with_tiny_hir_interpreter` expects. -/
def expectedSpans (input : List UInt16) (h : Hir) : List Utf16Span :=
  (List.range input.length).filterMap fun start =>
    (h.longestMatch input start).map fun stop => ⟨start, stop⟩

end Hir

section Interpreter

variable {p : HirPattern} {input : List UInt16}

/-- Where loops are kept apart, the accepted ends are those of the interpreter. -/
theorem HirPattern.mem_acceptedEnds_iff_interpret (hapart : p.expression.loopsApart = true)
    {start stop : ℕ} : stop ∈ p.acceptedEnds (Reading.contextual input) start ↔
      stop ∈ (p.expression.interpret input start).filter (start < ·) := by
  rw [mem_acceptedEnds_iff, Hir.walk_eq_denote p.sequencesNonempty hapart, Finset.mem_filter,
    and_comm]
  simp only [Hir.interpret, Finset.mem_image, Prod.exists, exists_and_right, exists_eq_right,
    Hir.mem_interpretFrom_iff]

/-- Where loops are kept apart, the event of a start is the longest match of the interpreter. -/
theorem HirPattern.eventAt_eq_longestMatch (hapart : p.expression.loopsApart = true) (start : ℕ) :
    p.eventAt input start = (p.expression.longestMatch input start).map fun stop =>
      ⟨p.patternId, ⟨start, stop⟩⟩ := by
  have hends := @p.mem_acceptedEnds_iff_interpret input hapart start
  have hlongest : longestEnd (p.acceptedEnds (Reading.contextual input) start) =
      p.expression.longestMatch input start := by
    unfold Hir.longestMatch
    simp only
    split
    next hne =>
      refine longestEnd_of_isGreatest ⟨hends.mpr (Finset.max'_mem _ hne), fun stop hstop => ?_⟩
      exact Finset.le_max' _ _ (hends.mp hstop)
    next hnone =>
      rw [longestEnd_eq_none_iff, Set.eq_empty_iff_forall_notMem]
      exact fun stop hstop => hnone ⟨stop, hends.mp hstop⟩
  rw [eventAt, hlongest]

/-- The scans of all matchers with a pattern that keeps its loops apart deliver for it what the
interpreter finds: one event for every start with a match, in order, with the longest match of the
start. -/
theorem scans_match_interpreter {builder : MatcherBuilder} {matcher : Matcher} {host : Host}
    (h : builder.build = .ok matcher) (hp : p ∈ builder.patterns)
    (hapart : p.expression.loopsApart = true) (input : Utf16Text)
    (hthreads : (matcher.scan host input).ending ≠ .returned (.error .workerUnavailable)) :
    ((matcher.scan host input).events.filter fun event => event.patternId = p.patternId).map
      Match.span = p.expression.expectedSpans input.units := by
  rw [MatcherBuilder.filter_scan_events h hp input hthreads, HirPattern.events,
    List.map_filterMap, Hir.expectedSpans]
  refine List.filterMap_congr fun start _ => ?_
  rw [HirPattern.eventAt_eq_longestMatch hapart, Option.map_map]
  rfl

/-- The spans of a pattern that asks for a boundary. -/
theorem scans_match_interpreter_mixedBuilder : ∃ matcher, mixedBuilder.build = .ok matcher ∧
    ((matcher.scan readyHost textAb).events.filter fun event =>
      event.patternId = boundaryPattern.patternId).map Match.span =
        boundaryPattern.expression.expectedSpans textAb.units := by
  have hbuild : ∃ matcher, mixedBuilder.build = .ok matcher := ⟨_, rfl⟩
  obtain ⟨matcher, h⟩ := hbuild
  have hmem : boundaryPattern ∈ mixedBuilder.patterns :=
    List.mem_cons_of_mem _ (List.mem_singleton_self _)
  exact ⟨matcher, h, scans_match_interpreter h hmem rfl textAb
    (MatcherBuilder.scan_ne_workerUnavailable h readyHost_starts textAb)⟩

end Interpreter

/-! ### Literals -/

/-- A text spells a word when its units stand for themselves or are escaped. -/
inductive WordText : List UInt16 → List UInt16 → Prop
  /-- The empty text spells the empty word. -/
  | nil : WordText [] []
  /-- A unit that is not reserved stands for itself. -/
  | plain {unit : UInt16} {text word : List UInt16} (h : isReserved unit = false) :
      WordText text word → WordText (unit :: text) (unit :: word)
  /-- A reserved unit is escaped. -/
  | escaped {unit : UInt16} {text word : List UInt16} (h : isEscapedLiteral unit = true) :
      WordText text word → WordText (ascii '\\' :: unit :: text) (unit :: word)

namespace WordText

variable {text word : List UInt16} {lowerUpper : UInt16 → UInt16 × UInt16}

/-- Read as a pattern, the text is a sequence of the units of the word. -/
theorem itemsText (h : WordText text word) (depth : ℕ) :
    ItemsText ⟨false, lowerUpper⟩ depth text (word.map Hir.symbol) := by
  induction h with
  | nil => exact .nil
  | @plain unit text word hunit _ ih =>
    exact @ItemsText.plain ⟨false, lowerUpper⟩ depth [unit] text _ _ (.literal hunit) ih
  | @escaped unit text word hunit _ ih =>
    exact @ItemsText.plain ⟨false, lowerUpper⟩ depth [ascii '\\', unit] text _ _
      (.escape (.literal hunit)) ih

end WordText

/-- The expression of a word. -/
def wordExpression (word : List UInt16) : Hir := .mkAlternation [.mkSequence (word.map .symbol)]

/-- A word of one unit is the unit, a longer one the sequence of its units. -/
theorem wordExpression_eq {word : List UInt16} (hne : word ≠ []) :
    (∃ unit, word = [unit] ∧ wordExpression word = .symbol unit) ∨
      2 ≤ word.length ∧ wordExpression word = .sequence (word.map .symbol) := by
  have hflatten : Hir.flattenSequence (word.map .symbol) = some (word.map .symbol) := by
    clear hne
    induction word with
    | nil => rfl
    | cons unit word ih =>
      rw [List.map_cons, Hir.flattenSequence, ih]
      · rfl
      all_goals simp
  unfold wordExpression Hir.mkSequence
  rw [hflatten]
  cases word with
  | nil => exact absurd rfl hne
  | cons unit word =>
    cases word with
    | nil => exact Or.inl ⟨unit, rfl, rfl⟩
    | cons unit' word => exact Or.inr ⟨by simp, rfl⟩

/-- The units of a word, one after the other. -/
theorem languageAll_map_symbol (word : List UInt16) :
    Hir.languageAll (word.map .symbol) = {word} := by
  induction word with
  | nil => rfl
  | cons unit word ih =>
    rw [List.map_cons, Hir.languageAll, Hir.language, ih, Language.mul_def]
    exact Set.image2_singleton

/-- The language of a word is the word. -/
theorem language_wordExpression (word : List UInt16) :
    (wordExpression word).language = {word} := by
  rw [wordExpression, Hir.language_mkAlternation, Hir.languageAny_singleton,
    Hir.language_mkSequence, languageAll_map_symbol]

/-- A word has no loops and no assertions, and needs a state between any two of its units. -/
theorem wordExpression_spec {word : List UInt16} (hne : word ≠ []) :
    (wordExpression word).loopsApart = true ∧ (wordExpression word).usesAssertions = false ∧
      (wordExpression word).footprint = ⟨word.length - 1, ∅⟩ := by
  obtain ⟨unit, rfl, heq⟩ | ⟨-, heq⟩ := wordExpression_eq hne
  · rw [heq]
    exact ⟨rfl, rfl, rfl⟩
  · have hitems : ∀ e ∈ word.map Hir.symbol, ∃ unit, e = .symbol unit := by
      intro e he
      obtain ⟨unit, -, rfl⟩ := List.mem_map.mp he
      exact ⟨unit, rfl⟩
    rw [heq]
    refine ⟨?_, ?_, ?_⟩
    · rw [Hir.loopsApart, Hir.allLoopsApart_iff]
      intro e he
      obtain ⟨unit, rfl⟩ := hitems e he
      rfl
    · rw [Hir.usesAssertions, Hir.anyUsesAssertions_eq_any, List.any_eq_false]
      intro e he
      obtain ⟨unit, rfl⟩ := hitems e he
      exact Bool.false_ne_true
    · have hsymbols : Hir.stateCountAll (word.map .symbol) = 0 ∧
          Hir.classesAll (word.map .symbol) = ∅ := by
        clear hne heq hitems
        induction word with
        | nil => exact ⟨rfl, rfl⟩
        | cons unit word ih =>
          rw [List.map_cons, Hir.stateCountAll, Hir.classesAll, ih.1, ih.2]
          exact ⟨rfl, rfl⟩
      refine Footprint.ext ?_ ?_
      · simp [Hir.footprint, Hir.stateCount, hsymbols.1]
      · simp [Hir.footprint, Hir.classes, hsymbols.2]

/-- A registration whose text spells a word, which is not empty. -/
structure LiteralRegistration where
  /-- The identity of the pattern. -/
  patternId : PatternId
  /-- The text of the pattern. -/
  text : List UInt16
  /-- The units that the text spells. -/
  word : List UInt16
  /-- The text spells the word. -/
  wordText : WordText text word
  /-- Something is spelled. -/
  word_ne_nil : word ≠ []

namespace LiteralRegistration

variable (r : LiteralRegistration) {lowerUpper : UInt16 → UInt16 × UInt16}

/-- The text is a pattern for the expression of the word. -/
theorem patternText : PatternText ⟨false, lowerUpper⟩ r.text (wordExpression r.word) :=
  .plain (.last (r.wordText.itemsText 0))

/-- The registered pattern. -/
def pattern : HirPattern :=
  .new r.patternId (wordExpression r.word)
    (@patternText r fun unit => (unit, unit)).sequencesNonempty

/-- The registration is accepted. -/
theorem parse : parseWithFlags lowerUpper r.patternId r.text .none = .ok r.pattern := by
  have htext : r.text ≠ [] := by
    obtain ⟨patternId, text, word, hword, hne⟩ := r
    cases hword with
    | nil => exact absurd rfl hne
    | plain | escaped => exact List.cons_ne_nil _ _
  have hwidth : ¬ r.pattern.isZeroWidth = true := by
    intro hzero
    have hone := (@patternText r lowerUpper).valid.zeroWidth_iff.mp hzero
    rw [language_wordExpression] at hone
    have hnil : r.word ∈ (1 : Language UInt16) := hone ▸ Set.mem_singleton r.word
    exact r.word_ne_nil (Language.mem_one _ |>.mp hnil)
  have hpattern : PatternText ⟨PatternFlags.none.isCaseInsensitive, lowerUpper⟩ r.text
      (wordExpression r.word) := r.patternText
  rw [parseWithFlags_eq_of_patternText htext hpattern]
  exact if_neg hwidth

/-- The call that registers the text. -/
def call : BuilderCall := .add r.patternId r.text

/-- The needs of the pattern. -/
theorem footprint_pattern : r.pattern.footprint = ⟨r.word.length + 1, ∅⟩ := by
  have hlength := List.length_pos_of_ne_nil r.word_ne_nil
  rw [HirPattern.footprint, show r.pattern.expression = wordExpression r.word from rfl,
    (wordExpression_spec r.word_ne_nil).2.2]
  refine Footprint.ext ?_ (Finset.empty_union ∅)
  show 2 + (r.word.length - 1) = r.word.length + 1
  omega

/-- The needs of the patterns: states only. -/
theorem sum_footprint (registrations : List LiteralRegistration) :
    ((registrations.map pattern).map HirPattern.footprint).sum =
      ⟨(registrations.map fun r => r.word.length + 1).sum, ∅⟩ := by
  induction registrations with
  | nil => rfl
  | cons r rest ih =>
    rw [List.map_cons, List.map_cons, List.sum_cons, ih, r.footprint_pattern]
    exact Footprint.ext rfl (Finset.empty_union ∅)

/-- All registrations of new identities are accepted, in order. -/
theorem run_calls {registrations : List LiteralRegistration} (fields : BuilderFields)
    (hnew : ∀ r ∈ registrations, r.patternId ∉ fields.patternIds)
    (hids : (registrations.map LiteralRegistration.patternId).Nodup) :
    BuilderFields.acceptedCalls lowerUpper fields (registrations.map call) =
        registrations.map call ∧
      (fields.run lowerUpper (registrations.map call)).patterns =
        fields.patterns ++ registrations.map pattern := by
  induction registrations generalizing fields with
  | nil => exact ⟨rfl, (List.append_nil _).symm⟩
  | cons r rest ih =>
    obtain ⟨hfirst, hrest⟩ := List.forall_mem_cons.mp hnew
    rw [List.map_cons, List.nodup_cons] at hids
    -- behind the first call, its identity is taken
    have hcall : fields.call lowerUpper r.call = (.ok (), { fields with
        patternIds := insert r.patternId fields.patternIds
        patterns := fields.patterns ++ [r.pattern] }) := by
      show fields.addWithFlags lowerUpper r.patternId r.text .none = _
      rw [BuilderFields.addWithFlags, if_neg hfirst, r.parse]
    have hstillNew : ∀ r' ∈ rest, r'.patternId ∉ insert r.patternId fields.patternIds := by
      intro r' hr' hmem
      obtain heq | hold := Finset.mem_insert.mp hmem
      · exact hids.1 (heq ▸ List.mem_map_of_mem hr')
      · exact hrest r' hr' hold
    obtain ⟨haccepted, hpatterns⟩ := ih { fields with
      patternIds := insert r.patternId fields.patternIds
      patterns := fields.patterns ++ [r.pattern] } hstillNew hids.2
    refine ⟨?_, ?_⟩
    · rw [List.map_cons, BuilderFields.acceptedCalls, hcall]
      exact congrArg _ haccepted
    · rw [List.map_cons, BuilderFields.run, List.foldl_cons, hcall, ← BuilderFields.run, hpatterns]
      simp

end LiteralRegistration

/-- `literal_oracle` of the tests, with the identities as they are given. -/
def literalOracle (registrations : List (PatternId × List UInt16)) (input : List UInt16) :
    List Match :=
  registrations.flatMap fun registration =>
    (List.range (input.length - registration.2.length + 1)).filterMap fun start =>
      if registration.2.isPrefixOf (input.drop start) then
        some ⟨registration.1, ⟨start, start + registration.2.length⟩⟩
      else none

example : literalOracle [(⟨7⟩, [ascii 'a', ascii '.'])] [ascii 'a', ascii '.', ascii 'a'] =
    [⟨⟨7⟩, ⟨0, 2⟩⟩] := by
  decide

/-- A function without values from some number on has the same values on all longer ranges. -/
theorem filterMap_range_of_none {α : Type} {f : ℕ → Option α} {m n : ℕ} (hle : m ≤ n)
    (h : ∀ k, m ≤ k → f k = none) : (List.range n).filterMap f = (List.range m).filterMap f := by
  obtain ⟨more, rfl⟩ := Nat.exists_eq_add_of_le hle
  have hnone : (List.range more).filterMap (f ∘ (m + ·)) = [] :=
    List.filterMap_eq_nil_iff.mpr fun k _ => h (m + k) (Nat.le_add_right m k)
  rw [List.range_add, List.filterMap_append, List.filterMap_map, hnone, List.append_nil]

namespace LiteralRegistration

variable (r : LiteralRegistration) {input : List UInt16}

/-- The word is accepted where it stands. -/
theorem mem_acceptedEnds_pattern {start stop : ℕ} :
    stop ∈ r.pattern.acceptedEnds (Reading.contextual input) start ↔
      r.word <+: input.drop start ∧ stop = start + r.word.length := by
  have hpos := List.length_pos_of_ne_nil r.word_ne_nil
  obtain ⟨hapart, hfree, -⟩ := wordExpression_spec r.word_ne_nil
  have hwalk := Hir.walk_eq_leads r.pattern.sequencesNonempty hapart hfree input
  rw [show r.pattern.expression.language = {r.word} from language_wordExpression r.word] at hwalk
  rw [HirPattern.mem_acceptedEnds_iff, hwalk]
  constructor
  · rintro ⟨-, phase, word, hword, hbegins, hconfig⟩
    obtain rfl := Set.mem_singleton_iff.mp hword
    exact ⟨hbegins, (Prod.mk.inj hconfig).1⟩
  · rintro ⟨hbegins, rfl⟩
    exact ⟨by omega, _, r.word, Set.mem_singleton r.word, hbegins, rfl⟩

/-- The event of a start is the word, if it stands there. -/
theorem eventAt_pattern (start : ℕ) : r.pattern.eventAt input start =
    if r.word.isPrefixOf (input.drop start) then
      some ⟨r.patternId, ⟨start, start + r.word.length⟩⟩ else none := by
  have hends := @r.mem_acceptedEnds_pattern input start
  unfold HirPattern.eventAt
  split
  next hbegins =>
    rw [List.isPrefixOf_iff_prefix] at hbegins
    have hgreatest : IsGreatest (r.pattern.acceptedEnds (Reading.contextual input) start)
        (start + r.word.length) :=
      ⟨hends.mpr ⟨hbegins, rfl⟩, fun stop hstop => (hends.mp hstop).2.le⟩
    rw [longestEnd_of_isGreatest hgreatest]
    rfl
  next hbegins =>
    rw [List.isPrefixOf_iff_prefix] at hbegins
    have hempty : r.pattern.acceptedEnds (Reading.contextual input) start = ∅ :=
      Set.eq_empty_of_forall_notMem fun stop hstop => hbegins (hends.mp hstop).1
    rw [hempty, longestEnd_empty]
    rfl

/-- The events of the pattern are what the oracle expects. -/
theorem events_pattern : r.pattern.events input =
    (List.range (input.length - r.word.length + 1)).filterMap fun start =>
      if r.word.isPrefixOf (input.drop start) then
        some ⟨r.patternId, ⟨start, start + r.word.length⟩⟩ else none := by
  have hpos := List.length_pos_of_ne_nil r.word_ne_nil
  -- a word does not stand where fewer units are left
  have hshort : ∀ start, input.length < start + r.word.length →
      r.pattern.eventAt input start = none := by
    intro start hstart
    rw [eventAt_pattern, if_neg]
    intro hbegins
    have hle := (List.isPrefixOf_iff_prefix.mp hbegins).length_le
    rw [List.length_drop] at hle
    omega
  rw [HirPattern.events, ← funext r.eventAt_pattern]
  obtain hle | hlt := le_or_gt r.word.length input.length
  · exact filterMap_range_of_none (by omega) fun start hstart => hshort start (by omega)
  · rw [filterMap_range_of_none (Nat.zero_le _) fun start _ => hshort start (by omega),
      filterMap_range_of_none (Nat.zero_le (input.length - _ + 1)) fun start _ =>
        hshort start (by omega)]

end LiteralRegistration

/-- Sets of literals are accepted, and every matcher that has them, whatever its settings, delivers
what the oracle expects, if their units and as many more as there are literals are fewer than there
are ids. -/
theorem literals_match_oracle (lowerUpper : UInt16 → UInt16 × UInt16)
    {registrations : List LiteralRegistration} (hne : registrations ≠ [])
    (hids : (registrations.map LiteralRegistration.patternId).Nodup)
    (hsize : (registrations.map fun r => r.word.length + 1).sum < 2 ^ 32) :
    let calls := registrations.map LiteralRegistration.call
    let fields := MatcherBuilder.new.fields.run lowerUpper calls
    BuilderFields.acceptedCalls lowerUpper MatcherBuilder.new.fields calls = calls ∧
      (∃ builder : MatcherBuilder, builder.fields = fields) ∧
      ∀ builder : MatcherBuilder, builder.patterns = fields.patterns → builder.workerCount ≠ 0 →
        ∃ matcher, builder.build = .ok matcher ∧
          ∀ host : Host, host.Starts → ∀ input : Utf16Text,
            (matcher.scan host input).ending = .returned (.ok ()) ∧
              (matcher.scan host input).events.Perm
                (literalOracle (registrations.map fun r => (r.patternId, r.word)) input.units) := by
  intro calls fields
  obtain ⟨haccepted, hpatterns⟩ := @LiteralRegistration.run_calls lowerUpper registrations
    MatcherBuilder.new.fields (fun r _ => Finset.notMem_empty _) hids
  obtain ⟨first, hfirst⟩ := @BuilderFields.exists_builder_of_run lowerUpper .new calls
  refine ⟨haccepted, ⟨first, hfirst.symm⟩, fun builder hbuilder hworkers => ?_⟩
  have hall : builder.patterns = registrations.map LiteralRegistration.pattern :=
    hbuilder.trans (hpatterns.trans (List.nil_append _))
  have hfits : (patternSetFootprint 1 builder.patterns).Fits := by
    rw [hall, patternSetFootprint_eq, LiteralRegistration.sum_footprint]
    exact ⟨by simp only [Footprint.add_states]; omega, Nat.zero_le _⟩
  cases hbuild : builder.build with
  | error e =>
    obtain ⟨hnone, -⟩ | ⟨-, hzero, -⟩ | ⟨-, -, hlarge⟩ := MatcherBuilder.error_of_build hbuild
    · rw [hall, List.map_eq_nil_iff] at hnone
      exact absurd hnone hne
    · exact absurd hzero hworkers
    · exact absurd hfits hlarge
  | ok matcher =>
    refine ⟨matcher, rfl, fun host hstarts input => ?_⟩
    obtain ⟨hending, hperm⟩ := MatcherBuilder.scan_perm hbuild input
      (MatcherBuilder.scan_ne_workerUnavailable hbuild hstarts input)
    refine ⟨hending, hperm.trans (List.Perm.of_eq ?_)⟩
    rw [hall, literalOracle, List.flatMap_map, List.flatMap_map]
    exact List.flatMap_congr fun r _ => r.events_pattern

/-- `a\.`. -/
def dottedLiteral : LiteralRegistration where
  patternId := ⟨7⟩
  text := [ascii 'a', ascii '\\', ascii '.']
  word := [ascii 'a', ascii '.']
  wordText := .plain rfl (.escaped rfl .nil)
  word_ne_nil := List.cons_ne_nil _ _

/-- A builder with this pattern alone. -/
def dottedBuilder : MatcherBuilder :=
  { MatcherBuilder.new with
    patternIds := {⟨7⟩}
    patterns := [dottedLiteral.pattern]
    patternIds_eq := by decide
    nodup := by decide }

/-- A literal with an escaped dot, on a text without one. -/
theorem literals_match_oracle_dottedLiteral : ∃ matcher, dottedBuilder.build = .ok matcher ∧
    (matcher.scan readyHost textAb).events.Perm
      (literalOracle [(⟨7⟩, [ascii 'a', ascii '.'])] textAb.units) := by
  have hids : ([dottedLiteral].map LiteralRegistration.patternId).Nodup := by decide
  obtain ⟨-, -, hall⟩ := literals_match_oracle (fun unit => (unit, unit))
    (List.cons_ne_nil dottedLiteral []) hids (by decide)
  have hpatterns := (@LiteralRegistration.run_calls (fun unit => (unit, unit)) [dottedLiteral]
    MatcherBuilder.new.fields (fun r _ => Finset.notMem_empty _) hids).2
  obtain ⟨matcher, hbuild, hscan⟩ := hall dottedBuilder hpatterns.symm Nat.one_ne_zero
  exact ⟨matcher, hbuild, (hscan readyHost readyHost_starts textAb).2⟩

end Rustmatch

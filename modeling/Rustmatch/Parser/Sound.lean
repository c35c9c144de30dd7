import Rustmatch.Parser.Phrases

/-!
# What the parser accepts is a pattern

One theorem for each function of the parser, recursive like them: what a call reads is the phrase
that it stands for. A sequence stops at a bar, at the end of the text, or at the parenthesis that
closes its group; a list of branches ends at the last two of these.

## Main results

* `parseAlternation_sound`: a list of branches.
-/

namespace Rustmatch

namespace Parser

variable {p : Parser}

/-- Where a sequence stops. -/
def Stops (p : Parser) (inGroup : Bool) (index : ℕ) : Prop :=
  ∀ unit, p.units[index]? = some unit → unit = ascii '|' ∨ (inGroup = true ∧ unit = ascii ')')

/-- Where the last branch ends. -/
def Ends (p : Parser) (inGroup : Bool) (index : ℕ) : Prop :=
  ∀ unit, p.units[index]? = some unit → inGroup = true ∧ unit = ascii ')'

/-- Where an alternation ends, items stop. -/
theorem Ends.stops {inGroup : Bool} {index : ℕ} (h : p.Ends inGroup index) :
    p.Stops inGroup index := fun unit hunit => Or.inr (h unit hunit)

/-- The test for a bar that adds no branch. -/
theorem ends_succ_iff {inGroup : Bool} {index : ℕ} (hbar : p.currentIs index '|' = true) :
    (index + 1 = p.units.length ∨ (inGroup = true ∧ p.currentIs (index + 1) ')' = true)) ↔
      p.Ends inGroup (index + 1) := by
  have hlt := lt_length_of_currentIs hbar
  rw [currentIs_iff]
  unfold Ends
  cases hunit : p.units[index + 1]? with
  | none =>
    have hle := List.getElem?_eq_none_iff.mp hunit
    simp only [reduceCtorEq, false_imp_iff, implies_true, and_false, or_false, iff_true]
    omega
  | some unit =>
    obtain ⟨hlt', -⟩ := List.getElem?_eq_some_iff.mp hunit
    have hne : index + 1 ≠ p.units.length := by omega
    simp [hne]

/-- A group body is a list of branches, or empty. -/
theorem atomText_group {rules : CaseRules} {depth : ℕ} {opening body : List UInt16}
    {branches : List Hir} (hopening : OpeningText opening) (hdepth : depth < maxGroupNesting)
    (hbody : body ≠ []) (hbranches : BranchesText rules (depth + 1) body branches) :
    AtomText rules depth (opening ++ (body ++ [ascii ')'])) (.mkAlternation branches) := by
  rw [← List.append_assoc]
  exact .group hopening hdepth hbody hbranches

mutual

/-- What is read as an alternation is derived from its text. -/
theorem parseAlternation_sound {inGroup : Bool} {depth index : ℕ} (hdepth : depth ≤ maxGroupNesting)
    {expression : Hir} {stop : ℕ}
    (h : Yields (p.parseAlternation inGroup depth index) expression stop) :
    p.Ends inGroup stop ∧ ∃ text branches, IsSlice p.units index text stop ∧
      BranchesText p.toCaseRules depth text branches ∧ expression = .mkAlternation branches := by
  rw [parseAlternation] at h
  obtain ⟨first, middle, hle, hfirst, h⟩ := yields_bind_iff.mp h
  obtain ⟨rest, last, hle', hrest, h⟩ := yields_bind_iff.mp h
  obtain ⟨rfl, rfl⟩ := yields_pure.mp h
  obtain ⟨hstops, text, items, hslice, hitems, rfl⟩ := parseSequence_sound hdepth ⟨hle, hfirst⟩
  obtain ⟨hends, tail, hslice', hall⟩ := parseBranches_sound hdepth hstops ⟨hle', hrest⟩
  exact ⟨hends, text ++ tail, _, isSlice_append.mpr ⟨middle, hslice, hslice'⟩,
    hall text items hitems, rfl⟩
termination_by (p.units.length - index, 5)
decreasing_by
  · exact Prod.Lex.right _ (by decide)
  · exact Prod.Lex.right' _ (Nat.sub_le_sub_left hle _) (by decide)

/-- What is read behind a branch belongs to the branches from there on. -/
theorem parseBranches_sound {inGroup : Bool} {depth index : ℕ} (hdepth : depth ≤ maxGroupNesting)
    (hstops : p.Stops inGroup index) {branches : List Hir} {stop : ℕ}
    (h : Yields (p.parseBranches inGroup depth index) branches stop) :
    p.Ends inGroup stop ∧ ∃ tail, IsSlice p.units index tail stop ∧
      ∀ text items, ItemsText p.toCaseRules depth text items →
        BranchesText p.toCaseRules depth (text ++ tail) (.mkSequence items :: branches) := by
  rw [parseBranches] at h
  split_ifs at h with hbar hend
  · -- a bar at the end
    obtain ⟨rfl, rfl⟩ := yields_ok.mp h
    exact ⟨(ends_succ_iff hbar).mp hend, [ascii '|'],
      isSlice_singleton.mpr ⟨currentIs_iff.mp hbar, rfl⟩, fun _ _ hitems => .trailing hitems⟩
  · -- a bar and more branches
    have hlt := lt_length_of_currentIs hbar
    obtain ⟨branch, middle, hle, hbranch, h⟩ := yields_bind_iff.mp h
    obtain ⟨rest, last, hle', hrest, h⟩ := yields_bind_iff.mp h
    obtain ⟨rfl, rfl⟩ := yields_pure.mp h
    obtain ⟨hstops', text, items, hslice, hitems, rfl⟩ :=
      parseSequence_sound hdepth ⟨hle, hbranch⟩
    obtain ⟨hends, tail, hslice', hall⟩ := parseBranches_sound hdepth hstops' ⟨hle', hrest⟩
    have hwhole := isSlice_append.mpr ⟨middle, hslice, hslice'⟩
    refine ⟨hends, ascii '|' :: (text ++ tail),
      isSlice_cons.mpr ⟨currentIs_iff.mp hbar, hwhole⟩, fun _ _ hitems' =>
        .more hitems' ?_ (hall text items hitems)⟩
    -- nothing behind the bar would have been its end
    intro hempty
    rw [hempty] at hwhole
    rw [ends_succ_iff hbar] at hend
    exact hend (isSlice_nil.mp hwhole ▸ hends)
  · -- no bar
    obtain ⟨rfl, rfl⟩ := yields_ok.mp h
    refine ⟨fun unit hunit => (hstops unit hunit).resolve_left ?_, [], isSlice_nil.mpr rfl,
      fun text items hitems => ?_⟩
    · rintro rfl
      exact hbar (currentIs_iff.mpr hunit)
    · rw [List.append_nil]
      exact .last hitems
termination_by (p.units.length - index, 4)
decreasing_by
  · exact Prod.Lex.left _ _ (by omega)
  · exact Prod.Lex.left _ _ (by omega)

/-- What is read as a sequence is derived from its text. -/
theorem parseSequence_sound {inGroup : Bool} {depth index : ℕ} (hdepth : depth ≤ maxGroupNesting)
    {expression : Hir} {stop : ℕ}
    (h : Yields (p.parseSequence inGroup depth index) expression stop) :
    p.Stops inGroup stop ∧ ∃ text items, IsSlice p.units index text stop ∧
      ItemsText p.toCaseRules depth text items ∧ expression = .mkSequence items := by
  rw [parseSequence] at h
  obtain ⟨items, middle, hle, hread, h⟩ := yields_bind_iff.mp h
  obtain ⟨rfl, rfl⟩ := yields_pure.mp h
  obtain ⟨hstops, text, hslice, htext⟩ := parseItems_sound hdepth ⟨hle, hread⟩
  exact ⟨hstops, text, items, hslice, htext, rfl⟩
termination_by (p.units.length - index, 3)
decreasing_by exact Prod.Lex.right _ (by decide)

/-- What is read as items is derived from its text. -/
theorem parseItems_sound {inGroup : Bool} {depth index : ℕ} (hdepth : depth ≤ maxGroupNesting)
    {items : List Hir} {stop : ℕ} (h : Yields (p.parseItems inGroup depth index) items stop) :
    p.Stops inGroup stop ∧ ∃ text, IsSlice p.units index text stop ∧
      ItemsText p.toCaseRules depth text items := by
  rw [parseItems] at h
  split_ifs at h with hlt
  · have hget : p.units[index]? = some p.units[index] := List.getElem?_eq_getElem hlt
    simp only at h
    split_ifs at h with hunit hclose
    · -- the sequence stops
      obtain ⟨rfl, rfl⟩ := yields_ok.mp h
      refine ⟨fun other hother => ?_, [], isSlice_nil.mpr rfl, .nil⟩
      obtain rfl := Option.some.inj (hget.symm.trans hother)
      exact hunit
    · exact absurd h not_yields_error
    · -- one more item
      obtain ⟨atom, middle, hle, hread, h⟩ := yields_bind_iff.mp h
      obtain ⟨item, last, hle', hrepetition, h⟩ := yields_bind_iff.mp h
      obtain ⟨rest, stop', hle'', hreadRest, h⟩ := yields_bind_iff.mp h
      obtain ⟨rfl, rfl⟩ := yields_pure.mp h
      have hforward : index + 1 ≤ last := Nat.le_trans hle hle'
      obtain ⟨text, hslice, htext⟩ := parseAtom_sound hdepth hclose
        (fun hbar => hunit (Or.inl hbar)) ⟨hle, hread⟩
      obtain ⟨hstops, text', hslice', hitems⟩ := parseItems_sound hdepth ⟨hle'', hreadRest⟩
      obtain ⟨-, ⟨rfl, rfl⟩ | ⟨quantifier, count, limit, hquantifierSlice, hquantifier, rfl⟩⟩ :=
        yields_parseRepetition_iff.mp ⟨hle', hrepetition⟩
      · exact ⟨hstops, _, isSlice_append.mpr ⟨_, hslice, hslice'⟩, .plain htext hitems⟩
      · exact ⟨hstops, _, isSlice_append.mpr ⟨_, isSlice_append.mpr ⟨_, hslice, hquantifierSlice⟩,
          hslice'⟩, .quantified htext hquantifier hitems⟩
  · -- the end of the text
    obtain ⟨rfl, rfl⟩ := yields_ok.mp h
    refine ⟨fun unit hunit => ?_, [], isSlice_nil.mpr rfl, .nil⟩
    rw [List.getElem?_eq_none (Nat.not_lt.mp hlt)] at hunit
    cases hunit
termination_by (p.units.length - index, 2)
decreasing_by
  · exact Prod.Lex.right _ (by decide)
  · exact Prod.Lex.left _ _ (by omega)

/-- What is read as an atom is derived from its text. -/
theorem parseAtom_sound {depth index : ℕ} {hlt : index < p.units.length}
    (hdepth : depth ≤ maxGroupNesting) (hclose : p.units[index] ≠ ascii ')')
    (hbar : p.units[index] ≠ ascii '|') {expression : Hir} {stop : ℕ}
    (h : Yields (p.parseAtom depth index hlt) expression stop) :
    ∃ text, IsSlice p.units index text stop ∧ AtomText p.toCaseRules depth text expression := by
  have hget : p.units[index]? = some p.units[index] := List.getElem?_eq_getElem hlt
  rw [parseAtom] at h
  simp only at h
  split_ifs at h with hdot hescape hbracket hparen hcaret hdollar hoperator
  · obtain ⟨rfl, rfl⟩ := yields_ok.mp h
    exact ⟨_, isSlice_singleton.mpr ⟨hdot ▸ hget, rfl⟩, .any⟩
  · obtain ⟨text, hslice, htext⟩ := (yields_parseEscape_iff (hescape ▸ hget)).mp h
    exact ⟨text, hslice, .escape htext⟩
  · obtain ⟨text, predicate, hslice, htext, rfl⟩ :=
      (yields_parseCharacterClass_iff (hbracket ▸ hget)).mp h
    exact ⟨text, hslice, .charClass htext⟩
  · exact parseGroup_sound hdepth hparen h
  · obtain ⟨rfl, rfl⟩ := yields_ok.mp h
    exact ⟨_, isSlice_singleton.mpr ⟨hcaret ▸ hget, rfl⟩, .lineStart⟩
  · obtain ⟨rfl, rfl⟩ := yields_ok.mp h
    exact ⟨_, isSlice_singleton.mpr ⟨hdollar ▸ hget, rfl⟩, .lineEnd⟩
  · exact absurd h not_yields_error
  · -- every other unit stands for itself
    obtain ⟨rfl, rfl⟩ := yields_ok.mp h
    refine ⟨_, isSlice_singleton.mpr ⟨hget, rfl⟩, .literal (decide_eq_false ?_)⟩
    have hnot : ¬ p.units[index] ∈ [ascii '?', ascii '*', ascii '+', ascii '{'] := fun hmem =>
      hoperator (decide_eq_true hmem)
    simp only [List.mem_cons, List.not_mem_nil, or_false, not_or] at hnot ⊢
    exact ⟨hdot, hescape, hbracket, hparen, hclose, hbar, hcaret, hdollar, hnot⟩
termination_by (p.units.length - index, 1)
decreasing_by exact Prod.Lex.right _ (by decide)

/-- What is read as a group is derived from its text. -/
theorem parseGroup_sound {depth index : ℕ} {hlt : index < p.units.length}
    (hdepth : depth ≤ maxGroupNesting) (hparen : p.units[index] = ascii '(') {expression : Hir}
    {stop : ℕ} (h : Yields (p.parseGroup depth index hlt) expression stop) :
    ∃ text, IsSlice p.units index text stop ∧ AtomText p.toCaseRules depth text expression := by
  have hget : p.units[index]? = some (ascii '(') := hparen ▸ List.getElem?_eq_getElem hlt
  rw [parseGroup] at h
  split_ifs at h with hquestion hcolon
  · exact absurd h not_yields_error
  · rw [yields_weaken_iff] at h
    rw [Bool.not_eq_true', Bool.not_eq_false] at hcolon
    obtain ⟨text, hslice, htext⟩ := parseGroupBody_sound hdepth .plain h
    exact ⟨_, isSlice_cons.mpr ⟨hget, isSlice_cons.mpr ⟨currentIs_iff.mp hquestion,
      isSlice_cons.mpr ⟨currentIs_iff.mp hcolon, hslice⟩⟩⟩, htext⟩
  · obtain ⟨text, hslice, htext⟩ := parseGroupBody_sound hdepth .capturing h
    exact ⟨_, isSlice_cons.mpr ⟨hget, hslice⟩, htext⟩
termination_by (p.units.length - index, 0)
decreasing_by all_goals exact Prod.Lex.left _ _ (by omega)

/-- Behind the opening of a group stands the rest of the group. -/
theorem parseGroupBody_sound {depth start index : ℕ} (hdepth : depth ≤ maxGroupNesting)
    {opening : List UInt16} (hopening : OpeningText opening) {expression : Hir} {stop : ℕ}
    (h : Yields (p.parseGroupBody depth start index) expression stop) :
    ∃ text, IsSlice p.units index text stop ∧
      AtomText p.toCaseRules depth (opening ++ text) expression := by
  rw [parseGroupBody] at h
  split_ifs at h with hclose hnesting
  · obtain ⟨rfl, rfl⟩ := yields_ok.mp h
    exact ⟨_, isSlice_singleton.mpr ⟨currentIs_iff.mp hclose, rfl⟩, .emptyGroup hopening⟩
  · exact absurd h not_yields_error
  · obtain ⟨body, middle, hle, hread, h⟩ := yields_bind_iff.mp h
    obtain ⟨-, text, branches, hslice, hbranches, rfl⟩ :=
      parseAlternation_sound (by omega : depth + 1 ≤ maxGroupNesting) ⟨hle, hread⟩
    split at h
    next => exact absurd h not_yields_error
    next hlast =>
      obtain ⟨rfl, rfl⟩ := yields_pure.mp h
      rw [Bool.not_eq_true', Bool.not_eq_false] at hlast
      refine ⟨text ++ [ascii ')'], isSlice_append.mpr ⟨middle, hslice,
        isSlice_singleton.mpr ⟨currentIs_iff.mp hlast, rfl⟩⟩,
        atomText_group hopening (by omega) ?_ hbranches⟩
      rintro rfl
      obtain rfl := isSlice_nil.mp hslice
      exact hclose hlast
termination_by (p.units.length - index, 6)
decreasing_by exact Prod.Lex.right _ (by decide)

end

end Parser

end Rustmatch

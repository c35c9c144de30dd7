import Rustmatch.Parser.Sound

/-!
# Every pattern is accepted

By induction on derivations: where a phrase stands in the text, and what follows it ends it, the
parser reads that phrase and builds its expression. No atom begins with a unit that ends a sequence
or with a repetition operator, so the parser always knows where a phrase ends.

## Main results

* `parseBranches_complete`: a list of branches.
-/

namespace Rustmatch

/-! ### First units -/

/-- The first unit of a text can begin an atom. -/
def BeginsAtom (text : List UInt16) : Prop :=
  ∃ unit rest, text = unit :: rest ∧ unit ≠ ascii '|' ∧ unit ≠ ascii ')' ∧
    isRepetitionOperator unit = false

/-- What follows does not matter. -/
theorem BeginsAtom.append {text : List UInt16} (h : BeginsAtom text) (text' : List UInt16) :
    BeginsAtom (text ++ text') := by
  obtain ⟨unit, rest, rfl, hunit⟩ := h
  exact ⟨unit, rest ++ text', rfl, hunit⟩

/-- A unit that is no operator begins an atom. -/
theorem beginsAtom_cons {unit : UInt16} (rest : List UInt16)
    (h : unit ∉ [ascii '|', ascii ')', ascii '?', ascii '*', ascii '+', ascii '{']) :
    BeginsAtom (unit :: rest) := by
  simp only [List.mem_cons, List.not_mem_nil, or_false, not_or] at h
  refine ⟨unit, rest, rfl, h.1, h.2.1, decide_eq_false ?_⟩
  simp only [List.mem_cons, List.not_mem_nil, or_false, not_or]
  exact h.2.2

/-- An opening begins an atom. -/
theorem OpeningText.beginsAtom {text : List UInt16} (h : OpeningText text) : BeginsAtom text := by
  cases h with
  | capturing => exact beginsAtom_cons _ (by decide)
  | plain => exact beginsAtom_cons _ (by decide)

/-- An escape begins an atom. -/
theorem EscapeText.beginsAtom {rules : CaseRules} {text : List UInt16} {expression : Hir}
    (h : EscapeText rules text expression) : BeginsAtom text := by
  cases h with
  | literal | newline | tab | carriageReturn | formFeed | shorthand | wordBoundary
  | nonWordBoundary => exact beginsAtom_cons _ (by decide)

/-- An atom begins one. -/
theorem AtomText.beginsAtom {rules : CaseRules} {depth : ℕ} {text : List UInt16}
    {expression : Hir} (h : AtomText rules depth text expression) : BeginsAtom text := by
  cases h with
  | any => exact beginsAtom_cons _ (by decide)
  | lineStart => exact beginsAtom_cons _ (by decide)
  | lineEnd => exact beginsAtom_cons _ (by decide)
  | literal hreserved =>
    refine beginsAtom_cons _ fun hmem => ?_
    have hnot := of_decide_eq_false hreserved
    simp only [List.mem_cons, List.not_mem_nil, or_false, not_or] at hnot hmem
    tauto
  | escape hescape => exact hescape.beginsAtom
  | charClass hclass =>
    cases hclass with
    | positive => exact beginsAtom_cons _ (by decide)
    | inverted => exact beginsAtom_cons _ (by decide)
  | emptyGroup hopening => exact hopening.beginsAtom.append _
  | group hopening => exact (hopening.beginsAtom.append _).append _

/-- Items begin with an atom, if there are any. -/
theorem ItemsText.beginsAtom {rules : CaseRules} {depth : ℕ} {text : List UInt16}
    {items : List Hir} (h : ItemsText rules depth text items) : text = [] ∨ BeginsAtom text := by
  cases h with
  | nil => exact Or.inl rfl
  | plain hatom => exact Or.inr (hatom.beginsAtom.append _)
  | quantified hatom => exact Or.inr ((hatom.beginsAtom.append _).append _)

/-- A list of branches is empty, or begins with a bar or with an atom. -/
theorem BranchesText.begins {rules : CaseRules} {depth : ℕ} {text : List UInt16}
    {branches : List Hir} (h : BranchesText rules depth text branches) :
    text = [] ∨ (∃ rest, text = ascii '|' :: rest) ∨ BeginsAtom text := by
  have hbar : ∀ {text items} (rest), ItemsText rules depth text items →
      (∃ rest', text ++ ascii '|' :: rest = ascii '|' :: rest') ∨
        BeginsAtom (text ++ ascii '|' :: rest) := by
    intro text items rest hitems
    rcases hitems.beginsAtom with rfl | hatom
    · exact Or.inl ⟨rest, rfl⟩
    · exact Or.inr (hatom.append _)
  cases h with
  | last hitems => exact hitems.beginsAtom.imp_right Or.inr
  | trailing hitems => exact Or.inr (hbar [] hitems)
  | more hitems _ _ => exact Or.inr (hbar _ hitems)

/-- No list of branches begins with a unit that neither is a bar nor begins an atom. -/
theorem BranchesText.head?_ne {rules : CaseRules} {depth : ℕ} {text : List UInt16}
    {branches : List Hir} (h : BranchesText rules depth text branches) {unit : UInt16}
    (hbar : unit ≠ ascii '|') (hunit : unit = ascii ')' ∨ isRepetitionOperator unit = true) :
    text.head? ≠ some unit := by
  rcases h.begins with rfl | ⟨rest, rfl⟩ | ⟨first, rest, rfl, -, hclose, hoperator⟩
  · simp
  · exact fun heq => hbar (Option.some.inj heq).symm
  · intro heq
    obtain rfl := Option.some.inj heq
    rcases hunit with rfl | hunit
    · exact hclose rfl
    · rw [hunit] at hoperator
      exact Bool.noConfusion hoperator

namespace Parser

variable {p : Parser}

/-- Behind an item that another item follows, or the end of the sequence, stands no operator. -/
theorem noOperatorAt_of_items {inGroup : Bool} {depth index stop : ℕ} {text : List UInt16}
    {items : List Hir} (hitems : ItemsText p.toCaseRules depth text items)
    (hslice : IsSlice p.units index text stop) (hstops : p.Stops inGroup stop) :
    p.NoOperatorAt index := by
  intro unit hunit
  rcases hitems.beginsAtom with rfl | ⟨first, rest, rfl, -, -, hoperator⟩
  · obtain rfl := isSlice_nil.mp hslice
    rcases hstops unit hunit with rfl | ⟨-, rfl⟩
    · decide
    · decide
  · obtain rfl := Option.some.inj (hunit.symm.trans (isSlice_cons.mp hslice).1)
    exact hoperator

/-- Behind its opening, a group is read by `parseGroupBody`. -/
theorem yields_parseAtom_of_opening {depth index stop : ℕ} {opening text : List UInt16}
    (hopening : OpeningText opening) (hslice : IsSlice p.units index (opening ++ text) stop)
    (hquestion : text.head? ≠ some (ascii '?')) (hne : text ≠ []) : ∃ hlt middle,
    IsSlice p.units middle text stop ∧ ∀ expression,
      Yields (p.parseGroupBody depth index middle) expression stop →
        Yields (p.parseAtom depth index hlt) expression stop := by
  have hgroup : ∀ (hlt : index < p.units.length), p.units[index] = ascii '(' → ∀ expression,
      Yields (p.parseGroup depth index hlt) expression stop →
        Yields (p.parseAtom depth index hlt) expression stop := by
    intro hlt hunit expression h
    rw [parseAtom]
    simp only [hunit]
    exact h
  cases hopening with
  | capturing =>
    obtain ⟨hget, hslice⟩ := isSlice_cons.mp hslice
    obtain ⟨hlt, hunit⟩ := List.getElem?_eq_some_iff.mp hget
    refine ⟨hlt, index + 1, hslice, fun expression h => hgroup hlt hunit expression ?_⟩
    -- no `?` follows, so the parenthesis opens a plain group
    have hnot : ¬ p.currentIs (index + 1) '?' = true := by
      rw [currentIs_iff]
      intro hnext
      cases text with
      | nil => exact hne rfl
      | cons first text => exact hquestion ((isSlice_cons.mp hslice).1.symm.trans hnext)
    rw [parseGroup, if_neg hnot]
    exact h
  | plain =>
    obtain ⟨hget, hslice⟩ := isSlice_cons.mp hslice
    obtain ⟨hmark, hslice⟩ := isSlice_cons.mp hslice
    obtain ⟨hcolon, hslice⟩ := isSlice_cons.mp hslice
    obtain ⟨hlt, hunit⟩ := List.getElem?_eq_some_iff.mp hget
    refine ⟨hlt, index + 3, hslice, fun expression h => hgroup hlt hunit expression ?_⟩
    -- `(?:` is three units, and the body is read behind them
    rw [parseGroup, if_pos (currentIs_iff.mpr hmark), if_neg, yields_weaken_iff]
    · exact h
    · rw [currentIs_iff.mpr hcolon]
      decide

/-- A body that is read as branches up to its closing parenthesis is read as a group. -/
theorem yields_parseGroupBody {depth start index stop : ℕ} {first : Hir} {rest : List Hir}
    {middle : ℕ} (hdepth : depth < maxGroupNesting) (hopen : ¬ p.currentIs index ')' = true)
    (hfirst : Yields (p.parseSequence true (depth + 1) index) first middle)
    (hrest : Yields (p.parseBranches true (depth + 1) middle) rest stop)
    (hclose : p.units[stop]? = some (ascii ')')) :
    Yields (p.parseGroupBody depth start index) (.mkAlternation (first :: rest)) (stop + 1) := by
  have hnesting : depth ≠ maxGroupNesting := Nat.ne_of_lt hdepth
  have halternation : Yields (p.parseAlternation true (depth + 1) index)
      (.mkAlternation (first :: rest)) stop := by
    obtain ⟨hle, hfirst⟩ := hfirst
    obtain ⟨hle', hrest⟩ := hrest
    rw [parseAlternation]
    exact yields_bind_iff.mpr ⟨first, middle, hle, hfirst,
      yields_bind_iff.mpr ⟨rest, stop, hle', hrest, yields_pure.mpr ⟨rfl, rfl⟩⟩⟩
  obtain ⟨hle, hread⟩ := halternation
  rw [parseGroupBody, if_neg hopen, if_neg hnesting]
  refine yields_bind_iff.mpr ⟨_, stop, hle, hread, ?_⟩
  rw [if_neg (by rw [currentIs_iff.mpr hclose]; decide)]
  exact yields_pure.mpr ⟨rfl, rfl⟩

/-- One item in front of others, with its quantifier or without. -/
theorem yields_parseItems_cons {inGroup : Bool} {depth index middle last stop : ℕ} {atom item : Hir}
    {rest : List Hir} {hlt : index < p.units.length} (hbar : p.units[index] ≠ ascii '|')
    (hclose : p.units[index] ≠ ascii ')') (hatom : Yields (p.parseAtom depth index hlt) atom middle)
    (hitem : Yields (p.parseRepetition atom middle) item last)
    (hrest : Yields (p.parseItems inGroup depth last) rest stop) :
    Yields (p.parseItems inGroup depth index) (item :: rest) stop := by
  obtain ⟨hle, hatom⟩ := hatom
  obtain ⟨hle', hitem⟩ := hitem
  obtain ⟨hle'', hrest⟩ := hrest
  have hopen : ¬ (p.units[index] = ascii '|' ∨ (inGroup = true ∧ p.units[index] = ascii ')')) := by
    rintro (heq | ⟨-, heq⟩)
    · exact hbar heq
    · exact hclose heq
  rw [parseItems, dif_pos hlt]
  simp only
  rw [if_neg hopen, if_neg hclose]
  exact yields_bind_iff.mpr ⟨atom, middle, hle, hatom, yields_bind_iff.mpr ⟨item, last, hle', hitem,
    yields_bind_iff.mpr ⟨rest, stop, hle'', hrest, yields_pure.mpr ⟨rfl, rfl⟩⟩⟩⟩

/-- A sequence is read when its items are. -/
theorem yields_parseSequence {inGroup : Bool} {depth index stop : ℕ} {items : List Hir}
    (h : Yields (p.parseItems inGroup depth index) items stop) :
    Yields (p.parseSequence inGroup depth index) (.mkSequence items) stop := by
  obtain ⟨hle, hread⟩ := h
  rw [parseSequence]
  exact yields_bind_iff.mpr ⟨items, stop, hle, hread, yields_pure.mpr ⟨rfl, rfl⟩⟩

/-- Where the last branch ends there are no more branches. -/
theorem yields_parseBranches_nil {inGroup : Bool} {depth index : ℕ} (h : p.Ends inGroup index) :
    Yields (p.parseBranches inGroup depth index) [] index := by
  have hbar : ¬ p.currentIs index '|' = true := by
    rw [currentIs_iff]
    intro hget
    exact absurd (h _ hget).2 (by decide)
  rw [parseBranches, dif_neg hbar]
  exact yields_ok.mpr ⟨rfl, rfl⟩

/-- A bar at the end adds no branch. -/
theorem yields_parseBranches_trailing {inGroup : Bool} {depth index : ℕ}
    (hbar : p.units[index]? = some (ascii '|')) (h : p.Ends inGroup (index + 1)) :
    Yields (p.parseBranches inGroup depth index) [] (index + 1) := by
  have hcurrent := currentIs_iff.mpr hbar
  rw [parseBranches, dif_pos hcurrent, if_pos ((ends_succ_iff hcurrent).mpr h)]
  exact yields_ok.mpr ⟨rfl, rfl⟩

/-- A bar in front of a branch. -/
theorem yields_parseBranches_cons {inGroup : Bool} {depth index middle stop : ℕ} {branch : Hir}
    {rest : List Hir} (hbar : p.units[index]? = some (ascii '|'))
    (hmore : ¬ p.Ends inGroup (index + 1))
    (hbranch : Yields (p.parseSequence inGroup depth (index + 1)) branch middle)
    (hrest : Yields (p.parseBranches inGroup depth middle) rest stop) :
    Yields (p.parseBranches inGroup depth index) (branch :: rest) stop := by
  obtain ⟨hle, hbranch⟩ := hbranch
  obtain ⟨hle', hrest⟩ := hrest
  have hcurrent := currentIs_iff.mpr hbar
  rw [parseBranches, dif_pos hcurrent, if_neg ((ends_succ_iff hcurrent).not.mpr hmore)]
  exact yields_bind_iff.mpr ⟨branch, middle, hle, hbranch,
    yields_bind_iff.mpr ⟨rest, stop, hle', hrest, yields_pure.mpr ⟨rfl, rfl⟩⟩⟩

mutual

/-- Every derived atom is read. -/
theorem parseAtom_complete {depth : ℕ} {text : List UInt16} {expression : Hir}
    (h : AtomText p.toCaseRules depth text expression) {index stop : ℕ}
    (hslice : IsSlice p.units index text stop) :
    ∃ hlt, Yields (p.parseAtom depth index hlt) expression stop :=
  match h with
  | .any | .lineStart | .lineEnd => by
    obtain ⟨hget, rfl⟩ := isSlice_singleton.mp hslice
    obtain ⟨hlt, hunit⟩ := List.getElem?_eq_some_iff.mp hget
    refine ⟨hlt, ?_⟩
    rw [parseAtom]
    simp only [hunit]
    exact ⟨Nat.le_refl _, rfl⟩
  | .literal hreserved => by
    obtain ⟨hget, rfl⟩ := isSlice_singleton.mp hslice
    obtain ⟨hlt, hunit⟩ := List.getElem?_eq_some_iff.mp hget
    have hnot := of_decide_eq_false hreserved
    simp only [List.mem_cons, List.not_mem_nil, or_false, not_or] at hnot
    obtain ⟨hdot, hescape, hbracket, hparen, -, -, hcaret, hdollar, hoperator⟩ := hnot
    have hoperator : ¬ isRepetitionOperator _ = true := fun hmem => by
      have := of_decide_eq_true hmem
      simp only [List.mem_cons, List.not_mem_nil, or_false] at this
      tauto
    refine ⟨hlt, ?_⟩
    rw [parseAtom]
    simp only [hunit]
    rw [if_neg hdot, if_neg hescape, if_neg hbracket, if_neg hparen, if_neg hcaret, if_neg hdollar,
      if_neg hoperator]
    exact yields_ok.mpr ⟨rfl, rfl⟩
  | .escape hescape => by
    have hget : p.units[index]? = some (ascii '\\') := by
      cases hescape with
      | literal | newline | tab | carriageReturn | formFeed | shorthand | wordBoundary
      | nonWordBoundary => exact (isSlice_cons.mp hslice).1
    obtain ⟨hlt, hunit⟩ := List.getElem?_eq_some_iff.mp hget
    refine ⟨hlt, ?_⟩
    rw [parseAtom]
    simp only [hunit]
    exact (yields_parseEscape_iff hget).mpr ⟨_, hslice, hescape⟩
  | .charClass hclass => by
    have hget : p.units[index]? = some (ascii '[') := by
      cases hclass with
      | positive => exact (isSlice_cons.mp hslice).1
      | inverted => exact (isSlice_cons.mp hslice).1
    obtain ⟨hlt, hunit⟩ := List.getElem?_eq_some_iff.mp hget
    refine ⟨hlt, ?_⟩
    rw [parseAtom]
    simp only [hunit]
    exact (yields_parseCharacterClass_iff hget).mpr ⟨_, _, hslice, hclass, rfl⟩
  | .emptyGroup hopening => by
    obtain ⟨hlt, middle, hrest, hread⟩ :=
      @yields_parseAtom_of_opening p depth _ _ _ _ hopening hslice (by decide) (by simp)
    obtain ⟨hclose, rfl⟩ := isSlice_singleton.mp hrest
    refine ⟨hlt, hread _ ?_⟩
    rw [parseGroupBody, if_pos (currentIs_iff.mpr hclose)]
    exact yields_ok.mpr ⟨rfl, rfl⟩
  | .group hopening hdepth hbody hbranches => by
    rw [List.append_assoc] at hslice
    have hquestion := hbranches.head?_ne (by decide : ascii '?' ≠ ascii '|') (Or.inr (by decide))
    obtain ⟨hlt, start, hrest, hread⟩ :=
      @yields_parseAtom_of_opening p depth _ _ _ _ hopening hslice
      (by rw [List.head?_append_of_ne_nil _ hbody]; exact hquestion) (by simp)
    obtain ⟨last, hbodySlice, hlast⟩ := isSlice_append.mp hrest
    obtain ⟨hclose, rfl⟩ := isSlice_singleton.mp hlast
    -- the body ends at the parenthesis that closes the group, and does not begin with it
    have hends : p.Ends true last := fun unit hunit =>
      ⟨rfl, Option.some.inj (hunit.symm.trans hclose)⟩
    have hopen : ¬ p.currentIs start ')' = true := by
      rw [currentIs_iff]
      intro hget
      have hhead := hbranches.head?_ne (by decide : ascii ')' ≠ ascii '|') (Or.inl rfl)
      obtain ⟨first, tail, hcons⟩ := List.exists_cons_of_ne_nil hbody
      rw [hcons] at hbodySlice hhead
      exact hhead ((isSlice_cons.mp hbodySlice).1.symm.trans hget)
    obtain ⟨first, rest, middle, rfl, hfirst, hothers⟩ :=
      parseBranches_complete hbranches hbodySlice hends
    exact ⟨hlt, hread _ (yields_parseGroupBody hdepth hopen hfirst hothers hclose)⟩

/-- All derived items are read, up to where items stop. -/
theorem parseItems_complete {depth : ℕ} {text : List UInt16} {items : List Hir}
    (h : ItemsText p.toCaseRules depth text items) {inGroup : Bool} {index stop : ℕ}
    (hslice : IsSlice p.units index text stop) (hstops : p.Stops inGroup stop) :
    Yields (p.parseItems inGroup depth index) items stop :=
  match h with
  | .nil => by
    obtain rfl := isSlice_nil.mp hslice
    rw [parseItems]
    split
    next hlt =>
      simp only
      rw [if_pos (hstops _ (List.getElem?_eq_getElem hlt))]
      exact yields_ok.mpr ⟨rfl, rfl⟩
    next => exact yields_ok.mpr ⟨rfl, rfl⟩
  | .plain hatom hrest => by
    obtain ⟨middle, hatomSlice, hrestSlice⟩ := isSlice_append.mp hslice
    obtain ⟨hlt, hread⟩ := parseAtom_complete hatom hatomSlice
    obtain ⟨unit, tail, rfl, hbar, hclose, -⟩ := hatom.beginsAtom
    obtain ⟨_, hunit⟩ := List.getElem?_eq_some_iff.mp (isSlice_cons.mp hatomSlice).1
    -- the unit read is the first of an atom, hence no bar and no closing parenthesis
    exact yields_parseItems_cons (hunit ▸ hbar) (hunit ▸ hclose) hread
      (yields_parseRepetition_iff.mpr
        ⟨noOperatorAt_of_items hrest hrestSlice hstops, Or.inl ⟨rfl, rfl⟩⟩)
      (parseItems_complete hrest hrestSlice hstops)
  | .quantified hatom hquantifier hrest => by
    obtain ⟨last, hitemSlice, hrestSlice⟩ := isSlice_append.mp hslice
    obtain ⟨middle, hatomSlice, hquantifierSlice⟩ := isSlice_append.mp hitemSlice
    obtain ⟨hlt, hread⟩ := parseAtom_complete hatom hatomSlice
    obtain ⟨unit, tail, rfl, hbar, hclose, -⟩ := hatom.beginsAtom
    obtain ⟨_, hunit⟩ := List.getElem?_eq_some_iff.mp (isSlice_cons.mp hatomSlice).1
    exact yields_parseItems_cons (hunit ▸ hbar) (hunit ▸ hclose) hread
      (yields_parseRepetition_iff.mpr ⟨noOperatorAt_of_items hrest hrestSlice hstops,
        Or.inr ⟨_, _, _, hquantifierSlice, hquantifier, rfl⟩⟩)
      (parseItems_complete hrest hrestSlice hstops)

/-- All derived branches are read, up to where an alternation ends. -/
theorem parseBranches_complete {depth : ℕ} {text : List UInt16} {branches : List Hir}
    (h : BranchesText p.toCaseRules depth text branches) {inGroup : Bool} {index stop : ℕ}
    (hslice : IsSlice p.units index text stop) (hends : p.Ends inGroup stop) :
    ∃ first rest middle, branches = first :: rest ∧
      Yields (p.parseSequence inGroup depth index) first middle ∧
      Yields (p.parseBranches inGroup depth middle) rest stop :=
  match h with
  | .last hitems =>
    ⟨_, [], stop, rfl, yields_parseSequence (parseItems_complete hitems hslice hends.stops),
      yields_parseBranches_nil hends⟩
  | .trailing hitems => by
    obtain ⟨middle, hitemsSlice, hbarSlice⟩ := isSlice_append.mp hslice
    obtain ⟨hbar, rfl⟩ := isSlice_singleton.mp hbarSlice
    have hstops : p.Stops inGroup middle := fun unit hunit =>
      Or.inl (Option.some.inj (hunit.symm.trans hbar))
    exact ⟨_, [], middle, rfl, yields_parseSequence (parseItems_complete hitems hitemsSlice hstops),
      yields_parseBranches_trailing hbar hends⟩
  | .more hitems hne hrest => by
    obtain ⟨middle, hitemsSlice, hbarSlice⟩ := isSlice_append.mp hslice
    obtain ⟨hbar, hrestSlice⟩ := isSlice_cons.mp hbarSlice
    have hstops : p.Stops inGroup middle := fun unit hunit =>
      Or.inl (Option.some.inj (hunit.symm.trans hbar))
    obtain ⟨first, rest, middle', rfl, hfirst, hothers⟩ :=
      parseBranches_complete hrest hrestSlice hends
    -- the branches behind the bar are not empty, so the bar is not at the end
    have hmore : ¬ p.Ends inGroup (middle + 1) := by
      intro hends'
      have hhead := hrest.head?_ne (by decide : ascii ')' ≠ ascii '|') (Or.inl rfl)
      obtain ⟨unit, tail, rfl⟩ := List.exists_cons_of_ne_nil hne
      obtain ⟨-, rfl⟩ := hends' unit (isSlice_cons.mp hrestSlice).1
      exact hhead rfl
    exact ⟨_, _, middle, rfl, yields_parseSequence (parseItems_complete hitems hitemsSlice hstops),
      yields_parseBranches_cons hbar hmore hfirst hothers⟩

end

end Parser

end Rustmatch

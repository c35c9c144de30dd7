import Rustmatch.Hir.Language
import Rustmatch.Parser.Accepts
import Rustmatch.Parser.ClassRanges

/-!
# The case flag and what is accepted

A text is a pattern with regard to case when it is one without, and the other way round as far as
none of its class ranges descends when its ends are folded. The two expressions differ where units
are matched. Folding only ever adds units to a class, so a class that matched some unit still does,
unless it is inverted: then it may match none. So what could consume units may not be able to any
more, and a pattern that is accepted with regard to case may match only the empty word without. The
parser refuses it then.

## Main definitions

* `Thinned`: the languages of one text under two sets of rules;
* `Recased`: a phrase that can be derived under other rules.

## Main results

* `BranchesText.recased`: all phrases can;
* `case_flag_keeps_acceptance`: acceptance with and without regard to case.
-/

open LanguageLengths

namespace Rustmatch

open SymbolPredicate

/-! ### Two sets of rules -/

/-- Ignoring case thins a language: if one of the rules regards case, the other language thins that
one. -/
def Thinned (rules rules' : CaseRules) (L L' : Language UInt16) : Prop :=
  (rules.caseInsensitive = false → Thins L' L) ∧ (rules'.caseInsensitive = false → Thins L L')

/-- A phrase has its ranges, which ascend, and under other rules with the same case table under
which they ascend it is derived too, with a language that is thinned. -/
structure Recased (rules : CaseRules) (text : List UInt16) (ranges : List (UInt16 × UInt16))
    (L : Language UInt16) (derives : CaseRules → Language UInt16 → Prop) : Prop where
  /-- The scan for ranges finds these in the phrase. -/
  scans : Scans .outside text .outside ranges
  /-- They ascend. -/
  ascends : ∀ range ∈ ranges, rules.Ascends range.1 range.2
  /-- Under other rules the phrase is derived too, with a thinned language. -/
  derived : ∀ rules' : CaseRules, rules'.lowerUpper = rules.lowerUpper →
    (∀ range ∈ ranges, rules'.Ascends range.1 range.2) →
    ∃ L', derives rules' L' ∧ Thinned rules rules' L L'

section Recased

variable {rules rules' : CaseRules} {text text' : List UInt16}
  {ranges ranges' : List (UInt16 × UInt16)} {L L' M M' : Language UInt16}
  {derives derives' derives'' : CaseRules → Language UInt16 → Prop}

/-- A language is thinned from itself. -/
theorem Thinned.refl (L : Language UInt16) : Thinned rules rules' L L :=
  ⟨fun _ => Thins.refl L, fun _ => Thins.refl L⟩

/-- What respects thinner languages respects thinned ones. -/
theorem Thinned.map {op : Language UInt16 → Language UInt16}
    (hop : ∀ {A B}, Thins A B → Thins (op A) (op B)) (h : Thinned rules rules' L L') :
    Thinned rules rules' (op L) (op L') :=
  ⟨fun hcase => hop (h.1 hcase), fun hcase => hop (h.2 hcase)⟩

/-- What keeps thinned languages in two arguments keeps them under both rules. -/
theorem Thinned.map₂ {op : Language UInt16 → Language UInt16 → Language UInt16}
    (hop : ∀ {A B C D}, Thins A B → Thins C D → Thins (op A C) (op B D))
    (h : Thinned rules rules' L L') (h' : Thinned rules rules' M M') :
    Thinned rules rules' (op L M) (op L' M') :=
  ⟨fun hcase => hop (h.1 hcase) (h'.1 hcase), fun hcase => hop (h.2 hcase) (h'.2 hcase)⟩

/-- A phrase without ranges. -/
theorem Recased.plain (hscan : Scans .outside text .outside [])
    (hderived : ∀ rules' : CaseRules, rules'.lowerUpper = rules.lowerUpper →
      ∃ L', derives rules' L' ∧ Thinned rules rules' L L') :
    Recased rules text [] L derives where
  scans := hscan
  ascends := fun _ hrange => absurd hrange List.not_mem_nil
  derived rules' htable _ := hderived rules' htable

/-- A phrase whose language does not depend on the rules. -/
theorem Recased.same (hscan : Scans .outside text .outside [])
    (hderived : ∀ rules', derives rules' L) : Recased rules text [] L derives :=
  .plain hscan fun rules' _ => ⟨L, hderived rules', Thinned.refl L⟩

/-- A phrase that is one of another kind. -/
theorem Recased.mono (h : Recased rules text ranges L derives)
    (hderives : ∀ rules' M, derives rules' M → derives' rules' M) :
    Recased rules text ranges L derives' where
  scans := h.scans
  ascends := h.ascends
  derived rules' htable hranges := by
    obtain ⟨L', hL', hthin⟩ := h.derived rules' htable hranges
    exact ⟨L', hderives rules' L' hL', hthin⟩

/-- A phrase around another one. -/
theorem Recased.map (h : Recased rules text ranges L derives) {before after : List UInt16}
    (hbefore : Scans .outside before .outside []) (hafter : Scans .outside after .outside [])
    {op : Language UInt16 → Language UInt16} (hop : ∀ {A B}, Thins A B → Thins (op A) (op B))
    (hderives : ∀ rules' M, derives rules' M → derives' rules' (op M)) :
    Recased rules (before ++ text ++ after) ranges (op L) derives' where
  scans := by
    have hscan := (hbefore.append h.scans).append hafter
    rwa [List.nil_append, List.append_nil] at hscan
  ascends := h.ascends
  derived rules' htable hranges := by
    obtain ⟨L', hL', hthin⟩ := h.derived rules' htable hranges
    exact ⟨op L', hderives rules' L' hL', hthin.map hop⟩

/-- Two phrases with something between them. -/
theorem Recased.map₂ (h : Recased rules text ranges L derives)
    (h' : Recased rules text' ranges' M derives') {between : List UInt16}
    (hbetween : Scans .outside between .outside [])
    {op : Language UInt16 → Language UInt16 → Language UInt16}
    (hop : ∀ {A B C D}, Thins A B → Thins C D → Thins (op A C) (op B D))
    (hderives : ∀ rules' N N', derives rules' N → derives' rules' N' → derives'' rules' (op N N')) :
    Recased rules (text ++ between ++ text') (ranges ++ ranges') (op L M) derives'' where
  scans := by
    have hscan := (h.scans.append hbetween).append h'.scans
    rwa [List.append_nil] at hscan
  ascends := List.forall_mem_append.mpr ⟨h.ascends, h'.ascends⟩
  derived rules' htable hranges := by
    obtain ⟨hleft, hright⟩ := List.forall_mem_append.mp hranges
    obtain ⟨L', hL', hthin⟩ := h.derived rules' htable hleft
    obtain ⟨M', hM', hthin'⟩ := h'.derived rules' htable hright
    exact ⟨op L' M', hderives rules' L' M' hL' hM', hthin.map₂ hop hthin'⟩

/-- Two phrases in a row. -/
theorem Recased.append (h : Recased rules text ranges L derives)
    (h' : Recased rules text' ranges' M derives')
    {op : Language UInt16 → Language UInt16 → Language UInt16}
    (hop : ∀ {A B C D}, Thins A B → Thins C D → Thins (op A C) (op B D))
    (hderives : ∀ rules' N N', derives rules' N → derives' rules' N' → derives'' rules' (op N N')) :
    Recased rules (text ++ text') (ranges ++ ranges') (op L M) derives'' := by
  have hboth := h.map₂ h' Scans.nil hop hderives
  rwa [List.append_nil] at hboth

end Recased

/-! ### Literals and classes -/

section Classes

variable {rules rules' : CaseRules}

/-- A class does not match the empty word. -/
theorem nil_notMem_predicate (p : SymbolPredicate) : [] ∉ (Hir.predicate p).language := by
  intro hnil
  obtain ⟨unit, -, hunit⟩ := Hir.mem_language_predicate.mp hnil
  cases hunit

/-- A literal takes one unit, under all rules. -/
theorem CaseRules.nil_notMem_literal (rules : CaseRules) (unit : UInt16) :
    [] ∉ (rules.literal unit).language := by
  have hsymbol : [] ∉ (Hir.symbol unit).language := fun hnil =>
    absurd (Hir.mem_language_symbol.mp hnil) (List.cons_ne_nil _ _).symm
  unfold CaseRules.literal
  split
  · exact hsymbol
  · dsimp only
    split
    · exact hsymbol
    · exact nil_notMem_predicate _

/-- A literal that regards case matches its unit. -/
theorem CaseRules.thins_literal (hcase : rules.caseInsensitive = false) (unit : UInt16) :
    Thins (rules'.literal unit).language (rules.literal unit).language := by
  refine ⟨iff_of_false (rules'.nil_notMem_literal unit) (rules.nil_notMem_literal unit),
    fun _ => ⟨[unit], ?_, List.cons_ne_nil _ _⟩⟩
  rw [CaseRules.literal, hcase]
  exact Hir.mem_language_symbol.mpr rfl

/-- Predicates are compared by whether they match anything. -/
theorem thins_predicate {p p' : SymbolPredicate}
    (h : (∃ unit, p'.matches unit = true) → ∃ unit, p.matches unit = true) :
    Thins (Hir.predicate p').language (Hir.predicate p).language := by
  refine ⟨iff_of_false (nil_notMem_predicate p') (nil_notMem_predicate p), ?_⟩
  rintro ⟨word, hword, -⟩
  obtain ⟨unit, hunit, -⟩ := Hir.mem_language_predicate.mp hword
  obtain ⟨other, hother⟩ := h ⟨unit, hunit⟩
  exact ⟨[other], Hir.mem_language_predicate.mpr ⟨other, hother, rfl⟩, List.cons_ne_nil _ _⟩

namespace ClassItem

variable {item : ClassItem}

/-- An item ascends when its ranges do. -/
theorem ascends_iff :
    item.Ascends rules ↔ ∀ range ∈ item.ranges, rules.Ascends range.1 range.2 := by
  cases item with
  | range start stop =>
    have hrange : ∀ range : UInt16 × UInt16, range ∈ [(start, stop)] ↔ range = (start, stop) :=
      fun range => List.mem_singleton
    simp only [ranges, hrange, forall_eq]
    exact Iff.rfl
  | literal | members => exact iff_of_true trivial fun _ hrange => absurd hrange List.not_mem_nil

/-- The items ascend when all their ranges do. -/
theorem forall_ascends_iff {items : List ClassItem} : (∀ item ∈ items, item.Ascends rules) ↔
    ∀ range ∈ items.flatMap ClassItem.ranges, rules.Ascends range.1 range.2 := by
  simp only [List.mem_flatMap, ascends_iff]
  exact ⟨fun h range ⟨item, hitem, hrange⟩ => h item hitem range hrange,
    fun h item hitem range hrange => h range ⟨item, hitem, hrange⟩⟩

/-- An item that matches something under other rules does so under these. -/
theorem nonempty_units (h : item.Ascends rules) (hunits : (item.units rules').Nonempty) :
    (item.units rules).Nonempty := by
  cases item with
  | literal unit =>
    refine ⟨unit, ?_⟩
    show unit ∈ rules.literalUnits unit
    unfold CaseRules.literalUnits
    split
    · exact Or.inl (Or.inl rfl)
    · exact rfl
  | range start stop =>
    have hle : start ∈ PredicateTerm.unitRange start stop := ⟨UInt16.le_refl start, h.1⟩
    refine ⟨start, ?_⟩
    show start ∈ rules.rangeUnits start stop
    unfold CaseRules.rangeUnits
    split
    · exact Or.inl (Or.inl hle)
    · exact hle
  | members predicate => exact hunits

/-- Ignoring case adds units to an item. -/
theorem units_subset (hcase : rules.caseInsensitive = false) :
    item.units rules ⊆ item.units rules' := by
  cases item with
  | literal unit =>
    show rules.literalUnits unit ⊆ rules'.literalUnits unit
    rw [CaseRules.literalUnits, hcase, if_neg Bool.false_ne_true, Set.singleton_subset_iff]
    unfold CaseRules.literalUnits
    split
    · exact Or.inl (Or.inl rfl)
    · exact rfl
  | range start stop =>
    show rules.rangeUnits start stop ⊆ rules'.rangeUnits start stop
    have hcased : ¬ (rules.IsCased start ∧ rules.IsCased stop) := fun hends =>
      absurd (hends.1.1.symm.trans hcase) (by decide)
    rw [CaseRules.rangeUnits, if_neg hcased]
    unfold CaseRules.rangeUnits
    split
    · exact fun unit hunit => Or.inl (Or.inl hunit)
    · exact Set.Subset.refl _
  | members predicate => exact Set.Subset.refl _

end ClassItem

/-- The units that the items of a class add. -/
def classUnits (rules : CaseRules) (items : List ClassItem) : Set UInt16 :=
  {unit | ∃ item ∈ items, unit ∈ item.units rules}

variable {text : List UInt16} {items : List ClassItem} {predicate predicate' : SymbolPredicate}

/-- Items that have been inserted ascend and are named. -/
theorem ClassItemsText.names_of_foldlM (h : ClassItemsText text items)
    (hfold : items.foldlM (ClassItem.addTo rules) .empty = some predicate) :
    (∀ item ∈ items, item.Ascends rules) ∧ predicate.Names (classUnits rules items) := by
  refine ⟨?_, h.inserts.names _ hfold⟩
  by_contra hnot
  rw [h.inserts.eq_none_iff.mpr hnot] at hfold
  cases hfold

/-- Items that ascend can be inserted. -/
theorem ClassItemsText.exists_foldlM (h : ClassItemsText text items)
    (hascends : ∀ item ∈ items, item.Ascends rules) :
    ∃ predicate, items.foldlM (ClassItem.addTo rules) .empty = some predicate :=
  Option.ne_none_iff_exists'.mp fun hnone => h.inserts.eq_none_iff.mp hnone hascends

/-- Ignoring case keeps a class from being empty, unless it is inverted; an inverted class that
matches something without regard to case matches it with regard to case too. -/
theorem thins_class (hcase : rules.caseInsensitive = false)
    (hascends : ∀ item ∈ items, item.Ascends rules)
    (hnames : predicate.Names (classUnits rules items))
    (hnames' : predicate'.Names (classUnits rules' items)) :
    Thins (Hir.predicate predicate').language (Hir.predicate predicate).language ∧
      Thins (Hir.predicate predicate'.complement).language
        (Hir.predicate predicate.complement).language := by
  refine ⟨thins_predicate ?_, thins_predicate ?_⟩
  · rintro ⟨unit, hunit⟩
    obtain ⟨item, hitem, hmem⟩ := (hnames'.matches_iff unit).mp hunit
    obtain ⟨other, hother⟩ := ClassItem.nonempty_units (hascends item hitem) ⟨unit, hmem⟩
    exact ⟨other, (hnames.matches_iff other).mpr ⟨item, hitem, hother⟩⟩
  · rintro ⟨unit, hunit⟩
    refine ⟨unit, (hnames.complement.matches_iff unit).mpr fun hmem => ?_⟩
    obtain ⟨item, hitem, hmem⟩ := hmem
    exact (hnames'.complement.matches_iff unit).mp hunit
      ⟨item, hitem, ClassItem.units_subset hcase hmem⟩

/-- A class can be derived under other rules under which its ranges ascend. -/
theorem ClassText.recased (h : ClassText rules text predicate) : ∃ ranges,
    Recased rules text ranges (Hir.predicate predicate).language fun rules' L' =>
      ∃ predicate', ClassText rules' text predicate' ∧
        (Hir.predicate predicate').language = L' := by
  cases h with
  | positive hitems hhead hfold =>
    obtain ⟨hascends, hnames⟩ := hitems.names_of_foldlM hfold
    -- the same items build a class under other rules, as their ranges ascend there as well
    refine ⟨_, hitems.scans_class.1 hhead, ClassItem.forall_ascends_iff.mp hascends,
      fun rules' _ hranges => ?_⟩
    have hascends' := ClassItem.forall_ascends_iff.mpr hranges
    obtain ⟨predicate', hfold'⟩ := hitems.exists_foldlM hascends'
    have hnames' := (hitems.names_of_foldlM hfold').2
    exact ⟨_, ⟨predicate', .positive hitems hhead hfold', rfl⟩,
      fun hcase => (thins_class hcase hascends hnames hnames').1,
      fun hcase => (thins_class hcase hascends' hnames' hnames).1⟩
  | inverted hitems hfold =>
    obtain ⟨hascends, hnames⟩ := hitems.names_of_foldlM hfold
    refine ⟨_, hitems.scans_class.2, ClassItem.forall_ascends_iff.mp hascends,
      fun rules' _ hranges => ?_⟩
    have hascends' := ClassItem.forall_ascends_iff.mpr hranges
    obtain ⟨predicate', hfold'⟩ := hitems.exists_foldlM hascends'
    have hnames' := (hitems.names_of_foldlM hfold').2
    exact ⟨_, ⟨_, .inverted hitems hfold', rfl⟩,
      fun hcase => (thins_class hcase hascends hnames hnames').2,
      fun hcase => (thins_class hcase hascends' hnames' hnames).2⟩

end Classes

/-! ### Expressions -/

section Expressions

variable {rules : CaseRules} {depth : ℕ} {text : List UInt16}

/-- The languages of a text as an atom. -/
def AtomLanguage (depth : ℕ) (text : List UInt16) (rules : CaseRules)
    (L : Language UInt16) : Prop :=
  ∃ atom, AtomText rules depth text atom ∧ atom.language = L

/-- The languages of a text as items in a row. -/
def ItemsLanguage (depth : ℕ) (text : List UInt16) (rules : CaseRules) (L : Language UInt16) :
    Prop :=
  ∃ items, ItemsText rules depth text items ∧ Hir.languageAll items = L

/-- The languages of a text as branches. -/
def BranchesLanguage (depth : ℕ) (text : List UInt16) (rules : CaseRules) (L : Language UInt16) :
    Prop :=
  ∃ branches, BranchesText rules depth text branches ∧ Hir.languageAny branches = L

section Languages

variable {text' quantifier : List UInt16} {count : ℕ} {limit : Option ℕ} {L M : Language UInt16}

/-- An atom in front of items has the product. -/
theorem ItemsLanguage.plain (h : AtomLanguage depth text rules L)
    (h' : ItemsLanguage depth text' rules M) :
    ItemsLanguage depth (text ++ text') rules (L * M) := by
  obtain ⟨atom, hatom, rfl⟩ := h
  obtain ⟨items, hitems, rfl⟩ := h'
  exact ⟨atom :: items, .plain hatom hitems, rfl⟩

/-- A repeated atom in front of items has the product of the iteration. -/
theorem ItemsLanguage.quantified (h : AtomLanguage depth text rules L)
    (hquantifier : QuantifierText quantifier count limit)
    (h' : ItemsLanguage depth text' rules M) :
    ItemsLanguage depth (text ++ quantifier ++ text') rules (iterate L count limit * M) := by
  obtain ⟨atom, hatom, rfl⟩ := h
  obtain ⟨items, hitems, rfl⟩ := h'
  refine ⟨_, .quantified hatom hquantifier hitems, ?_⟩
  rw [Hir.languageAll, Hir.language_mkRepeat _ fun bound hbound =>
    (hquantifier.bounds.2 bound hbound).1]

/-- The last branch has its own language. -/
theorem BranchesLanguage.last (h : ItemsLanguage depth text rules L) :
    BranchesLanguage depth text rules L := by
  obtain ⟨items, hitems, rfl⟩ := h
  refine ⟨_, .last hitems, ?_⟩
  rw [Hir.languageAny_singleton, Hir.language_mkSequence]

/-- A bar behind the last branch adds nothing. -/
theorem BranchesLanguage.trailing (h : ItemsLanguage depth text rules L) :
    BranchesLanguage depth (text ++ [ascii '|']) rules L := by
  obtain ⟨items, hitems, rfl⟩ := h
  refine ⟨_, .trailing hitems, ?_⟩
  rw [Hir.languageAny_singleton, Hir.language_mkSequence]

/-- A branch in front of others has the union. -/
theorem BranchesLanguage.more (h : ItemsLanguage depth text rules L) (hne : text' ≠ [])
    (h' : BranchesLanguage depth text' rules M) :
    BranchesLanguage depth (text ++ [ascii '|'] ++ text') rules (L + M) := by
  obtain ⟨items, hitems, rfl⟩ := h
  obtain ⟨branches, hbranches, rfl⟩ := h'
  rw [List.append_assoc]
  refine ⟨_, .more hitems hne hbranches, ?_⟩
  rw [Hir.languageAny, Hir.language_mkSequence]

/-- A group has the language of its branches. -/
theorem AtomLanguage.group {opening : List UInt16} (hopening : OpeningText opening)
    (hdepth : depth < maxGroupNesting) (hne : text ≠ [])
    (h : BranchesLanguage (depth + 1) text rules L) :
    AtomLanguage depth (opening ++ text ++ [ascii ')']) rules L := by
  obtain ⟨branches, hbranches, rfl⟩ := h
  exact ⟨_, .group hopening hdepth hne hbranches, Hir.language_mkAlternation branches⟩

end Languages

/-- An escape has no ranges, and under other rules it is derived too. -/
theorem EscapeText.recased {expression : Hir} (h : EscapeText rules text expression) :
    Recased rules text [] expression.language (AtomLanguage depth text) := by
  have hscan := h.scans
  cases h with
  | literal hunit =>
    exact .plain hscan fun rules' _ => ⟨_, ⟨_, .escape (.literal hunit), rfl⟩,
      fun hcase => CaseRules.thins_literal hcase _, fun hcase => CaseRules.thins_literal hcase _⟩
  | newline => exact .same hscan fun _ => ⟨_, .escape .newline, rfl⟩
  | tab => exact .same hscan fun _ => ⟨_, .escape .tab, rfl⟩
  | carriageReturn => exact .same hscan fun _ => ⟨_, .escape .carriageReturn, rfl⟩
  | formFeed => exact .same hscan fun _ => ⟨_, .escape .formFeed, rfl⟩
  | shorthand hunit => exact .same hscan fun _ => ⟨_, .escape (.shorthand hunit), rfl⟩
  | wordBoundary => exact .same hscan fun _ => ⟨_, .escape .wordBoundary, rfl⟩
  | nonWordBoundary => exact .same hscan fun _ => ⟨_, .escape .nonWordBoundary, rfl⟩

mutual

/-- An atom can be derived under other rules under which its ranges ascend. -/
theorem AtomText.recased {depth : ℕ} {text : List UInt16} {atom : Hir}
    (h : AtomText rules depth text atom) :
    ∃ ranges, Recased rules text ranges atom.language (AtomLanguage depth text) :=
  match h with
  | .any => ⟨[], .same rfl fun _ => ⟨_, .any, rfl⟩⟩
  | .lineStart => ⟨[], .same rfl fun _ => ⟨_, .lineStart, rfl⟩⟩
  | .lineEnd => ⟨[], .same rfl fun _ => ⟨_, .lineEnd, rfl⟩⟩
  | .literal hunit => by
    refine ⟨[], .plain (scans_plain ?_) fun rules' _ => ⟨_, ⟨_, .literal hunit, rfl⟩,
      fun hcase => CaseRules.thins_literal hcase _, fun hcase => CaseRules.thins_literal hcase _⟩⟩
    refine List.forall_mem_singleton.mpr ⟨?_, ?_⟩
    · rintro rfl
      exact absurd hunit (by decide)
    · rintro rfl
      exact absurd hunit (by decide)
  | .escape hescape => ⟨[], hescape.recased⟩
  | .charClass hclass => by
    obtain ⟨ranges, hrecased⟩ := hclass.recased
    refine ⟨ranges, hrecased.mono ?_⟩
    rintro rules' M ⟨predicate, hpredicate, hM⟩
    exact ⟨_, .charClass hpredicate, hM⟩
  | .emptyGroup hopening =>
    ⟨[], .same (hopening.scans.append rfl) fun _ => ⟨_, .emptyGroup hopening, rfl⟩⟩
  | .group hopening hdepth hbody hbranches => by
    obtain ⟨ranges, hrecased⟩ := hbranches.recased
    have hclose : Scans .outside [ascii ')'] .outside [] := rfl
    refine ⟨ranges, ?_⟩
    rw [Hir.language_mkAlternation]
    exact hrecased.map hopening.scans hclose id fun _ _ hM => .group hopening hdepth hbody hM

/-- Items can be derived under other rules under which their ranges ascend. -/
theorem ItemsText.recased {depth : ℕ} {text : List UInt16} {items : List Hir}
    (h : ItemsText rules depth text items) :
    ∃ ranges, Recased rules text ranges (Hir.languageAll items) (ItemsLanguage depth text) :=
  match h with
  | .nil => ⟨[], .same Scans.nil fun _ => ⟨[], .nil, rfl⟩⟩
  | .plain hatom hrest => by
    obtain ⟨ranges, hfirst⟩ := hatom.recased
    obtain ⟨ranges', hitems⟩ := hrest.recased
    exact ⟨_, hfirst.append hitems Thins.mul fun _ _ _ => ItemsLanguage.plain⟩
  | .quantified hatom hquantifier hrest => by
    obtain ⟨ranges, hfirst⟩ := hatom.recased
    obtain ⟨ranges', hitems⟩ := hrest.recased
    have hbounds := fun bound hbound => (hquantifier.bounds.2 bound hbound).1
    rw [Hir.languageAll, Hir.language_mkRepeat _ hbounds]
    exact ⟨_, hfirst.map₂ hitems hquantifier.scans
      (fun hbody hrest => (hbody.iterate hbounds).mul hrest)
      fun _ _ _ hN hN' => ItemsLanguage.quantified hN hquantifier hN'⟩

/-- Branches can be derived under other rules under which their ranges ascend. -/
theorem BranchesText.recased {depth : ℕ} {text : List UInt16} {branches : List Hir}
    (h : BranchesText rules depth text branches) :
    ∃ ranges, Recased rules text ranges (Hir.languageAny branches) (BranchesLanguage depth text) :=
  match h with
  | .last hitems => by
    obtain ⟨ranges, hrecased⟩ := hitems.recased
    rw [Hir.languageAny_singleton, Hir.language_mkSequence]
    exact ⟨ranges, hrecased.mono fun _ _ hM => .last hM⟩
  | .trailing hitems => by
    obtain ⟨ranges, hrecased⟩ := hitems.recased
    have hbar : Scans .outside [ascii '|'] .outside [] := rfl
    rw [Hir.languageAny_singleton, Hir.language_mkSequence]
    exact ⟨ranges, hrecased.map Scans.nil hbar id fun _ _ hM => .trailing hM⟩
  | .more hitems hne hrest => by
    obtain ⟨ranges, hfirst⟩ := hitems.recased
    obtain ⟨ranges', hbranches⟩ := hrest.recased
    have hbar : Scans .outside [ascii '|'] .outside [] := rfl
    have hboth := hfirst.map₂ hbranches hbar Thins.add fun _ _ _ hN hN' =>
      BranchesLanguage.more hN hne hN'
    rw [List.append_assoc] at hboth
    rw [Hir.languageAny, Hir.language_mkSequence]
    exact ⟨_, hboth⟩

end

end Expressions

/-! ### Acceptance -/

/-- A text that does not begin with a prefix that sets flags. -/
def HasNoFlags (units : List UInt16) : Prop :=
  ∀ flags rest, FlagPrefixText flags →
    units ≠ ascii '(' :: ascii '?' :: (flags ++ ascii ')' :: rest)

section Acceptance

variable {lowerUpper : UInt16 → UInt16 × UInt16} {patternId : PatternId} {units : List UInt16}
  {flags : PatternFlags}

/-- The empty text is refused. -/
theorem ne_nil_of_parseWithFlags {pattern : HirPattern}
    (h : parseWithFlags lowerUpper patternId units flags = .ok pattern) : units ≠ [] := by
  rintro rfl
  cases h

/-- A text without flags of its own is accepted when it is a pattern with other words than the empty
one. -/
theorem exists_parseWithFlags_iff (hunits : units ≠ []) {expression : Hir}
    (h : PatternText ⟨flags.isCaseInsensitive, lowerUpper⟩ units expression) :
    (∃ pattern, parseWithFlags lowerUpper patternId units flags = .ok pattern) ↔
      expression.language ≠ 1 := by
  have hwidth : (HirPattern.new patternId expression h.sequencesNonempty).isZeroWidth = true ↔
      expression.language = 1 := h.valid.zeroWidth_iff
  rw [parseWithFlags_eq_of_patternText hunits h]
  split
  next hzero =>
    refine iff_of_false ?_ (not_not.mpr (hwidth.mp hzero))
    rintro ⟨pattern, herror⟩
    cases herror
  next hzero => exact iff_of_true ⟨_, rfl⟩ fun hone => hzero (hwidth.mpr hone)

/-- A pattern without flags of its own can be derived under other rules under which its ranges
ascend. -/
theorem PatternText.recased {rules : CaseRules} {expression : Hir}
    (h : PatternText rules units expression) (hplain : HasNoFlags units) :
    Recased rules units (classRanges units) expression.language fun rules' L =>
      ∃ expression', PatternText rules' units expression' ∧ expression'.language = L := by
  cases h with
  | flagged hflags _ => exact absurd rfl (hplain _ _ hflags)
  | plain hbranches =>
    obtain ⟨ranges, hrecased⟩ := hbranches.recased
    rw [hrecased.scans.classRanges_eq, Hir.language_mkAlternation]
    refine hrecased.mono ?_
    rintro rules' M ⟨branches, hbranches', rfl⟩
    exact ⟨_, .plain hbranches', Hir.language_mkAlternation branches⟩

/-- A thinner language has the empty word alone when the other one does. -/
theorem eq_one_of_thins {h h' : Hir} (hthin : Thins h'.language h.language)
    (hone : h.language = 1) : h'.language = 1 := by
  obtain ⟨hnil, hnone⟩ := Hir.language_eq_one_iff.mp hone
  exact Hir.language_eq_one_iff.mpr
    ⟨hthin.nil_mem_iff.mpr hnil, fun hconsumes => hnone (hthin.consumes hconsumes)⟩

end Acceptance

/-! ### Classes on their own -/

section Alone

variable {lowerUpper : UInt16 → UInt16 × UInt16} {patternId : PatternId} {text : List UInt16}
  {flags : PatternFlags} {predicate : SymbolPredicate} {items : List ClassItem}

/-- A text that does not open a group has no flags of its own. -/
theorem hasNoFlags_of_head (h : text.head? ≠ some (ascii '(')) : HasNoFlags text := by
  rintro flags rest - rfl
  exact h rfl

/-- A class has a text. -/
theorem ClassText.ne_nil {rules : CaseRules} (h : ClassText rules text predicate) : text ≠ [] := by
  cases h with
  | positive | inverted => exact List.cons_ne_nil _ _

/-- A class is accepted, and its pattern does not match the empty word. -/
theorem ClassText.exists_parseWithFlags
    (h : ClassText ⟨flags.isCaseInsensitive, lowerUpper⟩ text predicate) :
    ∃ pattern, parseWithFlags lowerUpper patternId text flags = .ok pattern ∧
      pattern.nullable = false := by
  have hlast : BranchesText ⟨flags.isCaseInsensitive, lowerUpper⟩ 0 text
      [.mkSequence [.predicate predicate]] := by
    rw [← List.append_nil text]
    exact .last (.plain (.charClass h) .nil)
  rw [parseWithFlags_eq_of_patternText h.ne_nil (.plain hlast)]
  exact ⟨_, if_neg Bool.false_ne_true, rfl⟩

/-- An optional class is accepted when it matches some unit. -/
theorem ClassText.exists_parseWithFlags_optional_iff
    (h : ClassText ⟨flags.isCaseInsensitive, lowerUpper⟩ text predicate) :
    (∃ pattern, parseWithFlags lowerUpper patternId (text ++ [ascii '?']) flags = .ok pattern) ↔
      ∃ unit, predicate.matches unit = true := by
  have hlast : BranchesText ⟨flags.isCaseInsensitive, lowerUpper⟩ 0 (text ++ [ascii '?'])
      [.mkSequence [.mkRepeat (.predicate predicate) 0 (some 1)]] := by
    rw [← List.append_nil (text ++ [ascii '?'])]
    exact .last (.quantified (.charClass h) .optional .nil)
  have hbounds : ∀ limit ∈ some 1, 0 ≤ limit := fun limit _ => Nat.zero_le limit
  rw [exists_parseWithFlags_iff (by simp) (.plain hlast), Ne, Hir.language_eq_one_iff,
    Hir.language_mkAlternation, Hir.languageAny_singleton, Hir.language_mkSequence,
    Hir.languageAll, Hir.languageAll, mul_one, Hir.language_mkRepeat _ hbounds,
    nil_mem_iterate_iff hbounds, consumes_iterate_iff hbounds]
  simp only [true_or, true_and, not_not, Consumes, Hir.mem_language_predicate]
  constructor
  · rintro ⟨-, word, ⟨unit, hunit, -⟩, -⟩
    exact ⟨unit, hunit⟩
  · rintro ⟨unit, hunit⟩
    exact ⟨by decide, [unit], ⟨unit, hunit, rfl⟩, List.cons_ne_nil _ _⟩

/-- An optional inverted class of items that ascend is accepted when they leave some unit out. -/
theorem ClassItemsText.exists_parseWithFlags_optional_iff (h : ClassItemsText text items)
    (hascends : ∀ item ∈ items, item.Ascends ⟨flags.isCaseInsensitive, lowerUpper⟩) :
    (∃ pattern, parseWithFlags lowerUpper patternId
        (ascii '[' :: ascii '^' :: (text ++ [ascii ']']) ++ [ascii '?']) flags = .ok pattern) ↔
      ∃ unit, unit ∉ classUnits ⟨flags.isCaseInsensitive, lowerUpper⟩ items := by
  obtain ⟨predicate, hfold⟩ := h.exists_foldlM hascends
  have hnames := (h.names_of_foldlM hfold).2.complement
  rw [(ClassText.inverted h hfold).exists_parseWithFlags_optional_iff]
  exact exists_congr hnames.matches_iff

end Alone

/-! ### The case flag -/

section CaseFlag

variable {lowerUpper : UInt16 → UInt16 × UInt16} {patternId : PatternId} {units : List UInt16}

/-- A text without flags of its own that is accepted without regard to case is accepted with regard
to case. The other way round, when no class range descends once its ends are folded, the text is a
pattern without regard to case too, and it is accepted unless that pattern matches the empty word
only; in particular it is accepted when the pattern that regards case does not match the empty
word. -/
theorem case_flag_keeps_acceptance (hplain : HasNoFlags units) :
    ((∃ pattern, parseWithFlags lowerUpper patternId units .caseInsensitive = .ok pattern) →
      ∃ pattern, parseWithFlags lowerUpper patternId units .none = .ok pattern) ∧
    ∀ pattern, parseWithFlags lowerUpper patternId units .none = .ok pattern →
      (∀ range ∈ classRanges units, CaseRules.Ascends ⟨true, lowerUpper⟩ range.1 range.2) →
      ∃ expression, PatternText ⟨true, lowerUpper⟩ units expression ∧
        ((∃ pattern', parseWithFlags lowerUpper patternId units .caseInsensitive = .ok pattern') ↔
          expression.language ≠ 1) ∧
        (pattern.nullable = false → expression.language ≠ 1) := by
  refine ⟨?_, ?_⟩
  · rintro ⟨pattern, hpattern⟩
    have hunits := ne_nil_of_parseWithFlags hpattern
    obtain ⟨htext, -, -⟩ := parseWithFlags_eq_ok lowerUpper patternId units _ hpattern
    have hrecased := htext.recased hplain
    obtain ⟨-, ⟨expression, htext', rfl⟩, -, hthin⟩ := hrecased.derived ⟨false, lowerUpper⟩ rfl
      fun range hrange =>
        ⟨(hrecased.ascends range hrange).1, fun hcased => absurd hcased.1 Bool.false_ne_true⟩
    have haccepts : _ ↔ expression.language ≠ 1 :=
      @exists_parseWithFlags_iff lowerUpper patternId units .none hunits expression htext'
    refine haccepts.mpr fun hone => ?_
    -- then only the empty word would match without regard to case either
    exact (exists_parseWithFlags_iff hunits htext).mp ⟨pattern, hpattern⟩
      (eq_one_of_thins (hthin rfl) hone)
  · intro pattern hpattern hranges
    have hunits := ne_nil_of_parseWithFlags hpattern
    obtain ⟨htext, hnew, -⟩ := parseWithFlags_eq_ok lowerUpper patternId units _ hpattern
    obtain ⟨-, ⟨expression, htext', rfl⟩, hthin, -⟩ :=
      (htext.recased hplain).derived ⟨true, lowerUpper⟩ rfl hranges
    refine ⟨expression, htext', exists_parseWithFlags_iff hunits htext', fun hnullable hone => ?_⟩
    have hnil : [] ∈ pattern.expression.language := by
      refine (hthin rfl).nil_mem_iff.mp ?_
      rw [hone]
      exact Language.nil_mem_one
    rw [hnew] at hnullable
    have hnull : pattern.expression.nullable = true := htext.valid.analyses.nullable_iff.mpr hnil
    exact Bool.false_ne_true (hnullable.symm.trans hnull)

/-- The case mappings of the ASCII letters, with no other letters. -/
def asciiLowerUpper (unit : UInt16) : UInt16 × UInt16 :=
  (if ascii 'A' ≤ unit ∧ unit ≤ ascii 'Z' then unit + 0x20 else unit,
    if ascii 'a' ≤ unit ∧ unit ≤ ascii 'z' then unit - 0x20 else unit)

/-- `[a-c]` is accepted without regard to case too. -/
theorem case_flag_keeps_acceptance_letters :
    ∃ pattern, parseWithFlags asciiLowerUpper ⟨7⟩
      [ascii '[', ascii 'a', ascii '-', ascii 'c', ascii ']'] .caseInsensitive = .ok pattern := by
  have hitems : ClassItemsText [ascii 'a', ascii '-', ascii 'c'] [.range (ascii 'a') (ascii 'c')] :=
    .cons (.range (.plain (by decide)) (.plain (by decide))) .nil
  obtain ⟨predicate, hfold⟩ := @ClassItemsText.exists_foldlM ⟨false, asciiLowerUpper⟩ _ _ hitems
    (by decide)
  obtain ⟨pattern, hpattern, hnullable⟩ := @ClassText.exists_parseWithFlags asciiLowerUpper ⟨7⟩ _
    .none _ (.positive hitems (by decide) hfold)
  have hranges : ∀ range ∈ classRanges [ascii '[', ascii 'a', ascii '-', ascii 'c', ascii ']'],
      CaseRules.Ascends ⟨true, asciiLowerUpper⟩ range.1 range.2 :=
    List.forall_mem_singleton.mpr (by decide)
  obtain ⟨expression, -, haccepts, hone⟩ :=
    (case_flag_keeps_acceptance (hasNoFlags_of_head (by decide))).2 pattern hpattern hranges
  exact haccepts.mpr (hone hnullable)

/-- The ranges around `a`, and the letter `A`. -/
def aroundLetter : List ClassItem :=
  [.range 0 0x60, .range (ascii 'b') 0xffff, .literal (ascii 'A')]

/-- The text of that class is one of class items. -/
theorem aroundLetter_text :
    ClassItemsText [0, ascii '-', 0x60, ascii 'b', ascii '-', 0xffff, ascii 'A'] aroundLetter :=
  .cons (.range (.plain (by decide)) (.plain (by decide)))
    (.cons (.range (.plain (by decide)) (.plain (by decide)))
      (.cons (.literal (.plain (by decide))) .nil))

/-- With regard to case the letter is left out. -/
theorem notMem_classUnits_aroundLetter :
    ascii 'a' ∉ classUnits ⟨false, asciiLowerUpper⟩ aroundLetter := by
  rintro ⟨item, hitem, hunit⟩
  simp only [aroundLetter, List.mem_cons, List.not_mem_nil, or_false] at hitem
  obtain rfl | rfl | rfl := hitem
  · have hrange : ascii 'a' ∈ PredicateTerm.unitRange 0 0x60 := hunit
    exact absurd hrange.2 (by decide)
  · have hrange : ascii 'a' ∈ PredicateTerm.unitRange (ascii 'b') 0xffff := hunit
    exact absurd hrange.1 (by decide)
  · have hletter : ascii 'a' ∈ ({ascii 'A'} : Set UInt16) := hunit
    exact absurd hletter (by decide)

/-- Without, no unit is. -/
theorem mem_classUnits_aroundLetter (unit : UInt16) :
    unit ∈ classUnits ⟨true, asciiLowerUpper⟩ aroundLetter := by
  by_cases hbelow : unit ≤ 0x60
  · have hrange : unit ∈ PredicateTerm.unitRange 0 0x60 := ⟨UInt16.zero_le, hbelow⟩
    exact ⟨.range 0 0x60, by simp [aroundLetter], hrange⟩
  by_cases habove : ascii 'b' ≤ unit
  · have hrange : unit ∈ PredicateTerm.unitRange (ascii 'b') 0xffff :=
      ⟨habove, UInt16.le_iff_toNat_le.mpr (Nat.le_of_lt_succ unit.toNat_lt)⟩
    exact ⟨.range (ascii 'b') 0xffff, by simp [aroundLetter], hrange⟩
  · -- only `a` is left, which is `A` in lower case
    have ha : unit = ascii 'a' := by
      rw [UInt16.le_iff_toNat_le] at hbelow habove
      have hlower : (0x60 : UInt16).toNat = 0x60 := rfl
      have hupper : (ascii 'b').toNat = 0x62 := rfl
      have hvalue : (ascii 'a').toNat = 0x61 := rfl
      exact UInt16.toNat_inj.mp (by omega)
    exact ⟨.literal (ascii 'A'), by simp [aroundLetter], Or.inl (Or.inr ha)⟩

/-- All units but `a` are taken out of an optional inverted class, with `A` among them: it matches
`a`, but the empty word only without regard to case. The range of `[Z-a]` ascends, but there is none
from `z` to `a`. Both texts are accepted with regard to case only. -/
theorem case_flag_changes_acceptance :
    (HasNoFlags [ascii '[', ascii '^', 0, ascii '-', 0x60, ascii 'b', ascii '-', 0xffff, ascii 'A',
        ascii ']', ascii '?'] ∧
      (∃ pattern, parseWithFlags asciiLowerUpper ⟨7⟩ [ascii '[', ascii '^', 0, ascii '-', 0x60,
        ascii 'b', ascii '-', 0xffff, ascii 'A', ascii ']', ascii '?'] .none = .ok pattern) ∧
      ¬ ∃ pattern, parseWithFlags asciiLowerUpper ⟨7⟩ [ascii '[', ascii '^', 0, ascii '-', 0x60,
        ascii 'b', ascii '-', 0xffff, ascii 'A', ascii ']', ascii '?'] .caseInsensitive =
          .ok pattern) ∧
    HasNoFlags [ascii '[', ascii 'Z', ascii '-', ascii 'a', ascii ']'] ∧
      (∃ pattern, parseWithFlags asciiLowerUpper ⟨7⟩
        [ascii '[', ascii 'Z', ascii '-', ascii 'a', ascii ']'] .none = .ok pattern) ∧
      ¬ ∃ pattern, parseWithFlags asciiLowerUpper ⟨7⟩
        [ascii '[', ascii 'Z', ascii '-', ascii 'a', ascii ']'] .caseInsensitive = .ok pattern := by
  have hletters : ClassItemsText [ascii 'Z', ascii '-', ascii 'a']
      [.range (ascii 'Z') (ascii 'a')] :=
    .cons (.range (.plain (by decide)) (.plain (by decide))) .nil
  refine ⟨⟨hasNoFlags_of_head (by decide), ?_, ?_⟩, hasNoFlags_of_head (by decide), ?_, ?_⟩
  · exact (@ClassItemsText.exists_parseWithFlags_optional_iff asciiLowerUpper ⟨7⟩ _ .none _
      aroundLetter_text (by decide)).mpr
        ⟨ascii 'a', notMem_classUnits_aroundLetter⟩
  · intro haccepted
    obtain ⟨unit, hunit⟩ := (@ClassItemsText.exists_parseWithFlags_optional_iff asciiLowerUpper ⟨7⟩
      _ .caseInsensitive _ aroundLetter_text
        (by decide)).mp haccepted
    exact hunit (mem_classUnits_aroundLetter unit)
  · obtain ⟨predicate, hfold⟩ := @ClassItemsText.exists_foldlM ⟨false, asciiLowerUpper⟩ _ _ hletters
      (by decide)
    obtain ⟨pattern, hpattern, -⟩ := @ClassText.exists_parseWithFlags asciiLowerUpper ⟨7⟩ _
      .none _ (.positive hletters (by decide) hfold)
    exact ⟨pattern, hpattern⟩
  · rintro ⟨pattern, hpattern⟩
    obtain ⟨htext, -, -⟩ := parseWithFlags_eq_ok asciiLowerUpper ⟨7⟩ _ _ hpattern
    have hascends := (htext.recased (hasNoFlags_of_head (by decide))).ascends
    -- its one range is from `Z` to `a`
    exact absurd (List.forall_mem_singleton.mp hascends) (by decide)

end CaseFlag

end Rustmatch

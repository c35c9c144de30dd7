import Rustmatch.Parser.Grammar
import Rustmatch.Predicate.Operations

/-!
# What character classes match

The predicates that the parser builds are canonical names of sets of units. Without regard to case
a class item stands for the units it names and their case partners; a range whose ends both have
case stands for the range of the lower ends and that of the upper ends besides.

## Main definitions

* `CaseRules.rangeUnits`: the units of a range;
* `CaseRules.Ascends`: the ranges that are not refused;
* `ClassItem.units`: the units of an item.

## Main results

* `CaseRules.inserts_insertClassRange`: which ranges are refused, and what the others stand for;
* `ClassText.canonical`: the predicates of classes are canonical.
-/

namespace Rustmatch

open SymbolPredicate PredicateTerm

namespace CaseRules

variable (rules : CaseRules)

/-- Units with two different case mappings, when case is ignored. -/
def IsCased (unit : UInt16) : Prop :=
  rules.caseInsensitive = true ∧ (rules.lowerUpper unit).1 ≠ (rules.lowerUpper unit).2

instance (unit : UInt16) : Decidable (rules.IsCased unit) := inferInstanceAs (Decidable (_ ∧ _))

/-- The ends of a range are in order, and so are their case mappings when they count. -/
def Ascends (start stop : UInt16) : Prop :=
  start ≤ stop ∧ (rules.IsCased start → rules.IsCased stop →
    (rules.lowerUpper start).1 ≤ (rules.lowerUpper stop).1 ∧
      (rules.lowerUpper start).2 ≤ (rules.lowerUpper stop).2)

instance (start stop : UInt16) : Decidable (rules.Ascends start stop) :=
  inferInstanceAs (Decidable (_ ∧ (_ → _ → _ ∧ _)))

/-- The units that a literal of a class adds. -/
def literalUnits (unit : UInt16) : Set UInt16 :=
  if rules.caseInsensitive then {unit} ∪ {(rules.lowerUpper unit).1} ∪ {(rules.lowerUpper unit).2}
  else {unit}

/-- The units that a range of a class adds. -/
def rangeUnits (start stop : UInt16) : Set UInt16 :=
  if rules.IsCased start ∧ rules.IsCased stop then
    unitRange start stop ∪
      unitRange (rules.lowerUpper start).1 (rules.lowerUpper stop).1 ∪
      unitRange (rules.lowerUpper start).2 (rules.lowerUpper stop).2
  else unitRange start stop

variable {rules} {predicate : SymbolPredicate} {units : Set UInt16}

/-- A literal inserts its units, with case or without. -/
theorem names_insertClassLiteral (h : predicate.Names units) (unit : UInt16) :
    (rules.insertClassLiteral predicate unit).Names (units ∪ rules.literalUnits unit) := by
  unfold insertClassLiteral literalUnits
  cases rules.caseInsensitive with
  | false => exact h.insert unit
  | true =>
    have hunits := ((h.insert unit).insert (rules.lowerUpper unit).1).insert
      (rules.lowerUpper unit).2
    rw [Set.union_assoc, Set.union_assoc] at hunits
    rw [if_pos rfl, Set.union_assoc]
    exact hunits

/-- An insertion succeeds exactly when `ok` holds, and names `units` then. -/
structure Inserts (inserted : Option SymbolPredicate) (ok : Prop) (units : Set UInt16) : Prop where
  /-- It fails when `ok` does not hold. -/
  eq_none_iff : inserted = none ↔ ¬ ok
  /-- What it returns names the units. -/
  names : ∀ predicate ∈ inserted, predicate.Names units

/-- One insertion after another inserts both, when both succeed. -/
theorem Inserts.bind {inserted : Option SymbolPredicate}
    {next : SymbolPredicate → Option SymbolPredicate} {ok ok' : Prop} {units units' : Set UInt16}
    (h : Inserts inserted ok units)
    (hnext : ok → ∀ predicate, predicate.Names units → Inserts (next predicate) ok' units') :
    Inserts (inserted.bind next) (ok ∧ ok') units' := by
  cases hinserted : inserted with
  | none =>
    have hnot := h.eq_none_iff.mp hinserted
    exact ⟨iff_of_true rfl fun hok => hnot hok.1, nofun⟩
  | some predicate =>
    have hok : ok := by
      by_contra hnot
      rw [h.eq_none_iff.mpr hnot] at hinserted
      cases hinserted
    have hrest := hnext hok predicate (h.names predicate hinserted)
    refine ⟨hrest.eq_none_iff.trans ?_, hrest.names⟩
    rw [and_iff_right hok]

/-- A range is inserted when it ascends. -/
theorem inserts_insertRange (h : predicate.Names units) (start stop : UInt16) :
    Inserts (predicate.insertRange start stop) (start ≤ stop) (units ∪ unitRange start stop) := by
  refine ⟨?_, fun inserted hinserted => ?_⟩
  · rw [insertRange_eq_none_iff, UInt16.not_le]
  · have hnames := h.insertRange start stop
    rw [Option.mem_def.mp hinserted, Option.getD_some] at hnames
    exact hnames

/-- A folded range is inserted again only when it differs from the range itself. -/
theorem inserts_folded {start stop foldedStart foldedStop : UInt16} (h : predicate.Names units)
    (hle : start ≤ stop) (hsubset : unitRange start stop ⊆ units) :
    Inserts
      (if (start, stop) ≠ (foldedStart, foldedStop) then
        predicate.insertRange foldedStart foldedStop
      else some predicate)
      (foldedStart ≤ foldedStop) (units ∪ unitRange foldedStart foldedStop) := by
  split
  · exact inserts_insertRange h _ _
  next heq =>
    obtain ⟨rfl, rfl⟩ := Prod.mk.inj (not_not.mp heq)
    refine ⟨iff_of_false nofun (not_not.mpr hle), fun other hother => ?_⟩
    obtain rfl := Option.some.inj hother
    rw [Set.union_eq_left.mpr hsubset]
    exact h

/-- What an insertion asks for and names may be stated otherwise. -/
theorem Inserts.congr {inserted : Option SymbolPredicate} {ok ok' : Prop}
    {units units' : Set UInt16} (h : Inserts inserted ok units) (hok : ok ↔ ok')
    (hunits : units = units') : Inserts inserted ok' units' := by
  subst hunits
  exact ⟨h.eq_none_iff.trans (not_congr hok), h.names⟩

section InsertClassRange

variable {start stop : UInt16}

/-- A range without case is inserted as it stands. -/
theorem insertClassRange_of_not_cased (hcased : ¬ (rules.IsCased start ∧ rules.IsCased stop)) :
    rules.insertClassRange predicate start stop = predicate.insertRange start stop := by
  have hcases : rules.caseInsensitive = true →
      ¬ ((rules.lowerUpper start).1 ≠ (rules.lowerUpper start).2 ∧
        (rules.lowerUpper stop).1 ≠ (rules.lowerUpper stop).2) :=
    fun hcase hends => hcased ⟨⟨hcase, hends.1⟩, hcase, hends.2⟩
  unfold insertClassRange
  cases hcase : rules.caseInsensitive with
  | false => exact Option.bind_fun_some _
  | true =>
    simp only [if_true, if_neg (hcases hcase)]
    exact Option.bind_fun_some _

/-- A range with case is inserted with both of its other cases. -/
theorem insertClassRange_of_cased (hcased : rules.IsCased start ∧ rules.IsCased stop) :
    rules.insertClassRange predicate start stop =
      (predicate.insertRange start stop).bind fun inserted =>
        (if (start, stop) ≠ ((rules.lowerUpper start).1, (rules.lowerUpper stop).1) then
          inserted.insertRange (rules.lowerUpper start).1 (rules.lowerUpper stop).1
        else some inserted).bind fun inserted =>
          if (start, stop) ≠ ((rules.lowerUpper start).2, (rules.lowerUpper stop).2) then
            inserted.insertRange (rules.lowerUpper start).2 (rules.lowerUpper stop).2
          else some inserted := by
  obtain ⟨⟨hcase, hstart⟩, -, hstop⟩ := hcased
  unfold insertClassRange
  rw [hcase]
  simp only [if_true, hstart, hstop, ne_eq, not_false_eq_true, and_self]
  apply congrArg
  funext inserted
  split <;> rfl

/-- A range adds its units, and those of its folded ranges when both ends have case. -/
theorem inserts_insertClassRange (h : predicate.Names units) :
    Inserts (rules.insertClassRange predicate start stop) (rules.Ascends start stop)
      (units ∪ rules.rangeUnits start stop) := by
  have hrange := inserts_insertRange h start stop
  unfold Ascends rangeUnits
  by_cases hcased : rules.IsCased start ∧ rules.IsCased stop
  · rw [insertClassRange_of_cased hcased, if_pos hcased]
    refine (hrange.bind fun hle inserted hinserted =>
      (inserts_folded hinserted hle Set.subset_union_right).bind
        fun _ other hother => inserts_folded hother hle
          (Set.subset_union_of_subset_left Set.subset_union_right _)).congr ?_ ?_
    · simp only [hcased.1, hcased.2, true_imp_iff]
    · simp only [Set.union_assoc]
  · rw [insertClassRange_of_not_cased hcased, if_neg hcased]
    refine hrange.congr ?_ rfl
    exact (and_iff_left fun hstart hstop => absurd ⟨hstart, hstop⟩ hcased).symm

end InsertClassRange

end CaseRules

/-! ### Items and classes -/

namespace ClassItem

/-- The units that an item adds. -/
def units (rules : CaseRules) : ClassItem → Set UInt16
  | .literal unit => rules.literalUnits unit
  | .range start stop => rules.rangeUnits start stop
  | .members predicate => {unit | predicate.matches unit = true}

/-- The items that are not refused. -/
def Ascends (rules : CaseRules) : ClassItem → Prop
  | .range start stop => rules.Ascends start stop
  | .literal _ | .members _ => True

instance (rules : CaseRules) : DecidablePred (ClassItem.Ascends rules)
  | .range start stop => inferInstanceAs (Decidable (rules.Ascends start stop))
  | .literal _ | .members _ => isTrue trivial

/-- The predicates that items hold are canonical. -/
def Canonical : ClassItem → Prop
  | .members predicate => predicate.Canonical
  | .literal _ | .range _ _ => True

variable {rules : CaseRules}

open CaseRules

/-- An item is inserted when it ascends. -/
theorem inserts_addTo {predicate : SymbolPredicate} {units : Set UInt16}
    (h : predicate.Names units) {item : ClassItem} (hitem : item.Canonical) :
    Inserts (item.addTo rules predicate) (item.Ascends rules) (units ∪ item.units rules) := by
  cases item with
  | literal unit =>
    refine ⟨iff_of_false nofun (not_not.mpr trivial), fun other hother => ?_⟩
    obtain rfl := Option.some.inj hother
    exact names_insertClassLiteral h unit
  | range start stop => exact inserts_insertClassRange h
  | members predicate =>
    refine ⟨iff_of_false nofun (not_not.mpr trivial), fun other hother => ?_⟩
    obtain rfl := Option.some.inj hother
    exact h.union (Names.of_canonical hitem)

/-- The items of a class, one after another. -/
theorem inserts_foldlM {items : List ClassItem} (hitems : ∀ item ∈ items, item.Canonical)
    {predicate : SymbolPredicate} {units : Set UInt16} (h : predicate.Names units) :
    Inserts (items.foldlM (ClassItem.addTo rules) predicate)
      (∀ item ∈ items, item.Ascends rules)
      (units ∪ {unit | ∃ item ∈ items, unit ∈ item.units rules}) := by
  induction items generalizing predicate units with
  | nil =>
    refine ⟨iff_of_false nofun (by simp), fun other hother => ?_⟩
    obtain rfl := Option.some.inj hother
    have hnone : {unit | ∃ item ∈ ([] : List ClassItem), unit ∈ item.units rules} = ∅ := by simp
    rw [hnone, Set.union_empty]
    exact h
  | cons item items ih =>
    obtain ⟨hitem, hrest⟩ := List.forall_mem_cons.mp hitems
    rw [List.foldlM_cons]
    refine ((inserts_addTo h hitem).bind fun _ other hother => ih hrest hother).congr
      List.forall_mem_cons.symm ?_
    rw [Set.union_assoc]
    congr 1
    ext unit
    simp only [Set.mem_union, Set.mem_ofPred_eq, List.exists_mem_cons_iff]

end ClassItem

section Texts

variable {rules : CaseRules}

/-- A derived item is canonical. -/
theorem ClassItemText.canonical {text : List UInt16} {item : ClassItem}
    (h : ClassItemText text item) : item.Canonical := by
  cases h with
  | literal _ => trivial
  | range _ _ => trivial
  | digit => exact Names.digit.canonical
  | word => exact Names.word.canonical
  | whitespace => exact Names.whitespace.canonical

/-- All derived items are canonical. -/
theorem ClassItemsText.canonical {text : List UInt16} {items : List ClassItem}
    (h : ClassItemsText text items) : ∀ item ∈ items, item.Canonical := by
  induction h with
  | nil => simp
  | cons hitem _ ih => exact List.forall_mem_cons.mpr ⟨hitem.canonical, ih⟩

/-- The items of a class name their units when none is refused. -/
theorem ClassItemsText.inserts {text : List UInt16} {items : List ClassItem}
    (h : ClassItemsText text items) :
    CaseRules.Inserts (items.foldlM (ClassItem.addTo rules) .empty)
      (∀ item ∈ items, item.Ascends rules)
      {unit | ∃ item ∈ items, unit ∈ item.units rules} :=
  (ClassItem.inserts_foldlM h.canonical Names.empty).congr Iff.rfl (Set.empty_union _)

/-- The predicates of classes are canonical. -/
theorem ClassText.canonical {text : List UInt16} {predicate : SymbolPredicate}
    (h : ClassText rules text predicate) : predicate.Canonical := by
  cases h with
  | positive hitems _ hfold => exact (hitems.inserts.names _ hfold).canonical
  | inverted hitems hfold => exact (hitems.inserts.names _ hfold).complement.canonical

/-- The shorthands outside classes are canonical. -/
theorem canonical_shorthand (unit : UInt16) (h : isShorthand unit = true) :
    (shorthand unit h).Canonical := by
  unfold shorthand
  split_ifs
  · exact Names.digit.canonical
  · exact Names.digit.complement.canonical
  · exact Names.word.canonical
  · exact Names.word.complement.canonical
  · exact Names.whitespace.canonical
  · exact Names.whitespace.complement.canonical
  · exfalso
    simp_all [isShorthand]

end Texts

end Rustmatch

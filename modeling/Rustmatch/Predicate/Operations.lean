import Rustmatch.Predicate.Canonical
import Rustmatch.Nfa.Compilation

/-!
# The operations of predicates

What each operation of `SymbolPredicate` does to the set of units it matches, and that it keeps
predicates canonical. A term over the operations (`PredicateTerm`) then builds a canonical name of
the set it denotes, so that interning by equality merges exactly the terms of the same set.

## Main definitions

* `PredicateTerm`: the operations applied in any order;
* `PredicateTerm.build`, `PredicateTerm.members`: the predicate and the set of a term;
* `Compilation.internAll`: a list of predicates interned one after another.

## Main results

* `matches_insertRange`, `matches_union`, `matches_complement`: the operations on sets;
* `PredicateTerm.names_build`: a term builds a canonical name of its set;
* `predicate_terms_are_canonical`: terms are canonical names of sets.
-/

open IntervalLists

namespace Rustmatch

namespace SymbolPredicate

variable {predicate left right : SymbolPredicate}

/-- The predicate without units is canonical. -/
theorem canonical_empty : empty.Canonical where
  nonempty := by simp [empty]
  nonAscii := by simp [empty]
  separated := List.Pairwise.nil

/-- The predicate without units matches nothing. -/
@[simp]
theorem matches_empty (symbol : UInt16) : empty.matches symbol = false := by
  unfold «matches»
  split <;> simp [empty]

/-- The predicate of all units is canonical. -/
theorem canonical_any : any.Canonical where
  nonempty := by simp [any]
  nonAscii := by simp [any]
  separated := List.pairwise_singleton ..

/-- The predicate of all units matches everything. -/
@[simp]
theorem matches_any (symbol : UInt16) : any.matches symbol = true := by
  rw [canonical_any.matches_iff]
  split
  next hascii =>
    rw [any, BitVec.getLsbD_allOnes]
    exact decide_eq_true hascii
  next hascii =>
    exact covers_cons.mpr (Or.inl ⟨not_lt.mp hascii, Nat.le_of_lt_succ symbol.toNat_lt⟩)

/-! ### Ranges -/

/-- The mask of an ASCII range has the bits of its units. -/
theorem getLsbD_asciiRangeMask {start stop : UInt16} (hstop : stop.toNat < 128) {i : ℕ}
    (hi : i < 128) :
    (asciiRangeMask start stop).getLsbD i = decide (start.toNat ≤ i ∧ i ≤ stop.toNat) := by
  have hbelow : (if stop = 127 then BitVec.allOnes 128
      else (1#128 <<< (stop.toNat + 1)) - 1#128).getLsbD i = decide (i ≤ stop.toNat) := by
    -- the shift would drop all bits for the last symbol, so the source has a case for it
    by_cases hlast : stop = 127
    · subst hlast
      rw [if_pos rfl, BitVec.getLsbD_allOnes]
      exact decide_eq_decide.mpr Nat.lt_succ_iff
    · have hlt : stop.toNat + 1 < 128 := by
        have hne : stop.toNat ≠ 127 := fun hnat => hlast (UInt16.toNat_inj.mp hnat)
        omega
      have hpow : 0 < 2 ^ (stop.toNat + 1) := Nat.two_pow_pos _
      have hmask : ((1#128 <<< (stop.toNat + 1)) - 1#128).toNat = 2 ^ (stop.toNat + 1) - 1 := by
        rw [← BitVec.twoPow_eq, BitVec.toNat_sub_of_le, BitVec.toNat_twoPow_of_lt hlt]
        · rfl
        · rw [BitVec.le_def, BitVec.toNat_twoPow_of_lt hlt]
          exact hpow
      rw [if_neg hlast, BitVec.getLsbD, hmask, Nat.testBit_two_pow_sub_one]
      exact decide_eq_decide.mpr Nat.lt_succ_iff
  rw [asciiRangeMask, BitVec.getLsbD_and, hbelow, BitVec.getLsbD_shiftLeft,
    BitVec.getLsbD_allOnes]
  by_cases hle : start.toNat ≤ i
  · have hsub : i - start.toNat < 128 := by omega
    simp [hi, hle, hsub]
  · simp [hle, not_le.mp hle]

/-- A range with its ends in the wrong order is refused. -/
theorem insertRange_eq_none_iff {start stop : UInt16} :
    predicate.insertRange start stop = none ↔ stop < start := by
  unfold insertRange
  split <;> simp_all

/-- The ranges after `insert_range` pushed and merged another one. -/
theorem spans_append_range (h : predicate.Canonical) {start stop : UInt16} (hle : start ≤ stop)
    (hstop : 128 ≤ stop) :
    ∀ r ∈ spans (predicate.nonAsciiRanges ++ [(max start 128, stop)]),
      r.1 ≤ r.2 ∧ 128 ≤ r.1 := by
  intro r hr
  rw [spans, List.map_append, List.mem_append] at hr
  rcases hr with hr | hr
  · exact ⟨h.separated_spans.nonempty r hr, h.le_start r hr⟩
  · rw [List.map_singleton, List.mem_singleton] at hr
    subst hr
    have hmax : 128 ≤ max start 128 := by
      change 128 ≤ if start ≤ 128 then 128 else start
      split
      · exact UInt16.le_refl _
      next h128 => exact (UInt16.le_total start 128).resolve_left h128
    have hmaxle : max start 128 ≤ stop := by
      change (if start ≤ 128 then 128 else start) ≤ stop
      split
      · exact hstop
      · exact hle
    exact ⟨UInt16.le_iff_toNat_le.mp hmaxle, UInt16.le_iff_toNat_le.mp hmax⟩

/-- `insert_range` keeps predicates canonical. -/
theorem canonical_insertRange (h : predicate.Canonical) {start stop : UInt16}
    {inserted : SymbolPredicate} (heq : predicate.insertRange start stop = some inserted) :
    inserted.Canonical := by
  unfold insertRange at heq
  split at heq
  · cases heq
  next hle =>
    obtain rfl := Option.some.inj heq
    have hle : start ≤ stop := UInt16.not_lt.mp hle
    by_cases hstop : 128 ≤ stop
    · rw [if_pos hstop]
      have hranges := spans_append_range h hle hstop
      exact Canonical.of_spans (separated_normalizeRanges fun r hr => (hranges r hr).1)
        (le_start_normalizeRanges fun r hr => (hranges r hr).2)
    · rw [if_neg hstop]
      exact Canonical.of_spans h.separated_spans h.le_start

/-- `insert_range` adds the units of its range. -/
theorem matches_insertRange (h : predicate.Canonical) {start stop : UInt16}
    {inserted : SymbolPredicate} (heq : predicate.insertRange start stop = some inserted)
    (symbol : UInt16) :
    inserted.matches symbol = true ↔
      predicate.matches symbol = true ∨ (start ≤ symbol ∧ symbol ≤ stop) := by
  rw [(canonical_insertRange h heq).matches_iff, h.matches_iff]
  unfold insertRange at heq
  split at heq
  · cases heq
  next hle =>
    obtain rfl := Option.some.inj heq
    have hle : start ≤ stop := UInt16.not_lt.mp hle
    rw [UInt16.le_iff_toNat_le] at hle
    simp only [UInt16.le_iff_toNat_le, UInt16.lt_iff_toNat_lt]
    have h128 : UInt16.toNat 128 = 128 := rfl
    have h127 : UInt16.toNat 127 = 127 := rfl
    rw [h128]
    by_cases hascii : symbol.toNat < 128
    · -- the mask decides
      rw [if_pos hascii, if_pos hascii]
      by_cases hstart : start.toNat < 128
      · have hmin : (min stop 127).toNat = min stop.toNat 127 := by
          change (if stop ≤ 127 then stop else 127).toNat = _
          rw [min_def]
          simp only [UInt16.le_iff_toNat_le, h127]
          split <;> rfl
        rw [if_pos hstart, BitVec.getLsbD_or, Bool.or_eq_true,
          getLsbD_asciiRangeMask (by omega) hascii, decide_eq_true_eq, hmin]
        apply or_congr_right
        omega
      · rw [if_neg hstart]
        simp only [iff_self_or]
        omega
    · -- the ranges decide
      rw [if_neg hascii, if_neg hascii]
      by_cases hstop : 128 ≤ stop.toNat
      · rw [if_pos hstop]
        have hranges := spans_append_range h (UInt16.le_iff_toNat_le.mpr hle)
          (UInt16.le_iff_toNat_le.mpr hstop)
        have hmax : (max start 128).toNat = max start.toNat 128 := by
          change (if start ≤ 128 then 128 else start).toNat = _
          rw [max_def]
          simp only [UInt16.le_iff_toNat_le, h128]
          split <;> rfl
        rw [covers_normalizeRanges fun r hr => (hranges r hr).1, spans, List.map_append,
          covers_append, ← spans, List.map_singleton, covers_cons, span]
        dsimp only
        rw [hmax]
        simp only [covers_nil, or_false]
        apply or_congr_right
        omega
      · rw [if_neg hstop]
        simp only [iff_self_or]
        omega

/-! ### Union and complement -/

/-- The ranges of both predicates have units. -/
theorem nonempty_append (hl : left.Canonical) (hr : right.Canonical) :
    ∀ r ∈ spans (left.nonAsciiRanges ++ right.nonAsciiRanges), r.1 ≤ r.2 := by
  intro r hmem
  rw [spans, List.map_append, List.mem_append] at hmem
  rcases hmem with hmem | hmem
  · exact hl.separated_spans.nonempty r hmem
  · exact hr.separated_spans.nonempty r hmem

/-- A union is canonical. -/
theorem canonical_union (hl : left.Canonical) (hr : right.Canonical) :
    (left.union right).Canonical := by
  apply Canonical.of_spans (separated_normalizeRanges (nonempty_append hl hr))
  apply le_start_normalizeRanges
  intro r hmem
  rw [spans, List.map_append, List.mem_append] at hmem
  rcases hmem with hmem | hmem
  · exact hl.le_start r hmem
  · exact hr.le_start r hmem

/-- A union matches what either predicate matches. -/
theorem matches_union (hl : left.Canonical) (hr : right.Canonical) (symbol : UInt16) :
    (left.union right).matches symbol = true ↔
      left.matches symbol = true ∨ right.matches symbol = true := by
  rw [(canonical_union hl hr).matches_iff, hl.matches_iff, hr.matches_iff]
  split
  · rw [union, BitVec.getLsbD_or, Bool.or_eq_true]
  · rw [union, covers_normalizeRanges (nonempty_append hl hr), spans, List.map_append,
      covers_append, ← spans, ← spans]

/-- The loop of `complement` finds the gaps. -/
theorem spans_complementRanges (ranges : List (UInt16 × UInt16)) {next : ℕ}
    (hnext : next ≤ 65536) :
    spans (complementRanges ranges next) = gaps 65535 (spans ranges) next := by
  induction ranges generalizing next with
  | nil =>
    rw [complementRanges, spans_nil, gaps]
    by_cases hlt : next < 2 ^ 16
    · have hnat : (UInt16.ofNat next).toNat = next := UInt16.toNat_ofNat_of_lt' hlt
      rw [if_pos hlt, if_pos (by omega), spans_cons, span, hnat]
      rfl
    · rw [if_neg hlt, if_neg (by omega), spans_nil]
  | cons range ranges ih =>
    obtain ⟨start, stop⟩ := range
    have hstart := start.toNat_lt
    have hstop := stop.toNat_lt
    rw [complementRanges, spans_cons, span, gaps]
    dsimp only
    rw [← ih (by omega)]
    split
    -- there is a gap before the range, so its start is not zero and has a predecessor
    next hlt =>
      have hnat : (UInt16.ofNat next).toNat = next :=
        UInt16.toNat_ofNat_of_lt' (by unfold UInt16.size; omega)
      have hone : UInt16.toNat 1 = 1 := rfl
      have hpred : (start - 1).toNat = start.toNat - 1 := by
        rw [UInt16.toNat_sub_of_le _ _ (UInt16.le_iff_toNat_le.mpr (by rw [hone]; omega)), hone]
      rw [spans_cons, span, hnat, hpred]
    next => rfl

/-- A complement is canonical. -/
theorem canonical_complement (h : predicate.Canonical) : predicate.complement.Canonical := by
  apply Canonical.of_spans
  · rw [complement, spans_complementRanges _ (by omega)]
    exact separated_gaps h.separated_spans h.le_start
  · rw [complement, spans_complementRanges _ (by omega)]
    exact le_start_of_mem_gaps h.separated_spans h.le_start

/-- A complement matches what the predicate does not. -/
theorem matches_complement (h : predicate.Canonical) (symbol : UInt16) :
    predicate.complement.matches symbol = true ↔ ¬ predicate.matches symbol = true := by
  rw [(canonical_complement h).matches_iff, h.matches_iff]
  split
  next hascii =>
    rw [complement, BitVec.getLsbD_not]
    simp [hascii]
  next hascii =>
    have hge : 128 ≤ symbol.toNat := not_lt.mp hascii
    have hlt : symbol.toNat ≤ 65535 := Nat.le_of_lt_succ symbol.toNat_lt
    rw [complement, spans_complementRanges _ (by omega),
      covers_gaps h.separated_spans h.le_start stop_lt]
    exact ⟨fun hx => hx.2.2, fun hx => ⟨hge, hlt, hx⟩⟩

/-- `complement` is an involution on canonical predicates. -/
theorem complement_complement (h : predicate.Canonical) :
    predicate.complement.complement = predicate := by
  apply Canonical.eq_of_matches (canonical_complement (canonical_complement h)) h
  intro symbol
  apply Bool.eq_iff_iff.mpr
  rw [matches_complement (canonical_complement h), matches_complement h, not_not]

/-- `is_empty` is the test for the empty set. -/
theorem isEmpty_iff (h : predicate.Canonical) :
    predicate.isEmpty = true ↔ ∀ symbol, predicate.matches symbol = false := by
  have heq : predicate.isEmpty = true ↔ predicate = empty := by
    unfold isEmpty empty
    cases predicate
    simp
  rw [heq]
  constructor
  · rintro rfl symbol
    exact matches_empty symbol
  · intro hnone
    apply h.eq_of_matches canonical_empty
    intro symbol
    rw [hnone, matches_empty]

end SymbolPredicate

/-! ### Terms over the operations -/

/-- The operations of `SymbolPredicate`, applied in any order. -/
inductive PredicateTerm where
  /-- `empty`. -/
  | empty
  /-- `any`. -/
  | any
  /-- `digit`. -/
  | digit
  /-- `word`. -/
  | word
  /-- `whitespace`. -/
  | whitespace
  /-- `insert`. -/
  | insert (term : PredicateTerm) (symbol : UInt16)
  /-- `insert_range`, which may refuse. -/
  | insertRange (term : PredicateTerm) (start stop : UInt16)
  /-- `union`. -/
  | union (left right : PredicateTerm)
  /-- `complement`. -/
  | complement (term : PredicateTerm)

namespace PredicateTerm

/-- What the operations build; a refused range leaves the predicate as it was. -/
def build : PredicateTerm → SymbolPredicate
  | empty => SymbolPredicate.empty
  | any => SymbolPredicate.any
  | digit => SymbolPredicate.digit
  | word => SymbolPredicate.word
  | whitespace => SymbolPredicate.whitespace
  | insert term symbol => term.build.insert symbol
  | insertRange term start stop => (term.build.insertRange start stop).getD term.build
  | union left right => left.build.union right.build
  | complement term => term.build.complement

/-- The units `start ..= stop`. -/
def unitRange (start stop : UInt16) : Set UInt16 := {unit | start ≤ unit ∧ unit ≤ stop}

/-- The set of units the operations denote. -/
def members : PredicateTerm → Set UInt16
  | empty => ∅
  | any => Set.univ
  | digit => unitRange 0x30 0x39
  | word => unitRange 0x61 0x7a ∪ unitRange 0x41 0x5a ∪ unitRange 0x30 0x39 ∪ {0x5f}
  | whitespace => {0x20, 0x09, 0x0a, 0x0b, 0x0c, 0x0d}
  | insert term symbol => term.members ∪ {symbol}
  | insertRange term start stop => term.members ∪ unitRange start stop
  | union left right => left.members ∪ right.members
  | complement term => (term.members)ᶜ

end PredicateTerm

namespace SymbolPredicate

open PredicateTerm (unitRange)

/-- A canonical predicate that matches the units of a set. -/
structure Names (predicate : SymbolPredicate) (units : Set UInt16) : Prop where
  /-- The predicate is canonical. -/
  canonical : predicate.Canonical
  /-- It matches the units of the set. -/
  matches_iff : ∀ symbol, predicate.matches symbol = true ↔ symbol ∈ units

namespace Names

variable {predicate left right : SymbolPredicate} {units units' : Set UInt16}

/-- The predicate without units names the empty set. -/
theorem empty : SymbolPredicate.empty.Names ∅ := ⟨canonical_empty, by simp⟩

/-- The predicate of all units names the whole set. -/
theorem any : SymbolPredicate.any.Names Set.univ := ⟨canonical_any, by simp⟩

/-- `insert_range`, with the answer `false` for a range that denotes nothing. -/
theorem insertRange (h : predicate.Names units) (start stop : UInt16) :
    ((predicate.insertRange start stop).getD predicate).Names (units ∪ unitRange start stop) := by
  cases hinsert : predicate.insertRange start stop with
  | none =>
    have hlt : stop < start := insertRange_eq_none_iff.mp hinsert
    have hnone : unitRange start stop = ∅ := by
      ext symbol
      refine iff_of_false ?_ (Set.notMem_empty symbol)
      rintro ⟨hstart, hstop⟩
      exact absurd (UInt16.le_trans hstart hstop) (UInt16.not_le.mpr hlt)
    rw [Option.getD_none, hnone, Set.union_empty]
    exact h
  | some inserted =>
    refine ⟨canonical_insertRange h.canonical hinsert, fun symbol => ?_⟩
    rw [Option.getD_some, matches_insertRange h.canonical hinsert, h.matches_iff]
    rfl

/-- An insertion names one unit more. -/
theorem insert (h : predicate.Names units) (symbol : UInt16) :
    (predicate.insert symbol).Names (units ∪ {symbol}) := by
  have hsingle : unitRange symbol symbol = {symbol} := by
    ext unit
    rw [Set.mem_singleton_iff]
    constructor
    · rintro ⟨hle, hge⟩
      exact UInt16.le_antisymm hge hle
    · rintro rfl
      exact ⟨UInt16.le_refl _, UInt16.le_refl _⟩
  rw [← hsingle]
  exact h.insertRange symbol symbol

/-- A canonical predicate names the units it matches. -/
theorem of_canonical (h : predicate.Canonical) :
    predicate.Names {symbol | predicate.matches symbol = true} := ⟨h, fun _ => Iff.rfl⟩

/-- A union names the union. -/
theorem union (hl : left.Names units) (hr : right.Names units') :
    (left.union right).Names (units ∪ units') := by
  refine ⟨canonical_union hl.canonical hr.canonical, fun symbol => ?_⟩
  rw [matches_union hl.canonical hr.canonical, hl.matches_iff, hr.matches_iff, Set.mem_union]

/-- A complement names the complement. -/
theorem complement (h : predicate.Names units) : predicate.complement.Names unitsᶜ := by
  refine ⟨canonical_complement h.canonical, fun symbol => ?_⟩
  rw [matches_complement h.canonical, h.matches_iff, Set.mem_compl_iff]

/-- The shorthands are made of the operations. -/
theorem digit : SymbolPredicate.digit.Names (unitRange 0x30 0x39) := by
  rw [← Set.empty_union (unitRange _ _)]
  exact empty.insertRange 0x30 0x39

/-- The word units are letters, digits and the underscore. -/
theorem word : SymbolPredicate.word.Names
    (unitRange 0x61 0x7a ∪ unitRange 0x41 0x5a ∪ unitRange 0x30 0x39 ∪ {0x5f}) := by
  rw [← Set.empty_union (unitRange 0x61 0x7a)]
  exact (((empty.insertRange 0x61 0x7a).insertRange 0x41 0x5a).insertRange 0x30 0x39).insert 0x5f

/-- The whitespace units are the space and five controls. -/
theorem whitespace : SymbolPredicate.whitespace.Names
    {0x20, 0x09, 0x0a, 0x0b, 0x0c, 0x0d} := by
  have h := (((((empty.insert 0x20).insert 0x09).insert 0x0a).insert 0x0b).insert 0x0c).insert
    0x0d
  refine ⟨h.canonical, fun symbol => (h.matches_iff symbol).trans ?_⟩
  simp only [Set.mem_union, Set.mem_singleton_iff, Set.mem_empty_iff_false, false_or,
    Set.mem_insert_iff, or_assoc]

end Names

/-- An insertion is canonical. -/
theorem canonical_insert {predicate : SymbolPredicate} (h : predicate.Canonical)
    (symbol : UInt16) : (predicate.insert symbol).Canonical :=
  ((Names.of_canonical h).insert symbol).canonical

end SymbolPredicate

/-- A term builds a canonical name of its set. -/
theorem PredicateTerm.names_build (term : PredicateTerm) : term.build.Names term.members := by
  induction term with
  | empty => exact SymbolPredicate.Names.empty
  | any => exact SymbolPredicate.Names.any
  | digit => exact SymbolPredicate.Names.digit
  | word => exact SymbolPredicate.Names.word
  | whitespace => exact SymbolPredicate.Names.whitespace
  | insert term symbol ih => exact ih.insert symbol
  | insertRange term start stop ih => exact ih.insertRange start stop
  | union left right ihl ihr => exact ihl.union ihr
  | complement term ih => exact ih.complement

/-! ### Interning -/

namespace Compilation

/-- Predicates interned one after another. -/
def internAll : List SymbolPredicate → Compilation → Except Error (List PredicateId × Compilation)
  | [], c => .ok ([], c)
  | predicate :: rest, c => do
    let (id, c) ← c.internPredicate predicate
    let (ids, c) ← internAll rest c
    return (id :: ids, c)

/-- The table of interned predicates finds a predicate exactly at its index. -/
def Interned (c : Compilation) : Prop :=
  ∀ predicate id, c.predicateIds.lookup predicate = some id ↔ c.predicates[id]? = some predicate

variable {c c' : Compilation}

/-- One more predicate gets the index where it stands, and the others keep theirs. -/
theorem Interned.internPredicate (h : c.Interned) {predicate : SymbolPredicate} {id : PredicateId}
    (heq : c.internPredicate predicate = .ok (id, c')) :
    c'.Interned ∧ c'.predicates[id]? = some predicate ∧ c.predicates <+: c'.predicates := by
  obtain ⟨hknown, rfl⟩ | ⟨hunknown, -, rfl, rfl⟩ := Compilation.internPredicate_eq_ok heq
  · exact ⟨h, (h _ _).mp hknown, List.prefix_refl _⟩
  · refine ⟨fun other id => ?_, by simp, List.prefix_append _ _⟩
    rw [List.lookup_cons]
    by_cases hother : other = predicate
    · subst hother
      rw [beq_self_eq_true, Option.some.injEq, List.getElem?_append]
      change c.predicates.length = (id : ℕ) ↔ _
      split
      next hlt =>
        -- the predicate was not in the table before
        have hne : ¬ c.predicates[id]? = some other := by
          rw [← h other id, hunknown]
          exact nofun
        refine iff_of_false (fun hid => ?_) hne
        omega
      next hge =>
        rw [List.getElem?_singleton]
        split
        · exact iff_of_true (by omega) rfl
        · exact iff_of_false (by omega) nofun
    · rw [beq_eq_false_iff_ne.mpr hother, h other id, List.getElem?_append]
      split
      · rfl
      next hge =>
        rw [List.getElem?_eq_none (not_lt.mp hge), List.getElem?_singleton]
        split
        · simp [Ne.symm hother]
        · rfl

/-- The ids of a list of predicates are the indices where they stand. -/
theorem Interned.internAll {predicates : List SymbolPredicate} {ids : List PredicateId}
    (h : c.Interned) (heq : Compilation.internAll predicates c = .ok (ids, c')) :
    c'.Interned ∧ c.predicates <+: c'.predicates ∧
      List.Forall₂ (fun predicate id => c'.predicates[id]? = some predicate) predicates ids := by
  induction predicates generalizing c ids with
  | nil =>
    obtain ⟨rfl, rfl⟩ := Prod.mk.inj (Except.ok.inj heq)
    exact ⟨h, List.prefix_refl _, List.Forall₂.nil⟩
  | cons predicate rest ih =>
    obtain ⟨⟨id, middle⟩, hfirst, heq⟩ := bind_eq_ok.mp heq
    obtain ⟨⟨others, last⟩, hrest, heq⟩ := bind_eq_ok.mp heq
    obtain ⟨rfl, rfl⟩ := Prod.mk.inj (Except.ok.inj heq)
    obtain ⟨hmiddle, hid, hle⟩ := h.internPredicate hfirst
    obtain ⟨hlast, hmiddleLe, hothers⟩ := ih hmiddle hrest
    refine ⟨hlast, hle.trans hmiddleLe, List.Forall₂.cons ?_ hothers⟩
    obtain ⟨more, hmore⟩ := hmiddleLe
    rw [← hmore, List.getElem?_append_left (List.getElem?_eq_some_iff.mp hid).1]
    exact hid

/-- Equal ids are the ids of equal predicates. -/
theorem Interned.getElem?_eq_iff (h : c.Interned) {predicates : List SymbolPredicate}
    {ids : List PredicateId}
    (hids : List.Forall₂ (fun predicate id => c.predicates[id]? = some predicate) predicates ids)
    {i j : ℕ} {left right : SymbolPredicate} (hleft : predicates[i]? = some left)
    (hright : predicates[j]? = some right) : ids[i]? = ids[j]? ↔ left = right := by
  have hget (k : ℕ) {predicate : SymbolPredicate} (hk : predicates[k]? = some predicate) :
      ∃ id, ids[k]? = some id ∧ c.predicates[id]? = some predicate := by
    obtain ⟨hlt, rfl⟩ := List.getElem?_eq_some_iff.mp hk
    have hlt' : k < ids.length := hids.length_eq ▸ hlt
    exact ⟨ids[k], List.getElem?_eq_getElem hlt', hids.get hlt hlt'⟩
  obtain ⟨leftId, hleftId, hleftAt⟩ := hget i hleft
  obtain ⟨rightId, hrightId, hrightAt⟩ := hget j hright
  rw [hleftId, hrightId, Option.some.injEq]
  constructor
  · rintro rfl
    exact Option.some.inj (hleftAt.symm.trans hrightAt)
  · rintro rfl
    exact Option.some.inj (((h _ _).mpr hleftAt).symm.trans ((h _ _).mpr hrightAt))

/-- The empty table knows nothing. -/
theorem interned_start : Interned ⟨[[]], [[]], [], []⟩ := fun predicate id => by simp

end Compilation

/-- Terms over the operations are canonical names of sets: the ranges are in normal form, the
units matched are those the operations denote, `insert_range` refuses exactly the ranges with their
ends in the wrong order and then changes nothing, complement is an involution, `is_empty` is the
test for the empty set, two terms that match the same units are the same predicate, and interning
gives two of them one id exactly when they match the same units. -/
theorem predicate_terms_are_canonical (term : PredicateTerm) :
    term.build.Canonical ∧
      (∀ symbol, term.build.matches symbol = true ↔ symbol ∈ term.members) ∧
      (∀ start stop, (term.build.insertRange start stop = none ↔ stop < start) ∧
        (stop < start → (term.insertRange start stop).build = term.build)) ∧
      term.build.complement.complement = term.build ∧
      (term.build.isEmpty = true ↔ ∀ symbol, term.build.matches symbol = false) ∧
      (∀ other : PredicateTerm,
        (∀ symbol, term.build.matches symbol = other.build.matches symbol) →
          term.build = other.build) ∧
      ∀ (terms : List PredicateTerm) (ids : List PredicateId) (c : Compilation),
        Compilation.internAll (terms.map PredicateTerm.build) ⟨[[]], [[]], [], []⟩ =
            .ok (ids, c) →
          ids.length = terms.length ∧
            ∀ (i j : ℕ) (left right : PredicateTerm), terms[i]? = some left →
              terms[j]? = some right →
                (ids[i]? = ids[j]? ↔
                  ∀ symbol, left.build.matches symbol = right.build.matches symbol) := by
  have hnames := term.names_build
  refine ⟨hnames.canonical, hnames.matches_iff, fun start stop => ⟨?_, ?_⟩,
    SymbolPredicate.complement_complement hnames.canonical,
    SymbolPredicate.isEmpty_iff hnames.canonical, ?_, ?_⟩
  · exact SymbolPredicate.insertRange_eq_none_iff
  · intro hlt
    rw [PredicateTerm.build, SymbolPredicate.insertRange_eq_none_iff.mpr hlt, Option.getD_none]
  · intro other h
    exact hnames.canonical.eq_of_matches other.names_build.canonical h
  · intro terms ids c hintern
    obtain ⟨hinterned, -, hids⟩ := Compilation.interned_start.internAll hintern
    refine ⟨by simpa using hids.length_eq.symm, fun i j left right hleft hright => ?_⟩
    have hleft' : (terms.map PredicateTerm.build)[i]? = some left.build := by
      rw [List.getElem?_map, hleft, Option.map_some]
    have hright' : (terms.map PredicateTerm.build)[j]? = some right.build := by
      rw [List.getElem?_map, hright, Option.map_some]
    -- equal identifiers mean equal predicates, and those are told apart by their symbols
    rw [hinterned.getElem?_eq_iff hids hleft' hright']
    constructor
    · intro heq symbol
      rw [heq]
    · exact left.names_build.canonical.eq_of_matches right.names_build.canonical

end Rustmatch

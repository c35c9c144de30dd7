import Rustmatch.Predicate
import Rustmatch.ToMathlib.IntervalLists
import Rustmatch.ToMathlib.WordBits

/-!
# Predicates are canonical names of sets

The operations of `SymbolPredicate` keep the ranges sorted, nonempty, above ASCII and apart from
each other (`Canonical`). A canonical predicate is read through the numbers of its units: the mask
for the ASCII half and a separated list of intervals (`spans`) for the rest.

## Main definitions

* `SymbolPredicate.Canonical`: the invariant of the operations;
* `SymbolPredicate.spans`: the ranges as intervals of natural numbers.

## Main results

* `Canonical.eq_of_matches`: canonical predicates that match the same units are equal.
-/

open IntervalLists

namespace Rustmatch

namespace SymbolPredicate

/-- The non-ASCII ranges are nonempty, above ASCII, sorted, disjoint and not adjacent. -/
structure Canonical (predicate : SymbolPredicate) : Prop where
  /-- A range has a unit. -/
  nonempty : ∀ range ∈ predicate.nonAsciiRanges, range.1 ≤ range.2
  /-- A range has no ASCII unit. -/
  nonAscii : ∀ range ∈ predicate.nonAsciiRanges, 128 ≤ range.1
  /-- The ranges ascend, with a gap between neighbours. -/
  separated : predicate.nonAsciiRanges.Pairwise fun range next =>
    range.2.toNat + 1 < next.1.toNat

/-- One range as an interval of natural numbers. -/
def span (range : UInt16 × UInt16) : ℕ × ℕ := (range.1.toNat, range.2.toNat)

/-- The ranges as intervals of natural numbers. -/
def spans (ranges : List (UInt16 × UInt16)) : List (ℕ × ℕ) := ranges.map span

/-- A range is known by its numbers. -/
theorem span_injective : Function.Injective span := by
  rintro ⟨start, stop⟩ ⟨start', stop'⟩ h
  obtain ⟨hstart, hstop⟩ := Prod.mk.inj h
  exact Prod.ext (UInt16.toNat_inj.mp hstart) (UInt16.toNat_inj.mp hstop)

/-- No ranges have no numbers. -/
@[simp]
theorem spans_nil : spans [] = [] := rfl

/-- The numbers of the first range come first. -/
@[simp]
theorem spans_cons (range : UInt16 × UInt16) (ranges : List (UInt16 × UInt16)) :
    spans (range :: ranges) = span range :: spans ranges := rfl

/-- An interval comes from a range. -/
theorem mem_spans {ranges : List (UInt16 × UInt16)} {r : ℕ × ℕ} :
    r ∈ spans ranges ↔ ∃ range ∈ ranges, span range = r := List.mem_map

namespace Canonical

variable {predicate left right : SymbolPredicate}

/-- The intervals of a canonical predicate are separated. -/
theorem separated_spans (h : predicate.Canonical) : Separated (spans predicate.nonAsciiRanges) where
  nonempty r hr := by
    obtain ⟨range, hrange, rfl⟩ := mem_spans.mp hr
    exact UInt16.le_iff_toNat_le.mp (h.nonempty range hrange)
  pairwise := List.pairwise_map.mpr h.separated

/-- The intervals of a canonical predicate lie above ASCII. -/
theorem le_start (h : predicate.Canonical) : ∀ r ∈ spans predicate.nonAsciiRanges, 128 ≤ r.1 := by
  intro r hr
  obtain ⟨range, hrange, rfl⟩ := mem_spans.mp hr
  exact UInt16.le_iff_toNat_le.mp (h.nonAscii range hrange)

/-- Intervals above ASCII that are separated make a canonical predicate. -/
theorem of_spans (hseparated : Separated (spans predicate.nonAsciiRanges))
    (hstart : ∀ r ∈ spans predicate.nonAsciiRanges, 128 ≤ r.1) : predicate.Canonical where
  nonempty range hrange :=
    UInt16.le_iff_toNat_le.mpr (hseparated.nonempty _ (mem_spans.mpr ⟨range, hrange, rfl⟩))
  nonAscii range hrange :=
    UInt16.le_iff_toNat_le.mpr (hstart _ (mem_spans.mpr ⟨range, hrange, rfl⟩))
  separated := List.pairwise_map.mp hseparated.pairwise

end Canonical

/-- No interval goes beyond the last unit. -/
theorem stop_lt {ranges : List (UInt16 × UInt16)} :
    ∀ r ∈ spans ranges, r.2 ≤ 65535 := by
  intro r hr
  obtain ⟨range, -, rfl⟩ := mem_spans.mp hr
  have := range.2.toNat_lt
  change range.2.toNat ≤ 65535
  omega

/-! ### Membership -/

/-- Membership of a unit, by its number. -/
theorem Canonical.matches_iff {predicate : SymbolPredicate} (h : predicate.Canonical)
    (symbol : UInt16) :
    predicate.matches symbol = true ↔
      if symbol.toNat < 128 then predicate.ascii.getLsbD symbol.toNat = true
      else Covers (spans predicate.nonAsciiRanges) symbol.toNat := by
  have hiff : symbol < 128 ↔ symbol.toNat < 128 := UInt16.lt_iff_toNat_lt
  unfold «matches»
  by_cases hascii : symbol.toNat < 128
  · rw [if_pos (hiff.mpr hascii), if_pos hascii, WordBits.and_shiftLeft_bne_zero _ hascii]
  · rw [if_neg (mt hiff.mp hascii), if_neg hascii]
    have hdrop : (spans predicate.nonAsciiRanges).dropWhile
          (fun r => decide (r.2 < symbol.toNat)) =
        spans (predicate.nonAsciiRanges.dropWhile fun range => range.2 < symbol) := by
      have hends : (fun r => decide (r.2 < symbol.toNat)) ∘ span =
          fun range => decide (range.2 < symbol) :=
        funext fun _ => decide_eq_decide.mpr UInt16.lt_iff_toNat_lt.symm
      rw [spans, List.dropWhile_map, hends, spans]
    rw [covers_iff_of_head_dropWhile h.separated_spans, hdrop]
    cases predicate.nonAsciiRanges.dropWhile fun range => range.2 < symbol with
    | nil => simp
    | cons range rest =>
      simp [span, UInt16.le_iff_toNat_le]

/-- A canonical predicate covers only numbers of non-ASCII units. -/
theorem Canonical.le_of_covers {predicate : SymbolPredicate} (h : predicate.Canonical) {x : ℕ}
    (hx : Covers (spans predicate.nonAsciiRanges) x) : 128 ≤ x ∧ x < 65536 := by
  obtain ⟨r, hr, hstart, hstop⟩ := hx
  have := h.le_start r hr
  have := stop_lt r hr
  omega

/-- Canonical predicates that match the same units are equal. -/
theorem Canonical.eq_of_matches {left right : SymbolPredicate} (hl : left.Canonical)
    (hr : right.Canonical) (h : ∀ symbol, left.matches symbol = right.matches symbol) :
    left = right := by
  have hiff (symbol : UInt16) := (hl.matches_iff symbol).symm.trans
    ((iff_of_eq (congrArg (· = true) (h symbol))).trans (hr.matches_iff symbol))
  -- each bit and each covered value is the answer for one symbol
  have hascii : left.ascii = right.ascii := by
    apply BitVec.eq_of_getLsbD_eq
    intro i hi
    have hnat : (UInt16.ofNat i).toNat = i :=
      UInt16.toNat_ofNat_of_lt' (by unfold UInt16.size; omega)
    have hbit := hiff (UInt16.ofNat i)
    rw [hnat, if_pos hi, if_pos hi] at hbit
    exact Bool.eq_iff_iff.mpr hbit
  have hranges : left.nonAsciiRanges = right.nonAsciiRanges := by
    apply List.map_injective_iff.mpr span_injective
    apply hl.separated_spans.eq_of_covers_iff hr.separated_spans
    intro x
    by_cases hx : 128 ≤ x ∧ x < 65536
    · have hnat : (UInt16.ofNat x).toNat = x :=
        UInt16.toNat_ofNat_of_lt' (by unfold UInt16.size; omega)
      have hcovers := hiff (UInt16.ofNat x)
      rw [hnat, if_neg (not_lt.mpr hx.1), if_neg (not_lt.mpr hx.1)] at hcovers
      exact hcovers
    · exact ⟨fun h => absurd (hl.le_of_covers h) hx, fun h => absurd (hr.le_of_covers h) hx⟩
  cases left
  cases right
  simp_all

/-! ### Normalization -/

/-- Merging a range into ranges merges its interval. -/
theorem span_mergeRange (merged : List (UInt16 × UInt16)) (range : UInt16 × UInt16) :
    spans (mergeRange merged range) = mergeStep (spans merged) (span range) := by
  cases merged with
  | nil => rfl
  | cons previous rest =>
    obtain ⟨start, stop⟩ := previous
    -- the successor saturates only where no range can start any more
    have hsucc : range.1 ≤ saturatingSucc stop ↔ range.1.toNat ≤ stop.toNat + 1 := by
      unfold saturatingSucc
      have hrange := range.1.toNat_lt
      have hlt := stop.toNat_lt
      rw [UInt16.le_iff_toNat_le]
      split
      next hlast =>
        subst hlast
        have hnat : UInt16.toNat 0xffff = 65535 := rfl
        omega
      next hlast =>
        have hne : stop.toNat ≠ 65535 := fun hnat => hlast (UInt16.toNat_inj.mp hnat)
        have hone : UInt16.toNat 1 = 1 := rfl
        rw [UInt16.toNat_add, hone, Nat.mod_eq_of_lt (by omega)]
    have hmax : (max stop range.2).toNat = max stop.toNat range.2.toNat := by
      change (if stop ≤ range.2 then range.2 else stop).toNat = _
      rw [max_def]
      by_cases hle : stop ≤ range.2
      · rw [if_pos hle, if_pos (UInt16.le_iff_toNat_le.mp hle)]
      · rw [if_neg hle, if_neg (mt UInt16.le_iff_toNat_le.mpr hle)]
    rw [mergeRange, spans_cons, mergeStep.eq_def]
    change _ = if range.1.toNat ≤ stop.toNat + 1 then _ else _
    by_cases htouch : range.1 ≤ saturatingSucc stop
    · rw [if_pos htouch, if_pos (hsucc.mp htouch), spans_cons, span, hmax]
      rfl
    · rw [if_neg htouch, if_neg (mt hsucc.mpr htouch)]
      rfl

/-- Merging ranges one by one merges their intervals one by one. -/
theorem spans_foldl_mergeRange (ranges merged : List (UInt16 × UInt16)) :
    spans (ranges.foldl mergeRange merged) = (spans ranges).foldl mergeStep (spans merged) := by
  induction ranges generalizing merged with
  | nil => rfl
  | cons range ranges ih => rw [List.foldl_cons, ih, span_mergeRange, spans_cons, List.foldl_cons]

/-- Normalizing ranges merges the sorted intervals. -/
theorem spans_normalizeRanges (ranges : List (UInt16 × UInt16)) :
    spans (normalizeRanges ranges) =
      ((spans (ranges.mergeSort rangeLe)).foldl mergeStep []).reverse := by
  rw [normalizeRanges, spans, List.map_reverse, ← spans, spans_foldl_mergeRange, spans_nil]

/-- Ranges are ordered by their first units, then by their last. -/
theorem rangeLe_iff {left right : UInt16 × UInt16} :
    rangeLe left right = true ↔
      left.1.toNat < right.1.toNat ∨
        (left.1.toNat = right.1.toNat ∧ left.2.toNat ≤ right.2.toNat) := by
  simp only [rangeLe, Bool.or_eq_true, decide_eq_true_eq, Bool.and_eq_true, beq_iff_eq,
    UInt16.lt_iff_toNat_lt, UInt16.le_iff_toNat_le, ← UInt16.toNat_inj]

/-- The sorted ranges come in order of their starts. -/
theorem pairwise_spans_mergeSort (ranges : List (UInt16 × UInt16)) :
    (spans (ranges.mergeSort rangeLe)).Pairwise fun r s => r.1 ≤ s.1 := by
  have hsorted : (ranges.mergeSort rangeLe).Pairwise fun r s => rangeLe r s = true := by
    apply List.pairwise_mergeSort
    · intro a b c hab hbc
      rw [rangeLe_iff] at hab hbc ⊢
      omega
    · intro a b
      rw [Bool.or_eq_true, rangeLe_iff, rangeLe_iff]
      omega
  refine List.pairwise_map.mpr (hsorted.imp fun h => ?_)
  rw [rangeLe_iff] at h
  simp only [span]
  omega

/-- Sorting loses no interval. -/
theorem spans_mergeSort_perm (ranges : List (UInt16 × UInt16)) :
    (spans (ranges.mergeSort rangeLe)).Perm (spans ranges) := (List.mergeSort_perm _ _).map span

section Normalize

variable {ranges : List (UInt16 × UInt16)} (hnonempty : ∀ r ∈ spans ranges, r.1 ≤ r.2)

include hnonempty

/-- Normalized ranges are separated. -/
theorem separated_normalizeRanges : Separated (spans (normalizeRanges ranges)) := by
  rw [spans_normalizeRanges]
  apply separated_foldl_mergeStep _ (pairwise_spans_mergeSort ranges)
  intro r hr
  exact hnonempty r ((spans_mergeSort_perm ranges).mem_iff.mp hr)

/-- Normalizing keeps the units that are covered. -/
theorem covers_normalizeRanges {x : ℕ} :
    Covers (spans (normalizeRanges ranges)) x ↔ Covers (spans ranges) x := by
  rw [spans_normalizeRanges, covers_foldl_mergeStep _ (pairwise_spans_mergeSort ranges),
    covers_perm (spans_mergeSort_perm ranges)]
  intro r hr
  exact hnonempty r ((spans_mergeSort_perm ranges).mem_iff.mp hr)

end Normalize

/-- Normalizing keeps ranges above ASCII. -/
theorem le_start_normalizeRanges {ranges : List (UInt16 × UInt16)}
    (h : ∀ r ∈ spans ranges, 128 ≤ r.1) : ∀ r ∈ spans (normalizeRanges ranges), 128 ≤ r.1 := by
  intro r hr
  rw [spans_normalizeRanges, List.mem_reverse] at hr
  apply start_foldl_mergeStep _ (by simp) r hr
  intro r hr
  exact h r ((spans_mergeSort_perm ranges).mem_iff.mp hr)

end SymbolPredicate

end Rustmatch

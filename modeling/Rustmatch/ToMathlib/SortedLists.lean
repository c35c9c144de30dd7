import Mathlib.Data.List.Sort
import Mathlib.Order.Nat

/-!
# Sorted lists

A list, once sorted, is determined by its members and how often they occur. This is what makes a
sorted list a canonical name for a finite set, or for a multiset.

## Main results

* `mergeSort_eq_of_perm`: what is sorted does not depend on the order it came in;
* `pairwise_lt_mergeSort`: sorting a list without repeats gives a strictly increasing one;
* `mergeSort_eq_filter_range`: the sorted list of a set of numbers below a bound.
-/

namespace SortedLists

/-- Sorting by a linear order forgets the order before. -/
theorem mergeSort_eq_of_perm {α : Type} {le : α → α → Bool}
    (htrans : ∀ a b c, le a b = true → le b c = true → le a c = true)
    (htotal : ∀ a b, (le a b || le b a) = true)
    (hantisymm : ∀ a b, le a b = true → le b a = true → a = b) {l l' : List α} (h : l.Perm l') :
    l.mergeSort le = l'.mergeSort le := by
  have hperm : (l.mergeSort le).Perm (l'.mergeSort le) :=
    (List.mergeSort_perm l le).trans (h.trans (List.mergeSort_perm l' le).symm)
  exact hperm.eq_of_pairwise (fun a b _ _ => hantisymm a b)
    (List.pairwise_mergeSort htrans htotal l) (List.pairwise_mergeSort htrans htotal l')

/-- Sorting a list without repeats gives a strictly increasing one. -/
theorem pairwise_lt_mergeSort {l : List ℕ} (h : l.Nodup) :
    (l.mergeSort (· ≤ ·)).Pairwise (· < ·) := by
  have hle : (l.mergeSort (· ≤ ·)).Pairwise (fun a b => decide (a ≤ b) = true) := by
    apply List.pairwise_mergeSort
    · intro a b c hab hbc
      rw [decide_eq_true_eq] at hab hbc ⊢
      exact hab.trans hbc
    · intro a b
      rw [Bool.or_eq_true, decide_eq_true_eq, decide_eq_true_eq]
      exact le_total a b
  have hne : (l.mergeSort (· ≤ ·)).Nodup := (List.mergeSort_perm _ _).nodup_iff.mpr h
  refine (hle.and hne).imp fun h => ?_
  exact lt_of_le_of_ne (of_decide_eq_true h.1) h.2

/-- A list without repeats, sorted, lists the numbers below a bound that are in it. -/
theorem mergeSort_eq_filter_range {l : List ℕ} (h : l.Nodup) {count : ℕ} {p : ℕ → Bool}
    (hmem : ∀ n, n ∈ l ↔ n < count ∧ p n = true) :
    l.mergeSort (· ≤ ·) = (List.range count).filter p := by
  refine (pairwise_lt_mergeSort h).eq_of_mem_iff (List.pairwise_lt_range.filter _) fun n => ?_
  rw [List.mem_mergeSort, hmem, List.mem_filter, List.mem_range]

end SortedLists

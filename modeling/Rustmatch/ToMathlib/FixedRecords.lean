import Mathlib.Data.List.Basic
import Mathlib.Data.Nat.Notation

/-!
# Tables of records of one width

A table has its records one after the other, each of the same number of items, so that an item is
found by the number of its record and its place in it. A list is such a table as soon as its length
and its items are those of the records.

## Main definitions

* `FixedRecords.encode`: the records one after the other.

## Main results

* `FixedRecords.getElem?_encode`: where an item stands;
* `FixedRecords.eq_encode`: a table is known by its items.
-/

namespace FixedRecords

variable {β : Type} {record : ℕ → List β} {width : ℕ}

/-- The first records, one after the other. -/
def encode (record : ℕ → List β) (count : ℕ) : List β := (List.range count).flatMap record

/-- A further record comes last. -/
theorem encode_succ (record : ℕ → List β) (count : ℕ) :
    encode record (count + 1) = encode record count ++ record count := by
  simp [encode, List.range_succ]

/-- The length of a table. -/
theorem length_encode (hwidth : ∀ i, (record i).length = width) (count : ℕ) :
    (encode record count).length = count * width := by
  induction count with
  | zero => simp [encode]
  | succ count ih => rw [encode_succ, List.length_append, ih, hwidth, Nat.succ_mul]

/-- An item stands at its place behind the records before its own. -/
theorem getElem?_encode (hwidth : ∀ i, (record i).length = width) {count i j : ℕ} (hi : i < count)
    (hj : j < width) : (encode record count)[i * width + j]? = (record i)[j]? := by
  induction count with
  | zero => exact absurd hi (Nat.not_lt_zero i)
  | succ count ih =>
    have hlength := length_encode hwidth count
    rw [encode_succ]
    obtain hlt | rfl := Nat.lt_succ_iff_lt_or_eq.mp hi
    · have hend : (i + 1) * width ≤ count * width := Nat.mul_le_mul_right width hlt
      rw [Nat.succ_mul] at hend
      rw [List.getElem?_append_left (by omega), ih hlt]
    · rw [List.getElem?_append_right (by omega), hlength, Nat.add_sub_cancel_left]

/-- A list with the items of the records is the table. -/
theorem eq_encode (hwidth : ∀ i, (record i).length = width) {items : List β} {count : ℕ}
    (hlength : items.length = count * width)
    (hitems : ∀ i < count, ∀ j < width, items[i * width + j]? = (record i)[j]?) :
    items = encode record count := by
  refine List.ext_getElem? fun index => ?_
  obtain hlt | hge := Nat.lt_or_ge index (count * width)
  · -- the record is the quotient, and the place in it the remainder
    have hpos : 0 < width := Nat.pos_of_ne_zero fun hzero => by simp [hzero] at hlt
    have hi : index / width < count := Nat.div_lt_of_lt_mul (Nat.mul_comm count width ▸ hlt)
    have hj : index % width < width := Nat.mod_lt index hpos
    have hindex : index / width * width + index % width = index := Nat.div_add_mod' index width
    rw [← hindex, hitems _ hi _ hj, getElem?_encode hwidth hi hj]
  · rw [List.getElem?_eq_none (by omega),
      List.getElem?_eq_none (by rw [length_encode hwidth]; exact hge)]

end FixedRecords

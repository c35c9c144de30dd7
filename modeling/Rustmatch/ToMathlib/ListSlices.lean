import Mathlib.Data.List.Basic
import Mathlib.Data.Nat.Notation

/-!
# Slices of a list

`IsSlice items start slice stop` says that `slice` is what lies in `items` from index `start` up to
index `stop`. Slices that touch are joined and taken apart again.

## Main results

* `isSlice_cons`, `isSlice_append`: a slice by its first element, and in two parts;
* `isSlice_drop`: the slice of all the rest;
* `IsSlice.run_unique`: the longest run of elements with a property;
* `Tiles.append`: slices that lie side by side.
-/

variable {α : Type}

/-- What lies from `start` up to `stop`. -/
structure IsSlice (items : List α) (start : ℕ) (slice : List α) (stop : ℕ) : Prop where
  /-- The slice has the length of the interval. -/
  stop_eq : stop = start + slice.length
  /-- It stands at the start. -/
  isPrefix : slice <+: items.drop start

namespace IsSlice

variable {items slice slice' : List α} {start middle stop : ℕ}

/-- A slice ends behind its start, or there. -/
theorem start_le (h : IsSlice items start slice stop) : start ≤ stop := by
  rw [h.stop_eq]
  exact Nat.le_add_right _ _

/-- A slice that is not empty ends inside the list. -/
theorem stop_le (h : IsSlice items start slice stop) (hstart : start ≤ items.length) :
    stop ≤ items.length := by
  have hle := h.isPrefix.length_le
  rw [List.length_drop] at hle
  rw [h.stop_eq]
  omega

/-- What lies behind a slice. -/
theorem drop_eq (h : IsSlice items start slice stop) :
    items.drop start = slice ++ items.drop stop := by
  rw [h.stop_eq, ← List.drop_drop]
  exact (List.prefix_iff_eq_append.mp h.isPrefix).symm

end IsSlice

/-- What a list begins with. -/
theorem isSlice_of_eq_append {items slice rest : List α} (h : items = slice ++ rest) :
    IsSlice items 0 slice slice.length :=
  ⟨(Nat.zero_add _).symm, ⟨rest, h.symm⟩⟩

/-- The empty slice ends where it starts. -/
@[simp]
theorem isSlice_nil {items : List α} {start stop : ℕ} :
    IsSlice items start [] stop ↔ stop = start := by
  constructor
  · exact fun h => h.stop_eq
  · exact fun h => ⟨h, List.nil_prefix⟩

/-- A slice by its first element. -/
theorem isSlice_cons {items slice : List α} {first : α} {start stop : ℕ} :
    IsSlice items start (first :: slice) stop ↔
      items[start]? = some first ∧ IsSlice items (start + 1) slice stop := by
  have hdrop : first :: slice <+: items.drop start ↔
      items[start]? = some first ∧ slice <+: items.drop (start + 1) := by
    by_cases hstart : start < items.length
    · rw [List.drop_eq_getElem_cons hstart, List.cons_prefix_cons, List.getElem?_eq_getElem hstart,
        Option.some.injEq]
      exact and_congr_left fun _ => eq_comm
    · rw [List.drop_eq_nil_of_le (Nat.not_lt.mp hstart),
        List.getElem?_eq_none (Nat.not_lt.mp hstart)]
      simp
  have hlength : start + (first :: slice).length = start + 1 + slice.length := by
    rw [List.length_cons]
    omega
  constructor
  · rintro ⟨hstop, hbegins⟩
    obtain ⟨hfirst, hrest⟩ := hdrop.mp hbegins
    exact ⟨hfirst, hstop.trans hlength, hrest⟩
  · rintro ⟨hfirst, hstop, hrest⟩
    exact ⟨hstop.trans hlength.symm, hdrop.mpr ⟨hfirst, hrest⟩⟩

/-- A slice in two parts. -/
theorem isSlice_append {items slice slice' : List α} {start stop : ℕ} :
    IsSlice items start (slice ++ slice') stop ↔
      ∃ middle, IsSlice items start slice middle ∧ IsSlice items middle slice' stop := by
  induction slice generalizing start with
  | nil => simp
  | cons first slice ih =>
    rw [List.cons_append, isSlice_cons, ih]
    constructor
    · rintro ⟨hfirst, middle, hslice, hslice'⟩
      exact ⟨middle, isSlice_cons.mpr ⟨hfirst, hslice⟩, hslice'⟩
    · rintro ⟨middle, hslice, hslice'⟩
      obtain ⟨hfirst, hslice⟩ := isSlice_cons.mp hslice
      exact ⟨hfirst, middle, hslice, hslice'⟩

/-- A slice of one element. -/
theorem isSlice_singleton {items : List α} {first : α} {start stop : ℕ} :
    IsSlice items start [first] stop ↔ items[start]? = some first ∧ stop = start + 1 := by
  rw [isSlice_cons, isSlice_nil]

/-- A slice of two elements. -/
theorem isSlice_pair {items : List α} {first second : α} {start stop : ℕ} :
    IsSlice items start [first, second] stop ↔
      items[start]? = some first ∧ items[start + 1]? = some second ∧ stop = start + 2 := by
  rw [isSlice_cons, isSlice_singleton]

/-- The slice of all the rest. -/
theorem isSlice_drop {items slice : List α} {start : ℕ} (hstart : start ≤ items.length) :
    IsSlice items start slice items.length ↔ slice = items.drop start := by
  have hlength : (items.drop start).length = items.length - start := List.length_drop
  constructor
  · rintro ⟨hstop, hbegins⟩
    exact hbegins.eq_of_length (by omega)
  · rintro rfl
    exact ⟨by omega, List.prefix_refl _⟩

/-- A run of elements with a property, up to one without it, is unique. -/
theorem IsSlice.run_unique {P : α → Prop} {items slice slice' : List α} {start stop stop' : ℕ}
    (h : IsSlice items start slice stop) (hall : ∀ a ∈ slice, P a)
    (hend : ∀ a, items[stop]? = some a → ¬ P a) (h' : IsSlice items start slice' stop')
    (hall' : ∀ a ∈ slice', P a) (hend' : ∀ a, items[stop']? = some a → ¬ P a) :
    slice = slice' ∧ stop = stop' := by
  induction slice generalizing start slice' with
  | nil =>
    obtain rfl := isSlice_nil.mp h
    cases slice' with
    | nil => exact ⟨rfl, (isSlice_nil.mp h').symm⟩
    | cons a slice' =>
      exact absurd (hall' a List.mem_cons_self) (hend a (isSlice_cons.mp h').1)
  | cons a slice ih =>
    obtain ⟨hget, hrest⟩ := isSlice_cons.mp h
    cases slice' with
    | nil =>
      obtain rfl := isSlice_nil.mp h'
      exact absurd (hall a List.mem_cons_self) (hend' a hget)
    | cons a' slice' =>
      obtain ⟨hget', hrest'⟩ := isSlice_cons.mp h'
      obtain rfl : a = a' := Option.some.inj (hget.symm.trans hget')
      obtain ⟨rfl, rfl⟩ := ih hrest (List.forall_mem_cons.mp hall).2 hrest'
        (List.forall_mem_cons.mp hall').2
      exact ⟨rfl, rfl⟩

/-! ### Tilings -/

/-- The slices, given as start and length, follow one another from `start` to `stop`: the first one
starts at `start`, each other one where the one before it ends, and the last one ends at `stop`. -/
def Tiles : ℕ → List (ℕ × ℕ) → ℕ → Prop
  | start, [], stop => start = stop
  | start, slice :: rest, stop => slice.1 = start ∧ Tiles (start + slice.2) rest stop

/-- One more slice at the end of a tiling. -/
theorem Tiles.append {start stop : ℕ} {slices : List (ℕ × ℕ)} (h : Tiles start slices stop)
    (length : ℕ) : Tiles start (slices ++ [(stop, length)]) (stop + length) := by
  induction slices generalizing start with
  | nil =>
    obtain rfl : start = stop := h
    exact ⟨rfl, rfl⟩
  | cons slice rest ih => exact ⟨h.1, ih h.2⟩

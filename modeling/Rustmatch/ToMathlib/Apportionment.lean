import Mathlib.Logic.Function.Basic
import Mathlib.Order.Nat

/-!
# Highest averages

Seats are given one after the other to parties that have room for more of them, each to a party
with the most votes for each seat it has. Whoever has more than one seat then had, before its last
one, at least as many votes a seat as every other party with room has now. The quotients are
compared by their cross products.

## Main definitions

* `HighestAverages`: no party with room has a better claim to the last seat of another one.

## Main results

* `HighestAverages.grow`: one more seat.
-/

namespace Apportionment

variable {ι : Type*} {room votes seats : ι → ℕ}

/-- No party with room has a better claim to the last seat of another party that has several. -/
def HighestAverages (room votes seats : ι → ℕ) : Prop :=
  ∀ i j, i ≠ j → 1 < seats i → seats j < room j → votes j * (seats i - 1) ≤ votes i * seats j

/-- With one seat for each party there is nothing to claim. -/
theorem highestAverages_one : HighestAverages room votes fun _ => 1 :=
  fun _ _ _ hseats => absurd hseats (lt_irrefl 1)

/-- The party with the most votes for each of its seats gets one more. -/
theorem HighestAverages.grow [DecidableEq ι] (h : HighestAverages room votes seats) {i : ι}
    (hroom : seats i < room i)
    (hmost : ∀ j, j ≠ i → seats j < room j → votes j * seats i ≤ votes i * seats j) :
    HighestAverages room votes (Function.update seats i (seats i + 1)) := by
  intro j k hne hseats hlt
  by_cases hj : j = i
  · -- the new seat is the one that others may claim
    subst hj
    rw [Function.update_self, Nat.add_sub_cancel, Function.update_of_ne hne.symm]
    rw [Function.update_of_ne hne.symm] at hlt
    exact hmost k hne.symm hlt
  · rw [Function.update_of_ne hj] at hseats ⊢
    by_cases hk : k = i
    · subst hk
      rw [Function.update_self]
      exact (h j k hne hseats hroom).trans (Nat.mul_le_mul_left _ (Nat.le_succ _))
    · rw [Function.update_of_ne hk] at hlt ⊢
      exact h j k hne hseats hlt

end Apportionment

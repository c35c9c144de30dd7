import Mathlib.Algebra.Group.Basic
import Mathlib.Logic.Basic

/-!
# Computations that spend a limited resource

A computation changes a state, and its state has used some amount of a resource that is limited: ids
of a fixed width, a budget of cells. A computation that spends an amount whatever the state is
succeeds exactly when the amount still fits, and then has used that much more; otherwise it fails
with the one error that says so. Amounts add up under sequential composition, so that the cost of a
program is read off its text.

## Main definitions

* `Meter`: what a state has used, and which amounts fit;
* `Meter.Spends`: the outcome of a computation that spends an amount.

## Main results

* `Meter.Spends.bind`: amounts add up;
* `Meter.Spends.of_ok`, `Meter.Spends.of_error`: success is a question of what fits.
-/

/-- What states have used of a limited resource. A part of what fits fits, and what has been used in
a sound state did fit. -/
structure Meter (σ ρ ε : Type) [AddMonoid ρ] where
  /-- What a state has used. -/
  used : σ → ρ
  /-- States that the bookkeeping is right about. -/
  Sound : σ → Prop
  /-- Amounts within the limits. -/
  Fits : ρ → Prop
  /-- The error of a computation that would exceed them. -/
  exceeded : ε
  /-- A part of what fits fits. -/
  fits_of_add : ∀ {a b : ρ}, Fits (a + b) → Fits a
  /-- What has been used in a sound state fits. -/
  fits_used : ∀ {s : σ}, Sound s → Fits (used s)

namespace Meter

variable {σ τ τ' ρ ε : Type} [AddMonoid ρ] (m : Meter σ ρ ε)

/-- The outcome of a computation that spends an amount: a sound state that has used as much more, or
the error, if that does not fit. -/
inductive Spends (before : σ) (amount : ρ) (state : τ → σ) : Except ε τ → Prop
  /-- It returns, and has used as much. -/
  | ok {result : τ} (hsound : m.Sound (state result))
      (hused : m.used (state result) = m.used before + amount) :
      Spends before amount state (.ok result)
  /-- It fails, because that does not fit. -/
  | error (hfits : ¬ m.Fits (m.used before + amount)) :
      Spends before amount state (.error m.exceeded)

namespace Spends

variable {m} {before : σ} {amount amount' : ρ} {state : τ → σ} {state' : τ' → σ}
  {call : Except ε τ}

/-- What changes nothing that is counted is free. -/
theorem free {result : τ} (hsound : m.Sound (state result))
    (hused : m.used (state result) = m.used before) :
    m.Spends before 0 state (.ok result) :=
  ok hsound (by rw [hused, add_zero])

/-- Where a computation starts matters only for what has been used there. -/
theorem of_used_eq {before' : σ} (hsame : m.used before' = m.used before)
    (h : m.Spends before' amount state call) : m.Spends before amount state call := by
  cases h with
  | ok hsound hused => exact .ok hsound (hsame ▸ hused)
  | error hfits => exact .error (hsame ▸ hfits)

/-- Amounts add up. -/
theorem bind {next : τ → Except ε τ'} (h : m.Spends before amount state call)
    (hnext : ∀ result, m.Sound (state result) →
      m.Spends (state result) amount' state' (next result)) :
    m.Spends before (amount + amount') state' (call >>= next) := by
  cases h with
  | @ok result hsound hused =>
    have hrest := hnext result hsound
    show m.Spends before (amount + amount') state' (next result)
    generalize next result = outcome at hrest
    cases hrest with
    | ok hsound' hused' => exact .ok hsound' (by rw [hused', hused, add_assoc])
    | error hfits =>
      rw [hused, add_assoc] at hfits
      exact .error hfits
  | error hfits =>
    -- what does not fit does not fit with more on top
    refine .error fun hall => hfits ?_
    rw [← add_assoc] at hall
    exact m.fits_of_add hall

/-- The amount of a computation that succeeds did fit. -/
theorem of_ok {result : τ} (h : m.Spends before amount state (.ok result)) :
    m.Sound (state result) ∧ m.used (state result) = m.used before + amount ∧
      m.Fits (m.used before + amount) := by
  cases h with
  | ok hsound hused => exact ⟨hsound, hused, hused ▸ m.fits_used hsound⟩

/-- There is one way to fail, and one reason. -/
theorem of_error {e : ε} (h : m.Spends before amount state (.error e)) :
    e = m.exceeded ∧ ¬ m.Fits (m.used before + amount) := by
  cases h with
  | error hfits => exact ⟨rfl, hfits⟩

end Spends

end Meter

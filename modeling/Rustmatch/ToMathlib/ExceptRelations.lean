import Mathlib.Logic.Basic

/-!
# Computations that fail together

`Except.Relates E V` relates two computations that may fail, step by step: both return related
values, or both fail with related errors. Related computations go on related (`Relates.bind`), so
that two programs of the same shape are compared one operation at a time.

## Main results

* `Except.Relates.bind`: sequential composition;
* `Except.Relates.ite`: branches on equivalent conditions.
-/

namespace Except

variable {ε ε' α α' β β' : Type} {E : ε → ε' → Prop} {V : α → α' → Prop} {W : β → β' → Prop}

/-- Both computations return, and what they return is related by `V`, or both fail, with errors
related by `E`. -/
inductive Relates (E : ε → ε' → Prop) (V : α → α' → Prop) : Except ε α → Except ε' α' → Prop
  /-- Both return. -/
  | ok {a : α} {a' : α'} (h : V a a') : Relates E V (.ok a) (.ok a')
  /-- Both fail. -/
  | error {e : ε} {e' : ε'} (h : E e e') : Relates E V (.error e) (.error e')

namespace Relates

variable {call : Except ε α} {call' : Except ε' α'}

/-- Related computations go on related. -/
theorem bind {next : α → Except ε β} {next' : α' → Except ε' β'} (h : Relates E V call call')
    (hnext : ∀ a a', call = .ok a → V a a' → Relates E W (next a) (next' a')) :
    Relates E W (call >>= next) (call' >>= next') := by
  cases h with
  | ok h => exact hnext _ _ rfl h
  | error h => exact .error h

/-- Branches on conditions that say the same. -/
theorem ite {c c' : Prop} [Decidable c] [Decidable c'] {other : Except ε α}
    {other' : Except ε' α'} (hc : c ↔ c') (hpos : c → Relates E V call call')
    (hneg : ¬ c → Relates E V other other') :
    Relates E V (if c then call else other) (if c' then call' else other') := by
  by_cases h : c
  · rw [if_pos h, if_pos (hc.mp h)]
    exact hpos h
  · rw [if_neg h, if_neg (mt hc.mpr h)]
    exact hneg h

end Relates

end Except

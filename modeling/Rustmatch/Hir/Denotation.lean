import Mathlib.Data.Finset.Union
import Rustmatch.Reading
import Rustmatch.ToMathlib.RelationRuns

/-!
# The denotation of an expression

What an expression means, as a relation between configurations: `denote R h c d` says that `h` can
be matched from `c` and leave `d`. Sequences compose, alternations unite, and a repetition is any
number of iterations between its bounds.

The interpreter of the engine's tests (`interpret_from`) computes the same relation on finite
sets, and bounds an open repetition by the length of the input.

## Main definitions

* `Hir.denote`: the denotation;
* `Hir.interpretFrom`: the interpreter of the tests.

## Main results

* `denote_advances`: matching never moves backwards;
* `mem_interpretFrom_iff`: the interpreter computes the denotation.
-/

open Relation

namespace Rustmatch

namespace Hir

/-- Iterations of `body` between `min` and `max`. -/
def Iterations (body : Config → Config → Prop) (min : ℕ) (max : Option ℕ) (c d : Config) : Prop :=
  ∃ n, min ≤ n ∧ (∀ limit ∈ max, n ≤ limit) ∧ power body n c d

variable (R : Reading)

mutual

/-- The configurations that an expression leads to. -/
def denote : Hir → Config → Config → Prop
  | .never => ⊥
  | .epsilon => Eq
  | .assertion a => R.Tests a
  | .symbol s => R.Consumes (s == ·)
  | .predicate p => R.Consumes p.matches
  | .sequence expressions => denoteAll expressions
  | .alternation expressions => denoteAny expressions
  | .repetition expression min max => Iterations (denote expression) min max

/-- All the items, one after the other. -/
def denoteAll : List Hir → Config → Config → Prop
  | [] => Eq
  | item :: rest => Comp (denote item) (denoteAll rest)

/-- One of the branches. -/
def denoteAny : List Hir → Config → Config → Prop
  | [] => ⊥
  | branch :: rest => denote branch ⊔ denoteAny rest

end

/-! ### Matching moves forward -/

/-- The position stays, or moves forward inside the input and the phase is `after_current`. -/
def Advances (c d : Config) : Prop :=
  d = c ∨ c.1 < d.1 ∧ d.1 ≤ R.input.length ∧ d.2 = true

variable {R}

/-- Standing still is moving forward, by nothing. -/
theorem Advances.refl (c : Config) : Advances R c c := Or.inl rfl

/-- Moving forward twice is moving forward. -/
theorem Advances.trans {c d e : Config} (h₁ : Advances R c d) (h₂ : Advances R d e) :
    Advances R c e := by
  cases h₁ with
  | inl h₁ => exact h₁ ▸ h₂
  | inr h₁ =>
    cases h₂ with
    | inl h₂ => exact h₂ ▸ Or.inr h₁
    | inr h₂ => exact Or.inr ⟨h₁.1.trans h₂.1, h₂.2⟩

/-- A label moves forward by one unit, or by nothing. -/
theorem Advances.of_act {l : Label} {c d : Config} (h : R.act l c d) : Advances R c d := by
  cases R.act_cases h with
  | inl h => exact Or.inl h
  | inr h =>
    obtain ⟨hlt, rfl⟩ := h
    exact Or.inr ⟨Nat.lt_succ_self _, hlt, rfl⟩

/-- Copies in a row move forward when each of them does. -/
theorem Advances.of_power {body : Config → Config → Prop}
    (hbody : ∀ c d, body c d → Advances R c d) {n : ℕ} {c d : Config} (h : power body n c d) :
    Advances R c d := by
  induction n generalizing c with
  | zero => exact h ▸ Advances.refl c
  | succ n ih =>
    obtain ⟨e, hce, hed⟩ := h
    exact (hbody c e hce).trans (ih hed)

mutual

/-- What an expression matches lies forward. -/
theorem denote_advances (h : Hir) {c d : Config} (hcd : h.denote R c d) : Advances R c d := by
  cases h with
  | never => exact hcd.elim
  | epsilon => exact Or.inl hcd.symm
  | assertion a => exact @Advances.of_act R (.assertion a) c d hcd
  | symbol s => exact @Advances.of_act R (.symbol s) c d hcd
  | predicate p => exact @Advances.of_act R (.predicate p) c d hcd
  | sequence es => exact denoteAll_advances es hcd
  | alternation es => exact denoteAny_advances es hcd
  | repetition e min max =>
    obtain ⟨n, -, -, hn⟩ := hcd
    exact Advances.of_power (fun _ _ h => denote_advances e h) hn

/-- What the items match lies forward. -/
theorem denoteAll_advances (es : List Hir) {c d : Config} (hcd : denoteAll R es c d) :
    Advances R c d := by
  cases es with
  | nil => exact Or.inl hcd.symm
  | cons e es =>
    obtain ⟨b, hcb, hbd⟩ := hcd
    exact (denote_advances e hcb).trans (denoteAll_advances es hbd)

/-- What a branch matches lies forward. -/
theorem denoteAny_advances (es : List Hir) {c d : Config} (hcd : denoteAny R es c d) :
    Advances R c d := by
  cases es with
  | nil => exact hcd.elim
  | cons e es =>
    cases hcd with
    | inl h => exact denote_advances e h
    | inr h => exact denoteAny_advances es h

end

/-- Iterations that stay in place can be left out, so the input bounds their number. -/
theorem power_bounded {body : Config → Config → Prop} (hbody : ∀ c d, body c d → Advances R c d)
    {n : ℕ} {c d : Config} (h : power body n c d) :
    ∃ m ≤ R.input.length - c.1, power body m c d := by
  induction n generalizing c with
  | zero => exact ⟨0, Nat.zero_le _, h⟩
  | succ n ih =>
    obtain ⟨e, hce, hed⟩ := h
    obtain ⟨m, hm, hpower⟩ := ih hed
    cases hbody c e hce with
    | inl hstay => exact ⟨m, hstay ▸ hm, hstay ▸ hpower⟩
    | inr hmove =>
      refine ⟨m + 1, ?_, e, hce, hpower⟩
      have := hmove.1
      have := hmove.2.1
      omega

/-! ### The interpreter of the tests -/

/-- One unit at the position, when it is accepted. -/
def interpretUnit (input : List UInt16) (accepts : UInt16 → Bool) (c : Config) : Finset Config :=
  match input[c.1]? with
  | some unit => if accepts unit then {(c.1 + 1, true)} else ∅
  | none => ∅

/-- The loop of `interpret_repetition` over the counts still to come; `count` is the last one
done. -/
def interpretCounts (body : Config → Finset Config) (min : ℕ) :
    ℕ → ℕ → Finset Config → Finset Config → Finset Config
  | 0, _, _, accepted => accepted
  | remaining + 1, count, positions, accepted =>
    let positions := positions.biUnion body
    if positions = ∅ then accepted
    else
      interpretCounts body min remaining (count + 1) positions
        (if min ≤ count + 1 then accepted ∪ positions else accepted)

/-- `interpret_repetition`. Bounds are small enough for the sums not to saturate. -/
def interpretRepetition (body : Config → Finset Config) (min : ℕ) (max : Option ℕ)
    (input : List UInt16) (start : Config) : Finset Config :=
  interpretCounts body min (max.getD (min + input.length + 1)) 0 {start}
    (if min = 0 then {start} else ∅)

mutual

/-- `interpret_from`: the configurations that an expression leads to. -/
def interpretFrom (input : List UInt16) : Hir → Config → Finset Config
  | .never, _ => ∅
  | .epsilon, state => {state}
  | .assertion a, state => if assertionMatches a input state.1 state.2 then {state} else ∅
  | .symbol s, state => interpretUnit input (s == ·) state
  | .predicate p, state => interpretUnit input p.matches state
  | .sequence expressions, state => interpretItems input expressions {state}
  | .alternation expressions, state => interpretBranches input expressions state
  | .repetition expression min max, state =>
    interpretRepetition (interpretFrom input expression) min max input state

/-- The loop over the items of a sequence. -/
def interpretItems (input : List UInt16) : List Hir → Finset Config → Finset Config
  | [], states => states
  | item :: rest, states => interpretItems input rest (states.biUnion (interpretFrom input item))

/-- The `flat_map` over the branches of an alternation. -/
def interpretBranches (input : List UInt16) : List Hir → Config → Finset Config
  | [], _ => ∅
  | branch :: rest, state => interpretFrom input branch state ∪ interpretBranches input rest state

end

variable {input : List UInt16}

/-- One unit is interpreted as the reading consumes it. -/
theorem mem_interpretUnit_iff {accepts : UInt16 → Bool} {c d : Config} :
    d ∈ interpretUnit input accepts c ↔ (Reading.contextual input).Consumes accepts c d := by
  unfold interpretUnit Reading.Consumes
  rw [Reading.contextual_input]
  cases input[c.1]? with
  | none => simp
  | some unit =>
    cases h : accepts unit with
    | false => simp [h]
    | true => simp [h]

/-- The counts loop collects the iterations from `count + 1` on that reach `min`. -/
theorem mem_interpretCounts_iff {body : Config → Finset Config} {min remaining count : ℕ}
    {positions accepted : Finset Config} {d : Config} :
    d ∈ interpretCounts body min remaining count positions accepted ↔
      d ∈ accepted ∨ ∃ n, 1 ≤ n ∧ n ≤ remaining ∧ min ≤ count + n ∧
        ∃ c ∈ positions, power (fun a b => b ∈ body a) n c d := by
  -- `remaining` is the fuel: the copies that may still follow the `count` ones read so far
  induction remaining generalizing count positions accepted with
  | zero =>
    constructor
    · exact Or.inl
    · rintro (h | ⟨n, hn, hzero, -⟩)
      · exact h
      · omega
  | succ remaining ih =>
    -- one more copy first, then the others
    have hstep : ∀ n, (∃ c ∈ positions, power (fun a b => b ∈ body a) (n + 1) c d) ↔
        ∃ c ∈ positions.biUnion body, power (fun a b => b ∈ body a) n c d := by
      intro n
      constructor
      · rintro ⟨c, hc, e, hce, hed⟩
        exact ⟨e, Finset.mem_biUnion.mpr ⟨c, hc, hce⟩, hed⟩
      · rintro ⟨e, he, hed⟩
        obtain ⟨c, hc, hce⟩ := Finset.mem_biUnion.mp he
        exact ⟨c, hc, e, hce, hed⟩
    rw [interpretCounts]
    split
    -- the source stops when no position is left
    next hempty =>
      constructor
      · exact Or.inl
      · rintro (h | ⟨n, hn, -, -, hpower⟩)
        · exact h
        · obtain ⟨n, rfl⟩ := Nat.exists_eq_add_of_le' hn
          obtain ⟨e, he, -⟩ := (hstep n).mp hpower
          simp [hempty] at he
    next =>
      rw [ih]
      constructor
      · rintro (h | ⟨n, hn, hle, hmin, hpower⟩)
        · split at h
          next hmin =>
            cases Finset.mem_union.mp h with
            | inl h => exact Or.inl h
            | inr h =>
              exact Or.inr ⟨1, le_refl _, by omega, hmin, (hstep 0).mpr ⟨d, h, rfl⟩⟩
          next => exact Or.inl h
        · exact Or.inr ⟨n + 1, by omega, by omega, by omega, (hstep n).mpr hpower⟩
      · rintro (h | ⟨n, hn, hle, hmin, hpower⟩)
        · left
          split
          · exact Finset.mem_union_left _ h
          · exact h
        · obtain ⟨n, rfl⟩ := Nat.exists_eq_add_of_le' hn
          have hpower := (hstep n).mp hpower
          cases n with
          | zero =>
            obtain ⟨e, he, rfl⟩ := hpower
            rw [if_pos hmin]
            exact Or.inl (Finset.mem_union_right _ he)
          | succ n => exact Or.inr ⟨n + 1, by omega, by omega, by omega, hpower⟩

/-- The repetition loop computes the iterations of a body that moves forward. -/
theorem mem_interpretRepetition_iff {body : Config → Finset Config}
    {sem : Config → Config → Prop} (hbody : ∀ c d, d ∈ body c ↔ sem c d)
    (hadvances : ∀ c d, sem c d → Advances (Reading.contextual input) c d) {min : ℕ}
    {max : Option ℕ} {c d : Config} :
    d ∈ interpretRepetition body min max input c ↔ Iterations sem min max c d := by
  have hsem : (fun a b => b ∈ body a) = sem := by
    ext a b
    exact hbody a b
  have hzero : d ∈ (if min = 0 then ({c} : Finset Config) else ∅) ↔ min = 0 ∧ d = c := by
    split <;> simp [*]
  rw [interpretRepetition, mem_interpretCounts_iff, hzero, hsem]
  simp only [Nat.zero_add, Finset.mem_singleton, exists_eq_left]
  constructor
  · rintro (⟨rfl, rfl⟩ | ⟨n, hn, hle, hmin, hpower⟩)
    · exact ⟨0, le_refl _, fun _ _ => Nat.zero_le _, rfl⟩
    · refine ⟨n, hmin, fun limit hlimit => ?_, hpower⟩
      rw [Option.mem_def.mp hlimit] at hle
      exact hle
  · rintro ⟨n, hmin, hmax, hpower⟩
    cases max with
    | some limit =>
      cases n with
      | zero => exact Or.inl ⟨by omega, hpower.symm⟩
      | succ n => exact Or.inr ⟨n + 1, by omega, hmax limit rfl, hmin, hpower⟩
    | none =>
      -- past the required iterations, those that stay in place are dropped
      obtain ⟨k, rfl⟩ := Nat.exists_eq_add_of_le hmin
      rw [power_add] at hpower
      obtain ⟨e, hce, hed⟩ := hpower
      obtain ⟨m, hm, hed⟩ := power_bounded hadvances hed
      have hshort : power sem (min + m) c d := by
        rw [power_add]
        exact ⟨e, hce, hed⟩
      rw [Reading.contextual_input] at hm
      rcases Nat.eq_zero_or_pos (min + m) with hnone | hsome
      · rw [hnone] at hshort
        exact Or.inl ⟨by omega, hshort.symm⟩
      · refine Or.inr ⟨min + m, hsome, ?_, by omega, hshort⟩
        rw [Option.getD_none]
        omega

mutual

/-- The interpreter of the tests computes the denotation. -/
theorem mem_interpretFrom_iff (h : Hir) {c d : Config} :
    d ∈ h.interpretFrom input c ↔ h.denote (Reading.contextual input) c d := by
  cases h with
  | never => simp [interpretFrom, denote]
  | epsilon => rw [interpretFrom, denote, Finset.mem_singleton, eq_comm]
  | assertion a =>
    rw [interpretFrom, denote]
    unfold Reading.Tests Reading.contextual
    cases h : assertionMatches a input c.1 c.2 with
    | false => simp [h]
    | true => simp [h, eq_comm]
  | symbol s => rw [interpretFrom, denote, mem_interpretUnit_iff]
  | predicate p => rw [interpretFrom, denote, mem_interpretUnit_iff]
  | sequence es =>
    rw [interpretFrom, denote, mem_interpretItems_iff]
    simp
  | alternation es => rw [interpretFrom, denote, mem_interpretBranches_iff]
  | repetition e min max =>
    rw [interpretFrom, denote]
    exact mem_interpretRepetition_iff (fun _ _ => mem_interpretFrom_iff e)
      fun _ _ => denote_advances e

/-- The items are interpreted as they denote. -/
theorem mem_interpretItems_iff (es : List Hir) {states : Finset Config} {d : Config} :
    d ∈ interpretItems input es states ↔
      ∃ c ∈ states, denoteAll (Reading.contextual input) es c d := by
  cases es with
  | nil => simp [interpretItems, denoteAll]
  | cons e es =>
    rw [interpretItems, mem_interpretItems_iff, denoteAll]
    constructor
    · rintro ⟨b, hb, hbd⟩
      obtain ⟨c, hc, hcb⟩ := Finset.mem_biUnion.mp hb
      exact ⟨c, hc, b, (mem_interpretFrom_iff e).mp hcb, hbd⟩
    · rintro ⟨c, hc, b, hcb, hbd⟩
      exact ⟨b, Finset.mem_biUnion.mpr ⟨c, hc, (mem_interpretFrom_iff e).mpr hcb⟩, hbd⟩

/-- The branches are interpreted as they denote. -/
theorem mem_interpretBranches_iff (es : List Hir) {c d : Config} :
    d ∈ interpretBranches input es c ↔ denoteAny (Reading.contextual input) es c d := by
  cases es with
  | nil => simp [interpretBranches, denoteAny]
  | cons e es =>
    rw [interpretBranches, denoteAny, Finset.mem_union, mem_interpretFrom_iff,
      mem_interpretBranches_iff]
    exact Iff.rfl

end

example : (repetition (.symbol 0x61) 1 none).interpretFrom [0x61, 0x61, 0x62] (0, false) =
    {(1, true), (2, true)} := by decide

end Hir

end Rustmatch

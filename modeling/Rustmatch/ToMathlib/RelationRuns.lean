import Mathlib.Logic.Relation
import Mathlib.Order.BooleanAlgebra.Basic
import Mathlib.Order.CompletePartialOrder
import Mathlib.Order.ConditionallyCompleteLattice.Basic

/-!
# Powers, bounded runs and faulty runs of a relation

Composition of relations distributes over their union, so a run of steps each of which is good or
bad is a run of good steps, or a run with a bad step somewhere. This module states that split for
the three shapes of run that a counted repetition uses: exactly `n` steps (`power`), at most `n`
steps with a detour before each (`optionalRun`), and any number of steps.

## Main definitions

* `Relation.power r n`: `n` steps of `r`;
* `Relation.upTo r n`: at most `n` steps of `r`;
* `Relation.faultyPower bad step n`: `n` steps, one of them bad;
* `Relation.optionalRun turn step n`: at most `n` steps, with any number of turns before each;
* `Relation.faultyOptional turn bad step n`: such a run that takes a turn or a bad step;
* `Relation.faultyLoop turn bad step`: a loop that takes a turn or a bad step.

## Main results

* `power_sup`, `optionalRun_sup`, `reflTransGen_sup_sup`: the three splits;
* `power_le_of_le`, `optionalRun_le_of_le`: runs inside a reflexive and transitive relation;
* `optionalRun_mono`, `comp_power_optionalRun_le`: bounded runs inside longer ones;
* `upTo_iff`, `reflTransGen_iff_power`: runs counted by their number of steps.
-/

namespace Relation

variable {α : Type*} {r r' s s' : α → α → Prop} {a b : α}

/-! ### Composition and unions -/

/-- Composition is monotone. -/
theorem comp_mono (hr : r ≤ r') (hs : s ≤ s') : Comp r s ≤ Comp r' s' :=
  fun _ _ ⟨c, h₁, h₂⟩ => ⟨c, hr _ _ h₁, hs _ _ h₂⟩

/-- Composition distributes over unions on the left. -/
theorem sup_comp (r r' s : α → α → Prop) : Comp (r ⊔ r') s = Comp r s ⊔ Comp r' s := by
  ext a c
  constructor
  · rintro ⟨b, h | h, hs⟩
    · exact Or.inl ⟨b, h, hs⟩
    · exact Or.inr ⟨b, h, hs⟩
  · rintro (⟨b, h, hs⟩ | ⟨b, h, hs⟩)
    · exact ⟨b, Or.inl h, hs⟩
    · exact ⟨b, Or.inr h, hs⟩

/-- Nothing follows the empty relation. -/
@[simp]
theorem comp_bot (r : α → α → Prop) : Comp r (⊥ : α → α → Prop) = ⊥ := by
  ext a c
  exact ⟨fun ⟨_, _, h⟩ => h, fun h => h.elim⟩

/-- The empty relation goes nowhere. -/
@[simp]
theorem bot_comp (r : α → α → Prop) : Comp (⊥ : α → α → Prop) r = ⊥ := by
  ext a c
  exact ⟨fun ⟨_, h, _⟩ => h, fun h => h.elim⟩

/-- The empty relation has no runs. -/
@[simp]
theorem transGen_bot : TransGen (⊥ : α → α → Prop) = ⊥ := by
  ext a c
  refine ⟨fun h => ?_, fun h => h.elim⟩
  obtain ⟨b, hb, -⟩ := TransGen.head'_iff.mp h
  exact hb

/-- The empty relation has the empty run only. -/
@[simp]
theorem reflTransGen_bot : ReflTransGen (⊥ : α → α → Prop) = Eq := by
  ext a c
  rw [reflTransGen_iff_eq fun _ h => h, eq_comm]

/-- A run is empty or has a first step. -/
theorem reflTransGen_eq_sup (r : α → α → Prop) : ReflTransGen r = Eq ⊔ TransGen r := by
  ext a c
  rw [reflTransGen_iff_eq_or_transGen, eq_comm]
  exact Iff.rfl

/-- Runs as steps of a longer run are part of that run. -/
@[simp]
theorem reflTransGen_sup_left (r r' : α → α → Prop) :
    ReflTransGen (ReflTransGen r ⊔ r') = ReflTransGen (r ⊔ r') := by
  apply le_antisymm
  · intro a c h
    induction h with
    | refl => exact ReflTransGen.refl
    | tail _ hstep ih =>
      cases hstep with
      | inl hstep => exact ih.trans (ReflTransGen.mono le_sup_left _ _ hstep)
      | inr hstep => exact ih.tail (Or.inr hstep)
  · exact ReflTransGen.mono (sup_le_sup_right ReflTransGen.le_reflTransGen _)

/-- Runs of runs are runs. -/
@[simp]
theorem reflTransGen_sup_right (r r' : α → α → Prop) :
    ReflTransGen (r ⊔ ReflTransGen r') = ReflTransGen (r ⊔ r') := by
  rw [sup_comm, reflTransGen_sup_left, sup_comm]

/-- A run after a longer run is part of the longer one. -/
theorem comp_reflTransGen_sup (r r' s s' : α → α → Prop) :
    Comp (ReflTransGen (r ⊔ r')) (s ⊔ Comp (ReflTransGen r') s') =
      Comp (ReflTransGen (r ⊔ r')) (s ⊔ s') := by
  ext a c
  constructor
  · rintro ⟨b, hab, hbc | ⟨d, hbd, hdc⟩⟩
    · exact ⟨b, hab, Or.inl hbc⟩
    · exact ⟨d, hab.trans (ReflTransGen.mono le_sup_right _ _ hbd), Or.inr hdc⟩
  · rintro ⟨b, hab, hbc | hbc⟩
    · exact ⟨b, hab, Or.inl hbc⟩
    · exact ⟨b, hab, Or.inr ⟨b, ReflTransGen.refl, hbc⟩⟩

/-! ### Counted runs -/

/-- `n` steps of `r`. -/
def power (r : α → α → Prop) : ℕ → α → α → Prop
  | 0 => Eq
  | n + 1 => Comp r (power r n)

/-- At most `n` steps of `r`. -/
def upTo (r : α → α → Prop) : ℕ → α → α → Prop
  | 0 => Eq
  | n + 1 => Eq ⊔ Comp r (upTo r n)

/-- No step stays where it is. -/
@[simp]
theorem power_zero (r : α → α → Prop) : power r 0 = Eq := rfl

/-- One step more comes first. -/
theorem power_succ (r : α → α → Prop) (n : ℕ) : power r (n + 1) = Comp r (power r n) := rfl

/-- One step is the relation itself. -/
@[simp]
theorem power_one (r : α → α → Prop) : power r 1 = r := by
  rw [power_succ, power_zero, comp_eq]

/-- Steps in a row are taken in two parts. -/
theorem power_add (r : α → α → Prop) (m n : ℕ) :
    power r (m + n) = Comp (power r m) (power r n) := by
  induction m with
  | zero => rw [Nat.zero_add, power_zero, eq_comp]
  | succ m ih => rw [Nat.add_right_comm, power_succ, ih, power_succ, comp_assoc]

/-- More steps allowed give more runs of each length. -/
theorem power_mono (h : r ≤ r') (n : ℕ) : power r n ≤ power r' n := by
  induction n with
  | zero => exact le_refl _
  | succ n ih => exact comp_mono h ih

/-- At most so many steps are some number of steps up to there. -/
theorem upTo_iff {n : ℕ} : upTo r n a b ↔ ∃ m ≤ n, power r m a b := by
  induction n generalizing a with
  | zero => simp [upTo]
  | succ n ih =>
    constructor
    · rintro (h | ⟨c, hr, hc⟩)
      · exact ⟨0, Nat.zero_le _, h⟩
      · obtain ⟨m, hm, h⟩ := ih.mp hc
        exact ⟨m + 1, Nat.succ_le_succ hm, c, hr, h⟩
    · rintro ⟨m, hm, h⟩
      cases m with
      | zero => exact Or.inl h
      | succ m =>
        obtain ⟨c, hr, hc⟩ := h
        exact Or.inr ⟨c, hr, ih.mpr ⟨m, Nat.le_of_succ_le_succ hm, hc⟩⟩

/-- A run has a number of steps. -/
theorem reflTransGen_iff_power : ReflTransGen r a b ↔ ∃ n, power r n a b := by
  constructor
  · intro h
    refine ReflTransGen.head_induction_on h ⟨0, rfl⟩ ?_
    rintro a c hac - ⟨n, hn⟩
    exact ⟨n + 1, c, hac, hn⟩
  · rintro ⟨n, hn⟩
    induction n generalizing a with
    | zero => exact hn ▸ ReflTransGen.refl
    | succ n ih =>
      obtain ⟨c, hac, hc⟩ := hn
      exact (ih hc).head hac

/-! ### Runs with a bad step -/

variable (turn bad step : α → α → Prop)

/-- `n` steps, one of them bad. -/
def faultyPower : ℕ → α → α → Prop
  | 0 => ⊥
  | n + 1 => Comp bad (power step n) ⊔ Comp step (faultyPower n)

/-- At most `n` steps, with any number of turns before each and before a premature stop. -/
def optionalRun : ℕ → α → α → Prop
  | 0 => Eq
  | n + 1 => Comp (ReflTransGen turn) (Eq ⊔ Comp step (optionalRun n))

/-- At most `n` steps, with a turn or a bad step. -/
def faultyOptional : ℕ → α → α → Prop
  | 0 => ⊥
  | n + 1 =>
    Comp (TransGen turn) (Eq ⊔ Comp step (optionalRun turn step n)) ⊔
      (Comp bad (optionalRun turn step n) ⊔ Comp step (faultyOptional n))

/-- A loop that takes a turn or a bad step at least once. -/
def faultyLoop : α → α → Prop :=
  Comp (ReflTransGen step) (Comp (turn ⊔ bad) (ReflTransGen (turn ⊔ step)))

variable {turn bad step} {good : α → α → Prop}

/-- `n` steps are all good, or one of them is bad. -/
theorem power_sup (h : step = good ⊔ bad) (n : ℕ) :
    power step n = power good n ⊔ faultyPower bad step n := by
  induction n with
  | zero => exact (sup_bot_eq _).symm
  | succ n ih =>
    have hgood : good ≤ step := h ▸ le_sup_left
    have hbad : bad ≤ step := h ▸ le_sup_right
    have hpower : power good n ≤ power step n := power_mono hgood n
    apply le_antisymm
    · rintro a b ⟨c, hac, hcb⟩
      have hcases : good a c ∨ bad a c := by
        rw [h] at hac
        exact hac
      rcases hcases with hgood' | hbad'
      · rw [ih] at hcb
        exact hcb.imp (fun hcb => ⟨c, hgood', hcb⟩) fun hcb => Or.inr ⟨c, hac, hcb⟩
      · exact Or.inr (Or.inl ⟨c, hbad', hcb⟩)
    · have hfaulty : faultyPower bad step n ≤ power step n := ih ▸ le_sup_right
      exact sup_le (comp_mono hgood hpower)
        (sup_le (comp_mono hbad (le_refl _)) (comp_mono (le_refl _) hfaulty))

/-- Bounded runs take good steps only, or take a turn or a bad step. -/
theorem optionalRun_sup (h : step = good ⊔ bad) (n : ℕ) :
    optionalRun turn step n = upTo good n ⊔ faultyOptional turn bad step n := by
  induction n with
  | zero => exact (sup_bot_eq _).symm
  | succ n ih =>
    apply le_antisymm
    · rintro a b ⟨c, hturn, hc⟩
      rcases reflTransGen_iff_eq_or_transGen.mp hturn with rfl | hturn
      · rcases hc with hc | ⟨d, hstep, hd⟩
        · exact Or.inl (Or.inl hc)
        · -- the first step is good or bad, and so is the rest of the run
          have hcases : good c d ∨ bad c d := by
            rw [h] at hstep
            exact hstep
          rcases hcases with hgood | hbad
          · rw [ih] at hd
            rcases hd with hd | hd
            · exact Or.inl (Or.inr ⟨d, hgood, hd⟩)
            · exact Or.inr (Or.inr (Or.inr ⟨d, hstep, hd⟩))
          · exact Or.inr (Or.inr (Or.inl ⟨d, hbad, hd⟩))
      · exact Or.inr (Or.inl ⟨c, hturn, hc⟩)
    · have hgood : good ≤ step := h ▸ le_sup_left
      have hbad : bad ≤ step := h ▸ le_sup_right
      apply sup_le
      · rintro a b (hab | ⟨c, hc, hcb⟩)
        · exact ⟨a, ReflTransGen.refl, Or.inl hab⟩
        · refine ⟨a, ReflTransGen.refl, Or.inr ⟨c, hgood _ _ hc, ?_⟩⟩
          rw [ih]
          exact Or.inl hcb
      · rintro a b (⟨c, hturn, hc⟩ | ⟨c, hc, hcb⟩ | ⟨c, hc, hcb⟩)
        · exact ⟨c, hturn.to_reflTransGen, hc⟩
        · exact ⟨a, ReflTransGen.refl, Or.inr ⟨c, hbad _ _ hc, hcb⟩⟩
        · refine ⟨a, ReflTransGen.refl, Or.inr ⟨c, hc, ?_⟩⟩
          rw [ih]
          exact Or.inr hcb

/-- Loops take good steps only, or take a turn or a bad step. -/
theorem reflTransGen_sup_sup (h : step = good ⊔ bad) :
    ReflTransGen (turn ⊔ step) = ReflTransGen good ⊔ faultyLoop turn bad step := by
  have hgood : good ≤ step := h ▸ le_sup_left
  have hbad : bad ≤ step := h ▸ le_sup_right
  apply le_antisymm
  · intro a b hab
    induction hab using ReflTransGen.head_induction_on with
    | refl => exact Or.inl ReflTransGen.refl
    | @head a c hac hcb ih =>
      have hcases : good a c ∨ (turn ⊔ bad) a c := by
        rcases hac with hac | hac
        · exact Or.inr (Or.inl hac)
        · rw [h] at hac
          exact hac.imp id Or.inr
      rcases hcases with hac | hac
      · rcases ih with ih | ⟨d, hcd, hrest⟩
        · exact Or.inl (ih.head hac)
        · exact Or.inr ⟨d, hcd.head (hgood _ _ hac), hrest⟩
      · exact Or.inr ⟨a, ReflTransGen.refl, c, hac, hcb⟩
  · apply sup_le
    · exact ReflTransGen.mono (hgood.trans le_sup_right)
    · rintro a b ⟨c, hac, d, hcd, hdb⟩
      have hc : ReflTransGen (turn ⊔ step) a c := ReflTransGen.mono le_sup_right _ _ hac
      have hd : (turn ⊔ step) c d := hcd.imp id (hbad _ _)
      exact (hc.tail hd).trans hdb

/-! ### Runs without turns and without bad steps -/

/-- Without faults no run of steps is faulty. -/
@[simp]
theorem faultyPower_bot (n : ℕ) : faultyPower ⊥ step n = ⊥ := by
  induction n with
  | zero => rfl
  | succ n ih => rw [faultyPower, ih, bot_comp, comp_bot, sup_bot_eq]

/-- Without turns and faults no optional step is faulty. -/
@[simp]
theorem faultyOptional_bot (n : ℕ) : faultyOptional ⊥ ⊥ step n = ⊥ := by
  induction n with
  | zero => rfl
  | succ n ih => simp [faultyOptional, ih]

/-- Without turns and faults no loop is faulty. -/
@[simp]
theorem faultyLoop_bot : faultyLoop ⊥ ⊥ step = ⊥ := by
  simp [faultyLoop]

/-! ### Bounded runs inside longer ones -/

section Longer

variable {turn' step' : α → α → Prop}

/-- More turns, more steps and a greater bound. -/
theorem optionalRun_mono {m n : ℕ} (hturn : turn ≤ ReflTransGen turn') (hstep : step ≤ step')
    (h : m ≤ n) : optionalRun turn step m ≤ optionalRun turn' step' n := by
  induction m generalizing n with
  | zero =>
    rintro a b rfl
    cases n with
    | zero => rfl
    | succ n => exact ⟨a, ReflTransGen.refl, Or.inl rfl⟩
  | succ m ih =>
    obtain ⟨n, rfl⟩ := Nat.exists_eq_add_of_lt h
    have hafter : Eq ⊔ Comp step (optionalRun turn step m) ≤
        Eq ⊔ Comp step' (optionalRun turn' step' (m + n)) :=
      sup_le_sup_left (comp_mono hstep (ih (Nat.le_add_right m n))) _
    exact comp_mono (reflTransGen_le_of_le hturn) hafter

/-- Turns before a bounded run are turns before its first step. -/
theorem comp_optionalRun_succ_le (n : ℕ) :
    Comp (ReflTransGen turn) (optionalRun turn step (n + 1)) ≤ optionalRun turn step (n + 1) := by
  rintro a b ⟨c, hac, d, hcd, hdb⟩
  exact ⟨d, hac.trans hcd, hdb⟩

/-- Steps before a bounded run. -/
theorem comp_power_optionalRun_le (m n : ℕ) :
    Comp (power step m) (optionalRun turn step n) ≤ optionalRun turn step (m + n) := by
  induction m with
  | zero =>
    rw [power_zero, eq_comp, Nat.zero_add]
  | succ m ih =>
    rintro a b ⟨c, ⟨d, had, hdc⟩, hcb⟩
    rw [Nat.add_right_comm]
    exact ⟨a, ReflTransGen.refl, Or.inr ⟨d, had, ih _ _ ⟨c, hdc, hcb⟩⟩⟩

end Longer

/-! ### Runs inside a closed relation -/

section Closed

variable {T : α → α → Prop}

/-- A reflexive relation allows to stay. -/
theorem eq_le_of_refl [Std.Refl T] : (Eq : α → α → Prop) ≤ T := by
  rintro a b rfl
  exact refl_of T a

/-- A transitive relation allows two steps. -/
theorem comp_le_of_le [IsTrans α T] (hr : r ≤ T) (hs : s ≤ T) : Comp r s ≤ T := by
  rintro a c ⟨b, hab, hbc⟩
  exact trans_of T (hr _ _ hab) (hs _ _ hbc)

variable [Std.Refl T] [IsTrans α T]

/-- A preorder allows any number of steps. -/
theorem power_le_of_le (hr : r ≤ T) (n : ℕ) : power r n ≤ T := by
  induction n with
  | zero => exact eq_le_of_refl
  | succ n ih => exact comp_le_of_le hr ih

/-- A preorder allows optional steps. -/
theorem optionalRun_le_of_le (hturn : turn ≤ T) (hstep : step ≤ T) (n : ℕ) :
    optionalRun turn step n ≤ T := by
  induction n with
  | zero => exact eq_le_of_refl
  | succ n ih =>
    have hafter : Eq ⊔ Comp step (optionalRun turn step n) ≤ T :=
      sup_le eq_le_of_refl (comp_le_of_le hstep ih)
    exact comp_le_of_le (reflTransGen_le_of_le hturn) hafter

end Closed

end Relation

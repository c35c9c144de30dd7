import Rustmatch.Cohort
import Rustmatch.Hir.Locality

/-!
# What the reports say of runs

The facts that `cohort.rs` and `hir.rs` collect about an expression are compared with its language
elsewhere. A compiled fragment has stray runs besides the runs of its expression, and the scans
follow both; here the lengths, and the units that are consumed, are those of all the runs of a
fragment.

The greatest length is a bound only for expressions in which every class has a unit: a loop in a
branch that cannot match is examined by nobody, and other branches may stray into it.

## Main definitions

* `Hir.live`: every class has a unit, and every repetition a copy;
* `AtLeast`, `Spans`: runs that consume so many units, at least and at most.

## Main results

* `Hir.walk_le_atLeast`: no run is shorter than `minimum_consumed`;
* `Hir.runs_le_spans`: no run is longer than `maximum_consumed`;
* `Hir.lt_of_asciiOnly`: ASCII expressions consume ASCII units;
* `Hir.isEmpty_assertionKinds`: kinds are reported exactly when there are assertions.
-/

open Relation

namespace Rustmatch

variable {R : Reading}

namespace Hir

/-! ### Runs move forward -/

/-- Runs and round trips move forward inside the text. -/
theorem runs_advance (h : Hir) : h.walk R ≤ Hir.Advances R ∧ h.turn R ≤ Hir.Advances R :=
  walk_le_of_closed Hir.Advances.refl Hir.Advances.trans (fun _ _ _ => Hir.Advances.of_act) h

/-- Round trips of branches move forward. -/
theorem turnAny_le_advances (es : List Hir) : turnAny R es ≤ Hir.Advances R :=
  turnAny_le fun e _ => (runs_advance e).2

end Hir

/-- A run that moves forward does not move back. -/
theorem Hir.Advances.le {c d : Config} (h : Hir.Advances R c d) : c.1 ≤ d.1 := by
  obtain rfl | ⟨hlt, -⟩ := h
  · exact le_refl _
  · exact Nat.le_of_lt hlt

/-- A class without units matches nothing. -/
theorem SymbolPredicate.matches_of_isEmpty {p : SymbolPredicate} (h : p.isEmpty = true)
    (unit : UInt16) : p.matches unit = false := by
  rw [isEmpty, Bool.and_eq_true, beq_iff_eq, List.isEmpty_iff] at h
  obtain ⟨hascii, hranges⟩ := h
  unfold «matches»
  split
  next => rw [hascii, BitVec.zero_and]; decide
  next => rw [hranges]; rfl

/-! ### The least length -/

/-- So many units are consumed, at least; nothing is, when there is no number. -/
def AtLeast : Option ℕ → Config → Config → Prop
  | none => ⊥
  | some least => fun c d => c.1 + least ≤ d.1

/-- Who consumes so much consumes less. -/
theorem atLeast_mono {least least' : ℕ} (h : least' ≤ least) :
    AtLeast (some least) ≤ AtLeast (some least') :=
  fun _ _ hcd => (Nat.add_le_add_left h _).trans hcd

/-- Steps that consume one after the other. -/
theorem comp_atLeast {r s : Config → Config → Prop} {a b : ℕ} (hr : r ≤ AtLeast (some a))
    (hs : s ≤ AtLeast (some b)) : Comp r s ≤ AtLeast (some (a + b)) := by
  rintro c e ⟨d, hcd, hde⟩
  have hfirst : c.1 + a ≤ d.1 := hr _ _ hcd
  have hsecond : d.1 + b ≤ e.1 := hs _ _ hde
  show c.1 + (a + b) ≤ e.1
  omega

/-- Moving forward consumes nothing at least. -/
theorem advances_le_atLeast : Hir.Advances R ≤ AtLeast (some 0) := fun _ _ h => h.le

/-- Copies in a row consume so many times as much. -/
theorem power_le_atLeast {r : Config → Config → Prop} {a : ℕ} (hr : r ≤ AtLeast (some a)) (n : ℕ) :
    power r n ≤ AtLeast (some (a * n)) := by
  induction n with
  | zero =>
    rintro c d rfl
    exact le_refl _
  | succ n ih =>
    rw [show a * (n + 1) = a + a * n from by rw [Nat.mul_succ, Nat.add_comm]]
    exact comp_atLeast hr ih

namespace Hir

/-- The loop over the items, behind units that were consumed before. -/
theorem comp_walkItems_le_atLeast {es : List Hir}
    (h : ∀ e ∈ es, e.walk R ≤ AtLeast e.minimumConsumed) {r : Config → Config → Prop} {total : ℕ}
    (hr : r ≤ AtLeast (some total)) :
    Comp r (walkItems R es) ≤ AtLeast (minimumConsumedTotal es total) := by
  induction es generalizing r total with
  | nil =>
    rw [walkItems, comp_eq]
    exact hr
  | cons e es ih =>
    obtain ⟨he, hes⟩ := List.forall_mem_cons.mp h
    rw [walkItems, minimumConsumedTotal, ← comp_assoc]
    split
    next length hlength =>
      rw [hlength] at he
      exact ih hes ((comp_atLeast hr he).trans (atLeast_mono (Nat.min_le_left _ _)))
    next hnone =>
      rw [hnone] at he
      have hbot : e.walk R = ⊥ := le_bot_iff.mp he
      rw [hbot, comp_bot, bot_comp]
      exact bot_le

/-- No branch is shorter than the shortest one. -/
theorem walkAny_le_atLeast {es : List Hir} (h : ∀ e ∈ es, e.walk R ≤ AtLeast e.minimumConsumed) :
    walkAny R es ≤ AtLeast (minimumConsumedLeast es) := by
  induction es with
  | nil => exact bot_le
  | cons e es ih =>
    obtain ⟨he, hes⟩ := List.forall_mem_cons.mp h
    have hrest := ih hes
    rw [walkAny, minimumConsumedLeast]
    split
    next length least hlength hleast =>
      rw [hlength] at he
      rw [hleast] at hrest
      exact sup_le (he.trans (atLeast_mono (Nat.min_le_left _ _)))
        (hrest.trans (atLeast_mono (Nat.min_le_right _ _)))
    next length hlength hnone =>
      rw [hlength] at he
      rw [hnone] at hrest
      exact sup_le he (hrest.trans bot_le)
    next hnone =>
      rw [hnone] at he
      exact sup_le (he.trans bot_le) hrest

/-- What follows the required copies moves forward. -/
theorem repetitionTail_le_advances (e : Hir) (min : ℕ) (max : Option ℕ) :
    repetitionTail (e.turn R) (e.walk R) min max ≤ Hir.Advances R := by
  have : Std.Refl (Hir.Advances R) := ⟨Hir.Advances.refl⟩
  have : IsTrans Config (Hir.Advances R) := ⟨fun _ _ _ => Hir.Advances.trans⟩
  obtain ⟨hwalk, hturn⟩ := runs_advance (R := R) e
  cases max with
  | none => exact reflTransGen_le_of_le (sup_le hturn hwalk)
  | some limit =>
    show (if limit < min then ⊥ else optionalRun _ _ _) ≤ Hir.Advances R
    split
    · exact bot_le
    · exact optionalRun_le_of_le hturn hwalk _

/-- No run of a fragment is shorter than `minimum_consumed`, and there is none at all when there is
no such number. -/
theorem walk_le_atLeast (h : Hir) : h.walk R ≤ AtLeast h.minimumConsumed := by
  have hconsumes : ∀ accepts, R.Consumes accepts ≤ AtLeast (some 1) := by
    rintro accepts c d ⟨unit, -, -, rfl⟩
    exact le_refl _
  have hstays : (Eq : Config → Config → Prop) ≤ AtLeast (some 0) := by
    rintro c d rfl
    exact le_refl _
  induction h with
  | never => exact bot_le
  | epsilon => exact hstays
  | assertion a => exact fun c d hcd => hstays c d hcd.2
  | symbol s => exact hconsumes _
  | predicate p =>
    rw [minimumConsumed]
    split
    next hempty =>
      rintro c d ⟨unit, -, haccepts, -⟩
      rw [SymbolPredicate.matches_of_isEmpty hempty] at haccepts
      cases haccepts
    next => exact hconsumes _
  | sequence es ih =>
    cases es with
    | nil => exact bot_le
    | cons e es =>
      have hitems := comp_walkItems_le_atLeast ih hstays
      rwa [eq_comp] at hitems
  | alternation es ih =>
    -- a branch may be entered behind some turns, which only make the run longer
    have hturns : ReflTransGen (turnAny R es) ≤ AtLeast (some 0) := by
      have : Std.Refl (Hir.Advances R) := ⟨Hir.Advances.refl⟩
      have : IsTrans Config (Hir.Advances R) := ⟨fun _ _ _ => Hir.Advances.trans⟩
      exact (reflTransGen_le_of_le (turnAny_le_advances es)).trans advances_le_atLeast
    have hbranch := walkAny_le_atLeast ih
    rw [walk, minimumConsumed]
    cases hleast : minimumConsumedLeast es with
    | none =>
      rw [hleast] at hbranch
      have hbot : walkAny R es = ⊥ := le_bot_iff.mp hbranch
      rw [hbot, comp_bot]
      exact bot_le
    | some least =>
      rw [hleast] at hbranch
      exact (comp_atLeast hturns hbranch).trans (atLeast_mono (Nat.le_add_left _ _))
  | repetition e min max ih =>
    have htail := (repetitionTail_le_advances (R := R) e min max).trans advances_le_atLeast
    rw [minimumConsumed]
    split
    next hmin =>
      subst hmin
      exact comp_atLeast (power_zero _ ▸ hstays) htail
    next hmin =>
      cases hlength : e.minimumConsumed with
      | none =>
        rw [hlength] at ih
        obtain ⟨copies, rfl⟩ := Nat.exists_eq_succ_of_ne_zero hmin
        have hbot : e.walk R = ⊥ := le_bot_iff.mp ih
        rw [walk, hbot, power_succ, bot_comp, bot_comp]
        exact bot_le
      | some length =>
        rw [hlength] at ih
        exact (comp_atLeast (power_le_atLeast ih min) htail).trans
          (atLeast_mono (Nat.min_le_left _ _))

end Hir

/-! ### The greatest length -/

/-- Forward inside the text, over so many units at most. -/
def Spans (R : Reading) (most : ℕ) (c d : Config) : Prop :=
  Hir.Advances R c d ∧ d.1 ≤ c.1 + most

/-- Standing still spans nothing. -/
theorem Spans.refl (most : ℕ) (c : Config) : Spans R most c c :=
  ⟨Hir.Advances.refl c, Nat.le_add_right _ _⟩

/-- Where nothing is consumed, any span is allowed. -/
theorem eq_le_spans (most : ℕ) : (Eq : Config → Config → Prop) ≤ Spans R most := by
  rintro c d rfl
  exact Spans.refl most c

/-- Spans one after the other add up. -/
theorem Spans.trans {c d e : Config} {a b : ℕ} (h : Spans R a c d) (h' : Spans R b d e) :
    Spans R (a + b) c e := by
  refine ⟨h.1.trans h'.1, ?_⟩
  have hfirst := h.2
  have hsecond := h'.2
  omega

/-- A longer span may be allowed. -/
theorem spans_mono {most most' : ℕ} (h : most ≤ most') : Spans R most ≤ Spans R most' :=
  fun _ _ hcd => ⟨hcd.1, hcd.2.trans (Nat.add_le_add_left h _)⟩

/-- No text is longer than the number that lengths are cut off at. -/
theorem spans_saturate (hlength : R.input.length ≤ usizeMax) (most : ℕ) :
    Spans R most ≤ Spans R (min most usizeMax) := by
  rintro c d ⟨hadvances, hle⟩
  refine ⟨hadvances, ?_⟩
  obtain rfl | ⟨-, hend, -⟩ := hadvances
  · exact Nat.le_add_right _ _
  · omega

/-- Steps one after the other span the sum. -/
theorem comp_spans {r s : Config → Config → Prop} {a b : ℕ} (hr : r ≤ Spans R a)
    (hs : s ≤ Spans R b) : Comp r s ≤ Spans R (a + b) := by
  rintro c e ⟨d, hcd, hde⟩
  exact (hr _ _ hcd).trans (hs _ _ hde)

/-- Copies in a row span so many times as much. -/
theorem power_spans {r : Config → Config → Prop} {a : ℕ} (hr : r ≤ Spans R a) (n : ℕ) :
    power r n ≤ Spans R (a * n) := by
  induction n with
  | zero => exact eq_le_spans _
  | succ n ih =>
    rw [show a * (n + 1) = a + a * n from by rw [Nat.mul_succ, Nat.add_comm]]
    exact comp_spans hr ih

/-- Loops over nothing consume nothing. -/
theorem reflTransGen_spans {r : Config → Config → Prop} (hr : r ≤ Spans R 0) :
    ReflTransGen r ≤ Spans R 0 := by
  have : Std.Refl (Spans R 0) := ⟨Spans.refl 0⟩
  have : IsTrans Config (Spans R 0) := ⟨fun _ _ _ => Spans.trans⟩
  exact reflTransGen_le_of_le hr

/-- Optional copies span no more than all of them. -/
theorem optionalRun_spans {turn step : Config → Config → Prop} {a : ℕ} (hturn : turn ≤ Spans R 0)
    (hstep : step ≤ Spans R a) (n : ℕ) : optionalRun turn step n ≤ Spans R (a * n) := by
  induction n with
  | zero => exact eq_le_spans _
  | succ n ih =>
    have hafter := sup_le (eq_le_spans (a + a * n)) (comp_spans hstep ih)
    rw [show a * (n + 1) = 0 + (a + a * n) from by rw [Nat.mul_succ, Nat.zero_add, Nat.add_comm]]
    exact comp_spans (reflTransGen_spans hturn) hafter

namespace Hir

mutual

/-- Every class has a unit, every alternation a branch, and every repetition a copy. -/
def live : Hir → Bool
  | .never => false
  | .epsilon | .assertion _ | .symbol _ => true
  | .predicate p => !p.isEmpty
  | .sequence expressions => allLive expressions
  | .alternation expressions => !expressions.isEmpty && allLive expressions
  | .repetition expression _ max => max != some 0 && expression.live

/-- `live` holds of all expressions of the list. -/
def allLive : List Hir → Bool
  | [] => true
  | expression :: rest => expression.live && allLive rest

end

/-- `allLive` asks every expression. -/
theorem allLive_iff {es : List Hir} : allLive es = true ↔ ∀ e ∈ es, e.live = true := by
  induction es with
  | nil => exact iff_of_true rfl (by simp)
  | cons e es ih => rw [allLive, Bool.and_eq_true, ih, List.forall_mem_cons]

/-- The items of a sequence with a greatest length have one, and the items before them. -/
theorem finite_of_maximumConsumedItems {es : List Hir} {total most : ℕ}
    (h : maximumConsumedItems es total = .finite most) :
    ∀ e ∈ es, ∃ n, e.maximumConsumed = .finite n := by
  induction es generalizing total with
  | nil => simp
  | cons e es ih =>
    rw [maximumConsumedItems] at h
    split at h
    next => cases h
    next n hn => exact List.forall_mem_cons.mpr ⟨⟨n, hn⟩, ih h⟩
    next => cases h

/-- The branches of an alternation with a greatest length have one that is not greater. -/
theorem finite_of_maximumConsumedBranches {es : List Hir} {maximum : Option ℕ} {most : ℕ}
    (h : maximumConsumedBranches es maximum = .finite most) :
    (∀ n ∈ maximum, n ≤ most) ∧ ∀ e ∈ es, e.maximumConsumed = .impossible ∨
      ∃ n ≤ most, e.maximumConsumed = .finite n := by
  induction es generalizing maximum with
  | nil =>
    cases maximum with
    | none => cases h
    | some n =>
      obtain rfl := MaximumConsumed.finite.inj h
      exact ⟨fun _ hn => le_of_eq (Option.some.inj hn).symm, by simp⟩
  | cons e es ih =>
    rw [maximumConsumedBranches] at h
    split at h
    next hnone =>
      obtain ⟨hmaximum, hes⟩ := ih h
      exact ⟨hmaximum, List.forall_mem_cons.mpr ⟨Or.inl hnone, hes⟩⟩
    next next hnext =>
      obtain ⟨hmaximum, hes⟩ := ih h
      have hgreatest := hmaximum _ rfl
      refine ⟨?_, List.forall_mem_cons.mpr ⟨Or.inr ⟨next, ?_, hnext⟩, hes⟩⟩
      · rintro n rfl
        exact (Nat.le_max_left _ _).trans hgreatest
      · cases maximum with
        | none => exact hgreatest
        | some n => exact (Nat.le_max_right _ _).trans hgreatest
    next => cases h

/-- A sequence of items that can match can match. -/
theorem maximumConsumedItems_ne_impossible {es : List Hir}
    (h : ∀ e ∈ es, e.maximumConsumed ≠ .impossible) (total : ℕ) :
    maximumConsumedItems es total ≠ .impossible := by
  induction es generalizing total with
  | nil => rintro ⟨⟩
  | cons e es ih =>
    obtain ⟨he, hes⟩ := List.forall_mem_cons.mp h
    rw [maximumConsumedItems]
    split
    next hnone => exact absurd hnone he
    next => exact ih hes _
    next => rintro ⟨⟩

/-- An alternation can match when there is a branch and all can. -/
theorem maximumConsumedBranches_ne_impossible {es : List Hir}
    (h : ∀ e ∈ es, e.maximumConsumed ≠ .impossible) {maximum : Option ℕ}
    (hsome : maximum.isSome = true ∨ es ≠ []) :
    maximumConsumedBranches es maximum ≠ .impossible := by
  induction es generalizing maximum with
  | nil =>
    obtain hsome | hes := hsome
    · obtain ⟨n, rfl⟩ := Option.isSome_iff_exists.mp hsome
      rintro ⟨⟩
    · exact absurd rfl hes
  | cons e es ih =>
    obtain ⟨he, hes⟩ := List.forall_mem_cons.mp h
    rw [maximumConsumedBranches]
    split
    next hnone => exact absurd hnone he
    next => exact ih hes (Or.inl rfl)
    next => rintro ⟨⟩

/-- What is live can match. -/
theorem maximumConsumed_ne_impossible {h : Hir} (hlive : h.live = true) :
    h.maximumConsumed ≠ .impossible := by
  induction h with
  | never => cases hlive
  | epsilon | assertion _ | symbol _ => rintro ⟨⟩
  | predicate p =>
    have hunit : ¬ p.isEmpty = true := by
      rw [live] at hlive
      simpa using hlive
    rw [maximumConsumed, if_neg hunit]
    rintro ⟨⟩
  | sequence es ih =>
    rw [live, allLive_iff] at hlive
    exact maximumConsumedItems_ne_impossible (fun e he => ih e he (hlive e he)) 0
  | alternation es ih =>
    rw [live, Bool.and_eq_true, allLive_iff, Bool.not_eq_true', List.isEmpty_eq_false_iff] at hlive
    exact maximumConsumedBranches_ne_impossible (fun e he => ih e he (hlive.2 e he))
      (Or.inr hlive.1)
  | repetition e min max ih =>
    rw [live, Bool.and_eq_true] at hlive
    have hbody := ih hlive.2
    cases max with
    | none =>
      rw [maximumConsumed]
      split
      next hnone => exact absurd hnone hbody
      all_goals rintro ⟨⟩
    | some limit =>
      rw [maximumConsumed]
      split
      next hnone => exact absurd hnone hbody
      next => rintro ⟨⟩
      next => split <;> rintro ⟨⟩

/-- The loop over the items, behind units that were consumed before. -/
theorem comp_walkItems_le_spans (hlength : R.input.length ≤ usizeMax) {es : List Hir}
    (h : ∀ e ∈ es, ∀ most, e.maximumConsumed = .finite most → e.walk R ≤ Spans R most)
    {r : Config → Config → Prop} {total most : ℕ} (hr : r ≤ Spans R total)
    (hmost : maximumConsumedItems es total = .finite most) :
    Comp r (walkItems R es) ≤ Spans R most := by
  induction es generalizing r total with
  | nil =>
    obtain rfl := MaximumConsumed.finite.inj hmost
    rw [walkItems, comp_eq]
    exact hr
  | cons e es ih =>
    obtain ⟨he, hes⟩ := List.forall_mem_cons.mp h
    rw [maximumConsumedItems] at hmost
    rw [walkItems, ← comp_assoc]
    split at hmost
    next => cases hmost
    next next hnext =>
      exact ih hes ((comp_spans hr (he next hnext)).trans (spans_saturate hlength _)) hmost
    next => cases hmost

/-- A sequence is bounded by `maximum_consumed` when its items are. -/
theorem sequence_runs_le_spans (hlength : R.input.length ≤ usizeMax) {es : List Hir}
    (h : ∀ e ∈ es, ∀ most, e.maximumConsumed = .finite most →
      e.walk R ≤ Spans R most ∧ e.turn R ≤ Spans R 0) {most : ℕ}
    (hmost : (sequence es).maximumConsumed = .finite most) :
    (sequence es).walk R ≤ Spans R most ∧ (sequence es).turn R ≤ Spans R 0 := by
  rw [maximumConsumed] at hmost
  cases es with
  | nil => exact ⟨bot_le, bot_le⟩
  | cons e es =>
    -- the first item has a greatest length too, so its turns consume nothing
    obtain ⟨n, hn⟩ := finite_of_maximumConsumedItems hmost e List.mem_cons_self
    have hitems := comp_walkItems_le_spans hlength
      (fun e he most hmost => (h e he most hmost).1) (eq_le_spans 0) hmost
    rw [eq_comp] at hitems
    exact ⟨hitems, (h e List.mem_cons_self n hn).2⟩

/-- The branches of an alternation, when every branch is short and no branch turns over units. -/
theorem alternation_runs_le_spans {es : List Hir} {most : ℕ}
    (h : ∀ e ∈ es, ∃ n ≤ most, e.walk R ≤ Spans R n ∧ e.turn R ≤ Spans R 0) :
    (alternation es).walk R ≤ Spans R most ∧ (alternation es).turn R ≤ Spans R 0 := by
  have hturn : turnAny R es ≤ Spans R 0 := by
    refine turnAny_le fun e he => ?_
    obtain ⟨n, -, -, hturn⟩ := h e he
    exact hturn
  have hwalk : walkAny R es ≤ Spans R most := by
    refine walkAny_le fun e he => ?_
    obtain ⟨n, hn, hwalk, -⟩ := h e he
    exact hwalk.trans (spans_mono hn)
  have hruns := comp_spans (reflTransGen_spans hturn) hwalk
  rw [Nat.zero_add] at hruns
  exact ⟨hruns, hturn⟩

/-- A repetition without a limit, when its body consumes nothing: no number of copies does. -/
theorem repetition_none_runs_le_spans {e : Hir} (hwalk : e.walk R ≤ Spans R 0)
    (hturn : e.turn R ≤ Spans R 0) (min : ℕ) :
    (repetition e min none).walk R ≤ Spans R 0 ∧ (repetition e min none).turn R ≤ Spans R 0 := by
  have hloop : e.turn R ⊔ e.walk R ≤ Spans R 0 := sup_le hturn hwalk
  have hruns := comp_spans (power_spans hwalk min) (reflTransGen_spans hloop)
  rw [Nat.zero_mul] at hruns
  refine ⟨hruns, ?_⟩
  cases min with
  | zero => exact hloop
  | succ min => exact hturn

/-- A repetition with a limit: every copy consumes as much as its body may. -/
theorem repetition_some_runs_le_spans {e : Hir} {most : ℕ} (hwalk : e.walk R ≤ Spans R most)
    (hturn : e.turn R ≤ Spans R 0) (min limit : ℕ) :
    (repetition e min (some limit)).walk R ≤ Spans R (most * limit) ∧
      (repetition e min (some limit)).turn R ≤ Spans R 0 := by
  constructor
  · show Comp (power (e.walk R) min)
      (if limit < min then ⊥ else optionalRun (e.turn R) (e.walk R) (limit - min)) ≤ _
    split
    next =>
      rw [comp_bot]
      exact bot_le
    next hlimit =>
      have hruns := comp_spans (power_spans hwalk min) (optionalRun_spans hturn hwalk (limit - min))
      rwa [← Nat.mul_add, Nat.add_sub_cancel' (Nat.le_of_not_lt hlimit)] at hruns
  · show repetitionTurn _ _ min (some limit) ≤ _
    unfold repetitionTurn
    split
    next heq => cases heq
    next => exact bot_le
    next => exact hturn

/-- A repetition is bounded by `maximum_consumed` when its body is. -/
theorem repetition_runs_le_spans (hlength : R.input.length ≤ usizeMax) {e : Hir} {min : ℕ}
    {max : Option ℕ} (hcopies : max ≠ some 0)
    (hbody : ∀ most, e.maximumConsumed = .finite most →
      e.walk R ≤ Spans R most ∧ e.turn R ≤ Spans R 0) {most : ℕ}
    (hmost : (repetition e min max).maximumConsumed = .finite most) :
    (repetition e min max).walk R ≤ Spans R most ∧ (repetition e min max).turn R ≤ Spans R 0 := by
  cases max with
  | none =>
    rw [maximumConsumed] at hmost
    split at hmost
    next => cases hmost
    next hzero =>
      obtain rfl := MaximumConsumed.finite.inj hmost
      obtain ⟨hwalk, hturn⟩ := hbody 0 hzero
      exact repetition_none_runs_le_spans hwalk hturn min
    all_goals cases hmost
  | some limit =>
    have hlimit : limit ≠ 0 := fun h => hcopies (congrArg some h)
    rw [maximumConsumed] at hmost
    split at hmost
    next => cases hmost
    next unit hunit =>
      obtain rfl := MaximumConsumed.finite.inj hmost
      obtain ⟨hwalk, hturn⟩ := hbody unit hunit
      have hruns := repetition_some_runs_le_spans hwalk hturn min limit
      exact ⟨hruns.1.trans (spans_saturate hlength _), hruns.2⟩
    next =>
      rw [if_neg hlimit] at hmost
      cases hmost

/-- No run of a live expression is longer than `maximum_consumed`, and no round trip consumes
anything when there is such a number. -/
theorem runs_le_spans (hlength : R.input.length ≤ usizeMax) {h : Hir} (hlive : h.live = true)
    {most : ℕ} (hmost : h.maximumConsumed = .finite most) :
    h.walk R ≤ Spans R most ∧ h.turn R ≤ Spans R 0 := by
  have hconsumes : ∀ accepts, R.Consumes accepts ≤ Spans R 1 := by
    rintro accepts c d ⟨unit, hunit, -, rfl⟩
    exact ⟨Or.inr ⟨Nat.lt_succ_self _, (List.getElem?_eq_some_iff.mp hunit).1, rfl⟩, le_refl _⟩
  induction h generalizing most with
  | never => cases hlive
  | epsilon =>
    obtain rfl := MaximumConsumed.finite.inj hmost
    exact ⟨eq_le_spans 0, bot_le⟩
  | assertion a =>
    obtain rfl := MaximumConsumed.finite.inj hmost
    exact ⟨fun c d hcd => eq_le_spans 0 c d hcd.2, bot_le⟩
  | symbol s =>
    obtain rfl := MaximumConsumed.finite.inj hmost
    exact ⟨hconsumes _, bot_le⟩
  | predicate p =>
    rw [maximumConsumed] at hmost
    split at hmost
    next => cases hmost
    next =>
      obtain rfl := MaximumConsumed.finite.inj hmost
      exact ⟨hconsumes _, bot_le⟩
  | sequence es ih =>
    rw [live, allLive_iff] at hlive
    exact sequence_runs_le_spans hlength (fun e he most => ih e he (hlive e he)) hmost
  | alternation es ih =>
    rw [live, Bool.and_eq_true, allLive_iff] at hlive
    rw [maximumConsumed] at hmost
    refine alternation_runs_le_spans fun e he => ?_
    obtain hnone | ⟨n, hn, hfinite⟩ := (finite_of_maximumConsumedBranches hmost).2 e he
    · exact absurd hnone (maximumConsumed_ne_impossible (hlive.2 e he))
    · exact ⟨n, hn, ih e he (hlive.2 e he) hfinite⟩
  | repetition e min max ih =>
    rw [live, Bool.and_eq_true, bne_iff_ne] at hlive
    exact repetition_runs_le_spans hlength hlive.1 (fun most hbody => ih hlive.2 hbody) hmost

/-! ### The units -/

/-- `allAsciiOnly` asks every expression. -/
theorem allAsciiOnly_iff {es : List Hir} :
    allAsciiOnly es = true ↔ ∀ e ∈ es, e.asciiOnly = true := by
  induction es with
  | nil => exact iff_of_true rfl (by simp)
  | cons e es ih => rw [allAsciiOnly, Bool.and_eq_true, ih, List.forall_mem_cons]

/-- The labels of an ASCII expression accept ASCII units only. -/
theorem lt_of_asciiOnly {h : Hir} (hascii : h.asciiOnly = true) :
    ∀ l ∈ h.labels, ∀ unit, l.accepts unit = true → unit < 128 := by
  induction h with
  | never | epsilon => simp [labels]
  | assertion a => simp [labels, Label.accepts]
  | symbol s =>
    rw [asciiOnly, decide_eq_true_eq] at hascii
    simp only [labels, List.mem_singleton, forall_eq, Label.accepts, beq_iff_eq]
    rintro unit rfl
    exact hascii
  | predicate p =>
    rw [asciiOnly, List.isEmpty_iff] at hascii
    simp only [labels, List.mem_singleton, forall_eq, Label.accepts]
    intro unit haccepted
    -- the unit is ASCII, or in one of no ranges
    unfold SymbolPredicate.matches at haccepted
    split at haccepted
    next hlt => exact hlt
    next => rw [hascii] at haccepted; cases haccepted
  | sequence es ih | alternation es ih =>
    rw [asciiOnly, allAsciiOnly_iff] at hascii
    intro l hl
    obtain ⟨e, he, hl⟩ := mem_labelsAll.mp hl
    exact ih e he (hascii e he) l hl
  | repetition e min max ih => exact ih hascii

end Hir

/-! ### The kinds of assertions -/

namespace AssertionKinds

/-- With an assertion inserted, some kind is reported. -/
theorem isEmpty_insert (kinds : AssertionKinds) (a : Assertion) :
    (kinds.insert a).isEmpty = false := by
  have hflag : flag a ≠ 0 := by cases a <;> decide
  rw [isEmpty, insert, beq_eq_false_iff_ne, ne_eq, UInt8.or_eq_zero_iff, not_and]
  exact fun _ => hflag

end AssertionKinds

/-- The assertion that a label tests. -/
def Label.assertion? : Label → Option Assertion
  | .assertion a => some a
  | .epsilon | .symbol _ | .predicate _ => none

namespace Hir

/-- The assertions of an expression, from left to right. -/
def assertionLabels (h : Hir) : List Assertion := h.labels.filterMap Label.assertion?

/-- The assertions of an expression are those among its labels. -/
theorem mem_assertionLabels {h : Hir} {a : Assertion} :
    a ∈ h.assertionLabels ↔ Label.assertion a ∈ h.labels := by
  rw [assertionLabels, List.mem_filterMap]
  constructor
  · rintro ⟨l, hl, hassertion⟩
    cases l with
    | assertion b => exact Option.some.inj hassertion ▸ hl
    | epsilon | symbol _ | predicate _ => cases hassertion
  · exact fun hl => ⟨_, hl, rfl⟩

/-- An expression uses assertions when one of its labels is one. -/
theorem usesAssertions_iff {h : Hir} :
    h.usesAssertions = true ↔ ∃ a, Label.assertion a ∈ h.labels := by
  induction h with
  | never | epsilon | symbol _ | predicate _ | assertion _ => simp [usesAssertions, labels]
  | sequence es ih | alternation es ih =>
    rw [usesAssertions, anyUsesAssertions_eq_any, List.any_eq_true]
    simp only [labels, mem_labelsAll]
    constructor
    · rintro ⟨e, he, huses⟩
      obtain ⟨a, ha⟩ := (ih e he).mp huses
      exact ⟨a, e, he, ha⟩
    · rintro ⟨a, e, he, ha⟩
      exact ⟨e, he, (ih e he).mpr ⟨a, ha⟩⟩
  | repetition e min max ih => exact ih

/-- `visit_assertions` inserts the assertions one by one. -/
theorem visitAssertions_eq (h : Hir) (kinds : AssertionKinds) :
    h.visitAssertions kinds = h.assertionLabels.foldl AssertionKinds.insert kinds := by
  have hall : ∀ es : List Hir, (∀ e ∈ es, ∀ kinds, e.visitAssertions kinds =
      e.assertionLabels.foldl AssertionKinds.insert kinds) → ∀ kinds,
      visitAllAssertions es kinds =
        ((labelsAll es).filterMap Label.assertion?).foldl AssertionKinds.insert kinds := by
    intro es hes
    induction es with
    | nil => exact fun kinds => rfl
    | cons e es ih =>
      intro kinds
      obtain ⟨he, hes⟩ := List.forall_mem_cons.mp hes
      rw [visitAllAssertions, labelsAll, List.filterMap_append, List.foldl_append, he, ih hes]
      rfl
  induction h generalizing kinds with
  | never | epsilon | symbol _ | predicate _ | assertion _ => rfl
  | sequence es ih | alternation es ih => exact hall es (fun e he kinds => ih e he kinds) kinds
  | repetition e min max ih => exact ih kinds

/-- No kind is reported exactly when there are no assertions. -/
theorem isEmpty_assertionKinds (h : Hir) : h.assertionKinds.isEmpty = !h.usesAssertions := by
  have hfold : ∀ (assertions : List Assertion) (kinds : AssertionKinds),
      (assertions.foldl AssertionKinds.insert kinds).isEmpty =
        (kinds.isEmpty && assertions.isEmpty) := by
    intro assertions
    induction assertions with
    | nil => simp
    | cons b assertions ih =>
      intro kinds
      rw [List.foldl_cons, ih, AssertionKinds.isEmpty_insert]
      simp
  have huses : h.usesAssertions = !h.assertionLabels.isEmpty := by
    rw [Bool.eq_iff_iff, usesAssertions_iff, Bool.not_eq_true',
      List.isEmpty_eq_false_iff_exists_mem]
    simp only [mem_assertionLabels]
  rw [assertionKinds, visitAssertions_eq, hfold, huses, Bool.not_not]
  rfl

end Hir

end Rustmatch

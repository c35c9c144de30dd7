import Rustmatch.Cohort
import Rustmatch.Hir.Language
import Rustmatch.ToMathlib.LanguageExtents

/-!
# The longest match

`maximum_consumed` is compared with the language of an expression. It goes wrong in two places. A
repetition whose body cannot match counts as impossible, also when no copy of the body is needed;
and a sequence counts as unbounded at its first unbounded item, also when an item behind it cannot
match. What it measures is the extent of a language of its own, the examined one.

## Main definitions

* `Hir.examined`: the examined language;
* `Hir.MeasuredWhole`: expressions in which neither of the two places is reached.

## Main results

* `hasExtent_examined`: what `maximum_consumed` measures;
* `maximum_consumed_is_exact_iff`: where it measures the language.
-/

open LanguageLengths

namespace Rustmatch

/-- What an answer of `maximum_consumed` says. -/
def MaximumConsumed.extent : MaximumConsumed → Extent
  | .impossible => .empty
  | .finite units => .upTo units
  | .unbounded => .unbounded

/-- Different answers have different extents. -/
theorem MaximumConsumed.extent_injective : Function.Injective MaximumConsumed.extent := by
  intro m m' h
  cases m with
  | impossible =>
    cases m' with
    | impossible => rfl
    | finite | unbounded => cases h
  | finite units =>
    cases m' with
    | finite units' => rw [Extent.upTo.inj h]
    | impossible | unbounded => cases h
  | unbounded =>
    cases m' with
    | unbounded => rfl
    | impossible | finite => cases h

namespace Hir

/-! ### The examined language -/

open Classical in
mutual

/-- The language that `maximum_consumed` examines: repetitions of what cannot match are empty, and
the items of a sequence behind the first one with words of any length are left out. -/
noncomputable def examined : Hir → Language UInt16
  | .never => 0
  | .epsilon | .assertion _ => 1
  | .symbol s => language (.symbol s)
  | .predicate p => language (.predicate p)
  | .sequence expressions => examinedItems expressions
  | .alternation expressions => examinedBranches expressions
  | .repetition expression min max =>
    if examined expression = 0 then 0 else iterate (examined expression) min max

/-- The items of a sequence, up to the first unbounded one. -/
noncomputable def examinedItems : List Hir → Language UInt16
  | [] => 1
  | item :: rest =>
    if Unbounded (examined item) then examined item else examined item * examinedItems rest

/-- The branches of an alternation. -/
noncomputable def examinedBranches : List Hir → Language UInt16
  | [] => 0
  | branch :: rest => examined branch + examinedBranches rest

end

/-- `maximum_consumed` measures the examined language. -/
def Measures (h : Hir) : Prop := HasExtent usizeMax h.examined h.maximumConsumed.extent

/-- The loop over the items of a sequence, behind a language whose extent is known. -/
theorem hasExtent_examinedItems {es : List Hir} (h : ∀ e ∈ es, Measures e)
    {L : Language UInt16} {total : ℕ} (hL : HasExtent usizeMax L (.upTo total)) :
    HasExtent usizeMax (L * examinedItems es) (maximumConsumedItems es total).extent := by
  -- the product so far is carried along, as the total is in the source
  induction es generalizing L total with
  | nil =>
    rw [examinedItems, mul_one]
    exact hL
  | cons e es ih =>
    obtain ⟨he, hes⟩ := List.forall_mem_cons.mp h
    unfold Measures at he
    have hboth := hL.mul he
    rw [examinedItems, maximumConsumedItems]
    cases hmaximum : e.maximumConsumed with
    | impossible =>
      rw [hmaximum] at he
      have hzero : e.examined = 0 := he
      rw [hzero, zero_mul, ite_self, mul_zero]
      exact HasExtent.zero
    | finite next =>
      rw [hmaximum] at he hboth
      have hbounded : ¬ Unbounded e.examined := fun hunbounded =>
        nomatch he.unbounded_iff.mp hunbounded
      rw [if_neg hbounded, ← mul_assoc]
      exact ih hes hboth
    -- the source stops here, and the items behind are left out of the examined language
    | unbounded =>
      rw [hmaximum] at he hboth
      rw [if_pos (he.unbounded_iff.mpr rfl)]
      exact hboth

/-- The loop over the branches of an alternation, next to a language whose extent is known. -/
theorem hasExtent_examinedBranches {es : List Hir} (h : ∀ e ∈ es, Measures e)
    {L : Language UInt16} {maximum : Option ℕ}
    (hL : HasExtent usizeMax L (maximum.elim .empty .upTo)) :
    HasExtent usizeMax (L + examinedBranches es)
      (maximumConsumedBranches es maximum).extent := by
  -- `none` stands for no branch with words so far
  induction es generalizing L maximum with
  | nil =>
    rw [examinedBranches, add_zero, maximumConsumedBranches]
    cases maximum with
    | none | some => exact hL
  | cons e es ih =>
    obtain ⟨he, hes⟩ := List.forall_mem_cons.mp h
    unfold Measures at he
    have hboth := hL.add he
    rw [examinedBranches, ← add_assoc, maximumConsumedBranches]
    cases hmaximum : e.maximumConsumed with
    -- a branch without words adds none
    | impossible =>
      rw [hmaximum] at he
      have hzero : e.examined = 0 := he
      rw [hzero, add_zero]
      exact ih hes hL
    | finite next =>
      rw [hmaximum] at hboth
      refine ih hes ?_
      cases maximum with
      | none | some => exact hboth
    | unbounded =>
      rw [hmaximum] at he
      exact Unbounded.mono he fun word hword =>
        (Language.mem_add ..).mpr (Or.inl ((Language.mem_add ..).mpr (Or.inr hword)))

/-- Repetitions of what can match. -/
theorem measures_repetition {e : Hir} {min : ℕ} {max : Option ℕ}
    (hbounds : ∀ limit ∈ max, min ≤ limit) (he : Measures e) :
    Measures (.repetition e min max) := by
  unfold Measures at he ⊢
  rw [examined]
  split
  next hzero =>
    -- the body counts as impossible, and so does the repetition
    have himpossible : e.maximumConsumed = .impossible :=
      MaximumConsumed.extent_injective (he.unique hzero)
    cases max with
    | none | some => rw [maximumConsumed, himpossible]; exact HasExtent.zero
  next hne =>
    have hiterate := he.iterate (by decide) hbounds
    cases max with
    | none =>
      rw [maximumConsumed]
      cases hmaximum : e.maximumConsumed with
      | impossible =>
        rw [hmaximum] at he
        exact absurd he hne
      | finite units =>
        rw [hmaximum] at hiterate
        cases units with
        | zero | succ => exact hiterate
      | unbounded =>
        rw [hmaximum] at hiterate
        exact hiterate
    | some limit =>
      rw [maximumConsumed]
      unfold Extent.iterate at hiterate
      cases hmaximum : e.maximumConsumed with
      | impossible =>
        rw [hmaximum] at he
        exact absurd he hne
      | finite units =>
        rw [hmaximum] at hiterate
        by_cases hlimit : limit = 0
        · subst hlimit
          exact hiterate
        · rw [if_neg fun hsome => hlimit (Option.some.inj hsome)] at hiterate
          exact hiterate
      | unbounded =>
        rw [hmaximum] at hiterate
        by_cases hlimit : limit = 0
        · subst hlimit
          exact hiterate
        · rw [if_neg fun hsome => hlimit (Option.some.inj hsome)] at hiterate
          rw [if_neg hlimit]
          exact hiterate

/-- A canonical predicate has no words when it is empty. -/
theorem language_predicate_eq_zero_iff {p : SymbolPredicate} (hp : p.Canonical) :
    (Hir.predicate p).language = 0 ↔ p.isEmpty = true := by
  rw [← (analyses_predicate hp).leastLength.eq_none_iff, minimumConsumed]
  split
  next hempty => exact iff_of_true rfl hempty
  next hempty => exact iff_of_false (Option.some_ne_none _) hempty

/-- What `maximum_consumed` measures. -/
theorem hasExtent_examined {h : Hir} (hvalid : h.Valid) : Measures h := by
  induction h with
  | never => exact HasExtent.zero
  | epsilon | assertion _ => exact HasExtent.one
  | symbol s =>
    refine HasExtent.of_length_eq_one (by decide)
      (ne_zero_iff.mpr ⟨[s], mem_language_symbol.mpr rfl⟩) fun word hword => ?_
    rw [mem_language_symbol.mp hword]
    rfl
  | predicate p =>
    cases hvalid with
    | predicate hp =>
      unfold Measures
      rw [maximumConsumed]
      split
      next hempty => exact (language_predicate_eq_zero_iff hp).mpr hempty
      next hempty =>
        refine HasExtent.of_length_eq_one (by decide)
          (mt (language_predicate_eq_zero_iff hp).mp hempty) fun word hword => ?_
        obtain ⟨unit, -, rfl⟩ := mem_language_predicate.mp hword
        rfl
  -- the loop over the items starts from the empty word
  | sequence es ih =>
    have hitems := hasExtent_examinedItems (fun e he => ih e he (hvalid.of_sequence e he))
      HasExtent.one
    rwa [one_mul] at hitems
  -- the loop over the branches starts from no word
  | alternation es ih =>
    have hbranches := @hasExtent_examinedBranches es
      (fun e he => ih e he (hvalid.of_alternation e he)) 0 none HasExtent.zero
    rwa [zero_add] at hbranches
  | repetition e min max ih =>
    cases hvalid with
    | repetition hbounds he => exact measures_repetition hbounds (ih he)

/-! ### Where it measures the language -/

/-- No copy can be left out of a repetition of what cannot match, and nothing that cannot match
stands behind an unbounded item. -/
inductive MeasuredWhole : Hir → Prop
  | never : MeasuredWhole .never
  | epsilon : MeasuredWhole .epsilon
  | assertion (a : Assertion) : MeasuredWhole (.assertion a)
  | symbol (s : UInt16) : MeasuredWhole (.symbol s)
  | predicate (p : SymbolPredicate) : MeasuredWhole (.predicate p)
  | sequence {es : List Hir} : (∀ e ∈ es, MeasuredWhole e) →
      es.Pairwise (fun before after => Unbounded before.language → after.language ≠ 0) →
      MeasuredWhole (.sequence es)
  | alternation {es : List Hir} : (∀ e ∈ es, MeasuredWhole e) → MeasuredWhole (.alternation es)
  | repetition {e : Hir} {min : ℕ} (max : Option ℕ) : (min = 0 → e.language ≠ 0) →
      MeasuredWhole e → MeasuredWhole (.repetition e min max)

/-- Items that match match in a row. -/
theorem languageAll_ne_zero {es : List Hir} (h : ∀ e ∈ es, e.language ≠ 0) :
    languageAll es ≠ 0 := by
  induction es with
  | nil => exact ne_zero_iff.mpr ⟨[], Language.nil_mem_one⟩
  | cons e es ih =>
    obtain ⟨he, hes⟩ := List.forall_mem_cons.mp h
    rw [languageAll]
    exact mul_ne_zero_iff_both.mpr ⟨he, ih hes⟩

/-- The items are examined right, when nothing behind an unbounded one is empty. -/
theorem sameExtent_examinedItems {es : List Hir}
    (h : ∀ e ∈ es, SameExtent usizeMax e.examined e.language)
    (hbehind : es.Pairwise fun before after => Unbounded before.language → after.language ≠ 0) :
    SameExtent usizeMax (examinedItems es) (languageAll es) := by
  induction es with
  | nil => exact SameExtent.refl usizeMax _
  | cons e es ih =>
    obtain ⟨he, hes⟩ := List.forall_mem_cons.mp h
    obtain ⟨hfirst, hrest⟩ := List.pairwise_cons.mp hbehind
    rw [examinedItems, languageAll]
    split
    next hunbounded =>
      have hlanguage := he.unbounded_iff.mp hunbounded
      have hproduct : Unbounded (e.language * languageAll es) :=
        hlanguage.mul_right (languageAll_ne_zero fun after hafter => hfirst after hafter hlanguage)
      exact @HasExtent.sameExtent _ _ _ usizeMax .unbounded hunbounded hproduct
    next => exact he.mul (ih hes hrest)

/-- The branches are examined right when each of them is. -/
theorem sameExtent_examinedBranches {es : List Hir}
    (h : ∀ e ∈ es, SameExtent usizeMax e.examined e.language) :
    SameExtent usizeMax (examinedBranches es) (languageAny es) := by
  induction es with
  | nil => exact SameExtent.refl usizeMax _
  | cons e es ih =>
    obtain ⟨he, hes⟩ := List.forall_mem_cons.mp h
    exact he.add (ih hes)

/-- The examined language has the extent of the language. -/
theorem MeasuredWhole.sameExtent {h : Hir} (hwhole : h.MeasuredWhole) (hvalid : h.Valid) :
    SameExtent usizeMax h.examined h.language := by
  induction h with
  | never | epsilon | assertion _ | symbol _ | predicate _ => exact SameExtent.refl usizeMax _
  | sequence es ih =>
    cases hwhole with
    | sequence hes hbehind =>
      exact sameExtent_examinedItems
        (fun e he => ih e he (hes e he) (hvalid.of_sequence e he)) hbehind
  | alternation es ih =>
    cases hwhole with
    | alternation hes =>
      exact sameExtent_examinedBranches
        fun e he => ih e he (hes e he) (hvalid.of_alternation e he)
  | repetition e min max ih =>
    cases hwhole with
    | repetition _ hoptional he =>
      cases hvalid with
      | repetition hbounds hvalid =>
        have hbody := ih he hvalid
        rw [examined, language]
        -- a body without words is examined as if the minimum were positive
        split
        next hzero =>
          have hlanguage := hbody.eq_zero_iff.mp hzero
          rw [hlanguage, iterate_zero, if_neg fun hmin => hoptional hmin hlanguage]
          exact SameExtent.refl usizeMax _
        next => exact hbody.iterate (by decide) hbounds

end Hir

/-- An answer says what the language is like: it has no words, or a longest one, whose length is cut
off at `usize::MAX`, or words of any length. -/
def MaximumConsumed.Classifies (answer : MaximumConsumed) (L : Language UInt16) : Prop :=
  (answer = .impossible ↔ L = 0) ∧
    (∀ n, answer = .finite n ↔ ∃ word ∈ L, (∀ other ∈ L, other.length ≤ word.length) ∧
      n = min word.length usizeMax) ∧
    (answer = .unbounded ↔ ∀ n, ∃ word ∈ L, n < word.length)

/-- An answer is right when its extent is. -/
theorem MaximumConsumed.classifies_iff {answer : MaximumConsumed} {L : Language UInt16} :
    answer.Classifies L ↔ HasExtent usizeMax L answer.extent := by
  constructor
  · rintro ⟨hempty, hfinite, hunbounded⟩
    cases answer with
    | impossible => exact hempty.mp rfl
    | finite n => exact (hfinite n).mp rfl
    | unbounded => exact hunbounded.mp rfl
  · intro h
    have hiff (other : MaximumConsumed) : answer = other ↔ HasExtent usizeMax L other.extent := by
      constructor
      · rintro rfl
        exact h
      · exact fun hother => MaximumConsumed.extent_injective (h.unique hother)
    exact ⟨hiff .impossible, fun n => hiff (.finite n), hiff .unbounded⟩

/-- `maximum_consumed` classifies the language of an expression exactly when the examined language
has the same extent. It has when no repetition with the minimum zero has a body that cannot match,
and no item that cannot match stands behind an unbounded one. -/
theorem maximum_consumed_is_exact_iff (h : Hir) (hvalid : h.Valid) :
    (h.maximumConsumed.Classifies h.language ↔ SameExtent usizeMax h.examined h.language) ∧
      (h.MeasuredWhole → h.maximumConsumed.Classifies h.language) := by
  have hexamined : HasExtent usizeMax h.examined h.maximumConsumed.extent :=
    Hir.hasExtent_examined hvalid
  rw [MaximumConsumed.classifies_iff]
  exact ⟨⟨hexamined.sameExtent, fun hsame => (hsame _).mp hexamined⟩,
    fun hwhole => (hwhole.sameExtent hvalid _).mp hexamined⟩

/-- `a+` has words of any length. -/
theorem maximum_consumed_is_exact_iff_plus :
    (Hir.repetition (.symbol 0x61) 1 none).maximumConsumed.Classifies
      (Hir.repetition (.symbol 0x61) 1 none).language := by
  have hvalid : (Hir.repetition (.symbol 0x61) 1 none).Valid :=
    .repetition (fun _ hlimit => nomatch hlimit) (.symbol 0x61)
  exact (maximum_consumed_is_exact_iff _ hvalid).2 (.repetition none nofun (.symbol 0x61))

/-- `a[]?` matches `a` and counts as impossible; `a*[]` matches nothing and counts as unbounded. -/
theorem maximum_consumed_misses_empty_classes :
    (PatternText ⟨false, fun unit => (unit, unit)⟩ [ascii 'a', ascii '[', ascii ']', ascii '?']
        (.sequence [.symbol 0x61, .repetition (.predicate .empty) 0 (some 1)]) ∧
      ¬ MaximumConsumed.Classifies
        (Hir.sequence [.symbol 0x61, .repetition (.predicate .empty) 0 (some 1)]).maximumConsumed
        (Hir.sequence [.symbol 0x61, .repetition (.predicate .empty) 0 (some 1)]).language) ∧
    PatternText ⟨false, fun unit => (unit, unit)⟩ [ascii 'a', ascii '*', ascii '[', ascii ']']
        (.sequence [.repetition (.symbol 0x61) 0 none, .predicate .empty]) ∧
      ¬ MaximumConsumed.Classifies
        (Hir.sequence [.repetition (.symbol 0x61) 0 none, .predicate .empty]).maximumConsumed
        (Hir.sequence [.repetition (.symbol 0x61) 0 none, .predicate .empty]).language := by
  have hclass : ClassText ⟨false, fun unit => (unit, unit)⟩ [ascii '[', ascii ']'] .empty :=
    .positive .nil (by decide) rfl
  have hempty : (Hir.predicate .empty).language = 0 :=
    (Hir.language_predicate_eq_zero_iff SymbolPredicate.canonical_empty).mpr rfl
  refine ⟨⟨.plain (.last (.plain (.literal rfl) (.quantified (.charClass hclass) .optional .nil))),
    fun hclassifies => ?_⟩,
    .plain (.last (.quantified (.literal rfl) .star (.plain (.charClass hclass) .nil))),
    fun hclassifies => ?_⟩
  · -- `a` is a word
    have hoptional : [] ∈ (Hir.repetition (.predicate .empty) 0 (some 1)).language := by
      rw [Hir.language, hempty, iterate_zero, if_pos rfl]
      exact Language.nil_mem_one
    have hword : [0x61] ++ ([] ++ []) ∈
        (Hir.sequence [.symbol 0x61, .repetition (.predicate .empty) 0 (some 1)]).language :=
      Language.append_mem_mul (Hir.mem_language_symbol.mpr rfl)
        (Language.append_mem_mul hoptional Language.nil_mem_one)
    rw [hclassifies.1.mp rfl] at hword
    exact Language.notMem_zero _ hword
  · -- the class leaves no word
    refine Unbounded.ne_zero (hclassifies.2.2.mp rfl) ?_
    rw [Hir.language, Hir.languageAll, Hir.languageAll, hempty, zero_mul, mul_zero]

end Rustmatch

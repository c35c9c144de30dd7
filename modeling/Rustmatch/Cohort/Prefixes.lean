import Rustmatch.Cohort
import Rustmatch.Prefilter.Literals

/-!
# Prefix summaries and necessary prefixes

`cohort.rs` and `prefilter.rs` each have a recursion that finds the units which every word of an
expression begins with. The summaries of the diagnostics know when the units are the whole language,
and give that up where they cut units off; the literals of the prefilter are cut off silently. On an
expression without assertions both recursions find the same units, because an exact literal that the
summary does not call exact has been cut off, so nothing is appended behind it any more.

## Main definitions

* `PrefixSummary.Describes`: what a summary says of a language;
* `Hir.PositiveLimits`: no repetition is limited to no copies, as `Hir::repeat` sees to;
* `Hir.AgreesWithLiterals`: how a summary and the literals of the prefilter go together.

## Main results

* `Hir.describes_prefixSummary`: summaries are right about the language;
* `Hir.agreesWithLiterals`: summaries and literals go together;
* `prefix_summary_agrees_with_necessary_literal`: both.
-/

open LanguageLengths

namespace Rustmatch

/-! ### Words that are one literal -/

section Singletons

variable {α : Type*}

/-- One word after another is one word. -/
theorem singleton_mul_singleton (a b : List α) :
    ({a} : Language α) * {b} = {a ++ b} := Set.image2_singleton

/-- Copies of one word are one word. -/
theorem singleton_pow (a : List α) (n : ℕ) :
    ({a} : Language α) ^ n = {(List.replicate n a).flatten} := by
  induction n with
  | zero => rfl
  | succ n ih => rw [pow_succ', ih, singleton_mul_singleton, List.replicate_succ, List.flatten_cons]

/-- A beginning of all words is one behind a literal as well. -/
theorem prefixOf_singleton_mul {a b : List α} {L : Language α} (h : ∀ word ∈ L, b <+: word) :
    ∀ word ∈ ({a} : Language α) * L, a ++ b <+: word := by
  intro word hword
  obtain ⟨left, hleft, right, hright, rfl⟩ := Language.mem_mul.mp hword
  obtain rfl : left = a := hleft
  exact (List.prefix_append_right_inj left).mpr (h right hright)

end Singletons

/-- A sum of lengths that are small is not cut off. -/
theorem lt_saturatingAdd_iff {a b bound : ℕ} (h : bound < usizeMax) :
    bound < saturatingAdd a b ↔ bound < a + b := by
  rw [saturatingAdd, lt_min_iff, and_iff_left h]

/-- The limit can be counted. -/
theorem maxPrefixUnits_lt_usizeMax : maxPrefixUnits < usizeMax := by decide

namespace PrefixSummary

variable {a b : List UInt16}

/-- What is kept begins what would be there. -/
theorem appendBounded_isPrefix (a b : List UInt16) : appendBounded a b <+: a ++ b :=
  (List.prefix_append_right_inj a).mpr (List.take_prefix _ _)

/-- Nothing is cut off below the limit. -/
theorem appendBounded_of_le (h : a.length + b.length ≤ maxPrefixUnits) :
    appendBounded a b = a ++ b := by
  rw [appendBounded, List.take_of_length_le (by omega)]

/-- The lengths add up, to the limit. -/
theorem length_appendBounded (h : a.length ≤ maxPrefixUnits) :
    (appendBounded a b).length = min (a.length + b.length) maxPrefixUnits := by
  rw [appendBounded, List.length_append, List.length_take]
  omega

/-- What a summary says of a language: its units are a beginning of every word, and the only word
when the summary is exact. -/
structure Describes (summary : PrefixSummary) (L : Language UInt16) : Prop where
  /-- The summary is cut off at the limit. -/
  length_le : summary.units.length ≤ maxPrefixUnits
  /-- Every word begins with the units. -/
  isPrefix : ∀ word ∈ L, summary.units <+: word
  /-- An exact summary is the only word. -/
  eq_singleton : summary.exact = true → L = {summary.units}

/-- A summary that claims nothing but a beginning. -/
theorem Describes.of_isPrefix {units : List UInt16} {L : Language UInt16}
    (hlength : units.length ≤ maxPrefixUnits) (h : ∀ word ∈ L, units <+: word) :
    Describes ⟨units, false⟩ L :=
  ⟨hlength, h, fun hexact => nomatch hexact⟩

/-- A summary that names the only word. -/
theorem Describes.of_eq_singleton {units : List UInt16} {L : Language UInt16} {exact : Bool}
    (hlength : units.length ≤ maxPrefixUnits) (h : L = {units}) : Describes ⟨units, exact⟩ L := by
  refine ⟨hlength, fun word hword => ?_, fun _ => h⟩
  rw [h] at hword
  obtain rfl : word = units := hword
  exact List.prefix_refl _

/-! ### Copies -/

/-- The copies end with the units of all of them, or stop with as many units as are kept. -/
theorem appendCopies_spec {child : List UInt16} {least : ℕ} {most : Option ℕ} (n : ℕ)
    {units : List UInt16} (hlength : units.length ≤ maxPrefixUnits) :
    (appendCopies child least most n units).units.length ≤ maxPrefixUnits ∧
      (appendCopies child least most n units).units <+:
        units ++ (List.replicate n child).flatten ∧
      ((appendCopies child least most n units).exact = (most == some least) ∧
          (appendCopies child least most n units).units =
            units ++ (List.replicate n child).flatten ∨
        (appendCopies child least most n units).exact = false ∧
          (appendCopies child least most n units).units.length = maxPrefixUnits) := by
  induction n generalizing units with
  | zero =>
    have hall : units ++ (List.replicate 0 child).flatten = units := List.append_nil _
    rw [hall]
    exact ⟨hlength, List.prefix_refl _, .inl ⟨rfl, rfl⟩⟩
  | succ n ih =>
    have hbounded := @length_appendBounded units child hlength
    have hprefix := appendBounded_isPrefix units child
    rw [List.replicate_succ, List.flatten_cons, ← List.append_assoc, appendCopies]
    split
    next hstop =>
      rw [gt_iff_lt, lt_saturatingAdd_iff maxPrefixUnits_lt_usizeMax] at hstop
      have hfull : (appendBounded units child).length = maxPrefixUnits := by omega
      exact ⟨hfull.le, hprefix.trans (List.prefix_append _ _), .inr ⟨rfl, hfull⟩⟩
    next hmore =>
      rw [gt_iff_lt, lt_saturatingAdd_iff maxPrefixUnits_lt_usizeMax] at hmore
      have hnext := @ih (appendBounded units child) (by omega)
      -- nothing of this copy was cut off
      rwa [appendBounded_of_le (by omega)] at hnext ⊢

/-- The copies of the summary are those of the literals. -/
theorem units_appendCopies {child : List UInt16} {least : ℕ} {most : Option ℕ} (n : ℕ)
    {units : List UInt16} (hlength : units.length ≤ maxPrefixUnits) :
    (appendCopies child least most n units).units = appendRepeated child n units := by
  induction n generalizing units with
  | zero => rfl
  | succ n ih =>
    have hbounded := @length_appendBounded units child hlength
    rw [appendCopies, appendRepeated]
    split
    next hstop =>
      rw [gt_iff_lt, lt_saturatingAdd_iff maxPrefixUnits_lt_usizeMax] at hstop
      -- the units are full, so the literals append nothing more either
      have hfull : (appendBounded units child).length = maxPrefixUnits := by omega
      exact (appendRepeated_of_length_eq hfull n).symm
    next => exact ih (by omega)

end PrefixSummary

namespace Hir

open PrefixSummary (Describes)

/-- The summary of a repetition with a required copy. -/
theorem prefixSummary_repetition {e : Hir} {least : ℕ} {most : Option ℕ} (h : least ≠ 0) :
    (repetition e least most).prefixSummary =
      if e.prefixSummary.exact = true then .appendCopies e.prefixSummary.units least most least []
      else ⟨e.prefixSummary.units, false⟩ := by
  rw [prefixSummary, if_neg h]
  cases hexact : e.prefixSummary.exact with
  | false => simp [hexact]
  | true => simp [hexact]

/-- One round of the loop over the items, as long as all items before were exact. -/
theorem prefixSummaryItems_cons (e : Hir) (es : List Hir) (units : List UInt16) :
    prefixSummaryItems (e :: es) ⟨units, true⟩ =
      if e.prefixSummary.exact = false ∨
          maxPrefixUnits < units.length + e.prefixSummary.units.length ∨
          (PrefixSummary.appendBounded units e.prefixSummary.units).length = maxPrefixUnits ∧
            es ≠ []
      then ⟨PrefixSummary.appendBounded units e.prefixSummary.units, false⟩
      else prefixSummaryItems es ⟨units ++ e.prefixSummary.units, true⟩ := by
  rw [prefixSummaryItems]
  simp only [gt_iff_lt, lt_saturatingAdd_iff maxPrefixUnits_lt_usizeMax, Bool.true_and]
  split
  · rfl
  next hmore =>
    rw [not_or, not_or, Bool.not_eq_false, not_lt] at hmore
    rw [PrefixSummary.appendBounded_of_le hmore.2.1, hmore.1]

/-! ### Summaries and the language -/

/-- The items of a sequence, behind a literal that is known in full. -/
theorem describes_prefixSummaryItems {es : List Hir}
    (ih : ∀ e ∈ es, Describes e.prefixSummary e.language) {units : List UInt16}
    (hlength : units.length ≤ maxPrefixUnits) :
    Describes (prefixSummaryItems es ⟨units, true⟩) ({units} * languageAll es) := by
  induction es generalizing units with
  | nil =>
    rw [languageAll, mul_one]
    exact .of_eq_singleton hlength rfl
  | cons e es ihes =>
    have hfirst := ih e List.mem_cons_self
    have hbounded := @PrefixSummary.length_appendBounded units e.prefixSummary.units hlength
    rw [languageAll, ← mul_assoc, prefixSummaryItems_cons]
    split
    · -- the other items do not matter
      refine .of_isPrefix (by omega) (prefixOf_mul_left (fun word hword => ?_) _)
      exact (PrefixSummary.appendBounded_isPrefix _ _).trans
        (prefixOf_singleton_mul hfirst.isPrefix word hword)
    next hmore =>
      rw [not_or, not_or, Bool.not_eq_false, not_lt] at hmore
      obtain ⟨hexact, hwhole, -⟩ := hmore
      rw [hfirst.eq_singleton hexact, singleton_mul_singleton]
      exact ihes (fun e he => ih e (List.mem_cons_of_mem _ he)) (by rwa [List.length_append])

/-- The summary of the branches: the units are a beginning of those of every branch, and the
summary is exact when all branches are and have the same units. -/
theorem prefixSummaryShared_spec (es : List Hir) (summary : PrefixSummary) :
    (prefixSummaryShared es summary).units <+: summary.units ∧
      (∀ e ∈ es, (prefixSummaryShared es summary).units <+: e.prefixSummary.units) ∧
      ((prefixSummaryShared es summary).exact = true ↔
        summary.exact = true ∧
          ∀ e ∈ es, e.prefixSummary.exact = true ∧ e.prefixSummary.units = summary.units) := by
  induction es generalizing summary with
  | nil => exact ⟨List.prefix_refl _, by simp, by simp [prefixSummaryShared]⟩
  | cons e es ih =>
    have hshared := take_sharedCount summary.units e.prefixSummary.units
    rw [prefixSummaryShared]
    obtain ⟨hle, hall, hexact⟩ := ih
      ⟨summary.units.take (sharedCount summary.units e.prefixSummary.units),
        summary.exact && (e.prefixSummary.exact && e.prefixSummary.units == summary.units)⟩
    refine ⟨hle.trans (List.take_prefix _ _),
      List.forall_mem_cons.mpr ⟨hle.trans hshared, hall⟩, ?_⟩
    rw [hexact, Bool.and_eq_true, Bool.and_eq_true, beq_iff_eq, List.forall_mem_cons, and_assoc]
    -- units that agree are shared as a whole
    refine and_congr_right fun _ => and_congr_right fun hfirst => ?_
    rw [hfirst.2, sharedCount_self, List.take_length]

/-- Units that all branches have are kept as a whole. -/
theorem units_prefixSummaryShared {es : List Hir} {summary : PrefixSummary}
    (h : ∀ e ∈ es, e.prefixSummary.units = summary.units) :
    (prefixSummaryShared es summary).units = summary.units := by
  induction es generalizing summary with
  | nil => rfl
  | cons e es ih =>
    have hfirst := h e List.mem_cons_self
    have hkept : summary.units.take (sharedCount summary.units e.prefixSummary.units) =
        summary.units := by rw [hfirst, sharedCount_self, List.take_length]
    rw [prefixSummaryShared, hkept]
    exact ih fun e he => h e (List.mem_cons_of_mem _ he)

/-- Summaries are right about the language. -/
theorem describes_prefixSummary (h : Hir) : Describes h.prefixSummary h.language := by
  induction h with
  | never => exact .of_isPrefix (Nat.zero_le _) fun _ _ => List.nil_prefix
  | epsilon | assertion a => exact .of_eq_singleton (Nat.zero_le _) rfl
  | symbol s => exact .of_eq_singleton (Nat.le_add_left 1 31) rfl
  | predicate p => exact .of_isPrefix (Nat.zero_le _) fun _ _ => List.nil_prefix
  | sequence es ih =>
    have hitems := @describes_prefixSummaryItems es ih [] (Nat.zero_le _)
    have hnil : ({[]} : Language UInt16) = 1 := rfl
    rwa [hnil, one_mul] at hitems
  | alternation es ih =>
    cases es with
    | nil => exact .of_isPrefix (Nat.zero_le _) fun _ _ => List.nil_prefix
    | cons e es =>
      have hfirst := ih e List.mem_cons_self
      obtain ⟨hle, hall, hexact⟩ := prefixSummaryShared_spec es e.prefixSummary
      have hbranches : ∀ branch ∈ e :: es, (prefixSummaryShared es e.prefixSummary).units <+:
          branch.prefixSummary.units := List.forall_mem_cons.mpr ⟨hle, hall⟩
      rw [prefixSummary, prefixSummaryBranches, language]
      refine ⟨hle.length_le.trans hfirst.length_le, fun word hword => ?_, fun h => ?_⟩
      · obtain ⟨branch, hbranch, hword⟩ := mem_languageAny.mp hword
        exact (hbranches branch hbranch).trans ((ih branch hbranch).isPrefix word hword)
      · obtain ⟨hexactFirst, hexactRest⟩ := hexact.mp h
        have hsame : ∀ branch ∈ e :: es,
            branch.language = {(prefixSummaryShared es e.prefixSummary).units} := by
          rw [units_prefixSummaryShared fun branch hbranch => (hexactRest branch hbranch).2]
          refine List.forall_mem_cons.mpr
            ⟨hfirst.eq_singleton hexactFirst, fun branch hbranch => ?_⟩
          obtain ⟨hexactBranch, hunits⟩ := hexactRest branch hbranch
          rw [← hunits]
          exact (ih branch (List.mem_cons_of_mem _ hbranch)).eq_singleton hexactBranch
        apply Language.ext
        intro word
        rw [mem_languageAny]
        constructor
        · rintro ⟨branch, hbranch, hword⟩
          rwa [hsame branch hbranch] at hword
        · intro hword
          exact ⟨e, List.mem_cons_self, by rwa [hsame e List.mem_cons_self]⟩
  | repetition e least most ih =>
    rw [language]
    by_cases hleast : least = 0
    · subst hleast
      refine ⟨Nat.zero_le _, fun _ _ => List.nil_prefix, fun hexact => ?_⟩
      obtain rfl : most = some 0 := beq_iff_eq.mp hexact
      rw [iterate_exactly]
      rfl
    rw [prefixSummary_repetition hleast]
    split
    next hexact =>
      obtain ⟨hlength, hprefix, hends⟩ := @PrefixSummary.appendCopies_spec e.prefixSummary.units
        least most least [] (Nat.zero_le _)
      rw [List.nil_append] at hprefix hends
      rw [ih.eq_singleton hexact]
      refine ⟨hlength, fun word hword => ?_, fun h => ?_⟩
      · obtain ⟨M, hM⟩ := iterate_eq_mul _ (le_refl least) most word hword
        rw [singleton_pow] at hM
        obtain ⟨left, hleft, right, -, rfl⟩ := Language.mem_mul.mp hM
        obtain rfl := Set.mem_singleton_iff.mp hleft
        exact hprefix.trans (List.prefix_append _ _)
      · obtain ⟨hmost, hunits⟩ | ⟨hinexact, -⟩ := hends
        · obtain rfl : most = some least := beq_iff_eq.mp (hmost.symm.trans h)
          rw [iterate_exactly, singleton_pow, hunits]
        · rw [hinexact] at h
          cases h
    next =>
      -- the first copy is required
      refine .of_isPrefix ih.length_le fun word hword => ?_
      obtain ⟨M, hM⟩ := iterate_eq_mul e.language (Nat.pos_of_ne_zero hleast) most word hword
      rw [pow_one] at hM
      exact prefixOf_mul_left ih.isPrefix M word hM

/-! ### Summaries and literals -/

/-- No repetition is limited to no copies. -/
inductive PositiveLimits : Hir → Prop
  | never : PositiveLimits .never
  | epsilon : PositiveLimits .epsilon
  | assertion (a : Assertion) : PositiveLimits (.assertion a)
  | symbol (s : UInt16) : PositiveLimits (.symbol s)
  | predicate (p : SymbolPredicate) : PositiveLimits (.predicate p)
  | sequence {es : List Hir} : (∀ e ∈ es, PositiveLimits e) → PositiveLimits (.sequence es)
  | alternation {es : List Hir} : (∀ e ∈ es, PositiveLimits e) → PositiveLimits (.alternation es)
  | repetition {e : Hir} {least : ℕ} {most : Option ℕ} : (∀ limit ∈ most, 1 ≤ limit) →
      PositiveLimits e → PositiveLimits (.repetition e least most)

/-- `Hir::repeat` builds no repetition that is limited to no copies. -/
theorem PositiveLimits.mkRepeat {e : Hir} {least : ℕ} {most : Option ℕ} (h : PositiveLimits e) :
    PositiveLimits (Hir.mkRepeat e least most) := by
  rw [Hir.mkRepeat.eq_def]
  split
  · exact epsilon
  · exact epsilon
  · exact epsilon
  · exact never
  · exact h
  next hmost _ =>
    refine repetition (fun limit hlimit => ?_) h
    obtain rfl : most = some limit := hlimit
    exact Nat.one_le_iff_ne_zero.mpr fun hzero => hmost (by rw [hzero])

/-- How the summary of an expression and its literals go together: an exact summary is an exact
literal, an exact literal whose summary is not exact has been cut off, and the units are the
necessary prefix. -/
structure AgreesWithLiterals (h : Hir) : Prop where
  /-- An exact summary is an exact literal. -/
  literal_of_exact : h.prefixSummary.exact = true → h.exactLiteral = some h.prefixSummary.units
  /-- An exact literal has an exact summary, or one that was cut off. -/
  exact_or_full : h.exactLiteral.isSome = true →
    h.prefixSummary.exact = true ∨ h.prefixSummary.units.length = maxLiteralUnits
  /-- The units are the necessary prefix. -/
  units_eq : h.prefixSummary.units = h.necessaryPrefix

/-- The units are the exact literal, if there is one. -/
theorem AgreesWithLiterals.units_of_literal {h : Hir} (hagrees : AgreesWithLiterals h)
    {literal : List UInt16} (hexact : h.exactLiteral = some literal) :
    h.prefixSummary.units = literal := by
  rw [hagrees.units_eq, necessaryPrefix_of_exactLiteral hexact]

/-- A first item that is exact is appended. -/
theorem exactItems_cons_of_eq_some {e : Hir} {unit : List UInt16}
    (h : e.exactLiteral = some unit) (es : List Hir) (units : List UInt16) :
    exactItems (e :: es) units = exactItems es (appendBounded units unit) := by
  rw [exactItems, h]

/-- The first item of an exact sequence is exact. -/
theorem isSome_exactLiteral_of_cons {e : Hir} {es : List Hir} {units : List UInt16}
    (h : (exactItems (e :: es) units).isSome = true) : e.exactLiteral.isSome = true := by
  rw [exactItems] at h
  cases hunit : e.exactLiteral with
  | none => simp [hunit] at h
  | some unit => rfl

/-- The items of a sequence. As long as the loop goes on, the items have been exact in both
senses. -/
theorem agreesWithLiterals_items {es : List Hir} (ih : ∀ e ∈ es, AgreesWithLiterals e)
    {units : List UInt16} (hlength : units.length ≤ maxLiteralUnits) :
    ((prefixSummaryItems es ⟨units, true⟩).exact = true →
        exactItems es units = some (prefixSummaryItems es ⟨units, true⟩).units) ∧
      ((exactItems es units).isSome = true →
        (prefixSummaryItems es ⟨units, true⟩).exact = true ∨
          (prefixSummaryItems es ⟨units, true⟩).units.length = maxLiteralUnits) ∧
      (prefixSummaryItems es ⟨units, true⟩).units = necessaryItems es units := by
  induction es generalizing units with
  | nil => exact ⟨fun _ => rfl, fun _ => .inl rfl, rfl⟩
  | cons e es ihes =>
    have hfirst := ih e List.mem_cons_self
    have hbounded : (appendBounded units e.prefixSummary.units).length =
        min (units.length + e.prefixSummary.units.length) maxLiteralUnits :=
      PrefixSummary.length_appendBounded hlength
    rw [prefixSummaryItems_cons, necessaryItems, ← hfirst.units_eq]
    split
    next hstop =>
      -- the units are full, or the item is not exact in either sense
      have hfull : e.exactLiteral.isSome = true →
          (appendBounded units e.prefixSummary.units).length = maxLiteralUnits := by
        intro hliteral
        obtain hexact | hunits := hfirst.exact_or_full hliteral
        · rw [hexact] at hstop
          obtain hfalse | hlong | hfull := hstop
          · cases hfalse
          · exact hbounded.trans (Nat.min_eq_right hlong.le)
          · exact hfull.1
        · exact hbounded.trans (Nat.min_eq_right (by omega))
      refine ⟨fun hexact => absurd hexact Bool.false_ne_true,
        fun hsome => .inr (hfull (isSome_exactLiteral_of_cons hsome)), ?_⟩
      rw [if_pos]
      · rfl
      · rw [Bool.or_eq_true, decide_eq_true_eq, Option.isNone_iff_eq_none]
        exact (Option.eq_none_or_eq_some e.exactLiteral).imp_right fun hliteral =>
          hfull (Option.isSome_iff_exists.mpr hliteral)
    next hmore =>
      rw [not_or, not_or, Bool.not_eq_false, not_lt] at hmore
      obtain ⟨hexact, hwhole, hlast⟩ := hmore
      have happend : appendBounded units e.prefixSummary.units = units ++ e.prefixSummary.units :=
        PrefixSummary.appendBounded_of_le hwhole
      have hliteral := hfirst.literal_of_exact hexact
      obtain ⟨hitems, hfull, hunits⟩ := @ihes (fun e he => ih e (List.mem_cons_of_mem _ he))
        (units ++ e.prefixSummary.units) (by rwa [List.length_append])
      rw [exactItems_cons_of_eq_some hliteral, happend, hliteral, Option.isNone_some,
        Bool.false_or]
      refine ⟨hitems, hfull, ?_⟩
      split
      next hends =>
        -- only behind the last item may the units be full
        rw [decide_eq_true_eq, ← happend] at hends
        obtain rfl : es = [] := by_contra fun hne => hlast ⟨hends, hne⟩
        rfl
      next => exact hunits

/-- The other branches of an alternation have the same units for both recursions. -/
theorem units_eq_necessaryShared {es : List Hir} (ih : ∀ e ∈ es, AgreesWithLiterals e)
    (summary : PrefixSummary) :
    (prefixSummaryShared es summary).units = necessaryShared summary.units es := by
  induction es generalizing summary with
  | nil => rfl
  | cons e es ihes =>
    have hrest := ihes fun e he => ih e (List.mem_cons_of_mem _ he)
    rw [prefixSummaryShared, necessaryShared, ← (ih e List.mem_cons_self).units_eq, hrest]
    split
    next hempty =>
      -- nothing is left that the other branches could shorten
      rw [List.isEmpty_iff] at hempty
      rw [hempty]
      exact List.prefix_nil.mp (prefixOf_necessaryShared [] es).1
    next => rfl

/-- The branches of an alternation. -/
theorem agreesWithLiterals_branches {es : List Hir} (ih : ∀ e ∈ es, AgreesWithLiterals e) :
    AgreesWithLiterals (.alternation es) := by
  cases es with
  | nil => exact ⟨(fun h => nomatch h), (fun h => nomatch h), rfl⟩
  | cons e es =>
    have hfirst := ih e List.mem_cons_self
    have hrest : ∀ e ∈ es, AgreesWithLiterals e := fun e he => ih e (List.mem_cons_of_mem _ he)
    have hexact := (prefixSummaryShared_spec es e.prefixSummary).2.2
    -- a summary is exact if that of each branch is and all have the same units
    refine ⟨fun h => ?_, fun h => ?_, ?_⟩
    · obtain ⟨hexactFirst, hexactRest⟩ := hexact.mp h
      have hbranches : exactBranchesAre e.prefixSummary.units es = true := by
        refine exactBranchesAre_iff.mpr fun branch hbranch => ?_
        obtain ⟨hexactBranch, hunits⟩ := hexactRest branch hbranch
        rw [(hrest branch hbranch).literal_of_exact hexactBranch, hunits]
      show exactBranches (e :: es) = some (prefixSummaryShared es e.prefixSummary).units
      rw [exactBranches, hfirst.literal_of_exact hexactFirst,
        units_prefixSummaryShared fun branch hbranch => (hexactRest branch hbranch).2]
      exact if_pos hbranches
    -- one literal for all branches makes their summaries have its units
    · obtain ⟨literal, hliteral⟩ := Option.isSome_iff_exists.mp h
      obtain ⟨-, hall⟩ := exactBranches_eq_some hliteral
      have hunits : ∀ branch ∈ e :: es, branch.prefixSummary.units = literal :=
        fun branch hbranch => (ih branch hbranch).units_of_literal (hall branch hbranch)
      have hsame : ∀ branch ∈ es, branch.prefixSummary.units = e.prefixSummary.units := by
        intro branch hbranch
        rw [hunits e List.mem_cons_self, hunits branch (List.mem_cons_of_mem _ hbranch)]
      have hkept : (alternation (e :: es)).prefixSummary.units = literal :=
        (units_prefixSummaryShared hsame).trans (hunits e List.mem_cons_self)
      by_cases hlength : literal.length = maxLiteralUnits
      · exact .inr (by rw [hkept, hlength])
      · -- literals that were not cut off come from exact summaries
        have hall : ∀ branch ∈ e :: es, branch.prefixSummary.exact = true := by
          intro branch hbranch
          have hsome : branch.exactLiteral.isSome = true := by rw [hall branch hbranch]; rfl
          refine ((ih branch hbranch).exact_or_full hsome).resolve_right fun hfull => hlength ?_
          rw [← hunits branch hbranch, hfull]
        exact .inl (hexact.mpr ⟨hall e List.mem_cons_self, fun branch hbranch =>
          ⟨hall branch (List.mem_cons_of_mem _ hbranch), hsame branch hbranch⟩⟩)
    · show (prefixSummaryShared es e.prefixSummary).units = necessaryShared e.necessaryPrefix es
      rw [units_eq_necessaryShared hrest, hfirst.units_eq]

/-- Repetitions whose limit is not zero. -/
theorem agreesWithLiterals_repetition {e : Hir} {least : ℕ} {most : Option ℕ}
    (hmost : ∀ limit ∈ most, 1 ≤ limit) (hbody : AgreesWithLiterals e) :
    AgreesWithLiterals (.repetition e least most) := by
  by_cases hleast : least = 0
  · subst hleast
    have hne : most ≠ some 0 := fun hzero => absurd (hmost 0 hzero) (by decide)
    refine ⟨fun h => absurd (beq_iff_eq.mp h) hne, fun h => ?_, rfl⟩
    -- without required copies only the limit zero leaves a literal
    cases most with
    | none => cases h
    | some limit =>
      rw [exactLiteral, if_neg fun hzero => hne (by rw [← hzero])] at h
      cases h
  have hlimits : (repetition e least most).exactLiteral.isSome = true →
      most = some least ∧ e.exactLiteral.isSome = true := by
    intro hsome
    cases most with
    | none => cases hsome
    | some limit =>
      rw [exactLiteral] at hsome
      split at hsome
      next heq => exact ⟨by rw [heq], by rwa [Option.isSome_map] at hsome⟩
      next => cases hsome
  have hnecessary : ∀ literal, e.exactLiteral = some literal →
      (repetition e least most).necessaryPrefix = appendRepeated literal least [] := by
    intro literal hliteral
    rw [necessaryPrefix, if_pos (Nat.pos_of_ne_zero hleast), hliteral]
    exact appendRepeatedBounded_eq literal least []
  by_cases hexact : e.prefixSummary.exact = true
  · have hliteral := hbody.literal_of_exact hexact
    have hsummary : (repetition e least most).prefixSummary =
        .appendCopies e.prefixSummary.units least most least [] := by
      rw [prefixSummary_repetition hleast, if_pos hexact]
    have hunits : (repetition e least most).prefixSummary.units =
        appendRepeated e.prefixSummary.units least [] := by
      rw [hsummary, PrefixSummary.units_appendCopies least (Nat.zero_le _)]
    obtain ⟨-, -, hends⟩ := @PrefixSummary.appendCopies_spec e.prefixSummary.units least most
      least [] (Nat.zero_le _)
    rw [← hsummary] at hends
    refine ⟨fun h => ?_, fun h => ?_, ?_⟩
    · obtain ⟨hends, -⟩ | ⟨hinexact, -⟩ := hends
      · obtain rfl : most = some least := beq_iff_eq.mp (hends.symm.trans h)
        rw [exactLiteral, if_pos rfl, hliteral, Option.map_some, hunits]
      · rw [hinexact] at h
        cases h
    · obtain ⟨hends, -⟩ | ⟨-, hfull⟩ := hends
      · exact .inl (hends.trans (beq_iff_eq.mpr (hlimits h).1))
      · exact .inr hfull
    · rw [hunits, hnecessary _ hliteral]
  · have hsummary : (repetition e least most).prefixSummary = ⟨e.prefixSummary.units, false⟩ := by
      rw [prefixSummary_repetition hleast, if_neg hexact]
    have hfull : e.exactLiteral.isSome = true → e.prefixSummary.units.length = maxLiteralUnits :=
      fun hsome => (hbody.exact_or_full hsome).resolve_left hexact
    refine ⟨fun h => ?_, fun h => .inr ?_, ?_⟩
    · rw [hsummary] at h
      cases h
    · rw [hsummary]
      exact hfull (hlimits h).2
    · rw [hsummary]
      cases hunit : e.exactLiteral with
      | none =>
        rw [necessaryPrefix, if_pos (Nat.pos_of_ne_zero hleast), hunit]
        exact hbody.units_eq
      | some literal =>
        have hunits : e.prefixSummary.units = literal := hbody.units_of_literal hunit
        have hlength : literal.length = maxLiteralUnits := by
          rw [← hunits]
          exact hfull (by rw [hunit]; rfl)
        obtain ⟨copies, rfl⟩ : ∃ copies, least = copies + 1 :=
          Nat.exists_eq_succ_of_ne_zero hleast
        have hcopy : appendBounded [] literal = literal := by
          rw [appendBounded, List.nil_append]
          exact List.take_of_length_le (by rw [hlength]; exact le_rfl)
        -- the first copy is full, so the others append nothing
        rw [hnecessary literal hunit, appendRepeated, hcopy, appendRepeated_of_length_eq hlength]
        exact hunits

/-- Summaries and literals go together on expressions without assertions. -/
theorem agreesWithLiterals {h : Hir} (hlimits : h.PositiveLimits)
    (hfree : h.usesAssertions = false) : AgreesWithLiterals h := by
  induction h with
  | never => exact ⟨(fun h => nomatch h), (fun h => nomatch h), rfl⟩
  | epsilon => exact ⟨fun _ => rfl, fun _ => .inl rfl, rfl⟩
  | assertion a => cases hfree
  | symbol s => exact ⟨fun _ => rfl, fun _ => .inl rfl, rfl⟩
  -- a class is read by no literal, and its summary is empty and not exact
  | predicate p => exact ⟨(fun h => nomatch h), (fun h => nomatch h), rfl⟩
  | sequence es ih =>
    cases hlimits with
    | sequence hes =>
      rw [usesAssertions, anyUsesAssertions_eq_any, List.any_eq_false] at hfree
      obtain ⟨hliteral, hfull, hunits⟩ := @agreesWithLiterals_items es
        (fun e he => ih e he (hes e he) (Bool.eq_false_iff.mpr (hfree e he))) [] (Nat.zero_le _)
      exact ⟨hliteral, hfull, hunits⟩
  | alternation es ih =>
    cases hlimits with
    | alternation hes =>
      rw [usesAssertions, anyUsesAssertions_eq_any, List.any_eq_false] at hfree
      have hall : ∀ e ∈ es, AgreesWithLiterals e := fun e he =>
        ih e he (hes e he) (Bool.eq_false_iff.mpr (hfree e he))
      exact agreesWithLiterals_branches hall
  | repetition e least most ih =>
    cases hlimits with
    | repetition hmost he =>
      exact agreesWithLiterals_repetition hmost (ih he hfree)

end Hir

/-- The prefix summary of the diagnostics is right about the language: it has at most 32 units,
every word begins with them, and when it is exact they are the only word. On expressions without
assertions its units are the necessary prefix of the prefilter. -/
theorem prefix_summary_agrees_with_necessary_literal (h : Hir) (hlimits : h.PositiveLimits) :
    (h.prefixSummary.units.length ≤ 32 ∧ (∀ word ∈ h.language, h.prefixSummary.units <+: word) ∧
        (h.prefixSummary.exact = true → h.language = {h.prefixSummary.units})) ∧
      (h.usesAssertions = false → h.prefixSummary.units = h.necessaryPrefix) := by
  have hdescribes := h.describes_prefixSummary
  exact ⟨⟨hdescribes.length_le, hdescribes.isPrefix, hdescribes.eq_singleton⟩,
    fun hfree => (Hir.agreesWithLiterals hlimits hfree).units_eq⟩

/-- `^a{40}`: the copies are cut off behind 32 units. -/
theorem prefix_summary_agrees_with_necessary_literal_repeated :
    (∀ word ∈ (Hir.sequence [.assertion .lineStart, .repetition (.symbol 0x61) 40 none]).language,
        (Hir.sequence [.assertion .lineStart,
          .repetition (.symbol 0x61) 40 none]).prefixSummary.units <+: word) ∧
      (Hir.repetition (.symbol 0x61) 40 none).prefixSummary.units =
        (Hir.repetition (.symbol 0x61) 40 none).necessaryPrefix := by
  have hcopies : (Hir.repetition (.symbol 0x61) 40 none).PositiveLimits :=
    .repetition nofun (.symbol 0x61)
  have hitems : (Hir.sequence [.assertion .lineStart,
      .repetition (.symbol 0x61) 40 none]).PositiveLimits :=
    .sequence (List.forall_mem_cons.mpr ⟨.assertion _, List.forall_mem_singleton.mpr hcopies⟩)
  exact ⟨(prefix_summary_agrees_with_necessary_literal _ hitems).1.2.1,
    (prefix_summary_agrees_with_necessary_literal _ hcopies).2 rfl⟩

/-- Without the condition on the limits the two recursions differ: `Hir::repeat` never builds the
repetition here. -/
example :
    (Hir.sequence [.repetition (.predicate .empty) 0 (some 0),
      .symbol 0x61]).prefixSummary.units ≠
    (Hir.sequence [.repetition (.predicate .empty) 0 (some 0), .symbol 0x61]).necessaryPrefix := by
  decide

end Rustmatch

import Rustmatch.Hir.Language
import Rustmatch.Prefilter.NecessaryPrefix

/-!
# Literals and the language

The necessary prefix of an expression is a beginning of every word of its language, and an exact
literal is its only word, as far as literals are kept. Literals are cut off at
`maxLiteralUnits`, so an exact literal of that length only says how the words begin.

The runs of the compiled database are treated in `Rustmatch.Prefilter.NecessaryPrefix`; here the
same functions are compared with the language, where runs do not stray.

## Main definitions

* `Spelled`: a language whose words are one literal, as far as literals are kept.

## Main results

* `spelled_of_exactLiteral`: exact literals;
* `prefixOf_necessaryPrefix`: necessary prefixes;
* `necessary_literals_are_sound`: both.
-/

open LanguageLengths

namespace Rustmatch

/-- There are words, and all of them are `literal` as far as literals are kept. -/
structure Spelled (L : Language UInt16) (literal : List UInt16) : Prop where
  /-- There is a word. -/
  ne_zero : L ≠ 0
  /-- The literal is every word, as far as literals are kept. -/
  take_eq : ∀ word ∈ L, word.take maxLiteralUnits = literal

namespace Spelled

variable {L M : Language UInt16} {a b literal : List UInt16}

/-- A literal keeps to the limit. -/
theorem length_le (h : Spelled L literal) : literal.length ≤ maxLiteralUnits := by
  obtain ⟨word, hword⟩ := ne_zero_iff.mp h.ne_zero
  rw [← h.take_eq word hword]
  exact List.length_take_le _ _

/-- Every word begins with the literal. -/
theorem isPrefix (h : Spelled L literal) : ∀ word ∈ L, literal <+: word := by
  intro word hword
  rw [← h.take_eq word hword]
  exact List.take_prefix _ _

/-- A literal that was not cut off is the only word. -/
theorem eq_singleton (h : Spelled L literal) (hlt : literal.length < maxLiteralUnits) :
    L = {literal} := by
  have hall : ∀ word ∈ L, word = literal := by
    intro word hword
    have htake := h.take_eq word hword
    have hlength := congrArg List.length htake
    rw [List.length_take] at hlength
    rwa [List.take_of_length_le (by omega)] at htake
  obtain ⟨word, hword⟩ := ne_zero_iff.mp h.ne_zero
  apply Language.ext
  intro other
  constructor
  · exact hall other
  · rintro rfl
    rwa [← hall word hword]

/-- The empty word is spelled by the empty literal. -/
theorem one : Spelled 1 [] := by
  refine ⟨ne_zero_iff.mpr ⟨[], Language.nil_mem_one⟩, fun word hword => ?_⟩
  rw [(Language.mem_one word).mp hword]
  rfl

/-- A product is spelled by both literals, cut off at the limit. -/
theorem mul (hL : Spelled L a) (hM : Spelled M b) : Spelled (L * M) (appendBounded a b) := by
  refine ⟨mul_ne_zero_iff_both.mpr ⟨hL.ne_zero, hM.ne_zero⟩, fun word hword => ?_⟩
  obtain ⟨left, hleft, right, hright, rfl⟩ := Language.mem_mul.mp hword
  obtain rfl := hL.take_eq left hleft
  obtain rfl := hM.take_eq right hright
  rw [appendBounded, List.take_append, List.take_take, List.length_take]
  congr 2
  omega

/-- Copies of a literal behind another one. -/
theorem mul_pow (hL : Spelled L a) (hM : Spelled M b) (n : ℕ) :
    Spelled (L * M ^ n) (appendRepeated b n a) := by
  induction n generalizing L a with
  | zero =>
    rw [pow_zero, mul_one]
    exact hL
  | succ n ih =>
    rw [pow_succ', ← mul_assoc]
    exact ih (hL.mul hM)

/-- A beginning behind a literal. -/
theorem prefixOf_mul (hL : Spelled L a) (hM : ∀ word ∈ M, b <+: word) :
    ∀ word ∈ L * M, appendBounded a b <+: word := by
  intro word hword
  obtain ⟨left, hleft, right, hright, rfl⟩ := Language.mem_mul.mp hword
  obtain ⟨tail, rfl⟩ := hM right hright
  obtain rfl := hL.take_eq left hleft
  rw [appendBounded, List.length_take]
  by_cases hshort : left.length ≤ maxLiteralUnits
  · rw [List.take_of_length_le hshort]
    exact (List.prefix_append_right_inj left).mpr
      ((List.take_prefix _ _).trans (List.prefix_append _ _))
  · have hnone : maxLiteralUnits - min maxLiteralUnits left.length = 0 := by omega
    rw [hnone, List.take_zero, List.append_nil]
    exact (List.take_prefix _ _).trans (List.prefix_append _ _)

end Spelled

/-- What follows a beginning does not matter. -/
theorem prefixOf_mul_left {L : Language UInt16} {a : List UInt16} (h : ∀ word ∈ L, a <+: word)
    (M : Language UInt16) : ∀ word ∈ L * M, a <+: word := by
  intro word hword
  obtain ⟨left, hleft, right, -, rfl⟩ := Language.mem_mul.mp hword
  exact (h left hleft).trans (List.prefix_append _ _)

namespace Hir

/-! ### Exact literals -/

/-- The items of a sequence, behind a literal. -/
theorem spelled_exactItems {es : List Hir}
    (ih : ∀ e ∈ es, ∀ literal, e.exactLiteral = some literal → Spelled e.language literal)
    {L : Language UInt16} {a literal : List UInt16} (hL : Spelled L a)
    (h : exactItems es a = some literal) : Spelled (L * languageAll es) literal := by
  induction es generalizing L a with
  | nil =>
    rw [exactItems, Option.some.injEq] at h
    rw [languageAll, mul_one, ← h]
    exact hL
  | cons e es ihes =>
    rw [exactItems] at h
    cases hunit : e.exactLiteral with
    | none => simp [hunit] at h
    | some unit =>
      simp only [hunit] at h
      have hfirst := ih e List.mem_cons_self unit hunit
      rw [languageAll, ← mul_assoc]
      exact ihes (fun e he => ih e (List.mem_cons_of_mem _ he)) (hL.mul hfirst) h

/-- A number of copies without choice. -/
theorem iterate_exactly (L : Language UInt16) (n : ℕ) : iterate L n (some n) = L ^ n := by
  apply Language.ext
  intro word
  constructor
  · rintro ⟨m, hmin, hmax, hm⟩
    rwa [le_antisymm (hmax n rfl) hmin] at hm
  · intro hn
    refine ⟨n, le_refl n, fun limit hlimit => ?_, hn⟩
    rw [Option.some.inj hlimit]

/-- The words of an exact literal are that literal, as far as literals are kept. -/
theorem spelled_of_exactLiteral {h : Hir} {literal : List UInt16}
    (hexact : h.exactLiteral = some literal) : Spelled h.language literal := by
  induction h generalizing literal with
  | never => cases hexact
  | epsilon =>
    obtain rfl := Option.some.inj hexact
    exact Spelled.one
  | assertion a => cases hexact
  | symbol s =>
    obtain rfl := Option.some.inj hexact
    refine ⟨ne_zero_iff.mpr ⟨[s], mem_language_symbol.mpr rfl⟩, fun word hword => ?_⟩
    rw [mem_language_symbol.mp hword]
    rfl
  | predicate p => cases hexact
  | sequence es ih =>
    have hitems := spelled_exactItems (fun e he literal => ih e he) Spelled.one hexact
    rwa [one_mul] at hitems
  | alternation es ih =>
    -- all branches spell the same literal, and there is one
    obtain ⟨hne, hall⟩ := exactBranches_eq_some hexact
    rw [language]
    obtain ⟨e, he⟩ := List.exists_mem_of_ne_nil es hne
    obtain ⟨word, hword⟩ := ne_zero_iff.mp (ih e he (hall e he)).ne_zero
    refine ⟨ne_zero_iff.mpr ⟨word, mem_languageAny.mpr ⟨e, he, hword⟩⟩, fun word hword => ?_⟩
    obtain ⟨e, he, hword⟩ := mem_languageAny.mp hword
    exact (ih e he (hall e he)).take_eq word hword
  | repetition e min max ih =>
    cases max with
    | none => cases hexact
    | some max =>
      rw [exactLiteral] at hexact
      split at hexact
      next heq =>
        subst heq
        obtain ⟨unit, hunit, rfl⟩ := Option.map_eq_some_iff.mp hexact
        -- an exact count repeats the literal
        have hcopies := Spelled.one.mul_pow (ih hunit) min
        rw [one_mul] at hcopies
        rwa [language, iterate_exactly]
      next => cases hexact

/-! ### Necessary prefixes -/

/-- The items of a sequence, behind a literal. -/
theorem prefixOf_necessaryItems {es : List Hir}
    (ih : ∀ e ∈ es, ∀ word ∈ e.language, e.necessaryPrefix <+: word) {L : Language UInt16}
    {a : List UInt16} (hL : Spelled L a) :
    ∀ word ∈ L * languageAll es, necessaryItems es a <+: word := by
  induction es generalizing L a with
  | nil =>
    rw [languageAll, mul_one]
    exact hL.isPrefix
  | cons e es ihes =>
    have hfirst := hL.prefixOf_mul (ih e List.mem_cons_self)
    rw [languageAll, ← mul_assoc, necessaryItems]
    split
    · -- the prefix ends here, the other items do not matter
      exact prefixOf_mul_left hfirst _
    next hmore =>
      rw [Bool.or_eq_true, not_or] at hmore
      obtain ⟨unit, hunit⟩ : ∃ unit, e.exactLiteral = some unit :=
        Option.ne_none_iff_exists'.mp (by simpa using hmore.1)
      rw [necessaryPrefix_of_exactLiteral hunit]
      exact ihes (fun e he => ih e (List.mem_cons_of_mem _ he))
        (hL.mul (spelled_of_exactLiteral hunit))

/-- The required copies come first. -/
theorem iterate_eq_mul (L : Language UInt16) {min n : ℕ} (hle : n ≤ min) (max : Option ℕ) :
    ∀ word ∈ iterate L min max, ∃ M : Language UInt16, word ∈ L ^ n * M := by
  rintro word ⟨m, hmin, -, hm⟩
  refine ⟨L ^ (m - n), ?_⟩
  rwa [← pow_add, Nat.add_sub_cancel' (hle.trans hmin)]

/-- Every word begins with the necessary prefix. -/
theorem prefixOf_necessaryPrefix (h : Hir) : ∀ word ∈ h.language, h.necessaryPrefix <+: word := by
  induction h with
  | never => exact fun word hword => absurd hword (Language.notMem_zero word)
  | epsilon => exact fun _ _ => List.nil_prefix
  | assertion a => exact fun _ _ => List.nil_prefix
  | symbol s =>
    intro word hword
    rw [mem_language_symbol.mp hword]
    exact List.prefix_refl _
  | predicate p => exact fun _ _ => List.nil_prefix
  | sequence es ih =>
    have hitems := prefixOf_necessaryItems ih Spelled.one
    rwa [one_mul] at hitems
  | alternation es ih =>
    intro word hword
    obtain ⟨e, he, hword⟩ := mem_languageAny.mp hword
    exact (prefixOf_necessaryBranches e he).trans (ih e he word hword)
  | repetition e min max ih =>
    intro word hword
    rw [necessaryPrefix]
    split
    next hmin =>
      cases hunit : e.exactLiteral with
      | some unit =>
        -- all required copies spell the literal, whatever follows
        obtain ⟨M, hM⟩ := iterate_eq_mul e.language (le_refl min) max word hword
        have hcopies := Spelled.one.mul_pow (spelled_of_exactLiteral hunit) min
        rw [one_mul] at hcopies
        show appendRepeatedBounded unit min [] <+: word
        rw [appendRepeatedBounded_eq]
        exact prefixOf_mul_left hcopies.isPrefix M word hM
      | none =>
        -- only the first copy is known
        obtain ⟨M, hM⟩ := iterate_eq_mul e.language hmin max word hword
        rw [pow_one] at hM
        exact prefixOf_mul_left ih M word hM
    next => exact List.nil_prefix

/-! ### Lengths -/

/-- What is appended keeps to the limit. -/
theorem length_appendBounded_le {a b : List UInt16} (h : a.length ≤ maxLiteralUnits) :
    (appendBounded a b).length ≤ maxLiteralUnits := by
  rw [appendBounded, List.length_append, List.length_take]
  omega

/-- What is appended repeatedly keeps to the limit. -/
theorem length_appendRepeated_le {a b : List UInt16} (h : a.length ≤ maxLiteralUnits) (n : ℕ) :
    (appendRepeated b n a).length ≤ maxLiteralUnits := by
  induction n generalizing a with
  | zero => exact h
  | succ n ih => exact ih (length_appendBounded_le h)

/-- The necessary prefix of items keeps to the limit. -/
theorem length_necessaryItems_le (es : List Hir) {a : List UInt16}
    (h : a.length ≤ maxLiteralUnits) : (necessaryItems es a).length ≤ maxLiteralUnits := by
  induction es generalizing a with
  | nil => exact h
  | cons e es ih =>
    rw [necessaryItems]
    split
    · exact length_appendBounded_le h
    · exact ih (length_appendBounded_le h)

/-- Necessary prefixes are cut off. -/
theorem length_necessaryPrefix_le (h : Hir) : h.necessaryPrefix.length ≤ maxLiteralUnits := by
  induction h with
  | never | epsilon | assertion _ | predicate _ => exact Nat.zero_le _
  | symbol s => exact Nat.le_add_left 1 31
  | sequence es ih => exact length_necessaryItems_le es (Nat.zero_le _)
  | alternation es ih =>
    cases es with
    | nil => exact Nat.zero_le _
    | cons e es =>
      exact (prefixOf_necessaryBranches e List.mem_cons_self).length_le.trans
        (ih e List.mem_cons_self)
  | repetition e min max ih =>
    rw [necessaryPrefix]
    split
    · cases e.exactLiteral with
      | some unit =>
        show (appendRepeatedBounded unit min []).length ≤ maxLiteralUnits
        rw [appendRepeatedBounded_eq]
        exact length_appendRepeated_le (Nat.zero_le _) min
      | none => exact ih
    · exact Nat.zero_le _

end Hir

/-- Necessary prefixes have at most 32 units and begin every word of the language. An exact literal
has at most 32 units and begins every word, and when it is shorter it is the only word. The
expressions may have assertions, which the language takes for the empty word. -/
theorem necessary_literals_are_sound (h : Hir) :
    (h.necessaryPrefix.length ≤ 32 ∧ ∀ word ∈ h.language, h.necessaryPrefix <+: word) ∧
      ∀ literal, h.exactLiteral = some literal →
        literal.length ≤ 32 ∧ (∀ word ∈ h.language, literal <+: word) ∧
          (literal.length < 32 → h.language = {literal}) := by
  refine ⟨⟨h.length_necessaryPrefix_le, h.prefixOf_necessaryPrefix⟩, fun literal hexact => ?_⟩
  have hspelled := Hir.spelled_of_exactLiteral hexact
  exact ⟨hspelled.length_le, hspelled.isPrefix, hspelled.eq_singleton⟩

end Rustmatch

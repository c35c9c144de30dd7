import Rustmatch.Hir.Normal
import Rustmatch.Parser.Classes
import Rustmatch.ToMathlib.LanguageLengths

/-!
# The language of an expression

The words that an expression stands for once its assertions are taken for the empty word. Where all
assertions hold, the denotation consumes exactly these words (`denote_eq_leads`).

The analyses of `hir.rs` answer three questions about the language: whether it has the empty word,
how long its shortest word is, and whether it has a nonempty word. The parser refuses a pattern as
zero-width when the language has the empty word only.

## Main definitions

* `Hir.language`: the language;
* `Hir.Valid`: predicates are canonical and repetitions have their bounds in order.

## Main results

* `denote_eq_leads`: the language and the denotation;
* `language_mkSequence`, `language_mkAlternation`, `language_mkRepeat`: normalization;
* `Valid.analyses`: what the three analyses compute;
* `analyses_are_exact`: the same, with the zero-width test of the parser.
-/

open Relation LanguageLengths

namespace Rustmatch

namespace Hir

mutual

/-- The words of an expression; assertions stand for the empty word. -/
def language : Hir → Language UInt16
  | .never => 0
  | .epsilon | .assertion _ => 1
  | .symbol s => {[s]}
  | .predicate p => {word | ∃ unit, p.matches unit = true ∧ word = [unit]}
  | .sequence expressions => languageAll expressions
  | .alternation expressions => languageAny expressions
  | .repetition expression min max => iterate (language expression) min max

/-- The words of all the items, one after the other. -/
def languageAll : List Hir → Language UInt16
  | [] => 1
  | item :: rest => language item * languageAll rest

/-- The words of the branches. -/
def languageAny : List Hir → Language UInt16
  | [] => 0
  | branch :: rest => language branch + languageAny rest

end

/-- A class matches the words of one of its units. -/
theorem mem_language_predicate {p : SymbolPredicate} {word : List UInt16} :
    word ∈ language (.predicate p) ↔ ∃ unit, p.matches unit = true ∧ word = [unit] := by
  rw [language]
  rfl

/-- A symbol matches the word of that unit. -/
theorem mem_language_symbol {s : UInt16} {word : List UInt16} :
    word ∈ language (.symbol s) ↔ word = [s] := by
  rw [language]
  rfl

/-- A word matches one of the branches. -/
theorem mem_languageAny {es : List Hir} {word : List UInt16} :
    word ∈ languageAny es ↔ ∃ e ∈ es, word ∈ e.language := by
  induction es with
  | nil => simp [languageAny]
  | cons e es ih => rw [languageAny, Language.mem_add, ih, List.exists_mem_cons_iff]

/-! ### The language and the denotation -/

section Denotation

/-- `word` stands behind `c` and is consumed on the way to `d`. -/
def Consumed (R : Reading) (c d : Config) (word : List UInt16) : Prop :=
  word <+: R.input.drop c.1 ∧ d = (c.1 + word.length, c.2 || !word.isEmpty)

variable {R : Reading} {c d e : Config} {word rest : List UInt16}

/-- The empty word is consumed without a step. -/
theorem consumed_nil : Consumed R c d [] ↔ c = d := by
  unfold Consumed
  simp [eq_comm]

/-- A word is consumed in two parts. -/
theorem consumed_append :
    Consumed R c e (word ++ rest) ↔ ∃ d, Consumed R c d word ∧ Consumed R d e rest := by
  unfold Consumed
  constructor
  · rintro ⟨⟨tail, htail⟩, rfl⟩
    refine ⟨_, ⟨⟨rest ++ tail, ?_⟩, rfl⟩, ⟨tail, ?_⟩, ?_⟩
    · rw [← List.append_assoc, htail]
    · rw [← List.drop_drop, ← htail, List.append_assoc, List.drop_left]
    · rw [List.length_append, ← Nat.add_assoc]
      cases word <;> simp
  · rintro ⟨d, ⟨⟨tail, htail⟩, rfl⟩, ⟨tail', htail'⟩, rfl⟩
    refine ⟨⟨tail', ?_⟩, ?_⟩
    · rw [← List.drop_drop, ← htail, List.drop_left] at htail'
      rw [List.append_assoc, htail', htail]
    · rw [List.length_append, ← Nat.add_assoc]
      cases word <;> simp

/-- One unit is consumed where it stands. -/
theorem consumed_singleton {unit : UInt16} :
    Consumed R c d [unit] ↔ R.input[c.1]? = some unit ∧ d = (c.1 + 1, true) := by
  unfold Consumed
  refine and_congr ?_ (by simp)
  constructor
  · rintro ⟨tail, htail⟩
    have hget : (R.input.drop c.1)[0]? = some unit := by
      rw [← htail]
      rfl
    rwa [List.getElem?_drop, Nat.add_zero] at hget
  · intro hget
    obtain ⟨hlt, rfl⟩ := List.getElem?_eq_some_iff.mp hget
    exact ⟨R.input.drop (c.1 + 1), (List.drop_eq_getElem_cons hlt).symm⟩

/-- The words of a language that are consumed between two configurations. -/
def Leads (R : Reading) (L : Language UInt16) (c d : Config) : Prop :=
  ∃ word ∈ L, Consumed R c d word

/-- No word leads anywhere. -/
theorem leads_zero : Leads R 0 = ⊥ := by
  ext c d
  exact iff_of_false (fun ⟨word, hword, _⟩ => Language.notMem_zero word hword) id

/-- The empty word leads nowhere else. -/
theorem leads_one : Leads R 1 = Eq := by
  ext c d
  unfold Leads
  simp only [Language.mem_one, exists_eq_left, consumed_nil]

/-- A word of either language leads on. -/
theorem leads_add (L M : Language UInt16) : Leads R (L + M) = Leads R L ⊔ Leads R M := by
  ext c d
  change (∃ word ∈ L + M, _) ↔ (∃ word ∈ L, _) ∨ (∃ word ∈ M, _)
  simp only [Language.mem_add, or_and_right, exists_or]

/-- A word of the product leads on in two steps. -/
theorem leads_mul (L M : Language UInt16) : Leads R (L * M) = Comp (Leads R L) (Leads R M) := by
  ext c e
  constructor
  · rintro ⟨word, hword, hconsumed⟩
    obtain ⟨left, hleft, right, hright, rfl⟩ := Language.mem_mul.mp hword
    obtain ⟨d, hcd, hde⟩ := consumed_append.mp hconsumed
    exact ⟨d, ⟨left, hleft, hcd⟩, right, hright, hde⟩
  · rintro ⟨d, ⟨left, hleft, hcd⟩, right, hright, hde⟩
    exact ⟨left ++ right, Language.append_mem_mul hleft hright, consumed_append.mpr ⟨d, hcd, hde⟩⟩

/-- A word of a power leads on in so many steps. -/
theorem leads_pow (L : Language UInt16) (n : ℕ) : Leads R (L ^ n) = power (Leads R L) n := by
  induction n with
  | zero => rw [pow_zero, leads_one, power_zero]
  | succ n ih => rw [pow_succ', leads_mul, ih, power_succ]

/-- The iterations of a language lead on by iterations. -/
theorem leads_iterate (L : Language UInt16) (min : ℕ) (max : Option ℕ) :
    Leads R (iterate L min max) = Iterations (Leads R L) min max := by
  ext c d
  unfold Iterations
  simp only [← leads_pow]
  constructor
  · rintro ⟨word, ⟨n, hmin, hmax, hn⟩, hconsumed⟩
    exact ⟨n, hmin, hmax, word, hn, hconsumed⟩
  · rintro ⟨n, hmin, hmax, word, hn, hconsumed⟩
    exact ⟨word, ⟨n, hmin, hmax, hn⟩, hconsumed⟩

/-- The words of one unit. -/
theorem leads_units {L : Language UInt16} {accepts : UInt16 → Bool}
    (h : ∀ word, word ∈ L ↔ ∃ unit, accepts unit = true ∧ word = [unit]) :
    Leads R L = R.Consumes accepts := by
  ext c d
  constructor
  · rintro ⟨word, hword, hconsumed⟩
    obtain ⟨unit, haccepts, rfl⟩ := (h word).mp hword
    obtain ⟨hget, rfl⟩ := consumed_singleton.mp hconsumed
    exact ⟨unit, hget, haccepts, rfl⟩
  · rintro ⟨unit, hget, haccepts, rfl⟩
    exact ⟨[unit], (h _).mpr ⟨unit, haccepts, rfl⟩, consumed_singleton.mpr ⟨hget, rfl⟩⟩

mutual

/-- Where all assertions hold, the denotation consumes the words of the language. -/
theorem denote_eq_leads (hholds : ∀ a c, R.holds a c = true) (h : Hir) :
    h.denote R = Leads R h.language := by
  cases h with
  | never => rw [denote, language, leads_zero]
  | epsilon => rw [denote, language, leads_one]
  | assertion a =>
    rw [denote, language, leads_one]
    ext c d
    exact and_iff_right (hholds a c)
  | symbol s =>
    rw [denote, leads_units]
    intro word
    rw [mem_language_symbol]
    simp
  | predicate p =>
    rw [denote, leads_units]
    exact fun word => mem_language_predicate
  | sequence es => rw [denote, language, denoteAll_eq_leads hholds es]
  | alternation es => rw [denote, language, denoteAny_eq_leads hholds es]
  | repetition e min max => rw [denote, language, denote_eq_leads hholds e, leads_iterate]

/-- Where all assertions hold, a sequence denotes where its words lead. -/
theorem denoteAll_eq_leads (hholds : ∀ a c, R.holds a c = true) (es : List Hir) :
    denoteAll R es = Leads R (languageAll es) := by
  cases es with
  | nil => rw [denoteAll, languageAll, leads_one]
  | cons e es =>
    rw [denoteAll, languageAll, denote_eq_leads hholds e, denoteAll_eq_leads hholds es, leads_mul]

/-- Where all assertions hold, an alternation denotes where its words lead. -/
theorem denoteAny_eq_leads (hholds : ∀ a c, R.holds a c = true) (es : List Hir) :
    denoteAny R es = Leads R (languageAny es) := by
  cases es with
  | nil => rw [denoteAny, languageAny, leads_zero]
  | cons e es =>
    rw [denoteAny, languageAny, denote_eq_leads hholds e, denoteAny_eq_leads hholds es, leads_add]

end

end Denotation

/-! ### Normalization keeps the language -/

/-- One branch has its own language. -/
theorem languageAny_singleton (e : Hir) : languageAny [e] = e.language := by
  rw [languageAny, languageAny, add_zero]

/-- The reading of a text where all assertions hold. -/
def allHold (input : List UInt16) : Reading := ⟨input, fun _ _ => true⟩

/-- Languages are told apart by what they consume. -/
theorem eq_of_leads {L M : Language UInt16} (h : ∀ input, Leads (allHold input) L =
    Leads (allHold input) M) : L = M := by
  have hle : ∀ {L M : Language UInt16}, (∀ input, Leads (allHold input) L =
      Leads (allHold input) M) → ∀ word ∈ L, word ∈ M := by
    intro L M h word hword
    -- the word itself is the text, and all of it is consumed
    have hleads : Leads (allHold word) L (0, false) (0 + word.length, false || !word.isEmpty) :=
      ⟨word, hword, List.prefix_refl _, rfl⟩
    rw [h word] at hleads
    obtain ⟨other, hother, hprefix, hend⟩ := hleads
    have hprefix : other <+: word := hprefix
    have hlength : 0 + word.length = 0 + other.length := (Prod.mk.inj hend).1
    rw [← hprefix.eq_of_length (by omega)]
    exact hother
  apply Language.ext
  exact fun word => ⟨hle h word, hle (fun input => (h input).symm) word⟩

/-- The constructor of sequences keeps the language. -/
theorem language_mkSequence (es : List Hir) : (mkSequence es).language = languageAll es := by
  refine eq_of_leads fun input => ?_
  have hholds : ∀ a c, (allHold input).holds a c = true := fun _ _ => rfl
  rw [← denote_eq_leads hholds, ← denoteAll_eq_leads hholds, denote_mkSequence]

/-- The constructor of alternations keeps the language. -/
theorem language_mkAlternation (es : List Hir) : (mkAlternation es).language = languageAny es := by
  refine eq_of_leads fun input => ?_
  have hholds : ∀ a c, (allHold input).holds a c = true := fun _ _ => rfl
  rw [← denote_eq_leads hholds, ← denoteAny_eq_leads hholds, denote_mkAlternation]

/-- The constructor of repetitions keeps the language. -/
theorem language_mkRepeat (e : Hir) {min : ℕ} {max : Option ℕ} (h : ∀ limit ∈ max, min ≤ limit) :
    (mkRepeat e min max).language = iterate e.language min max := by
  refine eq_of_leads fun input => ?_
  have hholds : ∀ a c, (allHold input).holds a c = true := fun _ _ => rfl
  rw [← denote_eq_leads hholds, denote_mkRepeat _ _ h, leads_iterate, denote_eq_leads hholds]

/-! ### The analyses -/

/-- Expressions as the program builds them: predicates are left canonical by their operations, and
the bounds of a repetition are in order. -/
inductive Valid : Hir → Prop
  | never : Valid .never
  | epsilon : Valid .epsilon
  | assertion (a : Assertion) : Valid (.assertion a)
  | symbol (s : UInt16) : Valid (.symbol s)
  | predicate {p : SymbolPredicate} : p.Canonical → Valid (.predicate p)
  | sequence {es : List Hir} : (∀ e ∈ es, Valid e) → Valid (.sequence es)
  | alternation {es : List Hir} : (∀ e ∈ es, Valid e) → Valid (.alternation es)
  | repetition {e : Hir} {min : ℕ} {max : Option ℕ} : (∀ limit ∈ max, min ≤ limit) →
      Valid e → Valid (.repetition e min max)

namespace Valid

/-- The items of a valid sequence are valid. -/
theorem of_sequence {es : List Hir} (h : Valid (.sequence es)) : ∀ e ∈ es, Valid e := by
  cases h with
  | sequence hes => exact hes

/-- The branches of a valid alternation are valid. -/
theorem of_alternation {es : List Hir} (h : Valid (.alternation es)) : ∀ e ∈ es, Valid e := by
  cases h with
  | alternation hes => exact hes

/-- The constructor of sequences keeps validity. -/
theorem mkSequence {es : List Hir} (h : ∀ e ∈ es, Valid e) : Valid (Hir.mkSequence es) := by
  have hitems {items : List Hir} (heq : flattenSequence es = some items) :=
    forall_flattenSequence (fun _ hes => hes.of_sequence) (fun _ he _ _ _ => he) h heq
  rw [Hir.mkSequence]
  split
  · exact never
  · exact epsilon
  next heq => exact hitems heq _ List.mem_cons_self
  next heq => exact sequence (hitems heq)

/-- The constructor of alternations keeps validity. -/
theorem mkAlternation {es : List Hir} (h : ∀ e ∈ es, Valid e) :
    Valid (Hir.mkAlternation es) := by
  have hbranches := forall_flattenAlternation (fun _ hes => Valid.of_alternation hes)
    (fun _ he _ _ => he) h
  rw [Hir.mkAlternation]
  split
  · exact never
  next heq => exact hbranches _ (heq ▸ List.mem_cons_self)
  next => exact alternation hbranches

/-- The constructor of repetitions keeps validity. -/
theorem mkRepeat {e : Hir} {min : ℕ} {max : Option ℕ} (h : Valid e)
    (hbounds : ∀ limit ∈ max, min ≤ limit) : Valid (Hir.mkRepeat e min max) := by
  rw [Hir.mkRepeat.eq_def]
  split
  · exact epsilon
  · exact epsilon
  · exact epsilon
  · exact never
  · exact h
  · exact repetition hbounds h

end Valid

/-- What the analyses of an expression say about its language. -/
structure Analyses (h : Hir) : Prop where
  /-- `nullable` tells whether the empty word is in the language. -/
  nullable_iff : h.nullable = true ↔ [] ∈ h.language
  /-- `minimum_consumed` is the least length of a word, cut off at the greatest count. -/
  leastLength : LeastLength usizeMax h.language h.minimumConsumed
  /-- `can_consume` tells whether some word has a unit. -/
  canConsume_iff : h.canConsume = true ↔ Consumes h.language

/-- `nullable` of a sequence asks for the empty word of every item. -/
theorem allNullable_iff {es : List Hir} (h : ∀ e ∈ es, Analyses e) :
    allNullable es = true ↔ [] ∈ languageAll es := by
  induction es with
  | nil => exact iff_of_true rfl Language.nil_mem_one
  | cons e es ih =>
    obtain ⟨he, hes⟩ := List.forall_mem_cons.mp h
    rw [allNullable, languageAll, Bool.and_eq_true, he.nullable_iff, ih hes, nil_mem_mul_iff]

/-- `nullable` of an alternation asks for the empty word of some branch. -/
theorem anyNullable_iff {es : List Hir} (h : ∀ e ∈ es, Analyses e) :
    anyNullable es = true ↔ [] ∈ languageAny es := by
  induction es with
  | nil => exact iff_of_false Bool.false_ne_true (Language.notMem_zero [])
  | cons e es ih =>
    obtain ⟨he, hes⟩ := List.forall_mem_cons.mp h
    rw [anyNullable, languageAny, Bool.or_eq_true, he.nullable_iff, ih hes, Language.mem_add]

/-- The fold over the items of a sequence, behind a language whose shortest length is known. -/
theorem leastLength_total {es : List Hir} (h : ∀ e ∈ es, Analyses e) {L : Language UInt16}
    {total : ℕ} (htotal : LeastLength usizeMax L (some total)) :
    LeastLength usizeMax (L * languageAll es) (minimumConsumedTotal es total) := by
  induction es generalizing L total with
  | nil =>
    rw [languageAll, mul_one, minimumConsumedTotal]
    exact htotal
  | cons e es ih =>
    obtain ⟨he, hes⟩ := List.forall_mem_cons.mp h
    have hfirst := he.leastLength
    rw [languageAll, ← mul_assoc, minimumConsumedTotal]
    cases hlength : e.minimumConsumed with
    | none =>
      rw [hlength] at hfirst
      have hzero : e.language = 0 := hfirst
      change L * e.language * languageAll es = 0
      rw [hzero, mul_zero, zero_mul]
    | some length =>
      rw [hlength] at hfirst
      exact ih hes (leastLength_mul htotal hfirst)

/-- The loop over the branches finds the least length of them all. -/
theorem leastLength_least {es : List Hir} (h : ∀ e ∈ es, Analyses e) :
    LeastLength usizeMax (languageAny es) (minimumConsumedLeast es) := by
  induction es with
  | nil => exact leastLength_zero
  | cons e es ih =>
    obtain ⟨he, hes⟩ := List.forall_mem_cons.mp h
    have hfirst := he.leastLength
    have hrest := ih hes
    rw [languageAny, minimumConsumedLeast]
    -- a branch without words leaves the least length to the others
    cases hlength : e.minimumConsumed with
    | none =>
      rw [hlength] at hfirst
      have hzero : e.language = 0 := hfirst
      rw [hzero, zero_add]
      exact hrest
    | some length =>
      rw [hlength] at hfirst
      cases hleast : minimumConsumedLeast es with
      | none =>
        rw [hleast] at hrest
        have hzero : languageAny es = 0 := hrest
        rw [hzero, add_zero]
        exact hfirst
      | some least =>
        rw [hleast] at hrest
        exact leastLength_add hfirst hrest

/-- Some item or branch can consume. -/
theorem anyCanConsume_iff {es : List Hir} (h : ∀ e ∈ es, Analyses e) :
    anyCanConsume es = true ↔ ∃ e ∈ es, Consumes e.language := by
  induction es with
  | nil => simp [anyCanConsume]
  | cons e es ih =>
    obtain ⟨he, hes⟩ := List.forall_mem_cons.mp h
    rw [anyCanConsume, Bool.or_eq_true, he.canConsume_iff, ih hes, List.exists_mem_cons_iff]

/-- An alternation consumes when one of its branches does. -/
theorem consumes_languageAny_iff {es : List Hir} :
    Consumes (languageAny es) ↔ ∃ e ∈ es, Consumes e.language := by
  induction es with
  | nil => simp [languageAny, not_consumes_zero]
  | cons e es ih => rw [languageAny, consumes_add_iff, ih, List.exists_mem_cons_iff]

/-- A sequence consumes when it matches and one of its items consumes. -/
theorem consumes_languageAll_iff {es : List Hir} :
    Consumes (languageAll es) ↔ languageAll es ≠ 0 ∧ ∃ e ∈ es, Consumes e.language := by
  induction es with
  | nil => simp [languageAll, not_consumes_one]
  | cons e es ih =>
    rw [languageAll, consumes_mul_iff, ih, List.exists_mem_cons_iff, mul_ne_zero_iff_both]
    tauto

/-- A canonical predicate is empty when it matches no unit. -/
theorem analyses_predicate {p : SymbolPredicate} (hp : p.Canonical) : Analyses (.predicate p) := by
  -- a class has words of one unit only, and none if it is empty
  have hlength : ∀ word ∈ language (.predicate p), word.length = 1 := by
    intro word hword
    obtain ⟨unit, -, rfl⟩ := mem_language_predicate.mp hword
    rfl
  have hnil : [] ∉ language (.predicate p) := fun h => Nat.zero_ne_one (hlength [] h)
  refine ⟨iff_of_false Bool.false_ne_true hnil, ?_, ?_⟩
  · rw [minimumConsumed]
    split
    next hempty =>
      apply Language.ext
      intro word
      refine iff_of_false (fun hword => ?_) (Language.notMem_zero word)
      obtain ⟨unit, hunit, -⟩ := mem_language_predicate.mp hword
      rw [(SymbolPredicate.isEmpty_iff hp).mp hempty unit] at hunit
      exact Bool.false_ne_true hunit
    next hnonempty =>
      rw [SymbolPredicate.isEmpty_iff hp, not_forall] at hnonempty
      obtain ⟨unit, hunit⟩ := hnonempty
      have hmem : [unit] ∈ language (.predicate p) :=
        mem_language_predicate.mpr ⟨unit, Bool.of_not_eq_false hunit, rfl⟩
      exact leastLength_of_length_eq_one (by decide) hmem hlength
  · rw [canConsume, Bool.not_eq_true', ← Bool.not_eq_true, SymbolPredicate.isEmpty_iff hp,
      not_forall]
    constructor
    · rintro ⟨unit, hunit⟩
      exact ⟨[unit], mem_language_predicate.mpr ⟨unit, Bool.of_not_eq_false hunit, rfl⟩,
        List.cons_ne_nil _ _⟩
    · rintro ⟨word, hword, -⟩
      obtain ⟨unit, hunit, -⟩ := mem_language_predicate.mp hword
      exact ⟨unit, by rw [hunit]; exact Bool.true_eq_false_eq_False⟩

/-- The analyses are exact. -/
theorem Valid.analyses {h : Hir} (hvalid : h.Valid) : Analyses h := by
  induction h with
  | never =>
    refine ⟨?_, leastLength_zero, ?_⟩
    · exact iff_of_false Bool.false_ne_true (Language.notMem_zero [])
    · exact iff_of_false Bool.false_ne_true not_consumes_zero
  | epsilon =>
    refine ⟨?_, leastLength_one, ?_⟩
    · exact iff_of_true rfl Language.nil_mem_one
    · exact iff_of_false Bool.false_ne_true not_consumes_one
  | assertion a =>
    refine ⟨?_, leastLength_one, ?_⟩
    · exact iff_of_true rfl Language.nil_mem_one
    · exact iff_of_false Bool.false_ne_true not_consumes_one
  | symbol s =>
    have hmem : [s] ∈ language (.symbol s) := mem_language_symbol.mpr rfl
    refine ⟨?_, leastLength_of_length_eq_one (by decide) hmem fun other hother => ?_, ?_⟩
    · exact iff_of_false Bool.false_ne_true fun h => by simpa using mem_language_symbol.mp h
    · rw [mem_language_symbol.mp hother]
      rfl
    · exact iff_of_true rfl ⟨[s], hmem, List.cons_ne_nil _ _⟩
  | predicate p =>
    cases hvalid with
    | predicate hp => exact analyses_predicate hp
  | sequence es ih =>
    cases hvalid with
    | sequence hes =>
      have hitems : ∀ e ∈ es, Analyses e := fun e he => ih e he (hes e he)
      have hlength : LeastLength usizeMax (language (.sequence es))
          (minimumConsumed (.sequence es)) := by
        have htotal := leastLength_total hitems leastLength_one
        rwa [one_mul] at htotal
      refine ⟨allNullable_iff hitems, hlength, ?_⟩
      -- a sequence can consume only if it has words at all
      have hsome : (minimumConsumedTotal es 0).isSome = true ↔ languageAll es ≠ 0 := by
        rw [Option.isSome_iff_ne_none]
        exact not_congr hlength.eq_none_iff
      rw [canConsume, language, Bool.and_eq_true, hsome, anyCanConsume_iff hitems,
        consumes_languageAll_iff]
  | alternation es ih =>
    cases hvalid with
    | alternation hes =>
      have hbranches : ∀ e ∈ es, Analyses e := fun e he => ih e he (hes e he)
      refine ⟨anyNullable_iff hbranches, leastLength_least hbranches, ?_⟩
      rw [canConsume, language, anyCanConsume_iff hbranches, consumes_languageAny_iff]
  | repetition e min max ih =>
    cases hvalid with
    | repetition hbounds he =>
      have hbody := ih he
      refine ⟨?_, ?_, ?_⟩
      · rw [nullable, language, nil_mem_iterate_iff hbounds, Bool.or_eq_true, beq_iff_eq,
          hbody.nullable_iff]
      · have hleast := hbody.leastLength
        rw [minimumConsumed, language]
        split
        -- zero copies are a word, whatever the body is
        next hmin =>
          subst hmin
          exact leastLength_iterate_zero
        next hmin =>
          cases hlength : e.minimumConsumed with
          | none =>
            rw [hlength] at hleast
            exact leastLength_iterate_none hmin hleast
          | some length =>
            rw [hlength] at hleast
            exact leastLength_iterate hmin hbounds hleast
      · rw [canConsume, language, consumes_iterate_iff hbounds, Bool.and_eq_true, bne_iff_ne,
          hbody.canConsume_iff]

/-- The words of the language are the empty word alone. -/
theorem language_eq_one_iff {h : Hir} :
    h.language = 1 ↔ [] ∈ h.language ∧ ¬ Consumes h.language := by
  constructor
  · intro heq
    rw [heq]
    exact ⟨Language.nil_mem_one, not_consumes_one⟩
  · rintro ⟨hnil, hnone⟩
    apply Language.ext
    intro word
    rw [Language.mem_one]
    constructor
    · exact fun hword => by_contra fun hne => hnone ⟨word, hword, hne⟩
    · rintro rfl
      exact hnil

/-- The three tests of the parser find the expressions that only match the empty word. -/
theorem Valid.zeroWidth_iff {h : Hir} (hvalid : h.Valid) :
    (h.nullable && h.minimumConsumed == some 0 && !h.canConsume) = true ↔ h.language = 1 := by
  have hanalyses := hvalid.analyses
  rw [language_eq_one_iff, Bool.and_eq_true, Bool.and_eq_true, Bool.not_eq_true',
    ← Bool.not_eq_true, hanalyses.nullable_iff, hanalyses.canConsume_iff, beq_iff_eq]
  constructor
  · exact fun ⟨⟨hnil, _⟩, hnone⟩ => ⟨hnil, hnone⟩
  · rintro ⟨hnil, hnone⟩
    refine ⟨⟨hnil, ?_⟩, hnone⟩
    -- the empty word is the shortest
    have hleast := hanalyses.leastLength
    cases hlength : h.minimumConsumed with
    | none =>
      rw [hlength] at hleast
      exact absurd hnil (by rw [show h.language = 0 from hleast]; exact Language.notMem_zero [])
    | some least =>
      rw [hlength] at hleast
      obtain ⟨word, -, hshortest, rfl⟩ := hleast
      rw [Nat.le_zero.mp (hshortest [] hnil), Nat.zero_min]

end Hir

/-! ### Patterns are valid -/

open Hir (Valid)

section Patterns

variable {rules : CaseRules}

/-- A literal is valid, with case or without. -/
theorem CaseRules.valid_literal (rules : CaseRules) (unit : UInt16) :
    Valid (rules.literal unit) := by
  unfold CaseRules.literal
  split
  · exact .symbol unit
  · simp only
    split
    · exact .symbol unit
    · exact .predicate (SymbolPredicate.canonical_insert
        (SymbolPredicate.canonical_insert SymbolPredicate.canonical_empty _) _)

/-- What an escape derives is valid. -/
theorem EscapeText.valid {text : List UInt16} {expression : Hir}
    (h : EscapeText rules text expression) : Valid expression := by
  cases h with
  | literal => exact rules.valid_literal _
  | newline | tab | carriageReturn | formFeed => exact .symbol _
  | shorthand h => exact .predicate (canonical_shorthand _ h)
  | wordBoundary | nonWordBoundary => exact .assertion _

mutual

/-- What an atom derives is valid. -/
theorem AtomText.valid {depth : ℕ} {text : List UInt16} {expression : Hir}
    (h : AtomText rules depth text expression) : Valid expression :=
  match h with
  | .any => .predicate SymbolPredicate.canonical_any
  | .charClass hclass => .predicate hclass.canonical
  | .lineStart | .lineEnd => .assertion _
  | .literal _ => rules.valid_literal _
  | .escape hescape => hescape.valid
  | .emptyGroup _ => .never
  | .group _ _ _ hbody => Valid.mkAlternation hbody.valid

/-- What the items of a sequence derive is valid. -/
theorem ItemsText.valid {depth : ℕ} {text : List UInt16} {items : List Hir}
    (h : ItemsText rules depth text items) : ∀ item ∈ items, Valid item :=
  match h with
  | .nil => fun _ hitem => absurd hitem List.not_mem_nil
  | .plain hatom hrest => List.forall_mem_cons.mpr ⟨hatom.valid, hrest.valid⟩
  | .quantified hatom hquantifier hrest =>
    List.forall_mem_cons.mpr ⟨Valid.mkRepeat hatom.valid fun limit hlimit =>
      (hquantifier.bounds.2 limit hlimit).1, hrest.valid⟩

/-- What the branches of an alternation derive is valid. -/
theorem BranchesText.valid {depth : ℕ} {text : List UInt16} {branches : List Hir}
    (h : BranchesText rules depth text branches) : ∀ branch ∈ branches, Valid branch :=
  match h with
  | .last hitems | .trailing hitems =>
    List.forall_mem_cons.mpr ⟨Valid.mkSequence hitems.valid,
      fun _ hbranch => absurd hbranch List.not_mem_nil⟩
  | .more hitems _ hrest =>
    List.forall_mem_cons.mpr ⟨Valid.mkSequence hitems.valid, hrest.valid⟩

end

/-- Patterns denote valid expressions. -/
theorem PatternText.valid {text : List UInt16} {expression : Hir}
    (h : PatternText rules text expression) : Valid expression := by
  cases h with
  | plain hbranches => exact Valid.mkAlternation hbranches.valid
  | flagged _ hbranches => exact Valid.mkAlternation hbranches.valid

end Patterns

/-! ### The zero-width test -/

/-- The analyses of `hir.rs` are exact: `nullable` finds the empty word, `minimum_consumed` is the
length of the shortest word, cut off at `usize::MAX`, or `None` for the empty language, and
`can_consume` finds a nonempty word. A text of the grammar is refused as zero-width exactly when
the language of its expression is the empty word alone, and accepted otherwise. -/
theorem analyses_are_exact :
    (∀ h : Hir, h.Valid →
      (h.nullable = true ↔ [] ∈ h.language) ∧
        (h.minimumConsumed = none ↔ h.language = 0) ∧
        (∀ least, h.minimumConsumed = some least → ∃ word ∈ h.language,
          (∀ other ∈ h.language, word.length ≤ other.length) ∧
            least = min word.length usizeMax) ∧
        (h.canConsume = true ↔ ∃ word ∈ h.language, word ≠ [])) ∧
      ∀ (lowerUpper : UInt16 → UInt16 × UInt16) (patternId : PatternId) (units : List UInt16)
        (flags : PatternFlags) (expression : Hir), units ≠ [] →
        PatternText ⟨flags.isCaseInsensitive, lowerUpper⟩ units expression →
          (parseWithFlags lowerUpper patternId units flags =
              .error ((Parser.new lowerUpper patternId units flags).invalid 0 units.length) ↔
            expression.language = 1) ∧
          ((∃ pattern, parseWithFlags lowerUpper patternId units flags = .ok pattern ∧
              pattern.expression = expression) ↔ expression.language ≠ 1) := by
  refine ⟨fun h hvalid => ?_, fun lowerUpper patternId units flags expression hunits htext => ?_⟩
  · have hanalyses := hvalid.analyses
    refine ⟨hanalyses.nullable_iff, hanalyses.leastLength.eq_none_iff, fun least hleast => ?_,
      hanalyses.canConsume_iff⟩
    have hlength := hanalyses.leastLength
    rw [hleast] at hlength
    exact hlength
  -- a pattern is refused exactly if its analyses say that it consumes nothing
  · have hwidth : (HirPattern.new patternId expression
        htext.sequencesNonempty).isZeroWidth = true ↔ expression.language = 1 :=
      htext.valid.zeroWidth_iff
    rw [parseWithFlags_eq_of_patternText hunits htext]
    split
    next hzero =>
      have hone := hwidth.mp hzero
      refine ⟨iff_of_true rfl hone, iff_of_false ?_ (not_not.mpr hone)⟩
      rintro ⟨pattern, herror, -⟩
      cases herror
    next hzero =>
      have hone := mt hwidth.mpr hzero
      refine ⟨iff_of_false (fun herror => ?_) hone, iff_of_true ⟨_, rfl, rfl⟩ hone⟩
      cases herror

end Rustmatch

import Mathlib.Computability.Language

/-!
# Lengths of the words of a language

Three questions about a language, and their answers for products, sums and bounded iterations:
whether it has the empty word, whether it has a nonempty word, and how long its shortest word is.
The shortest length is cut off at a given number, as saturating arithmetic does.

## Main definitions

* `iterate`: iterations between two bounds;
* `LeastLength`: the shortest length, or none for the empty language;
* `Consumes`: a nonempty word;
* `Thins`: the same answer about the empty word, and no new nonempty words.

## Main results

* `leastLength_mul`, `leastLength_add`, `leastLength_iterate`: shortest lengths;
* `consumes_mul_iff`, `consumes_iterate_iff`: nonempty words;
* `nil_mem_mul_iff`, `nil_mem_iterate_iff`: the empty word;
* `Thins.mul`, `Thins.add`, `Thins.iterate`: comparisons.
-/

namespace LanguageLengths

variable {α : Type*} {L M : Language α} {cap : ℕ}

/-- Iterations of a language between two bounds. -/
def iterate (L : Language α) (min : ℕ) (max : Option ℕ) : Language α :=
  {word | ∃ n, min ≤ n ∧ (∀ limit ∈ max, n ≤ limit) ∧ word ∈ L ^ n}

/-- An iterated word is one of a power within the bounds. -/
theorem mem_iterate {min : ℕ} {max : Option ℕ} {word : List α} :
    word ∈ iterate L min max ↔ ∃ n, min ≤ n ∧ (∀ limit ∈ max, n ≤ limit) ∧ word ∈ L ^ n := Iff.rfl

/-- The length of the shortest words, cut off at `cap`; `none` when there is no word. -/
def LeastLength (cap : ℕ) (L : Language α) : Option ℕ → Prop
  | none => L = 0
  | some least => ∃ word ∈ L, (∀ other ∈ L, word.length ≤ other.length) ∧
      least = min word.length cap

/-- There is a nonempty word. -/
def Consumes (L : Language α) : Prop := ∃ word ∈ L, word ≠ []

/-! ### Powers -/

/-- Copies of a word in a row. -/
theorem flatten_replicate_mem_pow {word : List α} (h : word ∈ L) (n : ℕ) :
    (List.replicate n word).flatten ∈ L ^ n := by
  rw [Language.mem_pow]
  refine ⟨_, rfl, List.length_replicate .., fun other hother => ?_⟩
  rw [List.eq_of_mem_replicate hother]
  exact h

/-- Words of a power are at least as long as that many shortest words. -/
theorem mul_le_length_of_mem_pow {least : ℕ} (h : ∀ word ∈ L, least ≤ word.length) {n : ℕ}
    {word : List α} (hword : word ∈ L ^ n) : least * n ≤ word.length := by
  induction n generalizing word with
  | zero => exact Nat.zero_le _
  | succ n ih =>
    rw [pow_succ, Language.mem_mul] at hword
    obtain ⟨before, hbefore, last, hlast, rfl⟩ := hword
    have hle := ih hbefore
    have hlastLe := h last hlast
    rw [List.length_append, Nat.mul_succ]
    omega

/-- The empty language has no words in a row. -/
theorem zero_pow_of_pos {n : ℕ} (h : 0 < n) : (0 : Language α) ^ n = 0 := zero_pow h.ne'

/-! ### The empty word -/

/-- A product has the empty word when both factors have it. -/
theorem nil_mem_mul_iff : [] ∈ L * M ↔ [] ∈ L ∧ [] ∈ M := by
  rw [Language.mem_mul]
  constructor
  · rintro ⟨left, hleft, right, hright, hnil⟩
    obtain ⟨rfl, rfl⟩ := List.append_eq_nil_iff.mp hnil
    exact ⟨hleft, hright⟩
  · rintro ⟨hleft, hright⟩
    exact ⟨[], hleft, [], hright, rfl⟩

/-- A power has the empty word when it is the zeroth, or the language has it. -/
theorem nil_mem_pow_iff {n : ℕ} : [] ∈ L ^ n ↔ n = 0 ∨ [] ∈ L := by
  induction n with
  | zero => simp
  | succ n ih =>
    rw [pow_succ, nil_mem_mul_iff, ih]
    constructor
    · exact fun h => Or.inr h.2
    · exact fun h => ⟨Or.inr (h.resolve_left (Nat.succ_ne_zero n)), h.resolve_left (by omega)⟩

/-- An iteration has the empty word when no copy is needed, or the language has it. -/
theorem nil_mem_iterate_iff {min : ℕ} {max : Option ℕ} (hbounds : ∀ limit ∈ max, min ≤ limit) :
    [] ∈ iterate L min max ↔ min = 0 ∨ [] ∈ L := by
  rw [mem_iterate]
  constructor
  · rintro ⟨n, hmin, -, hn⟩
    rcases nil_mem_pow_iff.mp hn with rfl | hn
    · exact Or.inl (Nat.le_zero.mp hmin)
    · exact Or.inr hn
  · intro h
    exact ⟨min, le_refl _, hbounds, nil_mem_pow_iff.mpr h⟩

/-! ### Nonempty words -/

/-- A language is not empty when it has a word. -/
theorem ne_zero_iff : L ≠ 0 ↔ ∃ word, word ∈ L := Set.nonempty_iff_ne_empty.symm

/-- A product has words when both factors do. -/
theorem mul_ne_zero_iff_both : L * M ≠ 0 ↔ L ≠ 0 ∧ M ≠ 0 := by
  simp only [ne_zero_iff]
  constructor
  · rintro ⟨word, hword⟩
    obtain ⟨left, hleft, right, hright, -⟩ := Language.mem_mul.mp hword
    exact ⟨⟨left, hleft⟩, right, hright⟩
  · rintro ⟨⟨left, hleft⟩, right, hright⟩
    exact ⟨left ++ right, Language.append_mem_mul hleft hright⟩

/-- A product has a nonempty word when one of its factors has, and neither is empty. -/
theorem consumes_mul_iff :
    Consumes (L * M) ↔ L ≠ 0 ∧ M ≠ 0 ∧ (Consumes L ∨ Consumes M) := by
  simp only [ne_zero_iff]
  constructor
  · rintro ⟨word, hword, hnil⟩
    obtain ⟨left, hleft, right, hright, rfl⟩ := Language.mem_mul.mp hword
    refine ⟨⟨left, hleft⟩, ⟨right, hright⟩, ?_⟩
    by_cases hnilLeft : left = []
    · subst hnilLeft
      exact Or.inr ⟨right, hright, by simpa using hnil⟩
    · exact Or.inl ⟨left, hleft, hnilLeft⟩
  · rintro ⟨⟨left, hleft⟩, ⟨right, hright⟩, ⟨word, hword, hnil⟩ | ⟨word, hword, hnil⟩⟩
    · exact ⟨word ++ right, Language.append_mem_mul hword hright, by simp [hnil]⟩
    · exact ⟨left ++ word, Language.append_mem_mul hleft hword, by simp [hnil]⟩

/-- A union has a nonempty word when one of its parts has. -/
theorem consumes_add_iff : Consumes (L + M) ↔ Consumes L ∨ Consumes M := by
  unfold Consumes
  simp only [Language.mem_add, or_and_right, exists_or]

/-- The empty language has no nonempty word. -/
theorem not_consumes_zero : ¬ Consumes (0 : Language α) :=
  fun ⟨word, hword, _⟩ => Language.notMem_zero word hword

/-- The empty word is the only one here. -/
theorem not_consumes_one : ¬ Consumes (1 : Language α) :=
  fun ⟨_, hword, hnil⟩ => hnil ((Language.mem_one _).mp hword)

/-- A power has a nonempty word only if the language has one. -/
theorem Consumes.of_pow {n : ℕ} (h : Consumes (L ^ n)) : Consumes L := by
  induction n with
  | zero => exact absurd h not_consumes_one
  | succ n ih =>
    rw [pow_succ] at h
    obtain ⟨-, -, h | h⟩ := consumes_mul_iff.mp h
    · exact ih h
    · exact h

/-- An iteration has a nonempty word when the language has, and a copy is allowed. -/
theorem consumes_iterate_iff {min : ℕ} {max : Option ℕ}
    (hbounds : ∀ limit ∈ max, min ≤ limit) :
    Consumes (iterate L min max) ↔ max ≠ some 0 ∧ Consumes L := by
  constructor
  · rintro ⟨word, ⟨n, hmin, hmax, hn⟩, hnil⟩
    refine ⟨?_, Consumes.of_pow ⟨word, hn, hnil⟩⟩
    rintro rfl
    obtain rfl := Nat.le_zero.mp (hmax 0 rfl)
    exact hnil ((Language.mem_one _).mp hn)
  · rintro ⟨hmax, word, hword, hnil⟩
    -- at least one iteration, if the lower bound asks for none
    refine ⟨(List.replicate (Nat.max min 1) word).flatten,
      ⟨Nat.max min 1, le_max_left _ _, fun limit hlimit => ?_,
        flatten_replicate_mem_pow hword _⟩, ?_⟩
    · have hle := hbounds limit hlimit
      have hpos : limit ≠ 0 := by
        rintro rfl
        exact hmax hlimit
      exact max_le hle (Nat.one_le_iff_ne_zero.mpr hpos)
    · intro hflat
      have hpos : 0 < Nat.max min 1 := lt_of_lt_of_le Nat.one_pos (le_max_right _ _)
      exact hnil (List.flatten_eq_nil_iff.mp hflat word
        (List.mem_replicate.mpr ⟨hpos.ne', rfl⟩))

/-! ### Fewer nonempty words -/

/-- `L` has the empty word when `M` has it, and nonempty words at most when `M` has some. -/
structure Thins (L M : Language α) : Prop where
  /-- Both have the empty word, or neither. -/
  nil_mem_iff : [] ∈ L ↔ [] ∈ M
  /-- Where `L` has a nonempty word, `M` has one. -/
  consumes : Consumes L → Consumes M

namespace Thins

variable {L' M' : Language α}

/-- A language thins itself. -/
theorem refl (L : Language α) : Thins L L := ⟨Iff.rfl, id⟩

/-- There are words where there were words. -/
theorem ne_zero (h : Thins L M) (hL : L ≠ 0) : M ≠ 0 := by
  obtain ⟨word, hword⟩ := ne_zero_iff.mp hL
  by_cases hnil : word = []
  · exact ne_zero_iff.mpr ⟨[], h.nil_mem_iff.mp (hnil ▸ hword)⟩
  · obtain ⟨other, hother, -⟩ := h.consumes ⟨word, hword, hnil⟩
    exact ne_zero_iff.mpr ⟨other, hother⟩

/-- Products of thinned languages are thinned. -/
theorem mul (h : Thins L M) (h' : Thins L' M') : Thins (L * L') (M * M') := by
  refine ⟨?_, fun hconsumes => ?_⟩
  · rw [nil_mem_mul_iff, nil_mem_mul_iff, h.nil_mem_iff, h'.nil_mem_iff]
  · obtain ⟨hL, hL', hor⟩ := consumes_mul_iff.mp hconsumes
    exact consumes_mul_iff.mpr ⟨h.ne_zero hL, h'.ne_zero hL', hor.imp h.consumes h'.consumes⟩

/-- Unions of thinned languages are thinned. -/
theorem add (h : Thins L M) (h' : Thins L' M') : Thins (L + L') (M + M') := by
  refine ⟨?_, fun hconsumes => ?_⟩
  · rw [Language.mem_add, Language.mem_add, h.nil_mem_iff, h'.nil_mem_iff]
  · exact consumes_add_iff.mpr ((consumes_add_iff.mp hconsumes).imp h.consumes h'.consumes)

/-- Iterations of thinned languages are thinned. -/
theorem iterate (h : Thins L M) {min : ℕ} {max : Option ℕ}
    (hbounds : ∀ limit ∈ max, min ≤ limit) :
    Thins (LanguageLengths.iterate L min max) (LanguageLengths.iterate M min max) := by
  refine ⟨?_, fun hconsumes => ?_⟩
  · rw [nil_mem_iterate_iff hbounds, nil_mem_iterate_iff hbounds, h.nil_mem_iff]
  · obtain ⟨hmax, hL⟩ := (consumes_iterate_iff hbounds).mp hconsumes
    exact (consumes_iterate_iff hbounds).mpr ⟨hmax, h.consumes hL⟩

end Thins

/-! ### Shortest words -/

/-- The empty language has no least length. -/
theorem leastLength_zero : LeastLength cap (0 : Language α) none := rfl

/-- The empty word has length zero. -/
theorem leastLength_one : LeastLength cap (1 : Language α) (some 0) :=
  ⟨[], Language.nil_mem_one, fun _ _ => Nat.zero_le _, (Nat.zero_min cap).symm⟩

/-- A language of words of one symbol. -/
theorem leastLength_of_length_eq_one (hcap : 1 ≤ cap) {word : List α} (hword : word ∈ L)
    (h : ∀ other ∈ L, other.length = 1) : LeastLength cap L (some 1) := by
  refine ⟨word, hword, fun other hother => ?_, ?_⟩
  · rw [h word hword, h other hother]
  · rw [h word hword, Nat.min_eq_left hcap]

/-- Where there is a least length there is a word. -/
theorem LeastLength.ne_zero {least : ℕ} (h : LeastLength cap L (some least)) : L ≠ 0 := by
  obtain ⟨word, hword, -⟩ := h
  rintro rfl
  exact Language.notMem_zero word hword

/-- The answer says whether there is a word. -/
theorem LeastLength.eq_none_iff {least : Option ℕ} (h : LeastLength cap L least) :
    least = none ↔ L = 0 := by
  cases least with
  | none => exact iff_of_true rfl h
  | some least => exact iff_of_false nofun h.ne_zero

/-- The least lengths of the factors add up. -/
theorem leastLength_mul {left right : ℕ} (hleft : LeastLength cap L (some left))
    (hright : LeastLength cap M (some right)) :
    LeastLength cap (L * M) (some (min (left + right) cap)) := by
  obtain ⟨word, hword, hleast, rfl⟩ := hleft
  obtain ⟨word', hword', hleast', rfl⟩ := hright
  refine ⟨word ++ word', Language.append_mem_mul hword hword', fun other hother => ?_, ?_⟩
  · obtain ⟨before, hbefore, after, hafter, rfl⟩ := Language.mem_mul.mp hother
    rw [List.length_append, List.length_append]
    exact Nat.add_le_add (hleast before hbefore) (hleast' after hafter)
  · rw [List.length_append]
    omega

/-- The shorter of two answers, where there are two. -/
theorem leastLength_add {left right : ℕ} (hleft : LeastLength cap L (some left))
    (hright : LeastLength cap M (some right)) :
    LeastLength cap (L + M) (some (min left right)) := by
  obtain ⟨word, hword, hleast, rfl⟩ := hleft
  obtain ⟨word', hword', hleast', rfl⟩ := hright
  rcases Nat.le_total word.length word'.length with hle | hle
  · refine ⟨word, (Language.mem_add ..).mpr (Or.inl hword), fun other hother => ?_, by omega⟩
    rcases (Language.mem_add ..).mp hother with hother | hother
    · exact hleast other hother
    · exact hle.trans (hleast' other hother)
  · refine ⟨word', (Language.mem_add ..).mpr (Or.inr hword'), fun other hother => ?_, by omega⟩
    rcases (Language.mem_add ..).mp hother with hother | hother
    · exact hle.trans (hleast other hother)
    · exact hleast' other hother

/-- No iteration is needed. -/
theorem leastLength_iterate_zero {max : Option ℕ} :
    LeastLength cap (iterate L 0 max) (some 0) := by
  refine ⟨[], ?_, fun _ _ => Nat.zero_le _, (Nat.zero_min cap).symm⟩
  exact (nil_mem_iterate_iff fun _ _ => Nat.zero_le _).mpr (Or.inl rfl)

/-- Some iteration is needed, and there is none. -/
theorem leastLength_iterate_none {min : ℕ} {max : Option ℕ} (hmin : min ≠ 0)
    (h : LeastLength cap L none) : LeastLength cap (iterate L min max) none := by
  obtain rfl : L = 0 := h
  apply Language.ext
  intro word
  refine iff_of_false ?_ (Language.notMem_zero word)
  rintro ⟨n, hle, -, hn⟩
  rw [zero_pow_of_pos (by omega)] at hn
  exact Language.notMem_zero word hn

/-- The shortest iteration repeats a shortest word as rarely as allowed. -/
theorem leastLength_iterate {min : ℕ} {max : Option ℕ} (hmin : min ≠ 0)
    (hbounds : ∀ limit ∈ max, min ≤ limit) {least : ℕ} (h : LeastLength cap L (some least)) :
    LeastLength cap (iterate L min max) (some (Nat.min (least * min) cap)) := by
  obtain ⟨word, hword, hleast, rfl⟩ := h
  have hlength : (List.replicate min word).flatten.length = word.length * min := by
    rw [List.length_flatten, List.map_replicate, List.sum_replicate_nat, Nat.mul_comm]
  refine ⟨(List.replicate min word).flatten,
    ⟨min, le_refl _, hbounds, flatten_replicate_mem_pow hword _⟩, ?_, ?_⟩
  · rintro other ⟨n, hle, -, hn⟩
    rw [hlength]
    exact (Nat.mul_le_mul_left _ hle).trans (mul_le_length_of_mem_pow hleast hn)
  · rw [hlength]
    -- cutting off the factor first does not matter, since it is not multiplied by zero
    rcases Nat.le_total word.length cap with hcap | hcap
    · rw [Nat.min_eq_left hcap]
    · have hpos : 1 ≤ min := Nat.one_le_iff_ne_zero.mpr hmin
      have hmul : cap ≤ cap * min := Nat.le_mul_of_pos_right cap hpos
      have hmul' : cap ≤ word.length * min := hcap.trans (Nat.le_mul_of_pos_right _ hpos)
      rw [Nat.min_eq_right hcap, Nat.min_eq_right hmul']
      exact Nat.min_eq_right hmul

end LanguageLengths

import Mathlib.Order.Lattice.Nat
import Rustmatch.ToMathlib.LanguageLengths

/-!
# How long the words of a language get

A language has no words, a longest word, or words of any length. The length of a longest word is cut
off at a given number, as saturating arithmetic does. The three answers form a small domain, and
products, sums and bounded iterations of languages are computed in it exactly.

## Main definitions

* `Unbounded`: words of any length;
* `Extent`, `HasExtent`: the three answers;
* `Extent.mul`, `Extent.add`, `Extent.iterate`: the operations on answers;
* `SameExtent`: two languages with the same answer.

## Main results

* `exists_hasExtent`, `HasExtent.unique`: every language has one answer;
* `HasExtent.mul`, `HasExtent.add`, `HasExtent.iterate`: the operations are exact;
* `SameExtent.mul`, `SameExtent.add`, `SameExtent.iterate`: so they respect languages with the same
  answer.
-/

namespace LanguageLengths

variable {α : Type*} {L L' M M' : Language α} {cap : ℕ}

/-- There are words of any length. -/
def Unbounded (L : Language α) : Prop := ∀ n, ∃ word ∈ L, n < word.length

/-- No words, words up to a length, or words of any length. -/
inductive Extent where
  /-- No word. -/
  | empty
  /-- Words up to a length. -/
  | upTo (n : ℕ)
  /-- Words of any length. -/
  | unbounded
deriving DecidableEq, Repr

/-- The extent of a language; a length beyond `cap` counts as `cap`. -/
def HasExtent (cap : ℕ) (L : Language α) : Extent → Prop
  | .empty => L = 0
  | .upTo n => ∃ word ∈ L, (∀ other ∈ L, other.length ≤ word.length) ∧ n = min word.length cap
  | .unbounded => Unbounded L

/-! ### Every language has an extent -/

/-- Where words are of any length there is a word. -/
theorem Unbounded.ne_zero (h : Unbounded L) : L ≠ 0 := by
  obtain ⟨word, hword, -⟩ := h 0
  exact ne_zero_iff.mpr ⟨word, hword⟩

/-- Where words are no longer than a number, one of them is longest. -/
theorem exists_longest {n : ℕ} (hne : L ≠ 0) (h : ∀ word ∈ L, word.length ≤ n) :
    ∃ word ∈ L, ∀ other ∈ L, other.length ≤ word.length := by
  let lengths : Set ℕ := {k | ∃ word ∈ L, word.length = k}
  have hbound : BddAbove lengths := by
    refine ⟨n, ?_⟩
    rintro k ⟨word, hword, rfl⟩
    exact h word hword
  obtain ⟨word, hword⟩ := ne_zero_iff.mp hne
  obtain ⟨longest, hlongest, heq⟩ : sSup lengths ∈ lengths :=
    Nat.sSup_mem ⟨word.length, word, hword, rfl⟩ hbound
  refine ⟨longest, hlongest, fun other hother => ?_⟩
  rw [heq]
  exact le_csSup hbound ⟨other, hother, rfl⟩

/-- Every language has an extent. -/
theorem exists_hasExtent (cap : ℕ) (L : Language α) : ∃ x, HasExtent cap L x := by
  by_cases hzero : L = 0
  · exact ⟨.empty, hzero⟩
  by_cases hunbounded : Unbounded L
  · exact ⟨.unbounded, hunbounded⟩
  · unfold Unbounded at hunbounded
    push Not at hunbounded
    obtain ⟨n, hn⟩ := hunbounded
    obtain ⟨word, hword, hlongest⟩ := exists_longest hzero hn
    exact ⟨.upTo (min word.length cap), word, hword, hlongest, rfl⟩

/-- A longest word leaves no room for words of any length. -/
theorem not_unbounded_of_longest {word : List α} (h : ∀ other ∈ L, other.length ≤ word.length) :
    ¬ Unbounded L := by
  intro hunbounded
  obtain ⟨other, hother, hlt⟩ := hunbounded word.length
  exact absurd (h other hother) (not_le.mpr hlt)

namespace HasExtent

variable {x y : Extent}

/-- A language has words when its extent is not empty. -/
theorem ne_zero_iff (h : HasExtent cap L x) : L ≠ 0 ↔ x ≠ .empty := by
  cases x with
  | empty => exact iff_of_false (fun hne => hne h) (fun hne => hne rfl)
  | upTo n =>
    obtain ⟨word, hword, -⟩ := h
    exact iff_of_true (LanguageLengths.ne_zero_iff.mpr ⟨word, hword⟩) nofun
  | unbounded => exact iff_of_true (Unbounded.ne_zero h) nofun

/-- The extent tells whether words are of any length. -/
theorem unbounded_iff (h : HasExtent cap L x) : Unbounded L ↔ x = .unbounded := by
  cases x with
  | empty => exact iff_of_false (fun hunbounded => hunbounded.ne_zero h) nofun
  | upTo n =>
    obtain ⟨word, -, hlongest, -⟩ := h
    exact iff_of_false (not_unbounded_of_longest hlongest) nofun
  | unbounded => exact iff_of_true h rfl

/-- There is one extent only. -/
theorem unique (h : HasExtent cap L x) (h' : HasExtent cap L y) : x = y := by
  cases x with
  | empty =>
    by_contra hne
    exact h'.ne_zero_iff.mpr (Ne.symm hne) h
  | unbounded => exact (h'.unbounded_iff.mp h).symm
  | upTo n =>
    cases y with
    | empty => exact absurd h' (h.ne_zero_iff.mpr nofun)
    | unbounded => exact h.unbounded_iff.mp h'
    | upTo m =>
      obtain ⟨word, hword, hlongest, rfl⟩ := h
      obtain ⟨word', hword', hlongest', rfl⟩ := h'
      have hle := hlongest word' hword'
      have hle' := hlongest' word hword
      rw [le_antisymm hle' hle]

/-- The empty language has the empty extent. -/
theorem zero : HasExtent cap (0 : Language α) .empty := rfl

/-- The empty word has length zero. -/
theorem one : HasExtent cap (1 : Language α) (.upTo 0) := by
  refine ⟨[], Language.nil_mem_one, fun other hother => ?_, (Nat.zero_min cap).symm⟩
  rw [(Language.mem_one other).mp hother]

/-- A language of words of one symbol. -/
theorem of_length_eq_one (hcap : 1 ≤ cap) (hne : L ≠ 0) (h : ∀ word ∈ L, word.length = 1) :
    HasExtent cap L (.upTo 1) := by
  obtain ⟨word, hword⟩ := LanguageLengths.ne_zero_iff.mp hne
  refine ⟨word, hword, fun other hother => ?_, ?_⟩
  · rw [h word hword, h other hother]
  · rw [h word hword, Nat.min_eq_left hcap]

end HasExtent

/-! ### Products and sums -/

/-- Words of any length stay so with something behind them. -/
theorem Unbounded.mul_right (h : Unbounded L) (hM : M ≠ 0) : Unbounded (L * M) := by
  obtain ⟨right, hright⟩ := ne_zero_iff.mp hM
  intro n
  obtain ⟨left, hleft, hlt⟩ := h n
  refine ⟨left ++ right, Language.append_mem_mul hleft hright, ?_⟩
  rw [List.length_append]
  omega

/-- Words of any length stay so with something in front of them. -/
theorem Unbounded.mul_left (h : Unbounded M) (hL : L ≠ 0) : Unbounded (L * M) := by
  obtain ⟨left, hleft⟩ := ne_zero_iff.mp hL
  intro n
  obtain ⟨right, hright, hlt⟩ := h n
  refine ⟨left ++ right, Language.append_mem_mul hleft hright, ?_⟩
  rw [List.length_append]
  omega

/-- More words are no less unbounded. -/
theorem Unbounded.mono (h : Unbounded L) (hle : ∀ word ∈ L, word ∈ M) : Unbounded M := by
  intro n
  obtain ⟨word, hword, hlt⟩ := h n
  exact ⟨word, hle word hword, hlt⟩

namespace Extent

/-- The extent of a product. -/
def mul (cap : ℕ) : Extent → Extent → Extent
  | .empty, _ | _, .empty => .empty
  | .unbounded, _ | _, .unbounded => .unbounded
  | .upTo m, .upTo n => .upTo (min (m + n) cap)

/-- The extent of a sum. -/
def add : Extent → Extent → Extent
  | .empty, y => y
  | x, .empty => x
  | .unbounded, _ | _, .unbounded => .unbounded
  | .upTo m, .upTo n => .upTo (max m n)

/-- The extent of iterations between two bounds that are in order. -/
def iterate (cap : ℕ) (x : Extent) (least : ℕ) (most : Option ℕ) : Extent :=
  if most = some 0 then .upTo 0
  else
    match x, most with
    | .empty, _ => if least = 0 then .upTo 0 else .empty
    | .unbounded, _ => .unbounded
    | .upTo n, some limit => .upTo (min (n * limit) cap)
    | .upTo 0, none => .upTo 0
    | .upTo (_ + 1), none => .unbounded

end Extent

namespace HasExtent

variable {x y : Extent}

/-- The extent of a product. -/
theorem mul (hL : HasExtent cap L x) (hM : HasExtent cap M y) :
    HasExtent cap (L * M) (x.mul cap y) := by
  -- an empty factor empties the product, an unbounded one is bounded only by that
  cases x with
  | empty =>
    obtain rfl : L = 0 := hL
    rw [zero_mul]
    exact zero
  | unbounded =>
    cases y with
    | empty =>
      obtain rfl : M = 0 := hM
      rw [mul_zero]
      exact zero
    | unbounded | upTo _ => exact Unbounded.mul_right hL (hM.ne_zero_iff.mpr nofun)
  | upTo m =>
    cases y with
    | empty =>
      obtain rfl : M = 0 := hM
      rw [mul_zero]
      exact zero
    | unbounded => exact Unbounded.mul_left hM (hL.ne_zero_iff.mpr nofun)
    | upTo n =>
      obtain ⟨left, hleft, hlongest, rfl⟩ := hL
      obtain ⟨right, hright, hlongest', rfl⟩ := hM
      refine ⟨left ++ right, Language.append_mem_mul hleft hright, fun other hother => ?_, ?_⟩
      · obtain ⟨before, hbefore, after, hafter, rfl⟩ := Language.mem_mul.mp hother
        rw [List.length_append, List.length_append]
        exact Nat.add_le_add (hlongest before hbefore) (hlongest' after hafter)
      · rw [List.length_append]
        omega

/-- The extent of a union. -/
theorem add (hL : HasExtent cap L x) (hM : HasExtent cap M y) :
    HasExtent cap (L + M) (x.add y) := by
  have hleft : ∀ word ∈ L, word ∈ L + M := fun word hword =>
    (Language.mem_add ..).mpr (Or.inl hword)
  have hright : ∀ word ∈ M, word ∈ L + M := fun word hword =>
    (Language.mem_add ..).mpr (Or.inr hword)
  -- an empty summand drops out, and the longer one decides
  cases x with
  | empty =>
    obtain rfl : L = 0 := hL
    rw [zero_add]
    exact hM
  | unbounded =>
    cases y with
    | empty =>
      obtain rfl : M = 0 := hM
      rw [add_zero]
      exact hL
    | unbounded | upTo _ => exact Unbounded.mono hL hleft
  | upTo m =>
    cases y with
    | empty =>
      obtain rfl : M = 0 := hM
      rw [add_zero]
      exact hL
    | unbounded => exact Unbounded.mono hM hright
    | upTo n =>
      obtain ⟨word, hword, hlongest, rfl⟩ := hL
      obtain ⟨word', hword', hlongest', rfl⟩ := hM
      rcases Nat.le_total word.length word'.length with hle | hle
      · refine ⟨word', hright word' hword', fun other hother => ?_, by omega⟩
        rcases (Language.mem_add ..).mp hother with hother | hother
        · exact (hlongest other hother).trans hle
        · exact hlongest' other hother
      · refine ⟨word, hleft word hword, fun other hother => ?_, by omega⟩
        rcases (Language.mem_add ..).mp hother with hother | hother
        · exact hlongest other hother
        · exact (hlongest' other hother).trans hle

end HasExtent

/-! ### Iterations -/

/-- Words of a power are no longer than that many longest words. -/
theorem length_le_mul_of_mem_pow {most : ℕ} (h : ∀ word ∈ L, word.length ≤ most) {n : ℕ}
    {word : List α} (hword : word ∈ L ^ n) : word.length ≤ most * n := by
  induction n generalizing word with
  | zero =>
    rw [(Language.mem_one word).mp hword]
    exact Nat.zero_le _
  | succ n ih =>
    rw [pow_succ, Language.mem_mul] at hword
    obtain ⟨before, hbefore, last, hlast, rfl⟩ := hword
    have hle := ih hbefore
    have hlastLe := h last hlast
    rw [List.length_append, Nat.mul_succ]
    omega

/-- Copies of a word in a row have so many times its length. -/
theorem length_flatten_replicate (word : List α) (n : ℕ) :
    (List.replicate n word).flatten.length = word.length * n := by
  rw [List.length_flatten, List.map_replicate, List.sum_replicate_nat, Nat.mul_comm]

/-- With no copy allowed there is the empty word only. -/
theorem iterate_some_zero : LanguageLengths.iterate L 0 (some 0) = 1 := by
  apply Language.ext
  intro word
  constructor
  · rintro ⟨n, -, hmax, hn⟩
    rwa [Nat.le_zero.mp (hmax 0 rfl), pow_zero] at hn
  · exact fun hword => ⟨0, le_refl 0, fun _ _ => Nat.zero_le _, hword⟩

/-- Without words there are no iterations but the empty one. -/
theorem iterate_zero (least : ℕ) (most : Option ℕ) :
    LanguageLengths.iterate (0 : Language α) least most = if least = 0 then 1 else 0 := by
  apply Language.ext
  intro word
  split
  next hleast =>
    subst hleast
    constructor
    · rintro ⟨n, -, -, hn⟩
      cases n with
      | zero => exact hn
      | succ n =>
        rw [zero_pow_of_pos (Nat.succ_pos n)] at hn
        exact absurd hn (Language.notMem_zero word)
    · exact fun hword => ⟨0, le_refl 0, fun _ _ => Nat.zero_le _, hword⟩
  next hleast =>
    refine iff_of_false ?_ (Language.notMem_zero word)
    rintro ⟨n, hle, -, hn⟩
    rw [zero_pow_of_pos (by omega)] at hn
    exact Language.notMem_zero word hn

/-- Copies of a word, as many as the bounds allow. -/
theorem flatten_replicate_mem_iterate {word : List α} (hword : word ∈ L) {least n : ℕ}
    {most : Option ℕ} (hleast : least ≤ n) (hmost : ∀ limit ∈ most, n ≤ limit) :
    (List.replicate n word).flatten ∈ LanguageLengths.iterate L least most :=
  ⟨n, hleast, hmost, flatten_replicate_mem_pow hword n⟩

/-- A number of copies of one word that the bounds allow, at least one. -/
theorem exists_copies {least : ℕ} {most : Option ℕ} (hbounds : ∀ limit ∈ most, least ≤ limit)
    (hmost : most ≠ some 0) : ∃ n, 1 ≤ n ∧ least ≤ n ∧ ∀ limit ∈ most, n ≤ limit := by
  refine ⟨Nat.max least 1, le_max_right _ _, le_max_left _ _, fun limit hlimit => ?_⟩
  refine max_le (hbounds limit hlimit) (Nat.one_le_iff_ne_zero.mpr ?_)
  rintro rfl
  exact hmost hlimit

/-- Words of any length stay so in an iteration with a copy. -/
theorem Unbounded.iterate (h : Unbounded L) {least : ℕ} {most : Option ℕ}
    (hbounds : ∀ limit ∈ most, least ≤ limit) (hmost : most ≠ some 0) :
    Unbounded (LanguageLengths.iterate L least most) := by
  obtain ⟨count, hpos, hleast, hlimit⟩ := exists_copies hbounds hmost
  intro n
  obtain ⟨word, hword, hlt⟩ := h n
  refine ⟨_, flatten_replicate_mem_iterate hword hleast hlimit, ?_⟩
  rw [length_flatten_replicate]
  exact lt_of_lt_of_le hlt (Nat.le_mul_of_pos_right _ hpos)

/-- A nonempty word can be repeated without end. -/
theorem unbounded_iterate_none {word : List α} (hword : word ∈ L) (hne : word ≠ []) (least : ℕ) :
    Unbounded (LanguageLengths.iterate L least none) := by
  have hpos : 0 < word.length := List.length_pos_iff.mpr hne
  intro n
  refine ⟨_, flatten_replicate_mem_iterate hword (le_max_left least (n + 1)) nofun, ?_⟩
  rw [length_flatten_replicate]
  calc n < max least (n + 1) := le_max_right least (n + 1)
    _ ≤ word.length * max least (n + 1) := Nat.le_mul_of_pos_left _ hpos

namespace HasExtent

variable {x : Extent}

/-- The longest iteration repeats a longest word as often as allowed. -/
theorem iterate_some {n least limit : ℕ} (hL : HasExtent cap L (.upTo n)) (hle : least ≤ limit)
    (hlimit : limit ≠ 0) :
    HasExtent cap (LanguageLengths.iterate L least (some limit)) (.upTo (min (n * limit) cap)) := by
  obtain ⟨word, hword, hlongest, rfl⟩ := hL
  refine ⟨_, flatten_replicate_mem_iterate hword hle fun bound hbound =>
    (Option.some.inj hbound).le, ?_, ?_⟩
  · rintro other ⟨m, -, hmax, hm⟩
    rw [length_flatten_replicate]
    exact (length_le_mul_of_mem_pow hlongest hm).trans (Nat.mul_le_mul_left _ (hmax limit rfl))
  · rw [length_flatten_replicate]
    -- cutting off the factor first does not matter, since it is not multiplied by zero
    rcases Nat.le_total word.length cap with hcap | hcap
    · rw [Nat.min_eq_left hcap]
    · have hpos : 1 ≤ limit := Nat.one_le_iff_ne_zero.mpr hlimit
      have hmul : cap ≤ cap * limit := Nat.le_mul_of_pos_right cap hpos
      have hmul' : cap ≤ word.length * limit := hcap.trans (Nat.le_mul_of_pos_right _ hpos)
      rw [Nat.min_eq_right hcap, Nat.min_eq_right hmul, Nat.min_eq_right hmul']

/-- Iterations of the empty word are empty. -/
theorem iterate_upTo_zero (hcap : 0 < cap) (hL : HasExtent cap L (.upTo 0)) (least : ℕ)
    (most : Option ℕ) (hbounds : ∀ limit ∈ most, least ≤ limit) :
    HasExtent cap (LanguageLengths.iterate L least most) (.upTo 0) := by
  obtain ⟨word, hword, hlongest, hzero⟩ := hL
  have hlength : word.length = 0 := by omega
  refine ⟨_, flatten_replicate_mem_iterate hword (le_refl least) hbounds, ?_, ?_⟩
  · rintro other ⟨m, -, -, hm⟩
    have hle := length_le_mul_of_mem_pow hlongest hm
    rw [hlength, Nat.zero_mul] at hle
    exact hle.trans (Nat.zero_le _)
  · rw [length_flatten_replicate, hlength, Nat.zero_mul, Nat.zero_min]

/-- The extent of an iteration. -/
theorem iterate (hcap : 0 < cap) (hL : HasExtent cap L x) {least : ℕ} {most : Option ℕ}
    (hbounds : ∀ limit ∈ most, least ≤ limit) :
    HasExtent cap (LanguageLengths.iterate L least most) (x.iterate cap least most) := by
  unfold Extent.iterate
  split
  next hmost =>
    subst hmost
    obtain rfl := Nat.le_zero.mp (hbounds 0 rfl)
    rw [iterate_some_zero]
    exact one
  next hmost =>
    split
    · obtain rfl : L = 0 := hL
      rw [iterate_zero]
      split
      · exact one
      · exact zero
    · exact Unbounded.iterate hL hbounds hmost
    next limit =>
      exact iterate_some hL (hbounds limit rfl) fun hzero => hmost (congrArg some hzero)
    · exact iterate_upTo_zero hcap hL least none hbounds
    next n =>
      obtain ⟨word, hword, -, hlength⟩ := hL
      -- a word that is not empty can be repeated for ever
      refine unbounded_iterate_none hword ?_ least
      rintro rfl
      rw [List.length_nil, Nat.zero_min] at hlength
      cases hlength

end HasExtent

/-! ### The same extent -/

/-- Two languages of one extent. -/
def SameExtent (cap : ℕ) (L M : Language α) : Prop := ∀ x, HasExtent cap L x ↔ HasExtent cap M x

/-- Languages of one extent have the same extents. -/
theorem HasExtent.sameExtent {x : Extent} (hL : HasExtent cap L x) (hM : HasExtent cap M x) :
    SameExtent cap L M := by
  intro y
  constructor
  · intro hy
    rwa [hy.unique hL]
  · intro hy
    rwa [hy.unique hM]

namespace SameExtent

/-- A language has the same extents as itself. -/
theorem refl (cap : ℕ) (L : Language α) : SameExtent cap L L := fun _ => Iff.rfl

/-- Languages with the same extents have one in common. -/
theorem exists_hasExtent (h : SameExtent cap L M) :
    ∃ x, HasExtent cap L x ∧ HasExtent cap M x := by
  obtain ⟨x, hx⟩ := LanguageLengths.exists_hasExtent cap L
  exact ⟨x, hx, (h x).mp hx⟩

/-- Either both are empty, or neither. -/
theorem eq_zero_iff (h : SameExtent cap L M) : L = 0 ↔ M = 0 := h .empty

/-- Either both have words of any length, or neither. -/
theorem unbounded_iff (h : SameExtent cap L M) : Unbounded L ↔ Unbounded M := h .unbounded

/-- Products have the same extents when the factors have. -/
theorem mul (h : SameExtent cap L L') (h' : SameExtent cap M M') :
    SameExtent cap (L * M) (L' * M') := by
  obtain ⟨x, hx, hx'⟩ := h.exists_hasExtent
  obtain ⟨y, hy, hy'⟩ := h'.exists_hasExtent
  exact (hx.mul hy).sameExtent (hx'.mul hy')

/-- Unions have the same extents when the parts have. -/
theorem add (h : SameExtent cap L L') (h' : SameExtent cap M M') :
    SameExtent cap (L + M) (L' + M') := by
  obtain ⟨x, hx, hx'⟩ := h.exists_hasExtent
  obtain ⟨y, hy, hy'⟩ := h'.exists_hasExtent
  exact (hx.add hy).sameExtent (hx'.add hy')

/-- Iterations have the same extents when the languages have. -/
theorem iterate (hcap : 0 < cap) (h : SameExtent cap L M) {least : ℕ} {most : Option ℕ}
    (hbounds : ∀ limit ∈ most, least ≤ limit) :
    SameExtent cap (LanguageLengths.iterate L least most)
      (LanguageLengths.iterate M least most) := by
  obtain ⟨x, hx, hx'⟩ := h.exists_hasExtent
  exact (hx.iterate hcap hbounds).sameExtent (hx'.iterate hcap hbounds)

end SameExtent

end LanguageLengths

import Mathlib.Data.List.GetD
import Mathlib.Data.List.Induction
import Mathlib.Data.List.Sort
import Mathlib.Data.Nat.Bitwise

/-!
# Sets of numbers as bits of words

A list of words of one width holds a set of natural numbers: number `b` is bit `b % w` of word
`b / w`. The members come out in increasing order when every word gives up its lowest bit until
none is left.

## Main definitions

* `containsBit`, `setBit`: one number;
* `wordBits`, `members`: the numbers that are held, by removing lowest bits;
* `popCount`: how many numbers are held;
* `union`: the words of two sets combined.

## Main results

* `containsBit_setBit`, `containsBit_union`: what the operations hold;
* `members_eq_filter_range`: the members, in order;
* `length_members`: there are as many members as bits are set.
-/

namespace WordBits

variable {w : ℕ}

/-- Whether a number is held. -/
def containsBit (words : List (BitVec w)) (bit : ℕ) : Bool :=
  (words.getD (bit / w) 0#w &&& (1#w <<< (bit % w))) != 0#w

/-- Adds a number. -/
def setBit (words : List (BitVec w)) (bit : ℕ) : List (BitVec w) :=
  words.modify (bit / w) (· ||| (1#w <<< (bit % w)))

/-- Adds the members of another set. -/
def union (words other : List (BitVec w)) : List (BitVec w) :=
  words.zipIdx.map fun item => item.1 ||| other.getD item.2 0#w

/-- The bits of a word: the lowest one is taken and cleared until the word is zero. -/
def wordBits (word : BitVec w) : List ℕ :=
  if _h : word = 0#w then [] else word.ctz.toNat :: wordBits (word &&& (word - 1#w))
termination_by word.toNat
decreasing_by
  have hpos : 0 < word.toNat := by
    rw [Nat.pos_iff_ne_zero]
    exact fun hzero => _h (BitVec.eq_of_toNat_eq (by simpa using hzero))
  rw [BitVec.toNat_and]
  refine lt_of_le_of_lt Nat.and_le_right ?_
  have hone : (1#w).toNat ≤ 1 := by
    rw [BitVec.toNat_ofNat]
    exact Nat.mod_le _ _
  have hw : 0 < w := by
    by_contra hw
    obtain rfl : w = 0 := by omega
    exact _h (BitVec.eq_nil word ▸ rfl)
  have hone : (1#w).toNat = 1 := by
    rw [BitVec.toNat_ofNat]
    exact Nat.mod_eq_of_lt (Nat.one_lt_two_pow hw.ne')
  rw [BitVec.toNat_sub_of_le (by rw [BitVec.le_def, hone]; omega), hone]
  omega

/-- The numbers that a list of words holds, word by word. -/
def members (words : List (BitVec w)) : List ℕ :=
  words.zipIdx.flatMap fun item => (wordBits item.1).map (item.2 * w + ·)

/-- How many bits a list of words has set. -/
def popCount (words : List (BitVec w)) : ℕ := (words.map fun word => word.cpop.toNat).sum

/-! ### One number -/

/-- The test of one bit with a shifted mask. -/
theorem and_shiftLeft_bne_zero (word : BitVec w) {i : ℕ} (hi : i < w) :
    ((word &&& (1#w <<< i)) != 0#w) = word.getLsbD i := by
  rw [← BitVec.twoPow_eq, BitVec.and_twoPow]
  split
  next hbit =>
    rw [hbit, bne_iff_ne]
    intro hzero
    have hget := congrArg (fun word => BitVec.getLsbD word i) hzero
    simp [hi] at hget
  next hbit => simpa using hbit

/-- A bit is looked up in its word. -/
theorem containsBit_eq_getLsbD (hw : 0 < w) (words : List (BitVec w)) (bit : ℕ) :
    containsBit words bit = (words.getD (bit / w) 0#w).getLsbD (bit % w) :=
  and_shiftLeft_bne_zero _ (Nat.mod_lt _ hw)

/-- No bit of zero words is set. -/
theorem containsBit_replicate (hw : 0 < w) (count bit : ℕ) :
    containsBit (List.replicate count 0#w) bit = false := by
  rw [containsBit_eq_getLsbD hw, List.getD_eq_getElem?_getD,
    List.getElem?_getD_replicate_default_eq, BitVec.getLsbD_zero]

/-- Setting a bit keeps the number of words. -/
@[simp]
theorem length_setBit (words : List (BitVec w)) (bit : ℕ) :
    (setBit words bit).length = words.length := List.length_modify ..

/-- Adding a number adds that number. -/
theorem containsBit_setBit (hw : 0 < w) {words : List (BitVec w)} {bit : ℕ}
    (hbit : bit / w < words.length) (other : ℕ) :
    containsBit (setBit words bit) other = (decide (other = bit) || containsBit words other) := by
  have hlt : other % w < w := Nat.mod_lt _ hw
  rw [containsBit_eq_getLsbD hw, containsBit_eq_getLsbD hw, setBit, List.getD_eq_getElem?_getD,
    List.getElem?_modify, List.getD_eq_getElem?_getD]
  by_cases hword : bit / w = other / w
  · rw [← hword, List.getElem?_eq_getElem hbit]
    simp only [Option.map_eq_map, Option.map_some, Option.getD_some, if_true]
    rw [BitVec.getLsbD_or, ← BitVec.twoPow_eq, BitVec.getLsbD_twoPow, Bool.or_comm]
    -- in one word, numbers are equal when their bits are
    have hiff : bit % w = other % w ↔ other = bit := by
      constructor
      · intro hmod
        rw [← Nat.div_add_mod other w, ← Nat.div_add_mod bit w, hword, hmod]
      · rintro rfl
        rfl
    have hbitlt : bit % w < w := Nat.mod_lt _ hw
    simp [hbitlt, hiff]
  · have hne : other ≠ bit := fun heq => hword (heq ▸ rfl)
    simp [hword, hne]

/-- A loop whose rounds each set the bits of one item, and keep an invariant, sets the bits of all
items. -/
theorem containsBit_foldl {σ β : Type} {step : σ → β → σ} {wordsOf : σ → List (BitVec w)}
    {Invariant : σ → Prop} {Sets : β → ℕ → Prop} {items : List β}
    (hstep : ∀ item ∈ items, ∀ state, Invariant state → Invariant (step state item) ∧
      ∀ bit, containsBit (wordsOf (step state item)) bit = true ↔
        containsBit (wordsOf state) bit = true ∨ Sets item bit)
    {state : σ} (hstate : Invariant state) :
    Invariant (items.foldl step state) ∧
      ∀ bit, containsBit (wordsOf (items.foldl step state)) bit = true ↔
        containsBit (wordsOf state) bit = true ∨ ∃ item ∈ items, Sets item bit := by
  induction items generalizing state with
  | nil => exact ⟨hstate, by simp⟩
  | cons item items ih =>
    obtain ⟨hfirst, hrest⟩ := List.forall_mem_cons.mp hstep
    obtain ⟨hnext, hbits⟩ := hfirst state hstate
    obtain ⟨hdone, hall⟩ := ih hrest hnext
    refine ⟨hdone, fun bit => ?_⟩
    rw [List.foldl_cons, hall, hbits]
    simp [or_assoc]

/-- The union holds what either holds, as far as it has words. -/
theorem containsBit_union (hw : 0 < w) {words other : List (BitVec w)}
    (hlength : words.length = other.length) (bit : ℕ) :
    containsBit (union words other) bit = (containsBit words bit || containsBit other bit) := by
  rw [containsBit_eq_getLsbD hw, containsBit_eq_getLsbD hw, containsBit_eq_getLsbD hw, union]
  simp only [List.getD_eq_getElem?_getD, List.getElem?_map, List.getElem?_zipIdx]
  by_cases hlt : bit / w < words.length
  · have hother : bit / w < other.length := hlength ▸ hlt
    simp [List.getElem?_eq_getElem hlt, List.getElem?_eq_getElem hother]
  · rw [List.getElem?_eq_none (not_lt.mp hlt), List.getElem?_eq_none (hlength ▸ not_lt.mp hlt)]
    simp

/-- Words behind others hold the numbers from there on. -/
theorem containsBit_append (hw : 0 < w) (words other : List (BitVec w)) (bit : ℕ) :
    containsBit (words ++ other) bit = if bit < words.length * w then containsBit words bit
      else containsBit other (bit - words.length * w) := by
  rw [containsBit_eq_getLsbD hw, containsBit_eq_getLsbD hw, containsBit_eq_getLsbD hw,
    List.getD_eq_getElem?_getD, List.getD_eq_getElem?_getD, List.getD_eq_getElem?_getD]
  by_cases hbit : bit < words.length * w
  · rw [if_pos hbit, List.getElem?_append_left ((Nat.div_lt_iff_lt_mul hw).mpr hbit)]
  · obtain ⟨rest, rfl⟩ := Nat.exists_eq_add_of_le (not_lt.mp hbit)
    have hdiv : (words.length * w + rest) / w = words.length + rest / w := by
      rw [Nat.mul_comm, Nat.mul_add_div hw]
    have hmod : (words.length * w + rest) % w = rest % w := by
      rw [Nat.mul_comm, Nat.mul_add_mod]
    rw [if_neg hbit, hdiv, hmod, List.getElem?_append_right (Nat.le_add_right _ _),
      Nat.add_sub_cancel_left, Nat.add_sub_cancel_left]

/-- Lists of as many words that hold the same numbers are equal. -/
theorem eq_of_containsBit (hw : 0 < w) {words other : List (BitVec w)}
    (hlength : words.length = other.length)
    (hbits : ∀ bit, containsBit words bit = containsBit other bit) : words = other := by
  refine List.ext_getElem hlength fun i hi hi' => BitVec.eq_of_getLsbD_eq fun j hj => ?_
  have hdiv : (i * w + j) / w = i := by
    rw [Nat.mul_comm, Nat.mul_add_div hw, Nat.div_eq_of_lt hj, Nat.add_zero]
  have hmod : (i * w + j) % w = j := by
    rw [Nat.mul_comm, Nat.mul_add_mod, Nat.mod_eq_of_lt hj]
  have hbit := hbits (i * w + j)
  rw [containsBit_eq_getLsbD hw, containsBit_eq_getLsbD hw, hdiv, hmod,
    List.getD_eq_getElem _ _ hi, List.getD_eq_getElem _ _ hi'] at hbit
  exact hbit

/-- A union keeps the number of words. -/
@[simp]
theorem length_union (words other : List (BitVec w)) :
    (union words other).length = words.length := by
  rw [union, List.length_map, List.length_zipIdx]

/-! ### Members in order -/

/-- Clearing the lowest bit leaves the others. -/
theorem getLsbD_and_sub_one {word : BitVec w} (hword : word ≠ 0#w) (i : ℕ) :
    (word &&& (word - 1#w)).getLsbD i = (word.getLsbD i && decide (i ≠ word.ctz.toNat)) := by
  have hlow := BitVec.getLsbD_true_ctz_of_ne_zero hword
  have hbelow : ∀ i < word.ctz.toNat, word.toNat.testBit i = false := fun i hi =>
    BitVec.getLsbD_false_of_lt_ctz hi
  have ht : word.ctz.toNat < w := BitVec.lt_of_getLsbD hlow
  set t := word.ctz.toNat with htdef
  have hlow : word.toNat.testBit t = true := hlow
  -- the number is an odd multiple of the power of its lowest bit
  have hmod : word.toNat % 2 ^ t = 0 := by
    apply Nat.eq_of_testBit_eq
    intro i
    rw [Nat.testBit_mod_two_pow, Nat.zero_testBit]
    by_cases hi : i < t
    · rw [hbelow i hi, Bool.and_false]
    · rw [decide_eq_false hi, Bool.false_and]
  obtain ⟨k, hk⟩ : ∃ k, word.toNat = 2 ^ t * (2 * k + 1) := by
    have hodd : word.toNat / 2 ^ t % 2 = 1 := by
      rw [Nat.testBit_eq_decide_div_mod_eq] at hlow
      exact of_decide_eq_true hlow
    refine ⟨word.toNat / 2 ^ t / 2, ?_⟩
    rw [← Nat.div_add_mod word.toNat (2 ^ t)]
    rw [hmod, Nat.add_zero, Nat.mul_div_cancel_left _ (Nat.two_pow_pos t)]
    congr 1
    omega
  have hpos := Nat.two_pow_pos t
  have hone : (1#w).toNat = 1 := by
    rw [BitVec.toNat_ofNat]
    exact Nat.mod_eq_of_lt (Nat.one_lt_two_pow (by omega))
  have hsub : (word - 1#w).toNat = 2 ^ t * (2 * k) + (2 ^ t - 1) := by
    rw [BitVec.toNat_sub_of_le (by rw [BitVec.le_def, hone, hk]; exact Nat.mul_pos hpos (by omega)),
      hone, hk, Nat.mul_succ]
    omega
  show (word &&& (word - 1#w)).toNat.testBit i = _
  rw [BitVec.toNat_and, Nat.testBit_and, hsub]
  show (word.getLsbD i && _) = _
  by_cases hi : i < t
  · have hfalse : word.getLsbD i = false := hbelow i hi
    rw [hfalse, Bool.false_and, Bool.false_and]
  · rw [Nat.testBit_two_pow_mul_add _ (by omega), if_neg hi]
    have hbit : word.getLsbD i = (2 * k + 1).testBit (i - t) := by
      show word.toNat.testBit i = _
      rw [hk, Nat.testBit_two_pow_mul, decide_eq_true (not_lt.mp hi), Bool.true_and]
    rw [hbit]
    obtain ⟨j, rfl⟩ := Nat.exists_eq_add_of_le (not_lt.mp hi)
    rw [Nat.add_sub_cancel_left]
    cases j with
    | zero => simp
    | succ j =>
      -- above the lowest bit an odd number and its predecessor agree
      rw [Nat.testBit_succ, Nat.testBit_succ]
      have hhalf : (2 * k + 1) / 2 = 2 * k / 2 := by omega
      simp [hhalf]

/-- The bits of a word are the set ones. -/
theorem mem_wordBits {word : BitVec w} {i : ℕ} :
    i ∈ wordBits word ↔ word.getLsbD i = true := by
  induction word using wordBits.induct with
  | case1 =>
    rw [wordBits, dif_pos rfl]
    simp
  | case2 word hword ih =>
    rw [wordBits, dif_neg hword, List.mem_cons, ih, getLsbD_and_sub_one hword, Bool.and_eq_true,
      decide_eq_true_eq]
    constructor
    · rintro (rfl | hrest)
      · exact BitVec.getLsbD_true_ctz_of_ne_zero hword
      · exact hrest.1
    · intro hbit
      by_cases hi : i = word.ctz.toNat
      · exact Or.inl hi
      · exact Or.inr ⟨hbit, hi⟩

/-- The bits of a word are listed in order. -/
theorem pairwise_lt_wordBits (word : BitVec w) : (wordBits word).Pairwise (· < ·) := by
  induction word using wordBits.induct with
  | case1 =>
    rw [wordBits, dif_pos rfl]
    exact List.Pairwise.nil
  | case2 word hword ih =>
    rw [wordBits, dif_neg hword]
    refine List.Pairwise.cons (fun i hi => ?_) ih
    rw [mem_wordBits, getLsbD_and_sub_one hword, Bool.and_eq_true, decide_eq_true_eq] at hi
    by_contra hle
    have hlt : i < word.ctz.toNat := by omega
    rw [BitVec.getLsbD_false_of_lt_ctz hlt] at hi
    exact Bool.false_ne_true hi.1

/-- The bits of a word, in order. -/
theorem wordBits_eq_filter_range (word : BitVec w) :
    wordBits word = (List.range w).filter word.getLsbD := by
  refine (pairwise_lt_wordBits word).eq_of_mem_iff
    (List.pairwise_lt_range.sublist List.filter_sublist) fun i => ?_
  rw [mem_wordBits, List.mem_filter, List.mem_range]
  exact ⟨fun h => ⟨BitVec.lt_of_getLsbD h, h⟩, And.right⟩

/-- The numbers held, in increasing order. -/
theorem members_eq_filter_range (hw : 0 < w) (words : List (BitVec w)) :
    members words = (List.range (words.length * w)).filter (containsBit words) := by
  induction words using List.reverseRecOn with
  | nil => simp [members]
  | append_singleton words word ih =>
    -- the words before keep their bits, the last one has the bits behind them
    have hold : ∀ bit < words.length * w,
        containsBit words bit = containsBit (words ++ [word]) bit := by
      intro bit hbit
      have hlt : bit / w < words.length := (Nat.div_lt_iff_lt_mul hw).mpr hbit
      rw [containsBit_eq_getLsbD hw, containsBit_eq_getLsbD hw, List.getD_eq_getElem?_getD,
        List.getD_eq_getElem?_getD, List.getElem?_append_left hlt]
    have hnew : ∀ i < w, word.getLsbD i =
        containsBit (words ++ [word]) (words.length * w + i) := by
      intro i hi
      have hdiv : (words.length * w + i) / w = words.length := by
        rw [Nat.mul_comm, Nat.mul_add_div hw, Nat.div_eq_of_lt hi, Nat.add_zero]
      have hmod : (words.length * w + i) % w = i := by
        rw [Nat.mul_comm, Nat.mul_add_mod, Nat.mod_eq_of_lt hi]
      rw [containsBit_eq_getLsbD hw, hdiv, hmod, List.getD_eq_getElem?_getD,
        List.getElem?_append_right (le_refl _), Nat.sub_self]
      rfl
    have hsplit : members (words ++ [word]) =
        members words ++ (wordBits word).map (words.length * w + ·) := by
      simp [members, List.zipIdx_append]
    rw [hsplit, ih, wordBits_eq_filter_range, List.length_append, List.length_singleton,
      Nat.add_mul, Nat.one_mul, List.range_add, List.filter_append, List.filter_map]
    congr 1
    · exact List.filter_congr fun bit hbit => hold bit (List.mem_range.mp hbit)
    · congr 1
      exact List.filter_congr fun i hi => hnew i (List.mem_range.mp hi)

/-! ### How many -/

/-- The recursion counts the set bits. -/
theorem cpopNatRec_eq_length_filter (word : BitVec w) (n acc : ℕ) :
    word.cpopNatRec n acc = ((List.range n).filter word.getLsbD).length + acc := by
  induction n generalizing acc with
  | zero => exact (Nat.zero_add acc).symm
  | succ n ih =>
    rw [BitVec.cpopNatRec_succ, ih, List.range_succ, List.filter_append, List.length_append,
      Nat.add_assoc, Nat.add_comm acc]
    congr 2
    cases hbit : word.getLsbD n with
    | true => rw [List.filter_singleton, hbit]; rfl
    | false => rw [List.filter_singleton, hbit]; rfl

/-- The population count of a word is the number of its bits. -/
theorem length_wordBits (word : BitVec w) : (wordBits word).length = word.cpop.toNat := by
  rw [wordBits_eq_filter_range, BitVec.toNat_cpop, cpopNatRec_eq_length_filter, Nat.add_zero]

/-- There are as many members as bits are set. -/
theorem length_members (words : List (BitVec w)) : (members words).length = popCount words := by
  have hword : (fun item : BitVec w × ℕ => ((wordBits item.1).map (item.2 * w + ·)).length) =
      (fun word => word.cpop.toNat) ∘ Prod.fst := by
    funext item
    rw [List.length_map, length_wordBits]
    rfl
  rw [members, List.length_flatMap, hword, ← List.map_map, List.zipIdx_map_fst, popCount]

/-- The bits of slices are counted slice by slice. -/
theorem popCount_flatten (slices : List (List (BitVec w))) :
    popCount slices.flatten = (slices.map popCount).sum := by
  unfold popCount
  rw [List.map_flatten, List.sum_flatten, List.map_map]
  rfl

/-- No more bits are set than there are. -/
theorem popCount_le (hw : 0 < w) (words : List (BitVec w)) : popCount words ≤ words.length * w := by
  rw [← length_members, members_eq_filter_range hw]
  refine (List.length_filter_le _ _).trans ?_
  rw [List.length_range]

end WordBits

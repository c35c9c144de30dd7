import Rustmatch.Prefilter

/-!
# Candidate bitmaps

A bitmap keeps its members as the bits of words and their number as a counter. Inserts raise the
counter when the bit was not set, and a copy of a shorter bitmap takes its counter over. A bitmap
that was made by such calls holds what was inserted, its counter is how many that are, and its
iterator yields them in order.

## Main definitions

* `CandidateBitmap.Holds`: what a bitmap holds;
* `CandidateBitmap.Built`: the bitmaps that calls make, and what was inserted.

## Main results

* `CandidateBitmap.Built.holds`, `CandidateBitmap.Built.iter_eq`: a built bitmap holds and yields
  what was inserted;
* `CandidateBitmap.Built.count_eq_length`: its counter is how many that are;
* `iter_allCandidates`: the candidates of a plan.
-/

open WordBits

namespace Rustmatch

namespace CandidateBitmap

/-! ### What a bitmap holds -/

/-- The bitmap holds the numbers below `length` that satisfy `held`. -/
structure Holds (candidates : CandidateBitmap) (length : ℕ) (held : ℕ → Prop) : Prop where
  /-- There are words for all numbers, and no more. -/
  length_eq : candidates.words.length = length ⌈/⌉ 64
  /-- The set bits are the numbers held. -/
  containsBit_iff : ∀ bit, containsBit candidates.words bit = true ↔ bit < length ∧ held bit

/-- Numbers below the length have a word. -/
theorem Holds.div_lt {candidates : CandidateBitmap} {length : ℕ} {held : ℕ → Prop}
    (h : candidates.Holds length held) {bit : ℕ} (hbit : bit < length) :
    bit / 64 < candidates.words.length := by
  rw [h.length_eq, Nat.ceilDiv_eq_add_pred_div]
  omega

/-- A new bitmap holds nothing. -/
theorem holds_new (length : ℕ) : (new length).Holds length fun _ => False where
  length_eq := List.length_replicate
  containsBit_iff bit := by
    rw [new, containsBit_replicate (by decide)]
    simp

/-- An insertion holds one number more. -/
theorem Holds.insert {candidates : CandidateBitmap} {length : ℕ} {held : ℕ → Prop}
    (h : candidates.Holds length held) {start : ℕ} (hstart : start < length) :
    (candidates.insert start).Holds length fun bit => bit = start ∨ held bit := by
  unfold CandidateBitmap.insert
  split
  -- the bit is set already, and the bitmap stays as it is
  next hold =>
    refine ⟨h.length_eq, fun bit => ?_⟩
    rw [h.containsBit_iff]
    rw [h.containsBit_iff] at hold
    constructor
    · exact fun hbit => ⟨hbit.1, Or.inr hbit.2⟩
    · rintro ⟨hbit, rfl | hheld⟩
      · exact hold
      · exact ⟨hbit, hheld⟩
  next =>
    refine ⟨by rw [length_setBit, h.length_eq], fun bit => ?_⟩
    rw [containsBit_setBit (by decide) (h.div_lt hstart), Bool.or_eq_true, decide_eq_true_eq,
      h.containsBit_iff]
    constructor
    · rintro (rfl | ⟨hbit, hheld⟩)
      · exact ⟨hstart, Or.inl rfl⟩
      · exact ⟨hbit, Or.inr hheld⟩
    · rintro ⟨hbit, rfl | hheld⟩
      · exact Or.inl rfl
      · exact Or.inr ⟨hbit, hheld⟩

/-- A fresh bitmap takes over what a shorter one holds. -/
theorem Holds.copyPrefix {sample : CandidateBitmap} {sampleLen length : ℕ} {held : ℕ → Prop}
    (h : sample.Holds sampleLen held) (hle : sampleLen ≤ length) :
    ((new length).copyPrefix sample).Holds length fun bit => bit < sampleLen ∧ held bit := by
  have hwords : sample.words.length ≤ length ⌈/⌉ 64 := by
    rw [h.length_eq, Nat.ceilDiv_eq_add_pred_div, Nat.ceilDiv_eq_add_pred_div]
    omega
  refine ⟨?_, fun bit => ?_⟩
  · show (sample.words ++ (List.replicate (length ⌈/⌉ 64) 0#64).drop _).length = _
    rw [List.length_append, List.length_drop, List.length_replicate]
    omega
  -- behind the words of the sample there are only zero words
  · have hbit : containsBit ((new length).copyPrefix sample).words bit =
        containsBit sample.words bit := by
      show containsBit (sample.words ++ (List.replicate (length ⌈/⌉ 64) 0#64).drop _) bit = _
      rw [containsBit_eq_getLsbD (by decide), containsBit_eq_getLsbD (by decide),
        List.getD_eq_getElem?_getD, List.getD_eq_getElem?_getD, List.getElem?_append,
        List.drop_replicate]
      split
      · rfl
      next hlt =>
        rw [List.getElem?_getD_replicate_default_eq, List.getElem?_eq_none (not_lt.mp hlt)]
        rfl
    rw [hbit, h.containsBit_iff]
    constructor
    · rintro ⟨hlt, hheld⟩
      exact ⟨by omega, hlt, hheld⟩
    · exact And.right

/-- The members, in order. -/
theorem Holds.iter_eq {candidates : CandidateBitmap} {length : ℕ} {allows : ℕ → Bool}
    (h : candidates.Holds length fun bit => allows bit = true) :
    candidates.iter = (List.range length).filter allows := by
  unfold iter
  rw [members_eq_filter_range (by decide)]
  refine (List.pairwise_lt_range.filter _).eq_of_mem_iff (List.pairwise_lt_range.filter _)
    fun bit => ?_
  rw [List.mem_filter, List.mem_filter, List.mem_range, List.mem_range, h.containsBit_iff]
  constructor
  · exact fun hbit => hbit.2
  · exact fun hbit => ⟨(Nat.div_lt_iff_lt_mul (by decide)).mp (h.div_lt hbit.1), hbit⟩

/-! ### Inserts -/

/-- The bitmaps over `length` starts that calls make: a new one, one that has copied a bitmap over a
shorter prefix, and these after inserts. The list holds what was inserted, repeats included. -/
inductive Built : ℕ → CandidateBitmap → List ℕ → Prop where
  /-- A new bitmap holds nothing. -/
  | new (length : ℕ) : Built length (CandidateBitmap.new length) []
  /-- A copied bitmap holds what it was copied from. -/
  | copyPrefix {sampleLen length : ℕ} {sample : CandidateBitmap} {positions : List ℕ}
      (hsample : Built sampleLen sample positions) (hle : sampleLen ≤ length) :
      Built length ((CandidateBitmap.new length).copyPrefix sample) positions
  /-- An insertion holds one start more. -/
  | insert {length : ℕ} {candidates : CandidateBitmap} {positions : List ℕ} {start : ℕ}
      (hcandidates : Built length candidates positions) (hstart : start < length) :
      Built length (candidates.insert start) (positions ++ [start])

variable {length : ℕ} {candidates : CandidateBitmap} {positions : List ℕ}

/-- What was inserted is in range. -/
theorem Built.lt_length (h : candidates.Built length positions) :
    ∀ start ∈ positions, start < length := by
  induction h with
  | new => exact fun start hstart => absurd hstart List.not_mem_nil
  | copyPrefix hsample hle ih => exact fun start hstart => (ih start hstart).trans_le hle
  | insert hcandidates hstart ih =>
    refine List.forall_mem_append.mpr ⟨ih, ?_⟩
    exact List.forall_mem_singleton.mpr hstart

/-- A built bitmap holds what was inserted. -/
theorem Built.holds (h : candidates.Built length positions) :
    candidates.Holds length (· ∈ positions) := by
  induction h with
  | new length =>
    refine ⟨(holds_new length).length_eq, fun bit =>
      ((holds_new length).containsBit_iff bit).trans ?_⟩
    rw [List.mem_nil_iff]
  | copyPrefix hsample hle ih =>
    have hcopy := ih.copyPrefix hle
    refine ⟨hcopy.length_eq, fun bit => (hcopy.containsBit_iff bit).trans ?_⟩
    refine and_congr_right fun _ => and_iff_right_of_imp ?_
    exact hsample.lt_length bit
  | insert hcandidates hstart ih =>
    have hinsert := ih.insert hstart
    refine ⟨hinsert.length_eq, fun bit => (hinsert.containsBit_iff bit).trans ?_⟩
    rw [List.mem_append, List.mem_singleton, or_comm]

/-- A built bitmap counts what was inserted, repeats once. -/
theorem Built.count_eq (h : candidates.Built length positions) :
    candidates.count = positions.toFinset.card := by
  induction h with
  | new => rfl
  | copyPrefix hsample hle ih => exact ih
  | @insert length candidates positions start hcandidates hstart ih =>
    have hpositions : (positions ++ [start]).toFinset = Insert.insert start positions.toFinset := by
      ext bit
      rw [List.mem_toFinset, List.mem_append, List.mem_singleton, Finset.mem_insert,
        List.mem_toFinset, or_comm]
    have hbit := hcandidates.holds.containsBit_iff start
    rw [hpositions]
    unfold CandidateBitmap.insert
    split
    next hold =>
      -- a repeat changes neither the bits nor the counter
      rw [Finset.insert_eq_of_mem (List.mem_toFinset.mpr (hbit.mp hold).2)]
      exact ih
    next hnew =>
      rw [Finset.card_insert_of_notMem fun hmem =>
        hnew (hbit.mpr ⟨hstart, List.mem_toFinset.mp hmem⟩), ← ih]
      rfl

/-- The iterator yields what was inserted, in order. -/
theorem Built.iter_eq (h : candidates.Built length positions) :
    candidates.iter = (List.range length).filter (· ∈ positions) := by
  refine Holds.iter_eq ⟨h.holds.length_eq, fun bit => (h.holds.containsBit_iff bit).trans ?_⟩
  rw [decide_eq_true_eq]

/-- The starts that a test allows, once inserted, are yielded in order. -/
theorem Built.iter_filter_range {allows : ℕ → Bool}
    (h : candidates.Built length ((List.range length).filter allows)) :
    candidates.iter = (List.range length).filter allows := by
  rw [h.iter_eq]
  refine List.filter_congr fun start hstart => ?_
  rw [Bool.eq_iff_iff, decide_eq_true_eq, List.mem_filter]
  exact and_iff_right hstart

/-- Inserts one after the other. -/
theorem Built.foldl_insert (h : candidates.Built length positions) {starts : List ℕ}
    (hstarts : ∀ start ∈ starts, start < length) :
    (starts.foldl CandidateBitmap.insert candidates).Built length (positions ++ starts) := by
  induction starts generalizing candidates positions with
  | nil => rwa [List.append_nil]
  | cons start starts ih =>
    obtain ⟨hstart, hrest⟩ := List.forall_mem_cons.mp hstarts
    rw [List.foldl_cons, List.append_cons]
    exact ih (h.insert hstart) hrest

/-- Inserts keep the length that a bitmap was made for. -/
theorem Built.bitLen_eq (h : candidates.Built length positions) : candidates.bitLen = length := by
  induction h with
  | new => rfl
  | copyPrefix => rfl
  | insert hcandidates hstart ih =>
    unfold CandidateBitmap.insert
    split
    · exact ih
    · exact ih

/-- The loop that inserts the allowed starts. -/
theorem Built.insertAllowed {found : CandidateBitmap × ℕ} (h : found.1.Built length positions)
    {allows : ℕ → Bool} {starts : List ℕ} (hstarts : ∀ start ∈ starts, start < length) :
    (Rustmatch.insertAllowed allows starts found).1.Built length
      (positions ++ starts.filter allows) := by
  induction starts generalizing found positions with
  | nil => rwa [List.filter_nil, List.append_nil]
  | cons start starts ih =>
    obtain ⟨hstart, hrest⟩ := List.forall_mem_cons.mp hstarts
    unfold Rustmatch.insertAllowed at ih ⊢
    rw [List.foldl_cons]
    by_cases hallows : allows start = true
    · rw [if_pos hallows, List.filter_cons_of_pos hallows, List.append_cons]
      exact ih (h.insert hstart) hrest
    · rw [if_neg hallows, List.filter_cons_of_neg hallows]
      exact ih h hrest

/-- Two bitmaps that hold the same members and count them are equal. -/
theorem Holds.eq_of_popCount {held : ℕ → Prop} {other : CandidateBitmap}
    (h : candidates.Holds length held) (h' : other.Holds length held)
    (hcount : candidates.count = popCount candidates.words)
    (hcount' : other.count = popCount other.words) (hbitLen : candidates.bitLen = other.bitLen) :
    candidates = other := by
  have hwords : candidates.words = other.words := by
    refine eq_of_containsBit (by decide) (h.length_eq.trans h'.length_eq.symm) fun bit => ?_
    rw [Bool.eq_iff_iff, h.containsBit_iff, h'.containsBit_iff]
  obtain ⟨words, startCount, bitLen⟩ := candidates
  obtain ⟨words', startCount', bitLen'⟩ := other
  obtain rfl : words = words' := hwords
  obtain rfl : bitLen = bitLen' := hbitLen
  obtain rfl : startCount = startCount' := hcount.trans hcount'.symm
  rfl

/-- A built bitmap counts its members. -/
theorem Built.count_eq_length (h : candidates.Built length positions) :
    candidates.count = candidates.iter.length := by
  have hmembers : candidates.iter.toFinset = positions.toFinset := by
    ext bit
    rw [h.iter_eq, List.mem_toFinset, List.mem_toFinset, List.mem_filter, List.mem_range,
      decide_eq_true_eq]
    exact and_iff_right_of_imp (h.lt_length bit)
  have hnodup : candidates.iter.Nodup := by
    rw [h.iter_eq]
    exact List.nodup_range.filter _
  rw [h.count_eq, ← hmembers, List.toFinset_card_of_nodup hnodup]

end CandidateBitmap

/-- The candidates of a plan are built: those of the sample first, and after the copy the others. -/
theorem built_allCandidates (allows : ℕ → Bool) (length : ℕ) :
    (allCandidates allows length).1.Built length ((List.range length).filter allows) := by
  have hle : min length densitySampleUnits ≤ length := Nat.min_le_left _ _
  unfold allCandidates sampleCandidates
  set sampleLen := min length densitySampleUnits with hsampleLen
  have hsample := @CandidateBitmap.Built.insertAllowed sampleLen []
    (CandidateBitmap.new sampleLen, 0) (CandidateBitmap.Built.new sampleLen) allows
    (List.range sampleLen) fun start hstart => List.mem_range.mp hstart
  have hrange : List.range length = List.range sampleLen ++
      List.range' sampleLen (length - sampleLen) := by
    have happend : List.range' 0 sampleLen ++ List.range' (0 + sampleLen) (length - sampleLen) =
        List.range' 0 (sampleLen + (length - sampleLen)) := List.range'_append_1
    rw [Nat.zero_add, Nat.add_sub_cancel' hle] at happend
    rw [List.range_eq_range', List.range_eq_range', happend]
  rw [hrange, List.filter_append]
  refine CandidateBitmap.Built.insertAllowed (hsample.copyPrefix hle) fun start hstart => ?_
  have := List.mem_range'_1.mp hstart
  omega

example : (([129, 1, 64, 1].foldl CandidateBitmap.insert (CandidateBitmap.new 130)).count,
    ([129, 1, 64, 1].foldl CandidateBitmap.insert (CandidateBitmap.new 130)).bitLen) =
      (3, 130) := by
  decide

/-- The candidates of a plan are the starts that its filter allows, in order. -/
theorem iter_allCandidates (allows : ℕ → Bool) (length : ℕ) :
    (allCandidates allows length).1.iter = (List.range length).filter allows :=
  (built_allCandidates allows length).iter_filter_range

end Rustmatch

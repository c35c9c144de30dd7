import Rustmatch.SharedCandidate

/-!
# Shared candidates and private ones

A partition finds the same starts among the shared candidates as it finds by itself. Three tests
have to agree on this: that of the partition's own filter, that of the union of all filters, and
that of the vector kernel. The union tests a start as the filters do, over tables that hold more, so
it lets through what any filter admits. The kernel only knows literals of five units, and it rejects
starts with fewer than five units left. A filter admits those when one of the units is not ASCII, so
with the kernel the last starts of an input may be missing. No pattern of five units begins there.

## Main definitions

* `Prefilter.Made`: the prefilters of the crate;
* `LiteralPrefilter.privateStarts`: what a partition finds by itself;
* `kernelServes`: whether the kernel serves the shards.

## Main results

* `PrefixTables.allows_iff`: the test of a start, case by case;
* `count_scanWordSlice`: a shard counts the bits that it sets;
* `shared_candidates_match_private`: shared candidates and private ones.
-/

open WordBits

namespace Rustmatch

/-! ### What shards count -/

section Shards

variable {machine : Machine} {filter : UnionLiteralFilter} {input : List UInt16}

/-- The scalar loop counts the starts that it allows. -/
theorem count_foldl_addAllowed (firstStart : ℕ) (words : List Word) (count : ℕ) :
    ((List.range count).foldl (addAllowed filter input firstStart) (words, 0)).2 =
      min ((List.range count).filter fun bit =>
        filter.allowsStart input (firstStart + bit)).length usizeMax := by
  induction count with
  | zero => exact (Nat.zero_min _).symm
  | succ count ih =>
    rw [List.range_succ, List.foldl_append, List.foldl_cons, List.foldl_nil, List.filter_append,
      List.length_append, List.filter_singleton]
    unfold addAllowed at ih ⊢
    cases hallows : filter.allowsStart input (firstStart + count) with
    | false => exact ih
    | true =>
      show saturatingAdd _ 1 = _
      rw [ih]
      unfold saturatingAdd
      show _ = min (_ + 1) usizeMax
      omega

/-- The scalar code counts the bits that it sets. -/
theorem count_scanWordSliceScalar (hlength : input.length ≤ maxUnits) (firstStart : ℕ)
    {wordCount : ℕ} (hcount : wordCount * 64 ≤ usizeMax) :
    (scanWordSliceScalar filter input firstStart (List.replicate wordCount 0#64)).2 =
      popCount (scanWordSliceScalar filter input firstStart (List.replicate wordCount 0#64)).1 := by
  have hwritten := @startsWritten_scanWordSliceScalar filter input hlength firstStart wordCount
  have hle : min (saturatingAdd firstStart (saturatingMul wordCount 64)) input.length -
      firstStart ≤ wordCount * 64 := by
    unfold saturatingAdd saturatingMul
    omega
  rw [← length_members, members_eq_filter_range (by decide), hwritten.length_eq]
  unfold scanWordSliceScalar at hwritten ⊢
  dsimp only at hwritten ⊢
  rw [List.length_replicate] at hwritten ⊢
  -- the loop stops where the input does, and no start is allowed from there on
  have hstarts : (List.range (wordCount * 64)).filter (containsBit
      ((List.range (min (saturatingAdd firstStart (saturatingMul wordCount 64)) input.length -
        firstStart)).foldl (addAllowed filter input firstStart)
          (List.replicate wordCount 0#64, 0)).1) =
      (List.range (min (saturatingAdd firstStart (saturatingMul wordCount 64)) input.length -
        firstStart)).filter fun bit => filter.allowsStart input (firstStart + bit) := by
    refine (List.pairwise_lt_range.filter _).eq_of_mem_iff (List.pairwise_lt_range.filter _)
      fun bit => ?_
    rw [List.mem_filter, List.mem_filter, List.mem_range, List.mem_range, hwritten.containsBit_eq,
      Bool.and_eq_true, decide_eq_true_eq]
    constructor
    · rintro ⟨hbit, -, hallows⟩
      have hinside := lt_length_of_allowsStart hallows
      refine ⟨?_, hallows⟩
      unfold maxUnits at hlength
      unfold saturatingAdd saturatingMul usizeMax
      omega
    · rintro ⟨hbit, hallows⟩
      exact ⟨by omega, by omega, hallows⟩
  rw [count_foldl_addAllowed, hstarts]
  refine min_eq_left (le_trans (List.length_filter_le _ _) ?_)
  rw [List.length_range]
  exact hle.trans hcount

/-- A shard counts the bits that it sets. -/
theorem count_scanWordSlice (hlength : input.length ≤ maxUnits) (firstWord : ℕ) {wordCount : ℕ}
    (hcount : wordCount * 64 ≤ usizeMax) :
    (scanWordSlice machine filter input firstWord (List.replicate wordCount 0#64)).2 =
      popCount (scanWordSlice machine filter input firstWord
        (List.replicate wordCount 0#64)).1 := by
  unfold scanWordSlice
  dsimp only
  split
  next written hvector =>
    split at hvector
    next =>
      unfold scanFiveHashWords at hvector
      split at hvector
      next => cases hvector
      next =>
        obtain rfl := Option.some.inj hvector
        apply count_scanFiveHashWordsAvx2
        rwa [List.length_replicate]
    next => cases hvector
  next => exact count_scanWordSliceScalar hlength _ hcount

/-- Slices of words without bits have no bits. -/
theorem mem_chunks_replicate {size : ℕ} (hsize : 0 < size) (count : ℕ) :
    ∀ slice ∈ chunks size (List.replicate count 0#64),
      ∃ wordCount ≤ count, slice = List.replicate wordCount 0#64 := by
  induction count using Nat.strong_induction_on with
  | _ count ih =>
    by_cases hcount : count = 0
    · rw [hcount, List.replicate_zero, chunks_nil]
      exact fun slice hslice => absurd hslice List.not_mem_nil
    · rw [chunks_replicate hsize (by omega)]
      refine List.forall_mem_cons.mpr ⟨⟨_, Nat.min_le_right _ _, rfl⟩, fun slice hslice => ?_⟩
      obtain ⟨wordCount, hle, hslice⟩ := ih (count - size) (by omega) slice hslice
      exact ⟨wordCount, hle.trans (Nat.sub_le _ _), hslice⟩

/-- The shards together count the bits that they set. -/
theorem count_sharedShards (hlength : input.length ≤ maxUnits) {size : ℕ} (hsize : 0 < size) :
    ((sharedShards machine filter input size
        (CandidateBitmap.new input.length).words).map Prod.snd).foldl saturatingAdd 0 =
      popCount ((sharedShards machine filter input size
        (CandidateBitmap.new input.length).words).map Prod.fst).flatten := by
  have hcount := (length_le_words hlength).2
  have hshard : ∀ shard ∈ sharedShards machine filter input size
      (CandidateBitmap.new input.length).words, shard.2 = popCount shard.1 := by
    intro shard hshard
    obtain ⟨⟨slice, index⟩, hmem, rfl⟩ := List.mem_map.mp hshard
    obtain ⟨wordCount, hle, rfl⟩ := mem_chunks_replicate hsize _ slice
      (List.fst_mem_of_mem_zipIdx hmem)
    exact count_scanWordSlice hlength _ (by omega)
  have hcounts : (sharedShards machine filter input size
        (CandidateBitmap.new input.length).words).map Prod.snd =
      ((sharedShards machine filter input size
        (CandidateBitmap.new input.length).words).map Prod.fst).map popCount := by
    rw [List.map_map]
    exact List.map_congr_left hshard
  obtain ⟨hwords, -⟩ := @containsBit_shards machine filter input hlength size hsize
    (input.length ⌈/⌉ 64) 0 fun _ => by rw [Nat.zero_mul, Nat.zero_add]; exact hcount
  have hle := popCount_le (by decide : 0 < 64) ((sharedShards machine filter input size
    (CandidateBitmap.new input.length).words).map Prod.fst).flatten
  rw [hcounts, foldl_saturatingAdd _ (Nat.zero_le _), Nat.zero_add, ← popCount_flatten]
  refine min_eq_left (hle.trans ?_)
  unfold sharedShards CandidateBitmap.new
  rw [hwords]
  exact hcount

end Shards

/-- A shared plan counts the bits that are set. -/
theorem count_of_sharedPlan {machine : Machine} {partitions : List Prefilter} {input : List UInt16}
    (hlength : input.length ≤ maxUnits) {prefilterEnabled literalPrefilterEnabled : Bool}
    {plan : SharedCandidatePlan} (h : sharedPlan machine partitions input prefilterEnabled
      literalPrefilterEnabled = .ok (some plan)) :
    plan.candidates.count = popCount plan.candidates.words := by
  unfold sharedPlan at h
  dsimp only at h
  split at h
  next => cases h
  next =>
    split at h
    next => cases h
    next => cases h
    next =>
      split at h
      next => cases h
      next hsparse =>
        split at h
        next =>
          obtain rfl := Option.some.inj (Except.ok.inj h)
          refine count_sharedShards hlength (wordsPerShard_pos ?_ _)
          exact words_pos_of_sparse hsparse
        next => cases h

/-! ### What filters admit -/

/-- A conditional that is true in one branch is a disjunction. -/
theorem ite_true_eq_true_iff {p : Prop} [Decidable p] {b : Bool} :
    (if p then true else b) = true ↔ p ∨ b = true := by
  by_cases hp : p
  · rw [if_pos hp]
    exact iff_of_true rfl (Or.inl hp)
  · rw [if_neg hp]
    exact (or_iff_right hp).symm

/-- The test of a start, case by case. -/
theorem PrefixTables.allows_iff {tables : PrefixTables} {fourBits fiveBits : ℕ}
    {input : List UInt16} {start : ℕ} :
    tables.allows fourBits fiveBits input start = true ↔
      ((input.drop start).take 3).any (128 ≤ ·) = true ∨
      (tables.hasThree = true ∧ containsBit tables.asciiThreeExact
        (tripleIndex ((input.drop start).take 3)) = true) ∨
      ∃ four, getRange input start (start + 4) = some four ∧ (128 ≤ four.getD 3 0 ∨
        (tables.hasFour = true ∧
          containsBit tables.asciiFourHash (prefixHashIndex four fourBits) = true) ∨
        ∃ five, getRange input start (start + 5) = some five ∧ (128 ≤ five.getD 4 0 ∨
          (tables.hasFive = true ∧
            containsBit tables.asciiFiveHash (prefixHashIndex five fiveBits) = true))) := by
  unfold PrefixTables.allows
  dsimp only
  -- each early return is one alternative
  rw [ite_true_eq_true_iff, ite_true_eq_true_iff, Bool.and_eq_true]
  refine or_congr Iff.rfl (or_congr Iff.rfl ?_)
  cases getRange input start (start + 4) with
  | none => simp
  | some four =>
    rw [ite_true_eq_true_iff, ite_true_eq_true_iff, Bool.and_eq_true]
    simp only [Option.some.injEq, exists_eq_left']
    refine or_congr Iff.rfl (or_congr Iff.rfl ?_)
    cases getRange input start (start + 5) with
    | none => simp
    | some five =>
      rw [ite_true_eq_true_iff, Bool.and_eq_true]
      simp only [Option.some.injEq, exists_eq_left']

/-- Larger tables allow more. -/
theorem LiteralPrefilter.Extends.allows {filter filter' : LiteralPrefilter}
    (h : filter.Extends filter') {fourBits fiveBits : ℕ} {input : List UInt16} {start : ℕ}
    (hallows : PrefixTables.allows filter fourBits fiveBits input start = true) :
    PrefixTables.allows filter' fourBits fiveBits input start = true := by
  rw [PrefixTables.allows_iff] at hallows ⊢
  refine hallows.imp_right (Or.imp (And.imp h.hasThree (h.three.2 _)) ?_)
  rintro ⟨four, hfour, hallows⟩
  refine ⟨four, hfour, hallows.imp_right (Or.imp (And.imp h.hasFour (h.four.2 _)) ?_)⟩
  rintro ⟨five, hfive, hallows⟩
  exact ⟨five, hfive, hallows.imp_right (And.imp h.hasFive (h.five.2 _))⟩

/-- A large unit at some place of a list. -/
theorem any_of_getD {units : List UInt16} {i : ℕ} (h : 128 ≤ units.getD i 0) :
    units.any (128 ≤ ·) = true := by
  by_cases hi : i < units.length
  · rw [List.getD_eq_getElem _ _ hi] at h
    exact List.any_eq_true.mpr ⟨_, List.getElem_mem hi, decide_eq_true h⟩
  · rw [List.getD_eq_default _ _ (not_lt.mp hi)] at h
    exact absurd h (by decide)

/-- Where five units are left, the kernel allows what a filter of five units allows. -/
theorem scalarFiveAllows_of_allows {filter : LiteralPrefilter} {words : List Word} {fourBits : ℕ}
    {input : List UInt16} {start : ℕ} (hlength : input.length ≤ maxUnits)
    (hthree : filter.hasThree = false) (hfour : filter.hasFour = false)
    (hbits : ∀ bit, containsBit filter.asciiFiveHash bit = true → containsBit words bit = true)
    (hfits : start + 5 ≤ input.length)
    (h : PrefixTables.allows filter fourBits (fivePrefixHashWords * 64) input start = true) :
    scalarFiveAllows words input start = true := by
  have hslice : ∀ count ≤ 5,
      getRange input start (start + count) = some ((input.drop start).take count) := by
    intro count hcount
    unfold getRange
    rw [if_pos ⟨Nat.le_add_right _ _, by omega⟩, Nat.add_sub_cancel_left]
  have hwindow : window input start = (input.drop start).take 5 := by
    have hrange := getRange_eq_map_getD hfits
    rw [hslice 5 (le_refl 5)] at hrange
    exact (Option.some.inj hrange).symm
  -- a large unit among the first ones is one of the five
  have hlarge : ∀ count ≤ 5, ((input.drop start).take count).any (128 ≤ ·) = true →
      ((input.drop start).take 5).any (128 ≤ ·) = true := by
    intro count hcount hany
    obtain ⟨unit, hunit, hge⟩ := List.any_eq_true.mp hany
    exact List.any_eq_true.mpr ⟨unit, (List.take_subset_take_left _ hcount) hunit, hge⟩
  rw [scalarFiveAllows_eq hlength, decide_eq_true hfits, Bool.true_and, hwindow, Bool.or_eq_true]
  rw [PrefixTables.allows_iff, hthree, hfour, hslice 4 (by decide), hslice 5 (le_refl 5)] at h
  rcases h with htriple | ⟨hno, -⟩ | ⟨four, hfourUnits, h⟩
  · exact Or.inl (hlarge 3 (by decide) htriple)
  · exact Bool.noConfusion hno
  · obtain rfl := Option.some.inj hfourUnits
    rcases h with hunit | ⟨hno, -⟩ | ⟨five, hfiveUnits, h⟩
    · exact Or.inl (hlarge 4 (by decide) (any_of_getD hunit))
    · exact Bool.noConfusion hno
    · obtain rfl := Option.some.inj hfiveUnits
      rcases h with hunit | ⟨-, hbit⟩
      · exact Or.inl (any_of_getD hunit)
      · exact Or.inr (hbits _ hbit)

/-! ### Partitions -/

/-- The prefilters that the crate makes: that of some patterns and their database, and the disabled
one. -/
inductive Prefilter.Made : Prefilter → Prop
  /-- The disabled one. -/
  | disabled : Made .disabled
  /-- The compiled one. -/
  | compile (patterns : List HirPattern) (database : PatternDatabase) :
    Made (.compile patterns database)

/-- The tables of a literal filter have their full sizes. -/
theorem Prefilter.Made.sized {prefilter : Prefilter} (h : prefilter.Made)
    {filter : LiteralPrefilter}
    (hfilter : prefilter.literal = some filter) : filter.Sized := by
  cases h with
  | disabled => cases hfilter
  | compile patterns database => exact (Prefilter.knows_of_compile hfilter).1

/-- `LiteralPrefilter::scan_starts`: insert the starts that are allowed, and count them. -/
def LiteralPrefilter.scanStarts (filter : LiteralPrefilter) (input : List UInt16)
    (starts : List ℕ) (found : CandidateBitmap × ℕ) : CandidateBitmap × ℕ :=
  insertAllowed (filter.admits input) starts found

/-- The candidates that a partition finds in the whole input by itself. -/
def LiteralPrefilter.privateStarts (filter : LiteralPrefilter) (input : List UInt16) : List ℕ :=
  (filter.scanStarts input (List.range input.length) (CandidateBitmap.new input.length, 0)).1.iter

/-- Whether the kernel serves the shards of some partitions. -/
def kernelServes (machine : Machine) (partitions : List Prefilter) : Bool :=
  match partitions.mapM Prefilter.literal with
  | none | some [] => false
  | some (first :: rest) => (UnionLiteralFilter.compile first rest).supportsAvx2Five && machine.avx2

/-- The kernel serves a group when its united tables and the machine allow it. -/
theorem kernelServes_eq {machine : Machine} {partitions : List Prefilter} {first : LiteralPrefilter}
    {rest : List LiteralPrefilter}
    (h : partitions.mapM Prefilter.literal = some (first :: rest)) :
    kernelServes machine partitions =
      ((UnionLiteralFilter.compile first rest).supportsAvx2Five && machine.avx2) := by
  unfold kernelServes
  rw [h]

/-- The candidates of a partition are the starts that its filter admits, in order. -/
theorem LiteralPrefilter.privateStarts_eq (filter : LiteralPrefilter) (input : List UInt16) :
    filter.privateStarts input = (List.range input.length).filter (filter.admits input) := by
  have hbuilt := @CandidateBitmap.Built.insertAllowed input.length []
    (CandidateBitmap.new input.length, 0) (CandidateBitmap.Built.new input.length)
    (filter.admits input) (List.range input.length) fun start hstart => List.mem_range.mp hstart
  exact hbuilt.iter_filter_range

/-- What a filter of the union admits, the shards allow, except that the kernel wants five units to
be left. -/
theorem shardAllows_of_admits {machine : Machine} {filter union : LiteralPrefilter}
    (hextends : filter.Extends union) (hsized : union.Sized) {input : List UInt16}
    (hlength : input.length ≤ maxUnits) {start : ℕ} (hadmits : filter.admits input start = true) :
    shardAllows machine union input start =
      (!(UnionLiteralFilter.supportsAvx2Five union && machine.avx2) ||
        decide (start + 5 ≤ input.length)) := by
  unfold LiteralPrefilter.admits at hadmits
  obtain ⟨hunits, hallows⟩ := Bool.and_eq_true_iff.mp hadmits
  unfold shardAllows
  rw [hsized.five, beq_self_eq_true, Bool.and_true]
  -- without the kernel the shards ask the union itself, which allows what the filter allows
  cases hkernel : UnionLiteralFilter.supportsAvx2Five union && machine.avx2 with
  | false =>
    show UnionLiteralFilter.allowsStart union input start = true
    rw [UnionLiteralFilter.allowsStart, hunits, Bool.true_and, hsized.four, hsized.five]
    exact hextends.allows hallows
  | true =>
    show scalarFiveAllows union.asciiFiveHash input start = decide (start + 5 ≤ input.length)
    by_cases hfits : start + 5 ≤ input.length
    · -- the union has no short literals, so the filter has none
      unfold UnionLiteralFilter.supportsAvx2Five at hkernel
      rw [Bool.and_eq_true, Bool.and_eq_true, Bool.and_eq_true, Bool.not_eq_true',
        Bool.not_eq_true'] at hkernel
      obtain ⟨⟨⟨-, hthree⟩, hfour⟩, -⟩ := hkernel
      have hno : ∀ {a b : Bool}, (a = true → b = true) → b = false → a = false := by decide
      rw [decide_eq_true hfits]
      exact scalarFiveAllows_of_allows hlength (hno hextends.hasThree hthree)
        (hno hextends.hasFour hfour) hextends.five.2 hfits hallows
    · rw [scalarFiveAllows_eq hlength, decide_eq_false hfits, Bool.false_and]

/-- What a partition scans of a shared plan: its own candidates, without those at the end of the
input that the kernel rejects. -/
theorem starts_of_sharedPlan {machine : Machine} {partitions : List Prefilter}
    (hmade : ∀ prefilter ∈ partitions, prefilter.Made) (input : Utf16Text)
    {prefilterEnabled literalPrefilterEnabled : Bool} {plan : SharedCandidatePlan}
    (h : sharedPlan machine partitions input.units prefilterEnabled literalPrefilterEnabled =
      .ok (some plan)) {prefilter : Prefilter} (hmem : prefilter ∈ partitions) :
    ∃ filter, prefilter.literal = some filter ∧
      plan.candidates.iter.filter (prefilter.sharedAllowsStart input.units) =
        (filter.privateStarts input.units).filter fun start =>
          !kernelServes machine partitions || decide (start + 5 ≤ input.units.length) := by
  obtain ⟨herror, -⟩ | hnone | ⟨first, rest, plan', hfilters, hsome, hiter⟩ :=
    @sharedPlan_cases machine input.units input.length_le partitions prefilterEnabled
      literalPrefilterEnabled
  · rw [herror] at h
    cases h
  · rw [hnone] at h
    cases h
  · rw [hsome] at h
    obtain rfl : plan' = plan := Option.some.inj (Except.ok.inj h)
    obtain ⟨filter, hfilter, hliteral⟩ := exists_of_mapM_eq_some hfilters prefilter hmem
    have hsized : ∀ other ∈ first :: rest, other.Sized := by
      intro other hother
      obtain ⟨prefilter', hmem', heq⟩ := exists_of_mem_mapM hfilters other hother
      exact (hmade prefilter' hmem').sized heq
    obtain ⟨hunion, hextends⟩ := UnionLiteralFilter.extends_compile hsized
    have hadmits : prefilter.sharedAllowsStart input.units = filter.admits input.units := by
      funext start
      rw [Prefilter.sharedAllowsStart, hliteral, Option.any_some]
      rfl
    -- both sides are the admitted starts that the shards allow
    refine ⟨filter, hliteral, ?_⟩
    rw [hiter, filter.privateStarts_eq, hadmits, kernelServes_eq hfilters, List.filter_filter,
      List.filter_filter]
    refine List.filter_congr fun start _ => ?_
    cases hstart : filter.admits input.units start with
    | false => rw [Bool.false_and, Bool.and_false]
    | true =>
      rw [Bool.true_and, Bool.and_true]
      exact shardAllows_of_admits (hextends filter hfilter) hunion input.length_le hstart

/-! ### The end of an input -/

/-- Tables in use for literals of five units only, which hold at most the bit of `units`. -/
structure LiteralPrefilter.OnlyFive (filter : LiteralPrefilter) (units : List UInt16) : Prop where
  /-- The tables have their sizes. -/
  sized : filter.Sized
  /-- There are no literals of three units. -/
  hasThree : filter.hasThree = false
  /-- There are no literals of four units. -/
  hasFour : filter.hasFour = false
  /-- Only the slot of `units` may be set. -/
  bits : ∀ bit, containsBit filter.asciiFiveHash bit = true →
    bit = prefixHashIndex units (fivePrefixHashWords * 64)

section OnlyFive

open LiteralPrefilter

variable {filter : LiteralPrefilter} {units : List UInt16}

/-- A literal of five units changes the table of five units. -/
theorem LiteralPrefilter.OnlyFive.add (h : filter.OnlyFive units) {hint : NecessaryLiteral}
    (hhint : hint.units = units) (hunits : units.length = 5) :
    (LiteralPrefilter.add filter hint).OnlyFive units := by
  have hextends := (add_spec h.sized hint).1
  -- a literal of five units changes only the table of that length
  have hadd : LiteralPrefilter.add filter hint = { filter with
      hasFive := true
      asciiFiveHash := if (units.take 5).all (· < 128) then
          setBit filter.asciiFiveHash (prefixHashIndex (units.take 5) (fivePrefixHashWords * 64))
        else filter.asciiFiveHash } := by
    unfold LiteralPrefilter.add
    rw [hhint, if_neg (by omega), if_neg (by omega)]
  have hsized := h.sized.of_extends hextends
  rw [hadd] at hsized ⊢
  refine ⟨hsized, h.hasThree, h.hasFour, fun bit hbit => ?_⟩
  dsimp only at hbit
  split at hbit
  · have hindex : prefixHashIndex (units.take 5) (fivePrefixHashWords * 64) / 64 <
        filter.asciiFiveHash.length := by
      rw [h.sized.five]
      exact (Nat.div_lt_iff_lt_mul (by decide)).mpr (prefixHashIndex_lt _ (by decide))
    rw [containsBit_setBit (by decide) hindex, Bool.or_eq_true, decide_eq_true_eq] at hbit
    rcases hbit with hbit | hbit
    · rwa [List.take_of_length_le (by omega)] at hbit
    · exact h.bits bit hbit
  · exact h.bits bit hbit

/-- Tables compiled from one literal of five units. -/
theorem onlyFive_compile {hints : List NecessaryLiteral}
    (hhints : ∀ hint ∈ hints, hint.units = units) (hunits : units.length = 5) :
    (LiteralPrefilter.compile hints).OnlyFive units := by
  have hfold : ∀ {filter : LiteralPrefilter}, filter.OnlyFive units →
      (hints.foldl LiteralPrefilter.add filter).OnlyFive units := by
    induction hints with
    | nil => exact id
    | cons hint hints ih =>
      obtain ⟨hhint, hrest⟩ := List.forall_mem_cons.mp hhints
      exact fun h => ih hrest (h.add hhint hunits)
  refine hfold ⟨⟨List.length_replicate, List.length_replicate, List.length_replicate⟩, rfl, rfl,
    fun bit hbit => ?_⟩
  rw [containsBit_replicate (by decide)] at hbit
  exact Bool.noConfusion hbit

/-- The union of tables with one literal. -/
theorem onlyFive_union {rest : List LiteralPrefilter} (hfirst : filter.OnlyFive units)
    (hrest : ∀ other ∈ rest, other.OnlyFive units) :
    OnlyFive (UnionLiteralFilter.compile filter rest) units := by
  unfold UnionLiteralFilter.compile
  induction rest generalizing filter with
  | nil => exact hfirst
  | cons other rest ih =>
    obtain ⟨hother, hrest⟩ := List.forall_mem_cons.mp hrest
    have hextends := (UnionLiteralFilter.add_spec hfirst.sized hother.sized).1
    refine ih ⟨hfirst.sized.of_extends hextends, ?_, ?_, fun bit hbit => ?_⟩ hrest
    · exact Bool.or_eq_false_iff.mpr ⟨hfirst.hasThree, hother.hasThree⟩
    · exact Bool.or_eq_false_iff.mpr ⟨hfirst.hasFour, hother.hasFour⟩
    · have hunion := containsBit_union (by decide : 0 < 64)
        (hfirst.sized.five.trans hother.sized.five.symm) bit
      have hbit : containsBit (union filter.asciiFiveHash other.asciiFiveHash) bit = true := hbit
      rw [hunion, Bool.or_eq_true] at hbit
      exact hbit.elim (hfirst.bits bit) (hother.bits bit)

end OnlyFive

/-! #### A partition of one literal -/

/-- The prefilter of a partition with some patterns; disabled when they do not compile. -/
def prefilterOf (patterns : List HirPattern) : Prefilter :=
  match compile patterns with
  | .ok database => .compile patterns database
  | .error _ => .disabled

/-- The prefilter of patterns that compile is the compiled one. -/
theorem prefilterOf_eq {patterns : List HirPattern} {database : PatternDatabase}
    (h : compile patterns = .ok database) : prefilterOf patterns = .compile patterns database := by
  unfold prefilterOf
  rw [h]

/-- The prefilter of patterns is one that is made. -/
theorem made_prefilterOf (patterns : List HirPattern) : (prefilterOf patterns).Made := by
  unfold prefilterOf
  split
  next database _ => exact .compile patterns database
  next => exact .disabled

/-- "abcde". -/
def fiveUnits : List UInt16 := [97, 98, 99, 100, 101]

/-- 256 registrations of the literal "abcde". -/
def literalPatterns : List HirPattern := (List.range 256).map fun ordinal =>
  .new ⟨UInt32.ofNat ordinal⟩ (.sequence (fiveUnits.map .symbol))
    (.sequence (List.cons_ne_nil _ _) fun e he => by
      obtain ⟨unit, -, rfl⟩ := List.mem_map.mp he
      exact .symbol unit)

/-- There are 256 of these patterns. -/
theorem length_literalPatterns : literalPatterns.length = 256 := by
  rw [literalPatterns, List.length_map, List.length_range]

/-- Each of them is the five units. -/
theorem expression_literalPatterns :
    ∀ p ∈ literalPatterns, p.expression = .sequence (fiveUnits.map .symbol) := by
  intro p hp
  obtain ⟨ordinal, -, rfl⟩ := List.mem_map.mp hp
  rfl

/-- Every registration is a sequence of five edges. -/
theorem isEdge_literalPatterns : ∀ p ∈ literalPatterns, ∃ items,
    p.expression = .sequence items ∧ items.length ≤ 5 ∧ ∀ item ∈ items, item.IsEdge := by
  intro p hp
  refine ⟨_, expression_literalPatterns p hp, le_refl _, fun item hitem => ?_⟩
  obtain ⟨unit, -, rfl⟩ := List.mem_map.mp hitem
  exact trivial

/-- All registrations have the literal as a hint. -/
theorem mapM_fromPattern (patterns : List HirPattern)
    (hpatterns : ∀ p ∈ patterns, p.expression = .sequence (fiveUnits.map .symbol)) (ordinal : ℕ) :
    ∃ hints, ((patterns.zipIdx ordinal).mapM fun item =>
      NecessaryLiteral.fromPattern item.2 item.1.expression) = some hints ∧
        ∀ hint ∈ hints, hint.units = fiveUnits := by
  induction patterns generalizing ordinal with
  | nil => exact ⟨[], rfl, fun hint hhint => absurd hhint List.not_mem_nil⟩
  | cons p patterns ih =>
    obtain ⟨hp, hrest⟩ := List.forall_mem_cons.mp hpatterns
    obtain ⟨hints, hhints, hall⟩ := ih hrest (ordinal + 1)
    have hfirst : NecessaryLiteral.fromPattern ordinal p.expression =
        some ⟨ordinal, 0, fiveUnits⟩ := by
      rw [hp]
      rfl
    refine ⟨⟨ordinal, 0, fiveUnits⟩ :: hints, ?_, List.forall_mem_cons.mpr ⟨rfl, hall⟩⟩
    rw [List.zipIdx_cons, List.mapM_cons]
    dsimp only
    rw [hfirst, hhints]
    rfl

/-- The literal filter of the partition. -/
theorem literal_prefilterOf : ∃ filter, (prefilterOf literalPatterns).literal = some filter ∧
    filter.OnlyFive fiveUnits ∧ filter.hasFive = true := by
  have hfits :
      Compilation.size ⟨[[]], [[]], [], []⟩ + (5 + 2) * literalPatterns.length ≤ 2 ^ 32 := by
    rw [length_literalPatterns]
    decide
  obtain ⟨c, hc⟩ := compilePatterns_ok (fun _ => 0) isEdge_literalPatterns 0 hfits
  obtain ⟨database, hdatabase⟩ := compile_ok hc
  have hfree : database.usesAssertions = false := by
    rw [usesAssertions_of_compile hdatabase, List.any_eq_false]
    intro p hp
    rw [expression_literalPatterns p hp]
    decide
  obtain ⟨hints, hhints, hall⟩ := mapM_fromPattern literalPatterns expression_literalPatterns 0
  have hliteral : (Prefilter.compile literalPatterns database).literal =
      some (LiteralPrefilter.compile hints) := by
    unfold Prefilter.compile
    rw [hfree, if_neg Bool.false_ne_true, if_neg (by rw [length_literalPatterns]; decide), hhints]
  have honly : (LiteralPrefilter.compile hints).OnlyFive fiveUnits := onlyFive_compile hall rfl
  refine ⟨_, (congrArg Prefilter.literal (prefilterOf_eq hdatabase)).trans hliteral, honly, ?_⟩
  -- the filter knows the literal of the first registration
  have hpos : 0 < literalPatterns.length := by
    rw [length_literalPatterns]
    exact Nat.zero_lt_succ 255
  obtain ⟨p, hp⟩ := List.exists_mem_of_length_pos hpos
  obtain ⟨units, hlength, -, hknows⟩ := (Prefilter.knows_of_compile hliteral).2 p hp
  have hshort : units.length ≠ 3 ∧ units.length ≠ 4 := by
    refine ⟨fun hthree => ?_, fun hfour => ?_⟩
    · exact Bool.noConfusion (honly.hasThree.symm.trans (hknows.three hthree).1)
    · exact Bool.noConfusion (honly.hasFour.symm.trans (hknows.four hfour).1)
  exact (hknows.five (by omega)).1

/-! #### A sparse input -/

/-- Many times "x", then "éxx". -/
def sparseUnits (count : ℕ) : List UInt16 := List.replicate count 120 ++ [233, 120, 120]

/-- The text is three units longer than the count. -/
@[simp]
theorem length_sparseUnits (count : ℕ) : (sparseUnits count).length = count + 3 := by
  rw [sparseUnits, List.length_append, List.length_replicate]
  rfl

/-- The shortest such input that candidates are shared for. -/
def sparseText : Utf16Text where
  units := sparseUnits minSharedInputUnits
  length_le := by
    rw [length_sparseUnits]
    decide

/-- The units of the text are these. -/
theorem units_sparseText : sparseText.units = sparseUnits minSharedInputUnits := rfl

/-- Far from the end, the input does not look like the literal. -/
theorem not_allowsStart_sparseUnits {filter : UnionLiteralFilter}
    (h : LiteralPrefilter.OnlyFive filter fiveUnits) {count start : ℕ}
    (hstart : start + 5 ≤ count) : filter.allowsStart (sparseUnits count) start = false := by
  -- so far from the end the text is one letter, which the literals do not have
  have htake : ∀ n ≤ 5, ((sparseUnits count).drop start).take n = List.replicate n 120 := by
    intro n hn
    rw [sparseUnits, List.drop_append_of_le_length (by rw [List.length_replicate]; omega),
      List.drop_replicate, List.take_append_of_le_length (by rw [List.length_replicate]; omega),
      List.take_replicate, Nat.min_eq_left (by omega)]
  have hslice : ∀ n ≤ 5,
      getRange (sparseUnits count) start (start + n) = some (List.replicate n 120) := by
    intro n hn
    unfold getRange
    rw [length_sparseUnits, if_pos ⟨Nat.le_add_right _ _, by omega⟩, Nat.add_sub_cancel_left,
      htake n hn]
  rw [UnionLiteralFilter.allowsStart, h.sized.four, h.sized.five]
  refine Bool.and_eq_false_imp.mpr fun _ => Bool.eq_false_of_not_eq_true fun hallows => ?_
  rw [PrefixTables.allows_iff, htake 3 (by decide), hslice 4 (by decide), hslice 5 (by decide),
    h.hasThree, h.hasFour] at hallows
  rcases hallows with htriple | ⟨hno, -⟩ | ⟨four, hfour, hallows⟩
  · exact absurd htriple (by decide)
  · exact Bool.noConfusion hno
  · obtain rfl := Option.some.inj hfour
    rcases hallows with hunit | ⟨hno, -⟩ | ⟨five, hfive, hallows⟩
    · exact absurd hunit (by decide)
    · exact Bool.noConfusion hno
    · obtain rfl := Option.some.inj hfive
      rcases hallows with hunit | ⟨-, hbit⟩
      · exact absurd hunit (by decide)
      · exact absurd (h.bits _ hbit) (by decide)

/-- Copies of a partition have copies of its filter. -/
theorem mapM_literal_replicate {prefilter : Prefilter} {filter : LiteralPrefilter}
    (h : prefilter.literal = some filter) (count : ℕ) :
    (List.replicate count prefilter).mapM Prefilter.literal =
      some (List.replicate count filter) := by
  induction count with
  | zero => rfl
  | succ count ih =>
    rw [List.replicate_succ, List.mapM_cons, h, ih]
    rfl

/-- A plan is made when no start of the sample is a candidate. -/
theorem exists_sharedPlan {machine : Machine} {partitions : List Prefilter} {input : List UInt16}
    {first : LiteralPrefilter} {rest : List LiteralPrefilter}
    (heligible : isEligible partitions.length input.length true true = true)
    (hfilters : partitions.mapM Prefilter.literal = some (first :: rest))
    (hsample : ∀ start < densitySampleUnits,
      (UnionLiteralFilter.compile first rest).allowsStart input start = false)
    (hstarts : ∀ shard, machine.shardStarts shard = true) :
    ∃ plan, sharedPlan machine partitions input true true = .ok (some plan) := by
  -- no start of the sample is a candidate
  have hnone : (List.range (min input.length densitySampleUnits)).filter
      ((UnionLiteralFilter.compile first rest).allowsStart input) = [] := by
    refine List.filter_eq_nil_iff.mpr fun start hstart => ?_
    rw [hsample start (lt_of_lt_of_le (List.mem_range.mp hstart) (Nat.min_le_right _ _))]
    exact Bool.false_ne_true
  have hsparse : ¬ saturatingMul 0 2 ≥ min input.length densitySampleUnits := by
    rw [isEligible, Bool.and_eq_true, decide_eq_true_eq] at heligible
    have hle := heligible.2
    unfold minSharedInputUnits at hle
    unfold saturatingMul densitySampleUnits
    omega
  unfold sharedPlan
  rw [heligible, Bool.not_true, if_neg Bool.false_ne_true, hfilters]
  dsimp only
  rw [hnone, List.length_nil, if_neg hsparse,
    if_pos (List.all_eq_true.mpr fun shard _ => hstarts shard)]
  exact ⟨_, rfl⟩

/-- Sixteen such partitions share the candidates of the sparse input, and the kernel finds them. -/
theorem exists_sharedPlan_sparseText :
    (∃ plan, sharedPlan ⟨true, fun _ => true⟩ (List.replicate 16 (prefilterOf literalPatterns))
      sparseText.units true true = .ok (some plan)) ∧
    kernelServes ⟨true, fun _ => true⟩
      (List.replicate 16 (prefilterOf literalPatterns)) = true := by
  obtain ⟨filter, hliteral, honly, hfive⟩ := literal_prefilterOf
  have hfilters : (List.replicate 16 (prefilterOf literalPatterns)).mapM Prefilter.literal =
      some (filter :: List.replicate 15 filter) := mapM_literal_replicate hliteral 16
  -- all partitions have the same literal, and so has their union
  have hunion : LiteralPrefilter.OnlyFive
      (UnionLiteralFilter.compile filter (List.replicate 15 filter)) fiveUnits := by
    refine onlyFive_union honly fun other hother => ?_
    rw [List.eq_of_mem_replicate hother]
    exact honly
  have hsized : ∀ other ∈ filter :: List.replicate 15 filter, other.Sized := by
    intro other hother
    rcases List.mem_cons.mp hother with heq | hother
    · rw [heq]
      exact honly.sized
    · rw [List.eq_of_mem_replicate hother]
      exact honly.sized
  have hextends := (UnionLiteralFilter.extends_compile hsized).2 filter List.mem_cons_self
  have hsupports : (UnionLiteralFilter.compile filter
      (List.replicate 15 filter)).supportsAvx2Five = true := by
    rw [UnionLiteralFilter.supportsAvx2Five, hextends.hasFive hfive, hunion.hasThree,
      hunion.hasFour]
    rfl
  have heligible : isEligible (List.replicate 16 (prefilterOf literalPatterns)).length
      sparseText.units.length true true = true := by
    rw [List.length_replicate, units_sparseText, length_sparseUnits, isEligible, Bool.true_and,
      Bool.true_and, Bool.and_eq_true, decide_eq_true_eq, decide_eq_true_eq]
    exact ⟨le_refl 16, Nat.le_add_right _ 3⟩
  refine ⟨exists_sharedPlan heligible hfilters (fun start hstart => ?_) fun _ => rfl, ?_⟩
  · have hfar : start + 5 ≤ minSharedInputUnits := by
      unfold densitySampleUnits at hstart
      unfold minSharedInputUnits
      omega
    rw [units_sparseText]
    exact not_allowsStart_sparseUnits hunion hfar
  · rw [kernelServes_eq hfilters]
    exact Bool.and_eq_true_iff.mpr ⟨hsupports, rfl⟩

/-- Three units from the end a unit that is not ASCII is left, so filters admit that start. -/
theorem mem_privateStarts_sparseUnits (filter : LiteralPrefilter) {count : ℕ}
    (hcount : count + 3 ≤ usizeMax) : count ∈ filter.privateStarts (sparseUnits count) := by
  have hdrop : (sparseUnits count).drop count = [233, 120, 120] :=
    List.drop_left' List.length_replicate
  have hadd : checkedAdd count minLiteralUnits = some (count + 3) := if_pos hcount
  rw [filter.privateStarts_eq, List.mem_filter, List.mem_range, length_sparseUnits]
  refine ⟨Nat.lt_add_of_pos_right (by decide), ?_⟩
  rw [LiteralPrefilter.admits, hadd, Option.any_some, length_sparseUnits,
    decide_eq_true (le_refl _), Bool.true_and]
  refine PrefixTables.allows_iff.mpr (Or.inl ?_)
  rw [hdrop]
  decide

/-! ### Shared candidates and private ones -/

/-- A shared plan counts the bits that are set, and a partition finds among its starts, in
increasing order, the candidates that it finds by itself; when the kernel serves the shards, those
with five units left. -/
theorem shared_candidates_match_private {machine : Machine} {partitions : List Prefilter}
    (hmade : ∀ prefilter ∈ partitions, prefilter.Made) (input : Utf16Text)
    {prefilterEnabled literalPrefilterEnabled : Bool} {plan : SharedCandidatePlan}
    (h : sharedPlan machine partitions input.units prefilterEnabled literalPrefilterEnabled =
      .ok (some plan)) :
    plan.candidates.count = popCount plan.candidates.words ∧
    ∀ prefilter ∈ partitions, ∃ filter, prefilter.literal = some filter ∧
      (plan.candidates.iter.filter (prefilter.sharedAllowsStart input.units)).Pairwise (· < ·) ∧
      plan.candidates.iter.filter (prefilter.sharedAllowsStart input.units) =
        if kernelServes machine partitions then
          (filter.privateStarts input.units).filter fun start => start + 5 ≤ input.units.length
        else filter.privateStarts input.units := by
  refine ⟨count_of_sharedPlan input.length_le h, fun prefilter hmem => ?_⟩
  obtain ⟨filter, hliteral, hstarts⟩ := starts_of_sharedPlan hmade input h hmem
  refine ⟨filter, hliteral, ?_, ?_⟩
  · rw [hstarts, filter.privateStarts_eq]
    exact (List.pairwise_lt_range.filter _).filter _
  · rw [hstarts]
    cases kernelServes machine partitions with
    | true => rfl
    | false => exact List.filter_eq_self.mpr fun _ _ => rfl

/-- Copies of one prefilter are all made. -/
theorem made_replicate {count : ℕ} {patterns : List HirPattern} :
    ∀ prefilter ∈ List.replicate count (prefilterOf patterns), prefilter.Made := by
  intro prefilter hmem
  rw [List.eq_of_mem_replicate hmem]
  exact made_prefilterOf patterns

/-- The prefilter is among its copies. -/
theorem prefilterOf_mem_replicate (patterns : List HirPattern) :
    prefilterOf patterns ∈ List.replicate 16 (prefilterOf patterns) :=
  List.mem_replicate.mpr ⟨by decide, rfl⟩

/-- The sparse input. -/
theorem shared_candidates_match_private_sparseText : ∃ plan filter,
    sharedPlan ⟨true, fun _ => true⟩ (List.replicate 16 (prefilterOf literalPatterns))
      sparseText.units true true = .ok (some plan) ∧
    plan.candidates.count = popCount plan.candidates.words ∧
    (prefilterOf literalPatterns).literal = some filter ∧
    plan.candidates.iter.filter ((prefilterOf literalPatterns).sharedAllowsStart sparseText.units) =
      (filter.privateStarts sparseText.units).filter fun start =>
        start + 5 ≤ sparseText.units.length := by
  obtain ⟨⟨plan, hplan⟩, hserves⟩ := exists_sharedPlan_sparseText
  obtain ⟨hcount, hall⟩ := shared_candidates_match_private made_replicate sparseText hplan
  obtain ⟨filter, hliteral, -, hstarts⟩ := hall _ (prefilterOf_mem_replicate _)
  rw [hserves, if_pos rfl] at hstarts
  exact ⟨plan, filter, hplan, hcount, hliteral, hstarts⟩

/-- On the sparse input every partition misses a start that it finds by itself. -/
theorem shared_candidates_leave_out_the_end : ∃ plan filter,
    sharedPlan ⟨true, fun _ => true⟩ (List.replicate 16 (prefilterOf literalPatterns))
      sparseText.units true true = .ok (some plan) ∧
    (prefilterOf literalPatterns).literal = some filter ∧
    plan.candidates.iter.filter ((prefilterOf literalPatterns).sharedAllowsStart sparseText.units) ≠
      filter.privateStarts sparseText.units := by
  obtain ⟨⟨plan, hplan⟩, hserves⟩ := exists_sharedPlan_sparseText
  obtain ⟨filter, hliteral, hstarts⟩ := starts_of_sharedPlan made_replicate sparseText hplan
    (prefilterOf_mem_replicate _)
  refine ⟨plan, filter, hplan, hliteral, fun heq => ?_⟩
  have hmem : minSharedInputUnits ∈ filter.privateStarts sparseText.units := by
    rw [units_sparseText]
    exact mem_privateStarts_sparseUnits filter (by decide)
  rw [← heq, hstarts, List.mem_filter, hserves, units_sparseText, length_sparseUnits, Bool.not_true,
    Bool.false_or, decide_eq_true_eq] at hmem
  omega

end Rustmatch

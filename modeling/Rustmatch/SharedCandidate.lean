import Rustmatch.Scan
import Rustmatch.Simd

/-!
# Candidates shared by partitions

`shared_candidate.rs` and `shared_engine.rs`: when a large input is scanned by many partitions that
all have a literal filter, the candidates of the union of their filters are found once, by shards
that write disjoint words of one bitmap, and every partition scans those that its own filter allows.

A shard runs the vector kernel when the processor has it and the union holds only hashes of five
units, and the scalar code otherwise. Shards never fail once they run, so what other shards do
meanwhile does not matter; a shard that cannot be started makes the whole scan fail.

## Main results

* `sharedPlan_cases`: the candidates of a shared plan;
* `scanWithSharedCandidates_eq`: a partition that scans shared candidates has all its events.
-/

open WordBits

namespace Rustmatch

/-- `MIN_SHARED_PARTITION_COUNT`: fewer partitions do not share their candidates. -/
def minSharedPartitionCount : ℕ := 16

/-- `MIN_SHARED_INPUT_UNITS`: on shorter texts candidates are not shared. -/
def minSharedInputUnits : ℕ := 32 * 1024 * 1024

/-- `MAX_SHARED_PLAN_SHARDS`: the greatest number of threads that look for candidates. -/
def maxSharedPlanShards : ℕ := 8

/-- What a scan finds on the machine: vector instructions, and whether the thread of a shard can be
started. -/
structure Machine where
  /-- Whether the vector instructions are there. -/
  avx2 : Bool
  /-- Whether the thread of a shard starts. -/
  shardStarts : ℕ → Bool

/-! ### The union of literal filters -/

/-- `UnionLiteralFilter`. -/
abbrev UnionLiteralFilter := PrefixTables

namespace UnionLiteralFilter

/-- One round of the loop over the other filters. -/
def add (tables : UnionLiteralFilter) (filter : LiteralPrefilter) : UnionLiteralFilter where
  asciiThreeExact := union tables.asciiThreeExact filter.asciiThreeExact
  asciiFourHash := union tables.asciiFourHash filter.asciiFourHash
  asciiFiveHash := union tables.asciiFiveHash filter.asciiFiveHash
  hasThree := tables.hasThree || filter.hasThree
  hasFour := tables.hasFour || filter.hasFour
  hasFive := tables.hasFive || filter.hasFive

/-- `UnionLiteralFilter::compile`, of the first filter and the others. -/
def compile (first : LiteralPrefilter) (rest : List LiteralPrefilter) : UnionLiteralFilter :=
  rest.foldl add first

/-- `UnionLiteralFilter::allows_start`: a literal of some partition may stand at a start. -/
def allowsStart (filter : UnionLiteralFilter) (input : List UInt16) (start : ℕ) : Bool :=
  (checkedAdd start minLiteralUnits).any (· ≤ input.length) &&
    filter.allows (filter.asciiFourHash.length * 64) (filter.asciiFiveHash.length * 64) input start

/-- `UnionLiteralFilter::supports_avx2_five`: all literals have five units at least. -/
def supportsAvx2Five (filter : UnionLiteralFilter) : Bool :=
  filter.hasFive && !filter.hasThree && !filter.hasFour

end UnionLiteralFilter

/-! ### Shards -/

/-- One round of the loop of `scan_word_slice_scalar`. -/
def addAllowed (filter : UnionLiteralFilter) (input : List UInt16) (firstStart : ℕ)
    (written : List Word × ℕ) (localStart : ℕ) : List Word × ℕ :=
  if !filter.allowsStart input (firstStart + localStart) then written
  else (setBit written.1 localStart, saturatingAdd written.2 1)

/-- `scan_word_slice_scalar`: the words with the bits of the allowed starts added, and how many
starts were allowed. -/
def scanWordSliceScalar (filter : UnionLiteralFilter) (input : List UInt16) (firstStart : ℕ)
    (words : List Word) : List Word × ℕ :=
  let endStart := min (saturatingAdd firstStart (saturatingMul words.length 64)) input.length
  (List.range (endStart - firstStart)).foldl (addAllowed filter input firstStart) (words, 0)

/-- `scan_word_slice`: the bits of some words, by the kernel or by scalar code. -/
def scanWordSlice (machine : Machine) (filter : UnionLiteralFilter) (input : List UInt16)
    (firstWord : ℕ) (words : List Word) : List Word × ℕ :=
  let firstStart := saturatingMul firstWord 64
  match if filter.supportsAvx2Five then
      scanFiveHashWords machine.avx2 input filter.asciiFiveHash firstStart words else none with
  | some written => written
  | none => scanWordSliceScalar filter input firstStart words

/-- `slice.chunks_mut(size)`. -/
def chunks {α : Type} (size : ℕ) (items : List α) : List (List α) :=
  if items.isEmpty ∨ size = 0 then [] else items.take size :: chunks size (items.drop size)
termination_by items.length
decreasing_by
  rename_i h
  rw [not_or, List.isEmpty_iff_length_eq_zero] at h
  rw [List.length_drop]
  omega

/-- `is_eligible`: the group is large enough, and the filters are on. -/
def isEligible (partitionCount inputUnits : ℕ) (prefilterEnabled literalPrefilterEnabled : Bool) :
    Bool :=
  prefilterEnabled && literalPrefilterEnabled && partitionCount ≥ minSharedPartitionCount &&
    inputUnits ≥ minSharedInputUnits

/-- `SharedCandidatePlan`: the candidates that the partitions of a group share. -/
structure SharedCandidatePlan where
  /-- The starts that some partition may match at. -/
  candidates : CandidateBitmap

/-- `words_per_shard` of `plan`. -/
def wordsPerShard (wordCount partitionCount : ℕ) : ℕ :=
  wordCount ⌈/⌉ max (min (min maxSharedPlanShards partitionCount) wordCount) 1

/-- The words that the shards write, shard by shard, and how many starts each allowed. -/
def sharedShards (machine : Machine) (filter : UnionLiteralFilter) (input : List UInt16)
    (size : ℕ) (words : List Word) : List (List Word × ℕ) :=
  (chunks size words).zipIdx.map fun shard =>
    scanWordSlice machine filter input (shard.2 * size) shard.1

/-- `plan`: the candidates of all partitions of a group. -/
def sharedPlan (machine : Machine) (partitions : List Prefilter) (input : List UInt16)
    (prefilterEnabled literalPrefilterEnabled : Bool) :
    Except Error (Option SharedCandidatePlan) :=
  if !isEligible partitions.length input.length prefilterEnabled literalPrefilterEnabled then
    .ok none
  else
    match partitions.mapM Prefilter.literal with
    | none | some [] => .ok none
    | some (first :: rest) =>
      let filter := UnionLiteralFilter.compile first rest
      let sampleLen := min input.length densitySampleUnits
      let sampleCount := ((List.range sampleLen).filter (filter.allowsStart input)).length
      if saturatingMul sampleCount 2 ≥ sampleLen then .ok none
      else
        let words := (CandidateBitmap.new input.length).words
        let shards := sharedShards machine filter input
          (wordsPerShard words.length partitions.length) words
        if (List.range shards.length).all machine.shardStarts then
          .ok (some ⟨{
            words := (shards.map Prod.fst).flatten
            startCount := (shards.map Prod.snd).foldl saturatingAdd 0
            bitLen := input.length }⟩)
        else .error .workerUnavailable

/-- `SharedCandidate`: the candidates, and whether this partition counts them in its statistics. -/
structure SharedCandidate where
  /-- The starts that some partition may match at. -/
  candidates : CandidateBitmap
  /-- Whether the bitmap counts in the statistics of this partition. -/
  accountStorage : Bool

/-- `SharedCandidatePlan::partition`: the candidates, as a partition uses them. -/
def SharedCandidatePlan.partition (plan : SharedCandidatePlan) (index : ℕ) : SharedCandidate :=
  ⟨plan.candidates, index == 0⟩

/-- `SharedCandidate::accounted_count`: the candidates that this partition counts. -/
def SharedCandidate.accountedCount (shared : SharedCandidate) : ℕ :=
  if shared.accountStorage then shared.candidates.count else 0

/-- `scan_with_shared_candidates_and_stats`: scan a partition from the shared candidates that it
allows. -/
def scanWithSharedCandidates (database : PatternDatabase) (prefilter : Prefilter)
    (input : Utf16Text) (stateCacheBudget : ℕ) (shared : SharedCandidate) :
    Delivery ScanStats := do
  let units := input.units
  let starts := shared.candidates.iter.filter (prefilter.sharedAllowsStart units)
  let metrics ← scanWithoutAssertionsDispatch database input stateCacheBudget starts
    { prefilterPath := .literal
      prefilterBypass := .none
      prefilterAdmissions := shared.accountedCount
      prefilterCandidateStarts := shared.accountedCount }
  return { metrics with
    prefilterStartsScanned := starts.length
    prefilterStartsSkipped := units.length - starts.length }

/-! ### What shards write -/

/-- What a shard tests at a start. -/
def shardAllows (machine : Machine) (filter : UnionLiteralFilter) (input : List UInt16)
    (start : ℕ) : Bool :=
  if filter.supportsAvx2Five && machine.avx2 &&
      filter.asciiFiveHash.length == fivePrefixHashWords then
    scalarFiveAllows filter.asciiFiveHash input start
  else filter.allowsStart input start

section Shards

variable {machine : Machine} {filter : UnionLiteralFilter} {input : List UInt16}

/-- The scalar code allows only starts with three units left. -/
theorem lt_length_of_allowsStart {start : ℕ} (h : filter.allowsStart input start = true) :
    start < input.length := by
  unfold UnionLiteralFilter.allowsStart checkedAdd at h
  split at h
  · have hle := of_decide_eq_true (Bool.and_eq_true_iff.mp h).1
    unfold minLiteralUnits at hle
    omega
  · exact absurd h (by simp)

/-- Shards allow only starts inside the input. -/
theorem lt_length_of_shardAllows (hlength : input.length ≤ maxUnits) {start : ℕ}
    (h : shardAllows machine filter input start = true) : start < input.length := by
  unfold shardAllows at h
  split at h
  · rw [scalarFiveAllows_eq hlength, Bool.and_eq_true, decide_eq_true_eq] at h
    omega
  · exact lt_length_of_allowsStart h

/-- The bits below `count` of the words are those of the allowed starts. -/
structure StartsWritten (filter : UnionLiteralFilter) (input : List UInt16)
    (firstStart wordCount count : ℕ) (words : List Word) : Prop where
  /-- All words are there. -/
  length_eq : words.length = wordCount
  /-- A bit is set when it has been written and its start is allowed. -/
  containsBit_eq : ∀ bit, containsBit words bit =
    (decide (bit < count) && filter.allowsStart input (firstStart + bit))

/-- Before any start no bit is set. -/
theorem startsWritten_zero (firstStart wordCount : ℕ) :
    StartsWritten filter input firstStart wordCount 0 (List.replicate wordCount 0#64) where
  length_eq := List.length_replicate
  containsBit_eq bit := by
    rw [decide_eq_false (Nat.not_lt_zero bit), Bool.false_and]
    exact containsBit_replicate (by decide) _ _

/-- One round of the scalar loop. -/
theorem StartsWritten.addAllowed {firstStart wordCount count : ℕ} {written : List Word × ℕ}
    (h : StartsWritten filter input firstStart wordCount count written.1)
    (hcount : count < wordCount * 64) :
    StartsWritten filter input firstStart wordCount (count + 1)
      (Rustmatch.addAllowed filter input firstStart written count).1 := by
  have hlt : ∀ bit, bit < count + 1 ↔ bit = count ∨ bit < count := by omega
  unfold Rustmatch.addAllowed
  cases hallows : filter.allowsStart input (firstStart + count) with
  | false =>
    refine ⟨h.length_eq, fun bit => (h.containsBit_eq bit).trans ?_⟩
    by_cases hbit : bit = count
    · rw [hbit, hallows, Bool.and_false, Bool.and_false]
    · rw [Bool.decide_congr ((hlt bit).trans (or_iff_right hbit))]
  | true =>
    refine ⟨(length_setBit _ _).trans h.length_eq, fun bit => ?_⟩
    show containsBit (setBit _ count) bit = _
    rw [containsBit_setBit (by decide) (by rw [h.length_eq]; omega), h.containsBit_eq]
    by_cases hbit : bit = count
    · rw [hbit, hallows, decide_eq_true rfl, decide_eq_true (Nat.lt_succ_self count)]
      rfl
    · rw [decide_eq_false hbit, Bool.false_or,
        Bool.decide_congr ((hlt bit).trans (or_iff_right hbit))]

/-- The scalar loop over the first starts of some words. -/
theorem startsWritten_foldl (firstStart wordCount : ℕ) {count : ℕ}
    (hcount : count ≤ wordCount * 64) :
    StartsWritten filter input firstStart wordCount count
      ((List.range count).foldl (addAllowed filter input firstStart)
        (List.replicate wordCount 0#64, 0)).1 := by
  induction count with
  | zero => exact startsWritten_zero firstStart wordCount
  | succ count ih =>
    rw [List.range_succ, List.foldl_append, List.foldl_cons, List.foldl_nil]
    exact (ih (by omega)).addAllowed hcount

/-- The scalar code writes the starts that the filter allows. -/
theorem startsWritten_scanWordSliceScalar (hlength : input.length ≤ maxUnits)
    (firstStart wordCount : ℕ) :
    StartsWritten filter input firstStart wordCount (wordCount * 64)
      (scanWordSliceScalar filter input firstStart (List.replicate wordCount 0#64)).1 := by
  have hcount : min (saturatingAdd firstStart (saturatingMul wordCount 64)) input.length -
      firstStart ≤ wordCount * 64 := by
    unfold saturatingAdd saturatingMul
    omega
  have hloop := @startsWritten_foldl filter input firstStart wordCount _ hcount
  unfold scanWordSliceScalar
  rw [List.length_replicate]
  refine ⟨hloop.length_eq, fun bit => (hloop.containsBit_eq bit).trans ?_⟩
  cases hallows : filter.allowsStart input (firstStart + bit) with
  | false => rw [Bool.and_false, Bool.and_false]
  | true =>
    -- the loop stops where the input does, and no start is allowed from there on
    have hinside := lt_length_of_allowsStart hallows
    rw [Bool.and_true, Bool.and_true]
    refine Bool.decide_congr ?_
    unfold maxUnits at hlength
    unfold saturatingAdd saturatingMul usizeMax
    omega

/-- A shard writes the starts that it allows. -/
theorem containsBit_scanWordSlice (hlength : input.length ≤ maxUnits) {firstWord : ℕ}
    (hfirst : firstWord * 64 ≤ usizeMax) (count : ℕ) :
    (scanWordSlice machine filter input firstWord (List.replicate count 0#64)).1.length = count ∧
    ∀ bit, containsBit
        (scanWordSlice machine filter input firstWord (List.replicate count 0#64)).1 bit =
      (decide (bit < count * 64) && shardAllows machine filter input (firstWord * 64 + bit)) := by
  have hstart : saturatingMul firstWord 64 = firstWord * 64 := min_eq_left hfirst
  have hwritten := @startsWritten_scanWordSliceScalar filter input hlength (firstWord * 64) count
  have hscalar := And.intro hwritten.length_eq hwritten.containsBit_eq
  unfold scanWordSlice shardAllows scanFiveHashWords
  rw [hstart]
  -- the kernel needs literals of five units only, the processor, and a table of the full size
  cases hfive : filter.supportsAvx2Five with
  | false =>
    simp only [Bool.false_eq_true, if_false, Bool.false_and]
    exact hscalar
  | true =>
    cases havx2 : machine.avx2 with
    | false =>
      simp only [if_true, Bool.not_false, Bool.true_or, Bool.and_false, Bool.false_and,
        Bool.false_eq_true, if_false]
      exact hscalar
    | true =>
      by_cases hsize : filter.asciiFiveHash.length = fivePrefixHashWords
      · have hvector := fun bit => @containsBit_scanFiveHashWordsAvx2 input filter.asciiFiveHash
          (firstWord * 64) (List.replicate count 0#64) hlength bit
        simp only [List.length_replicate] at hvector
        simp only [hsize, ne_eq, not_true_eq_false, decide_false, Bool.not_true, Bool.or_self,
          Bool.false_eq_true, if_true, if_false, beq_self_eq_true, Bool.and_self]
        exact ⟨by rw [length_scanFiveHashWordsAvx2, List.length_replicate], hvector⟩
      · have hsize' : (filter.asciiFiveHash.length == fivePrefixHashWords) = false :=
          beq_false_of_ne hsize
        simp only [hsize, ne_eq, not_false_eq_true, decide_true, Bool.or_true, if_true, hsize',
          Bool.and_false, Bool.false_eq_true, if_false]
        exact hscalar

/-- No words make no chunks. -/
theorem chunks_nil (size : ℕ) : chunks size ([] : List Word) = [] := by
  unfold chunks
  exact if_pos (Or.inl rfl)

/-- Zero words are cut into chunks of zero words. -/
theorem chunks_replicate {size count : ℕ} (hsize : 0 < size) (hcount : 0 < count) :
    chunks size (List.replicate count 0#64) =
      List.replicate (min size count) 0#64 ::
        chunks size (List.replicate (count - size) 0#64) := by
  rw [chunks, if_neg, List.take_replicate, List.drop_replicate]
  rw [not_or, List.isEmpty_iff_length_eq_zero, List.length_replicate]
  omega

/-- The shards together write the starts that a shard allows, from the first word of the first one
on. -/
theorem containsBit_shards (hlength : input.length ≤ maxUnits) {size : ℕ} (hsize : 0 < size)
    (count index : ℕ) (hfits : 0 < count → (index * size + count) * 64 ≤ usizeMax) :
    let words := ((((chunks size (List.replicate count 0#64)).zipIdx index).map fun shard =>
      scanWordSlice machine filter input (shard.2 * size) shard.1).map Prod.fst).flatten
    words.length = count ∧ ∀ bit, containsBit words bit =
      (decide (bit < count * 64) &&
        shardAllows machine filter input (index * size * 64 + bit)) := by
  induction count using Nat.strong_induction_on generalizing index with
  | _ count ih =>
    by_cases hcount : count = 0
    · subst hcount
      rw [List.replicate_zero, chunks_nil]
      refine ⟨rfl, fun bit => ?_⟩
      rw [Nat.zero_mul, decide_eq_false (Nat.not_lt_zero bit), Bool.false_and]
      exact containsBit_replicate (by decide) 0 bit
    · have hpos : 0 < count := by omega
      have hfits := hfits hpos
      obtain ⟨hlen, hbits⟩ := @containsBit_scanWordSlice machine filter input hlength
        (index * size) (by omega) (min size count)
      obtain ⟨hlen', hbits'⟩ := ih (count - size) (by omega) (index + 1) fun hrest => by
        rw [Nat.succ_mul]
        omega
      -- the induction takes off the first shard
      rw [chunks_replicate hsize hpos]
      simp only [List.zipIdx_cons, List.map_cons, List.flatten_cons]
      refine ⟨?_, fun bit => ?_⟩
      · rw [List.length_append, hlen, hlen']
        omega
      · rw [containsBit_append (by decide), hlen, hbits, hbits']
        by_cases hfirst : bit < min size count * 64
        · rw [if_pos hfirst, decide_eq_true hfirst, decide_eq_true (by omega : bit < count * 64)]
        · -- behind the first shard, the rest starts with the next index
          rw [if_neg hfirst]
          by_cases hbit : bit < count * 64
          · have hstart : (index + 1) * size * 64 + (bit - min size count * 64) =
                index * size * 64 + bit := by
              rw [Nat.succ_mul]
              omega
            rw [hstart, decide_eq_true hbit, decide_eq_true (by omega)]
          · rw [decide_eq_false hbit, decide_eq_false (by omega), Bool.false_and, Bool.false_and]

end Shards

/-! ### Plans -/

/-- A shard has a word when there are words. -/
theorem wordsPerShard_pos {wordCount : ℕ} (h : 0 < wordCount) (partitionCount : ℕ) :
    0 < wordsPerShard wordCount partitionCount := by
  unfold wordsPerShard
  rw [Nat.ceilDiv_eq_add_pred_div]
  apply Nat.div_pos
  · omega
  · exact lt_of_lt_of_le Nat.one_pos (le_max_right _ _)

/-- An empty input is not sparse, so a bitmap that is filled has words. -/
theorem words_pos_of_sparse {sampleCount length : ℕ}
    (h : ¬ saturatingMul sampleCount 2 ≥ min length densitySampleUnits) :
    0 < (CandidateBitmap.new length).words.length := by
  have hpos : 0 < length := by
    by_contra hempty
    exact h (by omega)
  have hcount : (CandidateBitmap.new length).words.length = length ⌈/⌉ 64 := List.length_replicate
  rw [hcount, Nat.ceilDiv_eq_add_pred_div]
  exact Nat.div_pos (by omega) (by decide)

/-- An input that fits has a word for each start, and the starts of all words fit. -/
theorem length_le_words {input : List UInt16} (hlength : input.length ≤ maxUnits) :
    input.length ≤ (input.length ⌈/⌉ 64) * 64 ∧ (input.length ⌈/⌉ 64) * 64 ≤ usizeMax := by
  unfold maxUnits at hlength
  unfold usizeMax
  rw [Nat.ceilDiv_eq_add_pred_div]
  omega

/-- The shards hold the starts that they allow. -/
theorem holds_sharedShards {machine : Machine} {filter : UnionLiteralFilter} {input : List UInt16}
    (hlength : input.length ≤ maxUnits) {size : ℕ} (hsize : 0 < size) (count bitLen : ℕ) :
    CandidateBitmap.Holds ⟨((sharedShards machine filter input size
        (CandidateBitmap.new input.length).words).map Prod.fst).flatten, count, bitLen⟩
      input.length fun bit => shardAllows machine filter input bit = true := by
  have hfits := length_le_words hlength
  obtain ⟨hwords, hbits⟩ := @containsBit_shards machine filter input hlength size hsize
    (input.length ⌈/⌉ 64) 0 fun _ => by rw [Nat.zero_mul, Nat.zero_add]; exact hfits.2
  refine ⟨hwords, fun bit => (Bool.eq_iff_iff.mp (hbits bit)).trans ?_⟩
  rw [Nat.zero_mul, Nat.zero_mul, Nat.zero_add, Bool.and_eq_true, decide_eq_true_eq]
  constructor
  · exact fun hbit => ⟨lt_length_of_shardAllows hlength hbit.2, hbit.2⟩
  · exact fun hbit => ⟨by omega, hbit.2⟩

/-- A shared plan fails for want of a thread, or is not made, or holds the starts that the shards
allow with the union of the filters of all partitions. -/
theorem sharedPlan_cases {machine : Machine} {input : List UInt16}
    (hlength : input.length ≤ maxUnits) (partitions : List Prefilter)
    (prefilterEnabled literalPrefilterEnabled : Bool) :
    (sharedPlan machine partitions input prefilterEnabled literalPrefilterEnabled =
        .error .workerUnavailable ∧ ∃ shard, machine.shardStarts shard = false) ∨
    sharedPlan machine partitions input prefilterEnabled literalPrefilterEnabled = .ok none ∨
    ∃ first rest plan, partitions.mapM Prefilter.literal = some (first :: rest) ∧
      sharedPlan machine partitions input prefilterEnabled literalPrefilterEnabled =
        .ok (some plan) ∧
      plan.candidates.iter = (List.range input.length).filter
        (shardAllows machine (UnionLiteralFilter.compile first rest) input) := by
  unfold sharedPlan
  cases heligible : isEligible partitions.length input.length prefilterEnabled
    literalPrefilterEnabled with
  | false => exact Or.inr (Or.inl rfl)
  | true =>
    simp only [Bool.not_true, Bool.false_eq_true, if_false]
    split
    next => exact Or.inr (Or.inl rfl)
    next => exact Or.inr (Or.inl rfl)
    next first rest hfilters =>
      split
      next => exact Or.inr (Or.inl rfl)
      next hsparse =>
        -- the sample is sparse, so there are words to give away and every shard has one at least
        have hsize := wordsPerShard_pos (words_pos_of_sparse hsparse) partitions.length
        cases hstarts : (List.range (sharedShards machine (UnionLiteralFilter.compile first rest)
          input (wordsPerShard (CandidateBitmap.new input.length).words.length partitions.length)
          (CandidateBitmap.new input.length).words).length).all machine.shardStarts with
        | false =>
          obtain ⟨shard, -, hshard⟩ := List.all_eq_false.mp hstarts
          exact Or.inl ⟨rfl, shard, Bool.eq_false_of_not_eq_true hshard⟩
        | true =>
          exact Or.inr (Or.inr ⟨first, rest, _, hfilters, rfl,
            (holds_sharedShards hlength hsize _ _).iter_eq⟩)

/-! ### The union rules out no match -/

/-- A union keeps the bits of both. -/
theorem keepsBits_union {words other : List Word} (hlength : words.length = other.length) :
    KeepsBits words (union words other) ∧ KeepsBits other (union words other) := by
  have hunion := fun bit => containsBit_union (by decide : 0 < 64) hlength bit
  refine ⟨⟨length_union _ _, fun bit hbit => ?_⟩, (length_union _ _).trans hlength,
    fun bit hbit => ?_⟩
  · rw [hunion, hbit, Bool.true_or]
  · rw [hunion, hbit, Bool.or_true]

namespace UnionLiteralFilter

open LiteralPrefilter

/-- Adding a filter. -/
theorem add_spec {tables : UnionLiteralFilter} {filter : LiteralPrefilter}
    (htables : Sized tables) (hfilter : filter.Sized) :
    Extends tables (add tables filter) ∧ Extends filter (add tables filter) := by
  obtain ⟨hthree, hthree'⟩ := keepsBits_union (htables.three.trans hfilter.three.symm)
  obtain ⟨hfour, hfour'⟩ := keepsBits_union (htables.four.trans hfilter.four.symm)
  obtain ⟨hfive, hfive'⟩ := keepsBits_union (htables.five.trans hfilter.five.symm)
  have hleft : ∀ {a b : Bool}, a = true → (a || b) = true := fun h => by rw [h, Bool.true_or]
  have hright : ∀ {a b : Bool}, b = true → (a || b) = true := fun h => by rw [h, Bool.or_true]
  exact ⟨⟨hthree, hfour, hfive, hleft, hleft, hleft⟩,
    hthree', hfour', hfive', hright, hright, hright⟩

/-- The union extends every filter. -/
theorem extends_compile {first : LiteralPrefilter} {rest : List LiteralPrefilter}
    (hsized : ∀ filter ∈ first :: rest, filter.Sized) :
    Sized (compile first rest) ∧ ∀ filter ∈ first :: rest, Extends filter (compile first rest) := by
  unfold compile
  induction rest generalizing first with
  | nil =>
    refine ⟨hsized first List.mem_cons_self, fun filter hfilter => ?_⟩
    rw [List.mem_singleton.mp hfilter]
    exact Extends.refl first
  | cons filter rest ih =>
    have hfirst := hsized first List.mem_cons_self
    have hfilter := hsized filter (List.mem_cons_of_mem _ List.mem_cons_self)
    obtain ⟨hleft, hright⟩ := add_spec hfirst hfilter
    -- the union of the first two takes the place of the first
    obtain ⟨hunion, hall⟩ := @ih (add first filter) fun other hother => by
      rcases List.mem_cons.mp hother with rfl | hother
      · exact hfirst.of_extends hleft
      · exact hsized other (List.mem_cons_of_mem _ (List.mem_cons_of_mem _ hother))
    have hadded := hall _ List.mem_cons_self
    refine ⟨hunion, fun other hother => ?_⟩
    rcases List.mem_cons.mp hother with rfl | hother
    · exact hleft.trans hadded
    rcases List.mem_cons.mp hother with rfl | hother
    · exact hright.trans hadded
    · exact hall other (List.mem_cons_of_mem _ hother)

end UnionLiteralFilter

/-- A shard allows every start at which a literal begins that the union knows. -/
theorem shardAllows_of_knows {machine : Machine} {filter : UnionLiteralFilter}
    {input units : List UInt16} (hsized : LiteralPrefilter.Sized filter)
    (hlength : input.length ≤ maxUnits)
    (hknows : filter.Knows (fourPrefixHashWords * 64) (fivePrefixHashWords * 64) units)
    (hunits : 3 ≤ units.length) {start : ℕ} (hbegins : units <+: input.drop start) :
    shardAllows machine filter input start = true := by
  have hle := hbegins.length_le
  rw [List.length_drop] at hle
  have hallows := PrefixTables.allows_of_knows hknows hunits hbegins
  unfold maxUnits at hlength
  unfold shardAllows
  split
  next hvector =>
    -- a union without short literals knows the first five units of this one
    rw [Bool.and_eq_true, Bool.and_eq_true, UnionLiteralFilter.supportsAvx2Five, Bool.and_eq_true,
      Bool.and_eq_true, Bool.not_eq_true', Bool.not_eq_true'] at hvector
    obtain ⟨⟨⟨⟨-, hthree⟩, hfour⟩, -⟩, -⟩ := hvector
    have hlong : 5 ≤ units.length := by
      by_contra hshort
      have hcases : units.length = 3 ∨ units.length = 4 := by omega
      rcases hcases with hcase | hcase
      · rw [(hknows.three hcase).1] at hthree
        exact Bool.noConfusion hthree
      · rw [(hknows.four hcase).1] at hfour
        exact Bool.noConfusion hfour
    obtain ⟨-, hbit⟩ := hknows.five hlong
    have hwindow : window input start = units.take 5 := by
      have hrange := getRange_eq_map_getD (by omega : start + 5 ≤ input.length)
      rw [getRange_eq_some_of_begins hbegins hlong (by decide)] at hrange
      exact (Option.some.inj hrange).symm
    rw [scalarFiveAllows_eq hlength, decide_eq_true (by omega : start + 5 ≤ input.length),
      Bool.true_and, hwindow, Bool.or_eq_true]
    by_cases hascii : ∀ unit ∈ units.take 5, unit < 128
    · exact Or.inr (hbit hascii)
    · push Not at hascii
      obtain ⟨unit, hunit, hlarge⟩ := hascii
      exact Or.inl (List.any_eq_true.mpr ⟨unit, hunit, decide_eq_true (UInt16.not_lt.mp hlarge)⟩)
  next =>
    have hadd : checkedAdd start minLiteralUnits = some (start + minLiteralUnits) := by
      refine if_pos ?_
      unfold minLiteralUnits usizeMax
      omega
    rw [UnionLiteralFilter.allowsStart, hsized.four, hsized.five, hallows, Bool.and_true, hadd,
      Option.any_some, decide_eq_true_eq]
    unfold minLiteralUnits
    omega

section Scan

variable {machine : Machine} {patterns : List HirPattern} {database : PatternDatabase}

/-- A shard allows every start with an accepted end of a partition whose filter is in the union. -/
theorem shardAllows_of_ends (h : compile patterns = .ok database)
    {filter first : LiteralPrefilter} {rest : List LiteralPrefilter}
    (hfilter : (Prefilter.compile patterns database).literal = some filter)
    (hmem : filter ∈ first :: rest) (hsized : ∀ other ∈ first :: rest, other.Sized) {R : Reading}
    (hbound : R.input.length ≤ maxUnits) {ordinal start stop : ℕ}
    (hends : stop ∈ database.ends R database.root ordinal start) :
    shardAllows machine (UnionLiteralFilter.compile first rest) R.input start = true := by
  obtain ⟨p, hp, hbegins⟩ := necessaryPrefix_of_ends h hends
  obtain ⟨units, hlength, hunits, hknows⟩ := (Prefilter.knows_of_compile hfilter).2 p hp
  obtain ⟨hunion, hextends⟩ := UnionLiteralFilter.extends_compile hsized
  exact shardAllows_of_knows hunion hbound ((hextends filter hmem).knows hknows) hlength
    (hunits.trans hbegins)

/-- Only databases without assertions have a literal filter. -/
theorem usesAssertions_of_literal {filter : LiteralPrefilter}
    (hfilter : (Prefilter.compile patterns database).literal = some filter) :
    database.usesAssertions = false := by
  unfold Prefilter.compile at hfilter
  cases hassertions : database.usesAssertions with
  | false => rfl
  | true =>
    rw [hassertions, if_pos rfl] at hfilter
    cases hfilter

/-- A partition that scans shared candidates has the events of all starts in turn. -/
theorem scanWithSharedCandidates_eq (h : compile patterns = .ok database)
    {filter first : LiteralPrefilter} {rest : List LiteralPrefilter}
    (hfilter : (Prefilter.compile patterns database).literal = some filter)
    (hmem : filter ∈ first :: rest) (hsized : ∀ other ∈ first :: rest, other.Sized)
    (input : Utf16Text) (budget : ℕ) {shared : SharedCandidate}
    (hshared : shared.candidates.iter = (List.range input.units.length).filter
      (shardAllows machine (UnionLiteralFilter.compile first rest) input.units)) : ∃ metrics,
    scanWithSharedCandidates database (Prefilter.compile patterns database) input budget shared =
      ⟨(List.range input.units.length).flatMap
        (database.eventsAt (Reading.contextual input.units) database.root), .ok metrics⟩ := by
  -- the partition asks its own tables once more
  have hadmits : ∀ start,
      (Prefilter.compile patterns database).sharedAllowsStart input.units start =
      filter.admits input.units start := by
    intro start
    rw [Prefilter.sharedAllowsStart, hfilter, Option.any_some]
    rfl
  have hstarts : shared.candidates.iter.filter
      ((Prefilter.compile patterns database).sharedAllowsStart input.units) =
      (List.range input.units.length).filter fun start => filter.admits input.units start &&
        shardAllows machine (UnionLiteralFilter.compile first rest) input.units start := by
    rw [hshared, List.filter_filter]
    simp only [hadmits]
  -- no start of a match is lost, neither by the union nor by the partition
  have hallows : ∀ {ordinal start stop : ℕ},
      stop ∈ database.ends (Reading.contextFree input.units) database.root ordinal start →
        (filter.admits input.units start &&
          shardAllows machine (UnionLiteralFilter.compile first rest) input.units
            start) = true := by
    intro ordinal start stop hends
    have hshard := @shardAllows_of_ends machine _ _ h _ _ _ hfilter hmem hsized _ input.length_le _
      _ _ hends
    rw [Bool.and_eq_true]
    exact ⟨admits_of_ends h hfilter input.length_le hends, hshard⟩
  obtain ⟨metrics, hscan⟩ := scanDispatch_filter_eq h (usesAssertions_of_literal hfilter) input
    budget hallows
    { prefilterPath := .literal
      prefilterBypass := .none
      prefilterAdmissions := shared.accountedCount
      prefilterCandidateStarts := shared.accountedCount }
  unfold scanWithSharedCandidates
  simp only [hstarts]
  rw [hscan, Delivery.mk_ok_bind, Delivery.pure_eq]
  exact ⟨_, by rw [List.append_nil]⟩

end Scan

end Rustmatch

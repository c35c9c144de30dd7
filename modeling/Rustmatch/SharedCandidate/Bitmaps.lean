import Rustmatch.Prefilter.Bitmaps
import Rustmatch.SharedCandidate.Private

/-!
# Shards and inserts

The shards of a shared plan fill disjoint words of a bitmap, each for itself, and their counts are
summed into its counter. Whatever the size of the shards, the bitmap is the one that a single pass
over all words makes, and the one that inserts of the allowed starts make.

## Main results

* `shardedBitmap_eq`, `scanWordSlice_eq`: shards and inserts, a single pass and inserts;
* `candidate_bitmap_is_ordered_set`: bitmaps are ordered sets.
-/

open WordBits

namespace Rustmatch

/-! ### Shards -/

section Shards

open CandidateBitmap

variable {machine : Machine} {filter : UnionLiteralFilter} {input : List UInt16}

/-- Inserts of the allowed starts, in order. -/
theorem built_allowed (hlength : input.length ≤ maxUnits) :
    (((List.range input.length).filter (shardAllows machine filter input)).foldl
      CandidateBitmap.insert (CandidateBitmap.new input.length)).Built input.length
      ((List.range input.length).filter (shardAllows machine filter input)) := by
  have hbuilt := (Built.new input.length).foldl_insert
    fun start (hstart : start ∈
        (List.range input.length).filter (shardAllows machine filter input)) =>
      lt_length_of_shardAllows hlength (List.of_mem_filter hstart)
  rwa [List.nil_append] at hbuilt

/-- A bitmap whose members are the allowed starts is the one that inserts make. -/
theorem eq_foldl_insert (hlength : input.length ≤ maxUnits) {candidates : CandidateBitmap}
    (h : candidates.Holds input.length fun bit => shardAllows machine filter input bit = true)
    (hcount : candidates.count = popCount candidates.words)
    (hbitLen : candidates.bitLen = input.length) :
    candidates = ((List.range input.length).filter (shardAllows machine filter input)).foldl
      CandidateBitmap.insert (CandidateBitmap.new input.length) := by
  have hbuilt := @built_allowed machine filter input hlength
  refine h.eq_of_popCount ⟨hbuilt.holds.length_eq, fun bit => ?_⟩ hcount ?_ ?_
  · rw [hbuilt.holds.containsBit_iff, List.mem_filter, List.mem_range]
    exact and_congr_right fun hbit => and_iff_right hbit
  · rw [hbuilt.count_eq_length, ← length_members]
    rfl
  · rw [hbitLen, hbuilt.bitLen_eq]

/-- Shards of any size write and count what inserts in order do. -/
theorem shardedBitmap_eq (hlength : input.length ≤ maxUnits) {size : ℕ} (hsize : 0 < size) :
    (⟨((sharedShards machine filter input size
        (CandidateBitmap.new input.length).words).map Prod.fst).flatten,
      ((sharedShards machine filter input size
        (CandidateBitmap.new input.length).words).map Prod.snd).foldl saturatingAdd 0,
      input.length⟩ : CandidateBitmap) =
    ((List.range input.length).filter (shardAllows machine filter input)).foldl
      CandidateBitmap.insert (CandidateBitmap.new input.length) :=
  eq_foldl_insert hlength (holds_sharedShards hlength hsize _ _)
    (count_sharedShards hlength hsize) rfl

/-- One slice of all words writes and counts what inserts in order do. -/
theorem scanWordSlice_eq (hlength : input.length ≤ maxUnits) :
    (⟨(scanWordSlice machine filter input 0 (CandidateBitmap.new input.length).words).1,
      (scanWordSlice machine filter input 0 (CandidateBitmap.new input.length).words).2,
      input.length⟩ : CandidateBitmap) =
    ((List.range input.length).filter (shardAllows machine filter input)).foldl
      CandidateBitmap.insert (CandidateBitmap.new input.length) := by
  have hfits := length_le_words hlength
  obtain ⟨hwords, hbits⟩ := @containsBit_scanWordSlice machine filter input hlength 0
    (by rw [Nat.zero_mul]; exact Nat.zero_le _) (input.length ⌈/⌉ 64)
  refine eq_foldl_insert hlength ⟨hwords, fun bit => ?_⟩ (count_scanWordSlice hlength 0 hfits.2) rfl
  refine (Bool.eq_iff_iff.mp (hbits bit)).trans ?_
  rw [Nat.zero_mul, Nat.zero_add, Bool.and_eq_true, decide_eq_true_eq]
  constructor
  · exact fun hbit => ⟨lt_length_of_shardAllows hlength hbit.2, hbit.2⟩
  · exact fun hbit => ⟨by omega, hbit.2⟩

end Shards

/-- A bitmap is an ordered set. After any inserts in range, also with a shorter bitmap of the same
kind copied first, the iterator yields what was inserted in strictly increasing order, and the
counter is how many that are. Shards of any size that fill their words independently give the same
bitmap, counter included, as one pass over all words and as inserts in order. -/
theorem candidate_bitmap_is_ordered_set :
    (∀ {length : ℕ} {candidates : CandidateBitmap} {positions : List ℕ},
      candidates.Built length positions →
        candidates.iter.Pairwise (· < ·) ∧
        (∀ start, start ∈ candidates.iter ↔ start ∈ positions) ∧
        candidates.count = candidates.iter.length) ∧
    ∀ (machine : Machine) (filter : UnionLiteralFilter) {input : List UInt16},
      input.length ≤ maxUnits → ∀ {size : ℕ}, 0 < size →
        let words := (CandidateBitmap.new input.length).words
        let shards := sharedShards machine filter input size words
        let sharded : CandidateBitmap := ⟨(shards.map Prod.fst).flatten,
          (shards.map Prod.snd).foldl saturatingAdd 0, input.length⟩
        let pass := scanWordSlice machine filter input 0 words
        sharded = ⟨pass.1, pass.2, input.length⟩ ∧
        sharded = ((List.range input.length).filter (shardAllows machine filter input)).foldl
          CandidateBitmap.insert (CandidateBitmap.new input.length) := by
  refine ⟨fun hbuilt => ⟨?_, fun start => ?_, hbuilt.count_eq_length⟩, ?_⟩
  · rw [hbuilt.iter_eq]
    exact List.pairwise_lt_range.filter _
  · rw [hbuilt.iter_eq, List.mem_filter, List.mem_range, decide_eq_true_eq]
    exact and_iff_right_of_imp (hbuilt.lt_length start)
  · intro machine filter input hlength size hsize
    refine ⟨?_, shardedBitmap_eq hlength hsize⟩
    exact (shardedBitmap_eq hlength hsize).trans (scanWordSlice_eq hlength).symm

/-- The inserts of 129, 1, 64 and again 1, and the shards of one word each of an input of seventy
units. -/
theorem candidate_bitmap_is_ordered_set_repeated :
    let candidates := [129, 1, 64, 1].foldl CandidateBitmap.insert (CandidateBitmap.new 130)
    let input := List.replicate 70 97
    let words := (CandidateBitmap.new input.length).words
    let filter := UnionLiteralFilter.compile (LiteralPrefilter.compile []) []
    let shards := sharedShards ⟨true, fun _ => true⟩ filter input 1 words
    candidates.iter = [1, 64, 129] ∧ candidates.count = 3 ∧
      (⟨(shards.map Prod.fst).flatten, (shards.map Prod.snd).foldl saturatingAdd 0,
        input.length⟩ : CandidateBitmap) =
        ⟨(scanWordSlice ⟨true, fun _ => true⟩ filter input 0 words).1,
          (scanWordSlice ⟨true, fun _ => true⟩ filter input 0 words).2, input.length⟩ := by
  intro candidates input words filter shards
  have hbuilt := (CandidateBitmap.Built.new 130).foldl_insert
    (by decide : ∀ start ∈ [129, 1, 64, 1], start < 130)
  obtain ⟨hordered, hmem, hcount⟩ := candidate_bitmap_is_ordered_set.1 hbuilt
  have hiter : candidates.iter = [1, 64, 129] := by
    refine hordered.eq_of_mem_iff (by decide) fun start => (hmem start).trans ?_
    simp only [List.nil_append, List.mem_cons, List.not_mem_nil, or_false]
    omega
  refine ⟨hiter, by rw [hcount, hiter]; rfl, ?_⟩
  have hlength : input.length ≤ maxUnits := by
    rw [List.length_replicate]
    decide
  exact (candidate_bitmap_is_ordered_set.2 ⟨true, fun _ => true⟩ filter hlength Nat.one_pos).1

end Rustmatch

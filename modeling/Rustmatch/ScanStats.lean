import Mathlib.Data.Nat.Notation

/-!
# Scan statistics

The counters of one scan (`ScanStats` in `engine.rs`) and the labels of the candidate plan it ran
(`prefilter.rs`). All counters are natural numbers. In the source they are `u64` and `usize` and
are counted up one by one, so that none of them overflows in any scan that could be run to its end;
where they are added up over partitions, the addition saturates there and here.

The fields `cache_table_bytes`, `prefilter_retained_bytes` and `prefilter_candidate_bytes` are left
out, as sizes of memory are all through the model, and so is `assertion_prefix_activations`, which
no scan touches.
-/

namespace Rustmatch

/-- `PrefilterPath`: which starts a plan visits. -/
inductive PrefilterPath where
  /-- Every start is scanned. -/
  | allStarts
  /-- The starts that the start table allows. -/
  | startTable
  /-- The candidates of the literal filter. -/
  | literal
  /-- The partitions differ. -/
  | mixedParallel
deriving DecidableEq, Repr

/-- `PrefilterBypass`: why the literal filter of a plan was not used. -/
inductive PrefilterBypass where
  /-- It was used. -/
  | none
  /-- The prefilter is switched off. -/
  | disabled
  /-- The literal filter is switched off. -/
  | literalDisabled
  /-- Some pattern uses assertions. -/
  | assertions
  /-- There are too few patterns. -/
  | patternCount
  /-- The text is too short. -/
  | inputSize
  /-- Some pattern has no literal that the tables hold. -/
  | unfilterable
  /-- Too many starts of the sample are candidates. -/
  | denseSample
  /-- The partitions differ. -/
  | mixedParallel
deriving DecidableEq, Repr

/-- `ScanStats`: the counters of one scan. -/
structure ScanStats where
  /-- The states that the cache has stored. -/
  cacheStates : ℕ := 0
  /-- The transitions that the cache knew. -/
  cacheHits : ℕ := 0
  /-- The transitions that had to be made. -/
  cacheMisses : ℕ := 0
  /-- The transitions that the cache had no room for. -/
  fallbackTransitions : ℕ := 0
  /-- The scans that assertions kept from using the cache. -/
  assertionBypasses : ℕ := 0
  /-- Which starts were scanned. -/
  prefilterPath : PrefilterPath := .allStarts
  /-- Why the literal filter was not used. -/
  prefilterBypass : PrefilterBypass := .none
  /-- The starts that the literal filter let pass. -/
  prefilterAdmissions : ℕ := 0
  /-- The starts that its tables admit. -/
  prefilterCandidateStarts : ℕ := 0
  /-- The starts that were scanned. -/
  prefilterStartsScanned : ℕ := 0
  /-- The starts that were not. -/
  prefilterStartsSkipped : ℕ := 0
deriving DecidableEq, Repr

end Rustmatch

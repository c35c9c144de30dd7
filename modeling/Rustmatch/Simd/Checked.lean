import Rustmatch.Simd

/-!
# The vector kernel with its faults

The kernel reads memory without bounds checks: eight units at a time, and table words at computed
indices. It also adds indices without looking for overflow. Here every such step is checked and a
step that would leave its bounds is `none`. On tables of the right size and slices of words that
start inside the range of `usize`, the checked kernel never faults and returns what the kernel
returns.

## Main definitions

* `fiveLaneMaskChecked`, `scalarFiveAllowsChecked`: lookups with checked loads;
* `scanFiveHashWordsAvx2Checked`: words of a bitmap, with all steps checked;
* `scanChunks`: a bitmap scanned chunk by chunk.

## Main results

* `fiveLaneMaskChecked_eq_some`, `scanFiveHashWordsAvx2Checked_eq_some`: no step faults;
* `vector_kernel_matches_scalar_oracle`: what the kernel writes and returns;
* `lane_arithmetic_is_exact`: what each lane computes.
-/

open WordBits

namespace Rustmatch

/-! ### Checked steps -/

/-- One unaligned load of eight units that are all there. -/
def loadUnitsChecked (input : List UInt16) (start offset : ℕ) : Option Lanes :=
  if start + offset + 8 ≤ input.length then some (loadUnits input start offset) else none

/-- A gather at indices inside the table. -/
def gatherChecked (table : List (BitVec 32)) (indices : Lanes) : Option Lanes :=
  if ∀ lane, (indices lane).toNat < table.length then some (Lanes.gather table indices) else none

/-- A left shift by less than the width. -/
def checkedShl (word : Word) (count : ℕ) : Option Word :=
  if count < 64 then some (word <<< count) else none

/-- `five_lane_mask_avx2`. -/
def fiveLaneMaskChecked (hashWords : List Word) (input : List UInt16) (start : ℕ) :
    Option (BitVec 8) := do
  let units ← (List.range 5).mapM (loadUnitsChecked input start)
  let (hash, combined) :=
    units.foldl hashLanes (Lanes.set1 (BitVec.ofInt 32 (-2078137563)), Lanes.set1 0#32)
  let bitIndices := hash.and (Lanes.set1 0xfffff#32)
  let wordIndices := bitIndices.srli 5
  let shifts := bitIndices.and (Lanes.set1 31#32)
  let selectedWords ← gatherChecked (halfWords hashWords) wordIndices
  let selectedBits := (selectedWords.srlv shifts).and (Lanes.set1 1#32)
  let found := selectedBits.cmpeq (Lanes.set1 1#32)
  let nonAscii := combined.cmpgt (Lanes.set1 127#32)
  return (found.or nonAscii).movemask

/-- `scalar_five_allows`, with the word of the table looked up. -/
def scalarFiveAllowsChecked (hashWords : List Word) (input : List UInt16) (start : ℕ) :
    Option Bool :=
  match getRange input start (saturatingAdd start 5) with
  | none => some false
  | some units =>
    if units.any (128 ≤ ·) then some true
    else
      let bit := fiveHashIndex units
      hashWords[bit / 64]?.map fun word => word &&& (1#64 <<< (bit % 64)) != 0#64

section Words

variable (hashWords : List Word) (input : List UInt16) (start validStarts : ℕ)

/-- The loop over eight lanes at a time. The second bound is only computed when the first one
holds. -/
def vectorLanesChecked (laneStart : ℕ) (candidates : Word) : Option (ℕ × Word) :=
  if laneStart + 8 ≤ validStarts then
    (checkedAdd start (laneStart + 12)).bind fun stop =>
      if stop ≤ input.length then
        (fiveLaneMaskChecked hashWords input (start + laneStart)).bind fun laneMask =>
          (checkedShl (laneMask.setWidth 64) laneStart).bind fun lanes =>
            vectorLanesChecked (laneStart + 8) (candidates ||| lanes)
      else some (laneStart, candidates)
  else some (laneStart, candidates)
termination_by validStarts - laneStart

/-- The loop over the lanes that are left. -/
def scalarLanesChecked (laneStart : ℕ) (candidates : Word) : Option Word :=
  if laneStart < validStarts then
    (checkedAdd start laneStart).bind fun here =>
      (scalarFiveAllowsChecked hashWords input here).bind fun allows =>
        if allows then
          (checkedShl 1#64 laneStart).bind fun lane =>
            scalarLanesChecked (laneStart + 1) (candidates ||| lane)
        else scalarLanesChecked (laneStart + 1) candidates
  else some candidates
termination_by validStarts - laneStart

/-- The word whose bits are the starts from `start` on. -/
def laneWordChecked : Option Word := do
  let (laneStart, candidates) ← vectorLanesChecked hashWords input start validStarts 0 0#64
  scalarLanesChecked hashWords input start validStarts laneStart candidates

end Words

/-- `scan_five_hash_words_avx2`. -/
def scanFiveHashWordsAvx2Checked (input : List UInt16) (hashWords : List Word) (firstStart : ℕ)
    (outputWords : List Word) : Option (List Word × ℕ) := do
  let endStart := min (saturatingAdd firstStart (saturatingMul outputWords.length 64)) input.length
  let words ← (List.range outputWords.length).mapM fun wordOffset => do
    let start ← checkedAdd firstStart (wordOffset * 64)
    laneWordChecked hashWords input start (min (endStart - start) 64)
  return (words, words.foldl (fun admissions word => saturatingAdd admissions word.cpop.toNat) 0)

/-- A bitmap in chunks, each scanned from the start that its first bit stands for. -/
def scanChunks (input : List UInt16) (hashWords : List Word) :
    ℕ → List (List Word) → Option (List Word × ℕ)
  | _, [] => some ([], 0)
  | firstStart, chunk :: rest => do
    let (written, count) ← scanFiveHashWordsAvx2Checked input hashWords firstStart chunk
    let (others, total) ← scanChunks input hashWords (firstStart + chunk.length * 64) rest
    return (written ++ others, count + total)

/-! ### No step faults -/

/-- A traversal whose steps all succeed. -/
theorem mapM_eq_some_map {α β : Type} {f : α → Option β} {g : α → β} {items : List α}
    (h : ∀ item ∈ items, f item = some (g item)) : items.mapM f = some (items.map g) := by
  induction items with
  | nil => rfl
  | cons item items ih =>
    obtain ⟨hitem, hitems⟩ := List.forall_mem_cons.mp h
    rw [List.mapM_cons, hitem, ih hitems]
    rfl

/-- The index lies in the table. -/
theorem fiveHashIndex_lt (units : List UInt16) : fiveHashIndex units < 2 ^ 20 := by
  rw [← fiveHashIndex_eq, BitVec.toNat_and]
  exact lt_of_le_of_lt Nat.and_le_right (by decide)

section Table

variable {hashWords : List Word} {input : List UInt16} {start : ℕ}

/-- The kernel reads inside the input and inside the table. -/
theorem fiveLaneMaskChecked_eq_some (hwords : hashWords.length = fivePrefixHashWords)
    (hfits : start + 12 ≤ input.length) :
    fiveLaneMaskChecked hashWords input start = some (fiveLaneMask hashWords input start) := by
  have hloads : (List.range 5).mapM (loadUnitsChecked input start) =
      some ((List.range 5).map (loadUnits input start)) := by
    refine mapM_eq_some_map fun offset hoffset => if_pos ?_
    have hlt := List.mem_range.mp hoffset
    omega
  -- the indices have fifteen bits, and the table has as many half words
  have hindices : ∀ lane, (((laneState input start).1.and (Lanes.set1 0xfffff#32)).srli 5
      lane).toNat < (halfWords hashWords).length := by
    intro lane
    have hindex := toNat_laneState_and input start lane
    have hlt := fiveHashIndex_lt (window input (start + lane))
    rw [length_halfWords, hwords]
    show (((laneState input start).1 lane &&& 0xfffff#32) >>> 5).toNat < 2 * fivePrefixHashWords
    rw [BitVec.toNat_ushiftRight, hindex, Nat.shiftRight_eq_div_pow]
    exact Nat.div_lt_of_lt_mul hlt
  have hgather : gatherChecked (halfWords hashWords)
      (((laneState input start).1.and (Lanes.set1 0xfffff#32)).srli 5) =
        some (Lanes.gather (halfWords hashWords)
          (((laneState input start).1.and (Lanes.set1 0xfffff#32)).srli 5)) := if_pos hindices
  unfold fiveLaneMaskChecked
  rw [hloads]
  show (gatherChecked (halfWords hashWords)
    (((laneState input start).1.and (Lanes.set1 0xfffff#32)).srli 5)).bind _ = _
  rw [hgather]
  rfl

/-- No index of the scalar code leaves the table. -/
theorem scalarFiveAllowsChecked_eq_some (hwords : hashWords.length = fivePrefixHashWords) :
    scalarFiveAllowsChecked hashWords input start =
      some (scalarFiveAllows hashWords input start) := by
  unfold scalarFiveAllowsChecked scalarFiveAllows
  cases hunits : getRange input start (saturatingAdd start 5) with
  | none => rfl
  | some units =>
    have hword : fiveHashIndex units / 64 < hashWords.length := by
      rw [hwords]
      exact Nat.div_lt_of_lt_mul (fiveHashIndex_lt units)
    show (if units.any (128 ≤ ·) = true then some true else _) = some (if _ then _ else _)
    split
    · rfl
    · unfold containsBit
      show Option.map _ hashWords[fiveHashIndex units / 64]? = _
      rw [List.getElem?_eq_getElem hword, List.getD_eq_getElem _ _ hword]
      rfl

variable {validStarts : ℕ}

/-- The loop over eight lanes at a time only calls the kernel where it may. -/
theorem vectorLanesChecked_eq_some (hwords : hashWords.length = fivePrefixHashWords)
    (hlength : input.length ≤ maxUnits) (hvalid : validStarts ≤ 64)
    (hinput : validStarts ≤ input.length - start) (laneStart : ℕ) (candidates : Word) :
    vectorLanesChecked hashWords input start validStarts laneStart candidates =
      some (vectorLanes hashWords input start validStarts laneStart candidates) := by
  unfold maxUnits at hlength
  induction laneStart, candidates using
    vectorLanes.induct hashWords input start validStarts with
  | case1 laneStart candidates hmore ih =>
    have hstop : checkedAdd start (laneStart + 12) = some (start + (laneStart + 12)) := by
      refine if_pos ?_
      unfold usizeMax
      omega
    have hlast : start + (laneStart + 12) ≤ input.length := by omega
    have hshift : laneStart < 64 := by omega
    rw [vectorLanesChecked, vectorLanes, if_pos hmore, if_pos hmore.1, hstop, Option.bind_some,
      if_pos hlast, fiveLaneMaskChecked_eq_some hwords hmore.2, Option.bind_some, checkedShl,
      if_pos hshift, Option.bind_some, ih]
  | case2 laneStart candidates hdone =>
    rw [vectorLanesChecked, vectorLanes, if_neg hdone]
    split
    next hlanes =>
      -- eight more starts lie inside the input, but not all the units that they look at
      have hstop : checkedAdd start (laneStart + 12) = some (start + (laneStart + 12)) := by
        refine if_pos ?_
        unfold usizeMax
        omega
      have hlast : ¬ start + (laneStart + 12) ≤ input.length := by omega
      rw [hstop, Option.bind_some, if_neg hlast]
    next => rfl

/-- The loop over the lanes that are left. -/
theorem scalarLanesChecked_eq_some (hwords : hashWords.length = fivePrefixHashWords)
    (hlength : input.length ≤ maxUnits) (hvalid : validStarts ≤ 64)
    (hinput : validStarts ≤ input.length - start) (laneStart : ℕ) (candidates : Word) :
    scalarLanesChecked hashWords input start validStarts laneStart candidates =
      some (scalarLanes hashWords input start validStarts laneStart candidates) := by
  unfold maxUnits at hlength
  induction laneStart, candidates using
    scalarLanes.induct hashWords input start validStarts with
  | case1 laneStart candidates hmore ih =>
    have hhere : checkedAdd start laneStart = some (start + laneStart) := by
      refine if_pos ?_
      unfold usizeMax
      omega
    have hshift : laneStart < 64 := by omega
    rw [dite_eq_ite] at ih
    rw [scalarLanesChecked, if_pos hmore, hhere, Option.bind_some,
      scalarFiveAllowsChecked_eq_some hwords, Option.bind_some, checkedShl, if_pos hshift,
      Option.bind_some, scalarLanes, if_pos hmore, ← ih]
    split <;> rfl
  | case2 laneStart candidates hdone =>
    rw [scalarLanesChecked, scalarLanes, if_neg hdone, if_neg hdone]

/-- No index of the vector code leaves the table or the text. -/
theorem laneWordChecked_eq_some (hwords : hashWords.length = fivePrefixHashWords)
    (hlength : input.length ≤ maxUnits) (hvalid : validStarts ≤ 64)
    (hinput : validStarts ≤ input.length - start) :
    laneWordChecked hashWords input start validStarts =
      some (laneWord hashWords input start validStarts) := by
  unfold laneWordChecked laneWord
  rw [vectorLanesChecked_eq_some hwords hlength hvalid hinput]
  exact scalarLanesChecked_eq_some hwords hlength hvalid hinput _ _

/-- No step of the kernel faults. -/
theorem scanFiveHashWordsAvx2Checked_eq_some {firstStart : ℕ} {outputWords : List Word}
    (hwords : hashWords.length = fivePrefixHashWords) (hlength : input.length ≤ maxUnits)
    (hrange : firstStart + 64 * outputWords.length ≤ usizeMax) :
    scanFiveHashWordsAvx2Checked input hashWords firstStart outputWords =
      some (scanFiveHashWordsAvx2 input hashWords firstStart outputWords) := by
  unfold scanFiveHashWordsAvx2Checked scanFiveHashWordsAvx2
  dsimp only
  rw [mapM_eq_some_map]
  · rfl
  · intro wordOffset hoffset
    have hlt := List.mem_range.mp hoffset
    have hstart : checkedAdd firstStart (wordOffset * 64) =
        some (firstStart + wordOffset * 64) := if_pos (by omega)
    rw [hstart]
    exact laneWordChecked_eq_some hwords hlength (Nat.min_le_right _ _) (by omega)

end Table

/-! ### What the kernel writes -/

/-- The bits of the starts that the scalar code allows, and their number. -/
structure Scanned (input : List UInt16) (hashWords : List Word) (firstStart wordCount : ℕ)
    (scanned : List Word × ℕ) : Prop where
  /-- All words are there. -/
  length_eq : scanned.1.length = wordCount
  /-- A bit is set when its start lies in the text and the scalar code allows it. -/
  getLsbD_eq : ∀ word < wordCount, ∀ bit < 64,
    (scanned.1.getD word 0#64).getLsbD bit =
      (decide (firstStart + 64 * word + bit < input.length) &&
        scalarFiveAllows hashWords input (firstStart + 64 * word + bit))
  /-- The number is that of the set bits. -/
  count_eq : scanned.2 = popCount scanned.1

section Kernel

variable {hashWords : List Word} {input : List UInt16} {firstStart : ℕ}

/-- A start that the scalar code allows lies inside the input. -/
theorem lt_length_of_scalarFiveAllows {start : ℕ} (hlength : input.length ≤ maxUnits)
    (h : scalarFiveAllows hashWords input start = true) : start < input.length := by
  rw [scalarFiveAllows_eq hlength, Bool.and_eq_true, decide_eq_true_eq] at h
  omega

/-- The kernel scans as the scalar code allows. -/
theorem scanned_scanFiveHashWordsAvx2 {outputWords : List Word}
    (hlength : input.length ≤ maxUnits) (hrange : firstStart + 64 * outputWords.length ≤ usizeMax) :
    Scanned input hashWords firstStart outputWords.length
      (scanFiveHashWordsAvx2 input hashWords firstStart outputWords) where
  length_eq := length_scanFiveHashWordsAvx2 input hashWords firstStart outputWords
  getLsbD_eq := by
    intro word hword bit hbit
    have hcontains := containsBit_scanFiveHashWordsAvx2 hashWords firstStart outputWords hlength
      (64 * word + bit)
    have hdiv : (64 * word + bit) / 64 = word := by omega
    have hmod : (64 * word + bit) % 64 = bit := by omega
    have hlt : 64 * word + bit < outputWords.length * 64 := by omega
    rw [containsBit_eq_getLsbD (by decide), hdiv, hmod, decide_eq_true hlt, Bool.true_and,
      ← Nat.add_assoc] at hcontains
    rw [hcontains, eq_comm, Bool.and_eq_right_iff_imp, decide_eq_true_eq]
    exact lt_length_of_scalarFiveAllows hlength
  count_eq := count_scanFiveHashWordsAvx2 (by omega)

/-- The words that a scan writes are known from their bits. -/
theorem Scanned.unique {wordCount : ℕ} {scanned other : List Word × ℕ}
    (h : Scanned input hashWords firstStart wordCount scanned)
    (h' : Scanned input hashWords firstStart wordCount other) : scanned = other := by
  have hwords : scanned.1 = other.1 := by
    apply List.ext_getElem
    · rw [h.length_eq, h'.length_eq]
    · intro word hword hword'
      rw [← List.getD_eq_getElem _ 0#64 hword, ← List.getD_eq_getElem _ 0#64 hword']
      apply BitVec.eq_of_getLsbD_eq
      intro bit hbit
      rw [h.length_eq] at hword
      rw [h.getLsbD_eq word hword bit hbit, h'.getLsbD_eq word hword bit hbit]
  exact Prod.ext hwords (by rw [h.count_eq, h'.count_eq, hwords])

/-- Two scans in a row are one scan. -/
theorem Scanned.append {wordCount restCount : ℕ} {scanned rest : List Word × ℕ}
    (h : Scanned input hashWords firstStart wordCount scanned)
    (hrest : Scanned input hashWords (firstStart + wordCount * 64) restCount rest) :
    Scanned input hashWords firstStart (wordCount + restCount)
      (scanned.1 ++ rest.1, scanned.2 + rest.2) where
  length_eq := by rw [List.length_append, h.length_eq, hrest.length_eq]
  getLsbD_eq := by
    intro word hword bit hbit
    by_cases hfirst : word < wordCount
    · rw [List.getD_append _ _ _ _ (by rwa [h.length_eq]), h.getLsbD_eq word hfirst bit hbit]
    · have hstart : firstStart + wordCount * 64 + 64 * (word - wordCount) + bit =
          firstStart + 64 * word + bit := by omega
      rw [List.getD_append_right _ _ _ _ (by rw [h.length_eq]; omega), h.length_eq,
        hrest.getLsbD_eq _ (by omega) bit hbit, hstart]
  count_eq := by
    rw [h.count_eq, hrest.count_eq]
    unfold popCount
    rw [List.map_append, List.sum_append]

/-- A bitmap scanned chunk by chunk. -/
theorem scanned_scanChunks (hwords : hashWords.length = fivePrefixHashWords)
    (hlength : input.length ≤ maxUnits) (chunks : List (List Word))
    (hrange : firstStart + 64 * chunks.flatten.length ≤ usizeMax) :
    ∃ scanned, scanChunks input hashWords firstStart chunks = some scanned ∧
      Scanned input hashWords firstStart chunks.flatten.length scanned := by
  induction chunks generalizing firstStart with
  | nil =>
    exact ⟨([], 0), rfl, ⟨rfl, fun word hword => absurd hword (Nat.not_lt_zero word), rfl⟩⟩
  | cons chunk chunks ih =>
    rw [List.flatten_cons, List.length_append] at hrange ⊢
    obtain ⟨rest, hrest, hscanned⟩ := @ih (firstStart + chunk.length * 64) (by omega)
    have hchunk : firstStart + 64 * chunk.length ≤ usizeMax := by omega
    refine ⟨_, ?_, (scanned_scanFiveHashWordsAvx2 hlength hchunk).append hscanned⟩
    rw [scanChunks, scanFiveHashWordsAvx2Checked_eq_some hwords hlength hchunk, hrest]
    rfl

end Kernel

/-- The kernel never leaves its bounds and writes the words whose bits are the starts that the
scalar code allows, whatever the words held before and wherever the words lie against the end of
the input. It returns the number of these bits, and a bitmap scanned in chunks gives the same words
and the same number. -/
theorem vector_kernel_matches_scalar_oracle {input : List UInt16} {hashWords : List Word}
    {firstStart : ℕ} {outputWords : List Word} (hlength : input.length ≤ maxUnits)
    (hwords : hashWords.length = 2 ^ 20 / 64)
    (hrange : firstStart + 64 * outputWords.length ≤ usizeMax) :
    ∃ written count,
      scanFiveHashWordsAvx2Checked input hashWords firstStart outputWords = some (written, count) ∧
      scanFiveHashWordsAvx2 input hashWords firstStart outputWords = (written, count) ∧
      written.length = outputWords.length ∧
      (∀ word < outputWords.length, ∀ bit < 64,
        (written.getD word 0#64).getLsbD bit =
          (decide (firstStart + 64 * word + bit < input.length) &&
            scalarFiveAllows hashWords input (firstStart + 64 * word + bit))) ∧
      count = popCount written ∧
      ∀ chunks : List (List Word), chunks.flatten.length = outputWords.length →
        scanChunks input hashWords firstStart chunks = some (written, count) := by
  have hchecked := scanFiveHashWordsAvx2Checked_eq_some hwords hlength hrange
  have hscanned := @scanned_scanFiveHashWordsAvx2 hashWords input firstStart outputWords hlength
    hrange
  cases hkernel : scanFiveHashWordsAvx2 input hashWords firstStart outputWords with
  | mk written count =>
    rw [hkernel] at hchecked hscanned
    refine ⟨written, count, hchecked, rfl, hscanned.length_eq, hscanned.getLsbD_eq,
      hscanned.count_eq, fun chunks hchunks => ?_⟩
    -- in chunks: the words written and their number are determined by the input
    obtain ⟨whole, hwhole, hscanned'⟩ := @scanned_scanChunks hashWords input firstStart hwords
      hlength chunks (by rwa [hchunks])
    rw [hchunks] at hscanned'
    rw [hwhole, hscanned'.unique hscanned]

/-- A table that holds the hash of `needl` only. -/
def needleTable : List Word :=
  setBit (List.replicate (2 ^ 20 / 64) 0#64) (fiveHashIndex [0x6e, 0x65, 0x65, 0x64, 0x6c])

/-- `xxneedlexxxxxx`. -/
def needleText : List UInt16 :=
  [0x78, 0x78, 0x6e, 0x65, 0x65, 0x64, 0x6c, 0x65, 0x78, 0x78, 0x78, 0x78, 0x78, 0x78]

/-- Two words: the vector loop handles the first eight starts of the first one and sets the bit of
the start of `needl`; the second one, behind the end of the text, is cleared. -/
theorem vector_kernel_matches_scalar_oracle_needle :
    (vectorLanes needleTable needleText 0 needleText.length 0 0#64).1 = 8 ∧
      (vectorLanes needleTable needleText 0 needleText.length 0 0#64).2.getLsbD 2 = true ∧
      ∃ written count, scanFiveHashWordsAvx2Checked needleText needleTable 0
          [0#64, BitVec.allOnes 64] = some (written, count) ∧
        (written.getD 0 0#64).getLsbD 2 = true ∧
        ∀ bit < 64, (written.getD 1 0#64).getLsbD bit = false := by
  have hlength : needleText.length ≤ maxUnits := by decide
  have hwords : needleTable.length = 2 ^ 20 / 64 := by
    rw [needleTable, length_setBit, List.length_replicate]
  have hallows : scalarFiveAllows needleTable needleText 2 = true := by
    have hwindow : window needleText 2 = [0x6e, 0x65, 0x65, 0x64, 0x6c] := by decide
    have hbit : fiveHashIndex [0x6e, 0x65, 0x65, 0x64, 0x6c] / 64 <
        (List.replicate (2 ^ 20 / 64) 0#64).length := by
      have hindex := fiveHashIndex_lt [0x6e, 0x65, 0x65, 0x64, 0x6c]
      rw [List.length_replicate]
      omega
    rw [scalarFiveAllows_eq hlength, hwindow, needleTable, containsBit_setBit (by decide) hbit,
      decide_eq_true rfl, Bool.true_or, Bool.or_true, Bool.and_true]
    decide
  have hlanes : (vectorLanes needleTable needleText 0 needleText.length 0 0#64).1 = 8 := by
    rw [vectorLanes, if_pos (by decide), vectorLanes, if_neg (by decide)]
  obtain ⟨-, hvector⟩ := @vectorLanes_spec needleTable needleText 0 needleText.length hlength
    (by decide) 0 0#64 (Nat.zero_le _) lanesWritten_zero
  obtain ⟨written, count, hchecked, -, -, hbits, -⟩ :=
    @vector_kernel_matches_scalar_oracle needleText needleTable 0 [0#64, BitVec.allOnes 64] hlength
      hwords (by decide)
  refine ⟨hlanes, ?_, written, count, hchecked, ?_, fun bit hbit => ?_⟩
  · rw [hvector 2, hlanes, Nat.zero_add, hallows]
    rfl
  · rw [hbits 0 (by decide) 2 (by decide), hallows]
    rfl
  · have houtside : ¬ 0 + 64 * 1 + bit < needleText.length := by
      show ¬ 0 + 64 * 1 + bit < 14
      omega
    rw [hbits 1 (by decide) bit hbit]
    exact Bool.and_eq_false_imp.mpr fun hinside => absurd (of_decide_eq_true hinside) houtside

/-! ### What a lane computes -/

/-- The kernel and the prefilter hash alike. -/
theorem fiveHashIndex_eq_prefixHashIndex (units : List UInt16) :
    fiveHashIndex units = prefixHashIndex units (2 ^ 20) := rfl

/-- A lane of the kernel computes what the scalar code computes at its start. Its hash of 32 bits
ends in the twenty bits of the hash of 64 bits, it gathers the bit of the table that the scalar code
tests, and its signed comparison finds the windows with a unit that is not ASCII. -/
theorem lane_arithmetic_is_exact {input : List UInt16} {hashWords : List Word} {start : ℕ}
    (hlength : input.length ≤ maxUnits) (hwords : hashWords.length = 2 ^ 20 / 64)
    (hfits : start + 12 ≤ input.length) :
    ∃ mask, fiveLaneMaskChecked hashWords input start = some mask ∧
      ∀ lane : Fin 8,
        mask.getLsbD lane = scalarFiveAllows hashWords input (start + lane) ∧
        ∃ units hash combined,
          getRange input (start + lane) (start + lane + 5) = some units ∧
          (laneState input start).1 lane = hash ∧ (laneState input start).2 lane = combined ∧
          (hash &&& 0xfffff#32).toNat = fiveHashIndex units ∧
          fiveHashIndex units = prefixHashIndex units (2 ^ 20) ∧
          ((halfWords hashWords).getD ((hash &&& 0xfffff#32) >>> 5).toNat 0#32 >>>
              (hash &&& 0xfffff#32 &&& 31#32).toNat &&& 1#32 = 1#32 ↔
            containsBit hashWords (fiveHashIndex units) = true) ∧
          ((127#32).slt combined = true ↔ ∃ unit ∈ units, 128 ≤ unit) ∧
          mask.getLsbD lane = ((127#32).slt combined ||
            containsBit hashWords (fiveHashIndex units)) := by
  refine ⟨_, fiveLaneMaskChecked_eq_some hwords hfits, fun lane => ?_⟩
  have hlane := getLsbD_fiveLaneMask hashWords hlength hfits lane.isLt
  have hholds := laneHolds_laneState input start lane
  have hunits : getRange input (start + lane) (start + lane + 5) =
      some (window input (start + lane)) := getRange_eq_map_getD (by omega)
  have hindex := toNat_laneState_and input start lane
  have hgathered := gathered_eq_iff hashWords ((laneState input start).1 lane &&& 0xfffff#32)
  have hcompared := slt_combined_iff hholds
  rw [hindex] at hgathered
  refine ⟨hlane, _, _, _, hunits, rfl, rfl, hindex, fiveHashIndex_eq_prefixHashIndex _, hgathered,
    ?_, ?_⟩
  · rw [hcompared, List.any_eq_true]
    simp only [decide_eq_true_eq]
  · rw [getLsbD_fiveLaneMask_eq, Bool.decide_congr hgathered, Bool.decide_eq_true, Bool.or_comm]

/-- Twelve units that are not ASCII are admitted in all lanes. -/
theorem lane_arithmetic_is_exact_twelve :
    ∃ mask, fiveLaneMaskChecked (List.replicate (2 ^ 20 / 64) 0#64) (List.replicate 12 0x80) 0 =
        some mask ∧
      ∀ lane : Fin 8, mask.getLsbD lane =
        scalarFiveAllows (List.replicate (2 ^ 20 / 64) 0#64) (List.replicate 12 0x80)
          (0 + lane) := by
  obtain ⟨mask, hmask, hlanes⟩ :=
    @lane_arithmetic_is_exact (List.replicate 12 0x80) (List.replicate (2 ^ 20 / 64) 0#64) 0
      (by decide) List.length_replicate (by decide)
  exact ⟨mask, hmask, fun lane => (hlanes lane).1⟩

end Rustmatch

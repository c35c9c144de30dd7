import Mathlib.Tactic.FinCases
import Rustmatch.Prefilter

/-!
# The vector kernel

The crate `rustmatch-simd`: a kernel that looks up the hashes of five units at eight starts at a
time and writes the starts that the table holds into words of a bitmap. A vector register is eight
lanes of 32 bits, and an intrinsic is its operation on lanes. The table of 64-bit words is read as
twice as many 32-bit words, low half first.

## Main definitions

* `scalarFiveAllows`: one start;
* `fiveLaneMask`: eight starts, as one byte;
* `scanFiveHashWords`: words of a bitmap.

## Main results

* `getLsbD_fiveLaneMask`: a lane computes what the scalar code computes at its start;
* `containsBit_scanFiveHashWordsAvx2`: the bits that the kernel writes.
-/

open WordBits

namespace Rustmatch

/-! ### Lanes -/

/-- `__m256i`, as eight lanes of 32 bits. -/
abbrev Lanes := Fin 8 → BitVec 32

namespace Lanes

/-- `_mm256_set1_epi32`. -/
def set1 (value : BitVec 32) : Lanes := fun _ => value

/-- `_mm256_and_si256`. -/
def and (a b : Lanes) : Lanes := fun lane => a lane &&& b lane

/-- `_mm256_or_si256`. -/
def or (a b : Lanes) : Lanes := fun lane => a lane ||| b lane

/-- `_mm256_xor_si256`. -/
def xor (a b : Lanes) : Lanes := fun lane => a lane ^^^ b lane

/-- `_mm256_mullo_epi32`. -/
def mullo (a b : Lanes) : Lanes := fun lane => a lane * b lane

/-- `_mm256_srli_epi32`. -/
def srli (count : ℕ) (a : Lanes) : Lanes := fun lane => a lane >>> count

/-- `_mm256_srlv_epi32`. -/
def srlv (a counts : Lanes) : Lanes := fun lane => a lane >>> (counts lane).toNat

/-- `_mm256_cmpeq_epi32`. -/
def cmpeq (a b : Lanes) : Lanes := fun lane =>
  if a lane = b lane then BitVec.allOnes 32 else 0#32

/-- `_mm256_cmpgt_epi32`: the comparison is signed. -/
def cmpgt (a b : Lanes) : Lanes := fun lane =>
  if (b lane).slt (a lane) then BitVec.allOnes 32 else 0#32

/-- `_mm256_i32gather_epi32::<4>`, for indices inside the table. -/
def gather (table : List (BitVec 32)) (indices : Lanes) : Lanes := fun lane =>
  table.getD (indices lane).toNat 0#32

/-- `_mm256_movemask_ps`: the sign bits of the lanes. -/
def movemask (a : Lanes) : BitVec 8 :=
  BitVec.ofBoolListLE [(a 0).msb, (a 1).msb, (a 2).msb, (a 3).msb, (a 4).msb, (a 5).msb, (a 6).msb,
    (a 7).msb]

/-- The mask has the sign of each lane. -/
theorem getLsbD_movemask (a : Lanes) (lane : Fin 8) :
    (movemask a).getLsbD lane = (a lane).msb := by
  rw [movemask, BitVec.getLsbD_ofBoolListLE]
  fin_cases lane <;> rfl

end Lanes

/-- `u64` storage read as `u32` words on a little-endian machine. -/
def halfWords (words : List Word) : List (BitVec 32) :=
  words.flatMap fun word : Word => [word.setWidth 32, (word >>> 32).setWidth 32]

/-! ### The kernel -/

/-- `five_hash_index`: the bit of the hash of five units. -/
def fiveHashIndex (units : List UInt16) : ℕ :=
  (units.foldl (fun hash unit => hashByte hash unit.toUInt64) 0xcbf29ce484222325 &&&
    UInt64.ofNat (2 ^ 20 - 1)).toNat

/-- `scalar_five_allows`: five ASCII units stand at a start whose hash is in the table. -/
def scalarFiveAllows (hashWords : List Word) (input : List UInt16) (start : ℕ) : Bool :=
  match getRange input start (saturatingAdd start 5) with
  | none => false
  | some units =>
    if units.any (128 ≤ ·) then true
    else containsBit hashWords (fiveHashIndex units)

/-- One unaligned load of eight units, each widened to a lane. -/
def loadUnits (input : List UInt16) (start offset : ℕ) : Lanes := fun lane =>
  (input.getD (start + offset + lane) 0).toBitVec.setWidth 32

/-- One round of the hash loop of `five_lane_mask_avx2`: the hashes and the combined units. -/
def hashLanes (state : Lanes × Lanes) (units : Lanes) : Lanes × Lanes :=
  (((state.1.xor units).mullo (Lanes.set1 0x1b3#32)), state.2.or units)

/-- `five_lane_mask_avx2`: eight starts at once, one in each lane. -/
def fiveLaneMask (hashWords : List Word) (input : List UInt16) (start : ℕ) : BitVec 8 :=
  let units := (List.range 5).map (loadUnits input start)
  let (hash, combined) :=
    units.foldl hashLanes (Lanes.set1 (BitVec.ofInt 32 (-2078137563)), Lanes.set1 0#32)
  let bitIndices := hash.and (Lanes.set1 0xfffff#32)
  let wordIndices := bitIndices.srli 5
  let shifts := bitIndices.and (Lanes.set1 31#32)
  let selectedWords := Lanes.gather (halfWords hashWords) wordIndices
  let selectedBits := (selectedWords.srlv shifts).and (Lanes.set1 1#32)
  let found := selectedBits.cmpeq (Lanes.set1 1#32)
  let nonAscii := combined.cmpgt (Lanes.set1 127#32)
  (found.or nonAscii).movemask

section Words

variable (hashWords : List Word) (input : List UInt16) (start validStarts : ℕ)

/-- The loop over eight lanes at a time. -/
def vectorLanes (laneStart : ℕ) (candidates : Word) : ℕ × Word :=
  if laneStart + 8 ≤ validStarts ∧ start + laneStart + 12 ≤ input.length then
    vectorLanes (laneStart + 8) (candidates |||
      (fiveLaneMask hashWords input (start + laneStart)).setWidth 64 <<< laneStart)
  else (laneStart, candidates)
termination_by validStarts - laneStart

/-- The loop over the lanes that are left. -/
def scalarLanes (laneStart : ℕ) (candidates : Word) : Word :=
  if laneStart < validStarts then
    scalarLanes (laneStart + 1) (if scalarFiveAllows hashWords input (start + laneStart) then
      candidates ||| 1#64 <<< laneStart else candidates)
  else candidates
termination_by validStarts - laneStart

/-- The word whose bits are the starts from `start` on. -/
def laneWord : Word :=
  let (laneStart, candidates) := vectorLanes hashWords input start validStarts 0 0#64
  scalarLanes hashWords input start validStarts laneStart candidates

end Words

/-- `scan_five_hash_words_avx2`: the words written and the number of their bits. -/
def scanFiveHashWordsAvx2 (input : List UInt16) (hashWords : List Word) (firstStart : ℕ)
    (outputWords : List Word) : List Word × ℕ :=
  let endStart := min (saturatingAdd firstStart (saturatingMul outputWords.length 64)) input.length
  let words := (List.range outputWords.length).map fun wordOffset =>
    let start := firstStart + wordOffset * 64
    laneWord hashWords input start (min (endStart - start) 64)
  (words, words.foldl (fun admissions word => saturatingAdd admissions word.cpop.toNat) 0)

/-- `scan_five_hash_words`, on a processor with or without AVX2. -/
def scanFiveHashWords (avx2 : Bool) (input : List UInt16) (hashWords : List Word) (firstStart : ℕ)
    (outputWords : List Word) : Option (List Word × ℕ) :=
  if !avx2 || hashWords.length ≠ fivePrefixHashWords then none
  else some (scanFiveHashWordsAvx2 input hashWords firstStart outputWords)

/-! ### One lane -/

/-- A word has two halves. -/
theorem length_halfWords (words : List Word) : (halfWords words).length = 2 * words.length := by
  induction words with
  | nil => rfl
  | cons word words ih =>
    rw [halfWords, List.flatMap_cons, List.length_append, ← halfWords, ih, List.length_cons]
    simp only [List.length_cons, List.length_nil]
    omega

/-- Half word `k` is the low or the high half of word `k / 2`. -/
theorem getD_halfWords (words : List Word) (k : ℕ) :
    (halfWords words).getD k 0#32 =
      (words.getD (k / 2) 0#64 >>> (32 * (k % 2))).setWidth 32 := by
  induction words generalizing k with
  | nil => simp [halfWords]
  | cons word words ih =>
    have hcons : halfWords (word :: words) =
        word.setWidth 32 :: (word >>> 32).setWidth 32 :: halfWords words := rfl
    rw [hcons]
    match k with
    | 0 => rfl
    | 1 => rfl
    | k + 2 =>
      have hdiv : (k + 2) / 2 = k / 2 + 1 := by omega
      have hmod : (k + 2) % 2 = k % 2 := by omega
      rw [hdiv, hmod, List.getD_cons_succ, List.getD_cons_succ, List.getD_cons_succ]
      exact ih k

/-- Bit `bit % 32` of half word `bit / 32` is bit `bit % 64` of word `bit / 64`. -/
theorem getLsbD_halfWords (words : List Word) (bit : ℕ) :
    ((halfWords words).getD (bit / 32) 0#32).getLsbD (bit % 32) = containsBit words bit := by
  have hdiv : bit / 32 / 2 = bit / 64 := by omega
  have hmod : 32 * (bit / 32 % 2) + bit % 32 = bit % 64 := by omega
  have hlt : bit % 32 < 32 := Nat.mod_lt _ (by decide)
  rw [getD_halfWords, BitVec.getLsbD_setWidth, BitVec.getLsbD_ushiftRight, hdiv, hmod,
    decide_eq_true hlt, Bool.true_and, containsBit_eq_getLsbD (by decide)]

/-- The hash of 32 bits is the low half of the hash of 64 bits. -/
theorem hashByte_setWidth (hash : UInt64) (unit : UInt16) :
    (hashByte hash unit.toUInt64).toBitVec.setWidth 32 =
      (hash.toBitVec.setWidth 32 ^^^ unit.toBitVec.setWidth 32) * 0x1b3#32 := by
  rw [hashByte, UInt64.toBitVec_mul, UInt64.toBitVec_xor, UInt16.toBitVec_toUInt64,
    BitVec.setWidth_mul _ _ (by decide), BitVec.setWidth_xor,
    BitVec.setWidth_setWidth_of_le _ (by decide)]
  rfl

/-- What the hash loop holds in a lane after some units. -/
structure LaneHolds (state : Lanes × Lanes) (lane : Fin 8) (units : List UInt16) : Prop where
  /-- The lane holds the lower half of the hash. -/
  hash : state.1 lane = (units.foldl (fun hash unit => hashByte hash unit.toUInt64)
    0xcbf29ce484222325).toBitVec.setWidth 32
  /-- The units that were combined fit in sixteen bits. -/
  combined_lt : (state.2 lane).toNat < 2 ^ 16
  /-- The combination stays below 128 as long as every unit is ASCII. -/
  combined_lt_iff : (state.2 lane).toNat < 2 ^ 7 ↔ ∀ unit ∈ units, unit < 128

/-- Before any unit a lane holds the offset basis. -/
theorem laneHolds_nil (lane : Fin 8) :
    LaneHolds (Lanes.set1 (BitVec.ofInt 32 (-2078137563)), Lanes.set1 0#32) lane [] where
  hash := (by decide : BitVec.ofInt 32 (-2078137563) =
    (0xcbf29ce484222325 : UInt64).toBitVec.setWidth 32)
  combined_lt := (by decide : (0#32).toNat < 2 ^ 16)
  combined_lt_iff :=
    ⟨fun _ _ hunit => absurd hunit List.not_mem_nil, fun _ => (by decide : (0#32).toNat < 2 ^ 7)⟩

/-- A combination is small when both parts are. -/
theorem or_lt_two_pow_iff {a b n : ℕ} : a ||| b < 2 ^ n ↔ a < 2 ^ n ∧ b < 2 ^ n := by
  constructor
  · exact fun h => ⟨lt_of_le_of_lt Nat.left_le_or h, lt_of_le_of_lt Nat.right_le_or h⟩
  · exact fun h => Nat.or_lt_two_pow h.1 h.2

/-- One round of the hash loop, in a lane that holds `unit`. -/
theorem LaneHolds.hashLanes {state : Lanes × Lanes} {lane : Fin 8} {seen : List UInt16}
    (h : LaneHolds state lane seen) {loaded : Lanes} {unit : UInt16}
    (hunit : loaded lane = unit.toBitVec.setWidth 32) :
    LaneHolds (Rustmatch.hashLanes state loaded) lane (seen ++ [unit]) := by
  have htoNat : (unit.toBitVec.setWidth 32).toNat = unit.toNat := by
    rw [BitVec.toNat_setWidth]
    exact Nat.mod_eq_of_lt (lt_trans unit.toNat_lt (by decide))
  have hcombined : ((Rustmatch.hashLanes state loaded).2 lane).toNat =
      (state.2 lane).toNat ||| unit.toNat := by
    show (state.2 lane ||| loaded lane).toNat = _
    rw [hunit, BitVec.toNat_or, htoNat]
  refine ⟨?_, ?_, ?_⟩
  · show (state.1 lane ^^^ loaded lane) * 0x1b3#32 = _
    rw [h.hash, hunit, List.foldl_append, List.foldl_cons, List.foldl_nil, hashByte_setWidth]
  · rw [hcombined, or_lt_two_pow_iff]
    exact ⟨h.combined_lt, unit.toNat_lt⟩
  · rw [hcombined, or_lt_two_pow_iff, h.combined_lt_iff]
    simp only [List.forall_mem_append, List.forall_mem_singleton]
    rfl

/-- The hash loop over the loads. -/
theorem LaneHolds.foldl {input : List UInt16} {start : ℕ} {lane : Fin 8} (offsets : List ℕ)
    {state : Lanes × Lanes} {seen : List UInt16} (h : LaneHolds state lane seen) :
    LaneHolds ((offsets.map (loadUnits input start)).foldl Rustmatch.hashLanes state) lane
      (seen ++ offsets.map fun offset => input.getD (start + offset + lane) 0) := by
  induction offsets generalizing state seen with
  | nil =>
    rw [List.map_nil, List.map_nil, List.append_nil]
    exact h
  | cons offset offsets ih =>
    have hnext := ih (h.hashLanes (rfl : loadUnits input start offset lane = _))
    rw [List.append_assoc] at hnext
    exact hnext

/-- The units from a start on, one by one. -/
theorem getRange_eq_map_getD {input : List UInt16} {start count : ℕ}
    (h : start + count ≤ input.length) :
    getRange input start (start + count) =
      some ((List.range count).map fun offset => input.getD (start + offset) 0) := by
  unfold getRange
  rw [if_pos ⟨Nat.le_add_right _ _, h⟩, Nat.add_sub_cancel_left]
  congr 1
  apply List.ext_getElem
  · rw [List.length_take, List.length_drop, List.length_map, List.length_range]
    omega
  · intro i hi hi'
    rw [List.length_map, List.length_range] at hi'
    rw [List.getElem_take, List.getElem_drop, List.getElem_map, List.getElem_range,
      List.getD_eq_getElem _ _ (by omega)]

/-- The low twenty bits of both hashes agree. -/
theorem fiveHashIndex_eq (units : List UInt16) :
    ((units.foldl (fun hash unit => hashByte hash unit.toUInt64)
      0xcbf29ce484222325).toBitVec.setWidth 32 &&& 0xfffff#32).toNat = fiveHashIndex units := by
  generalize hhash : units.foldl (fun hash unit => hashByte hash unit.toUInt64)
    0xcbf29ce484222325 = hash
  rw [fiveHashIndex, hhash, BitVec.toNat_and, BitVec.toNat_setWidth, UInt64.toNat_and]
  show hash.toNat % 2 ^ 32 &&& (2 ^ 20 - 1) = hash.toNat &&& (2 ^ 20 - 1)
  rw [Nat.and_two_pow_sub_one_eq_mod, Nat.and_two_pow_sub_one_eq_mod]
  exact Nat.mod_mod_of_dvd _ (pow_dvd_pow 2 (by decide))

/-- The five units that a window holds. -/
def window (input : List UInt16) (start : ℕ) : List UInt16 :=
  (List.range 5).map fun offset => input.getD (start + offset) 0

/-- The scalar code looks at the five units from its start on, when they are there. -/
theorem scalarFiveAllows_eq {hashWords : List Word} {input : List UInt16} {start : ℕ}
    (hlength : input.length ≤ maxUnits) :
    scalarFiveAllows hashWords input start = (decide (start + 5 ≤ input.length) &&
      ((window input start).any (128 ≤ ·) ||
        containsBit hashWords (fiveHashIndex (window input start)))) := by
  unfold maxUnits at hlength
  unfold scalarFiveAllows
  by_cases hfits : start + 5 ≤ input.length
  · have hstop : saturatingAdd start 5 = start + 5 := by
      refine min_eq_left ?_
      unfold usizeMax
      omega
    rw [hstop, getRange_eq_map_getD hfits, decide_eq_true hfits, Bool.true_and]
    show (if (window input start).any (128 ≤ ·) then true else _) = _
    cases (window input start).any (128 ≤ ·) with
    | true => rfl
    | false => rfl
  -- the window would reach over the end of the input
  · have hstop : getRange input start (saturatingAdd start 5) = none := by
      unfold getRange
      rw [if_neg]
      rintro ⟨-, hle⟩
      unfold saturatingAdd usizeMax at hle
      omega
    rw [hstop, decide_eq_false hfits, Bool.false_and]

/-- A shifted word has its lowest bit where the word has the bit that it is shifted by. -/
theorem ushiftRight_and_one_eq_iff (word : BitVec 32) (shift : ℕ) :
    word >>> shift &&& 1#32 = 1#32 ↔ word.getLsbD shift = true := by
  rw [BitVec.and_one_eq_setWidth_ofBool_getLsbD, BitVec.getLsbD_ushiftRight, Nat.add_zero]
  cases word.getLsbD shift with
  | true => decide
  | false => decide

/-- The gathered bit is the bit of the table. -/
theorem gathered_eq_iff (hashWords : List Word) (bits : BitVec 32) :
    (halfWords hashWords).getD (bits >>> 5).toNat 0#32 >>> (bits &&& 31#32).toNat &&& 1#32 = 1#32 ↔
      containsBit hashWords bits.toNat = true := by
  have hindex : (bits >>> 5).toNat = bits.toNat / 32 := by
    rw [BitVec.toNat_ushiftRight, Nat.shiftRight_eq_div_pow]
  have hshift : (bits &&& 31#32).toNat = bits.toNat % 32 := by
    rw [BitVec.toNat_and]
    exact Nat.and_two_pow_sub_one_eq_mod _ 5
  rw [ushiftRight_and_one_eq_iff, hindex, hshift, getLsbD_halfWords]

/-- The signed comparison finds the windows with a large unit. -/
theorem slt_combined_iff {state : Lanes × Lanes} {lane : Fin 8} {units : List UInt16}
    (h : LaneHolds state lane units) :
    (127#32).slt (state.2 lane) = units.any (128 ≤ ·) := by
  have hlt := h.combined_lt
  rw [BitVec.slt_eq_decide, BitVec.toInt_eq_toNat_of_lt (by omega : 2 * (state.2 lane).toNat < _)]
  rw [Bool.eq_iff_iff, decide_eq_true_eq, List.any_eq_true]
  have hiff := h.combined_lt_iff
  constructor
  · intro hlarge
    by_contra hnone
    have hsmall : (state.2 lane).toNat < 2 ^ 7 := hiff.mpr fun unit hunit => by
      by_contra hnot
      exact hnone ⟨unit, hunit, decide_eq_true (UInt16.not_lt.mp hnot)⟩
    have : (127#32).toInt = 127 := by decide
    omega
  · rintro ⟨unit, hunit, hge⟩
    have hnot : ¬ (state.2 lane).toNat < 2 ^ 7 := fun hsmall =>
      absurd (hiff.mp hsmall unit hunit) (UInt16.not_lt.mpr (of_decide_eq_true hge))
    have : (127#32).toInt = 127 := by decide
    omega

/-- A comparison mask has its sign bit set where the comparison holds. -/
theorem msb_mask (p : Prop) [Decidable p] :
    (if p then BitVec.allOnes 32 else 0#32).msb = decide p := by
  by_cases hp : p
  · rw [if_pos hp, decide_eq_true hp]
    decide
  · rw [if_neg hp, decide_eq_false hp]
    decide

/-- The hashes and the combined units behind the hash loop of `five_lane_mask_avx2`. -/
def laneState (input : List UInt16) (start : ℕ) : Lanes × Lanes :=
  ((List.range 5).map (loadUnits input start)).foldl hashLanes
    (Lanes.set1 (BitVec.ofInt 32 (-2078137563)), Lanes.set1 0#32)

/-- A lane holds the five units from its start on. -/
theorem laneHolds_laneState (input : List UInt16) (start : ℕ) (lane : Fin 8) :
    LaneHolds (laneState input start) lane (window input (start + lane)) := by
  have hfold := @LaneHolds.foldl input start _ (List.range 5) _ _ (laneHolds_nil lane)
  rw [List.nil_append] at hfold
  have hwindow : window input (start + lane) =
      (List.range 5).map fun offset => input.getD (start + offset + lane) 0 := by
    unfold window
    simp only [Nat.add_right_comm]
  rw [hwindow]
  exact hfold

/-- The bit of a lane comes from its two comparisons. -/
theorem getLsbD_fiveLaneMask_eq (hashWords : List Word) (input : List UInt16) (start : ℕ)
    (lane : Fin 8) :
    (fiveLaneMask hashWords input start).getLsbD lane =
      (decide ((halfWords hashWords).getD
          (((laneState input start).1 lane &&& 0xfffff#32) >>> 5).toNat 0#32 >>>
            ((laneState input start).1 lane &&& 0xfffff#32 &&& 31#32).toNat &&& 1#32 = 1#32) ||
        (127#32).slt ((laneState input start).2 lane)) := by
  have hmask : (fiveLaneMask hashWords input start).getLsbD lane =
      ((if (halfWords hashWords).getD
          (((laneState input start).1 lane &&& 0xfffff#32) >>> 5).toNat 0#32 >>>
            ((laneState input start).1 lane &&& 0xfffff#32 &&& 31#32).toNat &&& 1#32 = 1#32
          then BitVec.allOnes 32 else 0#32) |||
        (if (127#32).slt ((laneState input start).2 lane) = true
          then BitVec.allOnes 32 else 0#32)).msb :=
    Lanes.getLsbD_movemask _ lane
  rw [hmask, BitVec.msb_or, msb_mask, msb_mask, Bool.decide_eq_true]

/-- The twenty bits that a lane looks up. -/
theorem toNat_laneState_and (input : List UInt16) (start : ℕ) (lane : Fin 8) :
    ((laneState input start).1 lane &&& 0xfffff#32).toNat =
      fiveHashIndex (window input (start + lane)) := by
  rw [← fiveHashIndex_eq, ← (laneHolds_laneState input start lane).hash]

/-- A lane of the kernel computes what the scalar code computes at its start. -/
theorem getLsbD_fiveLaneMask (hashWords : List Word) {input : List UInt16} {start : ℕ}
    (hlength : input.length ≤ maxUnits) (hfits : start + 12 ≤ input.length) {lane : ℕ}
    (hlane : lane < 8) :
    (fiveLaneMask hashWords input start).getLsbD lane =
      scalarFiveAllows hashWords input (start + lane) := by
  have hholds := laneHolds_laneState input start ⟨lane, hlane⟩
  have hmask := getLsbD_fiveLaneMask_eq hashWords input start ⟨lane, hlane⟩
  rw [Bool.decide_congr (gathered_eq_iff hashWords _), Bool.decide_eq_true, toNat_laneState_and,
    slt_combined_iff hholds] at hmask
  rw [scalarFiveAllows_eq hlength, decide_eq_true (by omega : start + lane + 5 ≤ input.length),
    Bool.true_and, Bool.or_comm]
  exact hmask

/-! ### Words -/

/-- The lanes below `laneStart` are written. -/
def LanesWritten (hashWords : List Word) (input : List UInt16) (start laneStart : ℕ)
    (candidates : Word) : Prop :=
  ∀ i, candidates.getLsbD i =
    (decide (i < laneStart) && scalarFiveAllows hashWords input (start + i))

section Words

variable {hashWords : List Word} {input : List UInt16} {start validStarts : ℕ}

/-- Before any lane no bit is set. -/
theorem lanesWritten_zero : LanesWritten hashWords input start 0 0#64 := by
  intro i
  rw [BitVec.getLsbD_zero, decide_eq_false (Nat.not_lt_zero i), Bool.false_and]

/-- Eight lanes are written at once. -/
theorem LanesWritten.vector {laneStart : ℕ} {candidates : Word}
    (h : LanesWritten hashWords input start laneStart candidates)
    (hlength : input.length ≤ maxUnits) (hlanes : laneStart + 8 ≤ 64)
    (hfits : start + laneStart + 12 ≤ input.length) :
    LanesWritten hashWords input start (laneStart + 8) (candidates |||
      (fiveLaneMask hashWords input (start + laneStart)).setWidth 64 <<< laneStart) := by
  intro i
  rw [BitVec.getLsbD_or, h i, BitVec.getLsbD_shiftLeft, BitVec.getLsbD_setWidth]
  by_cases hold : i < laneStart
  · have hnew : i < laneStart + 8 := by omega
    simp [hold, hnew]
  · obtain ⟨lane, rfl⟩ := Nat.exists_eq_add_of_le (not_lt.mp hold)
    rw [Nat.add_sub_cancel_left, decide_eq_false hold, Bool.false_and, Bool.false_or]
    by_cases hlane : lane < 8
    · have hin : laneStart + lane < 64 := by omega
      have hin' : lane < 64 := by omega
      have hnew : laneStart + lane < laneStart + 8 := by omega
      rw [getLsbD_fiveLaneMask hashWords hlength hfits hlane, Nat.add_assoc]
      simp [hin, hin', hnew]
    · have hout : (fiveLaneMask hashWords input (start + laneStart)).getLsbD lane = false :=
        BitVec.getLsbD_of_ge _ _ (not_lt.mp hlane)
      have hnew : ¬ laneStart + lane < laneStart + 8 := by omega
      simp [hout, hnew]

/-- One lane is written. -/
theorem LanesWritten.scalar {laneStart : ℕ} {candidates : Word}
    (h : LanesWritten hashWords input start laneStart candidates) (hlane : laneStart < 64) :
    LanesWritten hashWords input start (laneStart + 1)
      (if scalarFiveAllows hashWords input (start + laneStart) then
        candidates ||| 1#64 <<< laneStart else candidates) := by
  intro i
  by_cases hi : i = laneStart
  · subst hi
    rw [decide_eq_true (Nat.lt_succ_self i), Bool.true_and]
    cases hallows : scalarFiveAllows hashWords input (start + i) with
    | true =>
      rw [if_pos rfl, BitVec.getLsbD_or, ← BitVec.twoPow_eq, BitVec.getLsbD_twoPow]
      simp [hlane]
    | false =>
      rw [if_neg Bool.false_ne_true, h i, decide_eq_false (Nat.lt_irrefl i), Bool.false_and]
  · have hlt : i < laneStart + 1 ↔ i < laneStart := by omega
    rw [Bool.decide_congr hlt, ← h i]
    split
    · have hne : ¬ laneStart = i := fun heq => hi heq.symm
      rw [BitVec.getLsbD_or, ← BitVec.twoPow_eq, BitVec.getLsbD_twoPow, decide_eq_false hne,
        Bool.and_false, Bool.or_false]
    · rfl

/-- The loop over eight lanes at a time. -/
theorem vectorLanes_spec (hlength : input.length ≤ maxUnits) (hvalid : validStarts ≤ 64)
    (laneStart : ℕ) (candidates : Word) (hle : laneStart ≤ validStarts)
    (h : LanesWritten hashWords input start laneStart candidates) :
    (vectorLanes hashWords input start validStarts laneStart candidates).1 ≤ validStarts ∧
      LanesWritten hashWords input start
        (vectorLanes hashWords input start validStarts laneStart candidates).1
        (vectorLanes hashWords input start validStarts laneStart candidates).2 := by
  induction laneStart, candidates using
    vectorLanes.induct hashWords input start validStarts with
  | case1 laneStart candidates hmore ih =>
    rw [vectorLanes, if_pos hmore]
    exact ih hmore.1 (h.vector hlength (hmore.1.trans hvalid) hmore.2)
  | case2 laneStart candidates hdone =>
    rw [vectorLanes, if_neg hdone]
    exact ⟨hle, h⟩

/-- The loop over the lanes that are left. -/
theorem scalarLanes_spec (hvalid : validStarts ≤ 64) (laneStart : ℕ) (candidates : Word)
    (hle : laneStart ≤ validStarts)
    (h : LanesWritten hashWords input start laneStart candidates) :
    LanesWritten hashWords input start validStarts
      (scalarLanes hashWords input start validStarts laneStart candidates) := by
  induction laneStart, candidates using
    scalarLanes.induct hashWords input start validStarts with
  | case1 laneStart candidates hmore ih =>
    rw [scalarLanes, if_pos hmore]
    exact ih hmore (h.scalar (lt_of_lt_of_le hmore hvalid))
  | case2 laneStart candidates hdone =>
    rw [scalarLanes, if_neg hdone]
    have heq : laneStart = validStarts := by omega
    exact heq ▸ h

/-- Both loops together. -/
theorem lanesWritten_laneWord (hlength : input.length ≤ maxUnits) (hvalid : validStarts ≤ 64) :
    LanesWritten hashWords input start validStarts
      (laneWord hashWords input start validStarts) := by
  obtain ⟨hle, hwritten⟩ := vectorLanes_spec hlength hvalid 0 0#64 (Nat.zero_le _)
    lanesWritten_zero
  exact scalarLanes_spec hvalid _ _ hle hwritten

end Words

/-- The kernel writes as many words as it is given. -/
@[simp]
theorem length_scanFiveHashWordsAvx2 (input : List UInt16) (hashWords : List Word)
    (firstStart : ℕ) (outputWords : List Word) :
    (scanFiveHashWordsAvx2 input hashWords firstStart outputWords).1.length =
      outputWords.length := by
  rw [scanFiveHashWordsAvx2, List.length_map, List.length_range]

/-- The kernel counts the bits that it writes. -/
theorem count_scanFiveHashWordsAvx2 {input : List UInt16} {hashWords : List Word}
    {firstStart : ℕ} {outputWords : List Word} (hcount : outputWords.length * 64 ≤ usizeMax) :
    (scanFiveHashWordsAvx2 input hashWords firstStart outputWords).2 =
      popCount (scanFiveHashWordsAvx2 input hashWords firstStart outputWords).1 := by
  have hle := popCount_le (by decide : 0 < 64)
    (scanFiveHashWordsAvx2 input hashWords firstStart outputWords).1
  rw [length_scanFiveHashWordsAvx2] at hle
  -- the kernel adds up the population counts of its words
  have hsum := foldl_saturatingAdd
    ((scanFiveHashWordsAvx2 input hashWords firstStart outputWords).1.map
      fun word => word.cpop.toNat) (Nat.zero_le usizeMax)
  rw [List.foldl_map, Nat.zero_add] at hsum
  exact hsum.trans (min_eq_left (hle.trans hcount))

/-- The kernel writes the bits of the starts that the scalar code allows, whatever the words held
before. -/
theorem containsBit_scanFiveHashWordsAvx2 {input : List UInt16} (hashWords : List Word)
    (firstStart : ℕ) (outputWords : List Word) (hlength : input.length ≤ maxUnits) (bit : ℕ) :
    containsBit (scanFiveHashWordsAvx2 input hashWords firstStart outputWords).1 bit =
      (decide (bit < outputWords.length * 64) &&
        scalarFiveAllows hashWords input (firstStart + bit)) := by
  have hwords : (scanFiveHashWordsAvx2 input hashWords firstStart outputWords).1 =
      (List.range outputWords.length).map fun wordOffset =>
        laneWord hashWords input (firstStart + wordOffset * 64)
          (min (min (saturatingAdd firstStart (saturatingMul outputWords.length 64)) input.length -
            (firstStart + wordOffset * 64)) 64) := rfl
  rw [containsBit_eq_getLsbD (by decide), List.getD_eq_getElem?_getD, hwords, List.getElem?_map]
  by_cases hbit : bit < outputWords.length * 64
  · have hword : bit / 64 < outputWords.length := (Nat.div_lt_iff_lt_mul (by decide)).mpr hbit
    have hstart : firstStart + bit / 64 * 64 + bit % 64 = firstStart + bit := by omega
    rw [List.getElem?_range hword, Option.map_some, Option.getD_some,
      lanesWritten_laneWord hlength (Nat.min_le_right _ _), hstart, decide_eq_true hbit,
      Bool.true_and]
    -- starts past the end are not allowed
    rw [Bool.and_eq_right_iff_imp, scalarFiveAllows_eq hlength, Bool.and_eq_true, decide_eq_true_eq,
      decide_eq_true_eq]
    rintro ⟨hfits, -⟩
    unfold maxUnits at hlength
    unfold saturatingAdd saturatingMul usizeMax
    omega
  · have hword : outputWords.length ≤ bit / 64 :=
      (Nat.le_div_iff_mul_le (by decide)).mpr (not_lt.mp hbit)
    rw [List.getElem?_eq_none (by rw [List.length_range]; exact hword), Option.map_none,
      Option.getD_none, BitVec.getLsbD_zero, decide_eq_false hbit, Bool.false_and]

end Rustmatch

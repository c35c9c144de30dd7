import Rustmatch.Cache.Transitions
import Rustmatch.Prefilter

/-!
# The start table rules out no match

The table is filled by running the graph on one and on two symbols. A start whose first symbol, or
whose first pair of symbols, leads nowhere has no accepted end, so skipping it loses nothing.

## Main results

* `addFirst_spec`: what one round of the loop over the first symbols sets;
* `allows_of_ends`: a start with an accepted end is allowed.
-/

open Relation MarkedSearch WordBits

namespace Rustmatch

/-! ### Sets of bits only grow -/

/-- The words keep their number and their bits. -/
def KeepsBits (words words' : List Word) : Prop :=
  words'.length = words.length ∧ ∀ bit, containsBit words bit = true → containsBit words' bit = true

/-- Words keep their own bits. -/
theorem KeepsBits.refl (words : List Word) : KeepsBits words words := ⟨rfl, fun _ h => h⟩

/-- Bits are kept step by step. -/
theorem KeepsBits.trans {words words' words'' : List Word} (h : KeepsBits words words')
    (h' : KeepsBits words' words'') : KeepsBits words words'' :=
  ⟨h'.1.trans h.1, fun bit hbit => h'.2 bit (h.2 bit hbit)⟩

/-- Setting a bit keeps the others. -/
theorem keepsBits_setBit {words : List Word} {bit : ℕ} (hbit : bit / 64 < words.length) :
    KeepsBits words (setBit words bit) ∧ containsBit (setBit words bit) bit = true := by
  have hset := fun other => containsBit_setBit (by decide : 0 < 64) hbit other
  refine ⟨⟨length_setBit _ _, fun other hother => ?_⟩, ?_⟩
  · rw [hset, hother, Bool.or_true]
  · rw [hset, decide_eq_true rfl, Bool.true_or]

section StartTable

variable {database : PatternDatabase}

/-! ### Closures -/

/-- The stamps of a closure scratch are in order. -/
def ClosureScratch.Stamped (database : PatternDatabase) (scratch : ClosureScratch) : Prop :=
  Stamps database.stateCount scratch.seen scratch.generation

/-- A new scratch has no marks. -/
theorem ClosureScratch.stamped_new (database : PatternDatabase) :
    (ClosureScratch.new database.stateCount).Stamped database :=
  stamps_replicate database.stateCount

/-- A closure lists what the stack reaches. -/
theorem ClosureScratch.closeStack_spec (hwf : database.WellFormed) {scratch : ClosureScratch}
    (h : scratch.Stamped database) {stack : List StateId}
    (hstack : ∀ s ∈ stack, s < database.stateCount) :
    (scratch.closeStack database stack).2.Stamped database ∧
      ∀ s, s ∈ (scratch.closeStack database stack).1 ↔
        ∃ t ∈ stack, Reach database.epsilonTargets t s := by
  refine ⟨h.next.1.drain _ _, fun s => List.mem_mergeSort.trans ?_⟩
  exact mem_drain (fun u _ v hv => epsilonTargets_lt hwf v hv) h.next.1.length_eq
    (fun u hu => h.marked_next hu) hstack s

/-- A transition lists the successors. -/
theorem ClosureScratch.transitionInto_spec (hwf : database.WellFormed) {scratch : ClosureScratch}
    (h : scratch.Stamped database) (source : List StateId) (symbol : UInt16) :
    (scratch.transitionInto database source symbol).2.Stamped database ∧
      ∀ s, s ∈ (scratch.transitionInto database source symbol).1 ↔
        s ∈ database.Successors source symbol := by
  have hstack : ∀ s ∈ (database.matchingTargets source symbol).reverse,
      s < database.stateCount := fun s hs => matchingTargets_lt hwf s (List.mem_reverse.mp hs)
  obtain ⟨hstamped, hmem⟩ := closeStack_spec hwf h hstack
  refine ⟨hstamped, fun s => (hmem s).trans ?_⟩
  simp [PatternDatabase.Successors]

/-! ### Filling the table -/

/-- The second symbols that the table must allow after the states of a first symbol. -/
def Continues (database : PatternDatabase) (firstStates : List StateId) (second : ℕ) : Prop :=
  (∃ s ∈ firstStates, database.terminalsAt s ≠ []) ∨
    (database.Successors firstStates (UInt16.ofNat second)).Nonempty

/-- The loop over the second symbols. -/
theorem foldl_addSecond_spec (hwf : database.WellFormed) {first : ℕ} (hfirst : first < 128)
    (firstStates : List StateId) {seconds : List ℕ} (hseconds : ∀ second ∈ seconds, second < 128)
    {built : ClosureScratch × List Word} (hstamped : built.1.Stamped database)
    (hlength : built.2.length = 256) :
    let result := seconds.foldl (StartTable.addSecond database first firstStates
      (firstStates.any fun state => !(database.terminalsAt state).isEmpty)) built
    result.1.Stamped database ∧ KeepsBits built.2 result.2 ∧
      ∀ second ∈ seconds, Continues database firstStates second →
        containsBit result.2 (first * 128 + second) = true := by
  induction seconds generalizing built with
  | nil => exact ⟨hstamped, KeepsBits.refl _, by simp⟩
  | cons second seconds ih =>
    obtain ⟨hsecond, hrest⟩ := List.forall_mem_cons.mp hseconds
    set accepts := firstStates.any fun state => !(database.terminalsAt state).isEmpty with haccepts
    set next := StartTable.addSecond database first firstStates accepts built second with hnext
    have hpair : (first * 128 + second) / 64 < built.2.length := by omega
    obtain ⟨hkeeps, hset⟩ := keepsBits_setBit hpair
    -- what one round does
    have hround : next.1.Stamped database ∧ KeepsBits built.2 next.2 ∧
        (Continues database firstStates second →
          containsBit next.2 (first * 128 + second) = true) := by
      rw [hnext]
      unfold StartTable.addSecond
      by_cases hany : accepts = true
      · rw [if_pos hany]
        exact ⟨hstamped, hkeeps, fun _ => hset⟩
      · rw [if_neg hany]
        obtain ⟨hstamped', hmem⟩ := ClosureScratch.transitionInto_spec hwf hstamped firstStates
          (UInt16.ofNat second)
        refine ⟨hstamped', ?_, fun hcontinues => ?_⟩
        · show KeepsBits built.2 (if _ then _ else _)
          split
          · exact KeepsBits.refl _
          · exact hkeeps
        · have hne : (built.1.transitionInto database firstStates
              (UInt16.ofNat second)).1.isEmpty = false := by
            rcases hcontinues with ⟨s, hs, hterminals⟩ | ⟨s, hs⟩
            · refine absurd (List.any_eq_true.mpr ⟨s, hs, ?_⟩) hany
              rw [Bool.not_eq_true', ← Bool.not_eq_true, List.isEmpty_iff]
              exact hterminals
            · rw [← Bool.not_eq_true, List.isEmpty_iff]
              exact List.ne_nil_of_mem ((hmem s).mpr hs)
          show containsBit (if _ then _ else _) _ = true
          rw [if_neg (by rw [hne]; exact Bool.false_ne_true)]
          exact hset
    obtain ⟨hstamped', hkeeps', hbit⟩ := hround
    obtain ⟨hdone, hkept, hbits⟩ := ih hrest hstamped' (hkeeps'.1.trans hlength)
    refine ⟨hdone, hkeeps'.trans hkept, List.forall_mem_cons.mpr ⟨fun hcontinues => ?_, hbits⟩⟩
    exact hkept.2 _ (hbit hcontinues)

/-- What the table knows about a first symbol. -/
def StartTable.Knows (database : PatternDatabase) (root : List StateId) (table : StartTable)
    (first : ℕ) : Prop :=
  ∀ firstStates : List StateId,
    (∀ s, s ∈ firstStates ↔ s ∈ database.Successors root (UInt16.ofNat first)) →
    firstStates ≠ [] →
    containsBit table.firstAscii first = true ∧
      ∀ second < 128, Continues database firstStates second →
        containsBit table.pairAscii (first * 128 + second) = true

/-- Which second symbols continue depends on the set of states only. -/
theorem Continues.congr {states states' : List StateId} (h : ∀ s, s ∈ states ↔ s ∈ states')
    {second : ℕ} (hcontinues : Continues database states second) :
    Continues database states' second := by
  rcases hcontinues with ⟨s, hs, hterminals⟩ | ⟨s, t, ht, hreach⟩
  · exact Or.inl ⟨s, (h s).mp hs, hterminals⟩
  · obtain ⟨u, hu, hut⟩ := List.mem_flatMap.mp ht
    exact Or.inr ⟨s, t, List.mem_flatMap.mpr ⟨u, (h u).mp hu, hut⟩, hreach⟩

/-- One round of the loop over the first symbols. -/
theorem addFirst_spec (hwf : database.WellFormed) (root : List StateId) {first : ℕ}
    (hfirst : first < 128) {built : ClosureScratch × StartTable}
    (hstamped : built.1.Stamped database) (hfirstLength : built.2.firstAscii.length = 2)
    (hpairLength : built.2.pairAscii.length = 256) :
    (StartTable.addFirst database root built first).1.Stamped database ∧
      KeepsBits built.2.firstAscii (StartTable.addFirst database root built first).2.firstAscii ∧
      KeepsBits built.2.pairAscii (StartTable.addFirst database root built first).2.pairAscii ∧
      (StartTable.addFirst database root built first).2.Knows database root first := by
  obtain ⟨hstamped', hmem⟩ := ClosureScratch.transitionInto_spec hwf hstamped root
    (UInt16.ofNat first)
  set moved := built.1.transitionInto database root (UInt16.ofNat first) with hmoved
  by_cases hempty : moved.1.isEmpty = true
  · -- no state is reached: nothing is set, and nothing has to be
    have hround : StartTable.addFirst database root built first = (moved.2, built.2) :=
      if_pos hempty
    rw [hround]
    refine ⟨hstamped', KeepsBits.refl _, KeepsBits.refl _, fun firstStates hiff hne => ?_⟩
    obtain ⟨s, hs⟩ := List.exists_mem_of_ne_nil _ hne
    have hs := (hmem s).mpr ((hiff s).mp hs)
    rw [List.isEmpty_iff.mp hempty] at hs
    exact absurd hs List.not_mem_nil
  · set pairs := (List.range 128).foldl (StartTable.addSecond database first moved.1
      (moved.1.any fun state => !(database.terminalsAt state).isEmpty))
      (moved.2, built.2.pairAscii) with hpairs
    have hround : StartTable.addFirst database root built first =
        (pairs.1, ⟨setBit built.2.firstAscii first, pairs.2⟩) := if_neg hempty
    -- the first symbol is set, and then the pairs that lead on or end there
    obtain ⟨hdone, hkept, hbits⟩ := @foldl_addSecond_spec database hwf first hfirst moved.1
      (List.range 128) (fun second hsecond => List.mem_range.mp hsecond)
      (moved.2, built.2.pairAscii) hstamped' hpairLength
    obtain ⟨hkeeps, hset⟩ := keepsBits_setBit (by omega : first / 64 < built.2.firstAscii.length)
    rw [hround]
    refine ⟨hdone, hkeeps, hkept, fun firstStates hiff _ => ⟨hset, fun second hsecond h => ?_⟩⟩
    exact hbits second (List.mem_range.mpr hsecond)
      (h.congr fun s => (hiff s).trans (hmem s).symm)

/-- The loop over the first symbols. -/
theorem foldl_addFirst_spec (hwf : database.WellFormed) (root : List StateId) {firsts : List ℕ}
    (hfirsts : ∀ first ∈ firsts, first < 128) {built : ClosureScratch × StartTable}
    (hstamped : built.1.Stamped database) (hfirstLength : built.2.firstAscii.length = 2)
    (hpairLength : built.2.pairAscii.length = 256) :
    KeepsBits built.2.firstAscii
        (firsts.foldl (StartTable.addFirst database root) built).2.firstAscii ∧
      KeepsBits built.2.pairAscii
        (firsts.foldl (StartTable.addFirst database root) built).2.pairAscii ∧
      ∀ first ∈ firsts,
        (firsts.foldl (StartTable.addFirst database root) built).2.Knows database root first := by
  induction firsts generalizing built with
  | nil => exact ⟨KeepsBits.refl _, KeepsBits.refl _, by simp⟩
  | cons first firsts ih =>
    obtain ⟨hfirst, hrest⟩ := List.forall_mem_cons.mp hfirsts
    obtain ⟨hstamped', hkeepsFirst, hkeepsPair, hknows⟩ :=
      addFirst_spec hwf root hfirst hstamped hfirstLength hpairLength
    obtain ⟨hkeptFirst, hkeptPair, hall⟩ := ih hrest hstamped'
      (hkeepsFirst.1.trans hfirstLength) (hkeepsPair.1.trans hpairLength)
    refine ⟨hkeepsFirst.trans hkeptFirst, hkeepsPair.trans hkeptPair,
      List.forall_mem_cons.mpr ⟨fun firstStates hiff hne => ?_, hall⟩⟩
    obtain ⟨hbit, hbits⟩ := hknows firstStates hiff hne
    exact ⟨hkeptFirst.2 _ hbit, fun second hsecond hcontinues =>
      hkeptPair.2 _ (hbits second hsecond hcontinues)⟩

/-- A compiled table knows every first symbol, from the closure of the root. -/
theorem knows_of_compile (hwf : database.WellFormed) {table : StartTable}
    (hcompile : StartTable.compile database = some table) : ∃ root : List StateId,
    (∀ s, s ∈ root ↔ Reach database.epsilonTargets database.root s) ∧
      ∀ first < 128, table.Knows database root first := by
  unfold StartTable.compile at hcompile
  split at hcompile
  next => cases hcompile
  next =>
    obtain rfl := Option.some.inj hcompile
    have hseeds : ∀ s ∈ [database.root].reverse, s < database.stateCount := by
      simpa using hwf.root_lt
    obtain ⟨hstamped, hmem⟩ := ClosureScratch.closeStack_spec hwf
      (ClosureScratch.stamped_new database) hseeds
    set closed := (ClosureScratch.new database.stateCount).closeStack database
      [database.root].reverse with hclosed
    obtain ⟨-, -, hall⟩ := @foldl_addFirst_spec database hwf closed.1 (List.range 128)
      (fun first hfirst => List.mem_range.mp hfirst)
      (closed.2, ⟨List.replicate 2 0#64, List.replicate 256 0#64⟩) hstamped List.length_replicate
      List.length_replicate
    exact ⟨closed.1, fun s => (hmem s).trans (by simp),
      fun first hfirst => hall first (List.mem_range.mpr hfirst)⟩

/-- An accepted end needs states on the way to it. -/
theorem frontier_nonempty_of_ends {input : List UInt16} {start ordinal stop p : ℕ}
    (h : stop ∈ database.ends (Reading.contextFree input) database.root ordinal start)
    (hp : start ≤ p) (hstop : p ≤ stop) : (database.Frontier (Reading.contextFree input)
      database.root start (p, decide (start < p))).Nonempty := by
  by_contra hempty
  have hnone : ∀ s, s ∉ database.Frontier (Reading.contextFree input) database.root start
      (p, decide (start < p)) := fun s hs => hempty ⟨s, hs⟩
  have hends := endsUpTo_eq_ends_of_empty follows_epsilonTargets hnone hp ordinal
  rw [← hends] at h
  obtain rfl : stop = p := le_antisymm h.2 hstop
  obtain ⟨hlt, s, hs, -⟩ := mem_ends_iff.mp h.1
  refine hnone s ?_
  rw [decide_eq_true hlt]
  exact hs

/-- A start with an accepted end is allowed. -/
theorem StartTable.allows_of_ends (hwf : database.WellFormed) {table : StartTable}
    (hcompile : StartTable.compile database = some table) {input : List UInt16}
    {start ordinal stop : ℕ}
    (h : stop ∈ database.ends (Reading.contextFree input) database.root ordinal start) :
    table.allows input start = true := by
  obtain ⟨root, hroot, hknows⟩ := knows_of_compile hwf hcompile
  obtain ⟨hlt, hle⟩ := ends_bounded h
  have hinput : start < input.length := by
    have hle : stop ≤ input.length := hle
    omega
  have hfirst : input[start]? = some input[start] := List.getElem?_eq_getElem hinput
  have hphase : decide (start < start + 1) = true := decide_eq_true (Nat.lt_succ_self start)
  have hrootFrontier : ∀ s, s ∈ root ↔ s ∈ database.Frontier (Reading.contextFree input)
      database.root start (start, decide (start < start)) := fun s => by
    rw [hroot, decide_eq_false (lt_irrefl start), mem_frontier_start follows_epsilonTargets]
  have hsuccessors := successors_eq_frontier hfirst hrootFrontier
  unfold StartTable.allows
  have hgetD : input.getD start 0 = input[start] := List.getD_eq_getElem _ _ hinput
  rw [hgetD]
  by_cases hascii : 128 ≤ input[start]
  · exact if_pos hascii
  · have hlt128 : input[start].toNat < 128 := by
      have := UInt16.not_le.mp hascii
      exact UInt16.lt_iff_toNat_lt.mp this
    obtain ⟨firstStates, hfirstStates⟩ : ∃ firstStates : List StateId, ∀ s, s ∈ firstStates ↔
        s ∈ database.Frontier (Reading.contextFree input) database.root start (start + 1, true) :=
      ⟨_, fun s => hsuccessors ▸ (ClosureScratch.transitionInto_spec hwf
        (ClosureScratch.stamped_new database) root input[start]).2 s⟩
    -- the match goes through a state reached by the first symbol
    have hne : firstStates ≠ [] := by
      obtain ⟨s, hs⟩ := frontier_nonempty_of_ends h (Nat.le_succ start) hlt
      rw [hphase] at hs
      exact List.ne_nil_of_mem ((hfirstStates s).mpr hs)
    obtain ⟨hbit, hbits⟩ := hknows input[start].toNat hlt128 firstStates
      (fun s => by rw [UInt16.ofNat_toNat, hsuccessors]; exact hfirstStates s) hne
    rw [if_neg hascii, hbit, Bool.not_true, if_neg Bool.false_ne_true]
    cases hsecond : input[start + 1]? with
    | none => rfl
    | some second =>
      show (if 128 ≤ second then true else _) = true
      by_cases hascii' : 128 ≤ second
      · exact if_pos hascii'
      · rw [if_neg hascii']
        refine hbits second.toNat (UInt16.lt_iff_toNat_lt.mp (UInt16.not_le.mp hascii')) ?_
        by_cases hstop : stop = start + 1
        · -- the match ends after the first symbol
          obtain ⟨-, s, hs, hreported⟩ := mem_ends_iff.mp h
          rw [hstop] at hs
          exact Or.inl ⟨s, (hfirstStates s).mpr hs, List.ne_nil_of_mem hreported⟩
        · -- the match goes on with the second symbol
          have hnext : database.Successors firstStates second =
              database.Frontier (Reading.contextFree input) database.root start
                (start + 1 + 1, true) :=
            successors_eq_frontier hsecond fun s => by rw [hphase]; exact hfirstStates s
          refine Or.inr ?_
          rw [UInt16.ofNat_toNat, hnext]
          have hnonempty := frontier_nonempty_of_ends h
            (show start ≤ start + 1 + 1 by omega) (by omega)
          rw [decide_eq_true (by omega : start < start + 1 + 1)] at hnonempty
          exact hnonempty

end StartTable

end Rustmatch

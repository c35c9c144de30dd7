import Rustmatch.Prefilter.StartTable

/-!
# The start table is a simulation of two symbols

The bits of a start table are those of the symbols, and of the pairs of symbols, that lead from the
root to some state. The table therefore allows exactly the starts that running the graph on their
first two symbols does not rule out; it is no coarser than that.

## Main definitions

* `PatternDatabase.MayStart`: the start is not ruled out by its first two symbols.

## Main results

* `start_tables_are_exact`: a compiled table allows these starts and no others.
-/

open Relation MarkedSearch WordBits

namespace Rustmatch

section StartSimulation

variable {database : PatternDatabase}

/-! ### The bits of a table -/

/-- A list of the states that a first symbol leads to, if there are any. -/
def Leads (database : PatternDatabase) (root : List StateId) (first : ℕ)
    (firstStates : List StateId) : Prop :=
  firstStates ≠ [] ∧
    ∀ s, s ∈ firstStates ↔ s ∈ database.Successors root (UInt16.ofNat first)

/-- One round of the loop over the second symbols sets the bit of a pair that continues. -/
theorem addSecond_exact (hwf : database.WellFormed) {first second : ℕ} (hfirst : first < 128)
    (hsecond : second < 128) (firstStates : List StateId)
    {built : ClosureScratch × List Word}
    (hbuilt : built.1.Stamped database ∧ built.2.length = 256) :
    let result := StartTable.addSecond database first firstStates
      (firstStates.any fun state => !(database.terminalsAt state).isEmpty) built second
    (result.1.Stamped database ∧ result.2.length = 256) ∧
      ∀ bit, containsBit result.2 bit = true ↔ containsBit built.2 bit = true ∨
        bit = first * 128 + second ∧ Continues database firstStates second := by
  obtain ⟨hstamped, hlength⟩ := hbuilt
  have hpair : (first * 128 + second) / 64 < built.2.length := by omega
  have hset : ∀ bit, containsBit (setBit built.2 (first * 128 + second)) bit = true ↔
      containsBit built.2 bit = true ∨ bit = first * 128 + second := by
    intro bit
    rw [containsBit_setBit (by decide) hpair, Bool.or_eq_true, decide_eq_true_eq, or_comm]
  have hterminals : (firstStates.any fun state => !(database.terminalsAt state).isEmpty) = true ↔
      ∃ s ∈ firstStates, database.terminalsAt s ≠ [] := by
    simp [List.any_eq_true]
  obtain ⟨hstamped', hmem⟩ := ClosureScratch.transitionInto_spec hwf hstamped firstStates
    (UInt16.ofNat second)
  have hempty : (built.1.transitionInto database firstStates
      (UInt16.ofNat second)).1.isEmpty = true ↔
      ¬ (database.Successors firstStates (UInt16.ofNat second)).Nonempty := by
    rw [List.isEmpty_iff, List.eq_nil_iff_forall_not_mem, Set.not_nonempty_iff_eq_empty,
      Set.eq_empty_iff_forall_notMem]
    exact forall_congr' fun s => not_congr (hmem s)
  unfold StartTable.addSecond
  simp only
  by_cases haccepts : (firstStates.any fun state => !(database.terminalsAt state).isEmpty) = true
  · -- a match ends after the first symbol, so every second symbol is allowed
    have hcontinues : Continues database firstStates second := Or.inl (hterminals.mp haccepts)
    rw [if_pos haccepts]
    refine ⟨⟨hstamped, (length_setBit _ _).trans hlength⟩, fun bit => ?_⟩
    rw [hset, and_iff_left hcontinues]
  · rw [if_neg haccepts]
    have hcontinues : Continues database firstStates second ↔
        (database.Successors firstStates (UInt16.ofNat second)).Nonempty :=
      or_iff_right (haccepts ∘ hterminals.mpr)
    by_cases hnone : (built.1.transitionInto database firstStates
        (UInt16.ofNat second)).1.isEmpty = true
    · rw [if_pos hnone]
      refine ⟨⟨hstamped', hlength⟩, fun bit => ?_⟩
      simp [hcontinues, hempty.mp hnone]
    · rw [if_neg hnone]
      refine ⟨⟨hstamped', (length_setBit _ _).trans hlength⟩, fun bit => ?_⟩
      rw [hset, and_iff_left (hcontinues.mpr (not_not.mp (hnone ∘ hempty.mpr)))]

/-- What the loops keep of a table that is being built. -/
def Building (database : PatternDatabase) (built : ClosureScratch × StartTable) : Prop :=
  built.1.Stamped database ∧ built.2.firstAscii.length = 2 ∧ built.2.pairAscii.length = 256

/-- The bits that the round of a first symbol sets. -/
structure FirstRound (database : PatternDatabase) (root : List StateId) (first : ℕ)
    (before after : StartTable) : Prop where
  /-- The bit of the first symbol is set when it leads somewhere. -/
  first_iff : ∀ bit, containsBit after.firstAscii bit = true ↔
    containsBit before.firstAscii bit = true ∨
      bit = first ∧ ∃ firstStates, Leads database root first firstStates
  /-- The bit of a pair is set when the second symbol goes on from there. -/
  pair_iff : ∀ bit, containsBit after.pairAscii bit = true ↔
    containsBit before.pairAscii bit = true ∨ ∃ second < 128, bit = first * 128 + second ∧
      ∃ firstStates, Leads database root first firstStates ∧
        Continues database firstStates second

/-- One round of the loop over the first symbols. -/
theorem addFirst_exact (hwf : database.WellFormed) (root : List StateId) {first : ℕ}
    (hfirst : first < 128) {built : ClosureScratch × StartTable}
    (hbuilt : Building database built) :
    Building database (StartTable.addFirst database root built first) ∧
      FirstRound database root first built.2
        (StartTable.addFirst database root built first).2 := by
  obtain ⟨hstamped, hfirstLength, hpairLength⟩ := hbuilt
  obtain ⟨hstamped', hmem⟩ := ClosureScratch.transitionInto_spec hwf hstamped root
    (UInt16.ofNat first)
  set moved := built.1.transitionInto database root (UInt16.ofNat first) with hmoved
  by_cases hempty : moved.1.isEmpty = true
  · -- the symbol leads nowhere
    have hround : StartTable.addFirst database root built first = (moved.2, built.2) :=
      if_pos hempty
    have hnone : ∀ firstStates, ¬ Leads database root first firstStates := by
      rintro firstStates ⟨hne, hiff⟩
      obtain ⟨s, hs⟩ := List.exists_mem_of_ne_nil _ hne
      have hs := (hmem s).mpr ((hiff s).mp hs)
      rw [List.isEmpty_iff.mp hempty] at hs
      exact absurd hs List.not_mem_nil
    rw [hround]
    exact ⟨⟨hstamped', hfirstLength, hpairLength⟩, ⟨fun bit => by simp [hnone],
      fun bit => by simp [hnone]⟩⟩
  · have hleads : Leads database root first moved.1 :=
      ⟨fun hnil => hempty (List.isEmpty_iff.mpr hnil), hmem⟩
    set pairs := (List.range 128).foldl (StartTable.addSecond database first moved.1
      (moved.1.any fun state => !(database.terminalsAt state).isEmpty))
      (moved.2, built.2.pairAscii) with hpairs
    have hround : StartTable.addFirst database root built first =
        (pairs.1, ⟨setBit built.2.firstAscii first, pairs.2⟩) := if_neg hempty
    obtain ⟨⟨hdone, hlength⟩, hbits⟩ := @containsBit_foldl 64 _ _
      (StartTable.addSecond database first moved.1
        (moved.1.any fun state => !(database.terminalsAt state).isEmpty)) Prod.snd
      (fun built => built.1.Stamped database ∧ built.2.length = 256)
      (fun second bit => bit = first * 128 + second ∧ Continues database moved.1 second)
      (List.range 128)
      (fun second hsecond _ hbuilt =>
        addSecond_exact hwf hfirst (List.mem_range.mp hsecond) moved.1 hbuilt)
      (moved.2, built.2.pairAscii) ⟨hstamped', hpairLength⟩
    rw [hround]
    refine ⟨⟨hdone, (length_setBit _ _).trans hfirstLength, hlength⟩, ⟨fun bit => ?_,
      fun bit => ?_⟩⟩
    · rw [containsBit_setBit (by decide) (by omega : first / 64 < built.2.firstAscii.length),
        Bool.or_eq_true, decide_eq_true_eq, or_comm, and_iff_left ⟨_, hleads⟩]
    · refine (hbits bit).trans (or_congr_right ?_)
      constructor
      · rintro ⟨second, hsecond, hbit, hcontinues⟩
        exact ⟨second, List.mem_range.mp hsecond, hbit, _, hleads, hcontinues⟩
      · rintro ⟨second, hsecond, hbit, firstStates, ⟨-, hiff⟩, hcontinues⟩
        exact ⟨second, List.mem_range.mpr hsecond, hbit,
          hcontinues.congr fun s => (hiff s).trans (hmem s).symm⟩

/-- The bits of a compiled table. -/
theorem compile_exact (hwf : database.WellFormed) {table : StartTable}
    (hcompile : StartTable.compile database = some table) : ∃ root : List StateId,
    (∀ s, s ∈ root ↔ Reach database.epsilonTargets database.root s) ∧
      (∀ first < 128, containsBit table.firstAscii first = true ↔
        ∃ firstStates, Leads database root first firstStates) ∧
      ∀ first < 128, ∀ second < 128, containsBit table.pairAscii (first * 128 + second) = true ↔
        ∃ firstStates, Leads database root first firstStates ∧
          Continues database firstStates second := by
  unfold StartTable.compile at hcompile
  split at hcompile
  next => cases hcompile
  next =>
    obtain rfl := Option.some.inj hcompile
    have hseeds : ∀ s ∈ [database.root].reverse, s < database.stateCount := by
      simpa using hwf.root_lt
    obtain ⟨hstamped, hmem⟩ := ClosureScratch.closeStack_spec hwf
      (ClosureScratch.stamped_new database) hseeds
    set closed := (ClosureScratch.new database.stateCount).closeStack database
      [database.root].reverse with hclosed
    have hbuilding : Building database
        (closed.2, ⟨List.replicate 2 0#64, List.replicate 256 0#64⟩) :=
      ⟨hstamped, List.length_replicate, List.length_replicate⟩
    have hround := fun first hfirst built hbuilt =>
      @addFirst_exact database hwf closed.1 first (List.mem_range.mp hfirst) built hbuilt
    have hfirsts := (@containsBit_foldl 64 _ _ (StartTable.addFirst database closed.1)
      (fun built => built.2.firstAscii) (Building database)
      (fun first bit => bit = first ∧ ∃ firstStates, Leads database closed.1 first firstStates)
      (List.range 128) (fun first hfirst built hbuilt => ⟨(hround first hfirst built hbuilt).1,
        (hround first hfirst built hbuilt).2.first_iff⟩) _ hbuilding).2
    have hpairs := (@containsBit_foldl 64 _ _ (StartTable.addFirst database closed.1)
      (fun built => built.2.pairAscii) (Building database)
      (fun first bit => ∃ second < 128, bit = first * 128 + second ∧
        ∃ firstStates, Leads database closed.1 first firstStates ∧
          Continues database firstStates second)
      (List.range 128) (fun first hfirst built hbuilt => ⟨(hround first hfirst built hbuilt).1,
        (hround first hfirst built hbuilt).2.pair_iff⟩) _ hbuilding).2
    refine ⟨closed.1, fun s => (hmem s).trans (by simp), fun first hfirst => ?_,
      fun first hfirst second hsecond => ?_⟩
    · refine (hfirsts first).trans ?_
      simp only [containsBit_replicate (by decide : 0 < 64), Bool.false_eq_true, false_or]
      constructor
      · rintro ⟨_, -, rfl, hleads⟩
        exact hleads
      · exact fun hleads => ⟨first, List.mem_range.mpr hfirst, rfl, hleads⟩
    · refine (hpairs (first * 128 + second)).trans ?_
      simp only [containsBit_replicate (by decide : 0 < 64), Bool.false_eq_true, false_or]
      constructor
      · -- a pair has one bit
        rintro ⟨first', -, second', hsecond', hbit, hcontinues⟩
        obtain rfl : first' = first := by omega
        obtain rfl : second' = second := by omega
        exact hcontinues
      · exact fun hcontinues =>
          ⟨first, List.mem_range.mpr hfirst, second, hsecond, rfl, hcontinues⟩

/-! ### Starts -/

/-- The first two symbols from a start on do not rule out a match there. Symbols that are not ASCII
rule out nothing, and neither does the end of the input. -/
def PatternDatabase.MayStart (database : PatternDatabase) (input : List UInt16) (start : ℕ) :
    Prop :=
  ∃ first, input[start]? = some first ∧ (128 ≤ first ∨
    (database.Frontier (Reading.contextFree input) database.root start (start + 1, true)).Nonempty ∧
    ∀ second, input[start + 1]? = some second → 128 ≤ second ∨
      (∃ ordinal, start + 1 ∈
        database.ends (Reading.contextFree input) database.root ordinal start) ∨
      (database.Frontier (Reading.contextFree input) database.root start
        (start + 1 + 1, true)).Nonempty)

/-- The states after the first symbol are those of the frontier. -/
theorem leads_iff_frontier (hwf : database.WellFormed) {input : List UInt16} {start : ℕ}
    {first : UInt16} (hfirst : input[start]? = some first) {root : List StateId}
    (hroot : ∀ s, s ∈ root ↔ Reach database.epsilonTargets database.root s) :
    (∀ firstStates, Leads database root first.toNat firstStates ↔ firstStates ≠ [] ∧
      ∀ s, s ∈ firstStates ↔ s ∈ database.Frontier (Reading.contextFree input) database.root start
        (start + 1, true)) ∧
    ((∃ firstStates, Leads database root first.toNat firstStates) ↔ (database.Frontier
      (Reading.contextFree input) database.root start (start + 1, true)).Nonempty) := by
  have hrootFrontier : ∀ s, s ∈ root ↔ s ∈ database.Frontier (Reading.contextFree input)
      database.root start (start, decide (start < start)) := fun s => by
    rw [hroot, decide_eq_false (lt_irrefl start), mem_frontier_start follows_epsilonTargets]
  have hsuccessors := successors_eq_frontier hfirst hrootFrontier
  have hleads : ∀ firstStates, Leads database root first.toNat firstStates ↔ firstStates ≠ [] ∧
      ∀ s, s ∈ firstStates ↔ s ∈ database.Frontier (Reading.contextFree input) database.root start
        (start + 1, true) := by
    intro firstStates
    rw [Leads, UInt16.ofNat_toNat, hsuccessors]
  refine ⟨hleads, ?_⟩
  constructor
  · rintro ⟨firstStates, hfirstStates⟩
    obtain ⟨hne, hiff⟩ := (hleads firstStates).mp hfirstStates
    obtain ⟨s, hs⟩ := List.exists_mem_of_ne_nil _ hne
    exact ⟨s, (hiff s).mp hs⟩
  · rintro ⟨s, hs⟩
    -- a transition lists the frontier
    have hmem := (ClosureScratch.transitionInto_spec hwf (ClosureScratch.stamped_new database)
      root first).2
    rw [hsuccessors] at hmem
    exact ⟨_, (hleads _).mpr ⟨List.ne_nil_of_mem ((hmem s).mpr hs), hmem⟩⟩

/-- What continues after the first symbol: an end there, or a state behind the second symbol. -/
theorem continues_iff_frontier {input : List UInt16} {start : ℕ} {second : UInt16}
    (hsecond : input[start + 1]? = some second) {firstStates : List StateId}
    (hfirstStates : ∀ s, s ∈ firstStates ↔ s ∈ database.Frontier (Reading.contextFree input)
      database.root start (start + 1, true)) :
    Continues database firstStates second.toNat ↔
      (∃ ordinal, start + 1 ∈
        database.ends (Reading.contextFree input) database.root ordinal start) ∨
      (database.Frontier (Reading.contextFree input) database.root start
        (start + 1 + 1, true)).Nonempty := by
  have hphase : decide (start < start + 1) = true := decide_eq_true (Nat.lt_succ_self start)
  have hnext : database.Successors firstStates second = database.Frontier
      (Reading.contextFree input) database.root start (start + 1 + 1, true) :=
    successors_eq_frontier hsecond fun s => by rw [hphase]; exact hfirstStates s
  unfold Continues
  rw [UInt16.ofNat_toNat, hnext]
  refine or_congr_left ?_
  constructor
  · rintro ⟨s, hs, hterminals⟩
    obtain ⟨ordinal, hordinal⟩ := List.exists_mem_of_ne_nil _ hterminals
    exact ⟨ordinal, mem_ends_iff.mpr ⟨Nat.lt_succ_self start, s, (hfirstStates s).mp hs, hordinal⟩⟩
  · rintro ⟨ordinal, hend⟩
    obtain ⟨-, s, hs, hordinal⟩ := mem_ends_iff.mp hend
    exact ⟨s, (hfirstStates s).mpr hs, List.ne_nil_of_mem hordinal⟩

/-- A compiled table allows exactly the starts that the first two symbols do not rule out: it is as
precise as running the graph on them. -/
theorem start_tables_are_exact (hwf : database.WellFormed) {table : StartTable}
    (hcompile : StartTable.compile database = some table) {input : List UInt16} {start : ℕ}
    (hstart : start < input.length) :
    table.allows input start = true ↔ database.MayStart input start := by
  obtain ⟨root, hroot, hfirsts, hpairs⟩ := compile_exact hwf hcompile
  have hfirst : input[start]? = some input[start] := List.getElem?_eq_getElem hstart
  obtain ⟨hleads, hnonempty⟩ := leads_iff_frontier hwf hfirst hroot
  have hgetD : input.getD start 0 = input[start] := List.getD_eq_getElem _ _ hstart
  unfold PatternDatabase.MayStart StartTable.allows
  rw [hgetD]
  simp only [hfirst, Option.some.injEq, exists_eq_left']
  by_cases hwide : 128 ≤ input[start]
  · rw [if_pos hwide]
    exact iff_of_true rfl (Or.inl hwide)
  have hlt : input[start].toNat < 128 := UInt16.lt_iff_toNat_lt.mp (UInt16.not_le.mp hwide)
  rw [if_neg hwide, or_iff_right hwide, ← hnonempty, ← hfirsts _ hlt]
  by_cases hbit : containsBit table.firstAscii input[start].toNat = true
  · rw [hbit, Bool.not_true, if_neg Bool.false_ne_true, and_iff_right rfl]
    cases hsecond : input[start + 1]? with
    | none => simp
    | some second =>
      simp only [Option.some.injEq, forall_eq']
      by_cases hwide' : 128 ≤ second
      · rw [if_pos hwide']
        exact iff_of_true rfl (Or.inl hwide')
      have hlt' : second.toNat < 128 := UInt16.lt_iff_toNat_lt.mp (UInt16.not_le.mp hwide')
      rw [if_neg hwide', or_iff_right hwide', hpairs _ hlt _ hlt']
      -- there is a list of states after the first symbol, and only its members matter
      obtain ⟨firstStates, hfirstStates⟩ := (hfirsts _ hlt).mp hbit
      constructor
      · rintro ⟨firstStates', hfirstStates', hcontinues⟩
        exact (continues_iff_frontier hsecond ((hleads _).mp hfirstStates').2).mp hcontinues
      · intro hmay
        exact ⟨firstStates, hfirstStates,
          (continues_iff_frontier hsecond ((hleads _).mp hfirstStates).2).mpr hmay⟩
  · rw [Bool.eq_false_iff.mpr hbit]
    simp

/-- The table of a loop in one branch. -/
theorem start_tables_are_exact_privateLoop : ∃ database table,
    compile [privateLoop] = .ok database ∧ StartTable.compile database = some table ∧
      ∀ start < textAb.units.length,
        table.allows textAb.units start = true ↔ database.MayStart textAb.units start := by
  have hbuild : ∃ database, compile [privateLoop] = .ok database := ⟨_, rfl⟩
  obtain ⟨database, h⟩ := hbuild
  have hfree : ¬ database.usesAssertions = true := by
    rw [usesAssertions_of_compile h]
    decide
  have htable : ∃ table, StartTable.compile database = some table := by
    unfold StartTable.compile
    rw [if_neg hfree]
    exact ⟨_, rfl⟩
  obtain ⟨table, htable⟩ := htable
  exact ⟨database, table, h, htable, fun start hstart =>
    start_tables_are_exact (compile_wellFormed h) htable hstart⟩

end StartSimulation

end Rustmatch

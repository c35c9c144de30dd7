import Rustmatch.Engine.Terminals
import Rustmatch.Nfa.Correct

/-!
# The exact engines report longest matches

The invariant of the loop over the symbols: the active set is the frontier of the position, and the
slots hold the longest ends up to it. It is re-established for every start from whatever the
scratch was left in, so starts do not influence each other, and the early exit is sound because an
empty frontier stays empty.

## Main results

* `scanExact_eq`: the events of a list of starts, for any engine that follows a reading;
* `scans_report_longest`: the three exact engines of the source.
-/

open LabelledGraph Relation MarkedSearch

namespace Rustmatch

namespace PatternDatabase

variable {database : PatternDatabase}

/-- The edges of a state are edges of the database. -/
theorem mem_edges_of_mem_edgesFrom {s : ℕ} {edge : Edge} (h : edge ∈ database.edgesFrom s) :
    edge ∈ database.edges := by
  unfold edgesFrom at h
  split at h
  · exact List.mem_of_mem_drop (List.mem_of_mem_take h)
  · exact absurd h List.not_mem_nil

/-- The graph of a well-formed database does not leave its states. -/
theorem WellFormed.graph_lt (h : database.WellFormed) {s t : ℕ} {l : Label}
    (hst : database.Graph s l t) : t < database.stateCount := by
  obtain ⟨edge, hedge, rfl, -⟩ := hst
  exact h.target_lt edge (mem_edges_of_mem_edgesFrom hedge)

/-- A well-formed database reports ordinals of its patterns only. -/
theorem WellFormed.terminalsAt_lt (h : database.WellFormed) {s i : ℕ}
    (hi : i ∈ database.terminalsAt s) : i < database.patternCount := by
  unfold terminalsAt at hi
  split at hi
  · exact h.ordinal_lt i (List.mem_of_mem_drop (List.mem_of_mem_take hi))
  · exact absurd hi List.not_mem_nil

/-- The terminals of a set are those of its states. -/
theorem mem_terminalsOf_iff {source : List StateId} {i : ℕ} :
    i ∈ database.terminalsOf source ↔ ∃ s ∈ source, i ∈ database.terminalsAt s :=
  List.mem_flatMap

end PatternDatabase

/-- The ends up to a position. -/
def PatternDatabase.endsUpTo (database : PatternDatabase) (R : Reading)
    (root ordinal start p : ℕ) : Set ℕ :=
  {stop ∈ database.ends R root ordinal start | stop ≤ p}

section Closures

variable {database : PatternDatabase} {R : Reading} {follow : Config → StateId → List StateId}

/-- The closure of a list of seeds, with fresh marks. -/
theorem mem_closure_iff (hwf : database.WellFormed) (hfollow : Follows R database follow)
    (c : Config) {marks : List Bool} (hlength : marks.length = database.stateCount)
    {seeds : List ℕ} (hseeds : ∀ s ∈ seeds, s < database.stateCount) :
    (seeds.foldl (fun closure seed => extendClosure (follow c) seed closure)
        (marks.map fun _ => false, [])).1.length = database.stateCount ∧
      ∀ u, u ∈ (seeds.foldl (fun closure seed => extendClosure (follow c) seed closure)
        (marks.map fun _ => false, [])).2 ↔ ∃ s ∈ seeds, Reach (follow c) s u := by
  have hsucc : ∀ u < database.stateCount, ∀ v ∈ follow c u, v < database.stateCount := by
    intro u _ v hv
    obtain ⟨l, hedge, -⟩ := (hfollow.mem_iff c u v).mp hv
    exact hwf.graph_lt hedge
  have hstart :
      Explored boolMarks (follow c) database.stateCount (marks.map fun _ => false) [] := by
    refine Explored.empty ?_ fun u hu => ?_
    · show (marks.map fun _ => false).length = _
      rw [List.length_map, hlength]
    · show (marks.map fun _ => false).getD u true = false
      rw [List.getD_eq_getElem _ _ (by rw [List.length_map]; omega), List.getElem_map]
  obtain ⟨hexplored, hmem⟩ := foldl_extend_spec hsucc hstart hseeds
  refine ⟨hexplored.size_eq, fun u => (hmem u).trans ?_⟩
  simp

end Closures

section Scan

variable {database : PatternDatabase} {R : Reading} {root start : ℕ}
  {follow : Config → StateId → List StateId}

/-- What is known before the symbol at `p` is read. -/
structure Scanning (database : PatternDatabase) (R : Reading) (root start p : ℕ)
    (scratch : Scratch) : Prop where
  /-- Every state has a mark. -/
  activeSeen_length : scratch.activeSeen.length = database.stateCount
  /-- Every state has a mark for the next symbol. -/
  nextSeen_length : scratch.nextSeen.length = database.stateCount
  /-- The active states are the frontier of the model. -/
  mem_active : ∀ s, s ∈ scratch.active ↔
    s ∈ database.Frontier R root start (p, decide (start < p))
  /-- The slots hold the longest ends up to here. -/
  terminals : Terminals database.patternCount
    (fun ordinal => longestEnd (database.endsUpTo R root ordinal start p)) scratch

/-- What is known between two starts. -/
structure Ready (database : PatternDatabase) (scratch : Scratch) : Prop where
  /-- Every state has a mark. -/
  activeSeen_length : scratch.activeSeen.length = database.stateCount
  /-- Every state has a mark for the next symbol. -/
  nextSeen_length : scratch.nextSeen.length = database.stateCount
  /-- The slots and the touched ordinals go together, whatever they hold. -/
  terminals : ∃ best, Terminals database.patternCount best scratch

/-- A scan may stop at any symbol. -/
theorem Scanning.ready {p : ℕ} {scratch : Scratch}
    (h : Scanning database R root start p scratch) : Ready database scratch :=
  ⟨h.activeSeen_length, h.nextSeen_length, _, h.terminals⟩

/-- A new scratch is ready. -/
theorem ready_new (database : PatternDatabase) : Ready database (Scratch.new database) :=
  ⟨List.length_replicate, List.length_replicate, _, Terminals.new database⟩

/-- Sorting the touched ordinals keeps a scratch ready. -/
theorem Ready.sortTouched {scratch : Scratch} (h : Ready database scratch) :
    Ready database scratch.sortTouched := by
  obtain ⟨best, hbest⟩ := h.terminals
  exact ⟨h.activeSeen_length, h.nextSeen_length, best, hbest.sortTouched⟩

/-- No end lies before the first symbol. -/
theorem endsUpTo_start (ordinal : ℕ) : database.endsUpTo R root ordinal start start = ∅ := by
  ext stop
  simp only [PatternDatabase.endsUpTo, Set.mem_ofPred_eq, Set.mem_empty_iff_false, iff_false,
    not_and, not_le]
  exact fun h => (ends_bounded h).1

/-- An end right after the symbol is the longest so far. -/
theorem longestEnd_endsUpTo_succ_of_mem {ordinal p : ℕ}
    (h : p + 1 ∈ database.ends R root ordinal start) :
    longestEnd (database.endsUpTo R root ordinal start (p + 1)) = some (p + 1) :=
  longestEnd_of_isGreatest ⟨⟨h, le_refl _⟩, fun _ hstop => hstop.2⟩

/-- Otherwise the symbol adds no end. -/
theorem endsUpTo_succ_of_notMem {ordinal p : ℕ}
    (h : p + 1 ∉ database.ends R root ordinal start) :
    database.endsUpTo R root ordinal start (p + 1) = database.endsUpTo R root ordinal start p := by
  ext stop
  constructor
  · rintro ⟨hstop, hle⟩
    have hne : stop ≠ p + 1 := fun heq => h (heq ▸ hstop)
    exact ⟨hstop, by omega⟩
  · rintro ⟨hstop, hle⟩
    exact ⟨hstop, by omega⟩

/-- Recording what is accepted after a symbol brings the slots up to date. -/
theorem Terminals.endsUpTo_succ (hwf : database.WellFormed) {p : ℕ} {source : List StateId}
    {scratch : Scratch}
    (h : Terminals database.patternCount
      (fun ordinal => longestEnd (database.endsUpTo R root ordinal start p)) scratch)
    (hreported : ∀ ordinal, ordinal ∈ database.terminalsOf source ↔
      p + 1 ∈ database.ends R root ordinal start) :
    Terminals database.patternCount
      (fun ordinal => longestEnd (database.endsUpTo R root ordinal start (p + 1)))
      (scratch.recordTerminals (database.terminalsOf source) (p + 1)) := by
  have hlt : ∀ ordinal ∈ database.terminalsOf source, ordinal < database.patternCount := by
    intro ordinal hordinal
    obtain ⟨s, -, hs⟩ := PatternDatabase.mem_terminalsOf_iff.mp hordinal
    exact hwf.terminalsAt_lt hs
  refine (h.recordTerminals hlt (p + 1)).of_eq fun ordinal _ => ?_
  by_cases hmem : ordinal ∈ database.terminalsOf source
  · rw [if_pos hmem, longestEnd_endsUpTo_succ_of_mem ((hreported ordinal).mp hmem)]
  · rw [if_neg hmem, endsUpTo_succ_of_notMem (mt (hreported ordinal).mpr hmem)]

/-- The closure of the root opens the scan of a start. -/
theorem scanning_start (hwf : database.WellFormed) (hroot : root < database.stateCount)
    (hfollow : Follows R database follow) {scratch : Scratch} (h : Ready database scratch)
    (start : ℕ) :
    Scanning database R root start start
      { scratch.resetStart with
        activeSeen := (extendClosure (follow (start, false)) root
          (scratch.resetStart.activeSeen, scratch.resetStart.active)).1
        active := (extendClosure (follow (start, false)) root
          (scratch.resetStart.activeSeen, scratch.resetStart.active)).2 } := by
  obtain ⟨hlength, hmem⟩ := @mem_closure_iff database R follow hwf hfollow (start, false)
    scratch.activeSeen h.activeSeen_length [root] (by simpa using hroot)
  obtain ⟨best, hbest⟩ := h.terminals
  refine ⟨hlength, h.nextSeen_length, fun s => ?_, ?_⟩
  · rw [decide_eq_false (lt_irrefl start), mem_frontier_start hfollow]
    refine (hmem s).trans ?_
    simp
  · have hreset : Terminals database.patternCount (fun _ => none) scratch.resetStart :=
      (hbest.congr rfl rfl : Terminals _ best
        { scratch with active := [], activeSeen := scratch.activeSeen.map fun _ => false })
        |>.resetTerminals
    have hempty := hreset.of_eq fun ordinal _ => by
      rw [← longestEnd_empty, ← @endsUpTo_start database R root start ordinal]
    exact hempty.congr rfl rfl

/-- One symbol moves the frontier on and records what is accepted there. -/
theorem scanning_scanSymbol (hwf : database.WellFormed) (hfollow : Follows R database follow)
    {p : ℕ} {symbol : UInt16} (hsymbol : R.input[p]? = some symbol) (hp : start ≤ p)
    {scratch : Scratch} (h : Scanning database R root start p scratch) :
    Scanning database R root start (p + 1)
      (scanSymbol database follow p (p + 1) symbol scratch) := by
  have hphase : decide (start < p + 1) = true := decide_eq_true (Nat.lt_succ_of_le hp)
  have htargets : ∀ t, t ∈ database.matchingTargets scratch.active symbol ↔
      ∃ u ∈ database.Frontier R root start (p, decide (start < p)), ∃ l,
        database.Graph u l t ∧ R.act l (p, decide (start < p)) (p + 1, true) := by
    intro t
    have hmatching := @mem_matchingTargets_iff database R (p, decide (start < p)) symbol hsymbol
      scratch.active t
    rw [hmatching]
    simp only [h.mem_active]
  have hseeds : ∀ t ∈ database.matchingTargets scratch.active symbol,
      t < database.stateCount := by
    intro t ht
    obtain ⟨u, -, l, hedge, -⟩ := (htargets t).mp ht
    exact hwf.graph_lt hedge
  obtain ⟨hlength, hmem⟩ := @mem_closure_iff database R follow hwf hfollow (p + 1, true)
    scratch.nextSeen h.nextSeen_length _ hseeds
  -- the closure of what the symbol leads to is the next frontier
  set closure := (database.matchingTargets scratch.active symbol).foldl
    (fun closure seed => extendClosure (follow (p + 1, true)) seed closure)
    (scratch.nextSeen.map fun _ => false, []) with hclosure
  have hfrontier : ∀ s, s ∈ closure.2 ↔
      s ∈ database.Frontier R root start (p + 1, true) := by
    intro s
    rw [hmem, mem_frontier_succ hfollow]
    constructor
    · rintro ⟨v, hv, hreach⟩
      obtain ⟨u, hu, l, hedge, hact⟩ := (htargets v).mp hv
      exact ⟨u, hu, l, v, hedge, hact, hreach⟩
    · rintro ⟨u, hu, l, v, hedge, hact, hreach⟩
      exact ⟨v, (htargets v).mpr ⟨u, hu, l, hedge, hact⟩, hreach⟩
  have hscan : scanSymbol database follow p (p + 1) symbol scratch =
      (({ scratch with nextSeen := closure.1, next := closure.2 } : Scratch).recordTerminals
        (database.terminalsOf closure.2) (p + 1)).swap := rfl
  have hreported : ∀ ordinal, ordinal ∈ database.terminalsOf closure.2 ↔
      p + 1 ∈ database.ends R root ordinal start := by
    intro ordinal
    rw [PatternDatabase.mem_terminalsOf_iff, mem_ends_iff]
    simp only [hfrontier]
    exact ⟨fun hs => ⟨Nat.lt_succ_of_le hp, hs⟩, fun hs => hs.2⟩
  rw [hscan]
  refine ⟨?_, ?_, fun s => ?_, ?_⟩
  · rw [Scratch.swap, Scratch.recordTerminals_nextSeen]
    exact hlength
  · rw [Scratch.swap, Scratch.recordTerminals_activeSeen]
    exact h.activeSeen_length
  · rw [Scratch.swap, Scratch.recordTerminals_next, hphase]
    exact hfrontier s
  · have hterminals : Terminals database.patternCount _
        ({ scratch with nextSeen := closure.1, next := closure.2 } : Scratch) :=
      h.terminals.congr rfl rfl
    exact (hterminals.endsUpTo_succ hwf hreported).congr rfl rfl

/-- Once a frontier is empty no end lies beyond its position. -/
theorem endsUpTo_eq_ends_of_empty (hfollow : Follows R database follow) {p : ℕ}
    (hempty : ∀ s, s ∉ database.Frontier R root start (p, decide (start < p))) (hp : start ≤ p)
    (ordinal : ℕ) : database.endsUpTo R root ordinal start p =
      database.ends R root ordinal start := by
  have hlater : ∀ k, ∀ s, s ∉ database.Frontier R root start (p + k, decide (start < p + k)) := by
    intro k
    induction k with
    | zero => exact hempty
    | succ k ih =>
      intro s hs
      rw [← Nat.add_assoc, decide_eq_true (by omega : start < p + k + 1)] at hs
      obtain ⟨u, hu, -⟩ := (mem_frontier_succ hfollow).mp hs
      exact ih u hu
  ext stop
  refine ⟨fun h => h.1, fun h => ⟨h, ?_⟩⟩
  by_contra hle
  obtain ⟨hlt, s, hs, -⟩ := mem_ends_iff.mp h
  obtain ⟨k, rfl⟩ := Nat.exists_eq_add_of_le (not_le.mp hle).le
  refine hlater k s ?_
  rw [decide_eq_true hlt]
  exact hs

/-- At the end of the input all ends are known. -/
theorem endsUpTo_eq_ends_of_length_le {p : ℕ} (hp : R.input.length ≤ p) (ordinal : ℕ) :
    database.endsUpTo R root ordinal start p = database.ends R root ordinal start := by
  ext stop
  exact ⟨fun h => h.1, fun h => ⟨h, (ends_bounded h).2.trans hp⟩⟩

/-- The loop over the symbols finds the longest ends. -/
theorem scanSymbols_eq (hwf : database.WellFormed) (hfollow : Follows R database follow)
    {input : Utf16Text} (hinput : R.input = input.units) {p : ℕ} (hp : start ≤ p)
    {scratch : Scratch} (h : Scanning database R root start p scratch) :
    ∃ scratch', scanSymbols database follow (input.units.drop p) p scratch = .ok scratch' ∧
      Ready database scratch' ∧ Terminals database.patternCount
        (fun ordinal => longestEnd (database.ends R root ordinal start)) scratch' := by
  -- the induction is on how much input is left
  induction hn : input.units.length - p generalizing p scratch with
  | zero =>
    have hlength : R.input.length ≤ p := by
      rw [hinput]
      omega
    rw [List.drop_eq_nil_of_le (by omega)]
    refine ⟨scratch, rfl, h.ready, h.terminals.of_eq fun ordinal _ => ?_⟩
    rw [endsUpTo_eq_ends_of_length_le hlength]
  | succ n ih =>
    have hlt : p < input.units.length := by omega
    rw [List.drop_eq_getElem_cons hlt, scanSymbols, checkedSucc_eq_ok input hlt]
    simp only [bind, Except.bind]
    rw [positionUtf16_of_le input (Nat.succ_le_of_lt hlt)]
    have hsymbol : R.input[p]? = some input.units[p] := by
      rw [hinput, List.getElem?_eq_getElem hlt]
    have hnext := scanning_scanSymbol hwf hfollow hsymbol hp h
    show ∃ scratch',
      (if (scanSymbol database follow p (p + 1) input.units[p] scratch).active.isEmpty
      then .ok (scanSymbol database follow p (p + 1) input.units[p] scratch)
      else scanSymbols database follow (input.units.drop (p + 1)) (p + 1)
        (scanSymbol database follow p (p + 1) input.units[p] scratch)) = .ok scratch' ∧ _
    split
    -- without active states no pattern ends later, so the source may stop
    next hempty =>
      refine ⟨_, rfl, hnext.ready, hnext.terminals.of_eq fun ordinal _ => ?_⟩
      have hnone : ∀ s, s ∉ database.Frontier R root start (p + 1, decide (start < p + 1)) := by
        intro s hs
        rw [← hnext.mem_active, List.isEmpty_iff.mp hempty] at hs
        exact absurd hs List.not_mem_nil
      rw [endsUpTo_eq_ends_of_empty hfollow hnone (by omega)]
    next => exact ih (by omega) hnext (by omega)

/-- Scanning a list of starts delivers the events of each of them in turn. -/
theorem scanStarts_eq (hwf : database.WellFormed) (hroot : root < database.stateCount)
    (hfollow : Follows R database follow) {input : Utf16Text} (hinput : R.input = input.units)
    {starts : List ℕ} (hstarts : ∀ start ∈ starts, start ≤ usizeMax) {scratch : Scratch}
    (h : Ready database scratch) :
    scanStarts database follow root input starts scratch =
      ⟨starts.flatMap (database.eventsAt R root), .ok ()⟩ := by
  induction starts generalizing scratch with
  | nil => rfl
  | cons start starts ih =>
    have hopen := scanning_start hwf hroot hfollow h start
    obtain ⟨scratch', hscan, hready, hterminals⟩ :=
      scanSymbols_eq hwf hfollow hinput (le_refl start) hopen
    have hstart : start < 2 ^ 64 := by
      have := hstarts start List.mem_cons_self
      unfold usizeMax at this
      omega
    have hstart' : scanStart database follow root input start scratch = .ok scratch' := hscan
    rw [scanStarts, hstart', positionUtf16_eq_ok hstart, Delivery.ofExcept_ok_bind,
      Delivery.ofExcept_ok_bind]
    show (Delivery.emit (reportTouched database start scratch'.sortTouched) >>= fun _ =>
      scanStarts database follow root input starts scratch'.sortTouched) = _
    rw [Delivery.emit_bind, ih (fun start hmem => hstarts start (List.mem_cons_of_mem _ hmem))
      hready.sortTouched, reportTouched_eq_eventsAt hterminals, List.flatMap_cons]

/-- An engine that follows a reading reports the longest matches of every start, in order. -/
theorem scanExact_eq (hwf : database.WellFormed) (hroot : root < database.stateCount)
    (hfollow : Follows R database follow) {input : Utf16Text} (hinput : R.input = input.units)
    {starts : List ℕ} (hstarts : ∀ start ∈ starts, start ≤ usizeMax) :
    scanExact database follow root input starts =
      ⟨starts.flatMap (database.eventsAt R root), .ok ()⟩ :=
  scanStarts_eq hwf hroot hfollow hinput hstarts (ready_new database)

end Scan

/-! ### The engines of the source -/

/-- No edge of the database is an assertion. -/
def PatternDatabase.AssertionFree (database : PatternDatabase) : Prop :=
  ∀ edge ∈ database.edges, ∀ a, edge.kind ≠ .assertion a

/-- Without assertion edges the context of a position does not matter. -/
theorem PatternDatabase.AssertionFree.along_eq {database : PatternDatabase}
    (h : database.AssertionFree) (input : List UInt16) :
    Along (Reading.contextFree input).act database.Graph =
      Along (Reading.contextual input).act database.Graph := by
  have hmove : Move (Reading.contextFree input).act database.Graph =
      Move (Reading.contextual input).act database.Graph := by
    ext x y
    refine exists_congr fun l => and_congr_right fun hedge => ?_
    -- the readings differ in assertions only, and no edge carries one
    cases l with
    | epsilon => exact Iff.rfl
    | assertion a =>
      obtain ⟨edge, hmem, -, hlabel⟩ := hedge
      cases hkind : edge.kind with
      | assertion b => exact absurd hkind (h edge (mem_edges_of_mem_edgesFrom hmem) b)
      | epsilon => rw [hkind] at hlabel; cases hlabel
      | symbol u => rw [hkind] at hlabel; cases hlabel
      | predicate id =>
        rw [hkind] at hlabel
        obtain ⟨p, -, hp⟩ := Option.map_eq_some_iff.mp hlabel
        cases hp
    | symbol u => exact Iff.rfl
    | predicate p => exact Iff.rfl
  funext s t c d
  unfold Along Walk
  rw [hmove]

/-- Without assertions the context does not matter. -/
theorem PatternDatabase.AssertionFree.eventsAt_eq {database : PatternDatabase}
    (h : database.AssertionFree) (input : List UInt16) (root : ℕ) :
    database.eventsAt (Reading.contextFree input) root =
      database.eventsAt (Reading.contextual input) root := by
  funext start
  unfold eventsAt ends Accepts
  rw [h.along_eq]

/-- The engine for assertion-free databases follows no assertion. -/
theorem scanWithoutAssertionsNfa_eq {database : PatternDatabase} (hwf : database.WellFormed)
    (input : Utf16Text) {starts : List ℕ} (hstarts : ∀ start ∈ starts, start ≤ usizeMax) :
    scanWithoutAssertionsNfa database input starts =
      ⟨starts.flatMap (database.eventsAt (Reading.contextFree input.units) database.root),
        .ok ()⟩ :=
  scanExact_eq hwf hwf.root_lt follows_epsilonTargets rfl hstarts

/-- The engines with context support evaluate assertions at every position. -/
theorem scanAssertionViewStarts_eq {database : PatternDatabase} (hwf : database.WellFormed)
    {root : ℕ} (hroot : root < database.stateCount) (input : Utf16Text) {starts : List ℕ}
    (hstarts : ∀ start ∈ starts, start ≤ usizeMax) :
    scanAssertionViewStarts database root input starts =
      ⟨starts.flatMap (database.eventsAt (Reading.contextual input.units) root), .ok ()⟩ :=
  scanExact_eq hwf hroot follows_assertionTargets rfl hstarts

/-- The positions of a text are machine words. -/
theorem le_usizeMax_of_mem_range (input : Utf16Text) :
    ∀ start ∈ List.range input.units.length, start ≤ usizeMax := by
  intro start hstart
  have hlt := List.mem_range.mp hstart
  have hle := input.length_le
  unfold maxUnits at hle
  unfold usizeMax
  omega

/-- The scan with assertions delivers the events of every start. -/
theorem scanWithAssertions_eq {database : PatternDatabase} (hwf : database.WellFormed)
    (input : Utf16Text) :
    scanWithAssertions database input =
      ⟨(List.range input.units.length).flatMap
        (database.eventsAt (Reading.contextual input.units) database.root), .ok ()⟩ :=
  scanAssertionViewStarts_eq hwf hwf.root_lt input (le_usizeMax_of_mem_range input)

/-- The exact engines report, for each start in turn, the longest end of every ordinal that has
one, by increasing ordinal, and nothing else. Spans are not empty and lie in the input, and the two
kinds of engine agree where both apply. -/
theorem scans_report_longest {database : PatternDatabase} (hwf : database.WellFormed) {root : ℕ}
    (hroot : root < database.stateCount) (input : Utf16Text) {starts : List ℕ}
    (hstarts : ∀ start ∈ starts, start ≤ usizeMax) :
    (database.AssertionFree → scanWithoutAssertionsNfa database input starts =
      ⟨starts.flatMap (database.eventsAt (Reading.contextual input.units) database.root),
        .ok ()⟩) ∧
    scanAssertionViewStarts database root input starts =
      ⟨starts.flatMap (database.eventsAt (Reading.contextual input.units) root), .ok ()⟩ ∧
    scanWithAssertions database input =
      ⟨(List.range input.units.length).flatMap
        (database.eventsAt (Reading.contextual input.units) database.root), .ok ()⟩ ∧
    (∀ start, ∀ event ∈ database.eventsAt (Reading.contextual input.units) root start,
      event.span.start = start ∧ start < event.span.stop ∧
        event.span.stop ≤ input.units.length) ∧
    (∀ start ordinal stop, longestEnd (database.ends (Reading.contextual input.units) root ordinal
      start) = some stop ↔
        IsGreatest (database.ends (Reading.contextual input.units) root ordinal start) stop) ∧
    (database.AssertionFree →
      scanWithoutAssertionsNfa database input (List.range input.units.length) =
        scanWithAssertions database input) := by
  -- without assertions it makes no difference what assertions would see
  have hnfa : database.AssertionFree → ∀ {starts : List ℕ},
      (∀ start ∈ starts, start ≤ usizeMax) → scanWithoutAssertionsNfa database input starts =
        ⟨starts.flatMap (database.eventsAt (Reading.contextual input.units) database.root),
          .ok ()⟩ := by
    intro hfree starts hstarts
    rw [scanWithoutAssertionsNfa_eq hwf input hstarts, hfree.eventsAt_eq]
  refine ⟨fun hfree => hnfa hfree hstarts, scanAssertionViewStarts_eq hwf hroot input hstarts,
    scanWithAssertions_eq hwf input, ?_, ?_, ?_⟩
  · intro start event hevent
    obtain ⟨ordinal, -, -, hstart, hgreatest⟩ := mem_eventsAt_iff.mp hevent
    exact ⟨hstart, ends_bounded hgreatest.1⟩
  · exact fun start ordinal stop => longestEnd_eq_some_iff (bddAbove_ends ordinal)
  · intro hfree
    rw [hnfa hfree (le_usizeMax_of_mem_range input), scanWithAssertions_eq hwf input]

/-- The text `ab`. -/
def textAb : Utf16Text := ⟨[0x61, 0x62], by decide⟩

/-- A loop in one branch, scanned from starts that repeat. -/
theorem scans_report_longest_privateLoop : ∃ database, compile [privateLoop] = .ok database ∧
    scanAssertionViewStarts database database.root textAb [1, 0, 1] =
      ⟨[1, 0, 1].flatMap (database.eventsAt (Reading.contextual textAb.units) database.root),
        .ok ()⟩ := by
  have hcompile : ∃ database, compile [privateLoop] = .ok database := ⟨_, rfl⟩
  obtain ⟨database, hdatabase⟩ := hcompile
  have hwf := compile_wellFormed hdatabase
  exact ⟨database, hdatabase,
    (@scans_report_longest database hwf database.root hwf.root_lt textAb [1, 0, 1]
      (by decide)).2.1⟩

end Rustmatch

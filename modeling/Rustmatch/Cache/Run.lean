import Rustmatch.Cache.Exact

/-!
# Runs of the cached engine

The loops of a cached scan as a machine that takes small steps: a start is taken up, a set is
interned, the entry for it is stored, a known transition is taken, a start is reported. The moments
of a scan are what the machine reaches. What one step preserves holds at every moment, and the
loops end in the moment where no start is left.

## Main results

* `CachedMoment.Sound.step`, `CachedMoment.sound_of_run`: one step, and every moment of a run;
* `run_symbols`, `run_starts`: the loops run along the machine;
* `scanWithoutAssertionsCached_eq`: the events of a list of starts;
* `cached_scan_exact`: the events, and the cache at every moment.
-/

open Relation MarkedSearch

namespace Rustmatch

/-- Where a cached scan stands. -/
inductive CachedPhase where
  /-- Between two starts. -/
  | idle
  /-- Before the symbol at a position. -/
  | reading (start position : ℕ) (cursor : ScanCursor)
  /-- Between the interning of a set and the writing of its entry. -/
  | storing (start position state : ℕ) (symbol : UInt16) (entry : ℕ)

/-- A moment of a cached scan: the phase, the starts to come, the events delivered so far. -/
structure CachedMoment where
  /-- Where in the scan of a start the machine is. -/
  phase : CachedPhase
  /-- The starts that are still to be scanned. -/
  starts : List ℕ
  /-- The events delivered so far. -/
  events : List Match
  /-- The cache, the scratch and the counters. -/
  scan : CachedScan

namespace CachedMoment

variable (database : PatternDatabase) (input : List UInt16)

/-- The report of a start. -/
def report (start : ℕ) (starts : List ℕ) (events : List Match) (scan : CachedScan) :
    CachedMoment where
  phase := .idle
  starts := starts
  events := events ++ reportTouched database start scan.scratch.sortTouched
  scan := { scan with scratch := scan.scratch.sortTouched }

/-- The outcome of the symbol at a position is followed. -/
def proceed (start position : ℕ) (starts : List ℕ) (events : List Match)
    (result : TransitionOutcome × CachedScan) : CachedMoment :=
  match CachedScan.follow database result.1 (position + 1) result.2 with
  | (some cursor, scan) => ⟨.reading start (position + 1) cursor, starts, events, scan⟩
  | (none, scan) => report database start starts events scan

/-- One step of the machine. -/
inductive Step : CachedMoment → CachedMoment → Prop
  /-- The next start begins at the root. -/
  | start {start : ℕ} {starts : List ℕ} {events : List Match} {scan : CachedScan} :
    Step ⟨.idle, start :: starts, events, scan⟩
      ⟨.reading start start (.cached 0), starts, events,
        { scan with scratch := scan.scratch.resetCachedStart }⟩
  /-- An unknown transition is computed, and its set interned. -/
  | intern {start position state : ℕ} {symbol : UInt16} {starts : List ℕ} {events : List Match}
      {scan : CachedScan} (hsymbol : input[position]? = some symbol)
      (hunknown : scan.cache.storedTransition state symbol = unknownTransition) :
    Step ⟨.reading start position (.cached state), starts, events, scan⟩
      ⟨.storing start position state symbol
        (CachedScan.internSuccessors database state symbol scan).1, starts, events,
        (CachedScan.internSuccessors database state symbol scan).2⟩
  /-- The entry is written, and the scan proceeds. -/
  | store {start position state entry : ℕ} {symbol : UInt16} {starts : List ℕ}
      {events : List Match} {scan : CachedScan} :
    Step ⟨.storing start position state symbol entry, starts, events, scan⟩
      (proceed database start position starts events
        (CachedScan.storeTransition state symbol entry scan))
  /-- A known transition is made, or one without the cache. -/
  | move {start position : ℕ} {cursor : ScanCursor} {symbol : UInt16} {starts : List ℕ}
      {events : List Match} {scan : CachedScan} (hsymbol : input[position]? = some symbol)
      (hknown : ∀ state, cursor = .cached state →
        scan.cache.storedTransition state symbol ≠ unknownTransition) :
    Step ⟨.reading start position cursor, starts, events, scan⟩
      (proceed database start position starts events
        (CachedScan.step database cursor symbol scan))
  /-- At the end of the text the events of the start are reported. -/
  | stop {start position : ℕ} {cursor : ScanCursor} {starts : List ℕ} {events : List Match}
      {scan : CachedScan} (hlast : input.length ≤ position) :
    Step ⟨.reading start position cursor, starts, events, scan⟩
      (report database start starts events scan)

/-- The moments that a run from a fresh cache reaches. -/
def Reachable (budget : ℕ) (starts : List ℕ) (metrics : ScanStats) (moment : CachedMoment) : Prop :=
  ReflTransGen (Step database input)
    ⟨.idle, starts, [], CachedScan.new database budget metrics⟩ moment

/-! ### The invariant -/

/-- What holds at every moment: the scan stands at the frontier of its position, and what is
delivered and what is to come make up `total`. -/
def Sound (budget : ℕ) (total : List Match) (moment : CachedMoment) : Prop :=
  let eventsAt := database.eventsAt (Reading.contextFree input) database.root
  match moment.phase with
  | .idle =>
    Cached database budget moment.scan ∧
      (∃ best, Terminals database.patternCount best moment.scan.scratch) ∧
      moment.events ++ moment.starts.flatMap eventsAt = total
  | .reading start position cursor =>
    start ≤ position ∧
      CachedScanning database budget input start position cursor moment.scan ∧
      moment.events ++ (eventsAt start ++ moment.starts.flatMap eventsAt) = total
  | .storing start position state symbol entry =>
    start ≤ position ∧
      Storing database budget state symbol
        (database.Frontier (Reading.contextFree input) database.root start (position + 1, true))
        entry moment.scan ∧
      Terminals database.patternCount (fun ordinal => longestEnd (database.endsUpTo
        (Reading.contextFree input) database.root ordinal start position)) moment.scan.scratch ∧
      moment.events ++ (eventsAt start ++ moment.starts.flatMap eventsAt) = total

section Sound

variable {database : PatternDatabase} {input : List UInt16} {budget : ℕ} {total : List Match}

/-- The cache is sound at every moment. -/
theorem Sound.cached {moment : CachedMoment} (h : moment.Sound database input budget total) :
    Cached database budget moment.scan := by
  obtain ⟨phase, starts, events, scan⟩ := moment
  cases phase with
  | idle => exact h.1
  | reading start position cursor => exact h.2.1.cached
  | storing start position state symbol entry => exact h.2.1.cached

/-- A report, once the slots hold the longest ends. -/
theorem sound_report {start : ℕ} {starts : List ℕ} {events : List Match} {scan : CachedScan}
    (hcached : Cached database budget scan)
    (hterminals : Terminals database.patternCount (fun ordinal => longestEnd
      (database.ends (Reading.contextFree input) database.root ordinal start)) scan.scratch)
    (hevents : events ++ (database.eventsAt (Reading.contextFree input) database.root start ++
      starts.flatMap (database.eventsAt (Reading.contextFree input) database.root)) = total) :
    (report database start starts events scan).Sound database input budget total := by
  refine ⟨hcached.of_grows hcached.invariant rfl (fun _ _ hold => hold)
    (hcached.stamped.congr rfl rfl), ⟨_, hterminals.sortTouched⟩, ?_⟩
  show events ++ reportTouched database start scan.scratch.sortTouched ++ _ = total
  rw [reportTouched_eq_eventsAt hterminals, List.append_assoc]
  exact hevents

/-- Following the outcome of a symbol. -/
theorem sound_proceed (hwf : database.WellFormed) {start position : ℕ} {starts : List ℕ}
    {events : List Match} {result : TransitionOutcome × CachedScan} (hle : start ≤ position)
    (hcached : Cached database budget result.2)
    (hreaches : result.1.Reaches result.2
      (database.Frontier (Reading.contextFree input) database.root start (position + 1, true)))
    (hterminals : Terminals database.patternCount (fun ordinal => longestEnd
      (database.endsUpTo (Reading.contextFree input) database.root ordinal start position))
      result.2.scratch)
    (hevents : events ++ (database.eventsAt (Reading.contextFree input) database.root start ++
      starts.flatMap (database.eventsAt (Reading.contextFree input) database.root)) = total) :
    (proceed database start position starts events result).Sound database input budget total := by
  have hfollow := follow_spec hwf hle hcached hreaches hterminals
  unfold proceed
  generalize CachedScan.follow database result.1 (position + 1) result.2 = followed at hfollow
  obtain ⟨cursor, scan⟩ := followed
  cases cursor with
  | none => exact sound_report hfollow.1 hfollow.2 hevents
  | some cursor => exact ⟨Nat.le_succ_of_le hle, hfollow, hevents⟩

/-- One step keeps the invariant. -/
theorem Sound.step (hwf : database.WellFormed) {moment moment' : CachedMoment}
    (h : moment.Sound database input budget total)
    (hstep : Step database input moment moment') :
    moment'.Sound database input budget total := by
  -- one case for each kind of step; only the last one reports
  cases hstep with
  | @start start starts events scan =>
    obtain ⟨hcached, hterminals, hevents⟩ := h
    exact ⟨le_refl _, cachedScanning_start hcached hterminals start, hevents⟩
  | intern hsymbol hunknown =>
    obtain ⟨hle, hscanning, hevents⟩ := h
    exact ⟨hle, storing_of_unknown hwf hsymbol hscanning hunknown,
      hscanning.terminals.internSuccessors _ _, hevents⟩
  | store =>
    obtain ⟨hle, hstoring, hterminals, hevents⟩ := h
    obtain ⟨hcached, hreaches⟩ := storeTransition_spec hstoring
    exact sound_proceed hwf hle hcached hreaches hterminals hevents
  | move hsymbol hknown =>
    obtain ⟨hle, hscanning, hevents⟩ := h
    obtain ⟨hcached, hreaches, hterminals⟩ := step_spec hwf hsymbol hscanning hknown
    exact sound_proceed hwf hle hcached hreaches hterminals hevents
  | @stop start position cursor starts events scan hlast =>
    obtain ⟨hle, hscanning, hevents⟩ := h
    refine sound_report hscanning.cached (hscanning.terminals.of_eq fun ordinal _ => ?_) hevents
    have hends := @endsUpTo_eq_ends_of_length_le database (Reading.contextFree input)
      database.root start position hlast ordinal
    rw [hends]

/-- The invariant at every moment of a run. -/
theorem sound_of_run (hwf : database.WellFormed) {moment moment' : CachedMoment}
    (h : moment.Sound database input budget total)
    (hrun : ReflTransGen (Step database input) moment moment') :
    moment'.Sound database input budget total := by
  induction hrun with
  | refl => exact h
  | tail _ hstep ih => exact ih.step hwf hstep

end Sound

end CachedMoment

/-! ### The fresh cache -/

section New

variable {database : PatternDatabase} {budget : ℕ}

/-- An empty cache takes its first set, for every nonzero budget. -/
theorem intern_empty (hbudget : 1 ≤ budget) (set : List StateId) :
    ((⟨budget, [], fun _ => []⟩ : DeterministicCache).intern database set).2.sets = [set] := by
  have hroom : ((0 : ℕ) ≥ budget || (0 : ℕ) ≥ fallbackTransition) = false := by
    rw [Bool.or_eq_false_iff, decide_eq_false_iff_not, decide_eq_false_iff_not]
    exact ⟨by omega, by decide⟩
  unfold DeterministicCache.intern
  show (if ((0 : ℕ) ≥ budget || (0 : ℕ) ≥ fallbackTransition) = true then _ else _ :
    Option ℕ × DeterministicCache).2.sets = [set]
  rw [hroom]
  rfl

/-- A fresh cache holds the closure of the root. -/
theorem cached_new (hwf : database.WellFormed) (hbudget : 1 ≤ budget) (metrics : ScanStats) :
    Cached database budget (CachedScan.new database budget metrics) := by
  have hempty : Explored boolMarks database.epsilonTargets database.stateCount
      ((List.replicate database.stateCount false).map fun _ => false) [] := by
    refine Explored.empty ?_ fun u hu => ?_
    · show (List.map _ (List.replicate _ _)).length = _
      rw [List.length_map, List.length_replicate]
    · show (List.map _ (List.replicate _ _)).getD u true = false
      rw [List.map_replicate, List.getD_eq_getElem _ _ (by rw [List.length_replicate]; exact hu),
        List.getElem_replicate]
  have hsucc : ∀ u < database.stateCount, ∀ v ∈ database.epsilonTargets u,
      v < database.stateCount := fun u _ v hv => epsilonTargets_lt hwf v hv
  set closure := extendClosure database.epsilonTargets database.root
    ((List.replicate database.stateCount false).map fun _ => false, []) with hclosure
  -- the root closure is explored from empty marks, and it holds at least the root
  have hexplored := extend_explored hsucc hempty database.root
  have hmem : ∀ s, s ∈ closure.2.mergeSort (· ≤ ·) ↔
      Reach database.epsilonTargets database.root s := by
    intro s
    refine List.mem_mergeSort.trans ((mem_extend hsucc hempty hwf.root_lt s).trans ?_)
    simp
  have hsorted : (closure.2.mergeSort (· ≤ ·)).Pairwise (· < ·) :=
    SortedLists.pairwise_lt_mergeSort hexplored.nodup
  have hne : closure.2.mergeSort (· ≤ ·) ≠ [] :=
    List.ne_nil_of_mem ((hmem database.root).mpr ReflTransGen.refl)
  obtain ⟨hinvariant, hbudgetEq, -⟩ :=
    (cacheInvariant_empty database budget).intern hsorted hne
  refine ⟨hinvariant, hbudgetEq, ⟨_, ?_, hmem⟩, ?_⟩
  · show ((⟨budget, [], fun _ => []⟩ : DeterministicCache).intern database
      (closure.2.mergeSort (· ≤ ·))).2.sets[0]? = _
    rw [intern_empty hbudget]
    rfl
  · exact stamps_replicate database.stateCount

/-- A run begins soundly. -/
theorem CachedMoment.sound_new (hwf : database.WellFormed) (hbudget : 1 ≤ budget)
    (input : List UInt16) (starts : List ℕ) (metrics : ScanStats) :
    CachedMoment.Sound database input budget
      (starts.flatMap (database.eventsAt (Reading.contextFree input) database.root))
      ⟨.idle, starts, [], CachedScan.new database budget metrics⟩ := by
  refine ⟨cached_new hwf hbudget metrics, ⟨fun _ => none, ?_⟩, rfl⟩
  exact (Terminals.new database).resetTerminals.congr rfl rfl

end New

/-! ### The loops -/

section Loops

variable {database : PatternDatabase} {budget : ℕ}

/-- The loop over the symbols of a start runs along the machine. -/
theorem run_symbols (input : Utf16Text) {start position : ℕ} {starts : List ℕ}
    {events : List Match} (cursor : ScanCursor) (scan : CachedScan) : ∃ scan',
    CachedScan.symbols database (input.units.drop position) position cursor scan = .ok scan' ∧
      ReflTransGen (CachedMoment.Step database input.units)
        ⟨.reading start position cursor, starts, events, scan⟩
        (CachedMoment.report database start starts events scan') := by
  -- the induction is on how much input is left
  induction hn : input.units.length - position generalizing position cursor scan with
  | zero =>
    rw [List.drop_eq_nil_of_le (by omega)]
    exact ⟨scan, rfl, ReflTransGen.single (.stop (by omega))⟩
  | succ n ih =>
    have hlt : position < input.units.length := by omega
    have hsymbol : input.units[position]? = some input.units[position] :=
      List.getElem?_eq_getElem hlt
    set symbol := input.units[position] with hsym
    set result := CachedScan.step database cursor symbol scan with hresult
    have hstep : ReflTransGen (CachedMoment.Step database input.units)
        ⟨.reading start position cursor, starts, events, scan⟩
        (CachedMoment.proceed database start position starts events result) := by
      by_cases hknown : ∀ state, cursor = .cached state →
          scan.cache.storedTransition state symbol ≠ unknownTransition
      · exact ReflTransGen.single (.move hsymbol hknown)
      · -- a transition that is not known yet takes two steps
        push Not at hknown
        obtain ⟨state, rfl, hunknown⟩ := hknown
        have hhalves : result = CachedScan.storeTransition state symbol
            (CachedScan.internSuccessors database state symbol scan).1
            (CachedScan.internSuccessors database state symbol scan).2 := by
          rw [hresult]
          exact if_pos hunknown
        rw [hhalves]
        exact (ReflTransGen.single (.intern hsymbol hunknown)).tail .store
    rw [List.drop_eq_getElem_cons hlt, CachedScan.symbols, checkedSucc_eq_ok input hlt]
    simp only [bind, Except.bind]
    rw [positionUtf16_of_le input (Nat.succ_le_of_lt hlt), ← hsym, ← hresult]
    simp only [Nat.succ_eq_add_one]
    unfold CachedMoment.proceed at hstep
    -- the loop of the source and the steps now branch on the same outcome
    generalize CachedScan.follow database result.1 (position + 1) result.2 = followed at hstep ⊢
    obtain ⟨next, scan'⟩ := followed
    cases next with
    | none => exact ⟨scan', rfl, hstep⟩
    | some cursor' =>
      obtain ⟨final, hfinal, hrun⟩ := @ih (position + 1) cursor' scan' (by omega)
      exact ⟨final, hfinal, hstep.trans hrun⟩

/-- The loop over the starts runs along the machine, to the moment where no start is left. -/
theorem run_starts (input : Utf16Text) {starts : List ℕ}
    (hstarts : ∀ start ∈ starts, start ≤ usizeMax) (events : List Match) (scan : CachedScan) :
    ∃ scan' delivered, CachedScan.starts database input starts scan = ⟨delivered, .ok scan'⟩ ∧
      ReflTransGen (CachedMoment.Step database input.units) ⟨.idle, starts, events, scan⟩
        ⟨.idle, [], events ++ delivered, scan'⟩ := by
  induction starts generalizing events scan with
  | nil => exact ⟨scan, [], rfl, by rw [List.append_nil]⟩
  | cons start starts ih =>
    have hstart : start < 2 ^ 64 := by
      have := hstarts start List.mem_cons_self
      unfold usizeMax at this
      omega
    -- the symbols behind one start, and then the other starts
    obtain ⟨read, hread, hrun⟩ := @run_symbols database input start start starts events (.cached 0)
      { scan with scratch := scan.scratch.resetCachedStart }
    set reported : CachedScan := { read with scratch := read.scratch.sortTouched } with hreported
    set report := reportTouched database start reported.scratch with hreport
    obtain ⟨final, delivered, hfinal, hrest⟩ :=
      ih (fun start hmem => hstarts start (List.mem_cons_of_mem _ hmem)) (events ++ report) reported
    refine ⟨final, report ++ delivered, ?_, ?_⟩
    · rw [CachedScan.starts]
      simp only
      rw [hread, positionUtf16_eq_ok hstart, Delivery.ofExcept_ok_bind, Delivery.ofExcept_ok_bind]
      show (Delivery.emit report >>= fun _ => CachedScan.starts database input starts reported) = _
      rw [Delivery.emit_bind, hfinal]
    · rw [← List.append_assoc]
      exact ((ReflTransGen.single .start).trans hrun).trans hrest

/-- A cached scan returns, in a moment that the machine reaches, and delivers the events of the
starts in turn. -/
theorem scanWithoutAssertionsCached_eq (hwf : database.WellFormed) (hbudget : 1 ≤ budget)
    (input : Utf16Text) {starts : List ℕ} (hstarts : ∀ start ∈ starts, start ≤ usizeMax)
    (metrics : ScanStats) : ∃ scan,
    CachedMoment.Reachable database input.units budget starts metrics ⟨.idle, [],
      starts.flatMap (database.eventsAt (Reading.contextFree input.units) database.root), scan⟩ ∧
    scanWithoutAssertionsCached database input budget starts metrics =
      ⟨starts.flatMap (database.eventsAt (Reading.contextFree input.units) database.root),
        .ok { scan.metrics with cacheStates := scan.cache.states.length }⟩ := by
  obtain ⟨scan, delivered, hscan, hrun⟩ := run_starts input hstarts []
    (CachedScan.new database budget metrics)
  rw [List.nil_append] at hrun
  -- what is delivered in the last moment is all there is to deliver
  obtain ⟨-, -, htotal⟩ := CachedMoment.sound_of_run hwf
    (CachedMoment.sound_new hwf hbudget input.units starts metrics) hrun
  have hdelivered : delivered =
      starts.flatMap (database.eventsAt (Reading.contextFree input.units) database.root) := by
    rw [← htotal]
    simp
  subst hdelivered
  refine ⟨scan, hrun, ?_⟩
  rw [scanWithoutAssertionsCached, hscan, Delivery.mk_ok_bind]
  simp

/-- The scans without assertions deliver the same events for every budget. -/
theorem scanWithoutAssertionsDispatch_eq (hwf : database.WellFormed) (budget : ℕ)
    (input : Utf16Text) {starts : List ℕ} (hstarts : ∀ start ∈ starts, start ≤ usizeMax)
    (metrics : ScanStats) : ∃ metrics',
    scanWithoutAssertionsDispatch database input budget starts metrics =
      ⟨starts.flatMap (database.eventsAt (Reading.contextFree input.units) database.root),
        .ok metrics'⟩ := by
  unfold scanWithoutAssertionsDispatch
  by_cases hzero : budget = 0
  · rw [if_pos hzero, scanWithoutAssertionsNfa_eq hwf input hstarts, Delivery.mk_ok_bind]
    exact ⟨metrics, by simp⟩
  · rw [if_neg hzero]
    obtain ⟨scan, -, hscan⟩ := scanWithoutAssertionsCached_eq hwf (Nat.one_le_iff_ne_zero.mpr hzero)
      input hstarts metrics
    exact ⟨_, hscan⟩

end Loops

/-- The cache never changes results. A cached scan returns and delivers the events of the exact
engine; the machine reaches its last moment; and at every moment the cache is within its budget,
its sets are sorted and distinct, and every known entry is the true transition. -/
theorem cached_scan_exact {database : PatternDatabase} (hwf : database.WellFormed)
    (input : Utf16Text) {budget : ℕ} (hbudget : 1 ≤ budget) {starts : List ℕ}
    (hstarts : ∀ start ∈ starts, start ≤ usizeMax) (metrics : ScanStats) :
    (∃ scan,
      scanWithoutAssertionsCached database input budget starts metrics =
        ⟨(scanWithoutAssertionsNfa database input starts).events,
          .ok { scan.metrics with cacheStates := scan.cache.states.length }⟩ ∧
      CachedMoment.Reachable database input.units budget starts metrics
        ⟨.idle, [], (scanWithoutAssertionsNfa database input starts).events, scan⟩) ∧
    ∀ moment, CachedMoment.Reachable database input.units budget starts metrics moment →
      moment.scan.cache.states.length ≤ budget ∧
      (∀ set ∈ moment.scan.cache.sets, set.Pairwise (· < ·)) ∧
      moment.scan.cache.sets.Nodup ∧
      ∀ state ∈ moment.scan.cache.states, ∀ symbol,
        state.transition symbol ≠ unknownTransition →
        (state.transition symbol = deadTransition ↔
          database.Successors state.nfaStates symbol = ∅) ∧
        (∀ (id : ℕ) (set : List StateId), moment.scan.cache.sets[id]? = some set →
          (state.transition symbol = id ↔
            ∀ s, s ∈ set ↔ s ∈ database.Successors state.nfaStates symbol)) ∧
        (state.transition symbol = fallbackTransition →
          (database.Successors state.nfaStates symbol).Nonempty ∧
            ∀ set ∈ moment.scan.cache.sets,
              ¬ ∀ s, s ∈ set ↔ s ∈ database.Successors state.nfaStates symbol) ∧
        (state.transition symbol = deadTransition ∨
          state.transition symbol = fallbackTransition ∨
            state.transition symbol < moment.scan.cache.states.length) := by
  constructor
  · obtain ⟨scan, hrun, hscan⟩ := scanWithoutAssertionsCached_eq hwf hbudget input hstarts metrics
    rw [scanWithoutAssertionsNfa_eq hwf input hstarts]
    exact ⟨scan, hscan, hrun⟩
  · intro moment hmoment
    -- every reachable moment is sound, and the rest is the invariant of its cache
    have hcached := (CachedMoment.sound_of_run hwf
      (CachedMoment.sound_new hwf hbudget input.units starts metrics) hmoment).cached
    have hinvariant := hcached.invariant
    refine ⟨?_, hinvariant.sorted, hinvariant.distinct, fun state hstate symbol hknown => ?_⟩
    · have hle := hinvariant.length_le_budget
      rw [hcached.budget_eq] at hle
      exact hle
    · exact hinvariant.entry_iff hstate hknown

/-- A cache of one state, on starts that repeat. -/
theorem cached_scan_exact_privateLoop : ∃ database, compile [privateLoop] = .ok database ∧
    (scanWithoutAssertionsCached database textAb 1 [0, 1, 0] {}).events =
      (scanWithoutAssertionsNfa database textAb [0, 1, 0]).events := by
  have hcompile : ∃ database, compile [privateLoop] = .ok database := ⟨_, rfl⟩
  obtain ⟨database, hdatabase⟩ := hcompile
  obtain ⟨scan, hscan, -⟩ := (@cached_scan_exact database (compile_wellFormed hdatabase) textAb 1
    (le_refl 1) [0, 1, 0] (by decide) {}).1
  exact ⟨database, hdatabase, by rw [hscan]⟩

end Rustmatch

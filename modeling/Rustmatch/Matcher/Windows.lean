import Rustmatch.CohortViews.Scans
import Rustmatch.Cohort.Bounds
import Rustmatch.Hir.Locality
import Rustmatch.Matcher.Order

/-!
# Scanning a text in parts

A long text can be cut into parts that are scanned one by one. When no pattern consumes a line feed,
a block of lines is scanned on its own; when every pattern has a greatest length, a chunk is scanned
with one unit before it and that many units behind it. Both are windows of the text, and a pattern
has the same events in a window as in the text.

## Main definitions

* `Match.shift`: an event at a later place;
* `eventsBetween`: the events with a start in a range.

## Main results

* `HirPattern.eventAt_window`: the event of a start, in a window and in the text;
* `lines_are_scanned_alone`: blocks of lines;
* `chunks_are_scanned_with_overlap`: chunks.
-/

namespace Rustmatch

/-- The same event in a text with so many units in front. -/
def Match.shift (offset : ℕ) (event : Match) : Match :=
  ⟨event.patternId, ⟨offset + event.span.start, offset + event.span.stop⟩⟩

/-- The events that start in a range, in their order. -/
def eventsBetween (low high : ℕ) (events : List Match) : List Match :=
  events.filter fun event => low ≤ event.span.start ∧ event.span.start < high

/-! ### The event of a start -/

namespace HirPattern

variable (p : HirPattern) {text window input : List UInt16} {offset low high start : ℕ}

/-- Accepted ends lie behind their start, inside the text. -/
theorem acceptedEnds_bounded {stop : ℕ}
    (h : stop ∈ p.acceptedEnds (Reading.contextual input) start) :
    start < stop ∧ stop ≤ input.length := by
  obtain ⟨hlt, phase, hwalk⟩ := mem_acceptedEnds_iff.mp h
  obtain hstays | ⟨-, hend, -⟩ := (Hir.runs_advance p.expression).1 _ _ hwalk
  · exact absurd (Prod.mk.inj hstays).1 (Nat.ne_of_gt hlt)
  · exact ⟨hlt, hend⟩

/-- Inside a window the accepted ends are those of the text. -/
theorem mem_acceptedEnds_window (h : Window text window offset low high) (hlow : low ≤ start)
    {stop : ℕ} (hhigh : stop ≤ high) :
    offset + stop ∈ p.acceptedEnds (Reading.contextual text) (offset + start) ↔
      stop ∈ p.acceptedEnds (Reading.contextual window) start := by
  have hwalk : ∀ phase, p.expression.walk (Reading.contextual text) (offset + start, false)
      (offset + stop, phase) ↔
        p.expression.walk (Reading.contextual window) (start, false) (stop, phase) :=
    fun phase => @Window.walk_iff _ _ _ _ _ h p.expression (start, false) (stop, phase) hlow hhigh
  simp only [mem_acceptedEnds_iff, hwalk, Nat.add_lt_add_iff_left]

/-- A pattern whose runs stay inside a window has the same event there as in the text. -/
theorem eventAt_window (h : Window text window offset low high) (hlow : low ≤ start)
    (htext : ∀ stop ∈ p.acceptedEnds (Reading.contextual text) (offset + start),
      stop ≤ offset + high)
    (hwindow : ∀ stop ∈ p.acceptedEnds (Reading.contextual window) start, stop ≤ high) :
    p.eventAt text (offset + start) = (p.eventAt window start).map (Match.shift offset) := by
  have hbounded : BddAbove (p.acceptedEnds (Reading.contextual window) start) :=
    ⟨high, fun stop hstop => hwindow stop hstop⟩
  -- every end in the text is the image of an end in the window
  have hends : ∀ stop ∈ p.acceptedEnds (Reading.contextual text) (offset + start),
      ∃ stop' ∈ p.acceptedEnds (Reading.contextual window) start, stop = offset + stop' := by
    intro stop hstop
    have hafter := (p.acceptedEnds_bounded hstop).1
    have hle := htext stop hstop
    obtain ⟨stop', rfl⟩ := Nat.exists_eq_add_of_le (show offset ≤ stop by omega)
    exact ⟨stop', (p.mem_acceptedEnds_window h hlow (by omega)).mp hstop, rfl⟩
  unfold eventAt
  cases hlongest : longestEnd (p.acceptedEnds (Reading.contextual window) start) with
  | none =>
    have hnone : p.acceptedEnds (Reading.contextual text) (offset + start) = ∅ := by
      refine Set.eq_empty_of_forall_notMem fun stop hstop => ?_
      obtain ⟨stop', hstop', -⟩ := hends stop hstop
      rw [longestEnd_eq_none_iff.mp hlongest] at hstop'
      exact hstop'
    rw [hnone, longestEnd_empty]
    rfl
  | some stop =>
    obtain ⟨hstop, hgreatest⟩ := (longestEnd_eq_some_iff hbounded).mp hlongest
    have htextEnd : IsGreatest (p.acceptedEnds (Reading.contextual text) (offset + start))
        (offset + stop) := by
      refine ⟨(p.mem_acceptedEnds_window h hlow (hwindow stop hstop)).mpr hstop, ?_⟩
      intro other hother
      obtain ⟨stop', hstop', rfl⟩ := hends other hother
      exact Nat.add_le_add_left (hgreatest hstop') offset
    rw [longestEnd_of_isGreatest htextEnd]
    rfl

end HirPattern

/-- The event of a start ends at the greatest accepted end. -/
theorem HirPattern.isGreatest_of_eventAt {p : HirPattern} {input : List UInt16} {start : ℕ}
    {event : Match} (h : p.eventAt input start = some event) :
    IsGreatest (p.acceptedEnds (Reading.contextual input) start) event.span.stop := by
  have hbounded : BddAbove (p.acceptedEnds (Reading.contextual input) start) :=
    ⟨input.length, fun _ hstop => (p.acceptedEnds_bounded hstop).2⟩
  obtain ⟨stop, hstop, rfl⟩ := Option.map_eq_some_iff.mp h
  exact (longestEnd_eq_some_iff hbounded).mp hstop

/-- Every event of a scan is that of a registered pattern at its start. -/
theorem MatcherBuilder.exists_eventAt_of_mem_scan {builder : MatcherBuilder} {matcher : Matcher}
    {host : Host} (h : builder.build = .ok matcher) {input : Utf16Text} {event : Match}
    (hevent : event ∈ (matcher.scan host input).events) :
    ∃ p ∈ builder.patterns, event.patternId = p.patternId ∧
      p.eventAt input.units event.span.start = some event := by
  obtain ⟨groups, hbuilt⟩ := build_spec h
  obtain heq | ⟨-, heq⟩ := matcher.scan_cases hbuilt.exists_compiledFrom host input
  · have hperm := (flatMap_events_perm hbuilt.compiled input.units).trans
      (hbuilt.perm.flatMap_right _)
    rw [heq] at hevent
    obtain ⟨p, hp, hevent⟩ := List.mem_flatMap.mp (hperm.mem_iff.mp hevent)
    obtain ⟨start, -, hevent⟩ := List.mem_filterMap.mp hevent
    obtain ⟨hid, hstart⟩ := Prod.mk.inj (HirPattern.key_of_eventAt hevent)
    refine ⟨p, hp, hid, ?_⟩
    rw [hstart]
    exact hevent
  · rw [heq] at hevent
    exact absurd hevent List.not_mem_nil

/-! ### The events of a range -/

/-- The numbers of a range that lie in a smaller one. -/
theorem filter_range_between {low high n : ℕ} (hlow : low ≤ high) (hhigh : high ≤ n) :
    ((List.range n).filter fun start => low ≤ start ∧ start < high) =
      List.range' low (high - low) := by
  obtain ⟨size, rfl⟩ := Nat.exists_eq_add_of_le hlow
  obtain ⟨rest, rfl⟩ := Nat.exists_eq_add_of_le hhigh
  have hbefore : ((List.range low).filter fun start => low ≤ start ∧ start < low + size) = [] := by
    simp only [List.filter_eq_nil_iff, List.mem_range, decide_eq_true_eq]
    omega
  have hinside : (((List.range size).map (low + ·)).filter
      fun start => low ≤ start ∧ start < low + size) = (List.range size).map (low + ·) := by
    simp only [List.filter_eq_self, List.mem_map, List.mem_range, decide_eq_true_eq]
    omega
  have hbehind : (((List.range rest).map (low + size + ·)).filter
      fun start => low ≤ start ∧ start < low + size) = [] := by
    simp only [List.filter_eq_nil_iff, List.mem_map, List.mem_range, decide_eq_true_eq]
    omega
  rw [List.range_add, List.range_add, List.filter_append, List.filter_append, hbefore, hinside,
    hbehind, List.nil_append, List.append_nil, Nat.add_sub_cancel_left, List.range'_eq_map_range]

/-- Leaving out rows leaves out what they map to. -/
theorem flatMap_filter_eq {α β : Type} (rows : List α) (test : α → Bool) (f : α → List β) :
    (rows.filter test).flatMap f = rows.flatMap fun row => if test row then f row else [] := by
  induction rows with
  | nil => rfl
  | cons row rows ih =>
    rw [List.filter_cons, List.flatMap_cons, ← ih]
    split
    · rw [List.flatMap_cons]
    · rw [List.nil_append]

/-- The events of a group with a start in a range. -/
theorem eventsBetween_groupEvents {input : List UInt16} {low high : ℕ} (hlow : low ≤ high)
    (hhigh : high ≤ input.length) (group : List HirPattern) :
    eventsBetween low high (groupEvents input group) =
      (List.range' low (high - low)).flatMap fun start =>
        group.filterMap fun p => p.eventAt input start := by
  have hstart : ∀ start, eventsBetween low high (group.filterMap fun p => p.eventAt input start) =
      if low ≤ start ∧ start < high then group.filterMap fun p => p.eventAt input start
      else [] := by
    intro start
    -- all these events have that start
    have hevents : ∀ event ∈ group.filterMap fun p => p.eventAt input start,
        event.span.start = start := by
      intro event hevent
      obtain ⟨p, -, hp⟩ := List.mem_filterMap.mp hevent
      exact (Prod.mk.inj (HirPattern.key_of_eventAt hp)).2
    unfold eventsBetween
    split
    next hin =>
      refine List.filter_eq_self.mpr fun event hevent => ?_
      rw [hevents event hevent]
      exact decide_eq_true hin
    next hout =>
      refine List.filter_eq_nil_iff.mpr fun event hevent => ?_
      rw [hevents event hevent, decide_eq_true_eq]
      exact hout
  have hrange : ((List.range input.length).filter fun start => low ≤ start ∧ start < high) =
      List.range' low (high - low) := filter_range_between hlow hhigh
  unfold groupEvents
  rw [eventsBetween, List.filter_flatMap, ← hrange, flatMap_filter_eq]
  refine List.flatMap_congr fun start _ => (hstart start).trans ?_
  simp only [decide_eq_true_eq]

/-- Where the events of each start are moved, those of a range are. -/
theorem eventsBetween_flatMap_groupEvents {text window : List UInt16} {offset low high : ℕ}
    (hlow : low ≤ high) (hwindow : high ≤ window.length) (htext : offset + high ≤ text.length)
    {groups : List (List HirPattern)}
    (h : ∀ group ∈ groups, ∀ p ∈ group, ∀ start, low ≤ start → start < high →
      p.eventAt text (offset + start) = (p.eventAt window start).map (Match.shift offset)) :
    eventsBetween (offset + low) (offset + high) (groups.flatMap (groupEvents text)) =
      (eventsBetween low high (groups.flatMap (groupEvents window))).map (Match.shift offset) := by
  unfold eventsBetween
  rw [List.filter_flatMap, List.filter_flatMap, List.map_flatMap]
  refine List.flatMap_congr fun group hgroup => ?_
  have hleft := eventsBetween_groupEvents (Nat.add_le_add_left hlow offset) htext group
  have hright := eventsBetween_groupEvents hlow hwindow group
  unfold eventsBetween at hleft hright
  rw [hleft, hright, Nat.add_sub_add_left, ← List.map_add_range', List.flatMap_map,
    List.map_flatMap]
  refine List.flatMap_congr fun start hstart => ?_
  rw [List.mem_range'_1] at hstart
  rw [List.map_filterMap]
  exact List.filterMap_congr fun p hp => h group hgroup p hp start hstart.1 (by omega)

/-! ### Blocks of lines -/

section Scans

variable {builder : MatcherBuilder} {matcher : Matcher} {host host' : Host}

/-- A block of lines is a window of the text. -/
theorem window_of_lines {before block after : List UInt16}
    (hbefore : before = [] ∨ before.getLast? = some 0x0a)
    (hafter : after = [] ∨ after.head? = some 0x0a) :
    Window (before ++ block ++ after) block before.length 0 block.length where
  high_le := le_refl _
  offset_add_high_le := by simp
  unit p _ hp := by
    rw [List.append_assoc, List.getElem?_append_right (Nat.le_add_right _ _),
      Nat.add_sub_cancel_left, List.getElem?_append_left hp]
  before := by
    show unitBefore _ before.length = 0x0a
    unfold unitBefore
    split
    next => rfl
    next hne =>
      obtain rfl | hlast := hbefore
      · exact absurd rfl hne
      · rw [List.getLast?_eq_getElem?] at hlast
        rw [List.getD_eq_getElem?_getD, List.append_assoc,
          List.getElem?_append_left (by omega), hlast]
        rfl
  after := by
    have hend : unitAfter block block.length = 0x0a := by simp [unitAfter]
    have hbehind : unitAfter (before ++ block ++ after) (before.length + block.length) =
        unitAfter after 0 := by
      unfold unitAfter
      rw [List.getD_eq_getElem?_getD, List.getD_eq_getElem?_getD, ← List.length_append,
        List.getElem?_append_right (le_refl _), Nat.sub_self]
    rw [hend, hbehind, unitAfter, List.getD_eq_getElem?_getD, ← List.head?_eq_getElem?]
    obtain rfl | hfirst := hafter
    · rfl
    · rw [hfirst]
      rfl

/-- A pattern that avoids line feeds consumes none. -/
theorem HirPattern.ne_lineFeed_of_acceptedEnds {p : HirPattern} {input : List UInt16}
    {start stop : ℕ} (havoids : p.expression.avoids 0x0a = true)
    (h : stop ∈ p.acceptedEnds (Reading.contextual input) start) :
    ∀ position, start ≤ position → position < stop → input[position]? ≠ some 0x0a := by
  intro position hlow hhigh hunit
  obtain ⟨-, phase, hwalk⟩ := HirPattern.mem_acceptedEnds_iff.mp h
  have haccepts : ∀ l ∈ p.expression.labels, ∀ unit, l.accepts unit = true → unit ≠ 0x0a := by
    rintro l hl unit haccepted rfl
    have hnot := List.all_eq_true.mp havoids l hl
    rw [haccepted] at hnot
    cases hnot
  obtain ⟨unit, hconsumed, hne⟩ := (Hir.walk_le_through haccepts _ _ hwalk).2 position hlow hhigh
  exact hne (Option.some.inj (hconsumed.symm.trans hunit))

/-- When no pattern consumes a line feed, matches stay inside lines, and the events of a block of
lines are those of a scan of the block alone, in the same order and at the place of the block:
neither the lines before it nor those behind it make a difference. -/
theorem lines_are_scanned_alone (h : builder.build = .ok matcher)
    (havoids : ∀ p ∈ builder.patterns, p.expression.avoids 0x0a = true) (text block : Utf16Text)
    {before after : List UInt16} (htext : text.units = before ++ block.units ++ after)
    (hbefore : before = [] ∨ before.getLast? = some 0x0a)
    (hafter : after = [] ∨ after.head? = some 0x0a)
    (hthreads : (matcher.scan host text).ending ≠ .returned (.error .workerUnavailable))
    (hthreads' : (matcher.scan host' block).ending ≠ .returned (.error .workerUnavailable)) :
    eventsBetween before.length (before.length + block.units.length)
        (matcher.scan host text).events =
      (matcher.scan host' block).events.map (Match.shift before.length) ∧
    ∀ event ∈ (matcher.scan host text).events, ∀ position, event.span.start ≤ position →
      position < event.span.stop → text.units[position]? ≠ some 0x0a := by
  have hperm := MatcherBuilder.flatten_groups_perm h
  have hwindow : Window text.units block.units before.length 0 block.units.length :=
    htext ▸ window_of_lines hbefore hafter
  constructor
  · -- no run leaves the block: behind it there is the end of the text or a line feed
    have hinside : ∀ p ∈ builder.patterns, ∀ start, start < block.units.length →
        ∀ stop ∈ p.acceptedEnds (Reading.contextual text.units) (before.length + start),
          stop ≤ before.length + block.units.length := by
      intro p hp start hstart stop hstop
      by_contra hlong
      have hend := (p.acceptedEnds_bounded hstop).2
      have hunit := HirPattern.ne_lineFeed_of_acceptedEnds (havoids p hp) hstop
        (before.length + block.units.length) (by omega) (by omega)
      rw [htext, ← List.length_append, List.getElem?_append_right (le_refl _), Nat.sub_self,
        ← List.head?_eq_getElem?] at hunit
      obtain rfl | hfirst := hafter
      · rw [htext, List.append_nil, List.length_append] at hend
        omega
      · exact hunit hfirst
    have hevents := @eventsBetween_flatMap_groupEvents text.units block.units before.length 0
      block.units.length (Nat.zero_le _) (le_refl _) hwindow.offset_add_high_le builder.groups
      (by
        intro group hgroup p hp start hlow hhigh
        have hmem : p ∈ builder.patterns :=
          hperm.mem_iff.mp (List.mem_flatten_of_mem hgroup hp)
        exact p.eventAt_window hwindow hlow (hinside p hmem start hhigh)
          fun stop hstop => (p.acceptedEnds_bounded hstop).2)
    rw [← MatcherBuilder.scan_events_eq h text hthreads,
      ← MatcherBuilder.scan_events_eq h block hthreads'] at hevents
    refine hevents.trans (congrArg _ (List.filter_eq_self.mpr fun event hevent => ?_))
    obtain ⟨p, -, -, hat⟩ := MatcherBuilder.exists_eventAt_of_mem_scan h hevent
    obtain ⟨hlt, hle⟩ := p.acceptedEnds_bounded (HirPattern.isGreatest_of_eventAt hat).1
    exact decide_eq_true ⟨Nat.zero_le _, Nat.lt_of_lt_of_le hlt hle⟩
  · intro event hevent
    obtain ⟨p, hp, -, hat⟩ := MatcherBuilder.exists_eventAt_of_mem_scan h hevent
    exact HirPattern.ne_lineFeed_of_acceptedEnds (havoids p hp)
      (HirPattern.isGreatest_of_eventAt hat).1

/-- The second of two equal lines. -/
theorem lines_are_scanned_alone_mixedBuilder : ∃ matcher, mixedBuilder.build = .ok matcher ∧
    eventsBetween 3 5 (matcher.scan readyHost
        ⟨[0x61, 0x62, 0x0a, 0x61, 0x62], by decide⟩).events =
      (matcher.scan readyHost textAb).events.map (Match.shift 3) := by
  have hbuild : ∃ matcher, mixedBuilder.build = .ok matcher := ⟨_, rfl⟩
  obtain ⟨matcher, h⟩ := hbuild
  exact ⟨matcher, h, (lines_are_scanned_alone h (by decide) _ textAb
    (show _ = [0x61, 0x62, 0x0a] ++ textAb.units ++ [] from rfl) (Or.inr rfl) (Or.inl rfl)
    (MatcherBuilder.scan_ne_workerUnavailable h readyHost_starts _)
    (MatcherBuilder.scan_ne_workerUnavailable h readyHost_starts textAb)).1⟩

/-! ### Chunks -/

/-- A chunk with the unit before it and some units behind it is a window of the text. -/
theorem window_of_chunk {text : List UInt16} {low high : ℕ} (hlow : low < high)
    (hhigh : high ≤ text.length) (most : ℕ) :
    Window text ((text.drop (low - 1)).take (high - (low - 1) + most)) (low - 1) (low - (low - 1))
      (min (high - (low - 1) + most - 1) (text.length - (low - 1))) := by
  have hunit : ∀ p, p < high - (low - 1) + most →
      ((text.drop (low - 1)).take (high - (low - 1) + most))[p]? = text[low - 1 + p]? := by
    intro p hp
    rw [List.getElem?_take_of_lt hp, List.getElem?_drop]
  constructor
  · rw [List.length_take, List.length_drop]
    omega
  · omega
  · intro p _ hp
    exact (hunit p (by omega)).symm
  · -- at the start of the text there is nothing before the chunk
    cases low with
    | zero => rfl
    | succ low =>
      have hfirst := hunit 0 (by omega)
      rw [show low + 1 - 1 + (low + 1 - (low + 1 - 1)) = low + 1 from by omega,
        show low + 1 - (low + 1 - 1) = 1 from by omega]
      simp only [unitBefore, Nat.add_eq_zero_iff, Nat.one_ne_zero, and_false, if_false,
        Nat.add_sub_cancel, Nat.sub_self, List.getD_eq_getElem?_getD] at hfirst ⊢
      rw [hfirst, Nat.add_zero]
  · unfold unitAfter
    rw [List.getD_eq_getElem?_getD, List.getD_eq_getElem?_getD]
    by_cases hshort : high - (low - 1) + most - 1 < text.length - (low - 1)
    · rw [Nat.min_eq_left (Nat.le_of_lt hshort), hunit _ (by omega)]
    · -- both end here
      rw [Nat.min_eq_right (Nat.le_of_not_lt hshort), List.getElem?_eq_none (by omega),
        List.getElem?_eq_none (by rw [List.length_take, List.length_drop]; omega)]

/-- When every pattern has a greatest length, a chunk can be scanned with the unit before it and as
many units behind it: what starts in the chunk is found as in the whole text, in the same order. -/
theorem chunks_are_scanned_with_overlap (h : builder.build = .ok matcher) {most : ℕ}
    (hlive : ∀ p ∈ builder.patterns, p.expression.live = true)
    (hmost : ∀ p ∈ builder.patterns, ∃ n ≤ most, p.expression.maximumConsumed = .finite n)
    (text window : Utf16Text) {low high : ℕ} (hlow : low ≤ high)
    (hhigh : high ≤ text.units.length)
    (hwindow : window.units = (text.units.drop (low - 1)).take (high - (low - 1) + most))
    (hthreads : (matcher.scan host text).ending ≠ .returned (.error .workerUnavailable))
    (hthreads' : (matcher.scan host' window).ending ≠ .returned (.error .workerUnavailable)) :
    eventsBetween low high (matcher.scan host text).events =
      (eventsBetween (low - (low - 1)) (high - (low - 1))
        (matcher.scan host' window).events).map (Match.shift (low - 1)) := by
  have hperm := MatcherBuilder.flatten_groups_perm h
  have hlength : window.units.length =
      min (high - (low - 1) + most) (text.units.length - (low - 1)) := by
    rw [hwindow, List.length_take, List.length_drop]
  -- an accepted end is at most the greatest length away from its start
  have hspan : ∀ p ∈ builder.patterns, ∀ (input : Utf16Text) (start : ℕ),
      ∀ stop ∈ p.acceptedEnds (Reading.contextual input.units) start,
        stop ≤ start + most ∧ stop ≤ input.units.length := by
    intro p hp input start stop hstop
    obtain ⟨n, hn, hfinite⟩ := hmost p hp
    obtain ⟨-, phase, hwalk⟩ := HirPattern.mem_acceptedEnds_iff.mp hstop
    have husize : input.units.length ≤ usizeMax := input.length_le.trans (by decide)
    have hle := ((Hir.runs_le_spans husize (hlive p hp) hfinite).1 _ _ hwalk).2
    exact ⟨hle.trans (Nat.add_le_add_left hn start), (p.acceptedEnds_bounded hstop).2⟩
  have hevents := @eventsBetween_flatMap_groupEvents text.units window.units (low - 1)
    (low - (low - 1)) (high - (low - 1)) (by omega) (by omega) (by omega) builder.groups
    (by
      intro group hgroup p hp start hstart hstop
      have hmem : p ∈ builder.patterns :=
        hperm.mem_iff.mp (List.mem_flatten_of_mem hgroup hp)
      have hpart := window_of_chunk (show low < high by omega) hhigh most
      rw [← hwindow] at hpart
      refine p.eventAt_window hpart hstart (fun stop hend => ?_) fun stop hend => ?_
      · have hbounds := hspan p hmem text _ stop hend
        omega
      · have hbounds := hspan p hmem window _ stop hend
        omega)
  rw [← MatcherBuilder.scan_events_eq h text hthreads,
    ← MatcherBuilder.scan_events_eq h window hthreads', Nat.add_sub_cancel' (Nat.sub_le _ _),
    Nat.add_sub_cancel' (by omega)] at hevents
  exact hevents

/-- A builder whose one pattern matches one unit. -/
def boundaryBuilder : MatcherBuilder :=
  { MatcherBuilder.new with
    patternIds := {⟨2⟩}
    patterns := [boundaryPattern]
    patternIds_eq := by decide
    nodup := by decide }

/-- A chunk with a unit of context on both sides. -/
theorem chunks_are_scanned_with_overlap_boundaryBuilder : ∃ matcher,
    boundaryBuilder.build = .ok matcher ∧
    eventsBetween 1 2 (matcher.scan readyHost ⟨[0x61, 0x62, 0x62, 0x62], by decide⟩).events =
      (eventsBetween 1 2 (matcher.scan readyHost ⟨[0x61, 0x62, 0x62], by decide⟩).events).map
        (Match.shift 0) := by
  have hbuild : ∃ matcher, boundaryBuilder.build = .ok matcher := ⟨_, rfl⟩
  obtain ⟨matcher, h⟩ := hbuild
  have hmost : ∀ p ∈ boundaryBuilder.patterns, ∃ n ≤ 1, p.expression.maximumConsumed = .finite n :=
    List.forall_mem_singleton.mpr ⟨1, le_refl 1, rfl⟩
  exact ⟨matcher, h, chunks_are_scanned_with_overlap h (by decide) hmost _ _ (by decide)
    (by decide) rfl (MatcherBuilder.scan_ne_workerUnavailable h readyHost_starts _)
    (MatcherBuilder.scan_ne_workerUnavailable h readyHost_starts _)⟩

end Scans

end Rustmatch

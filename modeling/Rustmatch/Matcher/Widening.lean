import Rustmatch.Hir.Widening
import Rustmatch.Matcher.Reports

/-!
# Matchers with rewritten patterns

The rules for rewriting expressions carry over to whole matchers: patterns may be rewritten one by
one, registered in another order and joined by others, and the two matchers may differ in workers
and cohorts. Where the patterns match no less by the rules, every event is still delivered or has
become longer, also where loops are not kept apart. Where they match no less in both directions, the
events are the same.

## Main definitions

* `MatcherBuilder.Widens`: every pattern has a counterpart that matches no less.

## Main results

* `widened_patterns_keep_matches`: no match is lost;
* `rewritten_patterns_agree`: no match is gained either.
-/

open Relation

namespace Rustmatch

/-- A wider expression accepts the same ends and possibly more. -/
theorem HirPattern.acceptedEnds_subset {p q : HirPattern} (h : p.expression.Widens q.expression)
    (R : Reading) (start : ℕ) : p.acceptedEnds R start ⊆ q.acceptedEnds R start := by
  intro stop hstop
  obtain ⟨hlt, phase, hwalk⟩ := HirPattern.mem_acceptedEnds_iff.mp hstop
  exact HirPattern.mem_acceptedEnds_iff.mpr ⟨hlt, phase, (h.runsWithin R).walk_le _ _ hwalk⟩

/-- Expressions that are each as wide as the other have the same events. -/
theorem HirPattern.events_eq {p q : HirPattern} (hid : p.patternId = q.patternId)
    (h : p.expression.Widens q.expression) (h' : q.expression.Widens p.expression)
    (input : List UInt16) : p.events input = q.events input := by
  have hends : p.acceptedEnds (Reading.contextual input) =
      q.acceptedEnds (Reading.contextual input) :=
    funext fun start => (acceptedEnds_subset h _ start).antisymm (acceptedEnds_subset h' _ start)
  have hevent : p.eventAt input = q.eventAt input := by
    funext start
    rw [eventAt, eventAt, hends, hid]
  rw [events, events, hevent]

namespace MatcherBuilder

/-- Every pattern has a counterpart of its identity that matches no less, by the rules. -/
def Widens (builder builder' : MatcherBuilder) : Prop :=
  ∀ p ∈ builder.patterns, ∃ q ∈ builder'.patterns,
    p.patternId = q.patternId ∧ p.expression.Widens q.expression

section Counterparts

variable {builder builder' : MatcherBuilder} {matcher : Matcher}

/-- An identity has one pattern. -/
theorem eq_of_patternId (builder : MatcherBuilder) {p q : HirPattern} (hp : p ∈ builder.patterns)
    (hq : q ∈ builder.patterns) (h : p.patternId = q.patternId) : p = q :=
  List.inj_on_of_nodup_map builder.nodup hp hq h

/-- With counterparts in both directions, every pattern has one with the same events. -/
theorem Widens.exists_events_eq (h : builder.Widens builder') (h' : builder'.Widens builder)
    {p : HirPattern} (hp : p ∈ builder.patterns) (input : List UInt16) :
    ∃ q ∈ builder'.patterns, p.events input = q.events input := by
  obtain ⟨q, hq, hid, hwidens⟩ := h p hp
  obtain ⟨p', hp', hid', hwidens'⟩ := h' q hq
  -- the way back leads to the pattern itself
  obtain rfl := builder.eq_of_patternId hp hp' (hid.trans hid')
  exact ⟨q, hq, HirPattern.events_eq hid hwidens hwidens' input⟩

/-- With counterparts in both directions, the patterns have the same events. -/
theorem Widens.flatMap_events_subset (h : builder.Widens builder') (h' : builder'.Widens builder)
    (input : List UInt16) : builder.patterns.flatMap (fun p => p.events input) ⊆
      builder'.patterns.flatMap fun p => p.events input := by
  intro event hevent
  obtain ⟨p, hp, hevent⟩ := List.mem_flatMap.mp hevent
  obtain ⟨q, hq, hevents⟩ := h.exists_events_eq h' hp input
  exact List.mem_flatMap.mpr ⟨q, hq, hevents ▸ hevent⟩

/-- The events of the patterns are different. -/
theorem nodup_events (builder : MatcherBuilder) (input : List UInt16) :
    (builder.patterns.flatMap fun p => p.events input).Nodup :=
  (nodup_flatMap_events builder.nodup input).of_map _

/-- A registered pattern has an event for every start from which it accepts an end, and the event
reaches at least as far. -/
theorem exists_event (h : builder.build = .ok matcher) {p : HirPattern}
    (hp : p ∈ builder.patterns) {input : List UInt16} {start stop : ℕ}
    (hstop : stop ∈ p.acceptedEnds (Reading.contextual input) start) :
    ∃ event ∈ p.events input, event.key = (p.patternId, start) ∧ stop ≤ event.span.stop := by
  obtain ⟨groups, hbuilt⟩ := build_spec h
  obtain ⟨partition, patterns, hpartition, hmem⟩ :=
    exists_compiledFrom_of_mem hbuilt.compiled (hbuilt.perm.mem_iff.mpr hp)
  obtain ⟨event, hevent, hid, hstart, hgreatest⟩ := hpartition.exists_event hmem hstop
  exact ⟨event, hevent, Prod.ext hid hstart, hgreatest.2 hstop⟩

/-- The end of an event of a registered pattern is an accepted one. -/
theorem stop_mem_acceptedEnds (h : builder.build = .ok matcher) {p : HirPattern}
    (hp : p ∈ builder.patterns) {input : List UInt16} {event : Match}
    (hevent : event ∈ p.events input) :
    event.span.stop ∈ p.acceptedEnds (Reading.contextual input) event.span.start := by
  obtain ⟨groups, hbuilt⟩ := build_spec h
  obtain ⟨partition, patterns, hpartition, hmem⟩ :=
    exists_compiledFrom_of_mem hbuilt.compiled (hbuilt.perm.mem_iff.mpr hp)
  obtain ⟨start, -, hevent⟩ := List.mem_filterMap.mp hevent
  obtain ⟨stop, hstop, rfl⟩ := Option.map_eq_some_iff.mp hevent
  obtain ⟨ordinal, hordinal⟩ := List.mem_iff_getElem?.mp hmem
  have hbounded : BddAbove (p.acceptedEnds (Reading.contextual input) start) := by
    rw [hpartition.acceptedEnds_eq hordinal]
    exact bddAbove_ends ordinal
  exact ((longestEnd_eq_some_iff hbounded).mp hstop).1

end Counterparts

end MatcherBuilder

section Rewriting

variable {builder builder' : MatcherBuilder} {matcher matcher' : Matcher} {host host' : Host}

/-- A matcher whose patterns match no less, by the rules, delivers for every event of the other one
an event of the same pattern and start that reaches at least as far. -/
theorem widened_patterns_keep_matches (h : builder.build = .ok matcher)
    (h' : builder'.build = .ok matcher') (hwidens : builder.Widens builder') (input : Utf16Text)
    (hthreads : (matcher.scan host input).ending ≠ .returned (.error .workerUnavailable))
    (hthreads' : (matcher'.scan host' input).ending ≠ .returned (.error .workerUnavailable)) :
    ∀ event ∈ (matcher.scan host input).events, ∃ event' ∈ (matcher'.scan host' input).events,
      event'.patternId = event.patternId ∧ event'.span.start = event.span.start ∧
        event.span.stop ≤ event'.span.stop := by
  intro event hevent
  obtain ⟨-, hperm⟩ := MatcherBuilder.scan_perm h input hthreads
  obtain ⟨-, hperm'⟩ := MatcherBuilder.scan_perm h' input hthreads'
  obtain ⟨p, hp, hevent⟩ := List.mem_flatMap.mp (hperm.mem_iff.mp hevent)
  obtain ⟨q, hq, hid, hpq⟩ := hwidens p hp
  have hstop := MatcherBuilder.stop_mem_acceptedEnds h hp hevent
  obtain ⟨event', hevent', hkey, hle⟩ :=
    MatcherBuilder.exists_event h' hq (HirPattern.acceptedEnds_subset hpq _ _ hstop)
  obtain ⟨hid', hstart'⟩ := Prod.mk.inj hkey
  refine ⟨event', hperm'.mem_iff.mpr (List.mem_flatMap.mpr ⟨q, hq, hevent'⟩), ?_, hstart', hle⟩
  rw [hid', ← hid, HirPattern.patternId_of_mem_events hevent]

/-- `a+b*` for `a+b`. -/
def widenedLoop : HirPattern :=
  HirPattern.new ⟨1⟩
    (.sequence [.repetition (.symbol 0x61) 1 none, .repetition (.symbol 0x62) 0 none])
    (.sequence (List.cons_ne_nil _ _) (by
      simp only [List.mem_cons, List.not_mem_nil, or_false, forall_eq_or_imp, forall_eq]
      exact ⟨.repetition 1 none (.symbol _), .repetition 0 none (.symbol _)⟩))

/-- A builder with a wider first pattern. -/
def widenedBuilder : MatcherBuilder :=
  { mixedBuilder with
    patterns := [widenedLoop, boundaryPattern]
    patternIds_eq := by decide
    nodup := by decide }

/-- The events of the patterns have counterparts. -/
theorem widened_patterns_keep_matches_widenedBuilder : ∃ matcher matcher',
    mixedBuilder.build = .ok matcher ∧ widenedBuilder.build = .ok matcher' ∧
    ∀ event ∈ (matcher.scan readyHost textAb).events,
      ∃ event' ∈ (matcher'.scan readyHost textAb).events, event'.patternId = event.patternId ∧
        event'.span.start = event.span.start ∧ event.span.stop ≤ event'.span.stop := by
  have hbuild : ∃ matcher, mixedBuilder.build = .ok matcher := ⟨_, rfl⟩
  have hbuild' : ∃ matcher, widenedBuilder.build = .ok matcher := ⟨_, rfl⟩
  obtain ⟨matcher, h⟩ := hbuild
  obtain ⟨matcher', h'⟩ := hbuild'
  have hloop : Hir.Widens (.symbol 0x62) (.repetition (.symbol 0x62) 0 none) :=
    (Hir.Widens.once _).trans (.repetition (.refl _) (Nat.zero_le 1) (by simp) (by simp))
  have hwidens : mixedBuilder.Widens widenedBuilder := by
    intro p hp
    obtain rfl | hp := List.mem_cons.mp hp
    · exact ⟨widenedLoop, List.mem_cons_self, rfl, Hir.Widens.item [_] [] hloop⟩
    · obtain rfl := List.mem_singleton.mp hp
      exact ⟨boundaryPattern, List.mem_cons_of_mem _ (List.mem_singleton_self _), rfl, .refl _⟩
  exact ⟨matcher, matcher', h, h', widened_patterns_keep_matches h h' hwidens textAb
    (MatcherBuilder.scan_ne_workerUnavailable h readyHost_starts textAb)
    (MatcherBuilder.scan_ne_workerUnavailable h' readyHost_starts textAb)⟩

/-- Matchers whose patterns match no less, by the rules, in both directions deliver the same events.
-/
theorem rewritten_patterns_agree (h : builder.build = .ok matcher)
    (h' : builder'.build = .ok matcher') (hwidens : builder.Widens builder')
    (hwidens' : builder'.Widens builder) (input : Utf16Text)
    (hthreads : (matcher.scan host input).ending ≠ .returned (.error .workerUnavailable))
    (hthreads' : (matcher'.scan host' input).ending ≠ .returned (.error .workerUnavailable)) :
    (matcher.scan host input).events.Perm (matcher'.scan host' input).events := by
  obtain ⟨-, hperm⟩ := MatcherBuilder.scan_perm h input hthreads
  obtain ⟨-, hperm'⟩ := MatcherBuilder.scan_perm h' input hthreads'
  have hsame : (builder.patterns.flatMap fun p => p.events input.units).Perm
      (builder'.patterns.flatMap fun p => p.events input.units) :=
    (List.perm_ext_iff_of_nodup (builder.nodup_events _) (builder'.nodup_events _)).mpr fun _ =>
      ⟨fun hevent => hwidens.flatMap_events_subset hwidens' _ hevent,
        fun hevent => hwidens'.flatMap_events_subset hwidens _ hevent⟩
  exact (hperm.trans hsame).trans hperm'.symm

/-- `aa*b` for `a+b`. -/
def unrolledLoop : HirPattern :=
  HirPattern.new ⟨1⟩ (.sequence [.symbol 0x61, .repetition (.symbol 0x61) 0 none, .symbol 0x62])
    (.sequence (List.cons_ne_nil _ _) (by
      simp only [List.mem_cons, List.not_mem_nil, or_false, forall_eq_or_imp, forall_eq]
      exact ⟨.symbol _, .repetition 0 none (.symbol _), .symbol _⟩))

/-- A builder with the patterns in another order, one of them unrolled. -/
def unrolledBuilder : MatcherBuilder :=
  { mixedBuilder with
    patterns := [boundaryPattern, unrolledLoop]
    patternIds_eq := by decide
    nodup := by decide }

/-- An unrolled pattern has the events of the rolled one. -/
theorem rewritten_patterns_agree_unrolledBuilder : ∃ matcher matcher',
    mixedBuilder.build = .ok matcher ∧ unrolledBuilder.build = .ok matcher' ∧
    (matcher.scan readyHost textAb).events.Perm (matcher'.scan readyHost textAb).events := by
  have hbuild : ∃ matcher, mixedBuilder.build = .ok matcher := ⟨_, rfl⟩
  have hbuild' : ∃ matcher, unrolledBuilder.build = .ok matcher := ⟨_, rfl⟩
  obtain ⟨matcher, h⟩ := hbuild
  obtain ⟨matcher', h'⟩ := hbuild'
  have hunroll : privateLoop.expression.Widens unrolledLoop.expression :=
    (Hir.Widens.item [] [_] (.unroll _ 0 none)).trans (.nested [] [_] (List.cons_ne_nil _ _))
  have hroll : unrolledLoop.expression.Widens privateLoop.expression :=
    (Hir.Widens.ofNested [] [_] (List.cons_ne_nil (Hir.symbol 0x61) [_])).trans
      (.item [] [_] (.ofUnrolled _ 0 none))
  have hwidens : mixedBuilder.Widens unrolledBuilder := by
    intro p hp
    obtain rfl | hp := List.mem_cons.mp hp
    · exact ⟨unrolledLoop, List.mem_cons_of_mem _ (List.mem_singleton_self _), rfl, hunroll⟩
    · obtain rfl := List.mem_singleton.mp hp
      exact ⟨boundaryPattern, List.mem_cons_self, rfl, .refl _⟩
  have hwidens' : unrolledBuilder.Widens mixedBuilder := by
    intro p hp
    obtain rfl | hp := List.mem_cons.mp hp
    · exact ⟨boundaryPattern, List.mem_cons_of_mem _ (List.mem_singleton_self _), rfl, .refl _⟩
    · obtain rfl := List.mem_singleton.mp hp
      exact ⟨privateLoop, List.mem_cons_self, rfl, hroll⟩
  exact ⟨matcher, matcher', h, h', rewritten_patterns_agree h h' hwidens hwidens' textAb
    (MatcherBuilder.scan_ne_workerUnavailable h readyHost_starts textAb)
    (MatcherBuilder.scan_ne_workerUnavailable h' readyHost_starts textAb)⟩

end Rewriting

end Rustmatch

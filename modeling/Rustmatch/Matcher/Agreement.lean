import Rustmatch.Matcher.Scans

/-!
# Matchers agree

The registered patterns and the input decide which events a matcher delivers. The number of workers
and the separation of cohorts change their order at most, and no match of a pattern is lost.

A scan that is refused a thread delivers nothing; the theorems are about the other scans.

## Main results

* `worker_counts_agree`: any two worker counts;
* `cohorts_agree`: with cohorts and without;
* `no_match_is_lost`: every match of an expression is covered by an event.
-/

namespace Rustmatch

section Agreement

variable {builder : MatcherBuilder} {matcher matcher' : Matcher} {host host' : Host}

/-- Matchers that differ in their worker counts deliver the same events. -/
theorem worker_counts_agree {workers workers' : ℕ}
    (h : (builder.setWorkerCount workers).build = .ok matcher)
    (h' : (builder.setWorkerCount workers').build = .ok matcher') (input : Utf16Text)
    (hthreads : (matcher.scan host input).ending ≠ .returned (.error .workerUnavailable))
    (hthreads' : (matcher'.scan host' input).ending ≠ .returned (.error .workerUnavailable)) :
    (matcher.scan host input).ending = .returned (.ok ()) ∧
      (matcher'.scan host' input).ending = .returned (.ok ()) ∧
      (matcher.scan host input).events.Perm (matcher'.scan host' input).events :=
  MatcherBuilder.scan_perm_scan h h' rfl input hthreads hthreads'

/-- Matchers with cohorts and without deliver the same events. -/
theorem cohorts_agree
    (h : (builder.setCohortCompilationEnabled true).build = .ok matcher)
    (h' : (builder.setCohortCompilationEnabled false).build = .ok matcher') (input : Utf16Text)
    (hthreads : (matcher.scan host input).ending ≠ .returned (.error .workerUnavailable))
    (hthreads' : (matcher'.scan host' input).ending ≠ .returned (.error .workerUnavailable)) :
    (matcher.scan host input).ending = .returned (.ok ()) ∧
      (matcher'.scan host' input).ending = .returned (.ok ()) ∧
      (matcher.scan host input).events.Perm (matcher'.scan host' input).events :=
  MatcherBuilder.scan_perm_scan h h' rfl input hthreads hthreads'

/-- Whenever the expression of a registered pattern matches from a start, an event with that start
reaches at least as far as every match. -/
theorem no_match_is_lost (h : builder.build = .ok matcher) (input : Utf16Text)
    (hthreads : (matcher.scan host input).ending ≠ .returned (.error .workerUnavailable))
    {p : HirPattern} (hp : p ∈ builder.patterns) {start stop : ℕ} {phase : Bool}
    (hlt : start < stop)
    (hmatch : (stop, phase) ∈ p.expression.interpretFrom input.units (start, false)) :
    ∃ event ∈ (matcher.scan host input).events,
      event.patternId = p.patternId ∧ event.span.start = start ∧
        ∀ stop' phase', start < stop' →
          (stop', phase') ∈ p.expression.interpretFrom input.units (start, false) →
            stop' ≤ event.span.stop := by
  have haccepted : ∀ {stop' phase'}, start < stop' →
      (stop', phase') ∈ p.expression.interpretFrom input.units (start, false) →
        stop' ∈ p.acceptedEnds (Reading.contextual input.units) start :=
    fun hlt' hmatch' => Or.inl ⟨hlt', _, (Hir.mem_interpretFrom_iff _).mp hmatch'⟩
  obtain ⟨groups, hbuilt⟩ := MatcherBuilder.build_spec h
  obtain ⟨partition, patterns, hpartition, hmem⟩ :=
    exists_compiledFrom_of_mem hbuilt.compiled (hbuilt.perm.mem_iff.mpr hp)
  obtain ⟨event, hevent, hid, hstart, hgreatest⟩ :=
    hpartition.exists_event hmem (haccepted hlt hmatch)
  obtain ⟨-, hevents⟩ := MatcherBuilder.scan_perm h input hthreads
  exact ⟨event, hevents.mem_iff.mpr (List.mem_flatMap.mpr ⟨p, hp, hevent⟩), hid, hstart,
    fun stop' phase' hlt' hmatch' => hgreatest.2 (haccepted hlt' hmatch')⟩

end Agreement

/-! ### Two patterns -/

/-- `\\bb`. -/
def boundaryPattern : HirPattern :=
  HirPattern.new ⟨2⟩ (.sequence [.assertion .wordBoundary, .symbol 0x62])
    (.sequence (List.cons_ne_nil _ _) (by
      simp only [List.mem_cons, List.not_mem_nil, or_false, forall_eq_or_imp, forall_eq]
      exact ⟨.assertion _, .symbol _⟩))

/-- A builder with a pattern without assertions and one with. -/
def mixedBuilder : MatcherBuilder :=
  { MatcherBuilder.new with
    patternIds := {⟨1⟩, ⟨2⟩}
    patterns := [privateLoop, boundaryPattern]
    patternIds_eq := by decide
    nodup := by decide }

/-- A machine without vector instructions that starts every thread. -/
def readyHost : Host := ⟨fun _ => ⟨false, fun _ => true⟩, fun _ => true⟩

/-- This host starts every thread. -/
theorem readyHost_starts : readyHost.Starts := ⟨fun _ _ => rfl, fun _ => rfl⟩

/-- One worker and two, with assertions and without. -/
theorem worker_counts_agree_mixedBuilder : ∃ matcher matcher',
    (mixedBuilder.setWorkerCount 1).build = .ok matcher ∧
    (mixedBuilder.setWorkerCount 2).build = .ok matcher' ∧
    (matcher.scan readyHost textAb).events.Perm (matcher'.scan readyHost textAb).events := by
  have hbuild : ∃ matcher, (mixedBuilder.setWorkerCount 1).build = .ok matcher := ⟨_, rfl⟩
  have hbuild' : ∃ matcher, (mixedBuilder.setWorkerCount 2).build = .ok matcher := ⟨_, rfl⟩
  obtain ⟨matcher, h⟩ := hbuild
  obtain ⟨matcher', h'⟩ := hbuild'
  exact ⟨matcher, matcher', h, h', (worker_counts_agree h h' textAb
    (MatcherBuilder.scan_ne_workerUnavailable h readyHost_starts textAb)
    (MatcherBuilder.scan_ne_workerUnavailable h' readyHost_starts textAb)).2.2⟩

/-- With cohorts and without, on patterns of both kinds. -/
theorem cohorts_agree_mixedBuilder : ∃ matcher matcher',
    (mixedBuilder.setCohortCompilationEnabled true).build = .ok matcher ∧
    (mixedBuilder.setCohortCompilationEnabled false).build = .ok matcher' ∧
    (matcher.scan readyHost textAb).events.Perm (matcher'.scan readyHost textAb).events := by
  have hbuild : ∃ matcher, (mixedBuilder.setCohortCompilationEnabled true).build = .ok matcher :=
    ⟨_, rfl⟩
  have hbuild' : ∃ matcher, (mixedBuilder.setCohortCompilationEnabled false).build = .ok matcher :=
    ⟨_, rfl⟩
  obtain ⟨matcher, h⟩ := hbuild
  obtain ⟨matcher', h'⟩ := hbuild'
  exact ⟨matcher, matcher', h, h', (cohorts_agree h h' textAb
    (MatcherBuilder.scan_ne_workerUnavailable h readyHost_starts textAb)
    (MatcherBuilder.scan_ne_workerUnavailable h' readyHost_starts textAb)).2.2⟩

/-- The match of a loop in one branch is delivered. -/
theorem no_match_is_lost_mixedBuilder : ∃ matcher, mixedBuilder.build = .ok matcher ∧
    ∃ event ∈ (matcher.scan readyHost textAb).events,
      event.patternId = ⟨1⟩ ∧ event.span.start = 0 ∧
        ∀ stop' phase', 0 < stop' →
          (stop', phase') ∈ privateLoop.expression.interpretFrom textAb.units (0, false) →
            stop' ≤ event.span.stop := by
  have hbuild : ∃ matcher, mixedBuilder.build = .ok matcher := ⟨_, rfl⟩
  obtain ⟨matcher, h⟩ := hbuild
  have hmatch : (2, true) ∈ privateLoop.expression.interpretFrom textAb.units (0, false) := by
    decide
  exact ⟨matcher, h, no_match_is_lost h textAb
    (MatcherBuilder.scan_ne_workerUnavailable h readyHost_starts textAb)
    (show privateLoop ∈ mixedBuilder.patterns from List.mem_cons_self) Nat.two_pos hmatch⟩

end Rustmatch

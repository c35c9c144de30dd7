import Rustmatch.Matcher.Agreement

/-!
# Registrations and events

A builder is used through a sequence of calls, each of which may be rejected. The calls change the
fields of the builder in place, here as `BuilderFields`; a rejected call changes nothing, and the
fields reached are always those of a `MatcherBuilder`, with its invariants.

## Main definitions

* `BuilderCall`, `BuilderFields.run`: sequences of calls;
* `BuilderFields.acceptedCalls`: the calls that were not rejected.

## Main results

* `registrations_match_events`: identities from the calls to the events.
-/

namespace Rustmatch

/-! ### Calls -/

/-- The fields of `MatcherBuilder`, as the calls change them. -/
@[ext]
structure BuilderFields where
  /-- The identities that have been registered. -/
  patternIds : Finset PatternId
  /-- The accepted patterns, in the order of registration. -/
  patterns : List HirPattern
  /-- The cache budget. -/
  stateCacheBudget : ℕ
  /-- The number of workers. -/
  workerCount : ℕ
  /-- Whether the start filter is used. -/
  prefilterEnabled : Bool
  /-- Whether the literal filter is used. -/
  literalPrefilterEnabled : Bool
  /-- Whether patterns with and without assertions are kept apart. -/
  cohortCompilationEnabled : Bool

/-- The fields of a builder. -/
def MatcherBuilder.fields (builder : MatcherBuilder) : BuilderFields where
  patternIds := builder.patternIds
  patterns := builder.patterns
  stateCacheBudget := builder.stateCacheBudget
  workerCount := builder.workerCount
  prefilterEnabled := builder.prefilterEnabled
  literalPrefilterEnabled := builder.literalPrefilterEnabled
  cohortCompilationEnabled := builder.cohortCompilationEnabled

/-- A call of a builder. -/
inductive BuilderCall where
  /-- `add`. -/
  | add (patternId : PatternId) (units : List UInt16)
  /-- `add_with_flags`. -/
  | addWithFlags (patternId : PatternId) (units : List UInt16) (flags : PatternFlags)
  /-- `state_cache_budget`. -/
  | stateCacheBudget (stateBudget : ℕ)
  /-- `worker_count`. -/
  | workerCount (workerCount : ℕ)

/-- The identity that a call registers. -/
def BuilderCall.patternId? : BuilderCall → Option PatternId
  | .add patternId _ => some patternId
  | .addWithFlags patternId _ _ => some patternId
  | .stateCacheBudget _ | .workerCount _ => none

namespace BuilderFields

variable (lowerUpper : UInt16 → UInt16 × UInt16) (fields : BuilderFields)

/-- `MatcherBuilder::add_with_flags`, on the fields. -/
def addWithFlags (patternId : PatternId) (units : List UInt16) (flags : PatternFlags) :
    Except Error Unit × BuilderFields :=
  if patternId ∈ fields.patternIds then (.error (.duplicatePatternId patternId), fields)
  else
    match parseWithFlags lowerUpper patternId units flags with
    | .error error => (.error error, fields)
    | .ok parsed =>
      let fields := { fields with patternIds := insert patternId fields.patternIds }
      (.ok (), { fields with patterns := fields.patterns ++ [parsed] })

/-- A call: what it returns, and the fields behind it. -/
def call : BuilderCall → Except Error Unit × BuilderFields
  | .add patternId units => fields.addWithFlags lowerUpper patternId units .none
  | .addWithFlags patternId units flags => fields.addWithFlags lowerUpper patternId units flags
  | .stateCacheBudget stateBudget => (.ok (), { fields with stateCacheBudget := stateBudget })
  | .workerCount workerCount => (.ok (), { fields with workerCount := workerCount })

/-- The fields behind a sequence of calls. -/
def run (calls : List BuilderCall) : BuilderFields :=
  calls.foldl (fun fields call => (fields.call lowerUpper call).2) fields

/-- The calls of a sequence that are accepted. -/
def acceptedCalls : BuilderFields → List BuilderCall → List BuilderCall
  | _, [] => []
  | fields, call :: calls =>
    match fields.call lowerUpper call with
    | (.ok _, fields) => call :: acceptedCalls fields calls
    | (.error _, fields) => acceptedCalls fields calls

variable {lowerUpper fields} {call : BuilderCall} {calls : List BuilderCall}

/-- A rejected call changes nothing. -/
theorem call_of_error {error : Error} (h : (fields.call lowerUpper call).1 = .error error) :
    (fields.call lowerUpper call).2 = fields := by
  have hadd : ∀ {patternId units flags},
      (fields.addWithFlags lowerUpper patternId units flags).1 = .error error →
        (fields.addWithFlags lowerUpper patternId units flags).2 = fields := by
    intro patternId units flags h
    unfold addWithFlags at h ⊢
    split
    next => rfl
    next hnew =>
      rw [if_neg hnew] at h
      cases hparsed : parseWithFlags lowerUpper patternId units flags with
      | error error => rfl
      | ok parsed =>
        rw [hparsed] at h
        cases h
  cases call with
  | add patternId units => exact hadd h
  | addWithFlags patternId units flags => exact hadd h
  | stateCacheBudget stateBudget => cases h
  | workerCount workerCount => cases h

/-- The first call is accepted and stays, or it is rejected and goes. -/
theorem acceptedCalls_cons (fields : BuilderFields) (call : BuilderCall)
    (calls : List BuilderCall) :
    ((fields.call lowerUpper call).1 = .ok () ∧ acceptedCalls lowerUpper fields (call :: calls) =
      call :: acceptedCalls lowerUpper (fields.call lowerUpper call).2 calls) ∨
    ((fields.call lowerUpper call).2 = fields ∧
      acceptedCalls lowerUpper fields (call :: calls) = acceptedCalls lowerUpper fields calls) := by
  rw [acceptedCalls]
  split
  next answer after hcall =>
    rw [hcall]
    exact Or.inl ⟨rfl, rfl⟩
  next error after hcall =>
    have hsame := @call_of_error lowerUpper fields call error (by rw [hcall])
    rw [hcall] at hsame
    rw [hcall, show after = fields from hsame]
    exact Or.inr ⟨rfl, rfl⟩

/-- Only the accepted calls count. -/
theorem run_acceptedCalls (fields : BuilderFields) (calls : List BuilderCall) :
    fields.run lowerUpper (acceptedCalls lowerUpper fields calls) =
      fields.run lowerUpper calls := by
  induction calls generalizing fields with
  | nil => rfl
  | cons call calls ih =>
    obtain ⟨-, haccepted⟩ | ⟨hsame, haccepted⟩ := @acceptedCalls_cons lowerUpper fields call calls
    · rw [haccepted]
      exact ih _
    · have hrun : fields.run lowerUpper (call :: calls) = fields.run lowerUpper calls := by
        rw [run, List.foldl_cons, hsame, ← run]
      rw [haccepted, hrun]
      exact ih fields

/-- On their own, the accepted calls are accepted again. -/
theorem acceptedCalls_acceptedCalls (fields : BuilderFields) (calls : List BuilderCall) :
    acceptedCalls lowerUpper fields (acceptedCalls lowerUpper fields calls) =
      acceptedCalls lowerUpper fields calls := by
  induction calls generalizing fields with
  | nil => rfl
  | cons call calls ih =>
    obtain ⟨hok, haccepted⟩ | ⟨-, haccepted⟩ := @acceptedCalls_cons lowerUpper fields call calls
    · rw [haccepted, acceptedCalls]
      split
      next answer after hcall =>
        rw [show (fields.call lowerUpper call).2 = after by rw [hcall]]
        rw [ih]
      next error after hcall =>
        rw [hcall] at hok
        cases hok
    · rw [haccepted]
      exact ih fields

/-- An accepted call appends the identity that it registers. -/
theorem patternIds_of_call (h : (fields.call lowerUpper call).1 = .ok ()) :
    (fields.call lowerUpper call).2.patterns.map HirPattern.patternId =
      fields.patterns.map HirPattern.patternId ++ call.patternId?.toList := by
  -- both kinds of registration end in the same function
  have hadd : ∀ {patternId units flags},
      (fields.addWithFlags lowerUpper patternId units flags).1 = .ok () →
        (fields.addWithFlags lowerUpper patternId units flags).2.patterns.map HirPattern.patternId =
          fields.patterns.map HirPattern.patternId ++ [patternId] := by
    intro patternId units flags h
    unfold addWithFlags at h ⊢
    split
    next hold =>
      rw [if_pos hold] at h
      cases h
    next hnew =>
      rw [if_neg hnew] at h
      cases hparsed : parseWithFlags lowerUpper patternId units flags with
      | error error =>
        rw [hparsed] at h
        cases h
      | ok parsed =>
        obtain ⟨_, hpattern, -⟩ := parseWithFlags_eq_ok _ _ _ _ hparsed
        rw [List.map_append, List.map_singleton, hpattern]
        rfl
  cases call with
  | add patternId units => exact hadd h
  | addWithFlags patternId units flags => exact hadd h
  | stateCacheBudget stateBudget => exact (List.append_nil _).symm
  | workerCount workerCount => exact (List.append_nil _).symm

/-- The identities stand in the order of the accepted calls. -/
theorem patternIds_of_run (fields : BuilderFields) (calls : List BuilderCall) :
    (fields.run lowerUpper calls).patterns.map HirPattern.patternId =
      fields.patterns.map HirPattern.patternId ++
        (acceptedCalls lowerUpper fields calls).filterMap BuilderCall.patternId? := by
  induction calls generalizing fields with
  | nil => exact (List.append_nil _).symm
  | cons call calls ih =>
    have hrun : fields.run lowerUpper (call :: calls) =
        ((fields.call lowerUpper call).2).run lowerUpper calls := rfl
    obtain ⟨hok, haccepted⟩ | ⟨hsame, haccepted⟩ := @acceptedCalls_cons lowerUpper fields call calls
    · rw [hrun, ih, patternIds_of_call hok, haccepted, List.append_assoc]
      cases hid : call.patternId? with
      | none => rw [List.filterMap_cons_none hid]; rfl
      | some patternId => rw [List.filterMap_cons_some hid]; rfl
    · rw [hrun, hsame, ih, haccepted]

/-- A call on the fields of a builder leads to the fields of a builder. -/
theorem exists_builder_of_call (builder : MatcherBuilder) (call : BuilderCall) :
    ∃ builder' : MatcherBuilder, (builder.fields.call lowerUpper call).2 = builder'.fields := by
  -- a call that fails leaves the builder as it was
  have hadd : ∀ patternId units flags, ∃ builder' : MatcherBuilder,
      (builder.fields.addWithFlags lowerUpper patternId units flags).2 = builder'.fields := by
    intro patternId units flags
    unfold addWithFlags
    split
    next => exact ⟨builder, rfl⟩
    next hnew =>
      cases hparsed : parseWithFlags lowerUpper patternId units flags with
      | error error => exact ⟨builder, rfl⟩
      | ok parsed =>
        obtain ⟨builder', hbuilder', hfields⟩ :
            ∃ builder', builder.addWithFlags lowerUpper patternId units flags = .ok builder' ∧
              builder'.fields = { builder.fields with
                patternIds := insert patternId builder.patternIds
                patterns := builder.patterns ++ [parsed] } := by
          unfold MatcherBuilder.addWithFlags
          rw [dif_neg (show ¬ patternId ∈ builder.patternIds from hnew)]
          split
          next error herror =>
            rw [hparsed] at herror
            cases herror
          next parsed' hparsed' =>
            rw [hparsed] at hparsed'
            obtain rfl := Except.ok.inj hparsed'
            exact ⟨_, rfl, rfl⟩
        exact ⟨builder', hfields.symm⟩
  cases call with
  | add patternId units => exact hadd _ _ _
  | addWithFlags patternId units flags => exact hadd _ _ _
  | stateCacheBudget stateBudget => exact ⟨builder.setStateCacheBudget stateBudget, rfl⟩
  | workerCount workerCount => exact ⟨builder.setWorkerCount workerCount, rfl⟩

/-- Calls lead from the fields of a builder to the fields of a builder. -/
theorem exists_builder_of_run (builder : MatcherBuilder) (calls : List BuilderCall) :
    ∃ builder' : MatcherBuilder, builder.fields.run lowerUpper calls = builder'.fields := by
  induction calls generalizing builder with
  | nil => exact ⟨builder, rfl⟩
  | cons call calls ih =>
    obtain ⟨builder', hcall⟩ := @exists_builder_of_call lowerUpper builder call
    have hrun : builder.fields.run lowerUpper (call :: calls) =
        builder'.fields.run lowerUpper calls := by
      rw [← hcall]
      rfl
    rw [hrun]
    exact ih builder'

end BuilderFields

/-! ### Events -/

section Events

variable {builder : MatcherBuilder} {matcher : Matcher}

/-- The identity and the start of an event. -/
def Match.key (event : Match) : PatternId × ℕ := (event.patternId, event.span.start)

/-- The event of a start has the identity of the pattern and that start. -/
theorem HirPattern.key_of_eventAt {p : HirPattern} {input : List UInt16} {start : ℕ}
    {event : Match} (h : p.eventAt input start = some event) :
    event.key = (p.patternId, start) := by
  obtain ⟨stop, -, rfl⟩ := Option.map_eq_some_iff.mp h
  rfl

/-- An event of a pattern has its identity. -/
theorem HirPattern.patternId_of_mem_events {p : HirPattern} {input : List UInt16} {event : Match}
    (h : event ∈ p.events input) : event.patternId = p.patternId := by
  obtain ⟨start, -, hevent⟩ := List.mem_filterMap.mp h
  exact (Prod.mk.inj (HirPattern.key_of_eventAt hevent)).1

/-- A pattern has one event for a start. -/
theorem HirPattern.nodup_events (p : HirPattern) (input : List UInt16) :
    ((p.events input).map Match.key).Nodup := by
  rw [HirPattern.events, List.map_filterMap]
  refine List.nodup_range.filterMap fun start start' key hkey hkey' => ?_
  obtain ⟨event, hevent, rfl⟩ := Option.map_eq_some_iff.mp hkey
  obtain ⟨event', hevent', heq⟩ := Option.map_eq_some_iff.mp hkey'
  rw [HirPattern.key_of_eventAt hevent, HirPattern.key_of_eventAt hevent'] at heq
  exact (Prod.mk.inj heq).2.symm

/-- Patterns with different identities have one event for an identity and a start. -/
theorem nodup_flatMap_events {patterns : List HirPattern}
    (h : (patterns.map HirPattern.patternId).Nodup) (input : List UInt16) :
    ((patterns.flatMap fun p => p.events input).map Match.key).Nodup := by
  rw [List.map_flatMap, List.nodup_flatMap]
  refine ⟨fun p _ => p.nodup_events input, ?_⟩
  refine (List.pairwise_map.mp h).imp fun {p q} hne => ?_
  rw [Function.onFun, List.disjoint_left]
  intro key hp hq
  obtain ⟨event, hevent, rfl⟩ := List.mem_map.mp hp
  obtain ⟨event', hevent', heq⟩ := List.mem_map.mp hq
  -- the keys are equal, so are the identities
  refine hne ?_
  rw [← HirPattern.patternId_of_mem_events hevent, ← HirPattern.patternId_of_mem_events hevent']
  exact (Prod.mk.inj heq).1.symm

/-- Spans of a compiled pattern are not empty and lie in the input. -/
theorem MatcherPartition.CompiledFrom.span_of_mem_events {partition : MatcherPartition}
    {patterns : List HirPattern} (h : partition.CompiledFrom patterns) {p : HirPattern}
    (hp : p ∈ patterns) {input : List UInt16} {event : Match} (hevent : event ∈ p.events input) :
    event.span.start < event.span.stop ∧ event.span.stop ≤ input.length := by
  obtain ⟨start, -, hevent⟩ := List.mem_filterMap.mp hevent
  obtain ⟨stop, hstop, rfl⟩ := Option.map_eq_some_iff.mp hevent
  obtain ⟨ordinal, hordinal⟩ := List.mem_iff_getElem?.mp hp
  rw [h.acceptedEnds_eq hordinal] at hstop
  exact ends_bounded ((longestEnd_eq_some_iff (bddAbove_ends ordinal)).mp hstop).1

/-- What a scan delivers, in events that are each of a registered pattern. -/
theorem MatcherBuilder.events_spec (h : builder.build = .ok matcher) (host : Host)
    (input : Utf16Text) :
    ((matcher.scan host input).events.map Match.key).Nodup ∧
      ∀ event ∈ (matcher.scan host input).events, event.patternId ∈ builder.patternIds ∧
        event.span.start < event.span.stop ∧ event.span.stop ≤ input.units.length := by
  obtain ⟨groups, hbuilt⟩ := MatcherBuilder.build_spec h
  obtain heq | ⟨-, heq⟩ := matcher.scan_cases hbuilt.exists_compiledFrom host input
  · have hperm := (flatMap_events_perm hbuilt.compiled input.units).trans
      (hbuilt.perm.flatMap_right _)
    rw [heq]
    refine ⟨(hperm.map Match.key).nodup_iff.mpr (nodup_flatMap_events builder.nodup input.units),
      fun event hevent => ?_⟩
    obtain ⟨p, hp, hevent⟩ := List.mem_flatMap.mp (hperm.mem_iff.mp hevent)
    obtain ⟨partition, patterns, hpartition, hmem⟩ :=
      exists_compiledFrom_of_mem hbuilt.compiled (hbuilt.perm.mem_iff.mpr hp)
    refine ⟨?_, hpartition.span_of_mem_events hmem hevent⟩
    rw [builder.patternIds_eq, List.mem_toFinset, HirPattern.patternId_of_mem_events hevent]
    exact List.mem_map_of_mem hp
  · rw [heq]
    exact ⟨List.nodup_nil, by simp⟩

end Events

/-- Whatever calls were made, the builder is as if the rejected ones had not been made; it has
reserved exactly the identities of its patterns, which are distinct and stand in the order of their
registrations. Every scan of a matcher built from it, with any number of workers, delivers at most
one event for an identity and a start, and only registered identities, with spans that are not
empty and lie in the input. -/
theorem registrations_match_events (lowerUpper : UInt16 → UInt16 × UInt16)
    (calls : List BuilderCall) :
    let fields := MatcherBuilder.new.fields.run lowerUpper calls
    let accepted := BuilderFields.acceptedCalls lowerUpper MatcherBuilder.new.fields calls
    MatcherBuilder.new.fields.run lowerUpper accepted = fields ∧
      BuilderFields.acceptedCalls lowerUpper MatcherBuilder.new.fields accepted = accepted ∧
      fields.patterns.map HirPattern.patternId = accepted.filterMap BuilderCall.patternId? ∧
      (fields.patterns.map HirPattern.patternId).Nodup ∧
      fields.patternIds = (fields.patterns.map HirPattern.patternId).toFinset ∧
      ∃ builder : MatcherBuilder, builder.fields = fields ∧
        ∀ (workers : ℕ) (matcher : Matcher), (builder.setWorkerCount workers).build = .ok matcher →
          ∀ (host : Host) (input : Utf16Text),
            ((matcher.scan host input).events.map
              fun event => (event.patternId, event.span.start)).Nodup ∧
            ∀ event ∈ (matcher.scan host input).events, event.patternId ∈ fields.patternIds ∧
              event.span.start < event.span.stop ∧ event.span.stop ≤ input.units.length := by
  obtain ⟨builder, hbuilder⟩ := @BuilderFields.exists_builder_of_run lowerUpper .new calls
  have hids := @BuilderFields.patternIds_of_run lowerUpper MatcherBuilder.new.fields calls
  refine ⟨BuilderFields.run_acceptedCalls _ _, BuilderFields.acceptedCalls_acceptedCalls _ _, hids,
    ?_, ?_, builder, hbuilder.symm, ?_⟩
  · rw [hbuilder]
    exact builder.nodup
  · rw [hbuilder]
    exact builder.patternIds_eq
  · intro workers matcher hbuild host input
    rw [hbuilder]
    exact MatcherBuilder.events_spec hbuild host input

/-! ### One letter, registered twice -/

/-- A builder that `a` has been added to. -/
def letterBuilder : MatcherBuilder :=
  { MatcherBuilder.new with
    patternIds := {⟨1⟩}
    patterns := [HirPattern.new ⟨1⟩ (.symbol 0x61) (.symbol _)]
    patternIds_eq := by decide
    nodup := by decide }

/-- The text `a` is a pattern that matches one unit. -/
theorem parse_letter : parseWithFlags (fun unit => (unit, unit)) ⟨1⟩ [ascii 'a'] .none =
    .ok (HirPattern.new ⟨1⟩ (.symbol 0x61) (.symbol _)) := by
  have htext : PatternText ⟨PatternFlags.none.isCaseInsensitive, fun unit => (unit, unit)⟩
      [ascii 'a'] (.symbol 0x61) :=
    .plain (.last (.plain (.literal rfl) .nil))
  rw [parseWithFlags_eq_of_patternText (List.cons_ne_nil _ _) htext]
  rfl

/-- The second registration of an identity is refused. -/
theorem run_letters : MatcherBuilder.new.fields.run (fun unit => (unit, unit))
    [.add ⟨1⟩ [ascii 'a'], .add ⟨1⟩ [ascii 'b']] = letterBuilder.fields := by
  have hfirst : MatcherBuilder.new.fields.addWithFlags (fun unit => (unit, unit)) ⟨1⟩ [ascii 'a']
      .none = (.ok (), letterBuilder.fields) := by
    unfold BuilderFields.addWithFlags
    rw [if_neg (by decide), parse_letter]
    rfl
  show ((MatcherBuilder.new.fields.addWithFlags _ _ _ _).2.addWithFlags _ _ _ _).2 = _
  rw [hfirst]
  rfl

/-- A letter that is accepted, and another refused for its identity. -/
theorem registrations_match_events_letters : ∃ (builder : MatcherBuilder) (matcher : Matcher),
    builder.fields = MatcherBuilder.new.fields.run (fun unit => (unit, unit))
      [.add ⟨1⟩ [ascii 'a'], .add ⟨1⟩ [ascii 'b']] ∧
    (builder.setWorkerCount 1).build = .ok matcher ∧
    (∃ event ∈ (matcher.scan readyHost textAb).events, event.patternId = ⟨1⟩ ∧
      event.span.start = 0) ∧
    ((matcher.scan readyHost textAb).events.map
      fun event => (event.patternId, event.span.start)).Nodup ∧
    ∀ event ∈ (matcher.scan readyHost textAb).events, event.patternId = ⟨1⟩ ∧
      event.span.start < event.span.stop ∧ event.span.stop ≤ 2 := by
  obtain ⟨-, -, -, -, -, builder, hfields, hscans⟩ :=
    registrations_match_events (fun unit => (unit, unit))
      [.add ⟨1⟩ [ascii 'a'], .add ⟨1⟩ [ascii 'b']]
  obtain rfl : builder = letterBuilder := by
    have hsame := hfields.trans run_letters
    obtain ⟨_, _, _, _, _, _, _, _, _⟩ := builder
    cases hsame
    rfl
  have hbuild : ∃ matcher, (letterBuilder.setWorkerCount 1).build = .ok matcher := ⟨_, rfl⟩
  obtain ⟨matcher, h⟩ := hbuild
  obtain ⟨hnodup, hevents⟩ := hscans 1 matcher h readyHost textAb
  refine ⟨letterBuilder, matcher, hfields, h, ?_, hnodup, fun event hevent => ?_⟩
  · -- the letter matches at the start of the text
    have hmem : HirPattern.new ⟨1⟩ (.symbol 0x61) (.symbol _) ∈ letterBuilder.patterns :=
      List.mem_singleton_self _
    have hmatch : (1, true) ∈ (Hir.symbol 0x61).interpretFrom textAb.units (0, false) := by decide
    obtain ⟨groups, hbuilt⟩ := MatcherBuilder.build_spec h
    obtain ⟨partition, patterns, hpartition, hp⟩ :=
      exists_compiledFrom_of_mem hbuilt.compiled (hbuilt.perm.mem_iff.mpr hmem)
    obtain ⟨event, hevent, hid, hstart, -⟩ := hpartition.exists_event hp
      (Or.inl ⟨Nat.zero_lt_one, true, (Hir.mem_interpretFrom_iff _).mp hmatch⟩)
    obtain ⟨-, hperm⟩ := MatcherBuilder.scan_perm h textAb
      (MatcherBuilder.scan_ne_workerUnavailable h readyHost_starts textAb)
    exact ⟨event, hperm.mem_iff.mpr (List.mem_flatMap.mpr ⟨_, hmem, hevent⟩), hid, hstart⟩
  · obtain ⟨hid, hspan⟩ := hevents event hevent
    rw [← hfields] at hid
    exact ⟨Finset.mem_singleton.mp hid, hspan⟩

end Rustmatch

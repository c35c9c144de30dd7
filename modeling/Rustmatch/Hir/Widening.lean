import Rustmatch.Hir.CompiledRuns

/-!
# Rewriting expressions

Rules by which an expression may be replaced with one that matches no less: more branches, wider
predicates and bounds, loops unrolled, common ends of branches taken out. The rules are sound for
what the compiled fragments accept and not only for the denotation, so that they may be used where
loops are not kept apart; for this a rule has to say what happens to the turns of a fragment as
well. That is why an empty item in front of a sequence can be dropped but not added: it would keep a
loop that starts the sequence away from the start of the fragment.

## Main definitions

* `Hir.Widens`: the rules;
* `Hir.RunsWithin`: a fragment has no runs and turns that another one lacks.

## Main results

* `comp_turn_walk`: a run may start with turns;
* `Widens.runsWithin`: the rules are sound for compiled fragments.
-/

open Relation

namespace Rustmatch

namespace Hir

/-- The expression `k` matches wherever `h` does, by the rules. -/
inductive Widens : Hir → Hir → Prop
  /-- An expression is as wide as itself. -/
  | refl (h : Hir) : Widens h h
  /-- Rules are applied one after the other. -/
  | trans {h k l : Hir} : Widens h k → Widens k l → Widens h l
  /-- Everything is as wide as what cannot match. -/
  | never (h : Hir) : Widens .never h
  /-- A condition may be dropped. -/
  | assertion (a : Assertion) : Widens (.assertion a) .epsilon
  /-- A unit is part of a class that has it. -/
  | symbol {s : UInt16} {p : SymbolPredicate} : p.matches s = true →
      Widens (.symbol s) (.predicate p)
  /-- A class is part of a larger one. -/
  | predicate {p q : SymbolPredicate} : (∀ unit, p.matches unit = true → q.matches unit = true) →
      Widens (.predicate p) (.predicate q)
  /-- Every branch is part of its alternation. -/
  | branch {e : Hir} {es : List Hir} : e ∈ es → Widens e (.alternation es)
  /-- An alternation is part of what all its branches are part of. -/
  | alternation {es : List Hir} {h : Hir} : (∀ e ∈ es, Widens e h) → Widens (.alternation es) h
  /-- An item may be widened. -/
  | item {e e' : Hir} (front back : List Hir) : Widens e e' →
      Widens (.sequence (front ++ e :: back)) (.sequence (front ++ e' :: back))
  /-- A sequence of one item is that item. -/
  | single (e : Hir) : Widens (.sequence [e]) e
  /-- And the other way round. -/
  | ofSingle (e : Hir) : Widens e (.sequence [e])
  /-- A nested sequence may be flattened. -/
  | nested (front : List Hir) {es : List Hir} (back : List Hir) : es ≠ [] →
      Widens (.sequence (front ++ .sequence es :: back)) (.sequence (front ++ es ++ back))
  /-- And the other way round. -/
  | ofNested (front : List Hir) {es : List Hir} (back : List Hir) : es ≠ [] →
      Widens (.sequence (front ++ es ++ back)) (.sequence (front ++ .sequence es :: back))
  /-- An empty item may be dropped. -/
  | dropEpsilon {front back : List Hir} : front ++ back ≠ [] →
      Widens (.sequence (front ++ .epsilon :: back)) (.sequence (front ++ back))
  /-- And added behind another item. -/
  | addEpsilon {front : List Hir} (back : List Hir) : front ≠ [] →
      Widens (.sequence (front ++ back)) (.sequence (front ++ .epsilon :: back))
  /-- What follows an alternation follows each of its branches. -/
  | distribute (branches back : List Hir) : Widens (.sequence (.alternation branches :: back))
      (.alternation (branches.map fun branch => .sequence (branch :: back)))
  /-- An optional expression matches nothing. -/
  | skip (e : Hir) (max : Option ℕ) : Widens .epsilon (.repetition e 0 max)
  /-- One copy is a repetition. -/
  | once (e : Hir) : Widens e (.repetition e 1 (some 1))
  /-- And the other way round. -/
  | ofOnce (e : Hir) : Widens (.repetition e 1 (some 1)) e
  /-- Wider bounds. -/
  | repetition {e e' : Hir} {min min' : ℕ} {max max' : Option ℕ} : Widens e e' → min' ≤ min →
      (∀ limit ∈ max, min ≤ limit) → (∀ limit' ∈ max', ∃ limit ∈ max, limit ≤ limit') →
      Widens (.repetition e min max) (.repetition e' min' max')
  /-- A required copy may be written in front. -/
  | unroll (e : Hir) (min : ℕ) (max : Option ℕ) :
      Widens (.repetition e (min + 1) (max.map (· + 1))) (.sequence [e, .repetition e min max])
  /-- And the other way round. -/
  | ofUnrolled (e : Hir) (min : ℕ) (max : Option ℕ) :
      Widens (.sequence [e, .repetition e min max]) (.repetition e (min + 1) (max.map (· + 1)))
  /-- Repeating what a loop has is part of the loop. -/
  | loop {e k : Hir} (min : ℕ) (max : Option ℕ) : Widens e (.repetition k 0 none) →
      Widens (.repetition e min max) (.repetition k 0 none)
  /-- So is a sequence of items that a loop has. -/
  | loopItems {es : List Hir} {k : Hir} : (∀ e ∈ es, Widens e (.repetition k 0 none)) →
      Widens (.sequence es) (.repetition k 0 none)

variable {R : Reading}

/-! ### Turns before runs -/

/-- The runs of a loop. -/
theorem walk_loop (k : Hir) :
    walk R (.repetition k 0 none) = ReflTransGen (k.turn R ⊔ k.walk R) := by
  rw [walk, power_zero, eq_comp]
  rfl

/-- Turns before the first item are turns before the sequence. -/
theorem comp_turn_walkItems {e : Hir} (h : Comp (ReflTransGen (e.turn R)) (e.walk R) ≤ e.walk R)
    (es : List Hir) :
    Comp (ReflTransGen (e.turn R)) (walkItems R (e :: es)) ≤ walkItems R (e :: es) := by
  rw [walkItems, ← comp_assoc]
  exact comp_mono h (le_refl _)

/-- A run may start with turns. -/
theorem comp_turn_walk (h : Hir) : Comp (ReflTransGen (h.turn R)) (h.walk R) ≤ h.walk R := by
  have hstay : ∀ walk : Config → Config → Prop,
      Comp (ReflTransGen (⊥ : Config → Config → Prop)) walk ≤ walk := by
    intro walk
    rw [reflTransGen_bot, eq_comp]
  induction h with
  | never => exact hstay _
  | epsilon => exact hstay _
  | assertion a => exact hstay _
  | symbol s => exact hstay _
  | predicate p => exact hstay _
  | sequence es ih =>
    cases es with
    | nil => exact hstay _
    | cons e es => exact comp_turn_walkItems (ih e List.mem_cons_self) es
  | alternation es =>
    show Comp (ReflTransGen (turnAny R es)) (Comp (ReflTransGen (turnAny R es)) _) ≤ Comp _ _
    rw [← comp_assoc]
    exact comp_mono (comp_le_of_le (le_refl _) (le_refl _)) (le_refl _)
  | repetition e min max ih =>
    cases min with
    | succ min =>
      -- the turns are those of the body, which come before its first copy
      rw [walk, power_succ, comp_assoc, ← comp_assoc]
      exact comp_mono ih (le_refl _)
    | zero =>
      cases max with
      | none =>
        rw [walk_loop]
        exact comp_le_of_le (le_refl _) (le_refl _)
      | some limit =>
        rw [walk, power_zero, eq_comp]
        cases limit with
        | zero => exact hstay _
        | succ limit => exact comp_optionalRun_succ_le limit

/-! ### Parts of fragments -/

/-- The runs of a branch are runs of the alternation. -/
theorem le_walkAny {e : Hir} {es : List Hir} (he : e ∈ es) : e.walk R ≤ walkAny R es := by
  induction es with
  | nil => cases he
  | cons e' es ih =>
    rw [walkAny]
    cases he with
    | head => exact le_sup_left
    | tail _ he => exact (ih he).trans le_sup_right

/-- The turns of a branch are turns of the alternation. -/
theorem le_turnAny {e : Hir} {es : List Hir} (he : e ∈ es) : e.turn R ≤ turnAny R es := by
  induction es with
  | nil => cases he
  | cons e' es ih =>
    rw [turnAny]
    cases he with
    | head => exact le_sup_left
    | tail _ he => exact (ih he).trans le_sup_right

/-- The items are run through in two parts. -/
theorem walkItems_append (front back : List Hir) :
    walkItems R (front ++ back) = Comp (walkItems R front) (walkItems R back) := by
  induction front with
  | nil => rw [List.nil_append, walkItems, eq_comp]
  | cons e front ih => rw [List.cons_append, walkItems, walkItems, ih, comp_assoc]

/-- Only the first item turns. -/
theorem turnFirst_append {front : List Hir} (h : front ≠ []) (back : List Hir) :
    turnFirst R (front ++ back) = turnFirst R front := by
  cases front with
  | nil => exact absurd rfl h
  | cons e front => rfl

/-- The branches that an alternation with more behind it is distributed over. -/
theorem walkAny_map_sequence (branches back : List Hir) :
    walkAny R (branches.map fun branch => .sequence (branch :: back)) =
      Comp (walkAny R branches) (walkItems R back) := by
  induction branches with
  | nil => rw [List.map_nil, walkAny, bot_comp]
  | cons branch branches ih =>
    rw [List.map_cons, walkAny, walkAny, sup_comp, ih]
    rfl

/-- The same items behind every branch do not change the turns. -/
theorem turnAny_map_sequence (branches back : List Hir) :
    turnAny R (branches.map fun branch => .sequence (branch :: back)) = turnAny R branches := by
  induction branches with
  | nil => rfl
  | cons branch branches ih =>
    rw [List.map_cons, turnAny, turnAny, ih]
    rfl

/-! ### Soundness -/

/-- The fragment for `h` has no runs that the one for `k` lacks, and no turns that are not turns of
that one in a row. -/
structure RunsWithin (R : Reading) (h k : Hir) : Prop where
  /-- Its runs are runs of the other. -/
  walk_le : h.walk R ≤ k.walk R
  /-- Its round trips are round trips of the other, one after the other. -/
  turn_le : h.turn R ≤ ReflTransGen (k.turn R)

namespace RunsWithin

variable {h k l e e' : Hir} {es front back branches : List Hir} {min min' : ℕ} {max max' : Option ℕ}

/-- The same runs and turns are within each other. -/
theorem of_eq (hwalk : h.walk R = k.walk R) (hturn : h.turn R = k.turn R) : RunsWithin R h k :=
  ⟨hwalk.le, hturn ▸ ReflTransGen.le_reflTransGen⟩

/-- A fragment without turns. -/
theorem of_walk_le (hwalk : h.walk R ≤ k.walk R) (hturn : h.turn R = ⊥) : RunsWithin R h k :=
  ⟨hwalk, hturn ▸ bot_le⟩

/-- What runs within something runs within what that runs within. -/
theorem trans (hhk : RunsWithin R h k) (hkl : RunsWithin R k l) : RunsWithin R h l :=
  ⟨hhk.walk_le.trans hkl.walk_le, hhk.turn_le.trans (reflTransGen_le_of_le hkl.turn_le)⟩

/-- An alternation runs within what all its branches run within. -/
theorem alternation (h : ∀ e ∈ es, RunsWithin R e k) : RunsWithin R (.alternation es) k := by
  have hturn : turnAny R es ≤ ReflTransGen (k.turn R) := turnAny_le fun e he => (h e he).turn_le
  have hwalk : walkAny R es ≤ k.walk R := walkAny_le fun e he => (h e he).walk_le
  refine ⟨?_, hturn⟩
  -- what the branches turn, the other fragment turns before its run
  exact (comp_mono (reflTransGen_le_of_le hturn) hwalk).trans k.comp_turn_walk

/-- Sequences are compared by their items. -/
theorem sequence (hes : es ≠ []) (hback : back ≠ []) (hwalk : walkItems R es ≤ walkItems R back)
    (hturn : turnFirst R es ≤ ReflTransGen (turnFirst R back)) :
    RunsWithin R (.sequence es) (.sequence back) := by
  refine ⟨?_, hturn⟩
  rw [walk, walk, walkSequence_eq_walkItems hes, walkSequence_eq_walkItems hback]
  exact hwalk

/-- An item may be replaced by one that it runs within. -/
theorem item (front back : List Hir) (h : RunsWithin R e e') :
    RunsWithin R (.sequence (front ++ e :: back)) (.sequence (front ++ e' :: back)) := by
  refine sequence (by simp) (by simp) ?_ ?_
  · rw [walkItems_append, walkItems_append, walkItems, walkItems]
    exact comp_mono (le_refl _) (comp_mono h.walk_le (le_refl _))
  · cases front with
    | nil => exact h.turn_le
    | cons first front => exact ReflTransGen.le_reflTransGen

/-- Sequences with the same runs and the same first item. -/
theorem sequence_of_eq (hes : es ≠ []) (hback : back ≠ [])
    (hwalk : walkItems R es = walkItems R back) (hturn : turnFirst R es = turnFirst R back) :
    RunsWithin R (.sequence es) (.sequence back) :=
  sequence hes hback hwalk.le (hturn ▸ ReflTransGen.le_reflTransGen)

/-- A nested sequence has the runs of its items. -/
theorem walkItems_nested (front back : List Hir) (h : es ≠ []) :
    walkItems R (front ++ .sequence es :: back) = walkItems R (front ++ es ++ back) := by
  rw [walkItems_append, walkItems_append, walkItems_append, walkItems, walk,
    walkSequence_eq_walkItems h, comp_assoc]

/-- A nested sequence has the turns of its items. -/
theorem turnFirst_nested (front back : List Hir) (h : es ≠ []) :
    turnFirst R (front ++ .sequence es :: back) = turnFirst R (front ++ es ++ back) := by
  cases front with
  | nil => exact (turnFirst_append h back).symm
  | cons first front => rfl

/-- An empty item has no runs of its own. -/
theorem walkItems_epsilon (front back : List Hir) :
    walkItems R (front ++ .epsilon :: back) = walkItems R (front ++ back) := by
  rw [walkItems_append, walkItems_append, walkItems, walk, eq_comp]

/-- Without an empty item the turns are those of the items behind it. -/
theorem turnFirst_epsilon (front back : List Hir) :
    turnFirst R (front ++ .epsilon :: back) ≤ turnFirst R (front ++ back) := by
  cases front with
  | nil => exact bot_le
  | cons first front => exact le_refl _

/-- A repetition whose copies and turns are within a loop. -/
theorem loop (min : ℕ) (max : Option ℕ) (h : RunsWithin R e (.repetition k 0 none)) :
    RunsWithin R (.repetition e min max) (.repetition k 0 none) := by
  have hwalk : e.walk R ≤ ReflTransGen (k.turn R ⊔ k.walk R) := walk_loop k ▸ h.walk_le
  have hturn : e.turn R ≤ ReflTransGen (k.turn R ⊔ k.walk R) := h.turn_le
  constructor
  · rw [walk_loop, walk]
    refine comp_le_of_le (power_le_of_le hwalk min) ?_
    cases max with
    | none => exact reflTransGen_le_of_le (sup_le hturn hwalk)
    | some limit =>
      show (if limit < min then ⊥ else optionalRun _ _ _) ≤ ReflTransGen _
      split
      · exact bot_le
      · exact optionalRun_le_of_le hturn hwalk _
  · show repetitionTurn _ _ min max ≤ ReflTransGen (k.turn R ⊔ k.walk R)
    unfold repetitionTurn
    split
    · exact sup_le hturn hwalk
    · exact bot_le
    · exact hturn

/-- Items that run within a loop run within it one after the other. -/
theorem loopItems (h : ∀ e ∈ es, RunsWithin R e (.repetition k 0 none)) :
    RunsWithin R (.sequence es) (.repetition k 0 none) := by
  have hwalk : ∀ e ∈ es, e.walk R ≤ ReflTransGen (k.turn R ⊔ k.walk R) :=
    fun e he => walk_loop k ▸ (h e he).walk_le
  cases es with
  | nil => exact of_walk_le bot_le rfl
  | cons e es =>
    refine ⟨?_, (h e List.mem_cons_self).turn_le⟩
    show walkItems R (e :: es) ≤ walk R (.repetition k 0 none)
    rw [walk_loop]
    exact walkItems_le_of_le hwalk

/-- What follows the required copies, when some of them are not required any more. -/
theorem comp_power_tail_le {turn turn' step step' : Config → Config → Prop} {surplus : ℕ}
    (hturn : turn ≤ ReflTransGen turn') (hstep : step ≤ step') (hmin : min = min' + surplus)
    (hvalid : ∀ limit ∈ max, min ≤ limit) (hmax : ∀ limit' ∈ max', ∃ limit ∈ max, limit ≤ limit') :
    Comp (power step surplus) (repetitionTail turn step min max) ≤
      repetitionTail turn' step' min' max' := by
  cases max' with
  | none =>
    -- a loop takes any number of copies and turns
    have hsteps : step ≤ ReflTransGen (turn' ⊔ step') :=
      (hstep.trans le_sup_right).trans ReflTransGen.le_reflTransGen
    have hturns : turn ≤ ReflTransGen (turn' ⊔ step') :=
      hturn.trans (ReflTransGen.mono le_sup_left)
    show Comp (power step surplus) _ ≤ ReflTransGen (turn' ⊔ step')
    refine comp_le_of_le (power_le_of_le hsteps surplus) ?_
    cases max with
    | none => exact reflTransGen_le_of_le (sup_le hturns hsteps)
    | some limit =>
      show (if limit < min then ⊥ else optionalRun _ _ _) ≤ ReflTransGen _
      split
      · exact bot_le
      · exact optionalRun_le_of_le hturns hsteps _
  | some limit' =>
    obtain ⟨limit, rfl, hle⟩ := hmax limit' rfl
    have hlimit : min ≤ limit := hvalid limit rfl
    have htail : repetitionTail turn step min (some limit) =
        optionalRun turn step (limit - min) := if_neg (by omega)
    have htail' : repetitionTail turn' step' min' (some limit') =
        optionalRun turn' step' (limit' - min') := if_neg (by omega)
    rw [htail, htail']
    exact (comp_power_optionalRun_le surplus _).trans (optionalRun_mono hturn hstep (by omega))

/-- A repetition runs within one with wider bounds. -/
theorem repetition (h : RunsWithin R e e') (hmin : min' ≤ min)
    (hvalid : ∀ limit ∈ max, min ≤ limit) (hmax : ∀ limit' ∈ max', ∃ limit ∈ max, limit ≤ limit') :
    RunsWithin R (.repetition e min max) (.repetition e' min' max') := by
  obtain ⟨surplus, rfl⟩ := Nat.exists_eq_add_of_le hmin
  constructor
  · rw [walk, walk, power_add, comp_assoc]
    exact comp_mono (power_mono h.walk_le _)
      (comp_power_tail_le h.turn_le h.walk_le rfl hvalid hmax)
  · show repetitionTurn _ _ (min' + surplus) max ≤ ReflTransGen (repetitionTurn _ _ min' max')
    have hloop : e'.turn R ⊔ e'.walk R ≤ ReflTransGen (e'.turn R ⊔ e'.walk R) :=
      ReflTransGen.le_reflTransGen
    have hturns : e.turn R ≤ ReflTransGen (e'.turn R ⊔ e'.walk R) :=
      h.turn_le.trans (ReflTransGen.mono le_sup_left)
    rcases min' with _ | min'
    · rcases max' with _ | _ | limit'
      · -- the wider repetition is a loop
        unfold repetitionTurn
        split
        · exact sup_le hturns (h.walk_le.trans (le_sup_right.trans hloop))
        · exact bot_le
        · exact hturns
      · -- the wider one allows no copy, nor does the other one
        obtain ⟨limit, rfl, hle⟩ := hmax 0 rfl
        obtain rfl : limit = 0 := Nat.le_zero.mp hle
        obtain hzero : 0 + surplus = 0 := Nat.le_zero.mp (hvalid 0 rfl)
        rw [hzero]
        exact bot_le
      · obtain ⟨limit, rfl, -⟩ := hmax _ rfl
        unfold repetitionTurn
        split
        · contradiction
        · exact bot_le
        · exact h.turn_le
    · rw [Nat.add_right_comm]
      exact h.turn_le

end RunsWithin

/-- The runs and turns of an unrolled repetition are those of the repetition. -/
theorem walk_unroll (e : Hir) (min : ℕ) (max : Option ℕ) :
    walk R (.repetition e (min + 1) (max.map (· + 1))) =
      walk R (.sequence [e, .repetition e min max]) := by
  have htail : repetitionTail (e.turn R) (e.walk R) (min + 1) (max.map (· + 1)) =
      repetitionTail (e.turn R) (e.walk R) min max := by
    cases max with
    | none => rfl
    | some limit => simp [repetitionTail]
  rw [walk, walk, walkSequence, walkItems, walkItems, comp_eq, walk, htail, power_succ, comp_assoc]

/-- A copy taken out of a repetition keeps the turns. -/
theorem turn_unroll (e : Hir) (min : ℕ) (max : Option ℕ) :
    turn R (.repetition e (min + 1) (max.map (· + 1))) =
      turn R (.sequence [e, .repetition e min max]) := by
  cases max with
  | none => rfl
  | some limit => rfl

/-- The rules are sound for compiled fragments. -/
theorem Widens.runsWithin {h k : Hir} (hwidens : Widens h k) (R : Reading) :
    RunsWithin R h k := by
  induction hwidens with
  | refl h => exact .of_eq rfl rfl
  | trans _ _ ih ih' => exact ih.trans ih'
  | never h => exact .of_walk_le bot_le rfl
  | assertion a => exact .of_walk_le (fun c d hcd => hcd.2) rfl
  | symbol hs =>
    refine .of_walk_le ?_ rfl
    rintro c d ⟨unit, hunit, hsymbol, rfl⟩
    obtain rfl := eq_of_beq hsymbol
    exact ⟨_, hunit, hs, rfl⟩
  | predicate hpq =>
    refine .of_walk_le ?_ rfl
    rintro c d ⟨unit, hunit, hmatches, rfl⟩
    exact ⟨unit, hunit, hpq unit hmatches, rfl⟩
  | @branch e es he =>
    refine ⟨?_, (le_turnAny he).trans ReflTransGen.le_reflTransGen⟩
    intro c d hcd
    exact ⟨c, ReflTransGen.refl, le_walkAny he _ _ hcd⟩
  | alternation _ ih => exact .alternation ih
  | item front back _ ih => exact ih.item front back
  | single e => exact .of_eq comp_eq rfl
  | ofSingle e => exact .of_eq comp_eq.symm rfl
  | nested front back hes =>
    exact .sequence_of_eq (by simp) (by simp [hes]) (RunsWithin.walkItems_nested front back hes)
      (RunsWithin.turnFirst_nested front back hes)
  | ofNested front back hes =>
    exact .sequence_of_eq (by simp [hes]) (by simp)
      (RunsWithin.walkItems_nested front back hes).symm
      (RunsWithin.turnFirst_nested front back hes).symm
  | @dropEpsilon front back hne =>
    exact .sequence (by simp) hne (RunsWithin.walkItems_epsilon front back).le
      ((RunsWithin.turnFirst_epsilon front back).trans ReflTransGen.le_reflTransGen)
  | @addEpsilon front back hne =>
    refine .sequence_of_eq (by simp [hne]) (by simp)
      (RunsWithin.walkItems_epsilon front back).symm ?_
    rw [turnFirst_append hne, turnFirst_append hne]
  | distribute branches back =>
    refine .of_eq ?_ (turnAny_map_sequence branches back).symm
    rw [walk, walk, walkAny_map_sequence, turnAny_map_sequence, walkSequence, walk, comp_assoc]
  | skip e max =>
    refine .of_walk_le ?_ rfl
    cases max with
    | none =>
      rw [walk_loop]
      exact eq_le_of_refl
    | some limit =>
      rw [walk, walk, power_zero, eq_comp]
      exact @optionalRun_mono _ ⊥ (e.walk R) _ _ 0 _ bot_le (le_refl _) (Nat.zero_le _)
  | once e => exact .of_eq (by simp [walk, repetitionTail, optionalRun, comp_eq]) rfl
  | ofOnce e => exact .of_eq (by simp [walk, repetitionTail, optionalRun, comp_eq]) rfl
  | repetition _ hmin hvalid hmax ih => exact ih.repetition hmin hvalid hmax
  | unroll e min max => exact .of_eq (walk_unroll e min max) (turn_unroll e min max)
  | ofUnrolled e min max => exact .of_eq (walk_unroll e min max).symm (turn_unroll e min max).symm
  | loop min max _ ih => exact ih.loop min max
  | loopItems _ ih => exact .loopItems ih

end Hir

end Rustmatch

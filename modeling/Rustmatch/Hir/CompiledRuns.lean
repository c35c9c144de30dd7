import Rustmatch.Hir.Denotation

/-!
# What the compiled fragments accept

The compiler allocates no state of its own for an alternation, an optional copy or a loop: branches
share the start and the end they are given, and a loop leads back to the state it starts from. A
repetition that starts with a loop therefore makes its start state re-enterable, and whoever shares
that state shares the loop. This module states, on expressions alone, which runs that adds:

* `Hir.turn h` are the round trips from the start of a fragment for `h` back to it;
* `Hir.walk h` are the runs from its start to its end;
* `Hir.stray h` are the runs that go round a loop that belongs to another branch, another copy or
  the loop around it.

## Main results

* `walk_eq_denote_sup_stray`: a fragment accepts the denotation and the stray runs;
* `stray_eq_bot`: no run strays when no loop starts where something else starts too;
* `walk_le_of_closed`: an induction principle for runs.
-/

open Relation

namespace Rustmatch

namespace Hir

/-- Round trips of a repetition: the loop itself, when nothing comes before it. -/
def repetitionTurn (turn walk : Config → Config → Prop) : ℕ → Option ℕ → Config → Config → Prop
  | 0, none => turn ⊔ walk
  | 0, some 0 => ⊥
  | _, _ => turn

/-- What follows the required copies of a repetition. -/
def repetitionTail (turn walk : Config → Config → Prop) (min : ℕ) :
    Option ℕ → Config → Config → Prop
  | none => ReflTransGen (turn ⊔ walk)
  | some limit => if limit < min then ⊥ else optionalRun turn walk (limit - min)

/-- What follows the required copies, with a turn or a stray copy. -/
def repetitionStrayTail (turn stray walk : Config → Config → Prop) (min : ℕ) :
    Option ℕ → Config → Config → Prop
  | none => faultyLoop turn stray walk
  | some limit => if limit < min then ⊥ else faultyOptional turn stray walk (limit - min)

variable (R : Reading)

mutual

/-- Round trips from the start of the fragment. -/
def turn : Hir → Config → Config → Prop
  | .never | .epsilon | .assertion _ | .symbol _ | .predicate _ => ⊥
  | .sequence expressions => turnFirst expressions
  | .alternation expressions => turnAny expressions
  | .repetition expression min max =>
    repetitionTurn (turn expression) (walk expression) min max

/-- The first item shares the start of a sequence. -/
def turnFirst : List Hir → Config → Config → Prop
  | [] => ⊥
  | item :: _ => turn item

/-- All branches share the start of an alternation. -/
def turnAny : List Hir → Config → Config → Prop
  | [] => ⊥
  | branch :: rest => turn branch ⊔ turnAny rest

/-- Runs from the start of the fragment to its end. -/
def walk : Hir → Config → Config → Prop
  | .never => ⊥
  | .epsilon => Eq
  | .assertion a => R.Tests a
  | .symbol s => R.Consumes (s == ·)
  | .predicate p => R.Consumes p.matches
  | .sequence expressions => walkSequence expressions
  | .alternation expressions => Comp (ReflTransGen (turnAny expressions)) (walkAny expressions)
  | .repetition expression min max =>
    Comp (power (walk expression) min)
      (repetitionTail (turn expression) (walk expression) min max)

/-- Nothing connects the ends of a sequence without items. -/
def walkSequence : List Hir → Config → Config → Prop
  | [] => ⊥
  | item :: rest => Comp (walk item) (walkItems rest)

/-- The items that follow. -/
def walkItems : List Hir → Config → Config → Prop
  | [] => Eq
  | item :: rest => Comp (walk item) (walkItems rest)

/-- Runs through one of the branches. -/
def walkAny : List Hir → Config → Config → Prop
  | [] => ⊥
  | branch :: rest => walk branch ⊔ walkAny rest

end

mutual

/-- Runs that use a loop of another branch, another copy, or the loop around. -/
def stray : Hir → Config → Config → Prop
  | .never | .epsilon | .assertion _ | .symbol _ | .predicate _ => ⊥
  | .sequence expressions => strayItems expressions
  | .alternation expressions =>
    strayAny expressions ⊔ Comp (TransGen (turnAny R expressions)) (walkAny R expressions)
  | .repetition expression min max =>
    Comp (faultyPower (stray expression) (walk R expression) min)
        (repetitionTail (turn R expression) (walk R expression) min max) ⊔
      Comp (power (walk R expression) min)
        (repetitionStrayTail (turn R expression) (stray expression) (walk R expression) min max)

/-- One of the items strays. -/
def strayItems : List Hir → Config → Config → Prop
  | [] => ⊥
  | item :: rest => Comp (stray item) (walkItems R rest) ⊔ Comp (walk R item) (strayItems rest)

/-- One of the branches strays on its own. -/
def strayAny : List Hir → Config → Config → Prop
  | [] => ⊥
  | branch :: rest => stray branch ⊔ strayAny rest

end

/-! ### Fragments accept the denotation and the stray runs -/

variable {R}

/-- Iterations without a limit are the required copies and a loop. -/
theorem iterations_none (body : Config → Config → Prop) (min : ℕ) :
    Iterations body min none = Comp (power body min) (ReflTransGen body) := by
  ext c d
  constructor
  · rintro ⟨n, hmin, -, hpower⟩
    obtain ⟨k, rfl⟩ := Nat.exists_eq_add_of_le hmin
    rw [power_add] at hpower
    obtain ⟨e, hce, hed⟩ := hpower
    exact ⟨e, hce, reflTransGen_iff_power.mpr ⟨k, hed⟩⟩
  · rintro ⟨e, hce, hed⟩
    obtain ⟨k, hed⟩ := reflTransGen_iff_power.mp hed
    refine ⟨min + k, Nat.le_add_right _ _, by simp, ?_⟩
    rw [power_add]
    exact ⟨e, hce, hed⟩

/-- Iterations with a limit are the required copies and the optional ones. -/
theorem iterations_some (body : Config → Config → Prop) {min limit : ℕ} (h : min ≤ limit) :
    Iterations body min (some limit) = Comp (power body min) (upTo body (limit - min)) := by
  ext c d
  constructor
  · rintro ⟨n, hmin, hmax, hpower⟩
    obtain ⟨k, rfl⟩ := Nat.exists_eq_add_of_le hmin
    rw [power_add] at hpower
    obtain ⟨e, hce, hed⟩ := hpower
    have := hmax limit rfl
    exact ⟨e, hce, upTo_iff.mpr ⟨k, by omega, hed⟩⟩
  · rintro ⟨e, hce, hed⟩
    obtain ⟨k, hk, hed⟩ := upTo_iff.mp hed
    refine ⟨min + k, Nat.le_add_right _ _, fun l hl => ?_, ?_⟩
    · obtain rfl : limit = l := Option.some.inj hl
      omega
    · rw [power_add]
      exact ⟨e, hce, hed⟩

/-- A limit below the required copies allows none. -/
theorem iterations_some_of_lt (body : Config → Config → Prop) {min limit : ℕ} (h : limit < min) :
    Iterations body min (some limit) = ⊥ := by
  ext c d
  constructor
  · rintro ⟨n, hmin, hmax, -⟩
    have := hmax limit rfl
    omega
  · exact fun h => h.elim

/-- A repetition of a body with stray runs. -/
theorem repetition_sup {turn good bad step : Config → Config → Prop} (h : step = good ⊔ bad)
    (min : ℕ) (max : Option ℕ) :
    Comp (power step min) (repetitionTail turn step min max) =
      Iterations good min max ⊔
        (Comp (faultyPower bad step min) (repetitionTail turn step min max) ⊔
          Comp (power step min) (repetitionStrayTail turn bad step min max)) := by
  -- the tail splits, then the required copies do; a good prefix with a stray tail is a stray run
  have hsplit : ∀ tail strayTail : Config → Config → Prop,
      repetitionTail turn step min max = tail ⊔ strayTail →
      Comp (power step min) (repetitionTail turn step min max) =
        Comp (power good min) tail ⊔
          (Comp (faultyPower bad step min) (repetitionTail turn step min max) ⊔
            Comp (power step min) strayTail) := by
    intro tail strayTail htail
    have hpower := power_sup h min
    have hgood : power good min ≤ power step min := hpower ▸ le_sup_left
    apply le_antisymm
    · rintro c d ⟨e, hce, hed⟩
      have hcases : power good min c e ∨ faultyPower bad step min c e := by
        rw [hpower] at hce
        exact hce
      rcases hcases with hgood' | hbad
      · rw [htail] at hed
        exact hed.imp (fun hed => ⟨e, hgood', hed⟩) fun hed => Or.inr ⟨e, hce, hed⟩
      · exact Or.inr (Or.inl ⟨e, hbad, hed⟩)
    · have hbad : faultyPower bad step min ≤ power step min := hpower ▸ le_sup_right
      exact sup_le (comp_mono hgood (htail ▸ le_sup_left))
        (sup_le (comp_mono hbad (le_refl _)) (comp_mono (le_refl _) (htail ▸ le_sup_right)))
  cases max with
  | none =>
    rw [iterations_none]
    exact hsplit _ _ (reflTransGen_sup_sup h)
  | some limit =>
    by_cases hlimit : limit < min
    · rw [iterations_some_of_lt good hlimit]
      have hbot : repetitionTail turn step min (some limit) = ⊥ := if_pos hlimit
      have hstray : repetitionStrayTail turn bad step min (some limit) = ⊥ := if_pos hlimit
      rw [hbot, hstray, comp_bot, comp_bot, sup_bot_eq, sup_bot_eq]
    · rw [iterations_some good (not_lt.mp hlimit)]
      have htail : repetitionTail turn step min (some limit) =
          optionalRun turn step (limit - min) := if_neg hlimit
      have hstray : repetitionStrayTail turn bad step min (some limit) =
          faultyOptional turn bad step (limit - min) := if_neg hlimit
      rw [hstray]
      exact hsplit _ _ (htail.trans (optionalRun_sup h _))

/-- The runs through the items are those denoted and those that stray in one of them. -/
theorem walkItems_eq {es : List Hir} (h : ∀ e ∈ es, e.walk R = e.denote R ⊔ e.stray R) :
    walkItems R es = denoteAll R es ⊔ strayItems R es := by
  induction es with
  | nil => exact (sup_bot_eq _).symm
  | cons e es ih =>
    have hhead : e.walk R = e.denote R ⊔ e.stray R := h e List.mem_cons_self
    have htail := ih fun e he => h e (List.mem_cons_of_mem _ he)
    have hgood : e.denote R ≤ e.walk R := hhead ▸ le_sup_left
    have hbad : e.stray R ≤ e.walk R := hhead ▸ le_sup_right
    rw [walkItems, denoteAll, strayItems]
    apply le_antisymm
    · rintro c d ⟨b, hcb, hbd⟩
      have hcases : e.denote R c b ∨ e.stray R c b := by
        rw [hhead] at hcb
        exact hcb
      rcases hcases with hgood' | hbad'
      · rw [htail] at hbd
        exact hbd.imp (fun hbd => ⟨b, hgood', hbd⟩) fun hbd => Or.inr ⟨b, hcb, hbd⟩
      · exact Or.inr (Or.inl ⟨b, hbad', hbd⟩)
    · exact sup_le (comp_mono hgood (htail ▸ le_sup_left))
        (sup_le (comp_mono hbad (le_refl _)) (comp_mono (le_refl _) (htail ▸ le_sup_right)))

/-- A sequence with items runs through them. -/
theorem walkSequence_eq_walkItems {es : List Hir} (h : es ≠ []) :
    walkSequence R es = walkItems R es := by
  cases es with
  | nil => exact absurd rfl h
  | cons e es => rfl

/-- The runs of the branches are those denoted and those that stray. -/
theorem walkAny_eq {es : List Hir} (h : ∀ e ∈ es, e.walk R = e.denote R ⊔ e.stray R) :
    walkAny R es = denoteAny R es ⊔ strayAny R es := by
  induction es with
  | nil => exact (sup_bot_eq _).symm
  | cons e es ih =>
    rw [walkAny, denoteAny, strayAny, h e List.mem_cons_self,
      ih fun e he => h e (List.mem_cons_of_mem _ he)]
    exact sup_sup_sup_comm _ _ _ _

/-- A fragment accepts the denotation of its expression and the stray runs, and nothing else. -/
theorem walk_eq_denote_sup_stray {h : Hir} (hne : h.SequencesNonempty) :
    h.walk R = h.denote R ⊔ h.stray R := by
  induction h with
  | never => exact (sup_bot_eq _).symm
  | epsilon => exact (sup_bot_eq _).symm
  | assertion a => exact (sup_bot_eq _).symm
  | symbol s => exact (sup_bot_eq _).symm
  | predicate p => exact (sup_bot_eq _).symm
  | sequence es ih =>
    rw [walk, denote, stray, walkSequence_eq_walkItems hne.ne_nil]
    exact walkItems_eq fun e he => ih e he (hne.of_mem_sequence e he)
  | alternation es ih =>
    have hany := walkAny_eq fun e he => ih e he (hne.of_mem_alternation e he)
    rw [walk, denote, stray, reflTransGen_eq_sup, sup_comp, eq_comp, ← sup_assoc, ← hany]
  | repetition e min max ih => exact repetition_sup (ih hne.of_repetition) min max

/-! ### Expressions without stray runs -/

mutual

/-- The fragment starts with a loop, so its start may be entered again. -/
def loopsAtHead : Hir → Bool
  | .never | .epsilon | .assertion _ | .symbol _ | .predicate _ => false
  | .sequence expressions => firstLoopsAtHead expressions
  | .alternation expressions => anyLoopsAtHead expressions
  | .repetition expression min max =>
    if min = 0 then max == none || (max != some 0 && expression.loopsAtHead)
    else expression.loopsAtHead

/-- The first item starts with a loop. -/
def firstLoopsAtHead : List Hir → Bool
  | [] => false
  | item :: _ => item.loopsAtHead

/-- Some branch starts with a loop. -/
def anyLoopsAtHead : List Hir → Bool
  | [] => false
  | branch :: rest => branch.loopsAtHead || anyLoopsAtHead rest

end

mutual

/-- Alternations, optional copies and loop bodies never start with a loop of their own. -/
def loopsApart : Hir → Bool
  | .never | .epsilon | .assertion _ | .symbol _ | .predicate _ => true
  | .sequence expressions => allLoopsApart expressions
  | .alternation expressions => allLoopsApart expressions && !anyLoopsAtHead expressions
  | .repetition expression min max =>
    expression.loopsApart && (max == some min || !expression.loopsAtHead)

/-- All expressions of the list keep their loops apart. -/
def allLoopsApart : List Hir → Bool
  | [] => true
  | expression :: rest => expression.loopsApart && allLoopsApart rest

end

/-- No branch starts with a loop of its own. -/
theorem anyLoopsAtHead_eq_false {es : List Hir} :
    anyLoopsAtHead es = false ↔ ∀ e ∈ es, e.loopsAtHead = false := by
  induction es with
  | nil => exact iff_of_true rfl (by simp)
  | cons e es ih => rw [anyLoopsAtHead, Bool.or_eq_false_iff, ih, List.forall_mem_cons]

/-- The branches turn no further than each of them does. -/
theorem turnAny_le {es : List Hir} {T : Config → Config → Prop} (h : ∀ e ∈ es, e.turn R ≤ T) :
    turnAny R es ≤ T := by
  induction es with
  | nil => exact bot_le
  | cons e es ih =>
    exact sup_le (h e List.mem_cons_self) (ih fun e he => h e (List.mem_cons_of_mem _ he))

/-- The branches run no further than each of them does. -/
theorem walkAny_le {es : List Hir} {T : Config → Config → Prop} (h : ∀ e ∈ es, e.walk R ≤ T) :
    walkAny R es ≤ T := by
  induction es with
  | nil => exact bot_le
  | cons e es ih =>
    exact sup_le (h e List.mem_cons_self) (ih fun e he => h e (List.mem_cons_of_mem _ he))

/-- Without a loop at its head a fragment has no way back to its start. -/
theorem turn_eq_bot {h : Hir} (hloop : h.loopsAtHead = false) : h.turn R = ⊥ := by
  induction h with
  | never => rfl
  | epsilon => rfl
  | assertion a => rfl
  | symbol s => rfl
  | predicate p => rfl
  -- only the first item can turn
  | sequence es ih =>
    cases es with
    | nil => rfl
    | cons e es => exact ih e List.mem_cons_self hloop
  | alternation es ih =>
    rw [loopsAtHead, anyLoopsAtHead_eq_false] at hloop
    exact le_bot_iff.mp (turnAny_le fun e he => (ih e he (hloop e he)).le)
  | repetition e min max ih =>
    rw [loopsAtHead] at hloop
    rw [turn]
    -- with a minimum the first copy decides, without one the loop itself turns
    cases min with
    | zero =>
      rw [if_pos rfl, Bool.or_eq_false_iff] at hloop
      cases max with
      | none => exact absurd hloop.1 (by decide)
      | some limit =>
        cases limit with
        | zero => rfl
        | succ limit => exact ih (by simpa using hloop.2)
    | succ min =>
      rw [if_neg (Nat.succ_ne_zero min)] at hloop
      exact ih hloop

/-- Branches that do not begin with a loop do not turn. -/
theorem turnAny_eq_bot {es : List Hir} (h : anyLoopsAtHead es = false) : turnAny R es = ⊥ :=
  @turn_eq_bot R (.alternation es) h

/-- Every expression of the list keeps its loops apart. -/
theorem allLoopsApart_iff {es : List Hir} :
    allLoopsApart es = true ↔ ∀ e ∈ es, e.loopsApart = true := by
  induction es with
  | nil => exact iff_of_true rfl (by simp)
  | cons e es ih => rw [allLoopsApart, Bool.and_eq_true, ih, List.forall_mem_cons]

/-- A sequence strays only in one of its items. -/
theorem strayItems_eq_bot {es : List Hir} (h : ∀ e ∈ es, e.stray R = ⊥) : strayItems R es = ⊥ := by
  induction es with
  | nil => rfl
  | cons e es ih =>
    rw [strayItems, h e List.mem_cons_self, ih fun e he => h e (List.mem_cons_of_mem _ he),
      bot_comp, comp_bot, sup_bot_eq]

/-- The branches stray on their own only in one of them. -/
theorem strayAny_eq_bot {es : List Hir} (h : ∀ e ∈ es, e.stray R = ⊥) : strayAny R es = ⊥ := by
  induction es with
  | nil => rfl
  | cons e es ih =>
    rw [strayAny, h e List.mem_cons_self, ih fun e he => h e (List.mem_cons_of_mem _ he),
      sup_bot_eq]

/-- No run strays when every loop keeps its start to itself. -/
theorem stray_eq_bot {h : Hir} (hapart : h.loopsApart = true) : h.stray R = ⊥ := by
  induction h with
  | never => rfl
  | epsilon => rfl
  | assertion a => rfl
  | symbol s => rfl
  | predicate p => rfl
  | sequence es ih =>
    rw [loopsApart, allLoopsApart_iff] at hapart
    exact strayItems_eq_bot fun e he => ih e he (hapart e he)
  | alternation es ih =>
    rw [loopsApart, Bool.and_eq_true, Bool.not_eq_true', allLoopsApart_iff] at hapart
    -- no branch strays, and no branch turns
    have hany : strayAny R es = ⊥ := strayAny_eq_bot fun e he => ih e he (hapart.1 e he)
    rw [stray, hany, turnAny_eq_bot hapart.2, transGen_bot, bot_comp, sup_bot_eq]
  | repetition e min max ih =>
    rw [loopsApart, Bool.and_eq_true, Bool.or_eq_true] at hapart
    rw [stray, ih hapart.1, faultyPower_bot, bot_comp, bot_sup_eq]
    -- behind the required copies there is nothing, or a loop whose body does not turn
    have htail : repetitionStrayTail (e.turn R) ⊥ (e.walk R) min max = ⊥ := by
      cases hapart.2 with
      | inl hmax =>
        obtain rfl : max = some min := by simpa using hmax
        rw [repetitionStrayTail, if_neg (lt_irrefl min), Nat.sub_self]
        rfl
      | inr hloop =>
        have hturn : e.turn R = ⊥ := turn_eq_bot (by simpa using hloop)
        rw [hturn]
        cases max with
        | none => exact faultyLoop_bot
        | some limit =>
          rw [repetitionStrayTail, faultyOptional_bot]
          split <;> rfl
    rw [htail, comp_bot]

/-- Expressions that keep their loops apart are accepted exactly as they read. -/
theorem walk_eq_denote {h : Hir} (hne : h.SequencesNonempty) (hapart : h.loopsApart = true) :
    h.walk R = h.denote R := by
  rw [walk_eq_denote_sup_stray hne, stray_eq_bot hapart, sup_bot_eq]

/-! ### What runs cannot leave -/

/-- Items one after the other stay inside a relation that is closed under runs. -/
theorem walkItems_le_of_le {T : Config → Config → Prop} [Std.Refl T] [IsTrans Config T]
    {es : List Hir} (h : ∀ e ∈ es, e.walk R ≤ T) : walkItems R es ≤ T := by
  induction es with
  | nil => exact eq_le_of_refl
  | cons e es ih =>
    exact comp_le_of_le (h e List.mem_cons_self) (ih fun e he => h e (List.mem_cons_of_mem _ he))

/-- A relation that is closed under composition and holds what single labels do holds all runs. -/
theorem walk_le_of_closed {T : Config → Config → Prop} (hrefl : ∀ c, T c c)
    (htrans : ∀ {c d e}, T c d → T d e → T c e) (hact : ∀ l, R.act l ≤ T) (h : Hir) :
    h.walk R ≤ T ∧ h.turn R ≤ T := by
  have : Std.Refl T := ⟨hrefl⟩
  have : IsTrans Config T := ⟨fun _ _ _ => htrans⟩
  induction h with
  | never => exact ⟨bot_le, bot_le⟩
  | epsilon => exact ⟨eq_le_of_refl, bot_le⟩
  | assertion a => exact ⟨hact (.assertion a), bot_le⟩
  | symbol s => exact ⟨hact (.symbol s), bot_le⟩
  | predicate p => exact ⟨hact (.predicate p), bot_le⟩
  | sequence es ih =>
    cases es with
    | nil => exact ⟨bot_le, bot_le⟩
    | cons e es =>
      -- a sequence turns where its first item does
      exact ⟨walkItems_le_of_le fun e he => (ih e he).1, (ih e List.mem_cons_self).2⟩
  | alternation es ih =>
    -- an alternation turns where any branch does
    have hturn : turnAny R es ≤ T := turnAny_le fun e he => (ih e he).2
    have hwalk : walkAny R es ≤ T := walkAny_le fun e he => (ih e he).1
    exact ⟨comp_le_of_le (reflTransGen_le_of_le hturn) hwalk, hturn⟩
  | repetition e min max ih =>
    refine ⟨comp_le_of_le (power_le_of_le ih.1 min) ?_, ?_⟩
    · cases max with
      | none => exact reflTransGen_le_of_le (sup_le ih.2 ih.1)
      | some limit =>
        show (if limit < min then ⊥ else optionalRun _ _ _) ≤ T
        split
        · exact bot_le
        · exact optionalRun_le_of_le ih.2 ih.1 _
    · show repetitionTurn _ _ min max ≤ T
      unfold repetitionTurn
      split
      · exact sup_le ih.2 ih.1
      · exact bot_le
      · exact ih.2

/-- Items with the same runs have the same runs together. -/
theorem walkItems_congr {R R' : Reading} {es : List Hir} (h : ∀ e ∈ es, e.walk R = e.walk R') :
    walkItems R es = walkItems R' es := by
  induction es with
  | nil => rfl
  | cons e es ih =>
    rw [walkItems, walkItems, h e List.mem_cons_self,
      ih fun e he => h e (List.mem_cons_of_mem _ he)]

/-- Branches with the same runs have the same runs together. -/
theorem walkAny_congr {R R' : Reading} {es : List Hir} (h : ∀ e ∈ es, e.walk R = e.walk R') :
    walkAny R es = walkAny R' es := by
  induction es with
  | nil => rfl
  | cons e es ih =>
    rw [walkAny, walkAny, h e List.mem_cons_self, ih fun e he => h e (List.mem_cons_of_mem _ he)]

/-- Branches with the same turns have the same turns together. -/
theorem turnAny_congr {R R' : Reading} {es : List Hir} (h : ∀ e ∈ es, e.turn R = e.turn R') :
    turnAny R es = turnAny R' es := by
  induction es with
  | nil => rfl
  | cons e es ih =>
    rw [turnAny, turnAny, h e List.mem_cons_self, ih fun e he => h e (List.mem_cons_of_mem _ he)]

/-- Without assertions the runs depend on the text only. -/
theorem walk_eq_of_assertionFree {R R' : Reading} (hinput : R.input = R'.input) {h : Hir}
    (hfree : h.usesAssertions = false) : h.walk R = h.walk R' ∧ h.turn R = h.turn R' := by
  -- edges that read a unit only look at the input
  have hconsumes : ∀ accepts, R.Consumes accepts = R'.Consumes accepts := by
    intro accepts
    unfold Reading.Consumes
    rw [hinput]
  induction h with
  | never => exact ⟨rfl, rfl⟩
  | epsilon => exact ⟨rfl, rfl⟩
  | assertion a => cases hfree
  | symbol s => exact ⟨hconsumes _, rfl⟩
  | predicate p => exact ⟨hconsumes _, rfl⟩
  | sequence es ih =>
    rw [usesAssertions, anyUsesAssertions_eq_any, List.any_eq_false] at hfree
    have hitem : ∀ e ∈ es, e.walk R = e.walk R' ∧ e.turn R = e.turn R' := fun e he =>
      ih e he (by simpa using hfree e he)
    cases es with
    | nil => exact ⟨rfl, rfl⟩
    | cons e es =>
      have hitems : walkItems R (e :: es) = walkItems R' (e :: es) :=
        walkItems_congr fun e he => (hitem e he).1
      exact ⟨hitems, (hitem e List.mem_cons_self).2⟩
  | alternation es ih =>
    rw [usesAssertions, anyUsesAssertions_eq_any, List.any_eq_false] at hfree
    have hbranch : ∀ e ∈ es, e.walk R = e.walk R' ∧ e.turn R = e.turn R' := fun e he =>
      ih e he (by simpa using hfree e he)
    have hwalk := walkAny_congr fun e he => (hbranch e he).1
    have hturn := turnAny_congr fun e he => (hbranch e he).2
    rw [walk, walk, turn, turn, hwalk, hturn]
    exact ⟨rfl, rfl⟩
  | repetition e min max ih =>
    obtain ⟨hwalk, hturn⟩ := ih hfree
    rw [walk, walk, turn, turn, hwalk, hturn]
    exact ⟨rfl, rfl⟩

end Hir

end Rustmatch

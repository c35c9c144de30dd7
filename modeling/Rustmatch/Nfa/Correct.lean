import Rustmatch.Nfa.Patterns

/-!
# What a compiled database accepts

The result of `compile` on any list of patterns: it is well formed, and each ordinal is accepted
along the runs of its own expression. Compared with the denotation, the compiled pattern accepts
everything it should; it accepts more exactly when a stray run ends where no run of the expression
does.

## Main results

* `compile_wellFormed`, `accepts_of_compile`: the database that `compile` returns;
* `ends_eq_iff_strayEnds_subset`: when the compiled pattern and its expression have the same ends;
* `ends_ne_of_shared_loop`: `a*|b` on `ab`, where they differ.
-/

open LabelledGraph Relation

namespace Rustmatch

/-- The ends after `start` of the runs of an expression. -/
def Hir.ends (h : Hir) (R : Reading) (start : ℕ) : Set ℕ :=
  {stop | start < stop ∧ ∃ phase, h.denote R (start, false) (stop, phase)}

/-- The ends after `start` of the stray runs of an expression. -/
def Hir.strayEnds (h : Hir) (R : Reading) (start : ℕ) : Set ℕ :=
  {stop | start < stop ∧ ∃ phase, h.stray R (start, false) (stop, phase)}

/-- A context with `n` roots and nothing else. -/
theorem Compilation.valid_roots (n : ℕ) :
    (⟨List.replicate n [], List.replicate n [], [], []⟩ : Compilation).Valid where
  terminals_length := by simp [Compilation.size]
  target_lt pending hpending edge hedge := by
    rw [List.eq_of_mem_replicate hpending] at hedge
    exact absurd hedge List.not_mem_nil
  predicate_lt pending hpending edge hedge := by
    rw [List.eq_of_mem_replicate hpending] at hedge
    exact absurd hedge List.not_mem_nil
  predicateIds p id h := by simp at h

/-- Roots alone have no edges. -/
theorem Compilation.graph_roots (n : ℕ) :
    (⟨List.replicate n [], List.replicate n [], [], []⟩ : Compilation).Graph = ⊥ := by
  funext s l t
  refine propext ⟨?_, fun h => h.elim⟩
  rintro ⟨edge, hedge, -⟩
  rw [List.getD_eq_getElem?_getD, List.getElem?_getD_replicate_default_eq] at hedge
  exact absurd hedge List.not_mem_nil

/-- Compiling a list of patterns from `n` roots. -/
theorem pieces_of_compilePatterns {rootOf : HirPattern → ℕ} {n : ℕ} {patterns : List HirPattern}
    {c : Compilation} (hroot : ∀ p ∈ patterns, rootOf p < n)
    (hrun : compilePatterns rootOf patterns 0
      ⟨List.replicate n [], List.replicate n [], [], []⟩ = .ok c) :
    ∃ pieces, Pieces rootOf n patterns c pieces := by
  have hstart : Pieces rootOf n []
      ⟨List.replicate n [], List.replicate n [], [], []⟩ (fun _ => ⟨0, 0, ∅, ⊥⟩) := by
    refine Pieces.nil (Compilation.valid_roots n) ?_ (Compilation.graph_roots n) (fun s => ?_) _
    · simp [Compilation.size]
    · rw [List.getD_eq_getElem?_getD, List.getElem?_getD_replicate_default_eq]
  exact hstart.compilePatterns hroot hrun

section Compile

variable {patterns : List HirPattern} {database : PatternDatabase}

/-- A compiled database consists of the pieces of its patterns. -/
theorem pieces_of_compile (h : compile patterns = .ok database) :
    ∃ c pieces, Pieces (fun _ => 0) 1 patterns c pieces ∧
      database = c.database 0 patterns
        (patterns.any fun pattern => pattern.expression.usesAssertions) := by
  obtain ⟨root, hroot, h⟩ := bind_eq_ok.mp h
  obtain rfl : 0 = root := Except.ok.inj hroot
  obtain ⟨c, hrun, h⟩ := bind_eq_ok.mp h
  obtain ⟨pieces, hpieces⟩ := @pieces_of_compilePatterns (fun _ => 0) 1 patterns c (by simp) hrun
  exact ⟨c, pieces, hpieces, (Except.ok.inj h).symm⟩

/-- Everything in a compiled database points into it. -/
theorem compile_wellFormed (h : compile patterns = .ok database) : database.WellFormed := by
  obtain ⟨c, pieces, hpieces, rfl⟩ := pieces_of_compile h
  exact Compilation.wellFormed_database 0 patterns _ hpieces.valid hpieces.base_le
    fun s i hi => ((hpieces.terminals_iff s i).mp hi).1

/-- A compiled database accepts an ordinal along the runs of its own expression. -/
theorem accepts_of_compile (h : compile patterns = .ok database) {R : Reading} {i : ℕ}
    {a b : Config} :
    database.Accepts R database.root i a b ↔
      ∃ p, patterns[i]? = some p ∧ p.expression.walk R a b := by
  obtain ⟨c, pieces, hpieces, rfl⟩ := pieces_of_compile h
  refine (Compilation.accepts_database 0 patterns _ hpieces Nat.one_pos).trans ?_
  simp

/-- The identities of a compiled database are those of its patterns, in order. -/
theorem patternIds_of_compile (h : compile patterns = .ok database) :
    database.patternIds = patterns.map HirPattern.patternId := by
  obtain ⟨c, pieces, -, rfl⟩ := pieces_of_compile h
  rfl

/-- The assertion mode of a compiled database is that of its patterns. -/
theorem usesAssertions_of_compile (h : compile patterns = .ok database) :
    database.usesAssertions =
      patterns.any fun pattern => pattern.expression.usesAssertions := by
  obtain ⟨c, pieces, -, rfl⟩ := pieces_of_compile h
  rfl

/-- A compiled pattern ends where its expression does or where a stray run does. -/
theorem ends_of_compile (h : compile patterns = .ok database) {i : ℕ} {p : HirPattern}
    (hp : patterns[i]? = some p) (R : Reading) (start : ℕ) :
    database.ends R database.root i start =
      p.expression.ends R start ∪ p.expression.strayEnds R start := by
  ext stop
  have hwalk : ∀ phase, database.Accepts R database.root i (start, false) (stop, phase) ↔
      p.expression.denote R (start, false) (stop, phase) ∨
        p.expression.stray R (start, false) (stop, phase) := by
    intro phase
    rw [accepts_of_compile h, hp]
    simp only [Option.some.injEq, exists_eq_left']
    rw [Hir.walk_eq_denote_sup_stray p.sequencesNonempty]
    exact Iff.rfl
  simp only [PatternDatabase.ends, Hir.ends, Hir.strayEnds, Set.mem_ofPred_eq, Set.mem_union,
    hwalk, exists_or, and_or_left]

/-- The compiled pattern and its expression have the same ends exactly when every stray run ends
where a run of the expression does. -/
theorem ends_eq_iff_strayEnds_subset (h : compile patterns = .ok database) {i : ℕ}
    {p : HirPattern} (hp : patterns[i]? = some p) (input : List UInt16) (start : ℕ) :
    database.ends (Reading.contextual input) database.root i start =
        p.expression.ends (Reading.contextual input) start ↔
      p.expression.strayEnds (Reading.contextual input) start ⊆
        p.expression.ends (Reading.contextual input) start := by
  rw [ends_of_compile h hp, Set.union_eq_left]

/-- Patterns whose loops keep their starts to themselves compile to what they mean. -/
theorem ends_eq_of_loopsApart (h : compile patterns = .ok database) {i : ℕ} {p : HirPattern}
    (hp : patterns[i]? = some p) (hapart : p.expression.loopsApart = true) (R : Reading)
    (start : ℕ) : database.ends R database.root i start = p.expression.ends R start := by
  have hstray : p.expression.strayEnds R start = ∅ := by
    ext stop
    simp only [Hir.strayEnds, Set.mem_ofPred_eq, Hir.stray_eq_bot hapart, Set.mem_empty_iff_false,
      iff_false]
    rintro ⟨-, phase, hphase⟩
    exact hphase
  rw [ends_of_compile h hp, hstray, Set.union_empty]

end Compile

/-! ### A loop shared between branches -/

/-- `a*|b`. -/
def sharedLoop : HirPattern :=
  HirPattern.new ⟨1⟩ (.alternation [.repetition (.symbol 0x61) 0 none, .symbol 0x62])
    (.alternation (by
      simp only [List.mem_cons, List.not_mem_nil, or_false, forall_eq_or_imp, forall_eq]
      exact ⟨.repetition 0 none (.symbol _), .symbol _⟩))

/-- `a+b`, whose loop starts after the first copy. -/
def privateLoop : HirPattern :=
  HirPattern.new ⟨1⟩ (.sequence [.repetition (.symbol 0x61) 1 none, .symbol 0x62])
    (.sequence (List.cons_ne_nil _ _) (by
      simp only [List.mem_cons, List.not_mem_nil, or_false, forall_eq_or_imp, forall_eq]
      exact ⟨.repetition 1 none (.symbol _), .symbol _⟩))

/-- A loop in one branch, on a text of two units. -/
theorem ends_eq_iff_strayEnds_subset_privateLoop :
    ∃ database, compile [privateLoop] = .ok database ∧
      (database.ends (Reading.contextual [0x61, 0x62]) database.root 0 0 =
          privateLoop.expression.ends (Reading.contextual [0x61, 0x62]) 0 ↔
        privateLoop.expression.strayEnds (Reading.contextual [0x61, 0x62]) 0 ⊆
          privateLoop.expression.ends (Reading.contextual [0x61, 0x62]) 0) := by
  have hcompile : ∃ database, compile [privateLoop] = .ok database := ⟨_, rfl⟩
  obtain ⟨database, hdatabase⟩ := hcompile
  exact ⟨database, hdatabase,
    ends_eq_iff_strayEnds_subset hdatabase (show [privateLoop][0]? = some privateLoop from rfl) _ _⟩

/-- `a*|b` goes round the loop of its first branch and leaves through the second: on `ab` it
accepts an end that neither `a*` nor `b` has. -/
theorem ends_ne_of_shared_loop :
    ¬ ∀ (patterns : List HirPattern) (database : PatternDatabase),
      compile patterns = .ok database → ∀ (i : ℕ) (p : HirPattern), patterns[i]? = some p →
        ∀ (input : List UInt16) (start : ℕ),
          database.ends (Reading.contextual input) database.root i start =
            p.expression.ends (Reading.contextual input) start := by
  intro hall
  have hcompile : ∃ database, compile [sharedLoop] = .ok database := ⟨_, rfl⟩
  obtain ⟨database, hdatabase⟩ := hcompile
  have hp : [sharedLoop][0]? = some sharedLoop := rfl
  have hends := hall [sharedLoop] database hdatabase 0 sharedLoop hp [0x61, 0x62] 0
  -- one turn of the loop, then the other branch
  have hturn : ReflTransGen (Hir.turnAny (Reading.contextual [0x61, 0x62])
      [.repetition (.symbol 0x61) 0 none, .symbol 0x62]) (0, false) (1, true) :=
    ReflTransGen.single (Or.inl (Or.inr ⟨0x61, rfl, rfl, rfl⟩))
  have hwalk : sharedLoop.expression.walk (Reading.contextual [0x61, 0x62]) (0, false) (2, true) :=
    ⟨(1, true), hturn, Or.inr (Or.inl ⟨0x62, rfl, rfl, rfl⟩)⟩
  have haccepted : 2 ∈ database.ends (Reading.contextual [0x61, 0x62]) database.root 0 0 :=
    ⟨by decide, true, (accepts_of_compile hdatabase).mpr ⟨sharedLoop, hp, hwalk⟩⟩
  rw [hends] at haccepted
  obtain ⟨-, phase, hdenote⟩ := haccepted
  have hnot : ∀ phase,
      (2, phase) ∉ sharedLoop.expression.interpretFrom [0x61, 0x62] (0, false) := by
    decide
  exact hnot phase ((Hir.mem_interpretFrom_iff _).mpr hdenote)

end Rustmatch

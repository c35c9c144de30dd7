import Rustmatch.Nfa.Frames
import Rustmatch.Nfa.SharedCohorts
import Rustmatch.ToMathlib.ListSlices

/-!
# The patterns of a database are kept apart

The loop over the patterns gives each pattern a block of states of its own: the two states it
allocates and those of its expression. What is known about a single expression (`Frame`) makes the
blocks closed under the edges, so that nothing leads from one pattern to another, and each pattern
behaves as if it were compiled alone.

## Main definitions

* `Arranged`: the blocks after any number of rounds of the loop over the patterns;
* `PatternDatabase.Intact`: slices that tile the flat arrays, and indices that point into them;
* `PatternDatabase.Isolates`: a finished database whose patterns have blocks of their own.

## Main results

* `Arranged.compilePatterns`: the loop over the patterns keeps the blocks;
* `Compilation.isolates_database`: the layout keeps them too;
* `compiled_patterns_are_isolated`: both compilers.
-/

open LabelledGraph Relation

namespace Rustmatch

/-! ### Blocks -/

section Blocks

variable {first : ℕ → ℕ} {n : ℕ}

/-- Blocks follow one another. -/
theorem first_le (h : ∀ i < n, first i < first (i + 1)) {i j : ℕ} (hij : i ≤ j) (hj : j ≤ n) :
    first i ≤ first j := by
  induction j, hij using Nat.le_induction with
  | base => exact le_refl _
  | succ j hle ih => exact (ih (Nat.le_of_succ_le hj)).trans (h j hj).le

/-- Different blocks have no state in common. -/
theorem block_unique (h : ∀ i < n, first i < first (i + 1)) {i j s : ℕ} (hi : i < n) (hj : j < n)
    (hsi : first i ≤ s ∧ s < first (i + 1)) (hsj : first j ≤ s ∧ s < first (j + 1)) : i = j := by
  rcases Nat.lt_trichotomy i j with hij | hij | hij
  · have := first_le h (show i + 1 ≤ j from hij) hj.le
    omega
  · exact hij
  · have := first_le h (show j + 1 ≤ i from hij) hi.le
    omega

end Blocks

/-! ### The loop over the patterns -/

/-- The edges of a root: one for each pattern that belongs to it, in order. -/
def rootEdges (rootOf : HirPattern → ℕ) (first : ℕ → ℕ) (patterns : List HirPattern)
    (root : ℕ) : List Edge :=
  (patterns.zipIdx.filter fun x => rootOf x.1 = root).map fun x => ⟨.epsilon, first x.2⟩

/-- After some rounds of the loop over the patterns. The states below `base` are the roots; those
from `first i` up to `first (i + 1)` belong to pattern `i`. -/
structure Arranged (rootOf : HirPattern → ℕ) (base : ℕ) (patterns : List HirPattern)
    (c : Compilation) (first : ℕ → ℕ) : Prop where
  /-- The first block begins behind the roots. -/
  first_zero : first 0 = base
  /-- The last block ends with the last state. -/
  first_length : first patterns.length = c.size
  /-- No block is empty. -/
  first_lt : ∀ i < patterns.length, first i < first (i + 1)
  /-- Every state has a list of ordinals. -/
  terminals_length : c.terminals.length = c.size
  /-- A root has one edge for each of its patterns, to its block. -/
  root_edges : ∀ root < base, c.edges.getD root [] = rootEdges rootOf first patterns root
  /-- No edge leaves its block, and assertions are asked for by patterns with assertions only. -/
  stays : ∀ i p, patterns[i]? = some p → ∀ u, first i ≤ u → u < first (i + 1) →
    ∀ edge ∈ c.edges.getD u [], first i ≤ edge.target ∧ edge.target < first (i + 1) ∧
      ∀ a, edge.kind = .assertion a → p.expression.usesAssertions = true
  /-- A block accepts its ordinal, at its second state. -/
  terminals : ∀ i < patterns.length, ∀ u, first i ≤ u → u < first (i + 1) →
    c.terminals.getD u [] = if u = first i + 1 then [i] else []
  /-- A root accepts nothing. -/
  root_terminals : ∀ root < base, c.terminals.getD root [] = []

/-- What one round of the loop adds to `c`: a block of new states with the entry first and the
terminal behind it, and an edge from the root. -/
structure BlockAdded (c c' : Compilation) (root ordinal : ℕ) (p : HirPattern) : Prop where
  /-- Two states are added at least. -/
  size_lt : c.size + 1 < c'.size
  /-- Every state has a list of ordinals. -/
  terminals_length : c'.terminals.length = c'.size
  /-- The edges of the other old states stay. -/
  kept : ∀ u < c.size, u ≠ root → c'.edges.getD u [] = c.edges.getD u []
  /-- The root has one more edge, to the entry of the block. -/
  root_edges : c'.edges.getD root [] = c.edges.getD root [] ++ [⟨.epsilon, c.size⟩]
  /-- The edges of the block stay in it. -/
  inside : ∀ u, c.size ≤ u → ∀ edge ∈ c'.edges.getD u [],
    c.size ≤ edge.target ∧ edge.target < c'.size ∧
      ∀ a, edge.kind = .assertion a → p.expression.usesAssertions = true
  /-- The block accepts the ordinal, at its second state. -/
  terminals : ∀ u, c'.terminals.getD u [] =
    if u = c.size + 1 then [ordinal] else c.terminals.getD u []

namespace BlockAdded

variable {c c' : Compilation} {root ordinal : ℕ} {p : HirPattern}

/-- A terminal pushed to a state that has none is the only one there. -/
theorem terminals_pushTerminal {s : ℕ} (hs : s < c.terminals.length)
    (hempty : c.terminals.getD s [] = []) (ordinal u : ℕ) :
    (c.pushTerminal s ordinal).terminals.getD u [] =
      if u = s then [ordinal] else c.terminals.getD u [] := by
  simp only [Compilation.pushTerminal, List.getD_eq_getElem?_getD, List.getElem?_modify]
  by_cases hu : u = s
  · subst hu
    rw [List.getD_eq_getElem _ [] hs] at hempty
    simp [List.getElem?_eq_getElem hs, hempty]
  · simp [hu, Ne.symm hu]

/-- One round of the loop over the patterns. -/
theorem of_compilePattern (hlength : c.terminals.length = c.size) (hroot : root < c.size)
    (hrun : compilePattern root ordinal p c = .ok c') : BlockAdded c c' root ordinal p := by
  obtain ⟨⟨start, c₁⟩, hstart, hrun⟩ := bind_eq_ok.mp hrun
  obtain ⟨⟨terminal, c₂⟩, hterminal, hrun⟩ := bind_eq_ok.mp hrun
  obtain ⟨c₄, hexpression, hrun⟩ := bind_eq_ok.mp hrun
  obtain rfl := Except.ok.inj hrun
  have hframe := (framed_expression p.expression).frame hexpression
  obtain ⟨-, rfl, rfl⟩ := Compilation.addState_eq_ok.mp hstart
  obtain ⟨-, rfl, rfl⟩ := Compilation.addState_eq_ok.mp hterminal
  set c₂ : Compilation := ⟨c.edges ++ [[]] ++ [[]], c.terminals ++ [[]] ++ [[]], c.predicates,
    c.predicateIds⟩ with hc₂
  set c₃ := c₂.pushEdge root ⟨.epsilon, c.size⟩ with hc₃
  have hterminal : Compilation.size ⟨c.edges ++ [[]], c.terminals ++ [[]], c.predicates,
      c.predicateIds⟩ = c.size + 1 := by simp [Compilation.size]
  rw [hterminal] at hframe ⊢
  have hsize₂ : c₂.size = c.size + 2 := by simp [hc₂, Compilation.size]
  have hsize₃ : c₃.size = c.size + 2 := by
    simp [hc₃, hc₂, Compilation.size, Compilation.pushEdge]
  have hsize₄ := hframe.size_le
  have hedges₂ : ∀ u, c₂.edges.getD u [] = c.edges.getD u [] := fun u =>
    (Compilation.getD_append_nil _ u).trans (Compilation.getD_append_nil _ u)
  have hterminals : c₄.terminals = c.terminals ++ List.replicate (c₄.size - c.size) [] := by
    have hcount : c₄.size - c.size = 2 + (c₄.size - c₃.size) := by omega
    rw [hframe.terminals_eq, hcount, List.replicate_add, ← List.append_assoc]
    simp [hc₃, hc₂, Compilation.pushEdge, List.replicate]
  have hlength₄ : c₄.terminals.length = c₄.size := by
    rw [hterminals, List.length_append, List.length_replicate, hlength]
    omega
  have hget : ∀ u, c₄.terminals.getD u [] = c.terminals.getD u [] := fun u => by
    rw [hterminals, Compilation.getD_append_replicate]
  refine ⟨by show c.size + 1 < c₄.size; omega, ?_, fun u hu hne => ?_, ?_,
    fun u hu edge hedge => ?_, fun u => ?_⟩
  · show (c₄.terminals.modify (c.size + 1) _).length = c₄.size
    rw [List.length_modify, hlength₄]
  · show c₄.edges.getD u [] = _
    rw [hframe.kept u (by omega) (by omega), Compilation.getD_pushEdge_of_ne hne, hedges₂]
  · show c₄.edges.getD root [] = _
    rw [hframe.kept _ (by omega) (by omega), Compilation.getD_pushEdge_self (by omega), hedges₂]
  · -- the state had no edges before the expression was compiled
    have hno : edge ∉ c₃.edges.getD u [] := by
      have hne : u ≠ root := by omega
      rw [Compilation.getD_pushEdge_of_ne hne, hedges₂, List.getD_eq_default _ _ hu]
      exact List.not_mem_nil
    have hinside : ∀ v, Inside c₃ c₄ c.size (c.size + 1) v → c.size ≤ v ∧ v < c₄.size := by
      intro v hv
      unfold Inside at hv
      omega
    obtain ⟨hle, hlt⟩ := hinside _ ((hframe.target u edge hedge).resolve_left hno)
    exact ⟨hle, hlt, (hframe.kind u edge hedge).resolve_left hno⟩
  · rw [terminals_pushTerminal (by omega), hget]
    rw [hget]
    exact List.getD_eq_default _ _ (by omega)

end BlockAdded

namespace Arranged

variable {rootOf : HirPattern → ℕ} {base : ℕ} {patterns : List HirPattern}
  {c c' : Compilation} {first : ℕ → ℕ}

/-- A further pattern adds its edge at its own root. -/
theorem rootEdges_append (first : ℕ → ℕ) (p : HirPattern) (root : ℕ) :
    rootEdges rootOf first (patterns ++ [p]) root = rootEdges rootOf first patterns root ++
      if rootOf p = root then [⟨.epsilon, first patterns.length⟩] else [] := by
  rw [rootEdges, List.zipIdx_append, List.filter_append, List.map_append]
  by_cases hroot : rootOf p = root
  · simp [hroot, rootEdges]
  · simp [hroot, rootEdges]

/-- The edges of a root depend on the blocks of the patterns only. -/
theorem rootEdges_congr {first' : ℕ → ℕ} (h : ∀ i < patterns.length, first' i = first i)
    (root : ℕ) : rootEdges rootOf first' patterns root = rootEdges rootOf first patterns root := by
  unfold rootEdges
  refine List.map_congr_left fun x hx => ?_
  have hlt := (List.mem_zipIdx (List.mem_filter.mp hx).1).2.1
  rw [Nat.zero_add] at hlt
  show (⟨.epsilon, first' x.2⟩ : Edge) = ⟨.epsilon, first x.2⟩
  rw [h x.2 hlt]

/-- The roots are states. -/
theorem base_le (h : Arranged rootOf base patterns c first) : base ≤ c.size := by
  rw [← h.first_zero, ← h.first_length]
  exact first_le h.first_lt (Nat.zero_le _) (le_refl _)

/-- The states of a block exist, and are no roots. -/
theorem bounds (h : Arranged rootOf base patterns c first) {i u : ℕ} (hi : i < patterns.length)
    (hle : first i ≤ u) (hlt : u < first (i + 1)) : base ≤ u ∧ u < c.size := by
  have hzero := first_le h.first_lt (Nat.zero_le i) hi.le
  have hlast := first_le h.first_lt (show i + 1 ≤ patterns.length from hi) (le_refl _)
  rw [h.first_zero] at hzero
  rw [h.first_length] at hlast
  exact ⟨hzero.trans hle, hlt.trans_le hlast⟩

/-- The first states of the blocks so far, and the end of the one that is added. -/
def pushFirst (first : ℕ → ℕ) (last size : ℕ) : ℕ → ℕ := fun i =>
  if i = last + 1 then size else first i

/-- The earlier blocks stay where they are. -/
theorem pushFirst_of_le (first : ℕ → ℕ) {i last : ℕ} (hi : i ≤ last) (size : ℕ) :
    pushFirst first last size i = first i := if_neg (by omega)

/-- The last block ends with the last state. -/
theorem pushFirst_succ (first : ℕ → ℕ) (last size : ℕ) :
    pushFirst first last size (last + 1) = size := if_pos rfl

/-- A position among the patterns and one more is among the patterns, or the last. -/
theorem lt_or_eq_of_lt_append {p : HirPattern} {i : ℕ} (hi : i < (patterns ++ [p]).length) :
    i < patterns.length ∨ i = patterns.length := by
  rw [List.length_append, List.length_singleton] at hi
  omega

/-- The blocks with the one that is added. -/
theorem push (h : Arranged rootOf base patterns c first) {p : HirPattern} (hroot : rootOf p < base)
    (hadded : BlockAdded c c' (rootOf p) patterns.length p) :
    Arranged rootOf base (patterns ++ [p]) c' (pushFirst first patterns.length c'.size) where
  first_zero := by
    rw [pushFirst_of_le first (Nat.zero_le _)]
    exact h.first_zero
  first_length := by rw [List.length_append, List.length_singleton, pushFirst_succ]
  first_lt i hi := by
    obtain hi | rfl := lt_or_eq_of_lt_append hi
    · rw [pushFirst_of_le first hi.le, pushFirst_of_le first hi]
      exact h.first_lt i hi
    · rw [pushFirst_of_le first (le_refl _), pushFirst_succ, h.first_length]
      exact (Nat.lt_succ_self _).trans hadded.size_lt
  terminals_length := hadded.terminals_length
  root_edges root hlt := by
    rw [rootEdges_append, rootEdges_congr fun i hi => pushFirst_of_le first hi.le _,
      pushFirst_of_le first (le_refl _), h.first_length, ← h.root_edges root hlt]
    by_cases heq : rootOf p = root
    · rw [if_pos heq, ← heq, hadded.root_edges]
    · rw [if_neg heq, List.append_nil]
      exact hadded.kept root (hlt.trans_le h.base_le) (Ne.symm heq)
  stays i q hq u hle hlt edge hedge := by
    obtain hi | rfl := lt_or_eq_of_lt_append (List.getElem?_eq_some_iff.mp hq).1
    · rw [pushFirst_of_le first hi.le] at hle ⊢
      rw [pushFirst_of_le first hi] at hlt ⊢
      rw [List.getElem?_append_left hi] at hq
      obtain ⟨hbase, hu⟩ := h.bounds hi hle hlt
      rw [hadded.kept u hu (hroot.trans_le hbase).ne'] at hedge
      exact h.stays i q hq u hle hlt edge hedge
    · rw [pushFirst_of_le first (le_refl _), h.first_length] at hle ⊢
      rw [pushFirst_succ]
      rw [List.getElem?_concat_length] at hq
      obtain rfl := Option.some.inj hq
      exact hadded.inside u hle edge hedge
  terminals i hi u hle hlt := by
    rw [hadded.terminals]
    obtain hi | rfl := lt_or_eq_of_lt_append hi
    · rw [pushFirst_of_le first hi.le] at hle ⊢
      rw [pushFirst_of_le first hi] at hlt
      -- the terminal that is new lies behind all old states
      obtain ⟨-, hu⟩ := h.bounds hi hle hlt
      rw [if_neg (by omega)]
      exact h.terminals i hi u hle hlt
    · rw [pushFirst_of_le first (le_refl _), h.first_length] at hle ⊢
      rw [List.getD_eq_default _ _ (h.terminals_length.trans_le hle)]
  root_terminals root hlt := by
    have hbase := h.base_le
    rw [hadded.terminals, if_neg (by omega)]
    exact h.root_terminals root hlt

/-- One round of the loop adds one block. -/
theorem compilePattern (h : Arranged rootOf base patterns c first) {p : HirPattern}
    (hroot : rootOf p < base)
    (hrun : Rustmatch.compilePattern (rootOf p) patterns.length p c = .ok c') :
    ∃ first', Arranged rootOf base (patterns ++ [p]) c' first' :=
  ⟨_, h.push hroot
    (BlockAdded.of_compilePattern h.terminals_length (hroot.trans_le h.base_le) hrun)⟩

/-- The loop over the patterns keeps the blocks. -/
theorem compilePatterns (h : Arranged rootOf base patterns c first) {rest : List HirPattern}
    (hroot : ∀ p ∈ rest, rootOf p < base)
    (hrun : Rustmatch.compilePatterns rootOf rest patterns.length c = .ok c') :
    ∃ first', Arranged rootOf base (patterns ++ rest) c' first' := by
  induction rest generalizing patterns c first with
  | nil =>
    obtain rfl := Except.ok.inj hrun
    rw [List.append_nil]
    exact ⟨first, h⟩
  | cons p rest ih =>
    obtain ⟨c₁, hpattern, hrun⟩ := bind_eq_ok.mp hrun
    obtain ⟨first₁, h₁⟩ := h.compilePattern (hroot p List.mem_cons_self) hpattern
    have hlength : patterns.length + 1 = (patterns ++ [p]).length := by simp
    rw [hlength] at hrun
    have := ih h₁ (fun q hq => hroot q (List.mem_cons_of_mem _ hq)) hrun
    rwa [List.append_assoc, List.singleton_append] at this

/-- A context with `n` roots and nothing else. -/
theorem roots (rootOf : HirPattern → ℕ) (n : ℕ) :
    Arranged rootOf n [] ⟨List.replicate n [], List.replicate n [], [], []⟩ fun _ => n where
  first_zero := rfl
  first_length := by simp [Compilation.size]
  first_lt i hi := absurd hi (Nat.not_lt_zero i)
  terminals_length := by simp [Compilation.size]
  root_edges root hlt := by simp [rootEdges, hlt]
  stays i p hp := by simp at hp
  terminals i hi := absurd hi (Nat.not_lt_zero i)
  root_terminals root hlt := by simp [hlt]

end Arranged

/-! ### A pattern compiled alone -/

/-- What one round of the loop does in a context, a round for the same pattern does in a context
with less in it. -/
theorem Ahead.compilePattern {c d d' : Compilation} {root ordinal : ℕ} {p : HirPattern}
    (h : Ahead c d) (root' ordinal' : ℕ)
    (hrun : Rustmatch.compilePattern root ordinal p d = .ok d') :
    ∃ c', Rustmatch.compilePattern root' ordinal' p c = .ok c' ∧ Ahead c' d' ∧
      c.size ≤ c'.size ∧ c.predicates ⊆ c'.predicates := by
  obtain ⟨⟨start, d₁⟩, hstart, hrun⟩ := bind_eq_ok.mp hrun
  obtain ⟨⟨terminal, d₂⟩, hterminal, hrun⟩ := bind_eq_ok.mp hrun
  obtain ⟨d₄, hexpression, hrun⟩ := bind_eq_ok.mp hrun
  obtain rfl := Except.ok.inj hrun
  -- every step succeeds behind as it did ahead
  obtain ⟨start', c₁, hstart', h₁⟩ := h.addState hstart
  obtain ⟨terminal', c₂, hterminal', h₂⟩ := h₁.addState hterminal
  have h₃ := h₂.pushEdge root root' ⟨.epsilon, start⟩ ⟨.epsilon, start'⟩
  have hframed := framed_expression p.expression
  obtain ⟨c₄, hexpression', h₄⟩ := hframed.follows start' terminal' h₃ hexpression
  -- states and predicates only grow from step to step
  have hframe₁ := Frame.addState hstart' 0 0 false
  have hframe₂ := Frame.addState hterminal' 0 0 false
  have hframe₃ : Frame c₂ (c₂.pushEdge root' ⟨.epsilon, start'⟩) root' start' false :=
    Frame.pushEdge nofun
  have hframe₄ := hframed.frame hexpression'
  refine ⟨c₄.pushTerminal terminal' ordinal', ?_, ⟨h₄.size_le, h₄.interned, h₄.interned',
    h₄.subset, h₄.length_le⟩, ?_, ?_⟩
  · exact bind_eq_ok.mpr ⟨_, hstart', bind_eq_ok.mpr ⟨_, hterminal',
      bind_eq_ok.mpr ⟨c₄, hexpression', rfl⟩⟩⟩
  · exact ((hframe₁.size_le.trans hframe₂.size_le).trans hframe₃.size_le).trans hframe₄.size_le
  · exact (((hframe₁.predicates_le.trans hframe₂.predicates_le).trans
      hframe₃.predicates_le).trans hframe₄.predicates_le).subset

/-- Each pattern of a list that compiles compiles alone. -/
theorem compile_singleton {rootOf : HirPattern → ℕ} {patterns : List HirPattern} {ordinal : ℕ}
    {d d' : Compilation} (h : Ahead ⟨[[]], [[]], [], []⟩ d)
    (hrun : compilePatterns rootOf patterns ordinal d = .ok d') {p : HirPattern}
    (hp : p ∈ patterns) : ∃ alone, compile [p] = .ok alone := by
  induction patterns generalizing ordinal d with
  | nil => exact absurd hp List.not_mem_nil
  | cons q rest ih =>
    obtain ⟨d₁, hpattern, hrun⟩ := bind_eq_ok.mp hrun
    obtain ⟨c₁, halone, h₁, hsize, hsubset⟩ := h.compilePattern 0 0 hpattern
    cases List.mem_cons.mp hp with
    | inl heq =>
      subst heq
      have hloop : compilePatterns (fun _ => 0) [p] 0 ⟨[[]], [[]], [], []⟩ = .ok c₁ :=
        bind_eq_ok.mpr ⟨c₁, halone, rfl⟩
      exact ⟨_, bind_eq_ok.mpr ⟨0, rfl, bind_eq_ok.mpr ⟨c₁, hloop, rfl⟩⟩⟩
    | inr hrest =>
      refine ih ⟨hsize.trans h₁.size_le, h.interned, h₁.interned', List.nil_subset _,
        h₁.length_le⟩ hrun hrest

/-! ### The finished database -/

namespace PatternDatabase

variable (database : PatternDatabase)

/-- The states that the edges lead to. -/
def Reaches : StateId → StateId → Prop :=
  ReflTransGen fun s t => ∃ edge ∈ database.edgesFrom s, edge.target = t

/-- The slices of the states tile the flat arrays, all indices point into the database, and each
ordinal stands at exactly one state. -/
structure Intact : Prop extends database.WellFormed where
  /-- The edges of the states follow each other without a gap. -/
  edges_tile : Tiles 0 (database.states.map fun s => (s.edgeStart, s.edgeLen))
    database.edges.length
  /-- So do the ordinals that they accept. -/
  terminals_tile : Tiles 0 (database.states.map fun s => (s.terminalStart, s.terminalLen))
    database.terminalOrdinals.length
  /-- Every ordinal is accepted at one state. -/
  ordinal_once : ∀ i < database.patternCount, ∃! s, i ∈ database.terminalsAt s

/-- The states behind the `roots` roots fall into blocks, one for each pattern. A pattern is entered
by one edge of its own root, nothing leads out of its block, and its ordinal is accepted as it is
when the pattern is compiled alone. -/
structure Isolates (rootOf : HirPattern → ℕ) (roots : ℕ) (patterns : List HirPattern)
    (first : ℕ → ℕ) : Prop where
  /-- The first block begins behind the roots. -/
  first_zero : first 0 = roots
  /-- The last block ends with the last state. -/
  first_length : first patterns.length = database.stateCount
  /-- No block is empty. -/
  first_lt : ∀ i < patterns.length, first i < first (i + 1)
  /-- A root has one edge for each of its patterns, to its block. -/
  root_edges : ∀ root < roots, database.edgesFrom root = rootEdges rootOf first patterns root
  /-- What is reached from a block lies in it. -/
  stays : ∀ i < patterns.length, ∀ s t, first i ≤ s → s < first (i + 1) →
    database.Reaches s t → first i ≤ t ∧ t < first (i + 1)
  /-- Assertions are asked for in the blocks of patterns with assertions only. -/
  assertions : ∀ i p, patterns[i]? = some p → ∀ s, first i ≤ s → s < first (i + 1) →
    ∀ edge ∈ database.edgesFrom s, ∀ a, edge.kind = .assertion a →
      p.expression.usesAssertions = true
  /-- Nothing is reached from the blocks of two patterns. -/
  disjoint : ∀ i < patterns.length, ∀ j < patterns.length, i ≠ j →
    Disjoint {s | database.Reaches (first i) s} {s | database.Reaches (first j) s}
  /-- From a block only its own ordinal is accepted. -/
  ordinals : ∀ i < patterns.length, ∀ s, database.Reaches (first i) s →
    ∀ j ∈ database.terminalsAt s, j = i
  /-- The ends of a pattern are those of the pattern alone, and only its own root has them. -/
  ends_eq : ∀ i p, patterns[i]? = some p → ∃ alone, compile [p] = .ok alone ∧
    ∀ (R : Reading) (start : ℕ),
      database.ends R (rootOf p) i start = alone.ends R alone.root 0 start ∧
        ∀ root < roots, root ≠ rootOf p → database.ends R root i start = ∅

end PatternDatabase

namespace Layout

variable {layout : Layout}

/-- The edges of one more state follow those of the others. -/
theorem edges_tile_push
    (h : Tiles 0 (layout.states.map fun s => (s.edgeStart, s.edgeLen)) layout.edges.length)
    (pending : List Edge × List ℕ) :
    Tiles 0 ((layout.push pending).states.map fun s => (s.edgeStart, s.edgeLen))
      (layout.push pending).edges.length := by
  simpa [push] using h.append pending.1.length

/-- The terminals of one more state follow those of the others. -/
theorem terminals_tile_push
    (h : Tiles 0 (layout.states.map fun s => (s.terminalStart, s.terminalLen))
      layout.terminalOrdinals.length) (pending : List Edge × List ℕ) :
    Tiles 0 ((layout.push pending).states.map fun s => (s.terminalStart, s.terminalLen))
      (layout.push pending).terminalOrdinals.length := by
  simpa [push] using h.append pending.2.length

/-- The slices of a layout follow one another. -/
theorem tiles (c : Compilation) :
    Tiles 0 (c.layout.states.map fun s => (s.edgeStart, s.edgeLen)) c.layout.edges.length ∧
      Tiles 0 (c.layout.states.map fun s => (s.terminalStart, s.terminalLen))
        c.layout.terminalOrdinals.length := by
  unfold Compilation.layout
  generalize c.edges.zip c.terminals = pending
  -- the induction is on the states laid out so far, in order
  induction pending using List.reverseRecOn with
  | nil => exact ⟨rfl, rfl⟩
  | append_singleton pending last ih =>
    rw [List.foldl_append, List.foldl_cons, List.foldl_nil]
    exact ⟨edges_tile_push ih.1 last, terminals_tile_push ih.2 last⟩

end Layout

namespace Compilation

variable {rootOf : HirPattern → ℕ} {base : ℕ} {patterns : List HirPattern} {c : Compilation}
  {first : ℕ → ℕ} {pieces : ℕ → Piece} (root : StateId) (ua : Bool)

/-- The database of an arranged context is intact. -/
theorem intact_database (hpieces : Pieces rootOf base patterns c pieces) (hroot : root < c.size) :
    (c.database root patterns ua).Intact where
  toWellFormed := wellFormed_database root patterns ua hpieces.valid hroot fun s i hi =>
    ((hpieces.terminals_iff s i).mp hi).1
  edges_tile := (Layout.tiles c).1
  terminals_tile := (Layout.tiles c).2
  ordinal_once i hi := by
    have hi : i < (patterns.map HirPattern.patternId).length := hi
    rw [List.length_map] at hi
    simp only [terminalsAt_database root patterns ua hpieces.valid, hpieces.terminals_iff]
    exact ⟨(pieces i).terminal, ⟨hi, rfl⟩, fun s hs => hs.2⟩

/-- Nothing leads out of the block of a pattern. -/
theorem block_of_reaches (h : Arranged rootOf base patterns c first) (hvalid : c.Valid) {i s t : ℕ}
    (hi : i < patterns.length) (hle : first i ≤ s) (hlt : s < first (i + 1))
    (hreaches : (c.database root patterns ua).Reaches s t) : first i ≤ t ∧ t < first (i + 1) := by
  induction hreaches with
  | refl => exact ⟨hle, hlt⟩
  | @tail u v _ hstep ih =>
    obtain ⟨edge, hedge, rfl⟩ := hstep
    rw [edgesFrom_database root patterns ua hvalid] at hedge
    have hp : patterns[i]? = some patterns[i] := List.getElem?_eq_getElem hi
    obtain ⟨hle', hlt', -⟩ := h.stays i _ hp u ih.1 ih.2 edge hedge
    exact ⟨hle', hlt'⟩

/-- The database of an arranged context isolates its patterns. -/
theorem isolates_database (h : Arranged rootOf base patterns c first)
    (hpieces : Pieces rootOf base patterns c pieces) (hrootOf : ∀ p ∈ patterns, rootOf p < base)
    (halone : ∀ p ∈ patterns, ∃ alone, compile [p] = .ok alone) :
    (c.database root patterns ua).Isolates rootOf base patterns first where
  first_zero := h.first_zero
  first_length := by
    have hlength : c.layout.states.length = c.size := by
      rw [c.holds_layout.length_eq, List.length_zip, h.terminals_length]
      exact min_self _
    exact h.first_length.trans hlength.symm
  first_lt := h.first_lt
  root_edges r hr := by
    rw [edgesFrom_database root patterns ua hpieces.valid]
    exact h.root_edges r hr
  stays i hi s t hle hlt hreaches :=
    block_of_reaches root ua h hpieces.valid hi hle hlt hreaches
  assertions i p hp s hle hlt edge hedge := by
    rw [edgesFrom_database root patterns ua hpieces.valid] at hedge
    exact (h.stays i p hp s hle hlt edge hedge).2.2
  disjoint i hi j hj hne := by
    rw [Set.disjoint_left]
    intro s hsi hsj
    -- what is reached from an entry stays in its block, and blocks are disjoint
    have hblock : ∀ k < patterns.length, (c.database root patterns ua).Reaches (first k) s →
        first k ≤ s ∧ s < first (k + 1) := fun k hk hreaches =>
      block_of_reaches root ua h hpieces.valid hk (le_refl _) (h.first_lt k hk) hreaches
    exact hne (block_unique h.first_lt hi hj (hblock i hi hsi) (hblock j hj hsj))
  ordinals i hi s hreaches j hj := by
    obtain ⟨hle, hlt⟩ := block_of_reaches root ua h hpieces.valid hi (le_refl _) (h.first_lt i hi)
      hreaches
    rw [terminalsAt_database root patterns ua hpieces.valid, h.terminals i hi s hle hlt] at hj
    split at hj
    · exact List.mem_singleton.mp hj
    · exact absurd hj List.not_mem_nil
  ends_eq i p hp := by
    have hmem : p ∈ patterns := List.mem_of_getElem? hp
    obtain ⟨alone, hcompile⟩ := halone p hmem
    refine ⟨alone, hcompile, fun R start => ⟨?_, fun r hr hne => ?_⟩⟩
    -- both sides accept what the pattern itself accepts
    · ext stop
      simp only [PatternDatabase.ends, Set.mem_ofPred_eq, accepts_of_compile hcompile,
        accepts_database root patterns ua hpieces (hrootOf p hmem), hp]
      simp
    · ext stop
      simp only [PatternDatabase.ends, Set.mem_ofPred_eq,
        accepts_database root patterns ua hpieces hr, hp, Option.some.injEq, exists_eq_left']
      simp [Ne.symm hne]

end Compilation

/-- What the loop over the patterns makes of `n` roots. -/
theorem isolates_of_compilePatterns {rootOf : HirPattern → ℕ} {n : ℕ} (hn : 0 < n)
    {patterns : List HirPattern} {c : Compilation} (hroot : ∀ p ∈ patterns, rootOf p < n)
    (hrun : compilePatterns rootOf patterns 0
      ⟨List.replicate n [], List.replicate n [], [], []⟩ = .ok c)
    {root : StateId} (hlt : root < n) (ua : Bool) :
    (c.database root patterns ua).Intact ∧
      ∃ first, (c.database root patterns ua).Isolates rootOf n patterns first := by
  obtain ⟨pieces, hpieces⟩ := pieces_of_compilePatterns hroot hrun
  obtain ⟨first, hfirst⟩ := (Arranged.roots rootOf n).compilePatterns hroot hrun
  rw [List.nil_append] at hfirst
  have hstart : Ahead ⟨[[]], [[]], [], []⟩
      ⟨List.replicate n [], List.replicate n [], [], []⟩ := by
    refine ⟨?_, fun _ _ => by simp, fun _ _ => by simp, List.nil_subset _, by simp⟩
    show 1 ≤ (List.replicate n ([] : List Edge)).length
    rw [List.length_replicate]
    exact hn
  refine ⟨Compilation.intact_database root ua hpieces (hlt.trans_le hpieces.base_le), first, ?_⟩
  exact Compilation.isolates_database root ua hfirst hpieces hroot
    fun p hp => compile_singleton hstart hrun hp

namespace PatternDatabase.Isolates

variable {database : PatternDatabase} {rootOf : HirPattern → ℕ} {roots : ℕ}
  {patterns : List HirPattern} {first : ℕ → ℕ}

/-- A root has the edges to the blocks of its patterns. -/
theorem mem_rootEdges_iff {root : ℕ} {edge : Edge} :
    edge ∈ rootEdges rootOf first patterns root ↔
      ∃ i p, patterns[i]? = some p ∧ rootOf p = root ∧ edge = ⟨.epsilon, first i⟩ := by
  simp only [rootEdges, List.mem_map, List.mem_filter, decide_eq_true_eq, Prod.exists,
    List.mem_zipIdx_iff_getElem?]
  constructor
  · rintro ⟨p, i, ⟨hp, hroot⟩, rfl⟩
    exact ⟨i, p, hp, hroot, rfl⟩
  · rintro ⟨i, p, hp, hroot, rfl⟩
    exact ⟨p, i, ⟨hp, hroot⟩, rfl⟩

/-- A pattern is entered from its own root only. -/
theorem entered_iff (h : database.Isolates rootOf roots patterns first) {i root : ℕ}
    {p : HirPattern} (hp : patterns[i]? = some p) (hroot : root < roots) :
    (∃ edge ∈ database.edgesFrom root, edge.target = first i) ↔ rootOf p = root := by
  have hi := (List.getElem?_eq_some_iff.mp hp).1
  rw [h.root_edges root hroot]
  constructor
  · rintro ⟨edge, hedge, htarget⟩
    obtain ⟨j, q, hq, rfl, rfl⟩ := mem_rootEdges_iff.mp hedge
    have hj := (List.getElem?_eq_some_iff.mp hq).1
    have htarget : first j = first i := htarget
    have hlti := h.first_lt i hi
    have hltj := h.first_lt j hj
    obtain rfl : i = j := block_unique h.first_lt hi hj ⟨le_refl _, hlti⟩ ⟨by omega, by omega⟩
    rw [Option.some.inj (hp.symm.trans hq)]
  · rintro rfl
    exact ⟨_, mem_rootEdges_iff.mpr ⟨i, p, hp, rfl, rfl⟩, rfl⟩

/-- From a root, the edges lead to the blocks of its own patterns only. -/
theorem block_of_reaches (h : database.Isolates rootOf roots patterns first) {root s : ℕ}
    (hroot : root < roots) (hreaches : database.Reaches root s) :
    s = root ∨ ∃ i p, patterns[i]? = some p ∧ rootOf p = root ∧
      first i ≤ s ∧ s < first (i + 1) := by
  rcases ReflTransGen.cases_head hreaches with rfl | ⟨t, ⟨edge, hedge, rfl⟩, hreaches⟩
  · exact Or.inl rfl
  · rw [h.root_edges root hroot] at hedge
    obtain ⟨i, p, hp, hrootOf, rfl⟩ := mem_rootEdges_iff.mp hedge
    have hi := (List.getElem?_eq_some_iff.mp hp).1
    exact Or.inr ⟨i, p, hp, hrootOf,
      h.stays i hi (first i) s (le_refl _) (h.first_lt i hi) hreaches⟩

/-- The block of a pattern is out of reach of the other roots. -/
theorem not_reaches (h : database.Isolates rootOf roots patterns first) {i root s : ℕ}
    {p : HirPattern} (hp : patterns[i]? = some p) (hroot : root < roots) (hne : rootOf p ≠ root)
    (hle : first i ≤ s) (hlt : s < first (i + 1)) : ¬ database.Reaches root s := by
  intro hreaches
  have hi := (List.getElem?_eq_some_iff.mp hp).1
  rcases h.block_of_reaches hroot hreaches with rfl | ⟨j, q, hq, hrootOf, hblock⟩
  · have hzero := first_le h.first_lt (Nat.zero_le i) hi.le
    rw [h.first_zero] at hzero
    omega
  · have hj := (List.getElem?_eq_some_iff.mp hq).1
    obtain rfl := block_unique h.first_lt hi hj ⟨hle, hlt⟩ hblock
    rw [Option.some.inj (hp.symm.trans hq)] at hne
    exact hne hrootOf

/-- Behind a root whose patterns have no assertions there are none. -/
theorem kind_ne_assertion (h : database.Isolates rootOf roots patterns first) {root s : ℕ}
    (hroot : root < roots)
    (hfree : ∀ p ∈ patterns, rootOf p = root → p.expression.usesAssertions = false)
    (hreaches : database.Reaches root s) {edge : Edge} (hedge : edge ∈ database.edgesFrom s)
    (a : Assertion) : edge.kind ≠ .assertion a := by
  intro hkind
  rcases h.block_of_reaches hroot hreaches with rfl | ⟨i, p, hp, hrootOf, hle, hlt⟩
  · rw [h.root_edges s hroot] at hedge
    obtain ⟨i, p, -, -, rfl⟩ := mem_rootEdges_iff.mp hedge
    cases hkind
  · have hassertion := h.assertions i p hp s hle hlt edge hedge a hkind
    rw [hfree p (List.mem_of_getElem? hp) hrootOf] at hassertion
    cases hassertion

end PatternDatabase.Isolates

/-- Both compilers return databases that are intact and keep their patterns apart: the root of
`compile` has one edge for each pattern, and under the two roots of `compile_shared_cohorts` each
pattern is entered from the root of its own cohort, is out of reach of the other one, and no
assertion is asked for behind the root of the patterns without assertions. -/
theorem compiled_patterns_are_isolated (patterns : List HirPattern) :
    (∀ database, compile patterns = .ok database →
      database.Intact ∧ ∃ first,
        database.Isolates (fun _ => database.root) (database.root + 1) patterns first ∧
        database.edgesFrom database.root =
          (List.range patterns.length).map fun i => ⟨.epsilon, first i⟩) ∧
    ∀ shared, compileSharedCohorts patterns = .ok shared →
      shared.database.Intact ∧ ∃ first,
        shared.database.Isolates cohortRoot 2 patterns first ∧
        (∀ i p, patterns[i]? = some p →
          ((∃ edge ∈ shared.database.edgesFrom shared.assertionFree.root,
              edge.target = first i) ↔ p.expression.usesAssertions = false) ∧
          ((∃ edge ∈ shared.database.edgesFrom shared.assertionBearing.root,
              edge.target = first i) ↔ p.expression.usesAssertions = true) ∧
          ∀ s, first i ≤ s → s < first (i + 1) →
            (p.expression.usesAssertions = true →
              ¬ shared.database.Reaches shared.assertionFree.root s) ∧
            (p.expression.usesAssertions = false →
              ¬ shared.database.Reaches shared.assertionBearing.root s)) ∧
        ∀ s, shared.database.Reaches shared.assertionFree.root s →
          ∀ edge ∈ shared.database.edgesFrom s, ∀ a, edge.kind ≠ .assertion a := by
  refine ⟨fun database h => ?_, fun shared h => ?_⟩
  · obtain ⟨root, hroot, h⟩ := bind_eq_ok.mp h
    obtain rfl : 0 = root := Except.ok.inj hroot
    obtain ⟨c, hrun, h⟩ := bind_eq_ok.mp h
    obtain rfl := Except.ok.inj h
    -- one root for all patterns
    obtain ⟨hintact, first, hfirst⟩ := @isolates_of_compilePatterns (fun _ => 0) 1 Nat.one_pos
      patterns c (fun _ _ => Nat.one_pos) hrun 0 Nat.one_pos
      (patterns.any fun pattern => pattern.expression.usesAssertions)
    refine ⟨hintact, first, hfirst, ?_⟩
    refine (hfirst.root_edges 0 Nat.one_pos).trans ?_
    simp [rootEdges, List.range_eq_range', ← List.zipIdx_map_snd]
  · obtain ⟨root, hroot, h⟩ := bind_eq_ok.mp h
    obtain rfl : 0 = root := Except.ok.inj hroot
    obtain ⟨_, -, h⟩ := bind_eq_ok.mp h
    obtain ⟨c, hrun, h⟩ := bind_eq_ok.mp h
    obtain rfl := Except.ok.inj h
    -- two roots, and a pattern is entered from that of its cohort
    obtain ⟨hintact, first, hfirst⟩ := @isolates_of_compilePatterns cohortRoot 2 Nat.two_pos
      patterns c (fun p _ => cohortRoot_lt p) hrun 0 Nat.two_pos false
    have hfree : ∀ p : HirPattern, cohortRoot p = 0 ↔ p.expression.usesAssertions = false := by
      intro p
      unfold cohortRoot
      cases p.expression.usesAssertions <;> simp
    have hbearing : ∀ p : HirPattern, cohortRoot p = 1 ↔ p.expression.usesAssertions = true := by
      intro p
      unfold cohortRoot
      cases p.expression.usesAssertions <;> simp
    refine ⟨hintact, first, hfirst, fun i p hp => ⟨?_, ?_, fun s hle hlt => ⟨?_, ?_⟩⟩, ?_⟩
    · exact (hfirst.entered_iff hp Nat.two_pos).trans (hfree p)
    · exact (hfirst.entered_iff hp Nat.one_lt_two).trans (hbearing p)
    · intro huses
      refine hfirst.not_reaches hp Nat.two_pos ?_ hle hlt
      rw [(hbearing p).mpr huses]
      exact Nat.one_ne_zero
    · intro huses
      refine hfirst.not_reaches hp Nat.one_lt_two ?_ hle hlt
      rw [(hfree p).mpr huses]
      exact Nat.zero_ne_one
    · intro s hreaches edge hedge a
      exact hfirst.kind_ne_assertion Nat.two_pos (fun p _ => (hfree p).mp) hreaches hedge a

end Rustmatch

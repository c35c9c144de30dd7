import Rustmatch.Nfa.Fragments

/-!
# Compiled pattern lists

The compiler puts the patterns of a list side by side: each gets its own fragment, reached by one
edge from its root, and its own terminal state. `Pieces` is what holds after any number of rounds
of the loop over the patterns. It gives the meaning of every database the compiler returns: an
ordinal is accepted from a root exactly along the runs of its own expression, whatever other
patterns are compiled with it.

## Main results

* `Pieces.compilePatterns`: the loop over the patterns keeps the invariant;
* `Pieces.accepts_iff`: what a finished compilation accepts;
* `Compilation.database_graph`, `Compilation.wellFormed_database`: the flat layout reads back the
  pending edges and terminals.
-/

open LabelledGraph Relation

namespace Rustmatch

/-! ### The graph of a database -/

namespace PatternDatabase

variable (database : PatternDatabase)

/-- The label of an edge, when its predicate exists. -/
def label : EdgeKind → Option Label
  | .epsilon => some .epsilon
  | .assertion a => some (.assertion a)
  | .symbol s => some (.symbol s)
  | .predicate id => database.predicates[id]?.map .predicate

/-- The graph of the stored edges. -/
def Graph (s : ℕ) (l : Label) (t : ℕ) : Prop :=
  ∃ edge ∈ database.edgesFrom s, edge.target = t ∧ database.label edge.kind = some l

/-- A path from `root` leads from `c` to `d` and reaches a state that reports `ordinal`. -/
def Accepts (R : Reading) (root ordinal : ℕ) (c d : Config) : Prop :=
  ∃ s, ordinal ∈ database.terminalsAt s ∧ Along R.act database.Graph root s c d

/-- The ends after `start` at which `ordinal` is accepted from `root`. -/
def ends (R : Reading) (root ordinal start : ℕ) : Set ℕ :=
  {stop | start < stop ∧ ∃ phase, database.Accepts R root ordinal (start, false) (stop, phase)}

end PatternDatabase

/-! ### The loop over the patterns -/

/-- The fragment of one pattern. -/
structure Piece where
  /-- The state that the piece is entered through. -/
  first : ℕ
  /-- The state that accepts. -/
  terminal : ℕ
  /-- The other states. -/
  inner : Set ℕ
  /-- The edges. -/
  graph : ℕ → Label → ℕ → Prop

/-- All states of the fragment. -/
def Piece.states (piece : Piece) : Set ℕ := {piece.first, piece.terminal} ∪ piece.inner

/-- The fragment of pattern `p` inside `c`: from outside it is entered through its first state
only, by the edge from the root of `p`. -/
structure Piece.Holds (piece : Piece) (rootOf : HirPattern → ℕ) (base : ℕ) (p : HirPattern)
    (c : Compilation) : Prop where
  /-- The edges are those of a fragment. -/
  fragment : Fragment piece.graph piece.first piece.terminal piece.inner
  /-- The paths through the piece are the runs of the expression. -/
  along : ∀ R : Reading,
    Along R.act piece.graph piece.first piece.terminal = p.expression.walk R
  /-- Its states are states of `c`, and no roots. -/
  bounds : ∀ u ∈ piece.states, base ≤ u ∧ u < c.size
  /-- The edges of its states are its edges. -/
  graph_iff : ∀ u ∈ piece.states, ∀ l v, c.Graph u l v ↔ piece.graph u l v
  /-- The root of the pattern leads to its first state. -/
  entered : c.Graph (rootOf p) .epsilon piece.first

/-- After some rounds of the loop over the patterns. States below `base` are the roots. -/
structure Pieces (rootOf : HirPattern → ℕ) (base : ℕ) (patterns : List HirPattern)
    (c : Compilation) (pieces : ℕ → Piece) : Prop where
  /-- The context is valid. -/
  valid : c.Valid
  /-- The roots are states. -/
  base_le : base ≤ c.size
  /-- Every pattern so far has its piece. -/
  holds : ∀ i p, patterns[i]? = some p → (pieces i).Holds rootOf base p c
  /-- No two pieces share a state. -/
  disjoint : ∀ i j, i < patterns.length → j < patterns.length → i ≠ j →
    Disjoint (pieces i).states (pieces j).states
  /-- A root leads to the pieces of its own patterns only. -/
  root_edges : ∀ r < base, ∀ l v, c.Graph r l v →
    l = .epsilon ∧ ∃ i p, patterns[i]? = some p ∧ rootOf p = r ∧ v = (pieces i).first
  /-- The terminal of a piece accepts its ordinal, and nothing else is accepted. -/
  terminals_iff : ∀ s i, i ∈ c.terminals.getD s [] ↔
    i < patterns.length ∧ s = (pieces i).terminal

namespace Compilation

variable {c : Compilation}

/-- A terminal is no edge. -/
theorem pushTerminal_graph (s i : ℕ) : (c.pushTerminal s i).Graph = c.Graph := rfl

/-- One state accepts one ordinal more. -/
theorem mem_pushTerminal_iff (h : c.Valid) {s t i j : ℕ} (hs : s < c.size) :
    j ∈ (c.pushTerminal s i).terminals.getD t [] ↔
      j ∈ c.terminals.getD t [] ∨ t = s ∧ j = i := by
  simp only [pushTerminal, List.getD_eq_getElem?_getD, List.getElem?_modify]
  by_cases ht : t = s
  · subst ht
    have hlt : t < c.terminals.length := h.terminals_length ▸ hs
    have hget : c.terminals[t]? = some c.terminals[t] := List.getElem?_eq_getElem hlt
    simp [hget]
  · simp [ht, Ne.symm ht]

/-- A terminal keeps the context valid. -/
theorem Valid.pushTerminal (h : c.Valid) (s i : ℕ) : (c.pushTerminal s i).Valid where
  terminals_length := by
    rw [Compilation.pushTerminal, List.length_modify]
    exact h.terminals_length
  target_lt := h.target_lt
  predicate_lt := h.predicate_lt
  predicateIds := h.predicateIds

end Compilation

namespace Pieces

variable {rootOf : HirPattern → ℕ} {base : ℕ} {patterns : List HirPattern}
  {c c' : Compilation} {pieces : ℕ → Piece}

/-- A context that holds roots only. -/
theorem nil (hvalid : c.Valid) (hbase : base ≤ c.size) (hgraph : c.Graph = ⊥)
    (hterminals : ∀ s, c.terminals.getD s [] = []) (pieces : ℕ → Piece) :
    Pieces rootOf base [] c pieces where
  valid := hvalid
  base_le := hbase
  holds i p hp := by simp at hp
  disjoint i j hi := absurd hi (Nat.not_lt_zero i)
  root_edges r _ l v h := by
    rw [hgraph] at h
    exact h.elim
  terminals_iff s i := by
    rw [hterminals s]
    simp

end Pieces

/-- What one round of the loop adds to `c`: a piece of new states, the edge from the root that
enters it, and the ordinal at its terminal. -/
structure PieceAdded (c c' : Compilation) (root ordinal : ℕ) (p : HirPattern) (piece : Piece) :
    Prop where
  /-- The new context is valid. -/
  valid : c'.Valid
  /-- No state is lost. -/
  size_le : c.size ≤ c'.size
  /-- The edges of the piece are those of a fragment. -/
  fragment : Fragment piece.graph piece.first piece.terminal piece.inner
  /-- The paths through the piece are the runs of the expression. -/
  along : ∀ R : Reading,
    Along R.act piece.graph piece.first piece.terminal = p.expression.walk R
  /-- Its states are new. -/
  bounds : ∀ u ∈ piece.states, c.size ≤ u ∧ u < c'.size
  /-- The edges are the old ones, the edge from the root, and those of the piece. -/
  graph_eq : c'.Graph = c.Graph ⊔ single root .epsilon piece.first ⊔ piece.graph
  /-- The terminal of the piece accepts the ordinal. -/
  terminals_iff : ∀ s i, i ∈ c'.terminals.getD s [] ↔
    i ∈ c.terminals.getD s [] ∨ s = piece.terminal ∧ i = ordinal

namespace PieceAdded

variable {c c' : Compilation} {root ordinal : ℕ} {p : HirPattern} {piece : Piece}

/-- One round of the loop over the patterns. -/
theorem of_compilePattern (hc : c.Valid) (hroot : root < c.size)
    (hrun : compilePattern root ordinal p c = .ok c') :
    ∃ piece, PieceAdded c c' root ordinal p piece := by
  obtain ⟨⟨first, c₁⟩, hfirst, hrun⟩ := bind_eq_ok.mp hrun
  obtain ⟨⟨terminal, c₂⟩, hterminal, hrun⟩ := bind_eq_ok.mp hrun
  obtain ⟨c₄, hexpression, hrun⟩ := bind_eq_ok.mp hrun
  obtain rfl := Except.ok.inj hrun
  obtain ⟨hfirst', hsize₁, hgrows₁⟩ := Compilation.grows_addState hc hfirst
  obtain ⟨hterminal', hsize₂, hgrows₂⟩ := Compilation.grows_addState hgrows₁.valid hterminal
  obtain ⟨hsize₃, hgrows₃⟩ := @Compilation.grows_pushEdge c₂ hgrows₂.valid root first
    .epsilon .epsilon (by omega) (by omega) rfl
  obtain ⟨N, hgrows₄, hfragment, halong⟩ := compiles_expression p.expression hgrows₃.valid
    (by omega) (by omega) (by omega) hexpression
  have hsize₄ := hgrows₄.size_le
  -- the two states have no edges, so the entry and the fragment are all that is new
  have hgrows := ((hgrows₁.trans hgrows₂).trans hgrows₃).trans hgrows₄
  rw [bot_sup_eq, bot_sup_eq] at hgrows
  refine ⟨⟨first, terminal, Set.Ico (c₂.pushEdge root ⟨.epsilon, first⟩).size c₄.size, N⟩, ?_⟩
  refine ⟨hgrows₄.valid.pushTerminal _ _, hgrows.size_le, hfragment, fun R => (halong R).2, ?_, ?_,
    fun s i => ?_⟩
  · show ∀ u, _ → c.size ≤ u ∧ u < c₄.size
    rintro u ((rfl | rfl) | ⟨h₁, h₂⟩)
    · show c.size ≤ u ∧ u < c₄.size
      omega
    · show c.size ≤ u ∧ u < c₄.size
      omega
    · exact ⟨by omega, h₂⟩
  · rw [Compilation.pushTerminal_graph, hgrows.graph_eq, sup_assoc]
  · rw [Compilation.mem_pushTerminal_iff hgrows₄.valid (by omega), hgrows.terminals_eq]

variable (h : PieceAdded c c' root ordinal p piece)
include h

/-- The edges that leave a new state are those of the piece. -/
theorem graph_new (hc : c.Valid) (hroot : root < c.size) {u : ℕ} (hu : c.size ≤ u) (l : Label)
    (v : ℕ) : c'.Graph u l v ↔ piece.graph u l v := by
  rw [h.graph_eq]
  constructor
  · rintro ((hold | ⟨hu', -, -⟩) | hpiece)
    · exact absurd (hc.graph_lt hold).1 (not_lt.mpr hu)
    · omega
    · exact hpiece
  · exact Or.inr

/-- The piece has no edge that leaves an old state. -/
theorem not_graph_of_lt {u : ℕ} (hu : u < c.size) {l : Label} {v : ℕ} : ¬ piece.graph u l v := by
  intro hpiece
  have hmem : u ∈ piece.states := by
    rcases h.fragment.source hpiece with hsource | hsource
    · exact Or.inl (Or.inl hsource)
    · exact Or.inr hsource
  exact absurd (h.bounds u hmem).1 (not_le.mpr hu)

/-- Old states but the root keep their edges. -/
theorem graph_old {u : ℕ} (hu : u < c.size) (hne : u ≠ root) (l : Label) (v : ℕ) :
    c'.Graph u l v ↔ c.Graph u l v := by
  rw [h.graph_eq]
  constructor
  · rintro ((hold | ⟨hu', -, -⟩) | hpiece)
    · exact hold
    · exact absurd hu' hne
    · exact absurd hpiece (h.not_graph_of_lt hu)
  · exact fun hold => Or.inl (Or.inl hold)

end PieceAdded

/-- The pieces so far, and the one that is added. -/
def Piece.push (pieces : ℕ → Piece) (last : ℕ) (piece : Piece) : ℕ → Piece := fun i =>
  if i = last then piece else pieces i

/-- The last piece is the new one. -/
theorem Piece.push_self (pieces : ℕ → Piece) (last : ℕ) (piece : Piece) :
    Piece.push pieces last piece last = piece := if_pos rfl

/-- The other pieces stay. -/
theorem Piece.push_of_ne (pieces : ℕ → Piece) {i last : ℕ} (hi : i ≠ last) (piece : Piece) :
    Piece.push pieces last piece i = pieces i := if_neg hi

namespace Pieces

variable {rootOf : HirPattern → ℕ} {base : ℕ} {patterns : List HirPattern}
  {c c' : Compilation} {pieces : ℕ → Piece} {p : HirPattern} {piece : Piece}

/-- A piece that is there already stays as it is. -/
theorem holds_old (h : Pieces rootOf base patterns c pieces)
    (hadded : PieceAdded c c' (rootOf p) patterns.length p piece) (hroot : rootOf p < base) {i : ℕ}
    {q : HirPattern} (hq : patterns[i]? = some q) : (pieces i).Holds rootOf base q c' := by
  obtain ⟨hfragment, halong, hbounds, hgraph, hentered⟩ := h.holds i q hq
  refine ⟨hfragment, halong, fun u hu => ?_, fun u hu l v => ?_, ?_⟩
  · exact ⟨(hbounds u hu).1, (hbounds u hu).2.trans_le hadded.size_le⟩
  · have hne : u ≠ rootOf p := (hroot.trans_le (hbounds u hu).1).ne'
    rw [hadded.graph_old (hbounds u hu).2 hne]
    exact hgraph u hu l v
  · rw [hadded.graph_eq]
    exact Or.inl (Or.inl hentered)

/-- The piece that is added is one of the new pattern. -/
theorem holds_new (h : Pieces rootOf base patterns c pieces)
    (hadded : PieceAdded c c' (rootOf p) patterns.length p piece) (hroot : rootOf p < base) :
    piece.Holds rootOf base p c' where
  fragment := hadded.fragment
  along := hadded.along
  bounds u hu := ⟨h.base_le.trans (hadded.bounds u hu).1, (hadded.bounds u hu).2⟩
  graph_iff u hu := hadded.graph_new h.valid (hroot.trans_le h.base_le) (hadded.bounds u hu).1
  entered := by
    rw [hadded.graph_eq]
    exact Or.inl (Or.inr ⟨rfl, rfl, rfl⟩)

/-- The piece that is added has no state of another one. -/
theorem disjoint_new (h : Pieces rootOf base patterns c pieces)
    (hadded : PieceAdded c c' (rootOf p) patterns.length p piece) {i : ℕ}
    (hi : i < patterns.length) : Disjoint (pieces i).states piece.states := by
  rw [Set.disjoint_left]
  intro u hu hu'
  have hlt := ((h.holds i _ (List.getElem?_eq_getElem hi)).bounds u hu).2
  exact absurd (hadded.bounds u hu').1 (not_le.mpr hlt)

/-- The pieces with the one that is added. -/
theorem push (h : Pieces rootOf base patterns c pieces)
    (hadded : PieceAdded c c' (rootOf p) patterns.length p piece) (hroot : rootOf p < base) :
    Pieces rootOf base (patterns ++ [p]) c' (Piece.push pieces patterns.length piece) where
  valid := hadded.valid
  base_le := h.base_le.trans hadded.size_le
  holds i q hq := by
    by_cases hi : i < patterns.length
    · rw [List.getElem?_append_left hi] at hq
      rw [Piece.push_of_ne pieces hi.ne]
      exact h.holds_old hadded hroot hq
    · obtain rfl : i = patterns.length := by
        have := (List.getElem?_eq_some_iff.mp hq).1
        rw [List.length_append, List.length_singleton] at this
        omega
      rw [List.getElem?_concat_length] at hq
      obtain rfl := Option.some.inj hq
      rw [Piece.push_self]
      exact h.holds_new hadded hroot
  disjoint i j hi hj hij := by
    rw [List.length_append, List.length_singleton] at hi hj
    by_cases hi' : i = patterns.length
    · rw [hi', Piece.push_self, Piece.push_of_ne pieces (hi' ▸ hij.symm)]
      exact (h.disjoint_new hadded (by omega)).symm
    · rw [Piece.push_of_ne pieces hi']
      by_cases hj' : j = patterns.length
      · rw [hj', Piece.push_self]
        exact h.disjoint_new hadded (by omega)
      · rw [Piece.push_of_ne pieces hj']
        exact h.disjoint i j (by omega) (by omega) hij
  root_edges r hr l v hrv := by
    rw [hadded.graph_eq] at hrv
    rcases hrv with (hrv | ⟨rfl, rfl, rfl⟩) | hpiece
    · obtain ⟨hl, i, q, hq, hqr, hv⟩ := h.root_edges r hr l v hrv
      have hi := (List.getElem?_eq_some_iff.mp hq).1
      refine ⟨hl, i, q, ?_, hqr, ?_⟩
      · rw [List.getElem?_append_left hi]
        exact hq
      · rw [Piece.push_of_ne pieces hi.ne]
        exact hv
    · exact ⟨rfl, patterns.length, p, by simp, rfl, by rw [Piece.push_self]⟩
    · exact absurd hpiece (hadded.not_graph_of_lt (hr.trans_le h.base_le))
  terminals_iff s i := by
    rw [hadded.terminals_iff, h.terminals_iff, List.length_append, List.length_singleton]
    by_cases hi : i = patterns.length
    · subst hi
      rw [Piece.push_self]
      simp
    · have hlast : i < patterns.length + 1 ↔ i < patterns.length := by omega
      rw [hlast, Piece.push_of_ne pieces hi]
      simp [hi]

/-- One round of the loop adds one piece. -/
theorem compilePattern (h : Pieces rootOf base patterns c pieces) {p : HirPattern}
    (hroot : rootOf p < base)
    (hrun : Rustmatch.compilePattern (rootOf p) patterns.length p c = .ok c') :
    ∃ pieces', Pieces rootOf base (patterns ++ [p]) c' pieces' := by
  obtain ⟨piece, hadded⟩ := PieceAdded.of_compilePattern h.valid (hroot.trans_le h.base_le) hrun
  exact ⟨_, h.push hadded hroot⟩

/-- The loop over the patterns keeps the invariant. -/
theorem compilePatterns (h : Pieces rootOf base patterns c pieces) {rest : List HirPattern}
    (hroot : ∀ p ∈ rest, rootOf p < base)
    (hrun : Rustmatch.compilePatterns rootOf rest patterns.length c = .ok c') :
    ∃ pieces', Pieces rootOf base (patterns ++ rest) c' pieces' := by
  induction rest generalizing patterns c pieces with
  | nil =>
    obtain rfl := Except.ok.inj hrun
    rw [List.append_nil]
    exact ⟨pieces, h⟩
  | cons p rest ih =>
    obtain ⟨c₁, hpattern, hrun⟩ := bind_eq_ok.mp hrun
    obtain ⟨pieces₁, h₁⟩ := h.compilePattern (hroot p List.mem_cons_self) hpattern
    have hlength : patterns.length + 1 = (patterns ++ [p]).length := by simp
    rw [hlength] at hrun
    have := ih h₁ (fun q hq => hroot q (List.mem_cons_of_mem _ hq)) hrun
    rwa [List.append_assoc, List.singleton_append] at this

/-- A walk that starts in a piece stays in it. -/
theorem walk_mem (h : Pieces rootOf base patterns c pieces) {R : Reading} {i : ℕ} {p : HirPattern}
    (hp : patterns[i]? = some p) {x y : ℕ × Config} (hx : x.1 ∈ (pieces i).states)
    (w : Walk R.act c.Graph x y) :
    Walk R.act (pieces i).graph x y ∧ y.1 ∈ (pieces i).states := by
  have hholds := h.holds i p hp
  refine walk_restrict (fun u hu l v huv => ?_) hx w
  have hgraph := (hholds.graph_iff u hu l v).mp huv
  refine ⟨hgraph, ?_⟩
  rcases hholds.fragment.target hgraph with hv | hv | hv
  · exact Or.inl (Or.inl hv)
  · exact Or.inl (Or.inr hv)
  · exact Or.inr hv

/-- From a root, an ordinal is accepted exactly along the runs of its own expression, provided it
belongs to that root. -/
theorem accepts_iff (h : Pieces rootOf base patterns c pieces) {R : Reading} {r i : ℕ}
    (hr : r < base) {a b : Config} :
    (∃ s, i ∈ c.terminals.getD s [] ∧ Along R.act c.Graph r s a b) ↔
      ∃ p, patterns[i]? = some p ∧ rootOf p = r ∧ p.expression.walk R a b := by
  constructor
  · rintro ⟨s, hs, w⟩
    obtain ⟨hi, rfl⟩ := (h.terminals_iff s i).mp hs
    have hp := List.getElem?_eq_getElem hi
    have hterminal : (pieces i).terminal ∈ (pieces i).states := Or.inl (Or.inr rfl)
    -- a walk to a terminal is not empty, since roots are no terminals
    have hbounds := (h.holds i _ hp).bounds _ hterminal
    rcases ReflTransGen.cases_head w with heq | ⟨y, ⟨l, hedge, hact⟩, w⟩
    · obtain rfl : r = (pieces i).terminal := (Prod.mk.inj heq).1
      omega
    -- its first edge enters a piece, which it does not leave
    · obtain ⟨rfl, j, q, hq, hqr, hy⟩ := h.root_edges r hr l y.1 hedge
      obtain ⟨y₁, y₂⟩ := y
      obtain rfl : y₁ = (pieces j).first := hy
      obtain rfl : a = y₂ := hact
      obtain ⟨w, hmem⟩ := h.walk_mem hq (Or.inl (Or.inl rfl)) w
      have hj := (List.getElem?_eq_some_iff.mp hq).1
      obtain rfl : i = j := by
        by_contra hij
        exact Set.disjoint_left.mp (h.disjoint i j hi hj hij) hterminal hmem
      refine ⟨q, hq, hqr, ?_⟩
      rw [← (h.holds i q hq).along R]
      exact w
  · rintro ⟨p, hp, rfl, hwalk⟩
    have hi := (List.getElem?_eq_some_iff.mp hp).1
    have hholds := h.holds i p hp
    refine ⟨(pieces i).terminal, (h.terminals_iff _ i).mpr ⟨hi, rfl⟩, ?_⟩
    rw [← hholds.along R] at hwalk
    -- the other way: the edge into the piece, then the walk inside it
    have hentry : Along R.act c.Graph (rootOf p) (pieces i).first a a :=
      Along.edge hholds.entered rfl
    refine hentry.trans (hwalk.mono ?_)
    intro u l v huv
    refine (hholds.graph_iff u ?_ l v).mpr huv
    rcases hholds.fragment.source huv with hu | hu
    · exact Or.inl (Or.inl hu)
    · exact Or.inr hu

end Pieces

/-! ### The flat layout -/

/-- The slices of a layout are the pending lists it was made from. -/
structure Layout.Holds (layout : Layout) (pending : List (List Edge × List ℕ)) : Prop where
  /-- Every pending state is laid out. -/
  length_eq : layout.states.length = pending.length
  /-- Its slices are its pending lists. -/
  slices : ∀ (i : ℕ) (s : State), layout.states[i]? = some s →
    s.edgeStart + s.edgeLen ≤ layout.edges.length ∧
      s.terminalStart + s.terminalLen ≤ layout.terminalOrdinals.length ∧
      pending[i]? = some ((layout.edges.drop s.edgeStart).take s.edgeLen,
        (layout.terminalOrdinals.drop s.terminalStart).take s.terminalLen)
  /-- No edge is made up. -/
  mem_edges : ∀ edge ∈ layout.edges, ∃ p ∈ pending, edge ∈ p.1
  /-- No ordinal is made up. -/
  mem_terminals : ∀ i ∈ layout.terminalOrdinals, ∃ p ∈ pending, i ∈ p.2

/-- A slice is not affected by what is appended after it. -/
theorem take_drop_append {α : Type} {l r : List α} {start len : ℕ} (h : start + len ≤ l.length) :
    ((l ++ r).drop start).take len = (l.drop start).take len := by
  rw [List.drop_append_of_le_length (by omega), List.take_append_of_le_length]
  rw [List.length_drop]
  omega

/-- A further state is laid out. -/
theorem Layout.Holds.push {layout : Layout} {pending : List (List Edge × List ℕ)}
    (h : layout.Holds pending) (p : List Edge × List ℕ) :
    (layout.push p).Holds (pending ++ [p]) where
  length_eq := by simp [Layout.push, h.length_eq]
  slices i s hs := by
    have hs : (layout.states ++ [(⟨layout.edges.length, p.1.length,
        layout.terminalOrdinals.length, p.2.length⟩ : State)])[i]? = some s := hs
    show s.edgeStart + s.edgeLen ≤ (layout.edges ++ p.1).length ∧
      s.terminalStart + s.terminalLen ≤ (layout.terminalOrdinals ++ p.2).length ∧
      (pending ++ [p])[i]? = some (((layout.edges ++ p.1).drop s.edgeStart).take s.edgeLen,
        ((layout.terminalOrdinals ++ p.2).drop s.terminalStart).take s.terminalLen)
    -- the slices of older states are not moved, the new state gets the ends of both tables
    rw [List.getElem?_append] at hs ⊢
    rw [h.length_eq] at hs
    split at hs
    next hi =>
      obtain ⟨hedges, hterminals, hslices⟩ := h.slices i s hs
      rw [if_pos hi, take_drop_append hedges, take_drop_append hterminals, List.length_append,
        List.length_append]
      exact ⟨by omega, by omega, hslices⟩
    next hi =>
      obtain rfl : i = pending.length := by
        have := (List.getElem?_eq_some_iff.mp hs).1
        rw [List.length_singleton] at this
        omega
      rw [Nat.sub_self, List.getElem?_cons_zero] at hs
      obtain rfl := Option.some.inj hs
      simp
  mem_edges edge hedge := by
    rcases List.mem_append.mp hedge with hedge | hedge
    · obtain ⟨q, hq, hmem⟩ := h.mem_edges edge hedge
      exact ⟨q, List.mem_append_left _ hq, hmem⟩
    · exact ⟨p, by simp, hedge⟩
  mem_terminals i hi := by
    rcases List.mem_append.mp hi with hi | hi
    · obtain ⟨q, hq, hmem⟩ := h.mem_terminals i hi
      exact ⟨q, List.mem_append_left _ hq, hmem⟩
    · exact ⟨p, by simp, hi⟩

/-- The states are laid out one by one. -/
theorem Layout.Holds.foldl {layout : Layout} {pending rest : List (List Edge × List ℕ)}
    (h : layout.Holds pending) : (rest.foldl Layout.push layout).Holds (pending ++ rest) := by
  induction rest generalizing layout pending with
  | nil => simpa using h
  | cons p rest ih =>
    have := ih (h.push p)
    rwa [List.append_assoc, List.singleton_append] at this

namespace Compilation

variable {c : Compilation}

/-- The layout of a context holds its pending lists. -/
theorem holds_layout (c : Compilation) : c.layout.Holds (c.edges.zip c.terminals) :=
  @Layout.Holds.foldl ⟨[], [], []⟩ [] _ ⟨rfl, by simp, by simp, by simp⟩

variable (root : StateId) (patterns : List HirPattern) (ua : Bool)

/-- The edges of a state are its pending ones. -/
theorem edgesFrom_database (h : c.Valid) (s : ℕ) :
    (c.database root patterns ua).edgesFrom s = c.edges.getD s [] := by
  have hlayout := c.holds_layout
  have hlength : (c.database root patterns ua).states.length = c.size := by
    refine hlayout.length_eq.trans ?_
    rw [List.length_zip, h.terminals_length]
    exact min_self _
  unfold PatternDatabase.edgesFrom
  split
  next state hstate =>
    have hslice := (hlayout.slices s state hstate).2.2
    rw [List.getElem?_zip_eq_some] at hslice
    rw [List.getD_eq_getElem?_getD, hslice.1]
    rfl
  next hnone =>
    rw [List.getElem?_eq_none_iff, hlength] at hnone
    rw [List.getD_eq_default _ _ hnone]

/-- The accepted ordinals of a state are its pending ones. -/
theorem terminalsAt_database (h : c.Valid) (s : ℕ) :
    (c.database root patterns ua).terminalsAt s = c.terminals.getD s [] := by
  have hlayout := c.holds_layout
  have hlength : (c.database root patterns ua).states.length = c.size := by
    refine hlayout.length_eq.trans ?_
    rw [List.length_zip, h.terminals_length]
    exact min_self _
  unfold PatternDatabase.terminalsAt
  split
  next state hstate =>
    have hslice := (hlayout.slices s state hstate).2.2
    rw [List.getElem?_zip_eq_some] at hslice
    rw [List.getD_eq_getElem?_getD, hslice.2]
    rfl
  next hnone =>
    rw [List.getElem?_eq_none_iff, hlength] at hnone
    rw [List.getD_eq_default _ _ (h.terminals_length ▸ hnone)]

/-- The layout keeps the graph. -/
theorem database_graph (h : c.Valid) : (c.database root patterns ua).Graph = c.Graph := by
  funext s l t
  unfold PatternDatabase.Graph Graph
  rw [edgesFrom_database root patterns ua h]
  rfl

/-- What the laid out database accepts from a root. -/
theorem accepts_database {rootOf : HirPattern → ℕ} {base : ℕ} {pieces : ℕ → Piece}
    (h : Pieces rootOf base patterns c pieces) {R : Reading} {r i : ℕ} (hr : r < base)
    {a b : Config} : (c.database root patterns ua).Accepts R r i a b ↔
      ∃ p, patterns[i]? = some p ∧ rootOf p = r ∧ p.expression.walk R a b := by
  unfold PatternDatabase.Accepts
  rw [database_graph root patterns ua h.valid]
  simp only [terminalsAt_database root patterns ua h.valid]
  exact h.accepts_iff hr

/-- Everything in the layout of a valid compilation points into it. -/
theorem wellFormed_database (h : c.Valid) (hroot : root < c.size)
    (hterminals : ∀ s, ∀ i ∈ c.terminals.getD s [], i < patterns.length) :
    (c.database root patterns ua).WellFormed := by
  have hlayout := c.holds_layout
  have hlength : c.layout.states.length = c.size := by
    rw [hlayout.length_eq, List.length_zip, h.terminals_length]
    exact min_self _
  have hstates : ∀ s ∈ c.layout.states, s.edgeStart + s.edgeLen ≤ c.layout.edges.length ∧
      s.terminalStart + s.terminalLen ≤ c.layout.terminalOrdinals.length := by
    intro s hs
    obtain ⟨i, hi⟩ := List.mem_iff_getElem?.mp hs
    have := hlayout.slices i s hi
    exact ⟨this.1, this.2.1⟩
  -- every edge and every terminal of the tables comes from a pending list
  have hedges : ∀ edge ∈ c.layout.edges, ∃ pending ∈ c.edges, edge ∈ pending := by
    intro edge hedge
    obtain ⟨p, hp, hmem⟩ := hlayout.mem_edges edge hedge
    exact ⟨p.1, (List.of_mem_zip hp).1, hmem⟩
  refine ⟨?_, fun s hs => (hstates s hs).1, fun s hs => (hstates s hs).2, ?_, ?_, ?_⟩
  · show root < c.layout.states.length
    rw [hlength]
    exact hroot
  · intro edge hedge
    obtain ⟨pending, hpending, hmem⟩ := hedges edge hedge
    show edge.target < c.layout.states.length
    rw [hlength]
    exact h.target_lt pending hpending edge hmem
  · intro edge hedge id hid
    obtain ⟨pending, hpending, hmem⟩ := hedges edge hedge
    exact h.predicate_lt pending hpending edge hmem id hid
  · intro i hi
    obtain ⟨p, hp, hmem⟩ := hlayout.mem_terminals i hi
    obtain ⟨s, hs, hget⟩ := List.mem_iff_getElem.mp (List.of_mem_zip hp).2
    show i < (patterns.map HirPattern.patternId).length
    rw [List.length_map]
    refine hterminals s i ?_
    rw [List.getD_eq_getElem _ [] hs, hget]
    exact hmem

end Compilation

end Rustmatch

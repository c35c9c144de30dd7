import Mathlib.Data.List.GetD
import Rustmatch.Nfa

/-!
# The graph behind a compilation context

A compilation context is read as a labelled graph (`Compilation.Graph`), with interned predicates
spelled out. The compiler only ever adds to it: `Grows c c' N` says that `c'` is `c` with the edges
`N` and possibly more states, and with the same terminals. Each primitive of the compiler comes
with the graph it adds.

Compilation fails for want of state ids only; patterns that are sequences of edges compile as long
as their states fit (`compilePatterns_ok`).
-/

open LabelledGraph

namespace Rustmatch

/-- An index is its own id while there is room. -/
theorem forIndex_eq_ok {index id : ℕ} : forIndex index = .ok id ↔ index < 2 ^ 32 ∧ id = index := by
  unfold forIndex
  split
  next h =>
    rw [Except.ok.injEq]
    exact ⟨fun heq => ⟨h, heq.symm⟩, fun hid => hid.2.symm⟩
  next h => exact iff_of_false nofun fun hid => h hid.1

namespace Compilation

/-- The number of states. -/
def size (c : Compilation) : ℕ := c.edges.length

/-- The label of an edge, when its predicate is known. -/
def label (c : Compilation) : EdgeKind → Option Label
  | .epsilon => some .epsilon
  | .assertion a => some (.assertion a)
  | .symbol s => some (.symbol s)
  | .predicate id => c.predicates[id]?.map .predicate

/-- The graph of the pending edges. -/
def Graph (c : Compilation) (s : ℕ) (l : Label) (t : ℕ) : Prop :=
  ∃ edge ∈ c.edges.getD s [], edge.target = t ∧ c.label edge.kind = some l

/-- Everything a context refers to exists. -/
structure Valid (c : Compilation) : Prop where
  /-- Every state has a list of ordinals. -/
  terminals_length : c.terminals.length = c.size
  /-- Every edge leads to a state. -/
  target_lt : ∀ pending ∈ c.edges, ∀ edge ∈ pending, edge.target < c.size
  /-- Every class that an edge asks for is interned. -/
  predicate_lt : ∀ pending ∈ c.edges, ∀ edge ∈ pending, ∀ id, edge.kind = .predicate id →
    id < c.predicates.length
  /-- An interned class stands at its id. -/
  predicateIds : ∀ p id, c.predicateIds.lookup p = some id → c.predicates[id]? = some p

/-- `c'` is `c` with the edges `N` and possibly more states without terminals. -/
structure Grows (c c' : Compilation) (N : ℕ → Label → ℕ → Prop) : Prop where
  /-- The new context is valid. -/
  valid : c'.Valid
  /-- No state is lost. -/
  size_le : c.size ≤ c'.size
  /-- The edges are the old ones and `N`. -/
  graph_eq : c'.Graph = c.Graph ⊔ N
  /-- Every state accepts what it did. -/
  terminals_eq : ∀ s, c'.terminals.getD s [] = c.terminals.getD s []

variable {c c' c'' : Compilation} {N N' : ℕ → Label → ℕ → Prop}

/-- Nothing is added. -/
theorem Grows.refl (h : c.Valid) : Grows c c ⊥ where
  valid := h
  size_le := le_refl _
  graph_eq := (sup_bot_eq _).symm
  terminals_eq _ := rfl

/-- What is added twice is the union. -/
theorem Grows.trans (h₁ : Grows c c' N) (h₂ : Grows c' c'' N') : Grows c c'' (N ⊔ N') where
  valid := h₂.valid
  size_le := h₁.size_le.trans h₂.size_le
  graph_eq := by rw [h₂.graph_eq, h₁.graph_eq, sup_assoc]
  terminals_eq s := (h₂.terminals_eq s).trans (h₁.terminals_eq s)

/-- Only states that exist have pending entries. -/
theorem lt_length_of_mem_getD {α : Type} {pending : List (List α)} {s : ℕ} {entry : α}
    (h : entry ∈ pending.getD s []) : s < pending.length := by
  by_contra hs
  rw [List.getD_eq_default _ _ (not_lt.mp hs)] at h
  exact absurd h List.not_mem_nil

/-- An edge of the graph leaves a state of the context and enters one. -/
theorem Valid.graph_lt (h : c.Valid) {s t : ℕ} {l : Label} (hst : c.Graph s l t) :
    s < c.size ∧ t < c.size := by
  obtain ⟨edge, hedge, rfl, -⟩ := hst
  have hs := lt_length_of_mem_getD hedge
  refine ⟨hs, h.target_lt (c.edges.getD s []) ?_ edge hedge⟩
  rw [List.getD_eq_getElem _ _ hs]
  exact List.getElem_mem hs

/-! ### The primitives -/

/-- A new state comes last. -/
theorem addState_eq_ok {id : ℕ} :
    c.addState = .ok (id, c') ↔ c.size < 2 ^ 32 ∧ id = c.size ∧
      c' = { c with edges := c.edges ++ [[]], terminals := c.terminals ++ [[]] } := by
  constructor
  · intro heq
    obtain ⟨index, hindex, heq⟩ := bind_eq_ok.mp heq
    obtain ⟨rfl, rfl⟩ := Prod.mk.inj (Except.ok.inj heq)
    obtain ⟨hlt, rfl⟩ := forIndex_eq_ok.mp hindex
    exact ⟨hlt, rfl, rfl⟩
  · rintro ⟨hlt, rfl, rfl⟩
    exact bind_eq_ok.mpr ⟨c.size, forIndex_eq_ok.mpr ⟨hlt, rfl⟩, rfl⟩

/-- A predicate keeps its id, or gets the next one. -/
theorem internPredicate_eq_ok {p : SymbolPredicate} {id : ℕ}
    (heq : c.internPredicate p = .ok (id, c')) :
    (c.predicateIds.lookup p = some id ∧ c' = c) ∨
      c.predicateIds.lookup p = none ∧ c.predicates.length < 2 ^ 32 ∧ id = c.predicates.length ∧
        c' = { c with predicates := c.predicates ++ [p],
                      predicateIds := (p, c.predicates.length) :: c.predicateIds } := by
  unfold internPredicate at heq
  split at heq
  next known hknown =>
    obtain ⟨rfl, rfl⟩ := Prod.mk.inj (Except.ok.inj heq)
    exact Or.inl ⟨hknown, rfl⟩
  next hunknown =>
    obtain ⟨index, hindex, heq⟩ := bind_eq_ok.mp heq
    obtain ⟨rfl, rfl⟩ := Prod.mk.inj (Except.ok.inj heq)
    obtain ⟨hlt, rfl⟩ := forIndex_eq_ok.mp hindex
    exact Or.inr ⟨hunknown, hlt, rfl, rfl⟩

/-- Behind the lists there are no pending entries, so more empty ones change nothing. -/
theorem getD_append_replicate {α : Type} (pending : List (List α)) (n s : ℕ) :
    (pending ++ List.replicate n []).getD s [] = pending.getD s [] := by
  rcases Nat.lt_or_ge s pending.length with hs | hs
  · exact List.getD_append _ _ _ _ hs
  · rw [List.getD_append_right _ _ _ _ hs, List.getD_eq_default _ _ hs,
      List.getD_eq_getElem?_getD, List.getElem?_getD_replicate_default_eq]

/-- A new state has an empty list, as if it were missing. -/
theorem getD_append_nil {α : Type} (pending : List (List α)) (s : ℕ) :
    (pending ++ [[]]).getD s [] = pending.getD s [] :=
  getD_append_replicate pending 1 s

/-- A new state has no edges. -/
theorem grows_addState (h : c.Valid) {id : ℕ} (heq : c.addState = .ok (id, c')) :
    id = c.size ∧ c'.size = c.size + 1 ∧ Grows c c' ⊥ := by
  obtain ⟨-, rfl, rfl⟩ := addState_eq_ok.mp heq
  -- the new state has no edges, so no bound and no edge of the graph changes
  refine ⟨rfl, by simp [size], ?_, by simp [size], ?_, getD_append_nil c.terminals⟩
  · refine ⟨?_, ?_, ?_, h.predicateIds⟩
    · simp [size, h.terminals_length]
    · intro pending hpending edge hedge
      cases List.mem_append.mp hpending with
      | inl hold =>
        exact (h.target_lt pending hold edge hedge).trans_le (by simp [size])
      | inr hnew =>
        rw [List.mem_singleton.mp hnew] at hedge
        exact absurd hedge List.not_mem_nil
    · intro pending hpending edge hedge
      cases List.mem_append.mp hpending with
      | inl hold => exact h.predicate_lt pending hold edge hedge
      | inr hnew =>
        rw [List.mem_singleton.mp hnew] at hedge
        exact absurd hedge List.not_mem_nil
  · rw [sup_bot_eq]
    funext s l t
    unfold Graph
    rw [getD_append_nil]
    rfl

/-- The edges of the state that gets one more. -/
theorem mem_pushEdge {s u : ℕ} {edge new : Edge} (h : edge ∈ (c.pushEdge s new).edges.getD u []) :
    edge ∈ c.edges.getD u [] ∨ u = s ∧ edge = new := by
  simp only [pushEdge, List.getD_eq_getElem?_getD, List.getElem?_modify] at h ⊢
  by_cases hu : u = s
  · subst hu
    cases hget : c.edges[u]? with
    | none => simp [hget] at h
    | some pending =>
      rw [hget] at h
      simpa using h
  · simp only [Ne.symm hu, if_false] at h
    exact Or.inl (by simpa using h)

/-- The other states keep their edges. -/
theorem getD_pushEdge_of_ne {s u : ℕ} {new : Edge} (hu : u ≠ s) :
    (c.pushEdge s new).edges.getD u [] = c.edges.getD u [] := by
  simp [pushEdge, List.getD_eq_getElem?_getD, hu.symm]

/-- The edges of the state that gets one more, if it exists. -/
theorem getD_pushEdge_self {s : ℕ} {new : Edge} (hs : s < c.size) :
    (c.pushEdge s new).edges.getD s [] = c.edges.getD s [] ++ [new] := by
  have hget : c.edges[s]? = some c.edges[s] := List.getElem?_eq_getElem hs
  simp [pushEdge, List.getD_eq_getElem?_getD, hget]

/-- A pushed edge is one more edge of the graph. -/
theorem grows_pushEdge (h : c.Valid) {s t : ℕ} {kind : EdgeKind} {l : Label}
    (hs : s < c.size) (ht : t < c.size) (hl : c.label kind = some l) :
    (c.pushEdge s ⟨kind, t⟩).size = c.size ∧
      Grows c (c.pushEdge s ⟨kind, t⟩) (single s l t) := by
  have hsize : (c.pushEdge s ⟨kind, t⟩).size = c.size := by simp [pushEdge, size]
  -- only the pending edges of the state change, and by one edge at the end
  have hmem : ∀ u edge, edge ∈ (c.pushEdge s ⟨kind, t⟩).edges.getD u [] ↔
      edge ∈ c.edges.getD u [] ∨ u = s ∧ edge = ⟨kind, t⟩ := by
    intro u edge
    by_cases hu : u = s
    · subst hu
      rw [getD_pushEdge_self hs, List.mem_append, List.mem_singleton]
      simp only [true_and]
    · rw [getD_pushEdge_of_ne hu]
      simp only [hu, false_and, or_false]
  -- so the bounds on targets and predicates are asked of one edge only
  have hpending : ∀ pending ∈ (c.pushEdge s ⟨kind, t⟩).edges, ∀ edge ∈ pending,
      (∃ old ∈ c.edges, edge ∈ old) ∨ edge = ⟨kind, t⟩ := by
    intro pending hpending edge hedge
    obtain ⟨u, hu, rfl⟩ := List.mem_iff_getElem.mp hpending
    have hlt : u < c.edges.length := by
      have : u < (c.pushEdge s ⟨kind, t⟩).size := hu
      rwa [hsize] at this
    rw [← List.getD_eq_getElem _ [] hu, hmem u edge] at hedge
    cases hedge with
    | inl hold =>
      rw [List.getD_eq_getElem _ [] hlt] at hold
      exact Or.inl ⟨_, List.getElem_mem hlt, hold⟩
    | inr hnew => exact Or.inr hnew.2
  refine ⟨hsize, ?_, le_of_eq hsize.symm, ?_, fun _ => rfl⟩
  · refine ⟨?_, ?_, ?_, h.predicateIds⟩
    · rw [hsize]
      exact h.terminals_length
    · intro pending hp edge hedge
      rw [hsize]
      cases hpending pending hp edge hedge with
      | inl hold =>
        obtain ⟨old, hold, hmemold⟩ := hold
        exact h.target_lt old hold edge hmemold
      | inr hnew => exact hnew ▸ ht
    · intro pending hp edge hedge id hid
      cases hpending pending hp edge hedge with
      | inl hold =>
        obtain ⟨old, hold, hmemold⟩ := hold
        exact h.predicate_lt old hold edge hmemold id hid
      | inr hnew =>
        subst hnew
        obtain rfl : kind = .predicate id := hid
        obtain ⟨p, hp, -⟩ := Option.map_eq_some_iff.mp hl
        exact (List.getElem?_eq_some_iff.mp hp).1
  -- in the graph: the edges that were there, or the new one
  · ext u k v
    show (∃ edge ∈ (c.pushEdge s ⟨kind, t⟩).edges.getD u [],
      edge.target = v ∧ c.label edge.kind = some k) ↔ _
    simp only [hmem]
    constructor
    · rintro ⟨edge, hold | ⟨rfl, rfl⟩, hv, hk⟩
      · exact Or.inl ⟨edge, hold, hv, hk⟩
      · rw [hl] at hk
        exact Or.inr ⟨rfl, (Option.some.inj hk).symm, hv.symm⟩
    · rintro (⟨edge, hold, hv, hk⟩ | ⟨rfl, rfl, rfl⟩)
      · exact ⟨edge, Or.inl hold, hv, hk⟩
      · exact ⟨⟨kind, v⟩, Or.inr ⟨rfl, rfl⟩, rfl, hl⟩

/-- An interned predicate gets an id that stands for it. -/
theorem grows_internPredicate (h : c.Valid) {p : SymbolPredicate} {id : ℕ}
    (heq : c.internPredicate p = .ok (id, c')) :
    c'.size = c.size ∧ c'.label (.predicate id) = some (.predicate p) ∧ Grows c c' ⊥ := by
  obtain ⟨hknown, rfl⟩ | ⟨hunknown, -, rfl, rfl⟩ := internPredicate_eq_ok heq
  · refine ⟨rfl, ?_, Grows.refl h⟩
    rw [label, h.predicateIds p id hknown]
    rfl
  · -- the predicate is new, and so is its id
    refine ⟨rfl, by simp [label], ?_, le_refl _, ?_, fun _ => rfl⟩
    · refine ⟨h.terminals_length, h.target_lt, ?_, ?_⟩
      · intro pending hp edge hedge id hid
        exact (h.predicate_lt pending hp edge hedge id hid).trans_le (by simp)
      · intro q id hq
        rw [List.lookup_cons] at hq
        by_cases hqp : q = p
        · subst hqp
          rw [beq_self_eq_true] at hq
          obtain rfl := Option.some.inj hq
          simp
        · rw [beq_eq_false_iff_ne.mpr hqp] at hq
          have hold := h.predicateIds q id hq
          have hlt := (List.getElem?_eq_some_iff.mp hold).1
          rw [List.getElem?_append_left hlt]
          exact hold
    · rw [sup_bot_eq]
      ext s l t
      -- old edges keep their labels, since their predicates were known before
      have hlabel : ∀ edge ∈ c.edges.getD s [],
          (label { c with predicates := c.predicates ++ [p],
                          predicateIds := (p, c.predicates.length) :: c.predicateIds }
            edge.kind) = c.label edge.kind := by
        intro edge hedge
        cases hkind : edge.kind with
        | epsilon => rfl
        | assertion a => rfl
        | symbol s => rfl
        | predicate id =>
          have hs := lt_length_of_mem_getD hedge
          rw [List.getD_eq_getElem _ [] hs] at hedge
          have hlt := h.predicate_lt _ (List.getElem_mem hs) edge hedge id hkind
          simp only [label, List.getElem?_append_left hlt]
      constructor
      · rintro ⟨edge, hedge, ht, hl⟩
        exact ⟨edge, hedge, ht, (hlabel edge hedge).symm.trans hl⟩
      · rintro ⟨edge, hedge, ht, hl⟩
        exact ⟨edge, hedge, ht, (hlabel edge hedge).trans hl⟩

end Compilation

/-! ### Compilations that fit -/

namespace Compilation

variable {c : Compilation}

/-- States can be added below the limit. -/
theorem addState_ok (h : c.size < 2 ^ 32) :
    ∃ c', c.addState = .ok (c.size, c') ∧ c'.size = c.size + 1 :=
  ⟨_, addState_eq_ok.mpr ⟨h, rfl, rfl⟩, List.length_append⟩

/-- An edge is no state. -/
theorem size_pushEdge (c : Compilation) (start : StateId) (edge : Edge) :
    (c.pushEdge start edge).size = c.size := by simp [pushEdge, size]

end Compilation

/-- An expression that compiles to one edge. -/
def Hir.IsEdge : Hir → Prop
  | .epsilon | .assertion _ | .symbol _ => True
  | _ => False

/-- Below the limit, items that are edges compile, each with one more state at most. -/
theorem compileItems_ok {items : List Hir} (hitems : ∀ item ∈ items, item.IsEdge) (start stop : ℕ)
    {c : Compilation} (hsize : c.size + items.length ≤ 2 ^ 32) :
    ∃ c', compileItems items start stop c = .ok c' ∧ c'.size ≤ c.size + items.length := by
  induction items generalizing start c with
  | nil => exact ⟨c, rfl, Nat.le_refl _⟩
  | cons item items ih =>
    rw [List.length_cons] at hsize ⊢
    -- every item but the last needs one state more
    obtain ⟨next, c₁, hnext, hsize₁⟩ : ∃ next c₁,
        (if items.isEmpty then .ok (stop, c) else c.addState) = .ok (next, c₁) ∧
          c₁.size ≤ c.size + 1 := by
      split
      · exact ⟨stop, c, rfl, by omega⟩
      · obtain ⟨c₁, hadd, hsize₁⟩ := @Compilation.addState_ok c (by omega)
        exact ⟨c.size, c₁, hadd, by omega⟩
    obtain ⟨c₂, hitem, hsize₂⟩ : ∃ c₂, compileExpression item start next c₁ = .ok c₂ ∧
        c₂.size = c₁.size := by
      -- an item that is an edge adds no state of its own
      have hedge := hitems item List.mem_cons_self
      cases item with
      | epsilon => exact ⟨_, by rw [compileExpression], Compilation.size_pushEdge _ _ _⟩
      | assertion a => exact ⟨_, by rw [compileExpression], Compilation.size_pushEdge _ _ _⟩
      | symbol s => exact ⟨_, by rw [compileExpression], Compilation.size_pushEdge _ _ _⟩
      | never | predicate | sequence | alternation | repetition => exact hedge.elim
    obtain ⟨c₃, hrest, hsize₃⟩ :=
      ih (fun other hother => hitems other (List.mem_cons_of_mem _ hother))
      next (by omega : c₂.size + items.length ≤ 2 ^ 32)
    refine ⟨c₃, ?_, by omega⟩
    have hstep : compileItems (item :: items) start stop c =
        ((if items.isEmpty then .ok (stop, c) else c.addState) >>= fun found =>
          compileExpression item start found.1 found.2 >>= compileItems items found.1 stop) := by
      rw [compileItems]
      split <;> rfl
    rw [hstep, hnext]
    show (compileExpression item start next c₁ >>= compileItems items next stop) = _
    rw [hitem]
    exact hrest

/-- Below the limit, patterns that are sequences of edges compile. -/
theorem compilePatterns_ok (rootOf : HirPattern → StateId) {length : ℕ}
    {patterns : List HirPattern} (hpatterns : ∀ p ∈ patterns, ∃ items,
      p.expression = .sequence items ∧ items.length ≤ length ∧ ∀ item ∈ items, item.IsEdge)
    (ordinal : ℕ) {c : Compilation}
    (hsize : c.size + (length + 2) * patterns.length ≤ 2 ^ 32) :
    ∃ c', compilePatterns rootOf patterns ordinal c = .ok c' := by
  induction patterns generalizing ordinal c with
  | nil => exact ⟨c, rfl⟩
  | cons p patterns ih =>
    obtain ⟨items, hexpression, hlength, hitems⟩ := hpatterns p List.mem_cons_self
    -- a pattern takes a first state, a terminal and at most a state an item
    rw [List.length_cons, Nat.mul_succ] at hsize
    obtain ⟨c₁, hfirst, hsize₁⟩ := @Compilation.addState_ok c (by omega)
    obtain ⟨c₂, hterminal, hsize₂⟩ := @Compilation.addState_ok c₁ (by omega)
    have hsize₃ := c₂.size_pushEdge (rootOf p) ⟨.epsilon, c.size⟩
    obtain ⟨c₄, hexpr, hsize₄⟩ := @compileItems_ok items hitems c.size c₁.size
      (c₂.pushEdge (rootOf p) ⟨.epsilon, c.size⟩) (by omega)
    have hpattern : compilePattern (rootOf p) ordinal p c =
        .ok (c₄.pushTerminal c₁.size ordinal) := by
      unfold compilePattern
      rw [hfirst]
      show (c₁.addState >>= _) = _
      rw [hterminal, hexpression]
      show (compileExpression (.sequence items) c.size c₁.size _ >>= _) = _
      rw [compileExpression, hexpr]
      rfl
    rw [compilePatterns, hpattern]
    have hsize₅ : (c₄.pushTerminal c₁.size ordinal).size = c₄.size := rfl
    exact ih (fun q hq => hpatterns q (List.mem_cons_of_mem _ hq)) (ordinal + 1) (by omega)

/-- A database comes out once all patterns are compiled. -/
theorem compile_ok {patterns : List HirPattern} {c : Compilation}
    (h : compilePatterns (fun _ => 0) patterns 0 ⟨[[]], [[]], [], []⟩ = .ok c) :
    ∃ database, compile patterns = .ok database := by
  unfold compile
  show ∃ database,
    (compilePatterns (fun _ => 0) patterns 0 ⟨[[]], [[]], [], []⟩ >>= _) = .ok database
  rw [h]
  exact ⟨_, rfl⟩

end Rustmatch

import Rustmatch.Nfa.Fragments
import Rustmatch.Predicate.Operations

/-!
# What compiling an expression leaves alone

The compiler links only the two states it is given and the states it allocates itself, and it never
looks at what is there already: what compiles into a large context compiles into every smaller one.
Both are proved as the fragments are, one lemma for each way in which the compiler composes, one for
each of its loops, and the induction over expressions.

## Main definitions

* `Frame c c' s t assertions`: what is added between `c` and `c'` links `s`, `t` and new states;
* `Ahead c d`: `d` has at least the states and the predicates of `c`;
* `Framed`: a part of the compiler adds within a frame, and follows into smaller contexts.

## Main results

* `framed_repetition`: a repetition of a body that keeps to its frame;
* `framed_expression`: every expression keeps to its frame.
-/

namespace Rustmatch

/-- The states of what is added between `s` and `t` from `c` to `c'`. -/
def Inside (c c' : Compilation) (s t v : ℕ) : Prop := v = s ∨ v = t ∨ c.size ≤ v ∧ v < c'.size

/-- From `c` to `c'` only edges out of `s` and of new states are added; they lead to `s`, to `t` and
to new states, and they ask for assertions only if `assertions` says so. -/
structure Frame (c c' : Compilation) (s t : ℕ) (assertions : Bool) : Prop where
  /-- No state is lost. -/
  size_le : c.size ≤ c'.size
  /-- New classes are interned behind the old ones. -/
  predicates_le : c.predicates <+: c'.predicates
  /-- New states accept nothing. -/
  terminals_eq : c'.terminals = c.terminals ++ List.replicate (c'.size - c.size) []
  /-- The edges of other old states stay. -/
  kept : ∀ u < c.size, u ≠ s → c'.edges.getD u [] = c.edges.getD u []
  /-- A new edge leads to `s`, to `t` or to a new state. -/
  target : ∀ u, ∀ edge ∈ c'.edges.getD u [], edge ∈ c.edges.getD u [] ∨
    Inside c c' s t edge.target
  /-- A new edge asks for an assertion only if there may be some. -/
  kind : ∀ u, ∀ edge ∈ c'.edges.getD u [], edge ∈ c.edges.getD u [] ∨
    ∀ a, edge.kind = .assertion a → assertions = true

/-- `d` has all states and predicates of `c`, and room for them. -/
structure Ahead (c d : Compilation) : Prop where
  /-- It has at least as many states. -/
  size_le : c.size ≤ d.size
  /-- The ids of `c` are right. -/
  interned : c.Interned
  /-- So are the ids of `d`. -/
  interned' : d.Interned
  /-- Every class of `c` is interned in `d`. -/
  subset : c.predicates ⊆ d.predicates
  /-- The classes of `d` have ids. -/
  length_le : d.predicates.length ≤ 2 ^ 32

/-- `body` adds within a frame. When it succeeds, so it does in every context with less in it, and
between whatever states. -/
structure Framed (body : Compiler) (assertions : Bool) : Prop where
  /-- A success adds within a frame. -/
  frame : ∀ {c c' : Compilation} {s t : ℕ}, body s t c = .ok c' → Frame c c' s t assertions
  /-- A success is one in every context with less in it. -/
  follows : ∀ {c d d' : Compilation} {s t : ℕ} (s' t' : ℕ), Ahead c d → body s t d = .ok d' →
    ∃ c', body s' t' c = .ok c' ∧ Ahead c' d'

/-! ### Frames -/

namespace Frame

variable {c c₁ c' : Compilation} {s t s₁ t₁ s₂ t₂ : ℕ} {A : Bool}

/-- Nothing is added. -/
theorem refl (c : Compilation) (s t : ℕ) (A : Bool) : Frame c c s t A where
  size_le := le_refl _
  predicates_le := List.prefix_refl _
  terminals_eq := by simp
  kept _ _ _ := rfl
  target _ _ h := Or.inl h
  kind _ _ h := Or.inl h

/-- What is added in two steps, each of them out of states of the frame and into such. -/
theorem trans (h₁ : Frame c c₁ s₁ t₁ A) (h₂ : Frame c₁ c' s₂ t₂ A)
    (hs₁ : s₁ = s ∨ c.size ≤ s₁ ∧ s₁ < c'.size) (ht₁ : Inside c c' s t t₁)
    (hs₂ : s₂ = s ∨ c.size ≤ s₂ ∧ s₂ < c'.size) (ht₂ : Inside c c' s t t₂) :
    Frame c c' s t A where
  size_le := h₁.size_le.trans h₂.size_le
  predicates_le := h₁.predicates_le.trans h₂.predicates_le
  terminals_eq := by
    have hsize₁ := h₁.size_le
    have hsize₂ := h₂.size_le
    -- the terminals of both parts are empty, one list a new state
    have hnew : c'.size - c.size = c₁.size - c.size + (c'.size - c₁.size) := by omega
    rw [h₂.terminals_eq, h₁.terminals_eq, List.append_assoc, hnew, List.replicate_add]
  kept u hu hne := by
    have hsize := h₁.size_le
    rw [h₂.kept u (by omega) (by omega), h₁.kept u hu (by omega)]
  target u edge hedge := by
    have hsize₁ := h₁.size_le
    have hsize₂ := h₂.size_le
    unfold Inside at ht₁ ht₂ ⊢
    cases h₂.target u edge hedge with
    | inl hold =>
      -- an edge of the first part stays inside what both parts add
      refine (h₁.target u edge hold).imp_right fun hnew => ?_
      unfold Inside at hnew
      omega
    | inr hnew =>
      unfold Inside at hnew
      exact Or.inr (by omega)
  kind u edge hedge := by
    cases h₂.kind u edge hedge with
    | inl hold => exact h₁.kind u edge hold
    | inr hnew => exact Or.inr hnew

/-- What is added twice within a frame is added within it. -/
theorem append (h₁ : Frame c c₁ s t A) (h₂ : Frame c₁ c' s t A) : Frame c c' s t A :=
  h₁.trans h₂ (Or.inl rfl) (Or.inr (Or.inl rfl)) (Or.inl rfl) (Or.inr (Or.inl rfl))

/-- A frame may allow assertions. -/
theorem mono {A' : Bool} (h : Frame c c' s t A) (hA : A = true → A' = true) :
    Frame c c' s t A' where
  size_le := h.size_le
  predicates_le := h.predicates_le
  terminals_eq := h.terminals_eq
  kept := h.kept
  target := h.target
  kind u edge hedge := (h.kind u edge hedge).imp_right fun hnew a ha => hA (hnew a ha)

/-- A new state is added. -/
theorem addState {id : ℕ} (h : c.addState = .ok (id, c')) (s t : ℕ) (A : Bool) :
    Frame c c' s t A := by
  obtain ⟨-, rfl, rfl⟩ := Compilation.addState_eq_ok.mp h
  refine ⟨by simp [Compilation.size], List.prefix_refl _, by simp [Compilation.size],
    fun u _ _ => Compilation.getD_append_nil c.edges u, fun u edge hedge => Or.inl ?_,
    fun u edge hedge => Or.inl ?_⟩
  · rwa [← Compilation.getD_append_nil c.edges u]
  · rwa [← Compilation.getD_append_nil c.edges u]

/-- One edge is added. -/
theorem pushEdge {kind : EdgeKind} (hkind : ∀ a, kind = .assertion a → A = true) :
    Frame c (c.pushEdge s ⟨kind, t⟩) s t A where
  size_le := by simp [Compilation.size, Compilation.pushEdge]
  predicates_le := List.prefix_refl _
  terminals_eq := by simp [Compilation.size, Compilation.pushEdge]
  kept u _ hne := Compilation.getD_pushEdge_of_ne hne
  target u edge hedge := by
    obtain hold | ⟨-, rfl⟩ := Compilation.mem_pushEdge hedge
    · exact Or.inl hold
    · exact Or.inr (Or.inr (Or.inl rfl))
  kind u edge hedge := by
    obtain hold | ⟨-, rfl⟩ := Compilation.mem_pushEdge hedge
    · exact Or.inl hold
    · exact Or.inr hkind

/-- An edge from entry to exit is added within the frame. -/
theorem addEpsilon : Frame c (c.addEpsilon s t) s t A := pushEdge fun _ h => nomatch h

/-- A predicate is interned. -/
theorem internPredicate {p : SymbolPredicate} {id : ℕ} (h : c.internPredicate p = .ok (id, c'))
    (s t : ℕ) (A : Bool) : Frame c c' s t A := by
  obtain ⟨-, rfl⟩ | ⟨-, -, -, rfl⟩ := Compilation.internPredicate_eq_ok h
  · exact refl _ s t A
  · exact ⟨le_refl _, List.prefix_append _ _, by simp [Compilation.size], fun _ _ _ => rfl,
      fun _ _ hedge => Or.inl hedge, fun _ _ hedge => Or.inl hedge⟩

/-- Two parts in a row with a new state between them, which is then inside. -/
theorem through {c₂ : Compilation} {next : ℕ} (hnext : c.addState = .ok (next, c₁))
    (hfirst : Frame c₁ c₂ s next A) (hrest : Frame c₂ c' next t A) :
    Frame c c' s t A ∧ c.size ≤ next ∧ next < c₂.size := by
  have hframe := (addState hnext s next A).append hfirst
  obtain ⟨-, rfl, rfl⟩ := Compilation.addState_eq_ok.mp hnext
  have hsize := hfirst.size_le
  have hsize' := hrest.size_le
  have hinside : c.size ≤ c.size ∧ c.size < c₂.size := by
    refine ⟨le_refl _, lt_of_lt_of_le ?_ hsize⟩
    simp [Compilation.size]
  refine ⟨hframe.trans hrest (Or.inl rfl) (Or.inr (Or.inr ?_)) (Or.inr ?_) (Or.inr (Or.inl rfl)),
    hinside⟩
  · omega
  · omega

end Frame

/-- A framed compiler may be said to use assertions. -/
theorem Framed.mono {body : Compiler} {A A' : Bool} (h : Framed body A)
    (hA : A = true → A' = true) : Framed body A' where
  frame hrun := (h.frame hrun).mono hA
  follows := h.follows

/-! ### Contexts with less in them -/

namespace Compilation

/-- No predicate is interned twice. -/
theorem Interned.nodup {c : Compilation} (h : c.Interned) : c.predicates.Nodup := by
  rw [List.nodup_iff_getElem?_ne_getElem?]
  intro i j hij hj heq
  have hget : c.predicates[j]? = some c.predicates[j] := List.getElem?_eq_getElem hj
  have hi := (h _ _).mpr (heq.trans hget)
  have hj := (h _ _).mpr hget
  exact hij.ne (Option.some.inj (hi.symm.trans hj))

end Compilation

namespace Ahead

variable {c c' d d' : Compilation}

/-- A state is added to the context with less in it too. -/
theorem addState {id : ℕ} (h : Ahead c d) (hd : d.addState = .ok (id, d')) :
    ∃ id' c', c.addState = .ok (id', c') ∧ Ahead c' d' := by
  obtain ⟨hlt, rfl, rfl⟩ := Compilation.addState_eq_ok.mp hd
  have hsize := h.size_le
  refine ⟨c.size, _, Compilation.addState_eq_ok.mpr ⟨by omega, rfl, rfl⟩, ?_, h.interned,
    h.interned', h.subset, h.length_le⟩
  simpa [Compilation.size] using hsize

/-- Edges may be added on both sides. -/
theorem pushEdge (h : Ahead c d) (s s' : ℕ) (edge edge' : Edge) :
    Ahead (c.pushEdge s' edge') (d.pushEdge s edge) where
  size_le := by simpa [Compilation.size, Compilation.pushEdge] using h.size_le
  interned := h.interned
  interned' := h.interned'
  subset := h.subset
  length_le := h.length_le

/-- A class is interned in the context with less in it too. -/
theorem internPredicate {p : SymbolPredicate} {id : ℕ} (h : Ahead c d)
    (hd : d.internPredicate p = .ok (id, d')) :
    ∃ id' c', c.internPredicate p = .ok (id', c') ∧ Ahead c' d' := by
  obtain ⟨hd', hp, hle⟩ := h.interned'.internPredicate hd
  have hmem : p ∈ d'.predicates := List.mem_of_getElem? hp
  have hsize : d'.size = d.size ∧ d'.predicates.length ≤ 2 ^ 32 := by
    obtain ⟨-, rfl⟩ | ⟨-, hlt, -, rfl⟩ := Compilation.internPredicate_eq_ok hd
    · exact ⟨rfl, h.length_le⟩
    · refine ⟨rfl, ?_⟩
      rw [List.length_append, List.length_singleton]
      exact hlt
  have hsubset : c.predicates ⊆ d'.predicates := List.Subset.trans h.subset hle.subset
  cases hc : c.predicateIds.lookup p with
  | some known =>
    refine ⟨known, c, ?_, hsize.1 ▸ h.size_le, h.interned, hd', hsubset, hsize.2⟩
    rw [Compilation.internPredicate, hc]
  | none =>
    -- the larger context knows one predicate more than the smaller one
    have hnew : p ∉ c.predicates := by
      intro hold
      obtain ⟨i, hi⟩ := List.mem_iff_getElem?.mp hold
      have := (h.interned p i).mpr hi
      rw [hc] at this
      cases this
    have hlength : (p :: c.predicates).length ≤ d'.predicates.length :=
      (List.subperm_of_subset (List.nodup_cons.mpr ⟨hnew, h.interned.nodup⟩)
        (List.cons_subset.mpr ⟨hmem, hsubset⟩)).length_le
    rw [List.length_cons] at hlength
    have hrun : c.internPredicate p = .ok (c.predicates.length,
        { c with predicates := c.predicates ++ [p],
                 predicateIds := (p, c.predicates.length) :: c.predicateIds }) := by
      rw [Compilation.internPredicate, hc]
      exact bind_eq_ok.mpr ⟨_, forIndex_eq_ok.mpr ⟨by omega, rfl⟩, rfl⟩
    refine ⟨_, _, hrun, hsize.1 ▸ h.size_le, (h.interned.internPredicate hrun).1, hd', ?_,
      hsize.2⟩
    exact List.append_subset.mpr ⟨hsubset, List.cons_subset.mpr ⟨hmem, List.nil_subset _⟩⟩

end Ahead

/-! ### Repetitions -/

section Repetition

variable {body : Compiler} {A : Bool}

/-- The required copies are added within a frame, and end at an old entry or a new state. -/
theorem frame_compileRequired (hbody : Framed body A) {exact : Bool} {stop n s last : ℕ}
    {c c' : Compilation} (hrun : compileRequired body exact stop n s c = .ok (last, c')) :
    Frame c c' s stop A ∧ (exact = false → last = s ∨ c.size ≤ last ∧ last < c'.size) := by
  induction n generalizing s c with
  | zero =>
    obtain ⟨rfl, rfl⟩ := Prod.mk.inj (Except.ok.inj hrun)
    exact ⟨Frame.refl _ _ _ _, fun _ => Or.inl rfl⟩
  | succ n ih =>
    rw [compileRequired] at hrun
    by_cases hlast : (decide (n = 0) && exact) = true
    · rw [if_pos hlast] at hrun
      obtain ⟨⟨next, c₁⟩, hnext, hrun⟩ := bind_eq_ok.mp hrun
      obtain ⟨c₂, hcopy, hdone⟩ := bind_eq_ok.mp hrun
      obtain ⟨rfl, rfl⟩ := Prod.mk.inj (Except.ok.inj hnext)
      obtain ⟨hn, rfl⟩ := Bool.and_eq_true_iff.mp hlast
      obtain rfl := of_decide_eq_true hn
      obtain ⟨rfl, rfl⟩ := Prod.mk.inj (Except.ok.inj hdone)
      exact ⟨hbody.frame hcopy, fun hexact => by cases hexact⟩
    · rw [if_neg hlast] at hrun
      obtain ⟨⟨next, c₁⟩, hnext, hrun⟩ := bind_eq_ok.mp hrun
      obtain ⟨c₂, hcopy, hrun⟩ := bind_eq_ok.mp hrun
      obtain ⟨hrest, hexit⟩ := ih hrun
      obtain ⟨hframe, hinside⟩ := Frame.through hnext (hbody.frame hcopy) hrest
      -- the exit is the new state, or it lies in what the other copies add
      refine ⟨hframe, fun hexact => ?_⟩
      have hsize₂ := hrest.size_le
      have := hexit hexact
      omega

/-- The required copies are added to the context with less in it too. -/
theorem follows_compileRequired (hbody : Framed body A) {exact : Bool} {stop n s last : ℕ}
    {c d d' : Compilation} (stop' s' : ℕ) (h : Ahead c d)
    (hrun : compileRequired body exact stop n s d = .ok (last, d')) :
    ∃ last' c', compileRequired body exact stop' n s' c = .ok (last', c') ∧ Ahead c' d' := by
  induction n generalizing s s' c d with
  | zero =>
    obtain ⟨rfl, rfl⟩ := Prod.mk.inj (Except.ok.inj hrun)
    exact ⟨s', c, rfl, h⟩
  | succ n ih =>
    rw [compileRequired] at hrun
    simp only [compileRequired]
    -- the last copy of an exact count ends at `stop`, every other one at a new state
    by_cases hlast : (decide (n = 0) && exact) = true
    · rw [if_pos hlast] at hrun ⊢
      obtain ⟨⟨next, d₁⟩, hnext, hrun⟩ := bind_eq_ok.mp hrun
      obtain ⟨d₂, hcopy, hrest⟩ := bind_eq_ok.mp hrun
      obtain ⟨rfl, rfl⟩ := Prod.mk.inj (Except.ok.inj hnext)
      obtain ⟨c₂, hcopy', h₂⟩ := hbody.follows s' stop' h hcopy
      obtain ⟨last', c', hrest', h'⟩ := ih stop' h₂ hrest
      exact ⟨last', c', bind_eq_ok.mpr ⟨_, rfl, bind_eq_ok.mpr ⟨c₂, hcopy', hrest'⟩⟩, h'⟩
    · rw [if_neg hlast] at hrun ⊢
      obtain ⟨⟨next, d₁⟩, hnext, hrun⟩ := bind_eq_ok.mp hrun
      obtain ⟨d₂, hcopy, hrest⟩ := bind_eq_ok.mp hrun
      obtain ⟨next', c₁, hnext', h₁⟩ := h.addState hnext
      obtain ⟨c₂, hcopy', h₂⟩ := hbody.follows s' next' h₁ hcopy
      obtain ⟨last', c', hrest', h'⟩ := ih next' h₂ hrest
      exact ⟨last', c', bind_eq_ok.mpr ⟨_, hnext', bind_eq_ok.mpr ⟨c₂, hcopy', hrest'⟩⟩, h'⟩

/-- The optional copies are added within a frame. -/
theorem frame_compileOptional (hbody : Framed body A) {stop n s : ℕ} {c c' : Compilation}
    (hrun : compileOptional body stop n s c = .ok c') : Frame c c' s stop A := by
  induction n generalizing s c with
  | zero =>
    obtain rfl := Except.ok.inj hrun
    exact Frame.refl _ _ _ _
  | succ n ih =>
    rw [compileOptional] at hrun
    have hskip : Frame c (c.addEpsilon s stop) s stop A := Frame.addEpsilon
    by_cases hlast : n = 0
    · rw [if_pos hlast] at hrun
      obtain ⟨⟨next, c₁⟩, hnext, hrun⟩ := bind_eq_ok.mp hrun
      obtain ⟨c₂, hcopy, hdone⟩ := bind_eq_ok.mp hrun
      obtain ⟨rfl, rfl⟩ := Prod.mk.inj (Except.ok.inj hnext)
      subst hlast
      obtain rfl := Except.ok.inj hdone
      exact hskip.append (hbody.frame hcopy)
    · rw [if_neg hlast] at hrun
      obtain ⟨⟨next, c₁⟩, hnext, hrun⟩ := bind_eq_ok.mp hrun
      obtain ⟨c₂, hcopy, hrest⟩ := bind_eq_ok.mp hrun
      exact hskip.append (Frame.through hnext (hbody.frame hcopy) (ih hrest)).1

/-- The optional copies are added to the context with less in it too. -/
theorem follows_compileOptional (hbody : Framed body A) {stop n s : ℕ} {c d d' : Compilation}
    (stop' s' : ℕ) (h : Ahead c d) (hrun : compileOptional body stop n s d = .ok d') :
    ∃ c', compileOptional body stop' n s' c = .ok c' ∧ Ahead c' d' := by
  induction n generalizing s s' c d with
  | zero =>
    obtain rfl := Except.ok.inj hrun
    exact ⟨c, rfl, h⟩
  | succ n ih =>
    rw [compileOptional] at hrun
    simp only [compileOptional]
    -- each optional copy can be skipped, from both starts to both stops
    have hskip : Ahead (c.addEpsilon s' stop') (d.addEpsilon s stop) := h.pushEdge _ _ _ _
    by_cases hlast : n = 0
    · rw [if_pos hlast] at hrun ⊢
      obtain ⟨⟨next, d₁⟩, hnext, hrun⟩ := bind_eq_ok.mp hrun
      obtain ⟨d₂, hcopy, hrest⟩ := bind_eq_ok.mp hrun
      obtain ⟨rfl, rfl⟩ := Prod.mk.inj (Except.ok.inj hnext)
      obtain ⟨c₂, hcopy', h₂⟩ := hbody.follows s' stop' hskip hcopy
      obtain ⟨c', hrest', h'⟩ := ih stop' h₂ hrest
      exact ⟨c', bind_eq_ok.mpr ⟨_, rfl, bind_eq_ok.mpr ⟨c₂, hcopy', hrest'⟩⟩, h'⟩
    · rw [if_neg hlast] at hrun ⊢
      obtain ⟨⟨next, d₁⟩, hnext, hrun⟩ := bind_eq_ok.mp hrun
      obtain ⟨d₂, hcopy, hrest⟩ := bind_eq_ok.mp hrun
      obtain ⟨next', c₁, hnext', h₁⟩ := hskip.addState hnext
      obtain ⟨c₂, hcopy', h₂⟩ := hbody.follows s' next' h₁ hcopy
      obtain ⟨c', hrest', h'⟩ := ih next' h₂ hrest
      exact ⟨c', bind_eq_ok.mpr ⟨_, hnext', bind_eq_ok.mpr ⟨c₂, hcopy', hrest'⟩⟩, h'⟩

/-- A loop that is led back to where it starts. -/
theorem frame_loop (hbody : Framed body A) {s t loopEnd : ℕ} {c c₁ c₂ : Compilation}
    (hstate : c.addState = .ok (loopEnd, c₁)) (hcopy : body s loopEnd c₁ = .ok c₂) :
    Frame c (c₂.addEpsilon loopEnd s) s t A := by
  have hframe := (Frame.addState hstate s loopEnd A).append (hbody.frame hcopy)
  have hback : Frame c₂ (c₂.addEpsilon loopEnd s) loopEnd s A := Frame.addEpsilon
  obtain ⟨-, rfl, hc₁⟩ := Compilation.addState_eq_ok.mp hstate
  have hsize : c₁.size = c.size + 1 := by simp [hc₁, Compilation.size]
  have hsize₂ := (hbody.frame hcopy).size_le
  have hsize' := hback.size_le
  refine hframe.trans hback (Or.inl rfl) (Or.inr (Or.inr ?_)) (Or.inr ?_) (Or.inl rfl)
  · omega
  · omega

/-- A repetition is framed when its body is. -/
theorem framed_repetition (hbody : Framed body A) (min : ℕ) (max : Option ℕ) :
    Framed (compileRepetition body min max) A where
  frame {c c' s t} hrun := by
    obtain ⟨⟨current, c₁⟩, hrequired, hrun⟩ := bind_eq_ok.mp hrun
    obtain ⟨hframe, hexit⟩ := frame_compileRequired hbody hrequired
    -- an exact count ends with the required copies, or with an edge if there are none
    by_cases hmax : max = some min
    · subst hmax
      simp only [if_true] at hrun
      split at hrun
      next =>
        obtain rfl := Except.ok.inj hrun
        exact hframe.append Frame.addEpsilon
      next =>
        obtain rfl := Except.ok.inj hrun
        exact hframe
    · have hexit := hexit (beq_eq_false_iff_ne.mpr hmax)
      -- otherwise optional copies or a loop follow
      have htail : Frame c₁ c' current t A := by
        cases max with
        | some limit =>
          have hlimit : limit ≠ min := fun h => hmax (congrArg some h)
          simp only [if_neg hlimit] at hrun
          exact frame_compileOptional hbody hrun
        | none =>
          obtain ⟨⟨loopEnd, c₂⟩, hstate, hrun⟩ := bind_eq_ok.mp hrun
          obtain ⟨c₃, hcopy, hrun⟩ := bind_eq_ok.mp hrun
          obtain rfl := Except.ok.inj hrun
          exact Frame.append Frame.addEpsilon (frame_loop hbody hstate hcopy)
      have hsize := htail.size_le
      refine hframe.trans htail (Or.inl rfl) (Or.inr (Or.inl rfl)) ?_ (Or.inr (Or.inl rfl))
      omega
  follows {c d d' s t} s' t' h hrun := by
    obtain ⟨⟨current, d₁⟩, hrequired, hrun⟩ := bind_eq_ok.mp hrun
    -- the other compilation makes the same copies and takes the same branch
    obtain ⟨current', c₁, hrequired', h₁⟩ := follows_compileRequired hbody t' s' h hrequired
    cases max with
    | some limit =>
      simp only at hrun
      split at hrun
      next hlimit =>
        split at hrun
        next hmin =>
          obtain rfl := Except.ok.inj hrun
          refine ⟨c₁.addEpsilon s' t', bind_eq_ok.mpr ⟨_, hrequired', ?_⟩,
            h₁.pushEdge s s' ⟨.epsilon, t⟩ ⟨.epsilon, t'⟩⟩
          simp only [if_pos hlimit, if_pos hmin]
          rfl
        next hmin =>
          obtain rfl := Except.ok.inj hrun
          refine ⟨c₁, bind_eq_ok.mpr ⟨_, hrequired', ?_⟩, h₁⟩
          simp only [if_pos hlimit, if_neg hmin]
          rfl
      next hlimit =>
        obtain ⟨c', hrun', h'⟩ := follows_compileOptional hbody t' current' h₁ hrun
        refine ⟨c', bind_eq_ok.mpr ⟨_, hrequired', ?_⟩, h'⟩
        simp only [if_neg hlimit]
        exact hrun'
    | none =>
      obtain ⟨⟨loopEnd, d₂⟩, hstate, hrun⟩ := bind_eq_ok.mp hrun
      obtain ⟨d₃, hcopy, hrun⟩ := bind_eq_ok.mp hrun
      obtain rfl := Except.ok.inj hrun
      have hskip : Ahead (c₁.addEpsilon current' t') (d₁.addEpsilon current t) :=
        h₁.pushEdge _ _ _ _
      obtain ⟨loopEnd', c₂, hstate', h₂⟩ := hskip.addState hstate
      obtain ⟨c₃, hcopy', h₃⟩ := hbody.follows current' loopEnd' h₂ hcopy
      refine ⟨c₃.addEpsilon loopEnd' current', bind_eq_ok.mpr ⟨_, hrequired', ?_⟩,
        h₃.pushEdge loopEnd loopEnd' ⟨.epsilon, current⟩ ⟨.epsilon, current'⟩⟩
      exact bind_eq_ok.mpr ⟨_, hstate', bind_eq_ok.mpr ⟨c₃, hcopy', rfl⟩⟩

end Repetition

/-! ### Expressions -/

/-- The branches are framed when each of them is. -/
theorem framed_branches {es : List Hir} {A : Bool}
    (h : ∀ e ∈ es, Framed (compileExpression e) A) : Framed (compileBranches es) A := by
  induction es with
  | nil =>
    refine ⟨fun hrun => ?_, fun s' t' hahead hrun => ?_⟩
    · obtain rfl := Except.ok.inj hrun
      exact Frame.refl _ _ _ _
    · obtain rfl := Except.ok.inj hrun
      exact ⟨_, rfl, hahead⟩
  | cons e es ih =>
    have hbranch := h e List.mem_cons_self
    have hrest := ih fun e he => h e (List.mem_cons_of_mem _ he)
    refine ⟨fun hrun => ?_, fun s' t' hahead hrun => ?_⟩
    · rw [compileBranches] at hrun
      obtain ⟨c₁, hfirst, hrun⟩ := bind_eq_ok.mp hrun
      exact (hbranch.frame hfirst).append (hrest.frame hrun)
    · rw [compileBranches] at hrun
      obtain ⟨d₁, hfirst, hrun⟩ := bind_eq_ok.mp hrun
      obtain ⟨c₁, hfirst', h₁⟩ := hbranch.follows s' t' hahead hfirst
      obtain ⟨c', hrun', h'⟩ := hrest.follows s' t' h₁ hrun
      refine ⟨c', ?_, h'⟩
      rw [compileBranches]
      exact bind_eq_ok.mpr ⟨c₁, hfirst', hrun'⟩

/-- The items are framed when each of them is. -/
theorem framed_items {es : List Hir} {A : Bool}
    (h : ∀ e ∈ es, Framed (compileExpression e) A) : Framed (compileItems es) A := by
  induction es with
  | nil =>
    refine ⟨fun hrun => ?_, fun s' t' hahead hrun => ?_⟩
    · obtain rfl := Except.ok.inj hrun
      exact Frame.refl _ _ _ _
    · obtain rfl := Except.ok.inj hrun
      exact ⟨_, rfl, hahead⟩
  | cons e es ih =>
    have hitem := h e List.mem_cons_self
    have hrest := ih fun e he => h e (List.mem_cons_of_mem _ he)
    -- first what a sequence adds, then that it succeeds from smaller compilations too
    refine ⟨fun {c c' s t} hrun => ?_, fun {c d d' s t} s' t' hahead hrun => ?_⟩
    · rw [compileItems] at hrun
      cases es with
      | nil =>
        obtain ⟨⟨next, c₁⟩, hnext, hrun⟩ := bind_eq_ok.mp hrun
        obtain ⟨c₂, hfirst, hdone⟩ := bind_eq_ok.mp hrun
        obtain ⟨rfl, rfl⟩ := Prod.mk.inj (Except.ok.inj hnext)
        obtain rfl := Except.ok.inj hdone
        exact hitem.frame hfirst
      | cons e' es =>
        obtain ⟨⟨next, c₁⟩, hnext, hrun⟩ := bind_eq_ok.mp hrun
        obtain ⟨c₂, hfirst, hrun⟩ := bind_eq_ok.mp hrun
        exact (Frame.through hnext (hitem.frame hfirst) (hrest.frame hrun)).1
    · rw [compileItems] at hrun
      cases es with
      | nil =>
        obtain ⟨⟨next, d₁⟩, hnext, hrun⟩ := bind_eq_ok.mp hrun
        obtain ⟨d₂, hfirst, hdone⟩ := bind_eq_ok.mp hrun
        obtain ⟨rfl, rfl⟩ := Prod.mk.inj (Except.ok.inj hnext)
        obtain rfl := Except.ok.inj hdone
        obtain ⟨c₂, hfirst', h₂⟩ := hitem.follows s' t' hahead hfirst
        refine ⟨c₂, ?_, h₂⟩
        rw [compileItems]
        exact bind_eq_ok.mpr ⟨_, rfl, bind_eq_ok.mpr ⟨c₂, hfirst', rfl⟩⟩
      | cons e' es =>
        obtain ⟨⟨next, d₁⟩, hnext, hrun⟩ := bind_eq_ok.mp hrun
        obtain ⟨d₂, hfirst, hrun⟩ := bind_eq_ok.mp hrun
        obtain ⟨next', c₁, hnext', h₁⟩ := hahead.addState hnext
        obtain ⟨c₂, hfirst', h₂⟩ := hitem.follows s' next' h₁ hfirst
        obtain ⟨c', hrun', h'⟩ := hrest.follows next' t' h₂ hrun
        refine ⟨c', ?_, h'⟩
        rw [compileItems]
        exact bind_eq_ok.mpr ⟨_, hnext', bind_eq_ok.mpr ⟨c₂, hfirst', hrun'⟩⟩

/-- What pushes one edge keeps to its frame. -/
theorem framed_edge {kind : EdgeKind} {A : Bool} (hkind : ∀ a, kind = .assertion a → A = true) :
    Framed (fun s t c => .ok (c.pushEdge s ⟨kind, t⟩)) A where
  frame hrun := by
    obtain rfl := Except.ok.inj hrun
    exact Frame.pushEdge hkind
  follows s' t' hahead hrun := by
    obtain rfl := Except.ok.inj hrun
    exact ⟨_, rfl, hahead.pushEdge _ _ _ _⟩

/-- Every expression keeps to its frame, and asks for assertions only if it has some. -/
theorem framed_expression (e : Hir) : Framed (compileExpression e) e.usesAssertions := by
  induction e with
  | never =>
    refine ⟨fun hrun => ?_, fun s' t' hahead hrun => ?_⟩
    · obtain rfl := Except.ok.inj hrun
      exact Frame.refl _ _ _ _
    · obtain rfl := Except.ok.inj hrun
      exact ⟨_, rfl, hahead⟩
  | epsilon => exact framed_edge fun a ha => by cases ha
  | assertion a => exact framed_edge fun _ _ => rfl
  | symbol u => exact framed_edge fun a ha => by cases ha
  | predicate p =>
    refine ⟨fun {c c' s t} hrun => ?_, fun {c d d' s t} s' t' hahead hrun => ?_⟩
    · rw [compileExpression] at hrun
      obtain ⟨⟨id, c₁⟩, hintern, hrun⟩ := bind_eq_ok.mp hrun
      obtain rfl := Except.ok.inj hrun
      exact (Frame.internPredicate hintern s t _).append (Frame.pushEdge fun a ha => by cases ha)
    · rw [compileExpression] at hrun
      obtain ⟨⟨id, d₁⟩, hintern, hrun⟩ := bind_eq_ok.mp hrun
      obtain rfl := Except.ok.inj hrun
      obtain ⟨id', c₁, hintern', h₁⟩ := hahead.internPredicate hintern
      refine ⟨_, ?_, h₁.pushEdge s s' ⟨.predicate id, t⟩ ⟨.predicate id', t'⟩⟩
      rw [compileExpression]
      exact bind_eq_ok.mpr ⟨_, hintern', rfl⟩
  | sequence es ih =>
    -- a sequence reads assertions if one of its items does
    refine framed_items fun e he => (ih e he).mono fun hassertion => ?_
    rw [Hir.usesAssertions, Hir.anyUsesAssertions_eq_any]
    exact List.any_eq_true.mpr ⟨e, he, hassertion⟩
  | alternation es ih =>
    refine framed_branches fun e he => (ih e he).mono fun hassertion => ?_
    rw [Hir.usesAssertions, Hir.anyUsesAssertions_eq_any]
    exact List.any_eq_true.mpr ⟨e, he, hassertion⟩
  | repetition e min max ih => exact framed_repetition ih min max

end Rustmatch

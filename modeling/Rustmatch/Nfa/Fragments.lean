import Mathlib.Order.Interval.Set.LinearOrder
import Rustmatch.Hir.CompiledRuns
import Rustmatch.Nfa.Compilation

/-!
# Every expression compiles to a fragment

`compile_expression` adds to the graph a fragment between the two states it is given, private
states being the ones it allocates. Its round trips and its runs are those of `Hir.turn` and
`Hir.walk`, for every reading of the input. The proof follows the compiler: one lemma for each way
in which it puts fragments together, one for each of its loops, and the induction over expressions.

## Main results

* `compiles_repetition`: a repetition of a body that compiles to a fragment;
* `compiles_expression`: every expression compiles to a fragment.
-/

open LabelledGraph Relation

namespace Rustmatch

/-- From `c` to `c'`, a fragment from `s` to `t` with private states `F` is added. -/
def AddsFragment (c c' : Compilation) (s t : ℕ) (F : Set ℕ)
    (turn walk : Reading → Config → Config → Prop) : Prop :=
  ∃ N, c.Grows c' N ∧ Fragment N s t F ∧
    ∀ R : Reading, Along R.act N s s = ReflTransGen (turn R) ∧ Along R.act N s t = walk R

/-- Between any two states, `body` adds a fragment whose private states are new. -/
def Compiles (body : Compiler) (turn walk : Reading → Config → Config → Prop) : Prop :=
  ∀ {c c' : Compilation} {s t : ℕ}, c.Valid → s < c.size → t < c.size → s ≠ t →
    body s t c = .ok c' → AddsFragment c c' s t (Set.Ico c.size c'.size) turn walk

namespace AddsFragment

variable {c c₁ c' : Compilation} {s m t : ℕ} {F F₁ F₂ : Set ℕ}
  {turn turn' walk walk' : Reading → Config → Config → Prop}

/-- Adding a fragment keeps the context valid. -/
theorem valid (h : AddsFragment c c' s t F turn walk) : c'.Valid := by
  obtain ⟨N, hgrows, -, -⟩ := h
  exact hgrows.valid

/-- Adding a fragment loses no state. -/
theorem size_le (h : AddsFragment c c' s t F turn walk) : c.size ≤ c'.size := by
  obtain ⟨N, hgrows, -, -⟩ := h
  exact hgrows.size_le

/-- Turns matter up to their runs only. -/
theorem congr (h : AddsFragment c c' s t F turn walk)
    (hturn : ∀ R, ReflTransGen (turn R) = ReflTransGen (turn' R)) (hwalk : ∀ R, walk R = walk' R) :
    AddsFragment c c' s t F turn' walk' := by
  obtain ⟨N, hgrows, hfragment, halong⟩ := h
  refine ⟨N, hgrows, hfragment, fun R => ?_⟩
  rw [← hturn, ← hwalk]
  exact halong R

/-- Nothing is added. -/
theorem nothing (h : c.Valid) (hne : s ≠ t) :
    AddsFragment c c s t (Set.Ico c.size c.size) (fun _ => ⊥) fun _ => ⊥ := by
  rw [Set.Ico_self]
  refine ⟨⊥, Compilation.Grows.refl h, Fragment.bot hne, fun R => ?_⟩
  rw [Fragment.along_bot_self, Fragment.along_bot hne, reflTransGen_bot]
  exact ⟨rfl, rfl⟩

/-- One edge is added. -/
theorem edge {kind : EdgeKind} {l : Label} (h : c.Valid) (hs : s < c.size) (ht : t < c.size)
    (hne : s ≠ t) (hl : c.label kind = some l) :
    AddsFragment c (c.pushEdge s ⟨kind, t⟩) s t
      (Set.Ico c.size (c.pushEdge s ⟨kind, t⟩).size) (fun _ => ⊥) fun R => R.act l := by
  obtain ⟨hsize, hgrows⟩ := Compilation.grows_pushEdge h hs ht hl
  rw [hsize, Set.Ico_self]
  refine ⟨_, hgrows, Fragment.of_single l hne, fun R => ?_⟩
  rw [Fragment.along_single_self l hne, Fragment.along_single l hne, reflTransGen_bot]
  exact ⟨rfl, rfl⟩

/-- A state allocated before a fragment is no part of it. -/
theorem of_addState (h : c.Valid) (hstate : c.addState = .ok (m, c₁))
    (hrest : AddsFragment c₁ c' s t F turn walk) : AddsFragment c c' s t F turn walk := by
  obtain ⟨-, -, hstate⟩ := Compilation.grows_addState h hstate
  obtain ⟨N, hgrows, hfragment, halong⟩ := hrest
  refine ⟨N, ?_, hfragment, halong⟩
  have := hstate.trans hgrows
  rwa [bot_sup_eq] at this

/-- Fragments side by side share their ends and their round trips. -/
theorem sup (h₁ : AddsFragment c c₁ s t (Set.Ico c.size c₁.size) turn walk)
    (h₂ : AddsFragment c₁ c' s t (Set.Ico c₁.size c'.size) turn' walk') :
    AddsFragment c c' s t (Set.Ico c.size c'.size) (fun R => turn R ⊔ turn' R) fun R =>
      Comp (ReflTransGen (turn R ⊔ turn' R)) (walk R ⊔ walk' R) := by
  have hsize₁ := h₁.size_le
  have hsize₂ := h₂.size_le
  obtain ⟨N₁, hgrows₁, hfragment₁, halong₁⟩ := h₁
  obtain ⟨N₂, hgrows₂, hfragment₂, halong₂⟩ := h₂
  have hdisjoint : Disjoint (Set.Ico c.size c₁.size) (Set.Ico c₁.size c'.size) := by
    rw [Set.disjoint_left]
    intro u hu hu'
    exact absurd hu.2 (not_lt.mpr hu'.1)
  have hunion : Set.Ico c.size c₁.size ∪ Set.Ico c₁.size c'.size = Set.Ico c.size c'.size :=
    Set.Ico_union_Ico_eq_Ico hsize₁ hsize₂
  refine ⟨N₁ ⊔ N₂, hgrows₁.trans hgrows₂, hunion ▸ hfragment₁.sup hfragment₂, fun R => ?_⟩
  obtain ⟨hturn₁, hwalk₁⟩ := halong₁ R
  obtain ⟨hturn₂, hwalk₂⟩ := halong₂ R
  rw [Fragment.along_sup_self hfragment₁ hfragment₂ hdisjoint,
    Fragment.along_sup hfragment₁ hfragment₂ hdisjoint, hturn₁, hturn₂, hwalk₁, hwalk₂,
    reflTransGen_sup_left, reflTransGen_sup_right]
  exact ⟨rfl, rfl⟩

/-- Fragments in a row through `m`. -/
theorem append (h₁ : AddsFragment c c₁ s m F₁ turn walk)
    (h₂ : AddsFragment c₁ c' m t F₂ turn' walk') (hs : s ∉ F₂) (ht : t ∉ F₁) (hne : s ≠ t)
    (hF : ∀ u ∈ F₁, u ∉ F₂) (hunion : F₁ ∪ F₂ ∪ {m} = F) :
    AddsFragment c c' s t F turn fun R => Comp (walk R) (walk' R) := by
  obtain ⟨N₁, hgrows₁, hfragment₁, halong₁⟩ := h₁
  obtain ⟨N₂, hgrows₂, hfragment₂, halong₂⟩ := h₂
  have hdisjoint : Disjoint F₁ F₂ := Set.disjoint_left.mpr fun u hu => hF u hu
  refine ⟨N₁ ⊔ N₂, hgrows₁.trans hgrows₂,
    hunion ▸ hfragment₁.append hfragment₂ hs ht hne, fun R => ?_⟩
  rw [Fragment.along_append_self hfragment₁ hfragment₂ hs ht hne hdisjoint,
    Fragment.along_append hfragment₁ hfragment₂ hs ht hne hdisjoint, (halong₁ R).1,
    (halong₁ R).2, (halong₂ R).2]
  exact ⟨rfl, rfl⟩

/-- Fragments in a row, with a new state `m` between them. -/
theorem through (hc : c.Valid) (hs : s < c.size) (ht : t < c.size) (hne : s ≠ t)
    (hstate : c.addState = .ok (m, c₁))
    (h₁ : AddsFragment c₁ c₂ s m (Set.Ico c₁.size c₂.size) turn walk)
    (h₂ : AddsFragment c₂ c' m t (Set.Ico c₂.size c'.size) turn' walk') :
    AddsFragment c c' s t (Set.Ico c.size c'.size) turn fun R => Comp (walk R) (walk' R) := by
  obtain ⟨hm, hsize, -⟩ := Compilation.grows_addState hc hstate
  have hsize₁ := h₁.size_le
  have hsize₂ := h₂.size_le
  -- the new state stands right before the states of the first fragment
  have hunion : Set.Ico c₁.size c₂.size ∪ Set.Ico c₂.size c'.size ∪ {m} =
      Set.Ico c.size c'.size := by
    ext u
    show ((c₁.size ≤ u ∧ u < c₂.size) ∨ (c₂.size ≤ u ∧ u < c'.size)) ∨ u = m ↔
      c.size ≤ u ∧ u < c'.size
    omega
  refine (h₁.of_addState hc hstate).append h₂ ?_ ?_ hne ?_ hunion
  · rintro ⟨hle, -⟩
    omega
  · rintro ⟨hle, -⟩
    omega
  · rintro u ⟨-, hlt⟩ ⟨hle, -⟩
    omega

/-- A fragment from `s` to a new state `m` with a back edge loops at `s` and leads nowhere else. -/
theorem back (hc : c.Valid) (hs : s < c.size) (ht : t < c.size) (hne : s ≠ t)
    (hstate : c.addState = .ok (m, c₁))
    (h : AddsFragment c₁ c' s m (Set.Ico c₁.size c'.size) turn walk) :
    AddsFragment c (c'.addEpsilon m s) s t (Set.Ico c.size (c'.addEpsilon m s).size)
      (fun R => turn R ⊔ walk R) fun _ => ⊥ := by
  obtain ⟨hm, hsize₁, hgrows₁⟩ := Compilation.grows_addState hc hstate
  have hsize := h.size_le
  obtain ⟨N, hgrows, hfragment, halong⟩ := h
  obtain ⟨hsize', hback⟩ := Compilation.grows_pushEdge hgrows.valid
    (show m < c'.size by omega) (show s < c'.size by omega)
    (show c'.label .epsilon = some .epsilon from rfl)
  have hgrows' := (hgrows₁.trans hgrows).trans hback
  rw [bot_sup_eq] at hgrows'
  -- the fragment of the body is entered at `s` and left at the new state `m`
  have hnotMem : t ∉ Set.Ico c₁.size c'.size := by
    rw [Set.mem_Ico]
    omega
  have hunion : Set.Ico c₁.size c'.size ∪ {m} = Set.Ico c.size (c'.addEpsilon m s).size := by
    ext u
    show (c₁.size ≤ u ∧ u < c'.size) ∨ u = m ↔
      c.size ≤ u ∧ u < (c'.pushEdge m ⟨.epsilon, s⟩).size
    rw [hsize']
    omega
  -- walks from `s` back to `s` are turns of the body, then its walks and the edge back
  refine ⟨_, hgrows', hunion ▸ hfragment.back .epsilon hnotMem hne (by omega), fun R => ?_⟩
  rw [Fragment.along_back_self hfragment rfl,
    Fragment.along_back hfragment .epsilon hnotMem hne (by omega), (halong R).1, (halong R).2,
    reflTransGen_sup_left]
  exact ⟨rfl, rfl⟩

end AddsFragment

/-! ### Repetitions -/

section Repetition

variable {body : Compiler} {turn walk : Reading → Config → Config → Prop}

/-- The required copies form one fragment; its exit is `stop` if nothing follows, and otherwise a
new state. -/
theorem addsFragment_compileRequired (hbody : Compiles body turn walk) {exact : Bool}
    {stop s current : ℕ} {n : ℕ} {c c' : Compilation} (hc : c.Valid) (hs : s < c.size)
    (hstop : stop < c.size) (hne : s ≠ stop)
    (hrun : compileRequired body exact stop (n + 1) s c = .ok (current, c')) :
    (if exact then current = stop else c.size ≤ current ∧ current < c'.size) ∧
      AddsFragment c c' s current (Set.Ico c.size c'.size \ {current}) turn
        fun R => power (walk R) (n + 1) := by
  induction n generalizing s c with
  | zero =>
    rw [compileRequired] at hrun
    simp only [decide_true, Bool.true_and] at hrun
    cases exact with
    | true =>
      obtain ⟨⟨next, c₁⟩, hnext, hrun⟩ := bind_eq_ok.mp hrun
      obtain ⟨rfl, rfl⟩ := Prod.mk.inj (Except.ok.inj hnext)
      obtain ⟨c₂, hcopy, hrun⟩ := bind_eq_ok.mp hrun
      obtain ⟨rfl, rfl⟩ := Prod.mk.inj (Except.ok.inj hrun)
      have hadds := hbody hc hs hstop hne hcopy
      have hF : Set.Ico c.size c₂.size \ {stop} = Set.Ico c.size c₂.size := by
        refine Set.sdiff_singleton_eq_self ?_
        rw [Set.mem_Ico]
        omega
      refine ⟨rfl, ?_⟩
      rw [hF]
      exact hadds.congr (fun _ => rfl) fun R => (power_one (walk R)).symm
    | false =>
      obtain ⟨⟨next, c₁⟩, hnext, hrun⟩ := bind_eq_ok.mp hrun
      obtain ⟨c₂, hcopy, hrun⟩ := bind_eq_ok.mp hrun
      obtain ⟨rfl, rfl⟩ := Prod.mk.inj (Except.ok.inj hrun)
      obtain ⟨hm, hsize₁, hgrows₁⟩ := Compilation.grows_addState hc hnext
      have hadds := hbody hgrows₁.valid (by omega) (by omega) (by omega) hcopy
      have hsize := hadds.size_le
      have hF : Set.Ico c.size c₂.size \ {next} = Set.Ico c₁.size c₂.size := by
        ext u
        show (c.size ≤ u ∧ u < c₂.size) ∧ u ≠ next ↔ c₁.size ≤ u ∧ u < c₂.size
        omega
      refine ⟨?_, ?_⟩
      · rw [if_neg Bool.false_ne_true]
        exact ⟨by omega, by omega⟩
      · rw [hF]
        exact (hadds.of_addState hc hnext).congr (fun _ => rfl) fun R => (power_one (walk R)).symm
  | succ n ih =>
    rw [compileRequired] at hrun
    have hmore : (decide (n + 1 = 0) && exact) = false := by simp
    rw [hmore] at hrun
    obtain ⟨⟨next, c₁⟩, hnext, hrun⟩ := bind_eq_ok.mp hrun
    obtain ⟨c₂, hcopy, hrun⟩ := bind_eq_ok.mp hrun
    obtain ⟨hm, hsize₁, hgrows₁⟩ := Compilation.grows_addState hc hnext
    have hadds := hbody hgrows₁.valid (by omega) (by omega) (by omega) hcopy
    have hsize := hadds.size_le
    obtain ⟨hcurrent, hrest⟩ := ih hadds.valid (by omega) (by omega) (by omega) hrun
    have hsize' := hrest.size_le
    -- the exit of the copies that follow is not among the states of this one
    have hexit : current = stop ∨ c₂.size ≤ current ∧ current < c'.size := by
      cases exact with
      | true => exact Or.inl hcurrent
      | false => exact Or.inr hcurrent
    refine ⟨?_, ?_⟩
    · cases exact with
      | true => exact hcurrent
      | false =>
        have hlt : c₂.size ≤ current ∧ current < c'.size := hcurrent
        show c.size ≤ current ∧ current < c'.size
        omega
    · have hF : Set.Ico c₁.size c₂.size ∪ Set.Ico c₂.size c'.size \ {current} ∪ {next} =
          Set.Ico c.size c'.size \ {current} := by
        ext u
        show ((c₁.size ≤ u ∧ u < c₂.size) ∨ (c₂.size ≤ u ∧ u < c'.size) ∧ u ≠ current) ∨
          u = next ↔ (c.size ≤ u ∧ u < c'.size) ∧ u ≠ current
        omega
      refine (hadds.of_addState hc hnext).append hrest ?_ ?_ (by omega) ?_ hF
      · rintro ⟨⟨h₁, h₂⟩, -⟩
        omega
      · rintro ⟨h₁, h₂⟩
        omega
      · rintro u ⟨h₁, h₂⟩ ⟨⟨h₃, h₄⟩, -⟩
        omega

/-- The optional copies form one fragment, which may be left before each of them. -/
theorem addsFragment_compileOptional (hbody : Compiles body turn walk) {stop s : ℕ} {n : ℕ}
    {c c' : Compilation} (hc : c.Valid) (hs : s < c.size) (hstop : stop < c.size)
    (hne : s ≠ stop) (hrun : compileOptional body stop (n + 1) s c = .ok c') :
    AddsFragment c c' s stop (Set.Ico c.size c'.size) turn
      fun R => optionalRun (turn R) (walk R) (n + 1) := by
  induction n generalizing s c with
  | zero =>
    rw [compileOptional] at hrun
    obtain ⟨⟨next, c₁⟩, hnext, hrun⟩ := bind_eq_ok.mp hrun
    obtain ⟨rfl, rfl⟩ := Prod.mk.inj (Except.ok.inj hnext)
    obtain ⟨c₂, hcopy, hrun⟩ := bind_eq_ok.mp hrun
    obtain rfl := Except.ok.inj hrun
    have hskip := @AddsFragment.edge c s stop .epsilon .epsilon hc hs hstop hne rfl
    have hsize := hskip.size_le
    have hadds := hbody hskip.valid (hs.trans_le hsize) (hstop.trans_le hsize) hne hcopy
    refine (hskip.sup hadds).congr (fun R => ?_) fun R => ?_
    · rw [bot_sup_eq]
    · rw [bot_sup_eq, optionalRun, optionalRun, comp_eq]
      rfl
  | succ n ih =>
    rw [compileOptional, if_neg (Nat.succ_ne_zero n)] at hrun
    obtain ⟨⟨next, c₁⟩, hnext, hrun⟩ := bind_eq_ok.mp hrun
    obtain ⟨c₂, hcopy, hrun⟩ := bind_eq_ok.mp hrun
    have hskip := @AddsFragment.edge c s stop .epsilon .epsilon hc hs hstop hne rfl
    have hskipSize := hskip.size_le
    obtain ⟨hm, hsize₁, hgrows₁⟩ := Compilation.grows_addState hskip.valid hnext
    have hm : next = (c.pushEdge s ⟨.epsilon, stop⟩).size := hm
    have hadds := hbody hgrows₁.valid (by omega) (by omega) (by omega) hcopy
    have hsize := hadds.size_le
    have hrest := ih hadds.valid (by omega) (by omega) (by omega) hrun
    -- the fragment may be left at once, or after one copy and some of the others
    have hcopies := hadds.through hskip.valid (hs.trans_le hskipSize) (hstop.trans_le hskipSize)
      hne hnext hrest
    refine (hskip.sup hcopies).congr (fun R => ?_) fun R => ?_
    · rw [bot_sup_eq]
    · rw [bot_sup_eq]
      rfl

/-- What `compile_repetition` does after the required copies. -/
def compileTail (body : Compiler) (min : ℕ) (max : Option ℕ) (current stop : StateId)
    (c : Compilation) : Except Error Compilation := do
  match max with
  | some limit => compileOptional body stop (limit - min) current c
  | none =>
    let c := c.addEpsilon current stop
    let (loopEnd, c) ← c.addState
    let c ← body current loopEnd c
    return c.addEpsilon loopEnd current

/-- The tail of a repetition that does not end with its required copies. -/
theorem addsFragment_compileTail (hbody : Compiles body turn walk) {min : ℕ} {max : Option ℕ}
    (hmax : max ≠ some min) {stop s : ℕ} {c c' : Compilation} (hc : c.Valid)
    (hs : s < c.size) (hstop : stop < c.size) (hne : s ≠ stop)
    (hrun : compileTail body min max s stop c = .ok c') :
    AddsFragment c c' s stop (Set.Ico c.size c'.size)
      (fun R => if max = none then turn R ⊔ walk R else if max.getD 0 < min then ⊥ else turn R)
      fun R => Hir.repetitionTail (turn R) (walk R) min max := by
  cases max with
  | some limit =>
    rw [compileTail] at hrun
    -- a limit below the minimum leaves no copies: the exit is not reached
    by_cases hlimit : limit < min
    · rw [Nat.sub_eq_zero_of_le hlimit.le] at hrun
      obtain rfl := Except.ok.inj hrun
      refine (AddsFragment.nothing hc hne).congr (fun R => ?_) fun R => ?_
      · rw [if_neg (Option.some_ne_none limit), Option.getD_some, if_pos hlimit]
      · rw [Hir.repetitionTail, if_pos hlimit]
    · obtain ⟨n, hn⟩ : ∃ n, limit - min = n + 1 := by
        have : limit ≠ min := fun h => hmax (h ▸ rfl)
        exact Nat.exists_eq_succ_of_ne_zero (by omega)
      rw [hn] at hrun
      refine (addsFragment_compileOptional hbody hc hs hstop hne hrun).congr (fun R => ?_)
        fun R => ?_
      · rw [if_neg (Option.some_ne_none limit), Option.getD_some, if_neg hlimit]
      · rw [Hir.repetitionTail, if_neg hlimit, hn]
  | none =>
    obtain ⟨⟨loopEnd, c₁⟩, hstate, hrun⟩ := bind_eq_ok.mp hrun
    obtain ⟨c₂, hcopy, hrun⟩ := bind_eq_ok.mp hrun
    obtain rfl := Except.ok.inj hrun
    -- the loop: an edge that skips it, and a copy of the body with an edge back
    have hskip := @AddsFragment.edge c s stop .epsilon .epsilon hc hs hstop hne rfl
    have hskipSize := hskip.size_le
    obtain ⟨hm, hsize₁, hgrows₁⟩ := Compilation.grows_addState hskip.valid hstate
    have hm : loopEnd = (c.pushEdge s ⟨.epsilon, stop⟩).size := hm
    have hadds := hbody hgrows₁.valid (by omega) (by omega) (by omega) hcopy
    have hloop := AddsFragment.back hskip.valid (hs.trans_le hskipSize)
      (hstop.trans_le hskipSize) hne hstate hadds
    refine (hskip.sup hloop).congr (fun R => ?_) fun R => ?_
    · rw [bot_sup_eq, if_pos rfl]
    · rw [bot_sup_eq, sup_bot_eq]
      exact comp_eq

/-- A repetition of a body that compiles to a fragment compiles to a fragment. -/
theorem compiles_repetition (hbody : Compiles body turn walk) (min : ℕ) (max : Option ℕ) :
    Compiles (compileRepetition body min max)
      (fun R => Hir.repetitionTurn (turn R) (walk R) min max)
      fun R => Comp (power (walk R) min) (Hir.repetitionTail (turn R) (walk R) min max) := by
  intro c c' s t hc hs ht hne hrun
  obtain ⟨⟨current, c₁⟩, hrequired, hrun⟩ := bind_eq_ok.mp hrun
  -- with both counts the same the last copy ends at `t` itself, and nothing follows it
  by_cases hmax : max = some min
  · subst hmax
    -- without required copies the tail starts at `s`, otherwise at the end of the last copy
    cases min with
    | zero =>
      obtain ⟨rfl, rfl⟩ := Prod.mk.inj (Except.ok.inj hrequired)
      obtain rfl := Except.ok.inj hrun
      refine (@AddsFragment.edge c s t .epsilon .epsilon hc hs ht hne rfl).congr
        (fun _ => rfl) fun R => ?_
      exact eq_comp.symm
    | succ n =>
      have hexact : (some (n + 1) == some (n + 1)) = true := beq_self_eq_true _
      rw [hexact] at hrequired
      obtain ⟨hcurrent, hadds⟩ := addsFragment_compileRequired hbody hc hs ht hne hrequired
      obtain rfl : current = t := hcurrent
      have hrun : (pure c₁ : Except Error Compilation) = .ok c' := by
        simpa using hrun
      obtain rfl := Except.ok.inj hrun
      have hF : Set.Ico c.size c₁.size \ {current} = Set.Ico c.size c₁.size := by
        refine Set.sdiff_singleton_eq_self ?_
        rw [Set.mem_Ico]
        omega
      rw [hF] at hadds
      refine hadds.congr (fun _ => rfl) fun R => ?_
      rw [Hir.repetitionTail, if_neg (lt_irrefl _), Nat.sub_self]
      exact comp_eq.symm
  · have hexact : (max == some min) = false := beq_eq_false_iff_ne.mpr hmax
    rw [hexact] at hrequired
    have htail : compileTail body min max current t c₁ = .ok c' := by
      rw [← hrun]
      cases max with
      | none => rfl
      | some limit => exact (if_neg fun h : limit = min => hmax (congrArg some h)).symm
    cases min with
    | zero =>
      obtain ⟨rfl, rfl⟩ := Prod.mk.inj (Except.ok.inj hrequired)
      refine (addsFragment_compileTail hbody hmax hc hs ht hne htail).congr (fun R => ?_)
        fun R => eq_comp.symm
      cases max with
      | none => rfl
      | some limit =>
        cases limit with
        | zero => exact absurd rfl hmax
        | succ limit => rfl
    | succ n =>
      obtain ⟨hcurrent, hadds⟩ := addsFragment_compileRequired hbody hc hs ht hne hrequired
      rw [if_neg Bool.false_ne_true] at hcurrent
      have hsize := hadds.size_le
      have hrest := addsFragment_compileTail hbody hmax hadds.valid hcurrent.2 (by omega)
        (by omega) htail
      have hsize' := hrest.size_le
      -- the states of both parts and the one between them are all states added
      have hF : Set.Ico c.size c₁.size \ {current} ∪ Set.Ico c₁.size c'.size ∪ {current} =
          Set.Ico c.size c'.size := by
        ext u
        show ((c.size ≤ u ∧ u < c₁.size) ∧ u ≠ current ∨ (c₁.size ≤ u ∧ u < c'.size)) ∨
          u = current ↔ c.size ≤ u ∧ u < c'.size
        omega
      refine hadds.append hrest ?_ ?_ hne ?_ hF
      · rintro ⟨h₁, h₂⟩
        omega
      · rintro ⟨⟨h₁, h₂⟩, -⟩
        omega
      · rintro u ⟨⟨h₁, h₂⟩, -⟩ ⟨h₃, h₄⟩
        omega

end Repetition

/-! ### Expressions -/

/-- The branches are compiled when each of them is. -/
theorem compiles_branches {es : List Hir}
    (h : ∀ e ∈ es, Compiles (compileExpression e) (fun R => e.turn R) fun R => e.walk R) :
    Compiles (compileBranches es) (fun R => Hir.turnAny R es)
      fun R => Comp (ReflTransGen (Hir.turnAny R es)) (Hir.walkAny R es) := by
  induction es with
  | nil =>
    intro c c' s t hc hs ht hne hrun
    obtain rfl := Except.ok.inj hrun
    exact (AddsFragment.nothing hc hne).congr (fun _ => rfl) fun R => (comp_bot _).symm
  | cons e es ih =>
    intro c c' s t hc hs ht hne hrun
    rw [compileBranches] at hrun
    obtain ⟨c₁, hbranch, hrun⟩ := bind_eq_ok.mp hrun
    have hadds := h e List.mem_cons_self hc hs ht hne hbranch
    have hsize := hadds.size_le
    have hrest := ih (fun e he => h e (List.mem_cons_of_mem _ he)) hadds.valid
      (hs.trans_le hsize) (ht.trans_le hsize) hne hrun
    refine (hadds.sup hrest).congr (fun _ => rfl) fun R => ?_
    rw [comp_reflTransGen_sup]
    rfl

/-- The items are compiled when each of them is. -/
theorem compiles_items {es : List Hir}
    (h : ∀ e ∈ es, Compiles (compileExpression e) (fun R => e.turn R) fun R => e.walk R) :
    Compiles (compileItems es) (fun R => Hir.turnFirst R es) fun R => Hir.walkSequence R es := by
  induction es with
  | nil =>
    intro c c' s t hc hs ht hne hrun
    obtain rfl := Except.ok.inj hrun
    exact AddsFragment.nothing hc hne
  | cons e es ih =>
    intro c c' s t hc hs ht hne hrun
    rw [compileItems] at hrun
    have hhead : Compiles (compileExpression e) (fun R => e.turn R) fun R => e.walk R :=
      h e List.mem_cons_self
    -- the last item ends at `t`; each other one ends at a state of its own
    cases es with
    | nil =>
      obtain ⟨⟨next, c₁⟩, hnext, hrun⟩ := bind_eq_ok.mp hrun
      obtain ⟨rfl, rfl⟩ := Prod.mk.inj (Except.ok.inj hnext)
      obtain ⟨c₂, hitem, hrun⟩ := bind_eq_ok.mp hrun
      obtain rfl := Except.ok.inj hrun
      exact (hhead hc hs ht hne hitem).congr (fun _ => rfl) fun R => comp_eq.symm
    | cons e' es =>
      obtain ⟨⟨next, c₁⟩, hnext, hrun⟩ := bind_eq_ok.mp hrun
      obtain ⟨c₂, hitem, hrun⟩ := bind_eq_ok.mp hrun
      obtain ⟨hm, hsize₁, hgrows₁⟩ := Compilation.grows_addState hc hnext
      have hadds := hhead hgrows₁.valid (by omega) (by omega) (by omega) hitem
      have hsize := hadds.size_le
      have hrest := ih (fun e he => h e (List.mem_cons_of_mem _ he)) hadds.valid (by omega)
        (by omega) (by omega) hrun
      exact hadds.through hc hs ht hne hnext hrest

/-- Every expression compiles to a fragment with its round trips and its runs. -/
theorem compiles_expression (h : Hir) :
    Compiles (compileExpression h) (fun R => h.turn R) fun R => h.walk R := by
  induction h with
  | never =>
    intro c c' s t hc hs ht hne hrun
    obtain rfl := Except.ok.inj hrun
    exact AddsFragment.nothing hc hne
  | epsilon =>
    intro c c' s t hc hs ht hne hrun
    obtain rfl := Except.ok.inj hrun
    exact @AddsFragment.edge c s t .epsilon .epsilon hc hs ht hne rfl
  | assertion a =>
    intro c c' s t hc hs ht hne hrun
    obtain rfl := Except.ok.inj hrun
    exact @AddsFragment.edge c s t (.assertion a) (.assertion a) hc hs ht hne rfl
  | symbol u =>
    intro c c' s t hc hs ht hne hrun
    obtain rfl := Except.ok.inj hrun
    exact @AddsFragment.edge c s t (.symbol u) (.symbol u) hc hs ht hne rfl
  | predicate p =>
    intro c c' s t hc hs ht hne hrun
    rw [compileExpression] at hrun
    obtain ⟨⟨id, c₁⟩, hintern, hrun⟩ := bind_eq_ok.mp hrun
    obtain rfl := Except.ok.inj hrun
    obtain ⟨hsize, hlabel, hgrows⟩ := Compilation.grows_internPredicate hc hintern
    -- interning adds no states, and the edge carries the number of the predicate
    obtain ⟨N, hedge, hfragment, halong⟩ :=
      @AddsFragment.edge c₁ s t (.predicate id) (.predicate p) hgrows.valid (hsize ▸ hs)
        (hsize ▸ ht) hne hlabel
    refine ⟨N, ?_, hsize ▸ hfragment, halong⟩
    have := hgrows.trans hedge
    rwa [bot_sup_eq] at this
  | sequence es ih => exact compiles_items ih
  | alternation es ih => exact compiles_branches ih
  | repetition e min max ih => exact compiles_repetition ih min max

end Rustmatch

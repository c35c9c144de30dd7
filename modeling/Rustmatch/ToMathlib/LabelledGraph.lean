import Mathlib.Logic.Relation
import Mathlib.Data.Set.Basic
import Mathlib.Order.BooleanAlgebra.Basic
import Mathlib.Order.CompletePartialOrder
import Mathlib.Order.ConditionallyCompleteLattice.Basic

/-!
# Walks in labelled graphs whose labels act on configurations

A labelled graph over states `S` and labels `K` is a ternary relation `E u k v`. Each label acts
on configurations `C` through a relation `sem k`, so a walk from `(s, c)` to `(t, d)` follows edges
from `s` to `t` while their labels transform `c` into `d`.

A *fragment* is an edge set with one entry and one exit in which everything else is private to it.
Its entry may have incoming edges, its exit has no outgoing ones. Fragments compose: two of them
that share both ends run side by side, two of them that share a middle state run one after the
other, and a back edge from the exit to the entry makes a loop.

## Main definitions

* `LabelledGraph.Walk sem E`: reachability on pairs of a state and a configuration;
* `LabelledGraph.Along sem E s t`: the relation on configurations read along the walks from `s`
  to `t`;
* `LabelledGraph.Fragment E s t F`: `E` is a fragment from `s` to `t` with private states `F`.

## Main results

* `Fragment.along_sup_self`, `Fragment.along_sup`: two fragments side by side. A walk may go round
  either of them back to the shared entry any number of times before it leaves through one;
* `Fragment.along_append_self`, `Fragment.along_append`: one fragment after the other;
* `Fragment.along_back_self`: a fragment closed by a back edge that leaves configurations alone.
-/

open Relation

namespace LabelledGraph

variable {S K C : Type*} {sem : K → C → C → Prop} {E E₁ E₂ : S → K → S → Prop}

/-- One edge of `E`, followed by the action of its label. -/
def Move (sem : K → C → C → Prop) (E : S → K → S → Prop) (x y : S × C) : Prop :=
  ∃ k, E x.1 k y.1 ∧ sem k x.2 y.2

/-- Any number of moves. -/
def Walk (sem : K → C → C → Prop) (E : S → K → S → Prop) : S × C → S × C → Prop :=
  ReflTransGen (Move sem E)

/-- The relation on configurations read along the walks from `s` to `t`. -/
def Along (sem : K → C → C → Prop) (E : S → K → S → Prop) (s t : S) (c d : C) : Prop :=
  Walk sem E (s, c) (t, d)

/-- The graph with the single edge `s -k→ t`. -/
def single (s : S) (k : K) (t : S) : S → K → S → Prop :=
  fun u l v => u = s ∧ l = k ∧ v = t

/-- A move is one in a larger graph. -/
theorem Move.mono (h : E₁ ≤ E₂) {x y : S × C} : Move sem E₁ x y → Move sem E₂ x y :=
  fun ⟨k, hk, hs⟩ => ⟨k, h _ _ _ hk, hs⟩

/-- A walk is one in a larger graph. -/
theorem Walk.mono (h : E₁ ≤ E₂) {x y : S × C} (w : Walk sem E₁ x y) : Walk sem E₂ x y :=
  ReflTransGen.mono (fun _ _ => Move.mono h) _ _ w

/-- A path is one in a larger graph. -/
theorem Along.mono (h : E₁ ≤ E₂) {s t : S} {c d : C} (w : Along sem E₁ s t c d) :
    Along sem E₂ s t c d :=
  Walk.mono h w

/-- A path may be empty. -/
theorem Along.refl (s : S) (c : C) : Along sem E s s c c := ReflTransGen.refl

/-- Paths are joined where they meet. -/
theorem Along.trans {s t u : S} {c d e : C} (h₁ : Along sem E s t c d) (h₂ : Along sem E t u d e) :
    Along sem E s u c e :=
  ReflTransGen.trans h₁ h₂

/-- An edge is a path. -/
theorem Along.edge {s t : S} {k : K} {c d : C} (hE : E s k t) (hs : sem k c d) :
    Along sem E s t c d :=
  ReflTransGen.single ⟨k, hE, hs⟩

/-- A move of a union of graphs is a move of one of them. -/
theorem move_sup_iff {x y : S × C} :
    Move sem (E₁ ⊔ E₂) x y ↔ Move sem E₁ x y ∨ Move sem E₂ x y := by
  constructor
  · rintro ⟨k, h | h, hs⟩
    · exact Or.inl ⟨k, h, hs⟩
    · exact Or.inr ⟨k, h, hs⟩
  · rintro (h | h)
    · exact h.mono le_sup_left
    · exact h.mono le_sup_right

/-- A walk that starts where no edge leaves stays there. -/
theorem walk_eq_of_sink {t : S} (ht : ∀ k v, ¬ E t k v) {c : C} {y : S × C}
    (w : Walk sem E (t, c) y) : y = (t, c) := by
  induction w with
  | refl => rfl
  | tail _ hm ih =>
    subst ih
    obtain ⟨k, hk, -⟩ := hm
    exact absurd hk (ht k _)

/-- Inside a set that edges of `E` do not leave, walks use only the edges of `E` found there. -/
theorem walk_restrict {U : Set S} (hU : ∀ u ∈ U, ∀ k v, E₁ u k v → E₂ u k v ∧ v ∈ U) {x y : S × C}
    (hx : x.1 ∈ U) (w : Walk sem E₁ x y) : Walk sem E₂ x y ∧ y.1 ∈ U := by
  induction w with
  | refl => exact ⟨ReflTransGen.refl, hx⟩
  | tail _ hm ih =>
    obtain ⟨hwalk, hmem⟩ := ih
    obtain ⟨k, hE, hsem⟩ := hm
    obtain ⟨hE₂, hv⟩ := hU _ hmem k _ hE
    exact ⟨hwalk.tail ⟨k, hE₂, hsem⟩, hv⟩

/-- `E` is a fragment from the entry `s` to the exit `t` whose other states are `F`: edges leave
only `s` and `F`, and enter only `s`, `t` and `F`. -/
structure Fragment (E : S → K → S → Prop) (s t : S) (F : Set S) : Prop where
  /-- Edges leave the entry and the inner states only. -/
  source : ∀ {u k v}, E u k v → u = s ∨ u ∈ F
  /-- Edges lead to the entry, the exit and the inner states only. -/
  target : ∀ {u k v}, E u k v → v = s ∨ v = t ∨ v ∈ F
  /-- The entry is not an inner state. -/
  entry_notMem : s ∉ F
  /-- The exit is not an inner state. -/
  exit_notMem : t ∉ F
  /-- The entry is not the exit. -/
  ne : s ≠ t

namespace Fragment

variable {s m t : S} {F F₁ F₂ : Set S}

/-- A graph without edges is a fragment. -/
theorem bot (hne : s ≠ t) : Fragment (⊥ : S → K → S → Prop) s t ∅ :=
  ⟨fun h => h.elim, fun h => h.elim, Set.notMem_empty _, Set.notMem_empty _, hne⟩

/-- One edge is a fragment. -/
theorem of_single (k : K) (hne : s ≠ t) : Fragment (single s k t) s t ∅ :=
  ⟨fun h => Or.inl h.1, fun h => Or.inr (Or.inl h.2.2), Set.notMem_empty _, Set.notMem_empty _,
    hne⟩

/-- Walks from the entry stay inside the fragment. -/
theorem walk_mem (h : Fragment E s t F) {c : C} {y : S × C} (w : Walk sem E (s, c) y) :
    y.1 = s ∨ y.1 = t ∨ y.1 ∈ F := by
  induction w with
  | refl => exact Or.inl rfl
  | tail _ hm _ => exact h.target hm.choose_spec.1

/-! ### A graph without edges and a graph with one edge -/

/-- Without edges a path is empty. -/
theorem along_bot_self : Along sem (⊥ : S → K → S → Prop) s s = Eq := by
  funext c d
  refine propext ⟨fun w => ?_, fun h => h ▸ Along.refl _ _⟩
  exact (Prod.mk.inj (walk_eq_of_sink (fun _ _ h => h.elim) w)).2.symm

/-- Without edges no path leads elsewhere. -/
theorem along_bot (hne : s ≠ t) : Along sem (⊥ : S → K → S → Prop) s t = ⊥ := by
  funext c d
  refine propext ⟨fun w => ?_, fun h => h.elim⟩
  exact hne (Prod.mk.inj (walk_eq_of_sink (fun _ _ h => h.elim) w)).1.symm

/-- One edge does not lead back. -/
theorem along_single_self (k : K) (hne : s ≠ t) : Along sem (single s k t) s s = Eq := by
  funext c d
  refine propext ⟨fun w => ?_, fun h => h ▸ Along.refl _ _⟩
  rcases ReflTransGen.cases_head w with h | ⟨y, ⟨l, ⟨-, -, hy⟩, -⟩, w'⟩
  · exact (Prod.mk.inj h).2
  · obtain ⟨y₁, y₂⟩ := y
    obtain rfl : y₁ = t := hy
    exact absurd (Prod.mk.inj (walk_eq_of_sink (fun _ _ h => hne h.1.symm) w')).1 hne

/-- One edge leads from its source to its target, once. -/
theorem along_single (k : K) (hne : s ≠ t) : Along sem (single s k t) s t = sem k := by
  funext c d
  refine propext ⟨fun w => ?_, fun h => Along.edge ⟨rfl, rfl, rfl⟩ h⟩
  rcases ReflTransGen.cases_head w with h | ⟨y, ⟨l, ⟨-, hl, hy⟩, hs⟩, w'⟩
  · exact absurd (Prod.mk.inj h).1 hne
  · obtain ⟨y₁, y₂⟩ := y
    obtain rfl : y₁ = t := hy
    obtain rfl : l = k := hl
    obtain rfl := (Prod.mk.inj (walk_eq_of_sink (fun _ _ h => hne h.1.symm) w')).2
    exact hs

/-! ### Two fragments side by side -/

/-- Two fragments with the same ends and disjoint private states form a fragment. -/
theorem sup (h₁ : Fragment E₁ s t F₁) (h₂ : Fragment E₂ s t F₂) :
    Fragment (E₁ ⊔ E₂) s t (F₁ ∪ F₂) where
  source := by
    rintro u k v (h | h)
    · exact (h₁.source h).imp_right Or.inl
    · exact (h₂.source h).imp_right Or.inr
  target := by
    rintro u k v (h | h)
    · exact (h₁.target h).imp_right (Or.imp_right Or.inl)
    · exact (h₂.target h).imp_right (Or.imp_right Or.inr)
  entry_notMem := fun h => h.elim h₁.entry_notMem h₂.entry_notMem
  exit_notMem := fun h => h.elim h₁.exit_notMem h₂.exit_notMem
  ne := h₁.ne

/-- Going round two fragments that share their entry. -/
private theorem turns_le (sem : K → C → C → Prop) {c d : C}
    (w : ReflTransGen (Along sem E₁ s s ⊔ Along sem E₂ s s) c d) :
    Along sem (E₁ ⊔ E₂) s s c d := by
  induction w with
  | refl => exact Along.refl _ _
  | tail _ hm ih =>
    rcases hm with hm | hm
    · exact ih.trans (hm.mono le_sup_left)
    · exact ih.trans (hm.mono le_sup_right)

/-- Every walk from the shared entry of two fragments goes round them some number of times and
then makes one last excursion into one of them. -/
private theorem walk_sup_split (h₁ : Fragment E₁ s t F₁) (h₂ : Fragment E₂ s t F₂)
    (hF : Disjoint F₁ F₂) {c : C} {y : S × C} (w : Walk sem (E₁ ⊔ E₂) (s, c) y) :
    ∃ d, ReflTransGen (Along sem E₁ s s ⊔ Along sem E₂ s s) c d ∧
      (Walk sem E₁ (s, d) y ∨ Walk sem E₂ (s, d) y) := by
  induction w with
  | refl => exact ⟨c, ReflTransGen.refl, Or.inl ReflTransGen.refl⟩
  | @tail x y _ hm ih =>
    obtain ⟨d, hturn, hlast⟩ := ih
    -- an excursion that is back at the entry is one more turn
    have hback : x.1 = s → ReflTransGen (Along sem E₁ s s ⊔ Along sem E₂ s s) c x.2 := by
      rintro hx
      obtain ⟨x₁, x₂⟩ := x
      obtain rfl : x₁ = s := hx
      exact hturn.tail (hlast.imp id id)
    rcases move_sup_iff.mp hm with hm | hm
    · rcases h₁.source hm.choose_spec.1 with hx | hx
      · refine ⟨x.2, hback hx, Or.inl (ReflTransGen.single ?_)⟩
        rw [← hx]
        exact hm
      · rcases hlast with w | w
        · exact ⟨d, hturn, Or.inl (w.tail hm)⟩
        · rcases h₂.walk_mem w with h | h | h
          · exact absurd (h ▸ hx) h₁.entry_notMem
          · exact absurd (h ▸ hx) h₁.exit_notMem
          · exact absurd h (Set.disjoint_left.mp hF hx)
    · rcases h₂.source hm.choose_spec.1 with hx | hx
      · refine ⟨x.2, hback hx, Or.inr (ReflTransGen.single ?_)⟩
        rw [← hx]
        exact hm
      · rcases hlast with w | w
        · rcases h₁.walk_mem w with h | h | h
          · exact absurd (h ▸ hx) h₂.entry_notMem
          · exact absurd (h ▸ hx) h₂.exit_notMem
          · exact absurd hx (Set.disjoint_left.mp hF h)
        · exact ⟨d, hturn, Or.inr (w.tail hm)⟩

/-- Walks round two fragments side by side alternate freely between the two. -/
theorem along_sup_self (h₁ : Fragment E₁ s t F₁) (h₂ : Fragment E₂ s t F₂)
    (hF : Disjoint F₁ F₂) :
    Along sem (E₁ ⊔ E₂) s s = ReflTransGen (Along sem E₁ s s ⊔ Along sem E₂ s s) := by
  funext c d
  refine propext ⟨fun w => ?_, turns_le sem⟩
  obtain ⟨e, hturn, hlast⟩ := walk_sup_split h₁ h₂ hF w
  exact hturn.tail (hlast.imp id id)

/-- Walks through two fragments side by side go round both and leave through one of them. -/
theorem along_sup (h₁ : Fragment E₁ s t F₁) (h₂ : Fragment E₂ s t F₂) (hF : Disjoint F₁ F₂) :
    Along sem (E₁ ⊔ E₂) s t =
      Comp (ReflTransGen (Along sem E₁ s s ⊔ Along sem E₂ s s))
        (Along sem E₁ s t ⊔ Along sem E₂ s t) := by
  funext c d
  refine propext ⟨fun w => ?_, ?_⟩
  · obtain ⟨e, hturn, hlast⟩ := walk_sup_split h₁ h₂ hF w
    exact ⟨e, hturn, hlast⟩
  · rintro ⟨e, hturn, hlast | hlast⟩
    · exact (turns_le sem hturn).trans (hlast.mono le_sup_left)
    · exact (turns_le sem hturn).trans (hlast.mono le_sup_right)

/-! ### One fragment after the other -/

/-- Two fragments that share the exit of the first and the entry of the second form a fragment. -/
theorem append (h₁ : Fragment E₁ s m F₁) (h₂ : Fragment E₂ m t F₂) (hs : s ∉ F₂) (ht : t ∉ F₁)
    (hne : s ≠ t) : Fragment (E₁ ⊔ E₂) s t (F₁ ∪ F₂ ∪ {m}) where
  source := by
    rintro u k v (h | h)
    · exact (h₁.source h).imp_right fun hu => Or.inl (Or.inl hu)
    · rcases h₂.source h with hu | hu
      · exact Or.inr (Or.inr hu)
      · exact Or.inr (Or.inl (Or.inr hu))
  target := by
    rintro u k v (h | h)
    · rcases h₁.target h with hv | hv | hv
      · exact Or.inl hv
      · exact Or.inr (Or.inr (Or.inr hv))
      · exact Or.inr (Or.inr (Or.inl (Or.inl hv)))
    · rcases h₂.target h with hv | hv | hv
      · exact Or.inr (Or.inr (Or.inr hv))
      · exact Or.inr (Or.inl hv)
      · exact Or.inr (Or.inr (Or.inl (Or.inr hv)))
  entry_notMem := by
    rintro ((h | h) | h)
    · exact h₁.entry_notMem h
    · exact hs h
    · exact h₁.ne h
  exit_notMem := by
    rintro ((h | h) | h)
    · exact ht h
    · exact h₂.exit_notMem h
    · exact h₂.ne h.symm
  ne := hne

/-- Every walk from the entry of the first fragment stays in it, or reaches the shared state and
goes on in the second. -/
private theorem walk_append_split (h₁ : Fragment E₁ s m F₁) (h₂ : Fragment E₂ m t F₂)
    (hs : s ∉ F₂) (ht : t ∉ F₁) (hne : s ≠ t) (hF : Disjoint F₁ F₂) {c : C} {y : S × C}
    (w : Walk sem (E₁ ⊔ E₂) (s, c) y) :
    Walk sem E₁ (s, c) y ∨ ∃ d, Along sem E₁ s m c d ∧ Walk sem E₂ (m, d) y := by
  induction w with
  | refl => exact Or.inl ReflTransGen.refl
  | @tail x y _ hm ih =>
    rcases move_sup_iff.mp hm with hm | hm
    · rcases ih with w | ⟨d, hd, w⟩
      · exact Or.inl (w.tail hm)
      -- an edge of the first part cannot follow a walk that has entered the second
      · exfalso
        rcases h₁.source hm.choose_spec.1 with hx | hx <;> rcases h₂.walk_mem w with h | h | h
        · exact h₁.ne (hx.symm.trans h)
        · exact hne (hx.symm.trans h)
        · exact hs (hx ▸ h)
        · exact h₁.exit_notMem (h ▸ hx)
        · exact ht (h ▸ hx)
        · exact Set.disjoint_left.mp hF hx h
    · rcases ih with w | ⟨d, hd, w⟩
      · rcases h₂.source hm.choose_spec.1 with hx | hx
        · obtain ⟨x₁, x₂⟩ := x
          obtain rfl : x₁ = m := hx
          exact Or.inr ⟨x₂, w, ReflTransGen.single hm⟩
        · exfalso
          rcases h₁.walk_mem w with h | h | h
          · exact hs (h ▸ hx)
          · exact h₂.entry_notMem (h ▸ hx)
          · exact Set.disjoint_left.mp hF h hx
      · exact Or.inr ⟨d, hd, w.tail hm⟩

/-- The second of two fragments in a row adds no way round the first. -/
theorem along_append_self (h₁ : Fragment E₁ s m F₁) (h₂ : Fragment E₂ m t F₂) (hs : s ∉ F₂)
    (ht : t ∉ F₁) (hne : s ≠ t) (hF : Disjoint F₁ F₂) :
    Along sem (E₁ ⊔ E₂) s s = Along sem E₁ s s := by
  funext c d
  refine propext ⟨fun w => ?_, fun w => w.mono le_sup_left⟩
  rcases walk_append_split h₁ h₂ hs ht hne hF w with w | ⟨e, -, w⟩
  · exact w
  · rcases h₂.walk_mem w with h | h | h
    · exact absurd h h₁.ne
    · exact absurd h hne
    · exact absurd h hs

/-- Walks through two fragments in a row compose. -/
theorem along_append (h₁ : Fragment E₁ s m F₁) (h₂ : Fragment E₂ m t F₂) (hs : s ∉ F₂)
    (ht : t ∉ F₁) (hne : s ≠ t) (hF : Disjoint F₁ F₂) :
    Along sem (E₁ ⊔ E₂) s t = Comp (Along sem E₁ s m) (Along sem E₂ m t) := by
  funext c d
  refine propext ⟨fun w => ?_, ?_⟩
  · rcases walk_append_split h₁ h₂ hs ht hne hF w with w | h
    · rcases h₁.walk_mem w with h | h | h
      · exact absurd h.symm hne
      · exact absurd h.symm h₂.ne
      · exact absurd h ht
    · exact h
  · rintro ⟨e, hw₁, hw₂⟩
    exact (hw₁.mono le_sup_left).trans (hw₂.mono le_sup_right)

/-! ### A fragment closed by a back edge -/

/-- A fragment from `s` to `m` whose exit is led back to its entry, seen as a fragment towards a
third state that it never reaches. -/
theorem back (h : Fragment E s m F) (k : K) (ht : t ∉ F) (hs : s ≠ t) (hm : m ≠ t) :
    Fragment (E ⊔ single m k s) s t (F ∪ {m}) where
  source := by
    rintro u l v (h' | ⟨rfl, -, rfl⟩)
    · exact (h.source h').imp_right Or.inl
    · exact Or.inr (Or.inr rfl)
  target := by
    rintro u l v (h' | ⟨rfl, -, rfl⟩)
    · rcases h.target h' with hv | hv | hv
      · exact Or.inl hv
      · exact Or.inr (Or.inr (Or.inr hv))
      · exact Or.inr (Or.inr (Or.inl hv))
    · exact Or.inl rfl
  entry_notMem := fun h' => h'.elim h.entry_notMem fun e => h.ne e
  exit_notMem := fun h' => h'.elim ht fun e => hm e.symm
  ne := hs

/-- Every walk from the entry of a loop goes round it some number of times and then makes one last
excursion into its body. -/
private theorem walk_back_split (h : Fragment E s m F) {k : K} (hk : sem k = Eq) {c : C}
    {y : S × C} (w : Walk sem (E ⊔ single m k s) (s, c) y) :
    ∃ d, ReflTransGen (Along sem E s s ⊔ Along sem E s m) c d ∧ Walk sem E (s, d) y := by
  induction w with
  | refl => exact ⟨c, ReflTransGen.refl, ReflTransGen.refl⟩
  | @tail x y _ hm ih =>
    obtain ⟨d, hturn, hlast⟩ := ih
    rcases move_sup_iff.mp hm with hm | ⟨l, ⟨hx, rfl, hy⟩, hsem⟩
    · exact ⟨d, hturn, hlast.tail hm⟩
    · obtain ⟨x₁, x₂⟩ := x
      obtain ⟨y₁, y₂⟩ := y
      obtain rfl : x₁ = m := hx
      obtain rfl : y₁ = s := hy
      obtain rfl : x₂ = y₂ := by simpa [hk] using hsem
      exact ⟨x₂, hturn.tail (Or.inr hlast), ReflTransGen.refl⟩

/-- Walks round a loop either turn inside its body or run through it. -/
theorem along_back_self (h : Fragment E s m F) {k : K} (hk : sem k = Eq) :
    Along sem (E ⊔ single m k s) s s = ReflTransGen (Along sem E s s ⊔ Along sem E s m) := by
  funext c d
  refine propext ⟨fun w => ?_, fun w => ?_⟩
  · obtain ⟨e, hturn, hlast⟩ := walk_back_split h hk w
    exact hturn.tail (Or.inl hlast)
  · induction w with
    | refl => exact Along.refl _ _
    | @tail d e _ hm ih =>
      rcases hm with hm | hm
      · exact ih.trans (hm.mono le_sup_left)
      · have hedge : Along sem (E ⊔ single m k s) m s e e :=
          Along.edge (Or.inr ⟨rfl, rfl, rfl⟩) (by rw [hk])
        exact (ih.trans (hm.mono le_sup_left)).trans hedge

/-- A loop reaches nothing but its entry and its body. -/
theorem along_back (h : Fragment E s m F) (k : K) (ht : t ∉ F) (hs : s ≠ t) (hm : m ≠ t) :
    Along sem (E ⊔ single m k s) s t = ⊥ := by
  funext c d
  refine propext ⟨fun w => ?_, fun h => h.elim⟩
  rcases ReflTransGen.cases_tail w with hw | ⟨x, -, ⟨l, hE, -⟩⟩
  · exact hs (Prod.mk.inj hw).1.symm
  · rcases hE with hE | ⟨-, -, hv⟩
    · rcases h.target hE with hv | hv | hv
      · exact hs hv.symm
      · exact hm hv.symm
      · exact ht hv
    · exact hs hv.symm

end Fragment

end LabelledGraph

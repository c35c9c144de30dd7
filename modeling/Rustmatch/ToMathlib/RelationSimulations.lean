import Rustmatch.ToMathlib.RelationRuns

/-!
# Relations that agree along a map

A map `f` embeds the states of one relation in those of another. The two agree up to a boundary
when, from the states that a run may start in, the steps of the second that end inside the boundary
are the images of the steps of the first. Agreement passes from steps to all the runs that are
composed of them, so that it has to be shown for single steps only.

## Main definitions

* `Relation.Agrees f P Q r s`: from `P`, up to `Q`, the steps of `s` are the images of those of `r`.

## Main results

* `Agrees.sup`, `Agrees.comp`, `Agrees.power`, `Agrees.reflTransGen`, `Agrees.optionalRun`;
* `Agrees.iff`: the pairs of states inside the boundary.
-/

namespace Relation

variable {α β : Type*}

/-- From the images of `P`, up to `Q`, the steps of `s` are the images of those of `r`; neither
relation leaves `P`, and what leads into `Q` was there before. -/
structure Agrees (f : α → β) (P : α → Prop) (Q : β → Prop) (r : α → α → Prop)
    (s : β → β → Prop) : Prop where
  /-- The image of a step is a step. -/
  image : ∀ {a b}, P a → Q (f b) → r a b → s (f a) (f b)
  /-- A step from an image comes from a step. -/
  preimage : ∀ {a y}, P a → Q y → s (f a) y → ∃ b, f b = y ∧ r a b
  /-- Steps do not leave `P`. -/
  forward : ∀ {a b}, P a → r a b → P b
  /-- A step into `Q` comes from `Q`. -/
  backward : ∀ {x y}, Q y → s x y → Q x

namespace Agrees

variable {f : α → β} {P : α → Prop} {Q : β → Prop} {r r' turn step : α → α → Prop}
  {s s' turn' step' : β → β → Prop}

/-- Standing still agrees. -/
theorem eq : Agrees f P Q Eq Eq where
  image _ _ h := congrArg f h
  preimage _ _ h := ⟨_, h, rfl⟩
  forward ha h := h ▸ ha
  backward hy h := h ▸ hy

/-- No steps agree. -/
theorem bot : Agrees f P Q ⊥ ⊥ where
  image _ _ h := h.elim
  preimage _ _ h := h.elim
  forward _ h := h.elim
  backward _ h := h.elim

/-- Before the boundary of an image stands the image of what came before. -/
theorem image_backward (h : Agrees f P Q r s) {a b : α} (ha : P a) (hb : Q (f b)) (hab : r a b) :
    Q (f a) :=
  h.backward hb (h.image ha hb hab)

/-- Steps of either kind agree. -/
theorem sup (h : Agrees f P Q r s) (h' : Agrees f P Q r' s') :
    Agrees f P Q (r ⊔ r') (s ⊔ s') where
  image ha hb hab := hab.imp (h.image ha hb) (h'.image ha hb)
  preimage := by
    rintro a y ha hy (hay | hay)
    · obtain ⟨b, rfl, hab⟩ := h.preimage ha hy hay
      exact ⟨b, rfl, Or.inl hab⟩
    · obtain ⟨b, rfl, hab⟩ := h'.preimage ha hy hay
      exact ⟨b, rfl, Or.inr hab⟩
  forward ha hab := hab.elim (h.forward ha) (h'.forward ha)
  backward hy hxy := hxy.elim (h.backward hy) (h'.backward hy)

/-- Two steps in a row agree. -/
theorem comp (h : Agrees f P Q r s) (h' : Agrees f P Q r' s') :
    Agrees f P Q (Comp r r') (Comp s s') where
  image := by
    rintro a c ha hc ⟨b, hab, hbc⟩
    have hb : P b := h.forward ha hab
    exact ⟨f b, h.image ha (h'.image_backward hb hc hbc) hab, h'.image hb hc hbc⟩
  preimage := by
    rintro a y ha hy ⟨x, hax, hxy⟩
    -- the boundary reaches back to the state in between, which is therefore an image
    obtain ⟨b, rfl, hab⟩ := h.preimage ha (h'.backward hy hxy) hax
    obtain ⟨c, rfl, hbc⟩ := h'.preimage (h.forward ha hab) hy hxy
    exact ⟨c, rfl, b, hab, hbc⟩
  forward := by
    rintro a c ha ⟨b, hab, hbc⟩
    exact h'.forward (h.forward ha hab) hbc
  backward := by
    rintro w y hy ⟨x, hwx, hxy⟩
    exact h.backward (h'.backward hy hxy) hwx

/-- So many steps in a row agree. -/
theorem power (h : Agrees f P Q r s) (n : ℕ) : Agrees f P Q (power r n) (power s n) := by
  induction n with
  | zero => exact eq
  | succ n ih => exact h.comp ih

/-- Runs agree. -/
theorem reflTransGen (h : Agrees f P Q r s) : Agrees f P Q (ReflTransGen r) (ReflTransGen s) where
  image := by
    intro a c ha hc hac
    rw [reflTransGen_iff_power] at hac ⊢
    obtain ⟨n, hn⟩ := hac
    exact ⟨n, (h.power n).image ha hc hn⟩
  preimage := by
    intro a y ha hy hay
    rw [reflTransGen_iff_power] at hay
    obtain ⟨n, hn⟩ := hay
    obtain ⟨b, rfl, hab⟩ := (h.power n).preimage ha hy hn
    exact ⟨b, rfl, reflTransGen_iff_power.mpr ⟨n, hab⟩⟩
  forward := by
    intro a b ha hab
    obtain ⟨n, hn⟩ := reflTransGen_iff_power.mp hab
    exact (h.power n).forward ha hn
  backward := by
    intro x y hy hxy
    obtain ⟨n, hn⟩ := reflTransGen_iff_power.mp hxy
    exact (h.power n).backward hy hn

/-- Optional steps agree. -/
theorem optionalRun (hturn : Agrees f P Q turn turn') (hstep : Agrees f P Q step step') (n : ℕ) :
    Agrees f P Q (optionalRun turn step n) (optionalRun turn' step' n) := by
  induction n with
  | zero => exact eq
  | succ n ih => exact hturn.reflTransGen.comp (eq.sup (hstep.comp ih))

/-- Inside the boundary the second relation is the first one, along an injective map. -/
theorem iff (h : Agrees f P Q r s) (hf : f.Injective) {a b : α} (ha : P a) (hb : Q (f b)) :
    s (f a) (f b) ↔ r a b := by
  constructor
  · intro hab
    obtain ⟨c, hc, hac⟩ := h.preimage ha hb hab
    exact hf hc ▸ hac
  · exact h.image ha hb

end Agrees

end Relation

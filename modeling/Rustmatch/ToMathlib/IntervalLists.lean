import Mathlib.Data.List.Pairwise
import Mathlib.Data.Nat.Basic
import Mathlib.Data.Set.Basic

/-!
# Sets of numbers as lists of intervals

A list of inclusive intervals stands for a set of natural numbers. When the intervals are nonempty
and each begins at least two past the end of the one before it, the list is determined by that set.

## Main definitions

* `Covers`: the numbers in some interval;
* `Separated`: nonempty intervals in order, with gaps between them;
* `mergeStep`: one round of the merge of intervals that come in order of their starts;
* `gaps`: what a list leaves out of a range.

## Main results

* `Separated.eq_of_covers_iff`: separated lists of the same numbers are equal;
* `separated_foldl_mergeStep`, `covers_foldl_mergeStep`: what the merge gives;
* `separated_gaps`, `covers_gaps`: what the gaps are;
* `covers_iff_of_head_dropWhile`: membership by one search.
-/

namespace IntervalLists

/-- The numbers in some interval of the list. -/
def Covers (l : List (ℕ × ℕ)) (x : ℕ) : Prop := ∃ r ∈ l, r.1 ≤ x ∧ x ≤ r.2

/-- Nonempty intervals in order, with at least one number between neighbours. -/
structure Separated (l : List (ℕ × ℕ)) : Prop where
  /-- An interval has a number. -/
  nonempty : ∀ r ∈ l, r.1 ≤ r.2
  /-- The intervals ascend, with a gap between neighbours. -/
  pairwise : l.Pairwise fun r s => r.2 + 1 < s.1

/-- One round of the merge; the last merged interval is at the head. -/
def mergeStep (merged : List (ℕ × ℕ)) (range : ℕ × ℕ) : List (ℕ × ℕ) :=
  match merged with
  | (start, stop) :: rest =>
    if range.1 ≤ stop + 1 then (start, max stop range.2) :: rest else range :: merged
  | [] => [range]

/-- The numbers from `next` to `last` that no interval holds, for intervals in order. -/
def gaps (last : ℕ) : List (ℕ × ℕ) → ℕ → List (ℕ × ℕ)
  | [], next => if next ≤ last then [(next, last)] else []
  | (start, stop) :: rest, next =>
    if next < start then (next, start - 1) :: gaps last rest (stop + 1)
    else gaps last rest (stop + 1)

variable {l left right : List (ℕ × ℕ)} {r : ℕ × ℕ} {x : ℕ}

/-- No interval covers nothing. -/
@[simp]
theorem covers_nil : ¬ Covers [] x := by simp [Covers]

/-- The first interval covers a number, or a later one does. -/
@[simp]
theorem covers_cons : Covers (r :: l) x ↔ (r.1 ≤ x ∧ x ≤ r.2) ∨ Covers l x := by
  simp [Covers]

/-- One of the two lists covers a number. -/
theorem covers_append : Covers (left ++ right) x ↔ Covers left x ∨ Covers right x := by
  simp only [Covers, List.mem_append, or_and_right, exists_or]

/-- The order does not matter, reversed. -/
theorem covers_reverse : Covers l.reverse x ↔ Covers l x := by
  simp only [Covers, List.mem_reverse]

/-- The order does not matter. -/
theorem covers_perm (h : left.Perm right) : Covers left x ↔ Covers right x := by
  simp only [Covers, h.mem_iff]

namespace Separated

/-- No intervals are separated. -/
theorem nil : Separated [] := ⟨by simp, List.Pairwise.nil⟩

/-- The first interval lies before all others, with a gap. -/
theorem cons_iff :
    Separated (r :: l) ↔ r.1 ≤ r.2 ∧ (∀ s ∈ l, r.2 + 1 < s.1) ∧ Separated l := by
  constructor
  · intro h
    have hpair := List.pairwise_cons.mp h.pairwise
    exact ⟨h.nonempty r List.mem_cons_self, hpair.1,
      fun s hs => h.nonempty s (List.mem_cons_of_mem _ hs), hpair.2⟩
  · rintro ⟨hr, hgap, hl⟩
    refine ⟨?_, List.pairwise_cons.mpr ⟨hgap, hl.pairwise⟩⟩
    intro s hs
    rcases List.mem_cons.mp hs with rfl | hs
    · exact hr
    · exact hl.nonempty s hs

/-- The later intervals are separated. -/
theorem tail (h : Separated (r :: l)) : Separated l := (cons_iff.mp h).2.2

/-- Past the first interval there is a gap of at least one number. -/
theorem lt_of_covers (h : Separated (r :: l)) (hx : Covers l x) : r.2 + 1 < x := by
  obtain ⟨s, hs, hsx, -⟩ := hx
  exact ((cons_iff.mp h).2.1 s hs).trans_le hsx

/-- The rest of a separated list covers what lies past the first interval. -/
theorem covers_tail_iff (h : Separated (r :: l)) :
    Covers l x ↔ Covers (r :: l) x ∧ r.2 < x := by
  rw [covers_cons]
  constructor
  · intro hx
    have := h.lt_of_covers hx
    exact ⟨Or.inr hx, by omega⟩
  · rintro ⟨hx | hx, hlt⟩
    · omega
    · exact hx

/-- What a separated list covers is at least the start of the first interval. -/
theorem le_of_covers (h : Separated (r :: l)) (hx : Covers (r :: l) x) : r.1 ≤ x := by
  rcases covers_cons.mp hx with hx | hx
  · exact hx.1
  · have hnonempty := (cons_iff.mp h).1
    have := h.lt_of_covers hx
    omega

/-- The first number is covered. -/
theorem covers_start (h : Separated (r :: l)) : Covers (r :: l) r.1 :=
  covers_cons.mpr (Or.inl ⟨le_refl _, (cons_iff.mp h).1⟩)

/-- The number after the first interval is left out. -/
theorem not_covers_stop_succ (h : Separated (r :: l)) : ¬ Covers (r :: l) (r.2 + 1) := by
  intro hx
  rcases covers_cons.mp hx with hx | hx
  · omega
  · exact absurd (h.lt_of_covers hx) (lt_irrefl _)

/-- The first intervals of lists with the same numbers start together, and the one on the left
does not end before the one on the right. -/
theorem head_le {s : ℕ × ℕ} (hl : Separated (r :: left)) (hr : Separated (s :: right))
    (h : ∀ x, Covers (r :: left) x ↔ Covers (s :: right) x) : r.1 = s.1 ∧ s.2 ≤ r.2 := by
  have hstart : r.1 = s.1 := by
    apply le_antisymm
    · exact hl.le_of_covers ((h _).mpr hr.covers_start)
    · exact hr.le_of_covers ((h _).mp hl.covers_start)
  refine ⟨hstart, ?_⟩
  by_contra hlt
  apply hl.not_covers_stop_succ
  rw [h, covers_cons]
  have hnonempty := (cons_iff.mp hl).1
  exact Or.inl ⟨by omega, by omega⟩

/-- Separated lists of the same numbers are equal. -/
theorem eq_of_covers_iff (hl : Separated left) (hr : Separated right)
    (h : ∀ x, Covers left x ↔ Covers right x) : left = right := by
  induction left generalizing right with
  | nil =>
    cases right with
    | nil => rfl
    | cons s right => exact absurd ((h _).mpr hr.covers_start) covers_nil
  | cons r left ih =>
    cases right with
    | nil => exact absurd ((h _).mp hl.covers_start) covers_nil
    | cons s right =>
      obtain ⟨hstart, hle⟩ := hl.head_le hr h
      obtain ⟨-, hge⟩ := hr.head_le hl fun x => (h x).symm
      have hstop : r.2 = s.2 := le_antisymm hge hle
      have htail : left = right := by
        apply ih hl.tail hr.tail
        intro x
        rw [hl.covers_tail_iff, hr.covers_tail_iff, h, hstop]
      rw [htail, Prod.ext hstart hstop]

end Separated

/-! ### Merging -/

/-- The merged intervals, last one first, when all intervals to come start at `bound` or later. -/
structure Merged (merged : List (ℕ × ℕ)) (bound : ℕ) : Prop where
  /-- The merged intervals are separated. -/
  separated : Separated merged.reverse
  /-- The last one may still grow. -/
  start_le : ∀ r ∈ merged.head?, r.1 ≤ bound

/-- The intervals to come may start later. -/
theorem Merged.mono {merged : List (ℕ × ℕ)} {bound bound' : ℕ} (h : Merged merged bound)
    (hle : bound ≤ bound') : Merged merged bound' :=
  ⟨h.separated, fun r hr => (h.start_le r hr).trans hle⟩

/-- A last interval lies behind all others, with a gap. -/
theorem separated_reverse_cons {merged : List (ℕ × ℕ)} :
    Separated (r :: merged).reverse ↔
      r.1 ≤ r.2 ∧ (∀ s ∈ merged, s.2 + 1 < r.1) ∧ Separated merged.reverse := by
  constructor
  · intro h
    have hpair := List.pairwise_cons.mp (List.pairwise_reverse.mp h.pairwise)
    refine ⟨h.nonempty r (by simp), hpair.1, fun s hs => h.nonempty s ?_, ?_⟩
    · rw [List.reverse_cons]
      exact List.mem_append_left _ hs
    · exact List.pairwise_reverse.mpr hpair.2
  · rintro ⟨hr, hgap, h⟩
    refine ⟨?_, List.pairwise_reverse.mpr (List.pairwise_cons.mpr ⟨hgap, ?_⟩)⟩
    · intro s hs
      rcases List.mem_cons.mp (List.mem_reverse.mp hs) with rfl | hs
      · exact hr
      · exact h.nonempty s (List.mem_reverse.mpr hs)
    · exact List.pairwise_reverse.mp h.pairwise

/-- Merging the next interval keeps the merged ones separated. -/
theorem Merged.step {merged : List (ℕ × ℕ)} {range : ℕ × ℕ} (h : Merged merged range.1)
    (hrange : range.1 ≤ range.2) : Merged (mergeStep merged range) range.1 := by
  unfold mergeStep
  split
  next start stop rest =>
    obtain ⟨hnonempty, hgap, hrest⟩ := separated_reverse_cons.mp h.separated
    have hstart : start ≤ range.1 := h.start_le _ rfl
    dsimp only at hnonempty hgap
    split
    -- the range touches the last one and extends it
    next htouch =>
      refine ⟨separated_reverse_cons.mpr ⟨?_, hgap, hrest⟩, ?_⟩
      · exact hnonempty.trans (le_max_left _ _)
      · rintro r hr
        obtain rfl := Option.some.inj hr
        exact hstart
    next htouch =>
      refine ⟨separated_reverse_cons.mpr ⟨hrange, ?_, h.separated⟩, ?_⟩
      · intro s hs
        rcases List.mem_cons.mp hs with rfl | hs
        · exact not_le.mp htouch
        · have := hgap s hs
          omega
      · rintro r hr
        obtain rfl := Option.some.inj hr
        exact le_refl _
  next =>
    refine ⟨separated_reverse_cons.mpr ⟨hrange, by simp, Separated.nil⟩, ?_⟩
    rintro r hr
    obtain rfl := Option.some.inj hr
    exact le_refl _

/-- A round adds the numbers of its interval. -/
theorem Merged.covers_step {merged : List (ℕ × ℕ)} {range : ℕ × ℕ}
    (h : Merged merged range.1) :
    Covers (mergeStep merged range) x ↔ Covers merged x ∨ (range.1 ≤ x ∧ x ≤ range.2) := by
  unfold mergeStep
  split
  next start stop rest =>
    have hnonempty : start ≤ stop := (separated_reverse_cons.mp h.separated).1
    have hstart : start ≤ range.1 := h.start_le _ rfl
    split
    next htouch =>
      -- the grown interval is the union, since the new one starts inside or right after it
      have hunion : start ≤ x ∧ x ≤ max stop range.2 ↔
          (start ≤ x ∧ x ≤ stop) ∨ (range.1 ≤ x ∧ x ≤ range.2) := by omega
      rw [covers_cons, covers_cons]
      dsimp only
      rw [hunion, or_right_comm]
    next => rw [covers_cons, or_comm]
  next => simp

/-- Merging sorted intervals separates them, and covers what they cover. -/
theorem Merged.foldl {merged : List (ℕ × ℕ)} {bound : ℕ} (h : Merged merged bound)
    (hnonempty : ∀ r ∈ l, r.1 ≤ r.2) (hsorted : l.Pairwise fun r s => r.1 ≤ s.1)
    (hbound : ∀ r ∈ l, bound ≤ r.1) :
    Separated (l.foldl mergeStep merged).reverse ∧
      ∀ x, Covers (l.foldl mergeStep merged) x ↔ Covers merged x ∨ Covers l x := by
  induction l generalizing merged bound with
  | nil => exact ⟨h.separated, by simp⟩
  | cons range l ih =>
    have hrange : range.1 ≤ range.2 := hnonempty range List.mem_cons_self
    have hmerged : Merged merged range.1 := h.mono (hbound range List.mem_cons_self)
    obtain ⟨hfirst, hrest⟩ := List.pairwise_cons.mp hsorted
    obtain ⟨hseparated, hcovers⟩ := ih (hmerged.step hrange)
      (fun r hr => hnonempty r (List.mem_cons_of_mem _ hr)) hrest hfirst
    refine ⟨hseparated, fun x => ?_⟩
    rw [List.foldl_cons, hcovers, hmerged.covers_step, covers_cons, or_assoc]

/-- Merging nonempty intervals in order of their starts gives a separated list. -/
theorem separated_foldl_mergeStep (hnonempty : ∀ r ∈ l, r.1 ≤ r.2)
    (hsorted : l.Pairwise fun r s => r.1 ≤ s.1) :
    Separated (l.foldl mergeStep []).reverse :=
  (@Merged.foldl l [] 0 ⟨Separated.nil, by simp⟩ hnonempty hsorted fun _ _ => Nat.zero_le _).1

/-- Merging keeps the numbers. -/
theorem covers_foldl_mergeStep (hnonempty : ∀ r ∈ l, r.1 ≤ r.2)
    (hsorted : l.Pairwise fun r s => r.1 ≤ s.1) :
    Covers (l.foldl mergeStep []).reverse x ↔ Covers l x := by
  have h := (@Merged.foldl l [] 0 ⟨Separated.nil, by simp⟩ hnonempty hsorted
    fun _ _ => Nat.zero_le _).2 x
  rw [covers_reverse, h]
  simp

/-- A merged interval starts where an interval of the input starts. -/
theorem start_foldl_mergeStep {lower : ℕ} {merged : List (ℕ × ℕ)}
    (hl : ∀ r ∈ l, lower ≤ r.1) (hmerged : ∀ r ∈ merged, lower ≤ r.1) :
    ∀ r ∈ l.foldl mergeStep merged, lower ≤ r.1 := by
  induction l generalizing merged with
  | nil => exact hmerged
  | cons range l ih =>
    rw [List.foldl_cons]
    apply ih fun r hr => hl r (List.mem_cons_of_mem _ hr)
    have hrange := hl range List.mem_cons_self
    unfold mergeStep
    split
    next start stop rest =>
      have hhead := hmerged _ List.mem_cons_self
      split
      · intro r hr
        rcases List.mem_cons.mp hr with rfl | hr
        · exact hhead
        · exact hmerged r (List.mem_cons_of_mem _ hr)
      · intro r hr
        rcases List.mem_cons.mp hr with rfl | hr
        · exact hrange
        · exact hmerged r hr
    next =>
      intro r hr
      rw [List.mem_singleton.mp hr]
      exact hrange

/-! ### Gaps -/

/-- The gaps after `next` start at `next` or later. -/
theorem le_start_of_mem_gaps {last next : ℕ} (h : Separated l) (hnext : ∀ r ∈ l, next ≤ r.1) :
    ∀ g ∈ gaps last l next, next ≤ g.1 := by
  induction l generalizing next with
  | nil =>
    intro g hg
    unfold gaps at hg
    split at hg
    · rw [List.mem_singleton.mp hg]
    · cases hg
  | cons r l ih =>
    obtain ⟨hr, hgap, hl⟩ := Separated.cons_iff.mp h
    have hle := hnext r List.mem_cons_self
    have hrest := @ih (r.2 + 1) hl fun s hs => (hgap s hs).le
    intro g hg
    unfold gaps at hg
    split at hg
    · rcases List.mem_cons.mp hg with rfl | hg
      · exact le_refl _
      · have := hrest g hg
        omega
    · have := hrest g hg
      omega

/-- The gaps of a separated list are separated. -/
theorem separated_gaps {last next : ℕ} (h : Separated l) (hnext : ∀ r ∈ l, next ≤ r.1) :
    Separated (gaps last l next) := by
  induction l generalizing next with
  | nil =>
    unfold gaps
    split
    · exact Separated.cons_iff.mpr ⟨‹_›, by simp, Separated.nil⟩
    · exact Separated.nil
  | cons r l ih =>
    obtain ⟨hr, hgap, hl⟩ := Separated.cons_iff.mp h
    have hrest : ∀ s ∈ l, r.2 + 1 ≤ s.1 := fun s hs => (hgap s hs).le
    unfold gaps
    split
    next hlt =>
      refine Separated.cons_iff.mpr ⟨?_, ?_, ih hl hrest⟩
      · dsimp only
        omega
      · intro g hg
        have := le_start_of_mem_gaps hl hrest g hg
        dsimp only
        omega
    next => exact ih hl hrest

/-- The gaps hold what the list leaves out. -/
theorem covers_gaps {last next : ℕ} (h : Separated l) (hnext : ∀ r ∈ l, next ≤ r.1)
    (hlast : ∀ r ∈ l, r.2 ≤ last) :
    Covers (gaps last l next) x ↔ next ≤ x ∧ x ≤ last ∧ ¬ Covers l x := by
  induction l generalizing next with
  | nil =>
    unfold gaps
    split
    · simp
    · simp only [covers_nil, not_false_eq_true, and_true, false_iff]
      omega
  | cons r l ih =>
    obtain ⟨hr, hgap, hl⟩ := Separated.cons_iff.mp h
    have hrest := @ih (r.2 + 1) hl (fun s hs => (hgap s hs).le)
      fun s hs => hlast s (List.mem_cons_of_mem _ hs)
    have hle := hnext r List.mem_cons_self
    have hlast := hlast r List.mem_cons_self
    have htail : Covers l x → r.2 + 1 < x := h.lt_of_covers
    unfold gaps
    split
    next hlt =>
      rw [covers_cons, hrest, covers_cons]
      dsimp only
      -- what the rest covers lies behind the first interval
      by_cases hcovers : Covers l x
      · have := htail hcovers
        simp only [hcovers, or_true, not_true_eq_false, and_false, or_false, iff_false]
        omega
      · simp only [hcovers, or_false, not_false_eq_true, and_true]
        omega
    next hlt =>
      rw [hrest, covers_cons]
      by_cases hcovers : Covers l x
      · simp [hcovers]
      · simp only [hcovers, or_false, not_false_eq_true, and_true]
        omega

/-! ### Searching -/

/-- Only the first interval that does not end before a number can hold it. -/
theorem covers_iff_of_head_dropWhile (h : Separated l) :
    Covers l x ↔ ∃ r ∈ (l.dropWhile fun r => decide (r.2 < x)).head?, r.1 ≤ x ∧ x ≤ r.2 := by
  induction l with
  | nil => simp
  | cons r l ih =>
    rw [List.dropWhile_cons]
    by_cases hlt : r.2 < x
    · rw [if_pos (decide_eq_true hlt), ← ih h.tail, h.covers_tail_iff]
      exact ⟨fun hx => ⟨hx, hlt⟩, fun hx => hx.1⟩
    · rw [if_neg (by simpa using hlt), covers_cons]
      simp only [List.head?_cons, Option.mem_def, Option.some.injEq, exists_eq_left',
        or_iff_left_iff_imp]
      intro hx
      have := h.lt_of_covers hx
      omega

end IntervalLists

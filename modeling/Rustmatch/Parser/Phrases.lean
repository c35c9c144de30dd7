import Rustmatch.Parser.Grammar
import Rustmatch.ToMathlib.ListSlices

/-!
# The phrases without recursion

What the parser reads as an escape, a character class or a repetition is a phrase of the grammar,
and it reads every such phrase.

## Main results

* `yields_parseEscape_iff`, `yields_parseCharacterClass_iff`: escapes and character classes;
* `yields_parseRepetition_iff`: an optional quantifier.
-/

namespace Rustmatch

/-- A call returns a value and an index. -/
def Yields {start : ℕ} {α : Type} (call : Except Error (Parsed start α)) (value : α) (index : ℕ) :
    Prop :=
  ∃ h, call = .ok ⟨value, index, h⟩

section Yields

variable {start : ℕ} {α β : Type}

/-- A call that succeeds yields what it returns. -/
theorem yields_of_eq_ok {call : Except Error (Parsed start α)} {parsed : Parsed start α}
    (h : call = .ok parsed) : Yields call parsed.value parsed.index := ⟨parsed.start_le, h⟩

/-- A success yields its value and its index. -/
@[simp]
theorem yields_ok {value value' : α} {index index' : ℕ} {h : start ≤ index} :
    Yields (.ok ⟨value, index, h⟩ : Except Error (Parsed start α)) value' index' ↔
      value = value' ∧ index = index' := by
  constructor
  · rintro ⟨_, heq⟩
    cases heq
    exact ⟨rfl, rfl⟩
  · rintro ⟨rfl, rfl⟩
    exact ⟨h, rfl⟩

/-- A pure value is yielded where it was made. -/
@[simp]
theorem yields_pure {value value' : α} {index index' : ℕ} {h : start ≤ index} :
    Yields (pure ⟨value, index, h⟩ : Except Error (Parsed start α)) value' index' ↔
      value = value' ∧ index = index' := yields_ok

/-- A failure yields nothing. -/
@[simp]
theorem not_yields_error {error : Error} {value : α} {index : ℕ} :
    ¬ Yields (.error error : Except Error (Parsed start α)) value index := by
  rintro ⟨_, heq⟩
  cases heq

/-- A computation yields when its first half does and its second half goes on from there. -/
theorem yields_bind_iff {start' : ℕ} {call : Except Error (Parsed start' β)}
    {next : Parsed start' β → Except Error (Parsed start α)} {value : α} {index : ℕ} :
    Yields (call >>= next) value index ↔
      ∃ middle middleIndex, ∃ h : start' ≤ middleIndex, call = .ok ⟨middle, middleIndex, h⟩ ∧
        Yields (next ⟨middle, middleIndex, h⟩) value index := by
  constructor
  · rintro ⟨h, heq⟩
    obtain ⟨⟨middle, middleIndex, hmiddle⟩, hcall, hnext⟩ := bind_eq_ok.mp heq
    exact ⟨middle, middleIndex, hmiddle, hcall, h, hnext⟩
  · rintro ⟨middle, middleIndex, hmiddle, hcall, h, hnext⟩
    exact ⟨h, bind_eq_ok.mpr ⟨_, hcall, hnext⟩⟩

/-- Where a call began does not matter to what it yields. -/
@[simp]
theorem yields_weaken_iff {start' : ℕ} {h : start' ≤ start} {call : Except Error (Parsed start α)}
    {value : α} {index : ℕ} :
    Yields (do let parsed ← call; return parsed.weaken h) value index ↔
      Yields call value index := by
  rw [yields_bind_iff]
  constructor
  · rintro ⟨_, _, hle, hcall, hyields⟩
    obtain ⟨rfl, rfl⟩ := yields_pure.mp hyields
    exact ⟨hle, hcall⟩
  · rintro ⟨hle, hcall⟩
    exact ⟨_, _, hle, hcall, yields_pure.mpr ⟨rfl, rfl⟩⟩

end Yields

namespace Parser

variable {p : Parser} {index stop : ℕ}

/-- Looking at the current unit compares it. -/
theorem currentIs_iff {expected : Char} :
    p.currentIs index expected = true ↔ p.units[index]? = some (ascii expected) := beq_iff_eq

/-- There is a unit where one has been seen. -/
theorem lt_length_of_currentIs {expected : Char} (h : p.currentIs index expected = true) :
    index < p.units.length :=
  (List.getElem?_eq_some_iff.mp (currentIs_iff.mp h)).1

/-- An escape is a backslash and a unit that it gives a meaning to. -/
theorem yields_parseEscape_iff {expression : Hir} (hstart : p.units[index]? = some (ascii '\\')) :
    Yields (p.parseEscape index) expression stop ↔
      ∃ text, IsSlice p.units index text stop ∧ EscapeText p.toCaseRules text expression := by
  unfold parseEscape
  constructor
  · intro h
    split at h
    next => exact absurd h not_yields_error
    next escaped hescaped =>
      have hslice : IsSlice p.units index [ascii '\\', escaped] (index + 2) :=
        isSlice_pair.mpr ⟨hstart, hescaped, rfl⟩
      simp only at h
      split_ifs at h with hliteral hn ht hr hf hshorthand hb hB
      all_goals simp only [yields_ok, not_yields_error] at h
      · obtain ⟨rfl, rfl⟩ := h
        exact ⟨_, hslice, .literal hliteral⟩
      · obtain ⟨rfl, rfl⟩ := h
        exact ⟨_, hslice, hn ▸ .newline⟩
      · obtain ⟨rfl, rfl⟩ := h
        exact ⟨_, hslice, ht ▸ .tab⟩
      · obtain ⟨rfl, rfl⟩ := h
        exact ⟨_, hslice, hr ▸ .carriageReturn⟩
      · obtain ⟨rfl, rfl⟩ := h
        exact ⟨_, hslice, hf ▸ .formFeed⟩
      · obtain ⟨rfl, rfl⟩ := h
        exact ⟨_, hslice, .shorthand hshorthand⟩
      · obtain ⟨rfl, rfl⟩ := h
        exact ⟨_, hslice, hb ▸ .wordBoundary⟩
      · obtain ⟨rfl, rfl⟩ := h
        exact ⟨_, hslice, hB ▸ .nonWordBoundary⟩
  · rintro ⟨text, hslice, hescape⟩
    cases hescape with
    | literal hliteral =>
      obtain ⟨-, hescaped, rfl⟩ := isSlice_pair.mp hslice
      rw [hescaped]
      simp only [hliteral, if_true]
      exact yields_ok.mpr ⟨rfl, rfl⟩
    | newline | tab | carriageReturn | formFeed | wordBoundary | nonWordBoundary =>
      obtain ⟨-, hescaped, rfl⟩ := isSlice_pair.mp hslice
      rw [hescaped]
      exact ⟨Nat.le_succ _, rfl⟩
    | @shorthand unit hshorthand =>
      obtain ⟨-, hescaped, rfl⟩ := isSlice_pair.mp hslice
      rw [hescaped]
      -- no shorthand is a literal or a control character
      have hunit := hshorthand
      simp only [isShorthand, List.mem_cons, List.not_mem_nil, or_false, decide_eq_true_eq] at hunit
      rcases hunit with rfl | rfl | rfl | rfl | rfl | rfl
      all_goals exact ⟨Nat.le_succ _, rfl⟩

/-! ### Character classes -/

/-- A token is a literal of a class, a range marker or a shorthand. -/
theorem parseClassToken_eq_ok {token : Parsed (index + 1) ClassToken}
    {h : index < p.units.length} (htoken : p.parseClassToken index h = .ok token)
    (hunit : p.units[index] ≠ ascii ']') : ∃ text, IsSlice p.units index text token.index ∧
      ((∃ unit, token.value = .literal unit index ∧ ClassLiteralText text unit) ∨
        (token.value = .rangeMarker index ∧ text = [ascii '-']) ∨
        ∃ members, token.value = .predicate members ∧
          ClassItemText text (.members members)) := by
  have hget : p.units[index]? = some p.units[index] := List.getElem?_eq_getElem h
  unfold parseClassToken at htoken
  simp only at htoken
  -- a range marker, a plain literal, or an escape
  split_ifs at htoken with hmarker hplain
  · cases htoken
    exact ⟨_, isSlice_singleton.mpr ⟨hget, rfl⟩, Or.inr (Or.inl ⟨rfl, by rw [hmarker]⟩)⟩
  · cases htoken
    refine ⟨_, isSlice_singleton.mpr ⟨hget, rfl⟩, Or.inl ⟨_, rfl, .plain ?_⟩⟩
    simp [hunit, hmarker, hplain]
  · rw [not_not] at hplain
    split at htoken
    next => cases htoken
    next escaped hescaped =>
      have hslice : IsSlice p.units index [ascii '\\', escaped] (index + 2) :=
        isSlice_pair.mpr ⟨hplain ▸ hget, hescaped, rfl⟩
      -- the escapes: a literal unit, four control characters, three shorthands
      split_ifs at htoken with hliteral hn ht hr hf hshorthand
      · cases htoken
        exact ⟨_, hslice, Or.inl ⟨_, rfl, .escaped hliteral⟩⟩
      · cases htoken
        exact ⟨_, hslice, Or.inl ⟨_, rfl, hn ▸ .newline⟩⟩
      · cases htoken
        exact ⟨_, hslice, Or.inl ⟨_, rfl, ht ▸ .tab⟩⟩
      · cases htoken
        exact ⟨_, hslice, Or.inl ⟨_, rfl, hr ▸ .carriageReturn⟩⟩
      · cases htoken
        exact ⟨_, hslice, Or.inl ⟨_, rfl, hf ▸ .formFeed⟩⟩
      · cases htoken
        refine ⟨_, hslice, Or.inr (Or.inr ⟨_, rfl, ?_⟩)⟩
        simp only [List.mem_cons, List.not_mem_nil, or_false] at hshorthand
        rcases hshorthand with rfl | rfl | rfl
        · exact .digit
        · exact .word
        · exact .whitespace

/-- The literals of classes are read as tokens. -/
theorem parseClassToken_literal {text : List UInt16} {unit : UInt16}
    (hslice : IsSlice p.units index text stop) (hliteral : ClassLiteralText text unit) :
    ∃ (h : index < p.units.length) (hle : index + 1 ≤ stop), p.units[index] ≠ ascii ']' ∧
      p.parseClassToken index h = .ok ⟨.literal unit index, stop, hle⟩ := by
  cases hliteral with
  | plain hplain =>
    obtain ⟨hget, rfl⟩ := isSlice_singleton.mp hslice
    obtain ⟨h, hunit⟩ := List.getElem?_eq_some_iff.mp hget
    simp only [List.mem_cons, List.not_mem_nil, or_false, not_or] at hplain
    refine ⟨h, Nat.le_refl _, hunit ▸ hplain.1, ?_⟩
    unfold parseClassToken
    simp only [hunit, hplain.2.1, hplain.2.2, if_false, ne_eq, not_false_eq_true, if_true]
  | escaped hescaped =>
    obtain ⟨hget, hunit, rfl⟩ := isSlice_pair.mp hslice
    obtain ⟨h, hbackslash⟩ := List.getElem?_eq_some_iff.mp hget
    refine ⟨h, Nat.le_succ _, by rw [hbackslash]; decide, ?_⟩
    unfold parseClassToken
    simp only [hbackslash, hunit]
    have hmem : unit ∈ [0x5c, 0x5d, 0x5b, 0x2d, 0x5e] := hescaped
    exact if_pos hmem
  | newline | tab | carriageReturn | formFeed =>
    obtain ⟨hget, hunit, rfl⟩ := isSlice_pair.mp hslice
    obtain ⟨h, hbackslash⟩ := List.getElem?_eq_some_iff.mp hget
    refine ⟨h, Nat.le_succ _, by rw [hbackslash]; decide, ?_⟩
    unfold parseClassToken
    simp only [hbackslash, hunit]
    rfl

/-- The shorthands of classes are read as tokens. -/
theorem parseClassToken_members {text : List UInt16} {members : SymbolPredicate}
    (hslice : IsSlice p.units index text stop) (hitem : ClassItemText text (.members members)) :
    ∃ (h : index < p.units.length) (hle : index + 1 ≤ stop), p.units[index] ≠ ascii ']' ∧
      p.parseClassToken index h = .ok ⟨.predicate members, stop, hle⟩ := by
  cases hitem with
  | digit | word | whitespace =>
    obtain ⟨hget, hunit, rfl⟩ := isSlice_pair.mp hslice
    obtain ⟨h, hbackslash⟩ := List.getElem?_eq_some_iff.mp hget
    refine ⟨h, Nat.le_succ _, by rw [hbackslash]; decide, ?_⟩
    unfold parseClassToken
    simp only [hbackslash, hunit]
    rfl

/-- A range marker is read as a token. -/
theorem parseClassToken_marker (hget : p.units[index]? = some (ascii '-')) :
    ∃ h : index < p.units.length, p.units[index] ≠ ascii ']' ∧
      p.parseClassToken index h = .ok ⟨.rangeMarker index, index + 1, Nat.le_refl _⟩ := by
  obtain ⟨h, hunit⟩ := List.getElem?_eq_some_iff.mp hget
  refine ⟨h, by rw [hunit]; decide, ?_⟩
  unfold parseClassToken
  simp only [hunit]
  rfl

/-- The loop goes on behind a token. -/
theorem yields_parseClassItems_step {classStart middle : ℕ} {state state' : ClassState}
    {token : ClassToken} {predicate : SymbolPredicate} {h : index < p.units.length}
    {hle : index + 1 ≤ middle} (hopen : p.units[index] ≠ ascii ']')
    (htoken : p.parseClassToken index h = .ok ⟨token, middle, hle⟩)
    (hpush : state.push p classStart middle token = .ok state') :
    Yields (p.parseClassItems classStart index state) predicate stop ↔
      Yields (p.parseClassItems classStart middle state') predicate stop := by
  rw [parseClassItems, dif_pos h, if_neg hopen, htoken]
  simp only [bind, Except.bind, hpush]
  cases hrest : p.parseClassItems classStart middle state' with
  | error error => simp
  | ok rest =>
    constructor
    · intro hyields
      obtain ⟨rfl, rfl⟩ := yields_pure.mp hyields
      exact yields_of_eq_ok rfl
    · rintro ⟨_, heq⟩
      cases heq
      exact yields_pure.mpr ⟨rfl, rfl⟩

/-- What has been read of the item that the state has not finished. -/
inductive ClassState.OpenText (state : ClassState) : List UInt16 → Prop
  | between : state.pendingLiteral = none → state.rangeStart = none → state.OpenText []
  | literal {text : List UInt16} {unit : UInt16} {position : ℕ} :
      state.pendingLiteral = some (unit, position) → state.rangeStart = none →
      ClassLiteralText text unit → state.OpenText text
  | range {text : List UInt16} {unit : UInt16} {position : ℕ} :
      state.pendingLiteral = none → state.rangeStart = some (unit, position) →
      ClassLiteralText text unit → state.OpenText (text ++ [ascii '-'])

/-- A token that is pushed completes an item, or stays open with what was open before. -/
theorem ClassState.openText_push {classStart middle : ℕ} {state state' : ClassState}
    {token : ClassToken} {text rest opened : List UInt16} {predicate : SymbolPredicate}
    (hpush : state.push p classStart middle token = .ok state')
    (htoken : (∃ unit, token = .literal unit index ∧ ClassLiteralText text unit) ∨
      (token = .rangeMarker index ∧ text = [ascii '-']) ∨
      ∃ members, token = .predicate members ∧ ClassItemText text (.members members))
    (hrest : ∀ opened, state'.OpenText opened → ∃ items, ClassItemsText (opened ++ rest) items ∧
      items.foldlM (ClassItem.addTo p.toCaseRules) state'.predicate = some predicate)
    (hopened : state.OpenText opened) :
    ∃ items, ClassItemsText (opened ++ (text ++ rest)) items ∧
      items.foldlM (ClassItem.addTo p.toCaseRules) state.predicate = some predicate := by
  -- one case a kind of token, and in it one case a state of the class
  rcases htoken with ⟨unit, rfl, hliteral⟩ | ⟨rfl, rfl⟩ | ⟨members, rfl, hmembers⟩
  · cases hopened with
    | between hpending hrange =>
      simp only [ClassState.push, ClassState.flush, hpending, hrange] at hpush
      cases hpush
      exact hrest text (.literal rfl rfl hliteral)
    | literal hpending hrange hopened =>
      simp only [ClassState.push, ClassState.flush, hpending, hrange] at hpush
      cases hpush
      obtain ⟨items, hitems, hfold⟩ := hrest text (.literal rfl rfl hliteral)
      exact ⟨_, .cons (.literal hopened) hitems, hfold⟩
    | @range startText start _ hpending hrange hopened =>
      simp only [ClassState.push, hrange] at hpush
      split at hpush
      -- the literal closes a range, which is added if it ascends
      next predicate' hinsert =>
        cases hpush
        obtain ⟨items, hitems, hfold⟩ := hrest [] (.between hpending rfl)
        refine ⟨.range start unit :: items, ?_, ?_⟩
        · rw [← List.append_assoc, List.append_assoc _ [ascii '-']]
          exact .cons (.range hopened hliteral) hitems
        · rw [List.foldlM_cons]
          exact (congrArg (· >>= _) hinsert).trans hfold
      next => cases hpush
  · cases hopened with
    | between hpending hrange =>
      simp only [ClassState.push, hpending] at hpush
      cases hpush
    | literal hpending hrange hopened =>
      simp only [ClassState.push, hpending] at hpush
      cases hpush
      rw [← List.append_assoc]
      exact hrest _ (.range rfl rfl hopened)
    | range hpending hrange hopened =>
      simp only [ClassState.push, hpending] at hpush
      cases hpush
  · cases hopened with
    | between hpending hrange =>
      simp only [ClassState.push, ClassState.flush, hpending, hrange, Option.isSome_none,
        Bool.false_eq_true, if_false] at hpush
      cases hpush
      obtain ⟨items, hitems, hfold⟩ := hrest [] (.between rfl rfl)
      exact ⟨_, (.cons hmembers hitems : ClassItemsText (text ++ rest) _), hfold⟩
    | literal hpending hrange hopened =>
      simp only [ClassState.push, ClassState.flush, hpending, hrange, Option.isSome_none,
        Bool.false_eq_true, if_false] at hpush
      cases hpush
      obtain ⟨items, hitems, hfold⟩ := hrest [] (.between rfl rfl)
      exact ⟨_, .cons (.literal hopened) (.cons hmembers hitems), hfold⟩
    | range hpending hrange hopened =>
      simp only [ClassState.push, hrange, Option.isSome_some, if_true] at hpush
      cases hpush

/-- What the loop reads completes the items of the class. -/
theorem classItemsText_of_yields {classStart : ℕ} {state : ClassState}
    {predicate : SymbolPredicate}
    (h : Yields (p.parseClassItems classStart index state) predicate stop) :
    ∃ text, IsSlice p.units index (text ++ [ascii ']']) stop ∧
      ∀ opened, state.OpenText opened → ∃ items, ClassItemsText (opened ++ text) items ∧
        items.foldlM (ClassItem.addTo p.toCaseRules) state.predicate = some predicate := by
  induction index, state using parseClassItems.induct p generalizing predicate stop with
  | case1 index state hlt hclose hrange =>
    rw [parseClassItems, dif_pos hlt, if_pos hclose, if_pos hrange] at h
    exact absurd h not_yields_error
  | case2 index state hlt hclose hrange =>
    rw [parseClassItems, dif_pos hlt, if_pos hclose, if_neg hrange] at h
    obtain ⟨rfl, rfl⟩ := yields_ok.mp h
    refine ⟨[], isSlice_singleton.mpr ⟨hclose ▸ List.getElem?_eq_getElem hlt, rfl⟩, ?_⟩
    rintro opened (⟨hpending, -⟩ | ⟨hpending, -, hliteral⟩ | ⟨-, hstart, -⟩)
    · exact ⟨[], .nil, by rw [ClassState.flush, hpending]; rfl⟩
    · exact ⟨_, .cons (.literal hliteral) .nil, by rw [ClassState.flush, hpending]; rfl⟩
    · rw [hstart] at hrange
      exact absurd rfl hrange
  | case3 index state hlt hclose ih =>
    rw [parseClassItems, dif_pos hlt, if_neg hclose] at h
    -- one token more, which goes into the open text of the state
    obtain ⟨_, heq⟩ := h
    obtain ⟨token, htoken, heq⟩ := bind_eq_ok.mp heq
    obtain ⟨state', hpush, heq⟩ := bind_eq_ok.mp heq
    obtain ⟨rest, hrest, heq⟩ := bind_eq_ok.mp heq
    cases heq
    obtain ⟨text, hslice, hopened⟩ := ih token state' (yields_of_eq_ok hrest)
    obtain ⟨tokenText, htokenSlice, hcases⟩ := parseClassToken_eq_ok htoken hclose
    refine ⟨tokenText ++ text, ?_, fun opened => ClassState.openText_push hpush hcases hopened⟩
    rw [List.append_assoc]
    exact isSlice_append.mpr ⟨_, htokenSlice, hslice⟩
  | case4 index state hlt =>
    rw [parseClassItems, dif_neg hlt] at h
    exact absurd h not_yields_error

/-- The loop reads the items of a class, behind a literal that is pending or not. -/
theorem yields_of_classItemsText {classStart : ℕ} {text : List UInt16} {items : List ClassItem}
    {predicate : SymbolPredicate} (hitems : ClassItemsText text items) :
    ∀ {index : ℕ} {state : ClassState}, state.rangeStart = none →
      IsSlice p.units index (text ++ [ascii ']']) stop →
      items.foldlM (ClassItem.addTo p.toCaseRules) (state.flush p) = some predicate →
      Yields (p.parseClassItems classStart index state) predicate stop := by
  -- the induction is on the items; before each one no range is open
  induction hitems with
  | nil =>
    intro index state hrange hslice hfold
    obtain ⟨hget, rfl⟩ := isSlice_singleton.mp hslice
    obtain ⟨h, hclose⟩ := List.getElem?_eq_some_iff.mp hget
    rw [parseClassItems, dif_pos h, if_pos hclose, hrange]
    exact yields_ok.mpr ⟨Option.some.inj hfold, rfl⟩
  | cons hitem _ ih =>
    intro index state hrange hslice hfold
    rw [List.append_assoc] at hslice
    obtain ⟨middle, hitemSlice, htail⟩ := isSlice_append.mp hslice
    rw [List.foldlM_cons] at hfold
    cases hitem with
    | literal hliteral =>
      obtain ⟨h, hle, hopen, htoken⟩ := parseClassToken_literal hitemSlice hliteral
      rw [yields_parseClassItems_step hopen htoken (by rw [ClassState.push, hrange])]
      exact ih rfl htail hfold
    | @range _ _ first last hfirst hlast =>
      -- a range is three tokens: literal, marker, literal
      obtain ⟨firstStop, hfirstSlice, hrestSlice⟩ := isSlice_append.mp hitemSlice
      obtain ⟨hget, hlastSlice⟩ := isSlice_cons.mp hrestSlice
      obtain ⟨h, hle, hopen, htoken⟩ := parseClassToken_literal hfirstSlice hfirst
      rw [yields_parseClassItems_step hopen htoken (by rw [ClassState.push, hrange])]
      obtain ⟨h', hopen', htoken'⟩ := parseClassToken_marker hget
      rw [yields_parseClassItems_step hopen' htoken' rfl]
      obtain ⟨h'', hle'', hopen'', htoken''⟩ := parseClassToken_literal hlastSlice hlast
      obtain ⟨inserted, hinsert, hfold⟩ := Option.bind_eq_some_iff.mp hfold
      have hrangeInsert : p.insertClassRange (state.flush p) first last = some inserted := hinsert
      have hpush : ClassState.push ⟨state.flush p, none, some (first, index)⟩ p classStart middle
          (.literal last (firstStop + 1)) = .ok ⟨inserted, none, none⟩ := by
        simp only [ClassState.push, hrangeInsert]
      rw [yields_parseClassItems_step hopen'' htoken'' hpush]
      exact ih rfl htail hfold
    | digit =>
      obtain ⟨h, hle, hopen, htoken⟩ := parseClassToken_members hitemSlice .digit
      rw [yields_parseClassItems_step hopen htoken (by rw [ClassState.push, hrange]; rfl)]
      exact ih rfl htail hfold
    | word =>
      obtain ⟨h, hle, hopen, htoken⟩ := parseClassToken_members hitemSlice .word
      rw [yields_parseClassItems_step hopen htoken (by rw [ClassState.push, hrange]; rfl)]
      exact ih rfl htail hfold
    | whitespace =>
      obtain ⟨h, hle, hopen, htoken⟩ := parseClassToken_members hitemSlice .whitespace
      rw [yields_parseClassItems_step hopen htoken (by rw [ClassState.push, hrange]; rfl)]
      exact ih rfl htail hfold

/-- The body of a class is its items, or what they leave. -/
theorem yields_parseClassBody_iff {classStart : ℕ} {inverted : Bool} {expression : Hir} :
    Yields (p.parseClassBody classStart index inverted) expression stop ↔
      ∃ predicate, expression = .predicate (if inverted then predicate.complement else predicate) ∧
        Yields (p.parseClassItems classStart index .initial) predicate stop := by
  unfold parseClassBody
  rw [yields_bind_iff]
  constructor
  · rintro ⟨predicate, _, hle, hitems, hyields⟩
    obtain ⟨rfl, rfl⟩ := yields_pure.mp hyields
    exact ⟨predicate, rfl, hle, hitems⟩
  · rintro ⟨predicate, rfl, hle, hitems⟩
    exact ⟨predicate, stop, hle, hitems, yields_pure.mpr ⟨rfl, rfl⟩⟩

/-- What the loop reads from the first token on are the items of a class. -/
theorem yields_parseClassItems_iff {classStart : ℕ} {predicate : SymbolPredicate} :
    Yields (p.parseClassItems classStart index .initial) predicate stop ↔
      ∃ text items, IsSlice p.units index (text ++ [ascii ']']) stop ∧ ClassItemsText text items ∧
        items.foldlM (ClassItem.addTo p.toCaseRules) .empty = some predicate := by
  constructor
  · intro h
    obtain ⟨text, hslice, hopened⟩ := classItemsText_of_yields h
    obtain ⟨items, hitems, hfold⟩ := hopened [] (.between rfl rfl)
    exact ⟨text, items, hslice, hitems, hfold⟩
  · rintro ⟨text, items, hslice, hitems, hfold⟩
    exact yields_of_classItemsText hitems rfl hslice hfold

/-- A character class is read as one. -/
theorem yields_parseCharacterClass_iff {expression : Hir}
    (hstart : p.units[index]? = some (ascii '[')) :
    Yields (p.parseCharacterClass index) expression stop ↔
      ∃ text predicate, IsSlice p.units index text stop ∧
        ClassText p.toCaseRules text predicate ∧ expression = .predicate predicate := by
  unfold parseCharacterClass
  by_cases hinverted : p.currentIs (index + 1) '^' = true
  · have hcircumflex := currentIs_iff.mp hinverted
    rw [if_pos hinverted, yields_weaken_iff, yields_parseClassBody_iff]
    constructor
    · rintro ⟨predicate, rfl, hitems⟩
      obtain ⟨text, items, hslice, hitems, hfold⟩ := yields_parseClassItems_iff.mp hitems
      exact ⟨_, _, isSlice_cons.mpr ⟨hstart, isSlice_cons.mpr ⟨hcircumflex, hslice⟩⟩,
        .inverted hitems hfold, rfl⟩
    · rintro ⟨_, _, hslice, hclass, rfl⟩
      cases hclass with
      | @positive text _ _ hitems hhead hfold =>
        obtain ⟨-, hslice⟩ := isSlice_cons.mp hslice
        -- the first unit of the items is no circumflex, and neither is the closing bracket
        cases text with
        | nil =>
          rw [(isSlice_cons.mp hslice).1] at hcircumflex
          exact absurd hcircumflex (by decide)
        | cons unit text =>
          rw [(isSlice_cons.mp hslice).1] at hcircumflex
          exact absurd hcircumflex hhead
      | inverted hitems hfold =>
        obtain ⟨-, hslice⟩ := isSlice_cons.mp hslice
        obtain ⟨-, hslice⟩ := isSlice_cons.mp hslice
        exact ⟨_, rfl, yields_parseClassItems_iff.mpr ⟨_, _, hslice, hitems, hfold⟩⟩
  · rw [if_neg hinverted, yields_parseClassBody_iff]
    rw [currentIs_iff] at hinverted
    constructor
    · rintro ⟨predicate, rfl, hitems⟩
      obtain ⟨text, items, hslice, hitems, hfold⟩ := yields_parseClassItems_iff.mp hitems
      refine ⟨_, _, isSlice_cons.mpr ⟨hstart, hslice⟩, .positive hitems ?_ hfold, rfl⟩
      intro hhead
      obtain ⟨rest, rfl⟩ := List.head?_eq_some_iff.mp hhead
      exact hinverted (isSlice_cons.mp hslice).1
    · rintro ⟨_, _, hslice, hclass, rfl⟩
      cases hclass with
      | positive hitems hhead hfold =>
        obtain ⟨-, hslice⟩ := isSlice_cons.mp hslice
        exact ⟨_, rfl, yields_parseClassItems_iff.mpr ⟨_, _, hslice, hitems, hfold⟩⟩
      | inverted hitems hfold =>
        obtain ⟨-, hslice⟩ := isSlice_cons.mp hslice
        exact absurd (isSlice_cons.mp hslice).1 hinverted

/-! ### Repetitions -/

/-- A unit that is a decimal digit. -/
def IsDigit (unit : UInt16) : Prop := ascii '0' ≤ unit ∧ unit ≤ ascii '9'

instance (unit : UInt16) : Decidable (IsDigit unit) :=
  inferInstanceAs (Decidable (_ ∧ _))

/-- A digit is nine at most. -/
theorem digitValue_le {unit : UInt16} (h : IsDigit unit) : digitValue unit ≤ 9 := by
  obtain ⟨hlow, hhigh⟩ := h
  have hsub : (unit - ascii '0').toNat = unit.toNat - (ascii '0').toNat :=
    UInt16.toNat_sub_of_le _ _ hlow
  have hlow : (ascii '0').toNat ≤ unit.toNat := UInt16.le_iff_toNat_le.mp hlow
  have hhigh : unit.toNat ≤ (ascii '9').toNat := UInt16.le_iff_toNat_le.mp hhigh
  have hzero : (ascii '0').toNat = 48 := by decide
  have hnine : (ascii '9').toNat = 57 := by decide
  unfold digitValue
  omega

/-- The parser counts like the decimal value, up to just above the largest count allowed. -/
theorem foldl_countDigit {text : List UInt16} (hdigits : ∀ unit ∈ text, IsDigit unit) (value : ℕ) :
    text.foldl (fun value unit => countDigit value (digitValue unit))
        (min value (maxCountedRepetition + 1)) =
      min (text.foldl (fun value unit => value * 10 + digitValue unit) value)
        (maxCountedRepetition + 1) := by
  induction text generalizing value with
  | nil => rfl
  | cons unit text ih =>
    obtain ⟨hunit, hrest⟩ := List.forall_mem_cons.mp hdigits
    have hle := digitValue_le hunit
    have hstep : countDigit (min value (maxCountedRepetition + 1)) (digitValue unit) =
        min (value * 10 + digitValue unit) (maxCountedRepetition + 1) := by
      unfold countDigit u32Max maxCountedRepetition
      omega
    rw [List.foldl_cons, List.foldl_cons, hstep, ih hrest]

/-- The digits from an index on, up to the first unit that is none. -/
theorem parseDigits_spec (index value : ℕ) : ∃ text,
    IsSlice p.units index text (p.parseDigits index value).index ∧
    (∀ unit ∈ text, IsDigit unit) ∧
    (∀ unit, p.units[(p.parseDigits index value).index]? = some unit → ¬ IsDigit unit) ∧
    (p.parseDigits index value).value =
      text.foldl (fun value unit => countDigit value (digitValue unit)) value := by
  induction index, value using parseDigits.induct p with
  | case1 index value hend =>
    rw [parseDigits]
    split
    next => exact ⟨[], isSlice_nil.mpr rfl, by simp, by simp [hend], rfl⟩
    next unit hunit => rw [hend] at hunit; cases hunit
  | case2 index value unit hget hdigit ih =>
    -- one digit more in front of the run
    obtain ⟨text, hslice, hdigits, hstop, hvalue⟩ := ih
    rw [parseDigits]
    split
    next hend => rw [hget] at hend; cases hend
    next unit' hunit =>
      obtain rfl : unit = unit' := Option.some.inj (hget.symm.trans hunit)
      rw [if_pos hdigit]
      exact ⟨unit :: text, isSlice_cons.mpr ⟨hget, hslice⟩,
        List.forall_mem_cons.mpr ⟨hdigit, hdigits⟩, hstop, hvalue⟩
  | case3 index value unit hget hdigit =>
    rw [parseDigits]
    split
    next hend => rw [hget] at hend; cases hend
    next unit' hunit =>
      obtain rfl : unit = unit' := Option.some.inj (hget.symm.trans hunit)
      rw [if_neg hdigit]
      refine ⟨[], isSlice_nil.mpr rfl, by simp, fun other hother => ?_, rfl⟩
      obtain rfl : unit = other := Option.some.inj (hget.symm.trans hother)
      exact hdigit

/-- A count is read as one, when no digit follows it. -/
theorem yields_parseCount_iff {start count : ℕ} :
    Yields (p.parseCount start index) count stop ↔
      (∃ text, IsSlice p.units index text stop ∧ CountText text count) ∧
        count ≤ maxCountedRepetition ∧
        ∀ unit, p.units[stop]? = some unit → ¬ IsDigit unit := by
  obtain ⟨text, hslice, hdigits, hstop, hvalue⟩ := @parseDigits_spec p index 0
  -- the value is clamped in every step, and so at the end
  have hclamped := foldl_countDigit hdigits 0
  rw [Nat.zero_min, ← hvalue] at hclamped
  have hempty : (p.parseDigits index 0).index = index ↔ text = [] := by
    have := hslice.stop_eq
    rw [← List.length_eq_zero_iff]
    omega
  unfold parseCount
  simp only
  constructor
  · intro h
    split at h
    next => exact absurd h not_yields_error
    next hgood =>
      rw [not_or, hempty, Nat.not_lt] at hgood
      obtain ⟨_, heq⟩ := h
      have hparsed := Except.ok.inj heq
      rw [hparsed] at hslice hstop hclamped hgood
      refine ⟨⟨text, hslice, hgood.1, hdigits, ?_⟩, hgood.2, hstop⟩
      show text.foldl _ 0 = count
      have : min (text.foldl (fun value unit => value * 10 + digitValue unit) 0)
        (maxCountedRepetition + 1) = count := hclamped.symm
      have hle : count ≤ maxCountedRepetition := hgood.2
      omega
  · rintro ⟨⟨text', hslice', hne, hdigits', hcount⟩, hle, hstop'⟩
    -- a run of digits that no digit follows is the run that is read
    obtain ⟨rfl, hindex⟩ := hslice.run_unique hdigits hstop hslice' hdigits' hstop'
    have hcount : text.foldl (fun value unit => value * 10 + digitValue unit) 0 = count := hcount
    have hvalue : (p.parseDigits index 0).value = count := by
      rw [hclamped, hcount]
      omega
    rw [if_neg]
    · rw [← hvalue, ← hindex]
      exact yields_of_eq_ok rfl
    · rw [not_or, hempty, Nat.not_lt, hvalue]
      exact ⟨hne, hle⟩

/-- What closes a counted repetition, behind its first count. -/
inductive LimitText (count : ℕ) : List UInt16 → Option ℕ → Prop
  | exactly : LimitText count [ascii '}'] (some count)
  | atLeast : LimitText count [ascii ',', ascii '}'] none
  | upTo {text : List UInt16} {limit : ℕ} : CountText text limit → limit ≤ maxCountedRepetition →
      LimitText count (ascii ',' :: (text ++ [ascii '}'])) (some limit)

/-- A count does not begin with a closing brace, and none follows its digits as a digit. -/
theorem head?_ne_of_countText {text : List UInt16} {count : ℕ} (h : CountText text count) :
    text.head? ≠ some (ascii '}') := by
  intro hhead
  obtain ⟨rest, rfl⟩ := List.head?_eq_some_iff.mp hhead
  exact absurd (h.digits _ List.mem_cons_self) (by decide)

/-- There is one unit at an index only. -/
theorem not_isDigit_of_eq {unit other : UInt16} (hunit : p.units[index]? = some unit)
    (hnot : ¬ IsDigit unit) (hother : p.units[index]? = some other) : ¬ IsDigit other := by
  obtain rfl : unit = other := Option.some.inj (hunit.symm.trans hother)
  exact hnot

/-- The second count is read when a limit stands there. -/
theorem yields_parseLimit_iff {start count : ℕ} {limit : Option ℕ} :
    Yields (p.parseLimit start index count) limit stop ↔
      ∃ text, IsSlice p.units index text stop ∧ LimitText count text limit := by
  unfold parseLimit
  constructor
  · intro h
    -- `}` at once, `,}`, or `,` and a count
    split_ifs at h with hbrace hcomma hbrace'
    · obtain ⟨rfl, rfl⟩ := yields_ok.mp h
      exact ⟨_, isSlice_singleton.mpr ⟨currentIs_iff.mp hbrace, rfl⟩, .exactly⟩
    · obtain ⟨rfl, rfl⟩ := yields_ok.mp h
      exact ⟨_, isSlice_pair.mpr ⟨currentIs_iff.mp hcomma, currentIs_iff.mp hbrace', rfl⟩,
        .atLeast⟩
    · obtain ⟨limit', middle, hle, hcount, hyields⟩ := yields_bind_iff.mp h
      obtain ⟨⟨text, hslice, htext⟩, hallowed, -⟩ := yields_parseCount_iff.mp ⟨hle, hcount⟩
      split at hyields
      next => exact absurd hyields not_yields_error
      next hclose =>
        obtain ⟨rfl, rfl⟩ := yields_ok.mp hyields
        rw [Bool.not_eq_true', Bool.not_eq_false] at hclose
        exact ⟨_, isSlice_cons.mpr ⟨currentIs_iff.mp hcomma, isSlice_append.mpr
          ⟨middle, hslice, isSlice_singleton.mpr ⟨currentIs_iff.mp hclose, rfl⟩⟩⟩,
          .upTo htext hallowed⟩
    · exact absurd h not_yields_error
  · rintro ⟨text, hslice, hlimit⟩
    cases hlimit with
    | exactly =>
      obtain ⟨hbrace, rfl⟩ := isSlice_singleton.mp hslice
      rw [if_pos (currentIs_iff.mpr hbrace)]
      exact yields_ok.mpr ⟨rfl, rfl⟩
    | atLeast =>
      obtain ⟨hcomma, hbrace, rfl⟩ := isSlice_pair.mp hslice
      have hnot : ¬ p.currentIs index '}' = true := by
        rw [currentIs_iff, hcomma]
        decide
      rw [if_neg hnot, if_pos (currentIs_iff.mpr hcomma), if_pos (currentIs_iff.mpr hbrace)]
      exact yields_ok.mpr ⟨rfl, rfl⟩
    | @upTo text limit htext hallowed =>
      obtain ⟨hcomma, htail⟩ := isSlice_cons.mp hslice
      obtain ⟨middle, htextSlice, hlast⟩ := isSlice_append.mp htail
      obtain ⟨hclose, rfl⟩ := isSlice_singleton.mp hlast
      have hnot : ¬ p.currentIs index '}' = true := by
        rw [currentIs_iff, hcomma]
        decide
      -- a count begins with a digit, so no brace follows the comma
      have hnot' : ¬ p.currentIs (index + 1) '}' = true := by
        rw [currentIs_iff]
        intro hbrace
        cases text with
        | nil => exact htext.ne_nil rfl
        | cons unit text =>
          rw [(isSlice_cons.mp htextSlice).1] at hbrace
          exact head?_ne_of_countText htext hbrace
      obtain ⟨hle, hcount⟩ := (@yields_parseCount_iff p (index + 1) middle start limit).mpr
        ⟨⟨text, htextSlice, htext⟩, hallowed, fun _ => not_isDigit_of_eq hclose (by decide)⟩
      rw [if_neg hnot, if_pos (currentIs_iff.mpr hcomma), if_neg hnot']
      refine yields_bind_iff.mpr ⟨limit, middle, hle, hcount, ?_⟩
      rw [if_neg (by rw [currentIs_iff.mpr hclose]; decide)]
      exact yields_ok.mpr ⟨rfl, rfl⟩

/-- A limit does not begin with a digit. -/
theorem LimitText.not_isDigit {count : ℕ} {text : List UInt16} {limit : Option ℕ}
    (h : LimitText count text limit) (hslice : IsSlice p.units index text stop) (unit : UInt16)
    (hunit : p.units[index]? = some unit) : ¬ IsDigit unit := by
  cases h with
  | exactly => exact not_isDigit_of_eq (isSlice_cons.mp hslice).1 (by decide) hunit
  | atLeast => exact not_isDigit_of_eq (isSlice_cons.mp hslice).1 (by decide) hunit
  | upTo => exact not_isDigit_of_eq (isSlice_cons.mp hslice).1 (by decide) hunit

/-- Bounds are good when they ascend, allow a copy and keep to the limit. -/
theorem badBounds_eq_false_iff {count : ℕ} {limit : Option ℕ} :
    badBounds count limit = false ↔ count ≤ maxCountedRepetition ∧
      ∀ n, limit = some n → count ≤ n ∧ 1 ≤ n ∧ n ≤ maxCountedRepetition := by
  unfold badBounds
  cases limit with
  | none => simp
  | some n =>
    simp only [Option.any_some, Bool.or_eq_false_iff, decide_eq_false_iff_not, beq_eq_false_iff_ne,
      Option.some.injEq, ne_eq, Nat.not_lt, forall_eq']
    omega

/-- A counted repetition is read as a quantifier. -/
theorem yields_parseCountedRepetition_iff {atom expression : Hir}
    (hstart : p.units[index]? = some (ascii '{')) :
    Yields (p.parseCountedRepetition atom index) expression stop ↔
      ∃ text count limit, IsSlice p.units index text stop ∧ QuantifierText text count limit ∧
        expression = .mkRepeat atom count limit := by
  unfold parseCountedRepetition
  rw [yields_bind_iff]
  constructor
  · rintro ⟨count, middle, hle, hcount, hyields⟩
    obtain ⟨limit, last, hle', hlimit, hyields⟩ := yields_bind_iff.mp hyields
    obtain ⟨⟨text, hslice, htext⟩, hallowed, -⟩ := yields_parseCount_iff.mp ⟨hle, hcount⟩
    obtain ⟨text', hslice', hlimit⟩ := yields_parseLimit_iff.mp ⟨hle', hlimit⟩
    split at hyields
    next => exact absurd hyields not_yields_error
    next hgood =>
      obtain ⟨rfl, rfl⟩ := yields_pure.mp hyields
      obtain ⟨-, hbounds⟩ := badBounds_eq_false_iff.mp (Bool.not_eq_true _ ▸ hgood)
      refine ⟨ascii '{' :: (text ++ text'), count, limit, isSlice_cons.mpr
        ⟨hstart, isSlice_append.mpr ⟨middle, hslice, hslice'⟩⟩, ?_, rfl⟩
      cases hlimit with
      | exactly => exact .exactly htext (hbounds count rfl).2.1 hallowed
      | atLeast => exact .atLeast htext hallowed
      | upTo htext' =>
        have hlimits := hbounds _ rfl
        exact .between htext htext' hlimits.1 hlimits.2.1 hlimits.2.2
  · rintro ⟨text, count, limit, hslice, hquantifier, rfl⟩
    -- the count and what closes the quantifier
    have hparts : ∃ text' rest, text = ascii '{' :: (text' ++ rest) ∧ CountText text' count ∧
        LimitText count rest limit ∧ badBounds count limit = false := by
      cases hquantifier with
      | optional | star | plus =>
        rw [(isSlice_cons.mp hslice).1] at hstart
        exact absurd hstart (by decide)
      | exactly htext hpos hmax =>
        exact ⟨_, _, rfl, htext, .exactly, badBounds_eq_false_iff.mpr
          ⟨hmax, fun n hn => by
            obtain rfl := Option.some.inj hn
            exact ⟨Nat.le_refl _, hpos, hmax⟩⟩⟩
      | atLeast htext hmax =>
        exact ⟨_, _, rfl, htext, .atLeast, badBounds_eq_false_iff.mpr ⟨hmax, by simp⟩⟩
      | between htext htext' horder hpos hmax =>
        exact ⟨_, _, rfl, htext, .upTo htext' hmax, badBounds_eq_false_iff.mpr
          ⟨Nat.le_trans horder hmax, fun n hn => by
            obtain rfl := Option.some.inj hn; exact ⟨horder, hpos, hmax⟩⟩⟩
    obtain ⟨text', rest, rfl, htext, hlimit, hbounds⟩ := hparts
    obtain ⟨-, hslice⟩ := isSlice_cons.mp hslice
    obtain ⟨middle, hslice, hrest⟩ := isSlice_append.mp hslice
    have hmax := (badBounds_eq_false_iff.mp hbounds).1
    obtain ⟨hle, hcount⟩ := (@yields_parseCount_iff p (index + 1) middle index count).mpr
      ⟨⟨text', hslice, htext⟩, hmax, hlimit.not_isDigit hrest⟩
    obtain ⟨hle', hlimitRead⟩ := (@yields_parseLimit_iff p middle stop index count limit).mpr
      ⟨rest, hrest, hlimit⟩
    refine ⟨count, middle, hle, hcount, yields_bind_iff.mpr ⟨limit, stop, hle', hlimitRead, ?_⟩⟩
    rw [if_neg (by rw [hbounds]; decide)]
    exact yields_pure.mpr ⟨rfl, rfl⟩

/-- No repetition operator stands at an index. -/
def NoOperatorAt (p : Parser) (index : ℕ) : Prop :=
  ∀ unit, p.units[index]? = some unit → isRepetitionOperator unit = false

/-- A repetition is finished when no operator follows it. -/
theorem yields_finishRepetition_iff {parsed : Parsed index Hir} {expression : Hir} :
    Yields (p.finishRepetition index parsed) expression stop ↔
      parsed.value = expression ∧ parsed.index = stop ∧ p.NoOperatorAt stop := by
  have htest : (p.units[parsed.index]?).any isRepetitionOperator = true ↔
      ¬ p.NoOperatorAt parsed.index := by
    unfold NoOperatorAt
    cases p.units[parsed.index]? with
    | none => simp
    | some unit => simp
  unfold finishRepetition
  split
  next hoperator =>
    rw [htest] at hoperator
    constructor
    · exact fun h => absurd h not_yields_error
    · rintro ⟨-, rfl, hnone⟩
      exact absurd hnone hoperator
  next hoperator =>
    rw [htest, not_not] at hoperator
    constructor
    · rintro ⟨_, heq⟩
      cases heq
      exact ⟨rfl, rfl, hoperator⟩
    · rintro ⟨rfl, rfl, -⟩
      exact yields_of_eq_ok rfl

/-- At most one of two characters stands at an index. -/
theorem not_currentIs_of_ne {unit : UInt16} {expected : Char} (hget : p.units[index]? = some unit)
    (hne : unit ≠ ascii expected) : ¬ p.currentIs index expected = true := by
  rw [currentIs_iff, hget, Option.some.injEq]
  exact hne

/-- An optional quantifier is read as one, when no further repetition operator follows. -/
theorem yields_parseRepetition_iff {atom expression : Hir} :
    Yields (p.parseRepetition atom index) expression stop ↔ p.NoOperatorAt stop ∧
      ((expression = atom ∧ stop = index) ∨
        ∃ text count limit, IsSlice p.units index text stop ∧ QuantifierText text count limit ∧
          expression = .mkRepeat atom count limit) := by
  unfold parseRepetition
  constructor
  · intro h
    split_ifs at h with hoptional hstar hplus hbrace
    · obtain ⟨rfl, rfl, hnone⟩ := yields_finishRepetition_iff.mp h
      exact ⟨hnone, Or.inr ⟨_, _, _, isSlice_singleton.mpr ⟨currentIs_iff.mp hoptional, rfl⟩,
        .optional, rfl⟩⟩
    · obtain ⟨rfl, rfl, hnone⟩ := yields_finishRepetition_iff.mp h
      exact ⟨hnone, Or.inr ⟨_, _, _, isSlice_singleton.mpr ⟨currentIs_iff.mp hstar, rfl⟩,
        .star, rfl⟩⟩
    · obtain ⟨rfl, rfl, hnone⟩ := yields_finishRepetition_iff.mp h
      exact ⟨hnone, Or.inr ⟨_, _, _, isSlice_singleton.mpr ⟨currentIs_iff.mp hplus, rfl⟩,
        .plus, rfl⟩⟩
    · obtain ⟨repeated, middle, hle, hcounted, hyields⟩ := yields_bind_iff.mp h
      obtain ⟨rfl, rfl, hnone⟩ := yields_finishRepetition_iff.mp hyields
      exact ⟨hnone, Or.inr ((yields_parseCountedRepetition_iff (currentIs_iff.mp hbrace)).mp
        ⟨hle, hcounted⟩)⟩
    · obtain ⟨rfl, rfl⟩ := yields_ok.mp h
      refine ⟨fun unit hunit => ?_, Or.inl ⟨rfl, rfl⟩⟩
      -- the unit is none of the four operators
      rw [currentIs_iff, hunit, Option.some.injEq] at hoptional hstar hplus hbrace
      refine decide_eq_false ?_
      simp only [List.mem_cons, List.not_mem_nil, or_false, not_or]
      exact ⟨hoptional, hstar, hplus, hbrace⟩
  · rintro ⟨hnone, ⟨rfl, rfl⟩ | ⟨text, count, limit, hslice, hquantifier, rfl⟩⟩
    · have hnot : ∀ expected, isRepetitionOperator (ascii expected) = true →
          ¬ p.currentIs stop expected = true := by
        intro expected hoperator hcurrent
        rw [hnone _ (currentIs_iff.mp hcurrent)] at hoperator
        exact Bool.false_ne_true hoperator
      rw [if_neg (hnot _ (by decide)), if_neg (hnot _ (by decide)), if_neg (hnot _ (by decide)),
        if_neg (hnot _ (by decide))]
      exact yields_ok.mpr ⟨rfl, rfl⟩
    · have hcounted : p.units[index]? = some (ascii '{') →
          Yields (p.parseRepetition atom index) (.mkRepeat atom count limit) stop := by
        intro hget
        unfold parseRepetition
        rw [if_neg (not_currentIs_of_ne hget (by decide)),
          if_neg (not_currentIs_of_ne hget (by decide)),
          if_neg (not_currentIs_of_ne hget (by decide)), if_pos (currentIs_iff.mpr hget)]
        obtain ⟨hle, hread⟩ := (yields_parseCountedRepetition_iff hget).mpr
          ⟨text, count, limit, hslice, hquantifier, rfl⟩
        exact yields_bind_iff.mpr
          ⟨_, _, hle, hread, yields_finishRepetition_iff.mpr ⟨rfl, rfl, hnone⟩⟩
      cases hquantifier with
      | optional =>
        obtain ⟨hget, rfl⟩ := isSlice_singleton.mp hslice
        rw [if_pos (currentIs_iff.mpr hget)]
        exact yields_finishRepetition_iff.mpr ⟨rfl, rfl, hnone⟩
      | star =>
        obtain ⟨hget, rfl⟩ := isSlice_singleton.mp hslice
        rw [if_neg (not_currentIs_of_ne hget (by decide)), if_pos (currentIs_iff.mpr hget)]
        exact yields_finishRepetition_iff.mpr ⟨rfl, rfl, hnone⟩
      | plus =>
        obtain ⟨hget, rfl⟩ := isSlice_singleton.mp hslice
        rw [if_neg (not_currentIs_of_ne hget (by decide)),
          if_neg (not_currentIs_of_ne hget (by decide)), if_pos (currentIs_iff.mpr hget)]
        exact yields_finishRepetition_iff.mpr ⟨rfl, rfl, hnone⟩
      | exactly => exact hcounted (isSlice_cons.mp hslice).1
      | atLeast => exact hcounted (isSlice_cons.mp hslice).1
      | between => exact hcounted (isSlice_cons.mp hslice).1

end Parser

end Rustmatch

import Rustmatch.Parser.Accepts
import Rustmatch.Parser.Checked
import Rustmatch.ToMathlib.ExceptRelations

/-!
# The parser is safe

The parser with its panics does what the parser without them does, and never panics: every unit it
indexes is there, no index leaves the range of a text, the groups that are open are counted right,
and fuel linear in the text suffices. When it stops with an error, the error says where: the span of
an invalid pattern lies inside the text, is not empty, and begins no later than the parser got.

The proof follows the two parsers side by side, one lemma for each function.

## Main definitions

* `Ready`: the states the parser is in between two operations;
* `Refused`: how it stops;
* `Agrees`: the results of the two parsers.

## Main results

* `agreesFrom`: the recursive part;
* `parsing_is_safe`: whole registrations.
-/

namespace Rustmatch

namespace Checked

/-- The states between two operations, with `depth` groups open. -/
structure Ready (p : Parser) (depth : ℕ) (cursor : Cursor) : Prop where
  /-- The index lies in the text, or at its end. -/
  index_le : cursor.index ≤ p.units.length
  /-- The open groups are counted. -/
  groupDepth_eq : cursor.groupDepth = depth
  /-- They are no more than the limit. -/
  depth_le : depth ≤ maxGroupNesting
  /-- They never were. -/
  deepest_le : cursor.deepest ≤ maxGroupNesting
  /-- No group beyond the limit was begun. -/
  attempted_le : cursor.attempted ≤ maxGroupNesting

/-- What an error says about the text and the state the parser stopped in. -/
def Explains (p : Parser) (reason : Error) (cursor : Cursor) : Prop :=
  match reason with
  | .invalidPattern patternId span =>
    patternId = p.patternId ∧ span.start < span.stop ∧ span.stop ≤ p.units.length ∧
      span.start ≤ cursor.index ∧ cursor.attempted ≤ maxGroupNesting
  | .patternNestingTooDeep patternId limit =>
    patternId = p.patternId ∧ limit = maxGroupNesting ∧ cursor.attempted = maxGroupNesting + 1
  | _ => False

/-- A run that began with `depth` groups open stopped with an error. -/
structure Refused (p : Parser) (depth : ℕ) (reason : Error) (stopped : Stopped) : Prop where
  /-- The run stopped with this error. -/
  stop_eq : stopped.stop = .error reason
  /-- The index lies in the text, or at its end. -/
  index_le : stopped.cursor.index ≤ p.units.length
  /-- The groups that were open before are still counted. -/
  groupDepth_eq : stopped.cursor.groupDepth = depth
  /-- The open groups never were more than the limit. -/
  deepest_le : stopped.cursor.deepest ≤ maxGroupNesting
  /-- The error is right about the text. -/
  explains : Explains p reason stopped.cursor

/-- What one parser read, the other read with its state behind it. -/
def Reached {α : Type} (p : Parser) (depth : ℕ) {start : ℕ} (x : Parsed start α)
    (out : α × Cursor) : Prop :=
  out.1 = x.value ∧ out.2.index = x.index ∧ Ready p depth out.2

/-- The two parsers read the same, or both stop with the same error. -/
def Agrees {α : Type} (p : Parser) (depth : ℕ) {start : ℕ} :
    Except Error (Parsed start α) → Except Stopped (α × Cursor) → Prop :=
  Except.Relates (Refused p depth) (Reached p depth)

/-! ### Single operations -/

section Operations

variable {α β : Type} {c : Cursor}

/-- Asking for the position changes nothing. -/
theorem position_bind (next : ℕ → Checked β) : (position >>= next) c = next c.index c := rfl

/-- Looking at the current unit changes nothing. -/
theorem currentIs_bind (p : Parser) (expected : Char) (next : Bool → Checked β) :
    (currentIs p expected >>= next) c = next (p.currentIs c.index expected) c := rfl

/-- A pure value is handed on. -/
theorem pure_bind_run (value : α) (next : α → Checked β) : (pure value >>= next) c = next value c :=
  rfl

/-- An index inside a text can be advanced. -/
theorem advance_bind (hc : c.index ≤ maxUnits) (next : Unit → Checked β) :
    (advance >>= next) c = next () { c with index := c.index + 1 } := by
  have hadvance : advance c = .ok ((), { c with index := c.index + 1 }) := by
    unfold maxUnits at hc
    exact if_pos (by unfold usizeMax; omega)
  show (advance c >>= fun out => next out.1 out.2) = _
  rw [hadvance]
  rfl

/-- An index inside a text has a successor. -/
theorem successor_eq {index : ℕ} (hindex : index ≤ maxUnits) :
    successor index = pure (index + 1) := by
  unfold maxUnits at hindex
  exact if_pos (by unfold usizeMax; omega)

/-- An index inside the text can be read. -/
theorem unitAt_eq {units : List UInt16} {index : ℕ} (h : index < units.length) :
    unitAt units index = pure units[index] := by
  rw [unitAt, List.getElem?_eq_getElem h]

/-- The value of a digit does not underflow. -/
theorem digitOf_eq {unit : UInt16} (h : ascii '0' ≤ unit) :
    digitOf unit = pure (unit - ascii '0').toNat := if_pos h

/-- The shorthand of a shorthand unit exists. -/
theorem shorthand_eq {unit : UInt16} (h : isShorthand unit = true) :
    shorthand unit = pure (Rustmatch.shorthand unit h) := by
  unfold shorthand Rustmatch.shorthand
  split
  · rfl
  · split
    · rfl
    · split
      · rfl
      · split
        · rfl
        · split
          · rfl
          · split
            · rfl
            · exact absurd h (by simp_all [isShorthand])

end Operations

/-- Behind a unit the state is ready again. -/
theorem Ready.next {p : Parser} {depth : ℕ} {c : Cursor} (h : Ready p depth c)
    (hlt : c.index < p.units.length) : Ready p depth { c with index := c.index + 1 } where
  index_le := hlt
  groupDepth_eq := h.groupDepth_eq
  depth_le := h.depth_le
  deepest_le := h.deepest_le
  attempted_le := h.attempted_le

namespace Agrees

variable {α β : Type} {p : Parser} {depth : ℕ} {c : Cursor} {s t : ℕ}

/-- Both parsers have read something. -/
theorem read {value : α} {x : Parsed s α} {c' : Cursor} (hvalue : value = x.value)
    (hindex : c'.index = x.index) (hready : Ready p depth c') :
    Agrees p depth (.ok x) (.ok (value, c')) :=
  .ok ⟨hvalue, hindex, hready⟩

/-- Both parsers refuse a part of the text. -/
theorem refuse (hp : p.units.length ≤ maxUnits) (h : Ready p depth c) {start stop : ℕ}
    (hlt : start < stop) (hstop : stop ≤ p.units.length) (hstart : start ≤ c.index) :
    @Agrees α p depth s (.error (p.invalid start stop)) (Checked.refuse p start stop c) := by
  have hinvalid : p.invalid start stop = .invalidPattern p.patternId ⟨start, stop⟩ := by
    unfold maxUnits at hp
    exact if_pos ⟨by omega, by omega⟩
  refine .error ⟨rfl, h.index_le, h.groupDepth_eq, h.deepest_le, ?_⟩
  rw [hinvalid]
  exact ⟨rfl, hlt, hstop, hstart, h.attempted_le⟩

/-- Both parsers go on from where they are, with what has been read. -/
theorem bind_of_eq {call : Except Error (Parsed s α)} {run : Checked α}
    {next : Parsed s α → Except Error (Parsed t β)} {next' : α → Checked β}
    (h : Agrees p depth call (run c))
    (hnext : ∀ value c' (hle : s ≤ c'.index), call = .ok ⟨value, c'.index, hle⟩ →
      Ready p depth c' → Agrees p depth (next ⟨value, c'.index, hle⟩) (next' value c')) :
    Agrees p depth (call >>= next) ((run >>= next') c) := by
  refine Except.Relates.bind h fun x out heq hreached => ?_
  obtain ⟨value, index, hle⟩ := x
  obtain ⟨value', c'⟩ := out
  obtain ⟨hvalue, hindex, hready⟩ := hreached
  obtain rfl : value' = value := hvalue
  obtain rfl : c'.index = index := hindex
  exact hnext value' c' hle heq hready

/-- Both parsers go on from where they are. -/
theorem bind {call : Except Error (Parsed s α)} {run : Checked α}
    {next : Parsed s α → Except Error (Parsed t β)} {next' : α → Checked β}
    (h : Agrees p depth call (run c))
    (hnext : ∀ value c' (hle : s ≤ c'.index), Ready p depth c' →
      Agrees p depth (next ⟨value, c'.index, hle⟩) (next' value c')) :
    Agrees p depth (call >>= next) ((run >>= next') c) :=
  h.bind_of_eq fun value c' hle _ => hnext value c' hle

/-- Both parsers look at the same condition. -/
theorem ite {P Q : Prop} [Decidable P] [Decidable Q] {call other : Except Error (Parsed s α)}
    {run rest : Checked α} (hcond : P ↔ Q) (hpos : P → Agrees p depth call (run c))
    (hneg : ¬ P → Agrees p depth other (rest c)) :
    Agrees p depth (if P then call else other) ((if Q then run else rest) c) := by
  by_cases h : P
  · rw [if_pos h, if_pos (hcond.mp h)]
    exact hpos h
  · rw [if_neg h, if_neg (mt hcond.mpr h)]
    exact hneg h

/-- What is read from an index on is read from an earlier one on. -/
theorem weaken {call : Except Error (Parsed t α)} {run : Except Stopped (α × Cursor)}
    (h : Agrees p depth call run) (hle : s ≤ t) :
    Agrees p depth (call >>= fun x => pure (x.weaken hle)) run := by
  cases h with
  | ok h => exact .ok h
  | error h => exact .error h

end Agrees

/-! ### Escapes and character classes -/

section Phrases

variable {p : Parser} {depth : ℕ} {c : Cursor}

/-- `parse_escape` does what the model says. -/
theorem agrees_parseEscape (hp : p.units.length ≤ maxUnits) (h : Ready p depth c)
    (hlt : c.index < p.units.length) :
    Agrees p depth (p.parseEscape c.index) (parseEscape p c) := by
  have hnext := h.next hlt
  unfold parseEscape Parser.parseEscape
  rw [position_bind, advance_bind (by omega), position_bind]
  cases hget : p.units[c.index + 1]? with
  | none => exact Agrees.refuse hp hnext (by omega) (by omega) (Nat.le_succ _)
  | some escaped =>
    have hlt' : c.index + 1 < p.units.length := (List.getElem?_eq_some_iff.mp hget).1
    have hnext' := hnext.next hlt'
    -- every escape that is known reads two units and opens no group
    have hread : ∀ expression : Hir, Agrees p depth
        (.ok (⟨expression, c.index + 2, Nat.le_succ _⟩ : Parsed (c.index + 1) Hir))
        ((pure expression : Checked Hir) { c with index := c.index + 2 }) := fun expression =>
      Agrees.read rfl rfl hnext'
    show Agrees p depth _ ((advance >>= _) _)
    rw [advance_bind (by omega : c.index + 1 ≤ maxUnits)]
    refine .ite Iff.rfl (fun _ => hread _) fun _ => ?_
    refine .ite Iff.rfl (fun _ => hread _) fun _ => ?_
    refine .ite Iff.rfl (fun _ => hread _) fun _ => ?_
    refine .ite Iff.rfl (fun _ => hread _) fun _ => ?_
    refine .ite Iff.rfl (fun _ => hread _) fun _ => ?_
    by_cases hshorthand : isShorthand escaped = true
    · rw [dif_pos hshorthand, if_pos hshorthand, shorthand_eq hshorthand]
      exact hread _
    · rw [dif_neg hshorthand, if_neg hshorthand]
      refine .ite Iff.rfl (fun _ => hread _) fun _ => ?_
      refine .ite Iff.rfl (fun _ => hread _) fun _ => ?_
      exact Agrees.refuse hp hnext' (by omega) hlt' (by show c.index ≤ c.index + 2; omega)

/-- `parse_class_token` does what the model says. -/
theorem agrees_parseClassToken (hp : p.units.length ≤ maxUnits) (h : Ready p depth c)
    (hlt : c.index < p.units.length) :
    Agrees p depth (p.parseClassToken c.index hlt) (parseClassToken p c) := by
  have hnext := h.next hlt
  unfold parseClassToken Parser.parseClassToken
  rw [position_bind, unitAt_eq hlt, pure_bind_run, advance_bind (by omega)]
  refine .ite Iff.rfl (fun _ => Agrees.read rfl rfl hnext) fun _ => ?_
  refine .ite Iff.rfl (fun _ => Agrees.read rfl rfl hnext) fun _ => ?_
  rw [position_bind]
  cases hget : p.units[c.index + 1]? with
  | none => exact Agrees.refuse hp hnext (by omega) (by omega) (Nat.le_succ _)
  | some escaped =>
    have hlt' : c.index + 1 < p.units.length := (List.getElem?_eq_some_iff.mp hget).1
    have hnext' := hnext.next hlt'
    -- every escape that is known reads two units and opens no group
    have hread : ∀ token : ClassToken, Agrees p depth
        (.ok (⟨token, c.index + 2, Nat.le_succ _⟩ : Parsed (c.index + 1) ClassToken))
        ((pure token : Checked ClassToken) { c with index := c.index + 2 }) := fun token =>
      Agrees.read rfl rfl hnext'
    show Agrees p depth _ ((advance >>= _) _)
    rw [advance_bind (by omega : c.index + 1 ≤ maxUnits)]
    refine .ite Iff.rfl (fun _ => hread _) fun _ => ?_
    refine .ite Iff.rfl (fun _ => hread _) fun _ => ?_
    refine .ite Iff.rfl (fun _ => hread _) fun _ => ?_
    refine .ite Iff.rfl (fun _ => hread _) fun _ => ?_
    refine .ite Iff.rfl (fun _ => hread _) fun _ => ?_
    by_cases hmember : escaped ∈ ([0x64, 0x77, 0x73] : List UInt16)
    · have hshorthand : isShorthand escaped = true := by
        simp_all [isShorthand]
        tauto
      rw [dif_pos hmember, if_pos hmember, shorthand_eq hshorthand]
      exact hread _
    · rw [dif_neg hmember, if_neg hmember]
      exact Agrees.refuse hp hnext' (by omega) hlt' (by show c.index ≤ c.index + 2; omega)

/-- The literals that wait stand before an index. -/
def Placed (bound : ℕ) (state : Parser.ClassState) : Prop :=
  (∀ x ∈ state.pendingLiteral, x.2 < bound) ∧ ∀ x ∈ state.rangeStart, x.2 < bound

/-- What waits before a bound waits before a later one. -/
theorem Placed.mono {state : Parser.ClassState} {bound bound' : ℕ} (h : Placed bound state)
    (hle : bound ≤ bound') : Placed bound' state :=
  ⟨fun x hx => Nat.lt_of_lt_of_le (h.1 x hx) hle, fun x hx => Nat.lt_of_lt_of_le (h.2 x hx) hle⟩

/-- At first nothing waits. -/
theorem placed_initial (bound : ℕ) : Placed bound .initial :=
  ⟨fun x hx => absurd hx (Option.not_mem_none x), fun x hx => absurd hx (Option.not_mem_none x)⟩

/-- Both parsers do the same with a token that stands before the index. -/
theorem relates_pushToken (hp : p.units.length ≤ maxUnits) (h : Ready p depth c) {start : ℕ}
    (hstart : start < c.index) {state : Parser.ClassState} (hstate : Placed c.index state)
    {token : ClassToken} (htoken : (∃ unit place, token = .literal unit place ∧ place < c.index) ∨
      (∃ place, token = .rangeMarker place ∧ place < c.index) ∨
      ∃ members, token = .predicate members) :
    Except.Relates (Refused p depth) (fun next out => out = (next, c) ∧ Placed c.index next)
      (state.push p start c.index token) (pushToken p start state token c) := by
  have hle := h.index_le
  -- an error stops both, without anything read
  have hrefuse : ∀ place, place < c.index → Except.Relates (Refused p depth)
      (fun (next : Parser.ClassState) out => out = (next, c) ∧ Placed c.index next)
      (.error (p.invalid place c.index)) (refuse p place c.index c) := by
    intro place hplace
    have hagrees := @Agrees.refuse Parser.ClassState p depth c 0 hp h place c.index hplace hle
      (Nat.le_of_lt hplace)
    cases hagrees with
    | error hrefused => exact .error hrefused
  obtain ⟨unit, place, rfl, hplace⟩ | ⟨place, rfl, hplace⟩ | ⟨members, rfl⟩ := htoken
  · unfold pushToken Parser.ClassState.push
    cases hwaits : state.rangeStart with
    | none =>
      refine .ok ⟨rfl, fun x hx => ?_, fun x hx => by cases hx⟩
      obtain rfl := Option.some.inj hx
      exact hplace
    | some waiting =>
      obtain ⟨first, rangePlace⟩ := waiting
      simp only
      cases p.insertClassRange state.predicate first unit with
      | none => exact hrefuse rangePlace (hstate.2 _ hwaits)
      | some predicate => exact .ok ⟨rfl, hstate.1, fun x hx => by cases hx⟩
  · unfold pushToken Parser.ClassState.push
    cases hwaits : state.pendingLiteral with
    | none => exact hrefuse place hplace
    | some waiting =>
      refine .ok ⟨rfl, (fun x hx => by cases hx), fun x hx => ?_⟩
      obtain rfl := Option.some.inj hx
      exact hstate.1 _ hwaits
  · unfold pushToken Parser.ClassState.push
    simp only
    by_cases hrange : state.rangeStart.isSome = true
    · rw [if_pos hrange, if_pos hrange]
      exact hrefuse start hstart
    · rw [if_neg hrange, if_neg hrange]
      exact .ok ⟨rfl, (fun x hx => by cases hx), hstate.2⟩

/-- The loop over the tokens of a class does what the model says. -/
theorem agrees_parseClassItems (hp : p.units.length ≤ maxUnits) {start fuel : ℕ}
    {state : Parser.ClassState} (h : Ready p depth c) (hstart : start < c.index)
    (hstate : Placed c.index state) (hfuel : p.units.length - c.index < fuel) :
    Agrees p depth (p.parseClassItems start c.index state)
      (parseClassItems p start fuel state c) := by
  have hle := h.index_le
  induction fuel generalizing c state with
  | zero => exact absurd hfuel (Nat.not_lt_zero _)
  | succ fuel ih =>
    rw [parseClassItems, Parser.parseClassItems, position_bind]
    by_cases hlt : c.index < p.units.length
    · rw [dif_pos hlt, List.getElem?_eq_getElem hlt]
      refine .ite Iff.rfl (fun _ => ?_) fun hunit => ?_
      · refine .ite Iff.rfl (fun _ => ?_) fun _ => ?_
        · rw [successor_eq (by omega)]
          exact Agrees.refuse hp h (by omega) hlt (Nat.le_of_lt hstart)
        · show Agrees p depth _ ((advance >>= _) _)
          rw [advance_bind (by omega)]
          exact Agrees.read rfl rfl (h.next hlt)
      · refine (agrees_parseClassToken hp h hlt).bind_of_eq fun token c₁ hle₁ htoken h₁ => ?_
        obtain ⟨text, -, hkind⟩ := Parser.parseClassToken_eq_ok htoken hunit
        -- the positions that a token carries lie behind the index
        have hplaced : (∃ unit place, token = .literal unit place ∧ place < c₁.index) ∨
            (∃ place, token = .rangeMarker place ∧ place < c₁.index) ∨
            ∃ members, token = .predicate members := by
          obtain ⟨unit, htoken, -⟩ | ⟨htoken, -⟩ | ⟨members, htoken, -⟩ := hkind
          · exact Or.inl ⟨unit, c.index, htoken, hle₁⟩
          · exact Or.inr (Or.inl ⟨c.index, htoken, hle₁⟩)
          · exact Or.inr (Or.inr ⟨members, htoken⟩)
        have hpush := relates_pushToken hp h₁ (Nat.lt_trans hstart hle₁)
          (hstate.mono (Nat.le_of_succ_le hle₁)) hplaced
        refine Except.Relates.bind hpush fun next out _ hnext => ?_
        obtain ⟨rfl, hnext⟩ := hnext
        have hle' := h₁.index_le
        -- the token was read from the text, so the fuel is enough for the rest
        exact (ih h₁ (Nat.lt_trans hstart hle₁) hnext (by omega) hle').weaken
          (Nat.le_of_succ_le hle₁)
    · rw [dif_neg hlt, List.getElem?_eq_none (Nat.not_lt.mp hlt)]
      exact Agrees.refuse hp h hstart hle (Nat.le_of_lt hstart)

/-- The body of a class is read as the model says. -/
theorem agrees_parseClassBody (hp : p.units.length ≤ maxUnits) {start fuel : ℕ}
    (h : Ready p depth c) (hstart : start < c.index) (hfuel : p.units.length - c.index < fuel)
    (inverted : Bool) :
    Agrees p depth (p.parseClassBody start c.index inverted)
      (parseClassBody p fuel start inverted c) :=
  (agrees_parseClassItems hp h hstart (placed_initial _) hfuel).bind
    fun _ _ _ h' => Agrees.read rfl rfl h'

/-- `parse_character_class` does what the model says. -/
theorem agrees_parseCharacterClass (hp : p.units.length ≤ maxUnits) {fuel : ℕ}
    (h : Ready p depth c) (hlt : c.index < p.units.length)
    (hfuel : p.units.length - c.index ≤ fuel) :
    Agrees p depth (p.parseCharacterClass c.index) (parseCharacterClass p fuel c) := by
  have hnext := h.next hlt
  unfold parseCharacterClass Parser.parseCharacterClass
  rw [position_bind, advance_bind (by omega), currentIs_bind]
  refine .ite Iff.rfl (fun hinverted => ?_) fun _ => ?_
  · have hlt' : c.index + 1 < p.units.length := Parser.lt_length_of_currentIs hinverted
    show Agrees p depth _ ((advance >>= _) _)
    rw [advance_bind (by omega : c.index + 1 ≤ maxUnits)]
    exact (agrees_parseClassBody hp (hnext.next hlt') (by show c.index < c.index + 2; omega)
      (by show p.units.length - (c.index + 2) < fuel; omega) true).weaken _
  · exact agrees_parseClassBody hp hnext (Nat.lt_succ_self _)
      (by show p.units.length - (c.index + 1) < fuel; omega) false

/-! ### Repetitions -/

/-- Digits are read to their end, and the value stays small. -/
theorem reached_parseDigits (hp : p.units.length ≤ maxUnits) {fuel value : ℕ} (h : Ready p depth c)
    (hvalue : value ≤ maxCountedRepetition + 1) (hfuel : p.units.length - c.index < fuel) :
    ∃ c', parseDigits p fuel value c = .ok ((p.parseDigits c.index value).value, c') ∧
      c'.index = (p.parseDigits c.index value).index ∧ Ready p depth c' ∧
      (p.parseDigits c.index value).value ≤ maxCountedRepetition + 1 := by
  have hle := h.index_le
  induction fuel generalizing c value with
  | zero => exact absurd hfuel (Nat.not_lt_zero _)
  | succ fuel ih =>
    rw [parseDigits, Parser.parseDigits, position_bind]
    cases hget : p.units[c.index]? with
    | none => exact ⟨c, rfl, rfl, h, hvalue⟩
    | some unit =>
      have hlt := (List.getElem?_eq_some_iff.mp hget).1
      by_cases hdigit : ascii '0' ≤ unit ∧ unit ≤ ascii '9'
      · simp only [if_pos hdigit, digitOf_eq hdigit.1]
        -- the value is clamped, so it stays small enough for its type
        obtain ⟨c', hrun, hindex, hready, hsmall⟩ := @ih { c with index := c.index + 1 }
          (Parser.countDigit value (unit - ascii '0').toNat) (h.next hlt) (Nat.min_le_right _ _)
          (by show p.units.length - (c.index + 1) < fuel; omega) hlt
        refine ⟨c', ?_, hindex, hready, hsmall⟩
        rw [pure_bind_run, advance_bind (by omega)]
        exact hrun
      · simp only [if_neg hdigit]
        exact ⟨c, rfl, rfl, h, hvalue⟩

/-- The first count of a repetition is read as the model says. -/
theorem agrees_parseCount (hp : p.units.length ≤ maxUnits) {fuel start : ℕ} (h : Ready p depth c)
    (hstart : start < c.index) (hfuel : p.units.length - c.index < fuel) :
    Agrees p depth (p.parseCount start c.index) (parseCount p fuel start c) := by
  have hle := h.index_le
  obtain ⟨c', hrun, hindex, hready, hsmall⟩ :=
    @reached_parseDigits p depth c hp fuel 0 h (Nat.zero_le _) hfuel
  have hlater := (p.parseDigits c.index 0).start_le
  have hle' := hready.index_le
  have hdigits : ∀ next : ℕ → Checked ℕ, (parseDigits p fuel 0 >>= next) c =
      next (p.parseDigits c.index 0).value c' := by
    intro next
    show (parseDigits p fuel 0 c >>= fun out => next out.1 out.2) = _
    rw [hrun]
    rfl
  unfold parseCount Parser.parseCount
  rw [position_bind, hdigits, position_bind]
  refine .ite (by rw [hindex]) (fun _ => ?_) fun hcount => ?_
  · rw [successor_eq (by omega), hindex]
    exact Agrees.refuse hp hready (by omega) (by omega) (by omega)
  -- a count that is accepted fits sixteen bits, so the conversion cannot fail
  · have hlt : (p.parseDigits c.index 0).value < 2 ^ 16 := by
      unfold maxCountedRepetition at hsmall
      omega
    rw [countOf, if_pos hlt]
    exact Agrees.read rfl hindex hready

/-- The second count of a repetition is read as the model says. -/
theorem agrees_parseLimit (hp : p.units.length ≤ maxUnits) {fuel start : ℕ} (h : Ready p depth c)
    (hstart : start < c.index) (hfuel : p.units.length - c.index < fuel) (count : ℕ) :
    Agrees p depth (p.parseLimit start c.index count) (parseLimit p fuel start count c) := by
  have hle := h.index_le
  unfold parseLimit Parser.parseLimit
  rw [currentIs_bind]
  refine .ite Iff.rfl (fun hclose => ?_) fun _ => ?_
  · rw [advance_bind (by omega)]
    exact Agrees.read rfl rfl (h.next (Parser.lt_length_of_currentIs hclose))
  rw [currentIs_bind]
  refine .ite Iff.rfl (fun hcomma => ?_) fun _ => ?_
  · have hlt := Parser.lt_length_of_currentIs hcomma
    have hnext := h.next hlt
    rw [advance_bind (by omega), currentIs_bind]
    refine .ite Iff.rfl (fun hclose => ?_) fun _ => ?_
    · have hlt' : c.index + 1 < p.units.length := Parser.lt_length_of_currentIs hclose
      rw [advance_bind (by omega : c.index + 1 ≤ maxUnits)]
      exact Agrees.read rfl rfl (hnext.next hlt')
    · refine (agrees_parseCount hp hnext (by show start < c.index + 1; omega)
        (by show p.units.length - (c.index + 1) < fuel; omega)).bind fun limit c' hle' h' => ?_
      have hle'' : c.index + 1 ≤ c'.index := hle'
      have hbound := h'.index_le
      rw [currentIs_bind]
      refine .ite Iff.rfl (fun _ => ?_) fun hopen => ?_
      · rw [position_bind]
        dsimp only
        exact Agrees.refuse hp h' (by omega) (by omega) (by omega)
      · rw [advance_bind (by omega)]
        exact Agrees.read rfl rfl (h'.next (Parser.lt_length_of_currentIs (by simpa using hopen)))
  · rw [position_bind]
    exact Agrees.refuse hp h (by omega) (by omega) (by omega)

/-- A counted repetition is read as the model says. -/
theorem agrees_parseCountedRepetition (hp : p.units.length ≤ maxUnits) {fuel : ℕ}
    (h : Ready p depth c) (hlt : c.index < p.units.length)
    (hfuel : p.units.length - c.index ≤ fuel) (expression : Hir) :
    Agrees p depth (p.parseCountedRepetition expression c.index)
      (parseCountedRepetition p fuel expression c) := by
  unfold parseCountedRepetition Parser.parseCountedRepetition
  rw [position_bind, advance_bind (by omega)]
  refine (agrees_parseCount hp (h.next hlt) (Nat.lt_succ_self _)
    (by show p.units.length - (c.index + 1) < fuel; omega)).bind fun count c₁ hle₁ h₁ => ?_
  have hle₁ : c.index + 1 ≤ c₁.index := hle₁
  have hbound₁ := h₁.index_le
  refine (agrees_parseLimit hp h₁ hle₁ (by omega) count).bind fun limit c₂ hle₂ h₂ => ?_
  have hle₂ : c₁.index ≤ c₂.index := hle₂
  have hbound₂ := h₂.index_le
  refine .ite Iff.rfl (fun _ => ?_) fun _ => Agrees.read rfl rfl h₂
  rw [position_bind]
  dsimp only
  exact Agrees.refuse hp h₂ (by omega) hbound₂ (by omega)

/-- A second quantifier is refused as the model says. -/
theorem agrees_finishRepetition (hp : p.units.length ≤ maxUnits) {start : ℕ} (h : Ready p depth c)
    (hstart : start ≤ c.index) (repeated : Hir) :
    Agrees p depth (p.finishRepetition start ⟨repeated, c.index, hstart⟩)
      (finishRepetition p start repeated c) := by
  have hle := h.index_le
  unfold finishRepetition Parser.finishRepetition
  rw [position_bind]
  refine .ite Iff.rfl (fun hoperator => ?_) fun _ => Agrees.read rfl rfl h
  have hlt : c.index < p.units.length := by
    by_contra hend
    simp only [List.getElem?_eq_none (Nat.not_lt.mp hend), Option.any_none] at hoperator
    cases hoperator
  rw [successor_eq (by omega)]
  dsimp only
  exact Agrees.refuse hp h (by omega) hlt hstart

/-- `parse_repetition` does what the model says. -/
theorem agrees_parseRepetition (hp : p.units.length ≤ maxUnits) {fuel : ℕ} (h : Ready p depth c)
    (hfuel : p.units.length - c.index ≤ fuel) (expression : Hir) :
    Agrees p depth (p.parseRepetition expression c.index)
      (parseRepetition p fuel expression c) := by
  have hle := h.index_le
  unfold parseRepetition Parser.parseRepetition
  rw [position_bind]
  have hoperator : ∀ {expected : Char} (value : Hir), p.currentIs c.index expected = true →
      Agrees p depth (p.finishRepetition c.index ⟨value, c.index + 1, Nat.le_succ _⟩)
        ((advance >>= fun _ => finishRepetition p c.index value) c) := by
    intro expected value hcurrent
    rw [advance_bind (by omega)]
    exact agrees_finishRepetition hp (h.next (Parser.lt_length_of_currentIs hcurrent))
      (Nat.le_succ _) value
  refine .ite Iff.rfl (fun hcurrent => hoperator _ hcurrent) fun _ => ?_
  refine .ite Iff.rfl (fun hcurrent => hoperator _ hcurrent) fun _ => ?_
  refine .ite Iff.rfl (fun hcurrent => hoperator _ hcurrent) fun _ => ?_
  refine .ite Iff.rfl (fun hcurrent => ?_) fun _ => Agrees.read rfl rfl h
  exact (agrees_parseCountedRepetition hp h (Parser.lt_length_of_currentIs hcurrent) hfuel
    expression).bind
    fun repeated c' hle' h' => agrees_finishRepetition hp h' hle' repeated

/-! ### Expressions -/

/-- The recursive functions with `fuel` left; each call needs more fuel than the calls it makes. -/
structure AgreesFrom (p : Parser) (fuel : ℕ) : Prop where
  /-- A group; of all the calls it needs the least fuel. -/
  group : ∀ {depth c}, Ready p depth c → (hlt : c.index < p.units.length) →
    7 * (p.units.length - c.index) < fuel →
    Agrees p depth (p.parseGroup depth c.index hlt) (parseGroup p fuel c)
  /-- An atom may be a group. -/
  atom : ∀ {depth c}, Ready p depth c → (hlt : c.index < p.units.length) →
    7 * (p.units.length - c.index) + 1 < fuel →
    Agrees p depth (p.parseAtom depth c.index hlt) (parseAtom p fuel c)
  /-- The items of a sequence are atoms. -/
  items : ∀ {depth c}, Ready p depth c → 7 * (p.units.length - c.index) + 2 < fuel →
    ∀ inGroup, Agrees p depth (p.parseItems inGroup depth c.index) (parseItems p fuel inGroup c)
  /-- A sequence has items. -/
  sequence : ∀ {depth c}, Ready p depth c → 7 * (p.units.length - c.index) + 3 < fuel →
    ∀ inGroup,
      Agrees p depth (p.parseSequence inGroup depth c.index) (parseSequence p fuel inGroup c)
  /-- The branches of an alternation are sequences. -/
  branches : ∀ {depth c}, Ready p depth c → 7 * (p.units.length - c.index) + 4 < fuel →
    ∀ inGroup,
      Agrees p depth (p.parseBranches inGroup depth c.index) (parseBranches p fuel inGroup c)
  /-- An alternation has branches. -/
  alternation : ∀ {depth c}, Ready p depth c → 7 * (p.units.length - c.index) + 5 < fuel →
    ∀ inGroup,
      Agrees p depth (p.parseAlternation inGroup depth c.index) (parseAlternation p fuel inGroup c)
  /-- The body of a group is an alternation. -/
  groupBody : ∀ {depth c start}, Ready p depth c → 7 * (p.units.length - c.index) + 6 < fuel →
    start < c.index →
    Agrees p depth (p.parseGroupBody depth start c.index) (parseGroupBody p fuel start c)

variable {fuel : ℕ}

/-- A group agrees when its body does, with less fuel. -/
theorem AgreesFrom.parseGroup_succ (hagrees : AgreesFrom p fuel) (hp : p.units.length ≤ maxUnits)
    (h : Ready p depth c) (hlt : c.index < p.units.length)
    (hfuel : 7 * (p.units.length - c.index) < fuel + 1) :
    Agrees p depth (p.parseGroup depth c.index hlt) (parseGroup p (fuel + 1) c) := by
  have hnext := h.next hlt
  rw [parseGroup, Parser.parseGroup, position_bind, advance_bind (by omega), currentIs_bind]
  refine .ite Iff.rfl (fun hquestion => ?_) fun _ => ?_
  · have hlt₁ : c.index + 1 < p.units.length := Parser.lt_length_of_currentIs hquestion
    have hnext₁ := hnext.next hlt₁
    rw [advance_bind (by omega : c.index + 1 ≤ maxUnits), currentIs_bind]
    refine .ite Iff.rfl (fun _ => ?_) fun hcolon => ?_
    · rw [position_bind]
      dsimp only
      exact Agrees.refuse hp hnext₁ (by omega) (by omega) (by show c.index ≤ c.index + 2; omega)
    · have hlt₂ : c.index + 2 < p.units.length :=
        Parser.lt_length_of_currentIs (by simpa using hcolon)
      rw [advance_bind (by omega : c.index + 2 ≤ maxUnits)]
      exact (hagrees.groupBody (hnext₁.next hlt₂)
        (by show 7 * (p.units.length - (c.index + 3)) + 6 < fuel; omega)
        (by show c.index < c.index + 3; omega)).weaken _
  · exact hagrees.groupBody hnext
      (by show 7 * (p.units.length - (c.index + 1)) + 6 < fuel; omega) (Nat.lt_succ_self _)

/-- An atom agrees when groups do, with less fuel. -/
theorem AgreesFrom.parseAtom_succ (hagrees : AgreesFrom p fuel) (hp : p.units.length ≤ maxUnits)
    (h : Ready p depth c) (hlt : c.index < p.units.length)
    (hfuel : 7 * (p.units.length - c.index) + 1 < fuel + 1) :
    Agrees p depth (p.parseAtom depth c.index hlt) (parseAtom p (fuel + 1) c) := by
  have hread : ∀ expression : Hir, Agrees p depth
      (.ok (⟨expression, c.index + 1, Nat.le_refl _⟩ : Parsed (c.index + 1) Hir))
      ((advance >>= fun _ => (pure expression : Checked Hir)) c) := by
    intro expression
    rw [advance_bind (by omega)]
    exact Agrees.read rfl rfl (h.next hlt)
  rw [parseAtom, Parser.parseAtom, position_bind, unitAt_eq hlt, pure_bind_run]
  refine .ite Iff.rfl (fun _ => hread _) fun _ => ?_
  refine .ite Iff.rfl (fun _ => agrees_parseEscape hp h hlt) fun _ => ?_
  refine .ite Iff.rfl (fun _ => agrees_parseCharacterClass hp h hlt (by omega)) fun _ => ?_
  refine .ite Iff.rfl (fun _ => hagrees.group h hlt (by omega)) fun _ => ?_
  refine .ite Iff.rfl (fun _ => hread _) fun _ => ?_
  refine .ite Iff.rfl (fun _ => hread _) fun _ => ?_
  refine .ite Iff.rfl (fun _ => ?_) fun _ => hread _
  rw [successor_eq (by omega)]
  exact Agrees.refuse hp h (Nat.lt_succ_self _) hlt (Nat.le_refl _)

/-- The items agree when atoms do, and the items behind them. -/
theorem AgreesFrom.parseItems_succ (hagrees : AgreesFrom p fuel) (hp : p.units.length ≤ maxUnits)
    (h : Ready p depth c) (hfuel : 7 * (p.units.length - c.index) + 2 < fuel + 1) (inGroup : Bool) :
    Agrees p depth (p.parseItems inGroup depth c.index) (parseItems p (fuel + 1) inGroup c) := by
  rw [parseItems, Parser.parseItems, position_bind]
  by_cases hlt : c.index < p.units.length
  · rw [dif_pos hlt, List.getElem?_eq_getElem hlt]
    refine .ite Iff.rfl (fun _ => Agrees.read rfl rfl h) fun _ => ?_
    refine .ite Iff.rfl (fun _ => ?_) fun _ => ?_
    · rw [successor_eq (by omega)]
      exact Agrees.refuse hp h (Nat.lt_succ_self _) hlt (Nat.le_refl _)
    · refine (hagrees.atom h hlt (by omega)).bind fun atom c₁ hle₁ h₁ => ?_
      refine (agrees_parseRepetition hp h₁ (by omega) atom).bind fun item c₂ hle₂ h₂ => ?_
      have hle₂ : c₁.index ≤ c₂.index := hle₂
      exact (hagrees.items h₂ (by omega) inGroup).bind
        fun rest c₃ hle₃ h₃ => Agrees.read rfl rfl h₃
  · rw [dif_neg hlt, List.getElem?_eq_none (Nat.not_lt.mp hlt)]
    exact Agrees.read rfl rfl h

/-- The branches agree when sequences do, and the branches behind them. -/
theorem AgreesFrom.parseBranches_succ (hagrees : AgreesFrom p fuel)
    (hp : p.units.length ≤ maxUnits) (h : Ready p depth c)
    (hfuel : 7 * (p.units.length - c.index) + 4 < fuel + 1) (inGroup : Bool) :
    Agrees p depth (p.parseBranches inGroup depth c.index)
      (parseBranches p (fuel + 1) inGroup c) := by
  rw [parseBranches, Parser.parseBranches, currentIs_bind]
  by_cases hbar : p.currentIs c.index '|' = true
  · have hlt := Parser.lt_length_of_currentIs hbar
    have hnext := h.next hlt
    rw [dif_pos hbar, if_pos hbar, advance_bind (by omega), position_bind]
    refine .ite Iff.rfl (fun _ => Agrees.read rfl rfl hnext) fun _ => ?_
    refine (hagrees.sequence hnext (by show 7 * (p.units.length - (c.index + 1)) + 3 < fuel; omega)
      inGroup).bind fun branch c₁ hle₁ h₁ => ?_
    have hle₁ : c.index + 1 ≤ c₁.index := hle₁
    exact (hagrees.branches h₁ (by omega) inGroup).bind
      fun rest c₂ hle₂ h₂ => Agrees.read rfl rfl h₂
  · rw [dif_neg hbar, if_neg hbar]
    exact Agrees.read rfl rfl h

/-- A group is left the way it was entered, also when its body is refused. -/
theorem Agrees.thenLeaveGroup {start : ℕ} {call : Except Error (Parsed start Hir)}
    {run : Checked Hir} (h : Agrees p (depth + 1) call (run c)) :
    Agrees p depth call (thenLeaveGroup run c) := by
  unfold Checked.thenLeaveGroup
  generalize run c = outcome at h
  cases h with
  | @ok x out hreached =>
    obtain ⟨value, c'⟩ := out
    obtain ⟨hvalue, hindex, hready⟩ := hreached
    -- inside the group the depth is positive, so it can be decreased
    have hdepth : c'.groupDepth = depth + 1 := hready.groupDepth_eq
    have hpositive : ¬ c'.groupDepth = 0 := by omega
    simp only [if_neg hpositive]
    refine Agrees.read hvalue hindex ⟨hready.index_le, ?_, ?_, hready.deepest_le,
      hready.attempted_le⟩
    · show c'.groupDepth - 1 = depth
      omega
    · exact Nat.le_of_succ_le hready.depth_le
  | @error reason stopped hrefused =>
    obtain ⟨stop, c'⟩ := stopped
    obtain ⟨rfl, hindex, hdepth, hdeepest, hexplains⟩ := hrefused
    have hdepth : c'.groupDepth = depth + 1 := hdepth
    have hpositive : ¬ c'.groupDepth = 0 := by omega
    simp only [if_neg hpositive]
    refine .error ⟨rfl, hindex, ?_, hdeepest, ?_⟩
    · show c'.groupDepth - 1 = depth
      omega
    · cases reason <;> exact hexplains

/-- The body of a group agrees when alternations do. -/
theorem AgreesFrom.parseGroupBody_succ (hagrees : AgreesFrom p fuel)
    (hp : p.units.length ≤ maxUnits) {start : ℕ} (h : Ready p depth c)
    (hfuel : 7 * (p.units.length - c.index) + 6 < fuel + 1) (hstart : start < c.index) :
    Agrees p depth (p.parseGroupBody depth start c.index)
      (parseGroupBody p (fuel + 1) start c) := by
  have hle := h.index_le
  have hdepth := h.groupDepth_eq
  have hattempted := h.attempted_le
  rw [parseGroupBody, Parser.parseGroupBody, currentIs_bind]
  refine .ite Iff.rfl (fun hclose => ?_) fun _ => ?_
  · rw [advance_bind (by omega)]
    exact Agrees.read rfl rfl (h.next (Parser.lt_length_of_currentIs hclose))
  · show Agrees p depth _ ((if c.groupDepth == maxGroupNesting then _ else _ : Checked Hir)
      { c with attempted := max c.attempted (c.groupDepth + 1) })
    refine .ite (by rw [hdepth, beq_iff_eq]) (fun hfull => ?_) fun hroom => ?_
    · -- one group more than the parser can enter
      refine .error ⟨rfl, hle, hdepth, h.deepest_le, rfl, rfl, ?_⟩
      show max c.attempted (c.groupDepth + 1) = maxGroupNesting + 1
      omega
    · have hlt : depth < maxGroupNesting := Nat.lt_of_le_of_ne h.depth_le hroom
      -- the nesting limit is far below what a machine word holds
      have henter : c.groupDepth + 1 ≤ usizeMax := by
        unfold maxGroupNesting at hlt
        unfold usizeMax
        omega
      have hentered : Ready p (depth + 1)
          ⟨c.index, c.groupDepth + 1, max c.deepest (c.groupDepth + 1),
            max c.attempted (c.groupDepth + 1)⟩ := by
        refine ⟨hle, by show c.groupDepth + 1 = depth + 1; omega, hlt, ?_, ?_⟩
        · show max c.deepest (c.groupDepth + 1) ≤ maxGroupNesting
          have := h.deepest_le
          omega
        · show max c.attempted (c.groupDepth + 1) ≤ maxGroupNesting
          omega
      have hbody := (hagrees.alternation hentered
        (by show 7 * (p.units.length - c.index) + 5 < fuel; omega) true).thenLeaveGroup
      have henterGroup : ∀ next : Unit → Checked Hir, (enterGroup >>= next)
          { c with attempted := max c.attempted (c.groupDepth + 1) } =
            next () ⟨c.index, c.groupDepth + 1, max c.deepest (c.groupDepth + 1),
              max c.attempted (c.groupDepth + 1)⟩ := by
        intro next
        show (enterGroup _ >>= fun out => next out.1 out.2) = _
        unfold enterGroup
        rw [if_pos henter]
        rfl
      rw [henterGroup]
      -- behind the body the parenthesis is closed, or the text is refused
      refine hbody.bind fun expression c' hle' h' => ?_
      have hbound := h'.index_le
      have hle' : c.index ≤ c'.index := hle'
      rw [currentIs_bind]
      refine .ite Iff.rfl (fun _ => ?_) fun hopen => ?_
      · exact Agrees.refuse hp h' (by omega) (Nat.le_refl _) (by omega)
      · rw [advance_bind (by omega)]
        exact Agrees.read rfl rfl (h'.next (Parser.lt_length_of_currentIs (by simpa using hopen)))

/-- Everything the parser reads, whatever fuel there is. -/
theorem agreesFrom (hp : p.units.length ≤ maxUnits) (fuel : ℕ) : AgreesFrom p fuel := by
  induction fuel with
  | zero =>
    refine ⟨?_, ?_, ?_, ?_, ?_, ?_, ?_⟩ <;> (intros; omega)
  | succ fuel ih =>
    refine ⟨fun h hlt hfuel => ih.parseGroup_succ hp h hlt hfuel,
      fun h hlt hfuel => ih.parseAtom_succ hp h hlt hfuel,
      fun h hfuel inGroup => ih.parseItems_succ hp h hfuel inGroup, fun h hfuel inGroup => ?_,
      fun h hfuel inGroup => ih.parseBranches_succ hp h hfuel inGroup,
      fun {depth c} h hfuel inGroup => ?_, fun h hfuel hstart =>
        ih.parseGroupBody_succ hp h hfuel hstart⟩
    · rw [parseSequence, Parser.parseSequence]
      exact (ih.items h (by omega) inGroup).bind fun items c' hle' h' => Agrees.read rfl rfl h'
    · rw [parseAlternation, Parser.parseAlternation]
      refine (ih.sequence h (by omega) inGroup).bind fun first c₁ hle₁ h₁ => ?_
      have hle₁ : c.index ≤ c₁.index := hle₁
      exact (ih.branches h₁ (by omega) inGroup).bind fun rest c₂ hle₂ h₂ => Agrees.read rfl rfl h₂

/-! ### Whole texts -/

/-- The flags are read to their end. -/
theorem readFlags_run (hp : p.units.length ≤ maxUnits) {cursor : ℕ} {sawFlag sawCase : Bool}
    (hfuel : p.units.length - cursor < fuel) :
    readFlags p fuel cursor sawFlag sawCase = pure (p.readFlags cursor sawFlag sawCase) := by
  induction fuel generalizing cursor sawFlag sawCase with
  | zero => exact absurd hfuel (Nat.not_lt_zero _)
  | succ fuel ih =>
    rw [readFlags, Parser.readFlags]
    by_cases hlt : cursor < p.units.length
    · rw [dif_pos hlt, List.getElem?_eq_getElem hlt]
      have hrest : ∀ sawFlag sawCase, (successor cursor >>= fun next =>
          readFlags p fuel next sawFlag sawCase) =
            pure (p.readFlags (cursor + 1) sawFlag sawCase) := by
        intro sawFlag sawCase
        rw [successor_eq (by omega), pure_bind]
        exact ih (by omega)
      simp only
      split
      · exact hrest true true
      · split
        · exact hrest true sawCase
        · rfl
    · rw [dif_neg hlt, List.getElem?_eq_none (Nat.not_lt.mp hlt)]

/-- The prefix is consumed as it is without panics. -/
theorem consumeFlagPrefix_bind (hp : p.units.length ≤ maxUnits) (hfuel : p.units.length < fuel)
    (next : Parser → Checked Hir) : (consumeFlagPrefix p fuel >>= next) .start =
      next p.consumeFlagPrefix.1 { Cursor.start with index := p.consumeFlagPrefix.2 } := by
  unfold consumeFlagPrefix Parser.consumeFlagPrefix
  by_cases hopen : getRange p.units 0 2 ≠ some [ascii '(', ascii '?']
  · rw [if_pos hopen, if_pos hopen]
    rfl
  · rw [if_neg hopen, if_neg hopen, readFlags_run hp (by omega)]
    obtain ⟨sawFlag, sawCase, cursor⟩ := p.readFlags 2 false false
    simp only [pure_bind]
    by_cases hclose : (sawFlag && p.currentIs cursor ')') = true
    · have hlt := Parser.lt_length_of_currentIs (Bool.and_eq_true_iff.mp hclose).2
      rw [if_pos hclose, if_pos hclose, successor_eq (by omega)]
      rfl
    · rw [if_neg hclose, if_neg hclose]
      rfl

end Phrases

end Checked

/-- What is known about a run that stopped with an error. -/
structure Diagnosed (patternId : PatternId) (units : List UInt16) (reason : Error)
    (cursor : Cursor) : Prop where
  /-- The open groups never were more than the limit. -/
  deepest_le : cursor.deepest ≤ maxGroupNesting
  /-- At most one group beyond the limit was begun. -/
  attempted_le : cursor.attempted ≤ maxGroupNesting + 1
  /-- The span of an invalid pattern is not empty, lies in the text and does not begin behind the
  last index. -/
  span : ∀ id span, reason = .invalidPattern id span →
    id = patternId ∧ span.start < span.stop ∧ span.stop ≤ units.length ∧
      span.start ≤ cursor.index
  /-- The nesting is too deep when a group beyond the limit was begun. -/
  nesting : reason = .patternNestingTooDeep patternId maxGroupNesting ↔
    cursor.attempted = maxGroupNesting + 1

namespace Checked

/-- An error that is right about the text is diagnosed. -/
theorem Explains.diagnosed {p : Parser} {reason : Error} {cursor : Cursor}
    (h : Explains p reason cursor) (hdeepest : cursor.deepest ≤ maxGroupNesting) :
    Diagnosed p.patternId p.units reason cursor := by
  cases reason with
  | invalidPattern id span =>
    obtain ⟨rfl, hlt, hle, hstart, hattempted⟩ := h
    refine ⟨hdeepest, Nat.le_succ_of_le hattempted, ?_, iff_of_false nofun (by omega)⟩
    intro id' span' heq
    cases heq
    exact ⟨rfl, hlt, hle, hstart⟩
  | patternNestingTooDeep id limit =>
    obtain ⟨rfl, rfl, hattempted⟩ := h
    exact ⟨hdeepest, Nat.le_of_eq hattempted, nofun, iff_of_true rfl hattempted⟩
  | _ => exact h.elim

/-- Behind the prefix the parser is the same, but for its flag. -/
theorem consumeFlagPrefix_spec (p : Parser) :
    p.consumeFlagPrefix.1.units = p.units ∧ p.consumeFlagPrefix.1.patternId = p.patternId ∧
      p.consumeFlagPrefix.2 ≤ p.units.length := by
  obtain ⟨flags, stop, hset, hconsume⟩ | ⟨-, hconsume⟩ := p.consumeFlagPrefix_cases
  · rw [hconsume]
    exact ⟨rfl, rfl, hset.2.stop_le (Nat.zero_le _)⟩
  · rw [hconsume]
    exact ⟨rfl, rfl, Nat.zero_le _⟩

/-- What is done behind the expression. -/
theorem finishPattern_spec {p : Parser} (hp : p.units.length ≤ maxUnits) (hunits : p.units ≠ [])
    {c : Cursor} (h : Ready p 0 c) (expression : Hir) :
    (c.index ≠ p.units.length ∧ ∃ cursor,
      finishPattern p expression c = .error ⟨.error (p.invalid c.index (c.index + 1)), cursor⟩ ∧
      Diagnosed p.patternId p.units (p.invalid c.index (c.index + 1)) cursor) ∨
    (c.index = p.units.length ∧ zeroWidth expression = true ∧ ∃ cursor,
      finishPattern p expression c = .error ⟨.error (p.invalid 0 p.units.length), cursor⟩ ∧
      Diagnosed p.patternId p.units (p.invalid 0 p.units.length) cursor) ∨
    (c.index = p.units.length ∧ zeroWidth expression = false ∧
      finishPattern p expression c = .ok (expression, c)) := by
  have hle := h.index_le
  -- an error is explained by the state it is returned in
  have hrefuse : ∀ start stop, start < stop → stop ≤ p.units.length → start ≤ c.index →
      ∃ cursor, (refuse p start stop : Checked Hir) c =
          .error ⟨.error (p.invalid start stop), cursor⟩ ∧
        Diagnosed p.patternId p.units (p.invalid start stop) cursor := by
    intro start stop hlt hstop hstart
    have hagrees := @Agrees.refuse Hir p 0 c 0 hp h start stop hlt hstop hstart
    cases hagrees with
    | error hrefused => exact ⟨c, rfl, hrefused.explains.diagnosed h.deepest_le⟩
  unfold finishPattern
  rw [position_bind]
  by_cases hindex : c.index ≠ p.units.length
  · rw [if_pos hindex, successor_eq (by omega), pure_bind]
    exact Or.inl ⟨hindex, hrefuse c.index (c.index + 1) (Nat.lt_succ_self _) (by omega)
      (Nat.le_refl _)⟩
  · have hend : c.index = p.units.length := not_not.mp hindex
    have hpos : 0 < p.units.length := List.length_pos_iff.mpr hunits
    rw [if_neg hindex]
    by_cases hwidth : zeroWidth expression = true
    · rw [if_pos hwidth]
      exact Or.inr (Or.inl ⟨hend, hwidth, hrefuse 0 p.units.length hpos (Nat.le_refl _)
        (Nat.zero_le _)⟩)
    · rw [if_neg hwidth]
      exact Or.inr (Or.inr ⟨hend, Bool.eq_false_iff.mpr hwidth, rfl⟩)

/-- A text that is not empty: a syntax error, a pattern without width, or a pattern. -/
theorem parseWithFlags_spec {p : Parser} (hp : p.units.length ≤ maxUnits) (hunits : p.units ≠ [])
    {fuel : ℕ} (hfuel : 7 * (p.units.length + 1) ≤ fuel) :
    (∃ reason cursor, p.parseExpression = .error reason ∧
      parseWithFlags p fuel .start = .error ⟨.error reason, cursor⟩ ∧
      Diagnosed p.patternId p.units reason cursor) ∨
    (∃ expression cursor, p.parseExpression = .ok expression ∧ zeroWidth expression = true ∧
      parseWithFlags p fuel .start = .error ⟨.error (p.invalid 0 p.units.length), cursor⟩ ∧
      Diagnosed p.patternId p.units (p.invalid 0 p.units.length) cursor) ∨
    ∃ expression cursor, p.parseExpression = .ok expression ∧ zeroWidth expression = false ∧
      parseWithFlags p fuel .start = .ok (expression, cursor) ∧
      cursor.deepest ≤ maxGroupNesting ∧ cursor.attempted ≤ maxGroupNesting := by
  obtain ⟨hsame, hid, hindex⟩ := consumeFlagPrefix_spec p
  have hrun : parseWithFlags p fuel .start =
      (parseAlternation p.consumeFlagPrefix.1 fuel false >>= fun expression =>
        finishPattern p.consumeFlagPrefix.1 expression)
          { Cursor.start with index := p.consumeFlagPrefix.2 } := by
    have hnonempty : ¬ p.units.isEmpty = true := by rwa [List.isEmpty_iff]
    rw [parseWithFlags, if_neg hnonempty, consumeFlagPrefix_bind hp (by omega)]
  have hexpression : p.parseExpression =
      (p.consumeFlagPrefix.1.parseAlternation false 0 p.consumeFlagPrefix.2 >>= fun expression =>
        if expression.index ≠ p.consumeFlagPrefix.1.units.length then
          .error (p.consumeFlagPrefix.1.invalid expression.index (expression.index + 1))
        else return expression.value) := rfl
  have hinvalid : ∀ start stop,
      p.consumeFlagPrefix.1.invalid start stop = p.invalid start stop := by
    intro start stop
    rw [Parser.invalid, Parser.invalid, hid]
  rw [← hid, hrun, hexpression, ← hinvalid, ← hsame]
  rw [← hsame] at hindex hp hunits hfuel
  generalize p.consumeFlagPrefix.1 = p' at *
  generalize p.consumeFlagPrefix.2 = index at *
  have hready : Ready p' 0 { Cursor.start with index := index } :=
    ⟨hindex, rfl, Nat.zero_le _, Nat.zero_le _, Nat.zero_le _⟩
  have hagrees := (agreesFrom hp fuel).alternation hready
    (by show 7 * (p'.units.length - index) + 5 < fuel; omega) false
  generalize p'.parseAlternation false 0 index = call at hagrees
  generalize hrun : parseAlternation p' fuel false { Cursor.start with index := index } = out
    at hagrees
  have hbind : ∀ next : Hir → Checked Hir, (parseAlternation p' fuel false >>= next)
      { Cursor.start with index := index } = (out >>= fun x => next x.1 x.2) := by
    intro next
    rw [← hrun]
    rfl
  rw [hbind]
  cases hagrees with
  | @error reason stopped hrefused =>
    obtain ⟨stop, cursor⟩ := stopped
    obtain ⟨rfl, -, -, hdeepest, hexplains⟩ := hrefused
    exact Or.inl ⟨reason, cursor, rfl, rfl, hexplains.diagnosed hdeepest⟩
  | @ok x out hreached =>
    obtain ⟨expression, last, hle⟩ := x
    obtain ⟨expression', cursor⟩ := out
    obtain ⟨hvalue, hlast, hready'⟩ := hreached
    obtain rfl : expression' = expression := hvalue
    obtain rfl : cursor.index = last := hlast
    obtain ⟨hindex, stopped, hfinish, hdiagnosed⟩ | ⟨hindex, hwidth, stopped, hfinish, hdiagnosed⟩ |
      ⟨hindex, hwidth, hfinish⟩ := finishPattern_spec hp hunits hready' expression'
    · exact Or.inl ⟨_, stopped, if_pos hindex, hfinish, hdiagnosed⟩
    · exact Or.inr (Or.inl ⟨expression', stopped, if_neg (not_not.mpr hindex), hwidth, hfinish,
        hdiagnosed⟩)
    · exact Or.inr (Or.inr ⟨expression', cursor, if_neg (not_not.mpr hindex), hwidth, hfinish,
        hready'.deepest_le, hready'.attempted_le⟩)

end Checked

/-- With fuel linear in the text, the parser with its panics never panics, and does what
`parse_with_flags` does. Never more than 256 groups with a body are open, and the error that says so
is returned exactly when another one begins. The span of an invalid pattern is a part of the text,
not empty, that begins no later than where the parser stopped. -/
theorem parsing_is_safe (lowerUpper : UInt16 → UInt16 × UInt16) (patternId : PatternId)
    (text : Utf16Text) (flags : PatternFlags) (spare : ℕ) :
    let run := Checked.parseWithFlags (Parser.new lowerUpper patternId text.units flags)
      (7 * (text.units.length + 1) + spare) .start
    (∃ pattern cursor, run = .ok (pattern.expression, cursor) ∧
      parseWithFlags lowerUpper patternId text.units flags = .ok pattern ∧
      cursor.deepest ≤ maxGroupNesting ∧ cursor.attempted ≤ maxGroupNesting) ∨
    ∃ reason cursor, run = .error ⟨.error reason, cursor⟩ ∧
      parseWithFlags lowerUpper patternId text.units flags = .error reason ∧
      Diagnosed patternId text.units reason cursor := by
  intro run
  by_cases hempty : text.units.isEmpty = true
  · refine Or.inr ⟨.emptyPattern patternId, .start, ?_, if_pos hempty,
      Nat.zero_le _, Nat.zero_le _, nofun, iff_of_false nofun nofun⟩
    have hnone : (Parser.new lowerUpper patternId text.units flags).units.isEmpty = true := hempty
    show Checked.parseWithFlags _ _ _ = _
    rw [Checked.parseWithFlags, if_pos hnone]
    rfl
  have hunits : text.units ≠ [] := fun heq => hempty (heq ▸ rfl)
  obtain ⟨reason, cursor, hread, hrun, hdiagnosed⟩ | ⟨expression, cursor, hread, hwidth, hrun,
    hdiagnosed⟩ | ⟨expression, cursor, hread, hwidth, hrun, hdeepest, hattempted⟩ :=
      @Checked.parseWithFlags_spec (Parser.new lowerUpper patternId text.units flags)
        text.length_le hunits _ (Nat.le_add_right _ spare)
  · exact Or.inr ⟨reason, cursor, hrun, parseWithFlags_eq_of_error hunits hread, hdiagnosed⟩
  · have htext := Parser.parseExpression_eq_ok_iff.mp hread
    refine Or.inr ⟨_, cursor, hrun, ?_, hdiagnosed⟩
    rw [parseWithFlags_eq_of_patternText hunits htext]
    exact if_pos hwidth
  · have htext := Parser.parseExpression_eq_ok_iff.mp hread
    refine Or.inl ⟨.new patternId expression htext.sequencesNonempty, cursor, hrun, ?_, hdeepest,
      hattempted⟩
    rw [parseWithFlags_eq_of_patternText hunits htext]
    exact if_neg (Bool.eq_false_iff.mp hwidth)

end Rustmatch

import Rustmatch.Parser.Accepts
import Rustmatch.ToMathlib.ExceptRelations

/-!
# Parsing behind a prefix

The parser reads units relative to its index only. When one text stands behind a prefix of another,
parsing the other from behind the prefix gives the same expressions, and the same errors with their
spans moved (`Agree`). So the flag of a registration and the prefix `(?i)` do the same.

## Main definitions

* `Error.shift`: an error with its span moved;
* `Parser.Behind`: the text of one parser stands behind a prefix of the text of the other;
* `Parser.Agree`: two results that differ by their indices only.

## Main results

* `Parser.agree_parseAlternation`: everything the parser reads, behind a prefix;
* `flag_agrees_with_prefix`: `CASE_INSENSITIVE` and `(?i)`.
-/

namespace Rustmatch

/-- The error at a place `k` units further on. -/
def Error.shift (k : ℕ) : Error → Error
  | .invalidPattern patternId span => .invalidPattern patternId ⟨span.start + k, span.stop + k⟩
  | .unsupportedPattern patternId span codeUnit =>
    .unsupportedPattern patternId ⟨span.start + k, span.stop + k⟩ codeUnit
  | reason => reason

namespace Parser

/-- The text of `p` has `k` units in front of the text of `q`. -/
structure Behind (k : ℕ) (q p : Parser) : Prop where
  /-- Case is treated alike. -/
  toCaseRules : p.toCaseRules = q.toCaseRules
  /-- The identity is the same. -/
  patternId : p.patternId = q.patternId
  /-- The text is longer by `k` units. -/
  length_eq : p.units.length = q.units.length + k
  /-- Behind these it has the same units. -/
  getElem?_eq : ∀ index, p.units[index + k]? = q.units[index]?
  /-- It is no longer than a text can be. -/
  length_le : p.units.length ≤ maxUnits

/-- What `q` read up to an index inside its text, `p` read up to the index `k` further on. -/
def Later {α β : Type} (k : ℕ) (q : Parser) (V : α → β → Prop) {start start' : ℕ}
    (x : Parsed start α) (y : Parsed start' β) : Prop :=
  V x.value y.value ∧ y.index = x.index + k ∧ x.index ≤ q.units.length

/-- Results of `q` and `p` that differ by the shift only. -/
def Agree {α β : Type} (k : ℕ) (q : Parser) (V : α → β → Prop) {start start' : ℕ} :
    Except Error (Parsed start α) → Except Error (Parsed start' β) → Prop :=
  Except.Relates (fun e e' => e' = e.shift k) (Later k q V)

namespace Behind

variable {k : ℕ} {q p : Parser} {i j : ℕ}

/-- The unit at an index is that in front of the prefix. -/
theorem getElem?_eq' (h : Behind k q p) (hij : j = i + k) : p.units[j]? = q.units[i]? :=
  hij ▸ h.getElem?_eq i

/-- The units inside the texts are the same. -/
theorem getElem_eq (h : Behind k q p) (hij : j = i + k) (hi : i < q.units.length)
    (hj : j < p.units.length) : p.units[j] = q.units[i] := by
  have hget := h.getElem?_eq' hij
  rw [List.getElem?_eq_getElem hi, List.getElem?_eq_getElem hj] at hget
  exact Option.some.inj hget

/-- Looking at the current unit gives the same answer. -/
theorem currentIs_eq (h : Behind k q p) (hij : j = i + k) (expected : Char) :
    p.currentIs j expected = q.currentIs i expected := by
  rw [currentIs, currentIs, h.getElem?_eq' hij]

/-- The texts end together. -/
theorem lt_iff (h : Behind k q p) (hij : j = i + k) :
    i < q.units.length ↔ j < p.units.length := by
  have := h.length_eq
  omega

/-- Errors at places that correspond. -/
theorem invalid_eq (h : Behind k q p) {stop stop' : ℕ} (hij : j = i + k) (hstop : stop' = stop + k)
    (hi : i ≤ q.units.length + 1) (hstop_le : stop ≤ q.units.length + 1) :
    p.invalid j stop' = (q.invalid i stop).shift k := by
  have hlength := h.length_eq
  have hle := h.length_le
  unfold maxUnits at hle
  rw [invalid, invalid, if_pos (by omega), if_pos (by omega), h.patternId, hij, hstop]
  rfl

end Behind

namespace Agree

variable {k : ℕ} {q p : Parser} {i j s s' : ℕ} {α β α' β' : Type} {V : α → β → Prop}
  {W : α' → β' → Prop}

/-- Both parsers have read something. -/
theorem read {x : Parsed s α} {y : Parsed s' β} (hvalue : V x.value y.value)
    (hindex : y.index = x.index + k) (hle : x.index ≤ q.units.length) :
    Agree k q V (.ok x) (.ok y) :=
  .ok ⟨hvalue, hindex, hle⟩

/-- Both parsers refuse what they read. -/
theorem refuse (h : Behind k q p) {stop stop' : ℕ} (hij : j = i + k) (hstop : stop' = stop + k)
    (hi : i ≤ q.units.length + 1) (hstop_le : stop ≤ q.units.length + 1) :
    @Agree α β k q V s s' (.error (q.invalid i stop)) (.error (p.invalid j stop')) :=
  .error (h.invalid_eq hij hstop hi hstop_le)

/-- Both parsers go on from where they are. -/
theorem bind {t t' : ℕ} {x : Except Error (Parsed s α)} {y : Except Error (Parsed s' β)}
    {f : Parsed s α → Except Error (Parsed t α')} {g : Parsed s' β → Except Error (Parsed t' β')}
    (h : Agree k q V x y) (hnext : ∀ a b, V a.value b.value → b.index = a.index + k →
      a.index ≤ q.units.length → Agree k q W (f a) (g b)) : Agree k q W (x >>= f) (y >>= g) :=
  Except.Relates.bind h fun a b _ hab => hnext a b hab.1 hab.2.1 hab.2.2

end Agree

/-! ### Positions inside character classes -/

/-- The token `token'` is `token` at a place `k` units further on; `token` is inside `q`. -/
def TokenLater (k : ℕ) (q : Parser) : ClassToken → ClassToken → Prop
  | .literal unit position, token' =>
    token' = .literal unit (position + k) ∧ position ≤ q.units.length
  | .predicate members, token' => token' = .predicate members
  | .rangeMarker position, token' =>
    token' = .rangeMarker (position + k) ∧ position ≤ q.units.length

/-- A literal that waits, `k` units further on. -/
def WaitsLater (k : ℕ) (q : Parser) (waits waits' : Option (UInt16 × ℕ)) : Prop :=
  waits' = waits.map (fun x => (x.1, x.2 + k)) ∧ ∀ x ∈ waits, x.2 ≤ q.units.length

/-- The variables of the loop over the tokens, `k` units further on. -/
structure StateLater (k : ℕ) (q : Parser) (state state' : ClassState) : Prop where
  /-- The same units have been inserted. -/
  predicate : state'.predicate = state.predicate
  /-- The same literal waits. -/
  pendingLiteral : WaitsLater k q state.pendingLiteral state'.pendingLiteral
  /-- The same range has begun. -/
  rangeStart : WaitsLater k q state.rangeStart state'.rangeStart

/-! ### Escapes and character classes -/

section Phrases

variable {k : ℕ} {q p : Parser} {i j : ℕ}

/-- Escapes are read alike. -/
theorem agree_parseEscape (h : Behind k q p) (hij : j = i + k) (hi : i < q.units.length) :
    Agree k q Eq (q.parseEscape i) (p.parseEscape j) := by
  unfold parseEscape
  rw [h.getElem?_eq' (show j + 1 = i + 1 + k by omega)]
  cases hget : q.units[i + 1]? with
  | none => exact Agree.refuse h hij (by omega) (by omega) (by omega)
  | some escaped =>
    have hlt := (List.getElem?_eq_some_iff.mp hget).1
    -- every escape that is known reads two units, in both texts
    have hread : ∀ expression : Hir, Agree k q Eq
        (.ok (⟨expression, i + 2, Nat.le_succ _⟩ : Parsed (i + 1) Hir))
        (.ok (⟨expression, j + 2, Nat.le_succ _⟩ : Parsed (j + 1) Hir)) := fun expression =>
      Agree.read rfl (by show j + 2 = i + 2 + k; omega) hlt
    simp only [h.toCaseRules]
    refine .ite Iff.rfl (fun _ => hread _) fun _ => ?_
    refine .ite Iff.rfl (fun _ => hread _) fun _ => ?_
    refine .ite Iff.rfl (fun _ => hread _) fun _ => ?_
    refine .ite Iff.rfl (fun _ => hread _) fun _ => ?_
    refine .ite Iff.rfl (fun _ => hread _) fun _ => ?_
    split
    next => exact hread _
    next =>
      refine .ite Iff.rfl (fun _ => hread _) fun _ => ?_
      refine .ite Iff.rfl (fun _ => hread _) fun _ => ?_
      exact Agree.refuse h hij (by omega) (by omega) (by omega)

/-- The tokens of a class are read alike. -/
theorem agree_parseClassToken (h : Behind k q p) (hij : j = i + k) (hi : i < q.units.length)
    (hj : j < p.units.length) :
    Agree k q (TokenLater k q) (q.parseClassToken i hi) (p.parseClassToken j hj) := by
  unfold parseClassToken
  simp only [h.getElem_eq hij hi hj]
  refine .ite Iff.rfl (fun _ => ?_) fun _ => .ite Iff.rfl (fun _ => ?_) fun _ => ?_
  · exact Agree.read ⟨by rw [hij], Nat.le_of_lt hi⟩ (by show j + 1 = i + 1 + k; omega) hi
  · exact Agree.read ⟨by rw [hij], Nat.le_of_lt hi⟩ (by show j + 1 = i + 1 + k; omega) hi
  · rw [h.getElem?_eq' (show j + 1 = i + 1 + k by omega)]
    cases hget : q.units[i + 1]? with
    | none => exact Agree.refuse h hij (by omega) (by omega) (by omega)
    | some escaped =>
      have hlt := (List.getElem?_eq_some_iff.mp hget).1
      -- the positions that tokens carry are apart by the length of the prefix
      have hread : ∀ token token' : ClassToken, TokenLater k q token token' →
          Agree k q (TokenLater k q)
            (.ok (⟨token, i + 2, Nat.le_succ _⟩ : Parsed (i + 1) ClassToken))
            (.ok (⟨token', j + 2, Nat.le_succ _⟩ : Parsed (j + 1) ClassToken)) :=
        fun token token' htoken => Agree.read htoken (by show j + 2 = i + 2 + k; omega) hlt
      refine .ite Iff.rfl (fun _ => hread _ _ ⟨by rw [hij], Nat.le_of_lt hi⟩) fun _ => ?_
      refine .ite Iff.rfl (fun _ => hread _ _ ⟨by rw [hij], Nat.le_of_lt hi⟩) fun _ => ?_
      refine .ite Iff.rfl (fun _ => hread _ _ ⟨by rw [hij], Nat.le_of_lt hi⟩) fun _ => ?_
      refine .ite Iff.rfl (fun _ => hread _ _ ⟨by rw [hij], Nat.le_of_lt hi⟩) fun _ => ?_
      refine .ite Iff.rfl (fun _ => hread _ _ ⟨by rw [hij], Nat.le_of_lt hi⟩) fun _ => ?_
      split
      next => exact hread _ _ rfl
      next => exact Agree.refuse h hij (by omega) (by omega) (by omega)

/-- The waiting literal is inserted alike. -/
theorem StateLater.flush_eq (h : Behind k q p) {state state' : ClassState}
    (hstate : StateLater k q state state') : state'.flush p = state.flush q := by
  unfold ClassState.flush
  rw [hstate.pendingLiteral.1, hstate.predicate]
  cases state.pendingLiteral with
  | none => rfl
  | some waiting => simp only [Option.map_some, h.toCaseRules]

/-- Where nothing waits, nothing waits later. -/
theorem WaitsLater.none : WaitsLater k q none none := ⟨rfl, nofun⟩

/-- A literal that waits further on. -/
theorem WaitsLater.some {unit : UInt16} {position : ℕ} (hposition : position ≤ q.units.length) :
    WaitsLater k q (some (unit, position)) (some (unit, position + k)) := by
  refine ⟨rfl, fun x hx => ?_⟩
  obtain rfl := Option.some.inj hx
  exact hposition

/-- Something waits in both texts, or in neither. -/
theorem WaitsLater.isSome_eq {waits waits' : Option (UInt16 × ℕ)}
    (h : WaitsLater k q waits waits') : waits'.isSome = waits.isSome := by
  rw [h.1, Option.isSome_map]

/-- What is done with a token depends on its place in errors only. -/
theorem relates_push (h : Behind k q p) {start start' : ℕ} (hstart : start' = start + k)
    (hstart_le : start ≤ q.units.length) (hij : j = i + k) (hi : i ≤ q.units.length)
    {state state' : ClassState} (hstate : StateLater k q state state') {token token' : ClassToken}
    (htoken : TokenLater k q token token') :
    Except.Relates (fun e e' => e' = e.shift k) (StateLater k q) (state.push q start i token)
      (state'.push p start' j token') := by
  cases token with
  | literal unit position =>
    obtain ⟨rfl, hposition⟩ := htoken
    obtain ⟨hrange, hrange_le⟩ := hstate.rangeStart
    unfold ClassState.push
    rw [hrange]
    -- an open range is open in both states, with positions that are apart by the prefix
    cases hwaits : state.rangeStart with
    | none =>
      exact .ok ⟨hstate.flush_eq h, .some hposition, .none⟩
    | some waiting =>
      obtain ⟨first, rangePosition⟩ := waiting
      have hle := hrange_le _ hwaits
      simp only [Option.map_some, hstate.predicate, h.toCaseRules]
      cases q.insertClassRange state.predicate first unit with
      | none => exact .error (h.invalid_eq rfl hij (by omega) (by omega))
      | some predicate => exact .ok ⟨rfl, hstate.pendingLiteral, .none⟩
  | predicate members =>
    obtain rfl := htoken
    unfold ClassState.push
    rw [hstate.flush_eq h]
    refine .ite (by rw [hstate.rangeStart.isSome_eq]) (fun _ => ?_) fun _ => ?_
    · exact .error (h.invalid_eq hstart hij (by omega) (by omega))
    · exact .ok ⟨rfl, .none, hstate.rangeStart⟩
  | rangeMarker position =>
    obtain ⟨rfl, hposition⟩ := htoken
    obtain ⟨hpending, hpending_le⟩ := hstate.pendingLiteral
    unfold ClassState.push
    rw [hpending]
    cases hwaits : state.pendingLiteral with
    | none => exact .error (h.invalid_eq rfl hij (by omega) (by omega))
    | some waiting => exact .ok ⟨hstate.predicate, .none, .some (hpending_le _ hwaits)⟩

/-- The loop over the tokens ends alike. -/
theorem agree_parseClassItems (h : Behind k q p) {start start' : ℕ} (hstart : start' = start + k)
    (hstart_le : start ≤ q.units.length) (hij : j = i + k) (hi : i ≤ q.units.length)
    {state state' : ClassState} (hstate : StateLater k q state state') :
    Agree k q Eq (q.parseClassItems start i state) (p.parseClassItems start' j state') := by
  induction hn : q.units.length - i using Nat.strongRecOn generalizing i j state state' with
  | ind n ih =>
    rw [parseClassItems, parseClassItems]
    by_cases hlt : i < q.units.length
    · have hlt' : j < p.units.length := (h.lt_iff hij).mp hlt
      rw [dif_pos hlt, dif_pos hlt']
      refine .ite (by rw [h.getElem_eq hij hlt hlt']) (fun _ => ?_) fun _ => ?_
      · refine .ite (by rw [hstate.rangeStart.isSome_eq]) (fun _ => ?_) fun _ => ?_
        · exact Agree.refuse h hstart (by omega) (by omega) (by omega)
        · exact Agree.read (hstate.flush_eq h).symm (by show j + 1 = i + 1 + k; omega) hlt
      · refine (agree_parseClassToken h hij hlt hlt').bind fun token token' htoken hindex hle => ?_
        have hpush := relates_push h hstart hstart_le hindex hle hstate htoken
        refine Except.Relates.bind hpush fun next next' _ hnext => ?_
        have hrest := ih (q.units.length - token.index) (by have := token.start_le; omega) hindex
          hle hnext rfl
        exact hrest.bind fun rest rest' hvalue hlast hle =>
          Agree.read hvalue hlast hle
    · rw [dif_neg hlt, dif_neg (mt (h.lt_iff hij).mpr hlt)]
      exact Agree.refuse h hstart hij (by omega) (by omega)

/-- The bodies of classes are read alike. -/
theorem agree_parseClassBody (h : Behind k q p) {start start' : ℕ} (hstart : start' = start + k)
    (hstart_le : start ≤ q.units.length) (hij : j = i + k) (hi : i ≤ q.units.length)
    (inverted : Bool) :
    Agree k q Eq (q.parseClassBody start i inverted) (p.parseClassBody start' j inverted) := by
  have hinitial : StateLater k q .initial .initial := ⟨rfl, .none, .none⟩
  refine (agree_parseClassItems h hstart hstart_le hij hi hinitial).bind
    fun items items' hvalue hindex hle => Agree.read ?_ hindex hle
  show Hir.predicate (if inverted then items.value.complement else items.value) =
    Hir.predicate (if inverted then items'.value.complement else items'.value)
  rw [hvalue]

/-- Classes are read alike. -/
theorem agree_parseCharacterClass (h : Behind k q p) (hij : j = i + k)
    (hi : i < q.units.length) :
    Agree k q Eq (q.parseCharacterClass i) (p.parseCharacterClass j) := by
  have hcurrent : p.currentIs (j + 1) '^' = q.currentIs (i + 1) '^' :=
    h.currentIs_eq (by omega) _
  unfold parseCharacterClass
  rw [hcurrent]
  refine .ite Iff.rfl (fun hinverted => ?_) fun _ => ?_
  · have hlt := lt_length_of_currentIs hinverted
    exact (agree_parseClassBody h hij (Nat.le_of_lt hi) (show j + 2 = i + 2 + k by omega) hlt
      true).bind
      fun items items' hvalue hindex hle => Agree.read hvalue hindex hle
  · exact agree_parseClassBody h hij (Nat.le_of_lt hi) (by omega) hi false

/-! ### Repetitions -/

/-- Digits have the same value. -/
theorem later_parseDigits (h : Behind k q p) (hij : j = i + k) (hi : i ≤ q.units.length)
    (value : ℕ) : Later k q Eq (q.parseDigits i value) (p.parseDigits j value) := by
  induction hn : q.units.length - i using Nat.strongRecOn generalizing i j value with
  | ind n ih =>
    rw [parseDigits, parseDigits]
    have hget := h.getElem?_eq' hij
    split
    next hnone =>
      rw [hget, hnone]
      exact ⟨rfl, hij, hi⟩
    next unit hunit =>
      rw [hget, hunit]
      have hlt := (List.getElem?_eq_some_iff.mp hunit).1
      by_cases hdigit : ascii '0' ≤ unit ∧ unit ≤ ascii '9'
      · simp only [if_pos hdigit]
        exact ih (q.units.length - (i + 1)) (by omega) (show j + 1 = i + 1 + k by omega) hlt _ rfl
      · simp only [if_neg hdigit]
        exact ⟨rfl, hij, hi⟩

/-- The first count is read alike. -/
theorem agree_parseCount (h : Behind k q p) {start start' : ℕ} (hstart : start' = start + k)
    (hstart_le : start ≤ q.units.length) (hij : j = i + k) (hi : i ≤ q.units.length) :
    Agree k q Eq (q.parseCount start i) (p.parseCount start' j) := by
  obtain ⟨hvalue, hindex, hle⟩ := later_parseDigits h hij hi 0
  have hlength := h.length_eq
  unfold parseCount
  refine .ite ?_ (fun _ => ?_) fun _ => Agree.read hvalue hindex hle
  · rw [← hvalue, hindex, hij]
    omega
  · refine Agree.refuse h hstart ?_ (by omega) ?_
    · rw [hindex, hlength, hij]
      omega
    · omega

/-- The second count is read alike. -/
theorem agree_parseLimit (h : Behind k q p) {start start' : ℕ} (hstart : start' = start + k)
    (hstart_le : start ≤ q.units.length) (hij : j = i + k) (hi : i ≤ q.units.length) (count : ℕ) :
    Agree k q Eq (q.parseLimit start i count) (p.parseLimit start' j count) := by
  have hlength := h.length_eq
  have hcurrent : ∀ d (expected : Char), p.currentIs (j + d) expected =
      q.currentIs (i + d) expected := fun d expected => h.currentIs_eq (by omega) expected
  unfold parseLimit
  rw [h.currentIs_eq hij, h.currentIs_eq hij, hcurrent 1]
  -- both texts have the same units here, so they take the same branch
  refine .ite Iff.rfl (fun hclose => ?_) fun _ => .ite Iff.rfl (fun hcomma => ?_) fun _ => ?_
  · have hlt := lt_length_of_currentIs hclose
    exact Agree.read rfl (by show j + 1 = i + 1 + k; omega) hlt
  · refine .ite Iff.rfl (fun hclose => ?_) fun _ => ?_
    · have hlt := lt_length_of_currentIs hclose
      exact Agree.read rfl (by show j + 2 = i + 2 + k; omega) hlt
    · have hlt := lt_length_of_currentIs hcomma
      refine (agree_parseCount h hstart hstart_le (show j + 1 = i + 1 + k by omega) hlt).bind
        fun limit limit' hvalue hindex hle => ?_
      rw [h.currentIs_eq hindex]
      refine .ite Iff.rfl (fun _ => ?_) fun hopen => ?_
      · exact Agree.refuse h hstart (by omega) (by omega) (by omega)
      · have hlt := lt_length_of_currentIs (by simpa using hopen)
        exact Agree.read (congrArg some hvalue)
          (by show limit'.index + 1 = limit.index + 1 + k; omega) hlt
  · exact Agree.refuse h hstart (by omega) (by omega) (by omega)

/-- Counted repetitions are read alike. -/
theorem agree_parseCountedRepetition (h : Behind k q p) (hij : j = i + k)
    (hi : i < q.units.length) (expression : Hir) :
    Agree k q Eq (q.parseCountedRepetition expression i)
      (p.parseCountedRepetition expression j) := by
  unfold parseCountedRepetition
  refine (agree_parseCount h hij (Nat.le_of_lt hi) (show j + 1 = i + 1 + k by omega) hi).bind
    fun count count' hcount hindex hle => ?_
  rw [← hcount]
  refine (agree_parseLimit h hij (Nat.le_of_lt hi) hindex hle count.value).bind
    fun limit limit' hlimit hindex hle => ?_
  rw [← hlimit]
  refine .ite Iff.rfl (fun _ => ?_) fun _ => ?_
  · exact Agree.refuse h hij hindex (by omega) (by omega)
  · exact Agree.read rfl hindex hle

/-- A second quantifier is refused alike. -/
theorem agree_finishRepetition (h : Behind k q p) (hij : j = i + k) {repeated : Parsed i Hir}
    {repeated' : Parsed j Hir} (hrepeated : Later k q Eq repeated repeated') :
    Agree k q Eq (q.finishRepetition i repeated) (p.finishRepetition j repeated') := by
  obtain ⟨hvalue, hindex, hle⟩ := hrepeated
  have hstart := repeated.start_le
  unfold finishRepetition
  rw [h.getElem?_eq' hindex]
  refine .ite Iff.rfl (fun _ => ?_) fun _ => Agree.read hvalue hindex hle
  exact Agree.refuse h hij (by omega) (by omega) (by omega)

/-- Quantifiers are read alike. -/
theorem agree_parseRepetition (h : Behind k q p) (hij : j = i + k) (hi : i ≤ q.units.length)
    (expression : Hir) :
    Agree k q Eq (q.parseRepetition expression i) (p.parseRepetition expression j) := by
  have hoperator : ∀ {expected : Char} (value : Hir), q.currentIs i expected = true →
      Later k q Eq (⟨value, i + 1, Nat.le_succ _⟩ : Parsed i Hir)
        (⟨value, j + 1, Nat.le_succ _⟩ : Parsed j Hir) := fun value hcurrent =>
    ⟨rfl, by show j + 1 = i + 1 + k; omega, lt_length_of_currentIs hcurrent⟩
  unfold parseRepetition
  simp only [h.currentIs_eq hij]
  refine .ite Iff.rfl (fun hcurrent => agree_finishRepetition h hij (hoperator _ hcurrent))
    fun _ => ?_
  refine .ite Iff.rfl (fun hcurrent => agree_finishRepetition h hij (hoperator _ hcurrent))
    fun _ => ?_
  refine .ite Iff.rfl (fun hcurrent => agree_finishRepetition h hij (hoperator _ hcurrent))
    fun _ => ?_
  refine .ite Iff.rfl (fun hcurrent => ?_) fun _ => Agree.read rfl hij hi
  exact (agree_parseCountedRepetition h hij (lt_length_of_currentIs hcurrent) expression).bind
    fun repeated repeated' hvalue hindex hle => agree_finishRepetition h hij ⟨hvalue, hindex, hle⟩

/-! ### Expressions -/

/-- The items of a sequence decide about the sequence. -/
theorem agree_parseSequence {inGroup : Bool} {depth : ℕ}
    (h : Agree k q Eq (q.parseItems inGroup depth i) (p.parseItems inGroup depth j)) :
    Agree k q Eq (q.parseSequence inGroup depth i) (p.parseSequence inGroup depth j) := by
  rw [parseSequence, parseSequence]
  exact h.bind fun items items' hvalue hindex hle =>
    Agree.read (congrArg Hir.mkSequence hvalue) hindex hle

/-- The body of a group is an alternation. -/
theorem agree_parseGroupBody (h : Behind k q p) {start start' : ℕ} (hstart : start' = start + k)
    (hstart_le : start ≤ q.units.length) (hij : j = i + k)
    (hbody : ∀ depth,
      Agree k q Eq (q.parseAlternation true depth i) (p.parseAlternation true depth j))
    (depth : ℕ) :
    Agree k q Eq (q.parseGroupBody depth start i) (p.parseGroupBody depth start' j) := by
  rw [parseGroupBody, parseGroupBody, h.currentIs_eq hij, h.patternId]
  refine .ite Iff.rfl (fun hclose => ?_) fun _ => .ite Iff.rfl (fun _ => .error rfl) fun _ => ?_
  · have hlt := lt_length_of_currentIs hclose
    exact Agree.read rfl (by show j + 1 = i + 1 + k; omega) hlt
  · refine (hbody (depth + 1)).bind fun expression expression' hvalue hindex hle => ?_
    rw [h.currentIs_eq hindex]
    refine .ite Iff.rfl (fun _ => ?_) fun hclose => ?_
    · exact Agree.refuse h hstart h.length_eq (by omega) (by omega)
    · have hlt := lt_length_of_currentIs (by simpa using hclose)
      exact Agree.read hvalue (by show expression'.index + 1 = expression.index + 1 + k; omega) hlt

/-- Behind the prefix the parser reads everything alike from an index on. -/
structure AgreeFrom (k : ℕ) (q p : Parser) (i j : ℕ) : Prop where
  /-- Atoms are read alike. -/
  atom : ∀ depth, (hi : i < q.units.length) → (hj : j < p.units.length) →
    Agree k q Eq (q.parseAtom depth i hi) (p.parseAtom depth j hj)
  /-- So are the items of a sequence, -/
  items : ∀ inGroup depth,
    Agree k q Eq (q.parseItems inGroup depth i) (p.parseItems inGroup depth j)
  /-- the branches of an alternation, -/
  branches : ∀ inGroup depth,
    Agree k q Eq (q.parseBranches inGroup depth i) (p.parseBranches inGroup depth j)
  /-- and alternations. -/
  alternation : ∀ inGroup depth,
    Agree k q Eq (q.parseAlternation inGroup depth i) (p.parseAlternation inGroup depth j)

/-- It does so further on in the text. -/
def AgreeAfter (k : ℕ) (q p : Parser) (i : ℕ) : Prop :=
  ∀ i' j', i < i' → j' = i' + k → i' ≤ q.units.length → AgreeFrom k q p i' j'

/-- Groups are read alike, when everything behind the index is. -/
theorem agree_parseGroup (h : Behind k q p) (hij : j = i + k) (hlater : AgreeAfter k q p i)
    (depth : ℕ) (hi : i < q.units.length) (hj : j < p.units.length) :
    Agree k q Eq (q.parseGroup depth i hi) (p.parseGroup depth j hj) := by
  have hcurrent : ∀ d (expected : Char), p.currentIs (j + d) expected =
      q.currentIs (i + d) expected := fun d expected => h.currentIs_eq (by omega) expected
  have hlength := h.length_eq
  rw [parseGroup, parseGroup, hcurrent, hcurrent]
  refine .ite Iff.rfl (fun hquestion => .ite Iff.rfl (fun _ => ?_) fun hcolon => ?_) fun _ => ?_
  · have hlt₁ := lt_length_of_currentIs hquestion
    exact Agree.refuse h hij (by omega) (by omega) (by omega)
  · have hlt₂ := lt_length_of_currentIs (by simpa using hcolon)
    have hij₃ : j + 3 = i + 3 + k := by omega
    have hbody := hlater (i + 3) (j + 3) (by omega) hij₃ hlt₂
    refine (agree_parseGroupBody h hij (Nat.le_of_lt hi) hij₃ (hbody.alternation true) depth).bind
      fun group group' hvalue hindex hle => Agree.read hvalue hindex hle
  · have hij₁ : j + 1 = i + 1 + k := by omega
    have hbody := hlater (i + 1) (j + 1) (by omega) hij₁ hi
    exact agree_parseGroupBody h hij (Nat.le_of_lt hi) hij₁ (hbody.alternation true) depth

/-- Atoms are read alike, when everything behind the index is. -/
theorem agree_parseAtom (h : Behind k q p) (hij : j = i + k) (hlater : AgreeAfter k q p i)
    (depth : ℕ) (hi : i < q.units.length) (hj : j < p.units.length) :
    Agree k q Eq (q.parseAtom depth i hi) (p.parseAtom depth j hj) := by
  have hread : ∀ expression : Hir, Agree k q Eq
      (.ok (⟨expression, i + 1, Nat.le_refl _⟩ : Parsed (i + 1) Hir))
      (.ok (⟨expression, j + 1, Nat.le_refl _⟩ : Parsed (j + 1) Hir)) := fun expression =>
    Agree.read rfl (by show j + 1 = i + 1 + k; omega) hi
  rw [parseAtom, parseAtom]
  simp only [h.getElem_eq hij hi hj, h.toCaseRules]
  refine .ite Iff.rfl (fun _ => hread _) fun _ => ?_
  refine .ite Iff.rfl (fun _ => agree_parseEscape h hij hi) fun _ => ?_
  refine .ite Iff.rfl (fun _ => agree_parseCharacterClass h hij hi) fun _ => ?_
  refine .ite Iff.rfl (fun _ => agree_parseGroup h hij hlater depth hi hj) fun _ => ?_
  refine .ite Iff.rfl (fun _ => hread _) fun _ => ?_
  refine .ite Iff.rfl (fun _ => hread _) fun _ => ?_
  refine .ite Iff.rfl (fun _ => ?_) fun _ => hread _
  exact Agree.refuse h hij (by omega) (by omega) (by omega)

/-- Items are read alike, when everything behind the index is. -/
theorem agree_parseItems (h : Behind k q p) (hij : j = i + k) (hi : i ≤ q.units.length)
    (hlater : AgreeAfter k q p i) (inGroup : Bool) (depth : ℕ) :
    Agree k q Eq (q.parseItems inGroup depth i) (p.parseItems inGroup depth j) := by
  rw [parseItems, parseItems]
  by_cases hlt : i < q.units.length
  · have hlt' : j < p.units.length := (h.lt_iff hij).mp hlt
    rw [dif_pos hlt, dif_pos hlt']
    simp only [h.getElem_eq hij hlt hlt']
    refine .ite Iff.rfl (fun _ => Agree.read rfl hij hi) fun _ => ?_
    refine .ite Iff.rfl (fun _ => Agree.refuse h hij (by omega) (by omega) (by omega))
      fun _ => ?_
    refine (agree_parseAtom h hij hlater depth hlt hlt').bind fun atom atom' hvalue hindex hle => ?_
    rw [← hvalue]
    refine (agree_parseRepetition h hindex hle atom.value).bind
      fun item item' hitem hindex hle => ?_
    -- the item has moved the index, so the rest of the sequence is read alike
    have hstart := atom.start_le
    have hstart' := item.start_le
    have hrest := hlater item.index item'.index (by omega) hindex hle
    refine (hrest.items inGroup depth).bind
      fun rest rest' hrest hindex hle => Agree.read ?_ hindex hle
    show item.value :: rest.value = item'.value :: rest'.value
    rw [hitem, hrest]
  · rw [dif_neg hlt, dif_neg (mt (h.lt_iff hij).mpr hlt)]
    exact Agree.read rfl hij hi

/-- Branches are read alike, when everything behind the index is. -/
theorem agree_parseBranches (h : Behind k q p) (hij : j = i + k) (hi : i ≤ q.units.length)
    (hlater : AgreeAfter k q p i) (inGroup : Bool) (depth : ℕ) :
    Agree k q Eq (q.parseBranches inGroup depth i) (p.parseBranches inGroup depth j) := by
  have hcurrent : p.currentIs (j + 1) ')' = q.currentIs (i + 1) ')' :=
    h.currentIs_eq (by omega) _
  have hlength := h.length_eq
  rw [parseBranches, parseBranches]
  by_cases hbar : q.currentIs i '|' = true
  · have hlt := lt_length_of_currentIs hbar
    have hij₁ : j + 1 = i + 1 + k := by omega
    rw [dif_pos hbar, dif_pos ((h.currentIs_eq hij _).trans hbar), hcurrent]
    refine .ite (or_congr_left (by omega)) (fun _ => Agree.read rfl hij₁ hlt) fun _ => ?_
    have hbranch := hlater (i + 1) (j + 1) (by omega) hij₁ hlt
    refine (agree_parseSequence (hbranch.items inGroup depth)).bind
      fun branch branch' hbranch hindex hle => ?_
    have hstart := branch.start_le
    have hrest := hlater branch.index branch'.index (by omega) hindex hle
    refine (hrest.branches inGroup depth).bind
      fun rest rest' hrest hindex hle => Agree.read ?_ hindex hle
    show branch.value :: rest.value = branch'.value :: rest'.value
    rw [hbranch, hrest]
  · rw [dif_neg hbar, dif_neg (by rwa [h.currentIs_eq hij])]
    exact Agree.read rfl hij hi

/-- Alternations are read alike, when everything behind the index is. -/
theorem agree_parseAlternation (h : Behind k q p) (hij : j = i + k) (hi : i ≤ q.units.length)
    (hlater : AgreeAfter k q p i) (inGroup : Bool) (depth : ℕ) :
    Agree k q Eq (q.parseAlternation inGroup depth i) (p.parseAlternation inGroup depth j) := by
  rw [parseAlternation, parseAlternation]
  refine (agree_parseSequence (agree_parseItems h hij hi hlater inGroup depth)).bind
    fun first first' hfirst hindex hle => ?_
  -- an empty first branch does not move the index
  have hrest : Agree k q Eq (q.parseBranches inGroup depth first.index)
      (p.parseBranches inGroup depth first'.index) := by
    rcases Nat.eq_or_lt_of_le first.start_le with heq | hlt
    · rw [hindex, ← heq, ← hij]
      exact agree_parseBranches h hij hi hlater inGroup depth
    · exact (hlater first.index first'.index hlt hindex hle).branches inGroup depth
  refine hrest.bind fun rest rest' hrest hindex hle => Agree.read ?_ hindex hle
  show Hir.mkAlternation (first.value :: rest.value) =
    Hir.mkAlternation (first'.value :: rest'.value)
  rw [hfirst, hrest]

/-- Everything the parser reads from an index on, behind a prefix; the induction is on how much text
is left. -/
theorem agree_parse (h : Behind k q p) (n : ℕ) : ∀ (i j : ℕ), q.units.length - i = n →
    j = i + k → i ≤ q.units.length → AgreeFrom k q p i j := by
  induction n using Nat.strongRecOn with
  | ind n ih =>
    intro i j hn hij hi
    have hlater : AgreeAfter k q p i := fun i' j' hlt hij' hle =>
      ih (q.units.length - i') (by omega) i' j' rfl hij' hle
    exact ⟨agree_parseAtom h hij hlater, agree_parseItems h hij hi hlater,
      agree_parseBranches h hij hi hlater, agree_parseAlternation h hij hi hlater⟩

/-- A whole text that begins with no flags, and the text behind the prefix `(?i)`. -/
theorem relates_parseExpression (h : Behind k q p) (hij : j = i + k) (hi : i ≤ q.units.length)
    {q' p' : Parser} (hq : q'.consumeFlagPrefix = (q, i)) (hp : p'.consumeFlagPrefix = (p, j)) :
    Except.Relates (fun e e' => e' = e.shift k) Eq q'.parseExpression p'.parseExpression := by
  have hlength := h.length_eq
  have hagree := (agree_parse h _ i j rfl hij hi).alternation false 0
  unfold parseExpression
  rw [hq, hp]
  refine Except.Relates.bind hagree fun expression expression' _ hlater => ?_
  obtain ⟨hvalue, hindex, hle⟩ := hlater
  refine .ite (by omega) (fun _ => ?_) fun _ => .ok hvalue
  exact .error (h.invalid_eq hindex (by omega) (by omega) (by omega))

end Phrases

end Parser

/-- The prefix that stands for the flag. -/
def caseFlagPrefix : List UInt16 := [ascii '(', ascii '?', ascii 'i', ascii ')']

/-- A text that begins with no flags is read with `CASE_INSENSITIVE` as it is read behind `(?i)`:
both are accepted with one expression, or both are refused. A syntax error stands four units further
on; a text that is refused as zero-width is refused with its whole span both times. -/
theorem flag_agrees_with_prefix (lowerUpper : UInt16 → UInt16 × UInt16) (patternId : PatternId)
    (units : List UInt16) (hunits : units ≠ [])
    (hplain : ∀ flags rest, FlagPrefixText flags →
      units ≠ ascii '(' :: ascii '?' :: (flags ++ ascii ')' :: rest))
    (prefixed : Utf16Text) (hprefixed : prefixed.units = caseFlagPrefix ++ units) :
    let typed := Parser.new lowerUpper patternId units .caseInsensitive
    let flagged := Parser.new lowerUpper patternId prefixed.units .none
    (∃ pattern, parseWithFlags lowerUpper patternId units .caseInsensitive = .ok pattern ∧
      parseWithFlags lowerUpper patternId prefixed.units .none = .ok pattern) ∨
    (∃ reason, typed.parseExpression = .error reason ∧
      parseWithFlags lowerUpper patternId units .caseInsensitive = .error reason ∧
      parseWithFlags lowerUpper patternId prefixed.units .none = .error (reason.shift 4)) ∨
    ∃ expression, typed.parseExpression = .ok expression ∧
      flagged.parseExpression = .ok expression ∧
      parseWithFlags lowerUpper patternId units .caseInsensitive =
        .error (.invalidPattern patternId ⟨0, units.length⟩) ∧
      parseWithFlags lowerUpper patternId prefixed.units .none =
        .error (.invalidPattern patternId ⟨0, prefixed.units.length⟩) := by
  intro typed flagged
  have hlength : prefixed.units.length = units.length + 4 := by
    rw [hprefixed, List.length_append, Nat.add_comm]
    rfl
  have hle := prefixed.length_le
  have hprefixed_ne : prefixed.units ≠ [] := by
    rw [hprefixed]
    exact List.cons_ne_nil _ _
  -- the two texts behind their flags
  have hbehind : Parser.Behind 4 typed (flagged.withFlags [ascii 'i']) := by
    refine ⟨?_, rfl, hlength, fun index => ?_, hle⟩
    · show (⟨PatternFlags.none.isCaseInsensitive || [ascii 'i'].contains (ascii 'i'), lowerUpper⟩ :
        CaseRules) = ⟨PatternFlags.caseInsensitive.isCaseInsensitive, lowerUpper⟩
      rw [show (PatternFlags.none.isCaseInsensitive || [ascii 'i'].contains (ascii 'i')) =
        PatternFlags.caseInsensitive.isCaseInsensitive by decide]
    · show prefixed.units[index + 4]? = units[index]?
      rw [hprefixed, List.getElem?_append_right (Nat.le_add_left 4 index)]
      exact congrArg (units[·]?) (Nat.add_sub_cancel index 4)
  have htyped : typed.consumeFlagPrefix = (typed, 0) := by
    obtain ⟨flags, stop, hset, -⟩ | ⟨-, hconsume⟩ := typed.consumeFlagPrefix_cases
    · exact absurd hset.units_eq (hplain flags _ hset.1)
    · exact hconsume
  have hflagged : flagged.consumeFlagPrefix = (flagged.withFlags [ascii 'i'], 4) := by
    have hflags : flagged.HasFlags [ascii 'i'] 4 :=
      ⟨⟨List.cons_ne_nil _ _, by simp⟩, isSlice_of_eq_append hprefixed⟩
    obtain ⟨flags, stop, hset, hconsume⟩ | ⟨hnone, -⟩ := flagged.consumeFlagPrefix_cases
    · obtain ⟨rfl, rfl⟩ := hset.unique hflags
      exact hconsume
    · exact absurd hflags (hnone _ _)
  have hrelates := Parser.relates_parseExpression hbehind (Nat.zero_add 4).symm (Nat.zero_le _)
    htyped hflagged
  generalize hreadTyped : typed.parseExpression = readTyped at hrelates
  generalize hreadFlagged : flagged.parseExpression = readFlagged at hrelates
  cases hrelates with
  | @error reason reason' hreason =>
    subst hreason
    exact Or.inr (Or.inl ⟨reason, rfl, parseWithFlags_eq_of_error hunits hreadTyped,
      parseWithFlags_eq_of_error hprefixed_ne hreadFlagged⟩)
  | @ok expression expression' hexpression =>
    subst hexpression
    have htext := Parser.parseExpression_eq_ok_iff.mp hreadTyped
    have htext' := Parser.parseExpression_eq_ok_iff.mp hreadFlagged
    rw [parseWithFlags_eq_of_patternText hunits htext,
      parseWithFlags_eq_of_patternText hprefixed_ne htext']
    by_cases hwidth :
        (HirPattern.new patternId expression htext.sequencesNonempty).isZeroWidth = true
    · rw [if_pos hwidth, if_pos hwidth]
      unfold maxUnits at hle
      refine Or.inr (Or.inr ⟨expression, rfl, rfl, ?_, ?_⟩)
      · rw [Parser.invalid, if_pos ⟨by omega, by omega⟩]
        rfl
      · rw [Parser.invalid, if_pos ⟨by omega, by omega⟩]
        rfl
    · rw [if_neg hwidth, if_neg hwidth]
      exact Or.inl ⟨_, rfl, rfl⟩

/-- `(?:a` begins like flags, but with none. -/
theorem flag_agrees_with_prefix_open_group :
    (∃ pattern, parseWithFlags (fun unit => (unit, unit)) ⟨7⟩
        [ascii '(', ascii '?', ascii ':', ascii 'a'] .caseInsensitive = .ok pattern) ↔
      ∃ pattern, parseWithFlags (fun unit => (unit, unit)) ⟨7⟩
        (caseFlagPrefix ++ [ascii '(', ascii '?', ascii ':', ascii 'a']) .none = .ok pattern := by
  -- the text is no flag prefix, as `:` is no flag
  have hplain : ∀ flags rest, FlagPrefixText flags → [ascii '(', ascii '?', ascii ':', ascii 'a'] ≠
      ascii '(' :: ascii '?' :: (flags ++ ascii ')' :: rest) := by
    intro flags rest hflags heq
    obtain ⟨flag, more, rfl⟩ := List.exists_cons_of_ne_nil hflags.ne_nil
    have hflag : ascii ':' = flag := (List.cons.inj (List.cons.inj (List.cons.inj heq).2).2).1
    obtain rfl | rfl := hflags.known flag List.mem_cons_self
    · exact absurd hflag (by decide)
    · exact absurd hflag (by decide)
  have hagrees := flag_agrees_with_prefix (fun unit => (unit, unit)) ⟨7⟩ _ (List.cons_ne_nil _ _)
    hplain ⟨caseFlagPrefix ++ [ascii '(', ascii '?', ascii ':', ascii 'a'], by decide⟩ rfl
  rcases hagrees with ⟨pattern, htyped, hflagged⟩ | ⟨reason, -, htyped, hflagged⟩ |
    ⟨expression, -, -, htyped, hflagged⟩
  · exact iff_of_true ⟨pattern, htyped⟩ ⟨pattern, hflagged⟩
  · rw [htyped]
    refine iff_of_false nofun ?_
    rintro ⟨pattern, hpattern⟩
    cases hflagged.symm.trans hpattern
  · rw [htyped]
    refine iff_of_false nofun ?_
    rintro ⟨pattern, hpattern⟩
    cases hflagged.symm.trans hpattern

end Rustmatch

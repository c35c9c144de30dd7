import Rustmatch.Nfa.Correct
import Rustmatch.Prefilter.Bitmaps
import Rustmatch.Prefilter.NecessaryPrefix
import Rustmatch.Prefilter.StartTable

/-!
# The literal filter rules out no match

Every pattern behind a literal filter has a hint: the first units of its necessary prefix, at least
three and at most thirty-two. The tables know every hint, by all three of its units, by all four, or
by its first five, and they admit a start as soon as one of the units there is not ASCII. So they
admit every start at which a pattern has an accepted end.

## Main results

* `PrefixTables.allows_of_knows`, `knows_of_compile`: tables and hints;
* `admits_of_ends`: a start with an accepted end is a candidate.
-/

open WordBits

namespace Rustmatch

/-! ### Tables and hints -/

/-- A table knows some units: the table is in use, and their bit is set if they are ASCII. -/
def KnowsAscii (known : Bool) (words : List Word) (index : List UInt16 → ℕ)
    (units : List UInt16) : Prop :=
  known = true ∧ ((∀ unit ∈ units, unit < 128) → containsBit words (index units) = true)

/-- The index of three units in the exact table. -/
def tripleIndex (units : List UInt16) : ℕ :=
  asciiTripleIndex (units.getD 0 0) (units.getD 1 0) (units.getD 2 0)

/-- The tables know a literal by all of its three or four units, or by its first five. -/
structure PrefixTables.Knows (tables : PrefixTables) (fourBits fiveBits : ℕ)
    (units : List UInt16) : Prop where
  /-- A literal of three units has its bit. -/
  three : units.length = 3 →
    KnowsAscii tables.hasThree tables.asciiThreeExact tripleIndex (units.take 3)
  /-- A literal of four units has the bit of its hash. -/
  four : units.length = 4 → KnowsAscii tables.hasFour tables.asciiFourHash
    (prefixHashIndex · fourBits) (units.take 4)
  /-- A longer one has the bit of the hash of its first five units. -/
  five : 5 ≤ units.length → KnowsAscii tables.hasFive tables.asciiFiveHash
    (prefixHashIndex · fiveBits) (units.take 5)

/-- What is known stays known when no bit is lost. -/
theorem KnowsAscii.mono {known known' : Bool} {words words' : List Word}
    {index : List UInt16 → ℕ} {units : List UInt16} (h : KnowsAscii known words index units)
    (hknown : known = true → known' = true)
    (hbits : ∀ bit, containsBit words bit = true → containsBit words' bit = true) :
    KnowsAscii known' words' index units :=
  ⟨hknown h.1, fun hascii => hbits _ (h.2 hascii)⟩

/-- A beginning of what lies at a start, as a slice. -/
theorem getRange_eq_some_of_begins {units input : List UInt16} {start : ℕ}
    (h : units <+: input.drop start) {count : ℕ} (hcount : count ≤ units.length)
    (hpos : 0 < count) : getRange input start (start + count) = some (units.take count) := by
  obtain ⟨tail, htail⟩ := h
  have hlength : units.length + tail.length = input.length - start := by
    rw [← List.length_append, htail, List.length_drop]
  unfold getRange
  rw [if_pos ⟨Nat.le_add_right _ _, by omega⟩, Nat.add_sub_cancel_left, ← htail,
    List.take_append_of_le_length hcount]

/-- Tables allow every start at which a literal they know begins. -/
theorem PrefixTables.allows_of_knows {tables : PrefixTables} {fourBits fiveBits : ℕ}
    {units input : List UInt16} {start : ℕ} (h : tables.Knows fourBits fiveBits units)
    (hlength : 3 ≤ units.length) (hbegins : units <+: input.drop start) :
    tables.allows fourBits fiveBits input start = true := by
  have htriple : (input.drop start).take minLiteralUnits = units.take 3 := by
    obtain ⟨tail, htail⟩ := hbegins
    rw [← htail]
    exact List.take_append_of_le_length hlength
  -- a slice without large units that ends in a given unit
  have hextend : ∀ n < units.length, (∀ unit ∈ units.take n, unit < 128) →
      ¬ 128 ≤ (units.take (n + 1)).getD n 0 → ∀ unit ∈ units.take (n + 1), unit < 128 := by
    intro n hn hall hlast unit hunit
    rw [List.getD_eq_getElem _ _ (by rw [List.length_take]; omega), List.getElem_take] at hlast
    rw [List.take_succ_eq_append_getElem hn] at hunit
    rcases List.mem_append.mp hunit with hunit | hunit
    · exact hall unit hunit
    · rw [List.mem_singleton.mp hunit]
      exact UInt16.not_le.mp hlast
  unfold PrefixTables.allows
  rw [htriple]
  by_cases hlarge : (units.take 3).any (128 ≤ ·) = true
  · exact if_pos hlarge
  · have hthree : ∀ unit ∈ units.take 3, unit < 128 := by
      intro unit hunit
      by_contra hnot
      exact hlarge (List.any_eq_true.mpr ⟨unit, hunit, decide_eq_true (UInt16.not_lt.mp hnot)⟩)
    rw [if_neg hlarge]
    split
    · rfl
    next hno3 =>
      -- the literal is longer than three units
      have hlen3 : units.length ≠ 3 := by
        intro hlen
        obtain ⟨hknown, hbit⟩ := h.three hlen
        exact hno3 (by rw [hknown, Bool.true_and]; exact hbit hthree)
      rw [getRange_eq_some_of_begins hbegins (by omega : 4 ≤ units.length) (by decide)]
      show (if 128 ≤ (units.take 4).getD 3 0 then true else _) = true
      by_cases hlarge4 : 128 ≤ (units.take 4).getD 3 0
      · exact if_pos hlarge4
      · have hfour := hextend 3 (by omega) hthree hlarge4
        rw [if_neg hlarge4]
        split
        · rfl
        next hno4 =>
          -- the literal is longer than four units
          have hlen4 : units.length ≠ 4 := by
            intro hlen
            obtain ⟨hknown, hbit⟩ := h.four hlen
            exact hno4 (by rw [hknown, Bool.true_and]; exact hbit hfour)
          rw [getRange_eq_some_of_begins hbegins (by omega : 5 ≤ units.length) (by decide)]
          show (if 128 ≤ (units.take 5).getD 4 0 then true else _) = true
          by_cases hlarge5 : 128 ≤ (units.take 5).getD 4 0
          · exact if_pos hlarge5
          · rw [if_neg hlarge5]
            obtain ⟨hknown, hbit⟩ := h.five (by omega)
            rw [hknown, Bool.true_and]
            exact hbit (hextend 4 (by omega) hfour hlarge5)

/-! ### Compiled tables -/

/-- The tables have their full sizes. -/
structure LiteralPrefilter.Sized (filter : LiteralPrefilter) : Prop where
  /-- There is a bit for every triple of ASCII units. -/
  three : filter.asciiThreeExact.length = asciiTripleWords
  /-- There is a bit for every hash of four units. -/
  four : filter.asciiFourHash.length = fourPrefixHashWords
  /-- There is a bit for every hash of five units. -/
  five : filter.asciiFiveHash.length = fivePrefixHashWords

/-- Hashes are reduced to the size of their table. -/
theorem prefixHashIndex_lt (units : List UInt16) {bits : ℕ} (hbits : 0 < bits) :
    prefixHashIndex units bits < bits := by
  unfold prefixHashIndex
  rw [UInt64.toNat_and]
  refine lt_of_le_of_lt Nat.and_le_right ?_
  rw [UInt64.toNat_ofNat']
  have := Nat.mod_le (bits - 1) (2 ^ 64)
  omega

/-- ASCII triples have their place in the exact table. -/
theorem tripleIndex_lt {units : List UInt16} (hlength : 3 ≤ units.length)
    (hascii : ∀ unit ∈ units, unit < 128) : tripleIndex units < asciiTripleWords * 64 := by
  have hunit : ∀ i < 3, (units.getD i 0).toNat < 128 := by
    intro i hi
    have hlt : i < units.length := by omega
    rw [List.getD_eq_getElem _ _ hlt]
    exact UInt16.lt_iff_toNat_lt.mp (hascii _ (List.getElem_mem hlt))
  have h0 := hunit 0 (by decide)
  have h1 := hunit 1 (by decide)
  have h2 := hunit 2 (by decide)
  show _ < 2 ^ 21
  unfold tripleIndex asciiTripleIndex
  refine Nat.or_lt_two_pow (Nat.or_lt_two_pow ?_ ?_) ?_
  · rw [Nat.shiftLeft_eq]
    omega
  · rw [Nat.shiftLeft_eq]
    omega
  · omega

/-- A hint's bit is set if it is ASCII, and no bit is lost. -/
theorem keepsBits_setIf {words : List Word} {index : List UInt16 → ℕ} {units : List UInt16}
    (hindex : (∀ unit ∈ units, unit < 128) → index units < words.length * 64) :
    KeepsBits words (if units.all (· < 128) then setBit words (index units) else words) ∧
      KnowsAscii true (if units.all (· < 128) then setBit words (index units) else words) index
        units := by
  by_cases hall : units.all (· < 128) = true
  · have hascii : ∀ unit ∈ units, unit < 128 := fun unit hunit =>
      of_decide_eq_true (List.all_eq_true.mp hall unit hunit)
    obtain ⟨hkeeps, hset⟩ := keepsBits_setBit
      ((Nat.div_lt_iff_lt_mul (by decide)).mpr (hindex hascii))
    rw [if_pos hall]
    exact ⟨hkeeps, rfl, fun _ => hset⟩
  · rw [if_neg hall]
    refine ⟨KeepsBits.refl _, rfl, fun hascii => absurd ?_ hall⟩
    exact List.all_eq_true.mpr fun unit hunit => decide_eq_true (hascii unit hunit)

namespace LiteralPrefilter

/-- What the tables of `filter` know, those of `filter'` know. -/
structure Extends (filter filter' : LiteralPrefilter) : Prop where
  /-- No bit of a triple is lost. -/
  three : KeepsBits filter.asciiThreeExact filter'.asciiThreeExact
  /-- No bit of a hash of four units is lost. -/
  four : KeepsBits filter.asciiFourHash filter'.asciiFourHash
  /-- No bit of a hash of five units is lost. -/
  five : KeepsBits filter.asciiFiveHash filter'.asciiFiveHash
  /-- Literals of three units stay known. -/
  hasThree : filter.hasThree = true → filter'.hasThree = true
  /-- Literals of four units stay known. -/
  hasFour : filter.hasFour = true → filter'.hasFour = true
  /-- Longer literals stay known. -/
  hasFive : filter.hasFive = true → filter'.hasFive = true

/-- Tables extend themselves. -/
theorem Extends.refl (filter : LiteralPrefilter) : Extends filter filter :=
  ⟨KeepsBits.refl _, KeepsBits.refl _, KeepsBits.refl _, id, id, id⟩

/-- Tables are extended step by step. -/
theorem Extends.trans {filter filter' filter'' : LiteralPrefilter} (h : Extends filter filter')
    (h' : Extends filter' filter'') : Extends filter filter'' :=
  ⟨h.three.trans h'.three, h.four.trans h'.four, h.five.trans h'.five,
    h'.hasThree ∘ h.hasThree, h'.hasFour ∘ h.hasFour, h'.hasFive ∘ h.hasFive⟩

/-- Extended tables know what the tables know. -/
theorem Extends.knows {filter filter' : LiteralPrefilter} (h : Extends filter filter')
    {fourBits fiveBits : ℕ} {units : List UInt16} (hknows : filter.Knows fourBits fiveBits units) :
    filter'.Knows fourBits fiveBits units where
  three hlength := (hknows.three hlength).mono h.hasThree h.three.2
  four hlength := (hknows.four hlength).mono h.hasFour h.four.2
  five hlength := (hknows.five hlength).mono h.hasFive h.five.2

/-- Extended tables have the same sizes. -/
theorem Sized.of_extends {filter filter' : LiteralPrefilter} (hsized : filter.Sized)
    (h : Extends filter filter') : filter'.Sized :=
  ⟨h.three.1.trans hsized.three, h.four.1.trans hsized.four, h.five.1.trans hsized.five⟩

/-- Adding a hint. -/
theorem add_spec {filter : LiteralPrefilter} (hsized : filter.Sized) (hint : NecessaryLiteral) :
    Extends filter (filter.add hint) ∧
      (filter.add hint).Knows (fourPrefixHashWords * 64) (fivePrefixHashWords * 64) hint.units := by
  unfold add
  -- three units go into the exact table, four and five into the hash tables
  by_cases h3 : hint.units.length = 3
  · obtain ⟨hkeeps, hknows⟩ := @keepsBits_setIf filter.asciiThreeExact tripleIndex
      (hint.units.take 3) fun hascii => by
        rw [hsized.three]
        exact tripleIndex_lt (by rw [List.length_take]; omega) hascii
    have htake : hint.units.take 3 = hint.units := List.take_of_length_le (by omega)
    rw [if_pos h3]
    refine ⟨⟨?_, KeepsBits.refl _, KeepsBits.refl _, fun _ => rfl, id, id⟩, ⟨fun _ => ?_, ?_, ?_⟩⟩
    · rw [htake] at hkeeps ⊢
      exact hkeeps
    · rw [htake] at hknows ⊢
      exact hknows
    · exact fun h4 => absurd h4 (by omega)
    · exact fun h5 => absurd h5 (by omega)
  · rw [if_neg h3]
    by_cases h4 : hint.units.length = 4
    · obtain ⟨hkeeps, hknows⟩ := @keepsBits_setIf filter.asciiFourHash
        (prefixHashIndex · (fourPrefixHashWords * 64)) (hint.units.take 4) fun _ => by
          rw [hsized.four]
          exact prefixHashIndex_lt _ (by decide)
      rw [if_pos h4]
      refine ⟨⟨KeepsBits.refl _, hkeeps, KeepsBits.refl _, id, fun _ => rfl, id⟩,
        ⟨fun h => absurd h h3, fun _ => hknows, fun h5 => absurd h5 (by omega)⟩⟩
    · obtain ⟨hkeeps, hknows⟩ := @keepsBits_setIf filter.asciiFiveHash
        (prefixHashIndex · (fivePrefixHashWords * 64)) (hint.units.take 5) fun _ => by
          rw [hsized.five]
          exact prefixHashIndex_lt _ (by decide)
      rw [if_neg h4]
      refine ⟨⟨KeepsBits.refl _, KeepsBits.refl _, hkeeps, id, id, fun _ => rfl⟩,
        ⟨fun h => absurd h h3, fun h => absurd h h4, fun _ => hknows⟩⟩

/-- The loop over the hints. -/
theorem foldl_add_spec {filter : LiteralPrefilter} (hsized : filter.Sized)
    (hints : List NecessaryLiteral) :
    Extends filter (hints.foldl add filter) ∧ ∀ hint ∈ hints,
      (hints.foldl add filter).Knows (fourPrefixHashWords * 64) (fivePrefixHashWords * 64)
        hint.units := by
  induction hints generalizing filter with
  | nil => exact ⟨Extends.refl _, by simp⟩
  | cons hint hints ih =>
    obtain ⟨hextends, hknows⟩ := add_spec hsized hint
    obtain ⟨hextends', hall⟩ := ih (hsized.of_extends hextends)
    exact ⟨hextends.trans hextends', List.forall_mem_cons.mpr ⟨hextends'.knows hknows, hall⟩⟩

/-- Compiled tables know all hints. -/
theorem knows_of_compile (hints : List NecessaryLiteral) :
    (compile hints).Sized ∧ ∀ hint ∈ hints,
      (compile hints).Knows (fourPrefixHashWords * 64) (fivePrefixHashWords * 64) hint.units := by
  have hsized : Sized ⟨List.replicate asciiTripleWords 0#64,
      List.replicate fourPrefixHashWords 0#64, List.replicate fivePrefixHashWords 0#64, false,
      false, false⟩ :=
    ⟨List.length_replicate, List.length_replicate, List.length_replicate⟩
  obtain ⟨hextends, hall⟩ := foldl_add_spec hsized hints
  exact ⟨hsized.of_extends hextends, hall⟩

end LiteralPrefilter

/-! ### Hints of patterns -/

/-- Every element of a list that is mapped successfully has its image. -/
theorem exists_of_mapM_eq_some {α β : Type} {f : α → Option β} {items : List α} {images : List β}
    (h : items.mapM f = some images) : ∀ item ∈ items, ∃ image ∈ images, f item = some image := by
  induction items generalizing images with
  | nil => simp
  | cons item items ih =>
    rw [List.mapM_cons] at h
    cases hitem : f item with
    | none => simp [hitem] at h
    | some image =>
      cases hitems : items.mapM f with
      | none => simp [hitem, hitems] at h
      | some rest =>
        have hcons : image :: rest = images := by simpa [hitem, hitems] using h
        subst hcons
        refine List.forall_mem_cons.mpr ⟨⟨image, List.mem_cons_self, hitem⟩, fun other hother => ?_⟩
        obtain ⟨found, hfound, heq⟩ := ih hitems other hother
        exact ⟨found, List.mem_cons_of_mem _ hfound, heq⟩

/-- The images of a list come from its items. -/
theorem exists_of_mem_mapM {α β : Type} {f : α → Option β} {items : List α} {images : List β}
    (h : items.mapM f = some images) : ∀ image ∈ images, ∃ item ∈ items, f item = some image := by
  induction items generalizing images with
  | nil =>
    obtain rfl : [] = images := by simpa using h
    simp
  | cons item items ih =>
    rw [List.mapM_cons] at h
    cases hitem : f item with
    | none => simp [hitem] at h
    | some first =>
      cases hitems : items.mapM f with
      | none => simp [hitem, hitems] at h
      | some rest =>
        obtain rfl : first :: rest = images := by simpa [hitem, hitems] using h
        refine List.forall_mem_cons.mpr ⟨⟨item, List.mem_cons_self, hitem⟩, fun image himage => ?_⟩
        obtain ⟨other, hother, heq⟩ := ih hitems image himage
        exact ⟨other, List.mem_cons_of_mem _ hother, heq⟩

section Prefilter

variable {patterns : List HirPattern} {database : PatternDatabase}

/-- The literal filter of a prefilter is sized and knows a beginning of the necessary prefix of
every pattern. -/
theorem Prefilter.knows_of_compile {filter : LiteralPrefilter}
    (hfilter : (Prefilter.compile patterns database).literal = some filter) :
    filter.Sized ∧ ∀ p ∈ patterns, ∃ units, 3 ≤ units.length ∧
      units <+: p.expression.necessaryPrefix ∧
      filter.Knows (fourPrefixHashWords * 64) (fivePrefixHashWords * 64) units := by
  unfold Prefilter.compile at hfilter
  split at hfilter
  next => cases hfilter
  next =>
    simp only at hfilter
    split at hfilter
    next => cases hfilter
    next =>
      split at hfilter
      next hints hhints =>
        obtain rfl := Option.some.inj hfilter
        obtain ⟨hsized, hknows⟩ := LiteralPrefilter.knows_of_compile hints
        refine ⟨hsized, fun p hp => ?_⟩
        obtain ⟨i, hi⟩ := List.mem_iff_getElem?.mp hp
        have hmem : (p, i) ∈ patterns.zipIdx := List.mk_mem_zipIdx_iff_getElem?.mpr hi
        -- every pattern has a hint, otherwise no tables are made
        obtain ⟨hint, hhint, heq⟩ := exists_of_mapM_eq_some hhints (p, i) hmem
        unfold NecessaryLiteral.fromPattern at heq
        simp only at heq
        split at heq
        next hlength =>
          obtain rfl := Option.some.inj heq
          exact ⟨_, hlength, List.take_prefix _ _, hknows _ hhint⟩
        next => cases heq
      next => cases hfilter

/-- The start table of a prefilter. -/
theorem Prefilter.startTable_of_compile {table : StartTable}
    (htable : (Prefilter.compile patterns database).startTable = some table) :
    StartTable.compile database = some table := by
  unfold Prefilter.compile at htable
  split at htable
  next => cases htable
  next =>
    simp only at htable
    split at htable
    next => exact htable
    next =>
      split at htable
      · exact htable
      · exact htable

/-- A pattern that matches at a start begins there with its necessary prefix. -/
theorem necessaryPrefix_of_ends (h : compile patterns = .ok database) {R : Reading}
    {ordinal start stop : ℕ} (hends : stop ∈ database.ends R database.root ordinal start) :
    ∃ p ∈ patterns, p.expression.necessaryPrefix <+: R.input.drop start := by
  obtain ⟨-, phase, haccepts⟩ := hends
  obtain ⟨p, hp, hwalk⟩ := (accepts_of_compile h).mp haccepts
  obtain ⟨text, ⟨-, htext⟩, hbegins⟩ := Hir.walk_le_begins p.expression _ _ hwalk
  exact ⟨p, List.mem_of_getElem? hp, hbegins.trans htext⟩

/-- The literal filter admits every start with an accepted end. -/
theorem admits_of_ends (h : compile patterns = .ok database)
    {filter : LiteralPrefilter}
    (hfilter : (Prefilter.compile patterns database).literal = some filter) {R : Reading}
    (hbound : R.input.length ≤ maxUnits) {ordinal start stop : ℕ}
    (hends : stop ∈ database.ends R database.root ordinal start) :
    filter.admits R.input start = true := by
  obtain ⟨p, hp, hbegins⟩ := necessaryPrefix_of_ends h hends
  obtain ⟨units, hlength, hunits, hknows⟩ := (Prefilter.knows_of_compile hfilter).2 p hp
  have hbegins := hunits.trans hbegins
  have hle := hbegins.length_le
  rw [List.length_drop] at hle
  unfold maxUnits at hbound
  have hadd : checkedAdd start minLiteralUnits = some (start + minLiteralUnits) := by
    refine if_pos ?_
    unfold minLiteralUnits usizeMax
    omega
  rw [LiteralPrefilter.admits, hadd, Option.any_some, Bool.and_eq_true, decide_eq_true_eq]
  refine ⟨?_, PrefixTables.allows_of_knows hknows hlength hbegins⟩
  unfold minLiteralUnits
  omega

end Prefilter

end Rustmatch

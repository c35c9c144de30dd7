import Rustmatch.Parser.Accepts
import Rustmatch.ToMathlib.FixedRecords

/-!
# The case table

`case_fold.rs`: the case mappings of single units, read from a table of bytes, and the writer of
such tables in `JavaOracle.java`. A table has a header and one record for every unit, with its lower
and its upper case as units with the high byte first.

## Main definitions

* `lowerUpperFrom`, `tableIsValid`: the reader;
* `writeCaseFoldTable`: the writer;
* `CaseFoldTable`: a valid table, and the mapping that the parser gets from it.

## Main results

* `case_fold_table_round_trip`: what the writer writes, the reader reads, and it accepts nothing
  else.
-/

namespace Rustmatch

/-! ### Units as bytes -/

/-- `u16::from_be_bytes`. -/
def fromBeBytes (high low : UInt8) : UInt16 := UInt16.ofNat (high.toNat * 256 + low.toNat)

/-- `DataOutputStream.writeChar`: the high byte, then the low one. -/
def writeChar (value : UInt16) : List UInt8 :=
  [UInt8.ofNat (value.toNat / 256), UInt8.ofNat (value.toNat % 256)]

/-- `u32::from_be_bytes`, as a number. -/
def numberFromBeBytes (bytes : List UInt8) : ℕ :=
  bytes.foldl (fun value byte => value * 256 + byte.toNat) 0

/-- `DataOutputStream.writeInt`: four bytes, the highest first. -/
def writeInt (value : ℕ) : List UInt8 :=
  [UInt8.ofNat (value / 2 ^ 24), UInt8.ofNat (value / 2 ^ 16), UInt8.ofNat (value / 2 ^ 8),
    UInt8.ofNat value]

/-- A unit is read back. -/
theorem fromBeBytes_writeChar (value : UInt16) :
    fromBeBytes (UInt8.ofNat (value.toNat / 256)) (UInt8.ofNat (value.toNat % 256)) = value := by
  have hlt := value.toNat_lt
  rw [← UInt16.toNat_inj]
  simp only [fromBeBytes, UInt8.toNat_ofNat', UInt16.toNat_ofNat']
  omega

/-- Two bytes are written back. -/
theorem writeChar_fromBeBytes (high low : UInt8) :
    writeChar (fromBeBytes high low) = [high, low] := by
  have hhigh := high.toNat_lt
  have hlow := low.toNat_lt
  have hvalue : (fromBeBytes high low).toNat = high.toNat * 256 + low.toNat := by
    simp only [fromBeBytes, UInt16.toNat_ofNat']
    omega
  have hfirst : UInt8.ofNat ((high.toNat * 256 + low.toNat) / 256) = high := by
    rw [← UInt8.toNat_inj, UInt8.toNat_ofNat']
    omega
  have hsecond : UInt8.ofNat ((high.toNat * 256 + low.toNat) % 256) = low := by
    rw [← UInt8.toNat_inj, UInt8.toNat_ofNat']
    omega
  rw [writeChar, hvalue, hfirst, hsecond]

/-! ### The reader -/

/-- `HEADER_BYTES`: the length of the header. -/
def headerBytes : ℕ := 8

/-- `BYTES_PER_ENTRY`: the length of a record. -/
def bytesPerEntry : ℕ := 4

/-- `ENTRY_COUNT`: one record for each unit. -/
def entryCount : ℕ := 65536

/-- `TABLE_BYTES`: the length of a table. -/
def tableBytes : ℕ := headerBytes + entryCount * bytesPerEntry

/-- `b"RMF1"`. -/
def tableMagic : List UInt8 :=
  ['R', 'M', 'F', '1'].map fun character => UInt8.ofNat character.toNat

/-- `lower_upper_from`; `none` where the source indexes out of range. -/
def lowerUpperFrom (table : List UInt8) (symbol : UInt16) : Option (UInt16 × UInt16) := do
  let offset := headerBytes + symbol.toNat * bytesPerEntry
  let lowerHigh ← table[offset]?
  let lowerLow ← table[offset + 1]?
  let upperHigh ← table[offset + 2]?
  let upperLow ← table[offset + 3]?
  return (fromBeBytes lowerHigh lowerLow, fromBeBytes upperHigh upperLow)

/-- `table_is_valid`. The length is tested first, so the lookups behind it are in range. -/
def tableIsValid (table : List UInt8) : Bool :=
  table.length == tableBytes &&
    getRange table 0 4 == some tableMagic &&
    (getRange table 4 8).any (fun header => numberFromBeBytes header == 65536) &&
    lowerUpperFrom table (ascii 'a') == some (ascii 'a', ascii 'A') &&
    lowerUpperFrom table 0x03a9 == some (0x03c9, 0x03a9) &&
    lowerUpperFrom table 0xd800 == some (0xd800, 0xd800) &&
    lowerUpperFrom table 0xffff == some (0xffff, 0xffff)

/-! ### The writer -/

/-- The record of a unit. -/
def caseFoldRecord (toLowerCase toUpperCase : UInt16 → UInt16) (value : ℕ) : List UInt8 :=
  writeChar (toLowerCase (UInt16.ofNat value)) ++ writeChar (toUpperCase (UInt16.ofNat value))

/-- `writeCaseFoldTable`: write the header and the record of every unit. -/
def writeCaseFoldTable (toLowerCase toUpperCase : UInt16 → UInt16) : List UInt8 :=
  tableMagic ++ writeInt entryCount ++
    FixedRecords.encode (caseFoldRecord toLowerCase toUpperCase) entryCount

/-! ### Reading what was written -/

section Written

variable {lower upper : UInt16 → UInt16}

/-- A record has its length. -/
theorem length_caseFoldRecord (value : ℕ) :
    (caseFoldRecord lower upper value).length = bytesPerEntry := rfl

/-- The header is as long as the reader takes it to be. -/
theorem length_writeCaseFoldTable : (writeCaseFoldTable lower upper).length = tableBytes := by
  rw [writeCaseFoldTable, List.length_append,
    FixedRecords.length_encode length_caseFoldRecord entryCount]
  rfl

/-- Behind the header, a byte stands at its place in its record. -/
theorem getElem?_writeCaseFoldTable (symbol : UInt16) {place : ℕ} (hplace : place < bytesPerEntry) :
    (writeCaseFoldTable lower upper)[headerBytes + symbol.toNat * bytesPerEntry + place]? =
      (caseFoldRecord lower upper symbol.toNat)[place]? := by
  have hheader : (tableMagic ++ writeInt entryCount).length = headerBytes := rfl
  rw [writeCaseFoldTable, Nat.add_assoc, List.getElem?_append_right (by omega), hheader,
    Nat.add_sub_cancel_left,
    FixedRecords.getElem?_encode length_caseFoldRecord
      (show symbol.toNat < entryCount from symbol.toNat_lt) hplace]

/-- Every mapping that was written is read back. -/
theorem lowerUpperFrom_writeCaseFoldTable (symbol : UInt16) :
    lowerUpperFrom (writeCaseFoldTable lower upper) symbol = some (lower symbol, upper symbol) := by
  have hbyte (place : ℕ) (hplace : place < bytesPerEntry) :=
    @getElem?_writeCaseFoldTable lower upper symbol place hplace
  have hsymbol : UInt16.ofNat symbol.toNat = symbol := UInt16.ofNat_toNat
  unfold lowerUpperFrom
  simp only
  rw [hbyte 1 (by decide), hbyte 2 (by decide), hbyte 3 (by decide)]
  have hfirst := hbyte 0 (by decide)
  rw [Nat.add_zero] at hfirst
  rw [hfirst]
  unfold caseFoldRecord
  rw [hsymbol]
  show some (fromBeBytes _ _, fromBeBytes _ _) = _
  rw [fromBeBytes_writeChar, fromBeBytes_writeChar]

/-- The mappings that the reader asks for. -/
structure Probes (lower upper : UInt16 → UInt16) : Prop where
  /-- The letter a has an upper case. -/
  letter : lower (ascii 'a') = ascii 'a' ∧ upper (ascii 'a') = ascii 'A'
  /-- The capital omega has a lower case. -/
  omega : lower 0x03a9 = 0x03c9 ∧ upper 0x03a9 = 0x03a9
  /-- A surrogate maps to itself both ways. -/
  surrogate : lower 0xd800 = 0xd800 ∧ upper 0xd800 = 0xd800
  /-- So does the last unit. -/
  last : lower 0xffff = 0xffff ∧ upper 0xffff = 0xffff

/-- What was written is accepted when its mappings are those that the reader asks for. -/
theorem tableIsValid_writeCaseFoldTable :
    tableIsValid (writeCaseFoldTable lower upper) = true ↔ Probes lower upper := by
  have hheader : ∀ records : List UInt8,
      getRange (tableMagic ++ writeInt entryCount ++ records) 0 4 = some tableMagic ∧
        getRange (tableMagic ++ writeInt entryCount ++ records) 4 8 =
          some (writeInt entryCount) := by
    intro records
    have hlength : 8 ≤ (tableMagic ++ writeInt entryCount ++ records).length := by
      rw [List.length_append]
      exact Nat.le_add_right _ _
    unfold getRange
    rw [if_pos ⟨by decide, by omega⟩, if_pos ⟨by decide, hlength⟩]
    exact ⟨rfl, rfl⟩
  have hnumber : numberFromBeBytes (writeInt entryCount) = 65536 := by decide
  obtain ⟨hmagic, hcount⟩ := hheader (FixedRecords.encode (caseFoldRecord lower upper) entryCount)
  unfold tableIsValid
  simp only [length_writeCaseFoldTable, lowerUpperFrom_writeCaseFoldTable]
  rw [writeCaseFoldTable, hmagic, hcount]
  simp only [Option.any_some, hnumber, beq_self_eq_true, Bool.true_and, Bool.and_eq_true,
    beq_iff_eq, Option.some.injEq, Prod.mk.injEq]
  constructor
  · rintro ⟨⟨⟨hletter, homega⟩, hsurrogate⟩, hlast⟩
    exact ⟨hletter, homega, hsurrogate, hlast⟩
  · rintro ⟨hletter, homega, hsurrogate, hlast⟩
    exact ⟨⟨⟨hletter, homega⟩, hsurrogate⟩, hlast⟩

end Written

/-! ### Writing what was read -/

/-- The four bytes of 65536. -/
theorem eq_writeInt_of_numberFromBeBytes {header : List UInt8} (hlength : header.length = 4)
    (hnumber : numberFromBeBytes header = 65536) : header = writeInt entryCount := by
  obtain ⟨a, b, c, d, rfl⟩ := List.length_eq_four.mp hlength
  have ha := a.toNat_lt
  have hb := b.toNat_lt
  have hc := c.toNat_lt
  have hd := d.toNat_lt
  have hsum : ((a.toNat * 256 + b.toNat) * 256 + c.toNat) * 256 + d.toNat = 65536 := by
    simpa [numberFromBeBytes] using hnumber
  have hbytes : a.toNat = 0 ∧ b.toNat = 1 ∧ c.toNat = 0 ∧ d.toNat = 0 := by omega
  obtain ⟨ha, hb, hc, hd⟩ := hbytes
  rw [show a = 0 from UInt8.toNat_inj.mp ha, show b = 1 from UInt8.toNat_inj.mp hb,
    show c = 0 from UInt8.toNat_inj.mp hc, show d = 0 from UInt8.toNat_inj.mp hd]
  decide

/-- A table of the right length has all records. -/
theorem exists_lowerUpperFrom {table : List UInt8} (hlength : table.length = tableBytes)
    (symbol : UInt16) : ∃ pair, lowerUpperFrom table symbol = some pair ∧
      ∀ place < bytesPerEntry, table[headerBytes + symbol.toNat * bytesPerEntry + place]? =
        (writeChar pair.1 ++ writeChar pair.2)[place]? := by
  have hend : headerBytes + symbol.toNat * bytesPerEntry + 3 < table.length := by
    have hsymbol : symbol.toNat < 65536 := symbol.toNat_lt
    rw [hlength]
    simp only [headerBytes, bytesPerEntry, tableBytes, entryCount]
    omega
  have hbyte : ∀ place < bytesPerEntry, ∃ byte,
      table[headerBytes + symbol.toNat * bytesPerEntry + place]? = some byte := by
    intro place hplace
    refine ⟨_, List.getElem?_eq_getElem ?_⟩
    unfold bytesPerEntry at hplace ⊢
    unfold bytesPerEntry at hend
    omega
  obtain ⟨a, ha⟩ := hbyte 0 (by decide)
  obtain ⟨b, hb⟩ := hbyte 1 (by decide)
  obtain ⟨c, hc⟩ := hbyte 2 (by decide)
  obtain ⟨d, hd⟩ := hbyte 3 (by decide)
  refine ⟨(fromBeBytes a b, fromBeBytes c d), ?_, fun place hplace => ?_⟩
  · unfold lowerUpperFrom
    rw [Nat.add_zero] at ha
    simp only [ha, hb, hc, hd]
    rfl
  · rw [writeChar_fromBeBytes, writeChar_fromBeBytes]
    unfold bytesPerEntry at hplace
    obtain rfl | rfl | rfl | rfl : place = 0 ∨ place = 1 ∨ place = 2 ∨ place = 3 := by omega
    · exact ha
    · exact hb
    · exact hc
    · exact hd

/-- What is accepted has the length of a table. -/
theorem length_of_tableIsValid {table : List UInt8} (hvalid : tableIsValid table = true) :
    table.length = tableBytes := by
  simp only [tableIsValid, Bool.and_eq_true, beq_iff_eq] at hvalid
  exact hvalid.1.1.1.1.1.1

/-- What is accepted is what the writer writes for the mappings that are read from it. -/
theorem eq_writeCaseFoldTable {table : List UInt8} (hvalid : tableIsValid table = true) :
    table = writeCaseFoldTable (fun symbol => ((lowerUpperFrom table symbol).getD (0, 0)).1)
      fun symbol => ((lowerUpperFrom table symbol).getD (0, 0)).2 := by
  unfold tableIsValid at hvalid
  simp only [Bool.and_eq_true, beq_iff_eq] at hvalid
  obtain ⟨⟨⟨⟨⟨⟨hlength, hmagic⟩, hheader⟩, -⟩, -⟩, -⟩, -⟩ := hvalid
  obtain ⟨header, hrange, hnumber⟩ := (Option.any_eq_true _ _).mp hheader
  -- the header
  have htake : table.take 4 = tableMagic ∧ (table.drop 4).take 4 = header := by
    have hlong : 8 ≤ table.length := by
      rw [hlength]
      exact Nat.le_add_right _ _
    unfold getRange at hmagic hrange
    rw [if_pos ⟨by decide, by omega⟩] at hmagic hrange
    exact ⟨Option.some.inj hmagic, Option.some.inj hrange⟩
  have hfour : header.length = 4 := by
    rw [← htake.2, List.length_take, List.length_drop, hlength]
    rfl
  have hfirst : table.take headerBytes = tableMagic ++ writeInt entryCount := by
    show table.take (4 + 4) = _
    rw [List.take_add, htake.1, htake.2,
      eq_writeInt_of_numberFromBeBytes hfour (beq_iff_eq.mp hnumber)]
  -- the records
  have hrecords : table.drop headerBytes = FixedRecords.encode (caseFoldRecord
      (fun symbol => ((lowerUpperFrom table symbol).getD (0, 0)).1)
      fun symbol => ((lowerUpperFrom table symbol).getD (0, 0)).2) entryCount := by
    refine FixedRecords.eq_encode length_caseFoldRecord ?_ fun i hi j hj => ?_
    · rw [List.length_drop, hlength, tableBytes, Nat.add_sub_cancel_left]
    · obtain ⟨pair, hpair, hbytes⟩ := exists_lowerUpperFrom hlength (UInt16.ofNat i)
      have hsymbol : (UInt16.ofNat i).toNat = i := UInt16.toNat_ofNat_of_lt' hi
      have hbyte := hbytes j hj
      rw [hsymbol, Nat.add_assoc] at hbyte
      rw [List.getElem?_drop, hbyte, caseFoldRecord, hpair]
      rfl
  rw [writeCaseFoldTable, ← hrecords, ← hfirst, List.take_append_drop]

/-! ### Bytes in the wrong order -/

/-- `for encoded_unit in bytes.chunks_exact_mut(2) { encoded_unit.swap(0, 1) }`. -/
def swapUnits : List UInt8 → List UInt8
  | high :: low :: rest => low :: high :: swapUnits rest
  | rest => rest

/-- The corrupted table of the tests. -/
def byteSwapped (table : List UInt8) : List UInt8 :=
  table.take headerBytes ++ swapUnits (table.drop headerBytes)

/-- The bytes of a unit change places. -/
theorem getElem?_swapUnits {bytes : List UInt8} {unit : ℕ} (hunit : 2 * unit + 1 < bytes.length) :
    (swapUnits bytes)[2 * unit]? = bytes[2 * unit + 1]? ∧
      (swapUnits bytes)[2 * unit + 1]? = bytes[2 * unit]? := by
  induction bytes using swapUnits.induct generalizing unit with
  | case1 high low rest ih =>
    cases unit with
    | zero => exact ⟨rfl, rfl⟩
    | succ unit =>
      simp only [List.length_cons] at hunit
      exact @ih unit (by omega)
  | case2 rest hshort =>
    -- less than a unit is left
    cases rest with
    | nil => exact absurd hunit (Nat.not_lt_zero _)
    | cons high rest =>
      cases rest with
      | nil => simp at hunit
      | cons low rest => exact absurd rfl (hshort high low rest)

/-- A valid table with its bytes in the wrong order is not accepted. -/
theorem tableIsValid_byteSwapped {table : List UInt8} (hvalid : tableIsValid table = true) :
    tableIsValid (byteSwapped table) = false := by
  have hread : lowerUpperFrom table (ascii 'a') = some (ascii 'a', ascii 'A') := by
    simp only [tableIsValid, Bool.and_eq_true, beq_iff_eq] at hvalid
    exact hvalid.1.1.1.2
  have hlength := length_of_tableIsValid hvalid
  -- the bytes of the record of the letter, in their order
  obtain ⟨pair, hpair, hbytes⟩ := exists_lowerUpperFrom hlength (ascii 'a')
  obtain rfl : (ascii 'a', ascii 'A') = pair := Option.some.inj (hread.symm.trans hpair)
  have hrecord : ∀ place < bytesPerEntry, (table.drop headerBytes)[388 + place]? =
      ([0, 97, 0, 65] : List UInt8)[place]? := by
    intro place hplace
    rw [List.getElem?_drop, ← Nat.add_assoc]
    exact hbytes place hplace
  -- and in the other order
  have hrest : (table.drop headerBytes).length = entryCount * bytesPerEntry := by
    rw [List.length_drop, hlength, tableBytes, Nat.add_sub_cancel_left]
  have hswapped : ∀ place, (byteSwapped table)[headerBytes + 388 + place]? =
      (swapUnits (table.drop headerBytes))[388 + place]? := by
    intro place
    have htake : (table.take headerBytes).length = headerBytes := by
      rw [List.length_take, hlength]
      rfl
    rw [byteSwapped, List.getElem?_append_right (by omega), htake, Nat.add_assoc,
      Nat.add_sub_cancel_left]
  have hlower := @getElem?_swapUnits (table.drop headerBytes) 194 (by rw [hrest]; decide)
  have hupper := @getElem?_swapUnits (table.drop headerBytes) 195 (by rw [hrest]; decide)
  have hfirst : (byteSwapped table)[headerBytes + (ascii 'a').toNat * bytesPerEntry]? =
      some 97 := (hswapped 0).trans (hlower.1.trans (hrecord 1 (by decide)))
  have hsecond : (byteSwapped table)[headerBytes + (ascii 'a').toNat * bytesPerEntry + 1]? =
      some 0 := (hswapped 1).trans (hlower.2.trans (hrecord 0 (by decide)))
  have hthird : (byteSwapped table)[headerBytes + (ascii 'a').toNat * bytesPerEntry + 2]? =
      some 65 := (hswapped 2).trans (hupper.1.trans (hrecord 3 (by decide)))
  have hfourth : (byteSwapped table)[headerBytes + (ascii 'a').toNat * bytesPerEntry + 3]? =
      some 0 := (hswapped 3).trans (hupper.2.trans (hrecord 2 (by decide)))
  have hwrong : lowerUpperFrom (byteSwapped table) (ascii 'a') = some (0x6100, 0x4100) := by
    unfold lowerUpperFrom
    simp only [hfirst, hsecond, hthird, hfourth]
    rfl
  have hne : (lowerUpperFrom (byteSwapped table) (ascii 'a') ==
      some (ascii 'a', ascii 'A')) = false := by
    rw [hwrong]
    decide
  simp only [tableIsValid, hne, Bool.and_false, Bool.false_and]

/-! ### Valid tables -/

/-- `TABLE`: the bytes that the build embeds, which `lower_upper` asserts to be valid. -/
structure CaseFoldTable where
  /-- The embedded bytes. -/
  bytes : List UInt8
  /-- The check that runs before the table is read has passed. -/
  valid : tableIsValid bytes = true

namespace CaseFoldTable

/-- No lookup in a valid table is out of range. -/
theorem isSome_lowerUpperFrom (table : CaseFoldTable) (symbol : UInt16) :
    (lowerUpperFrom table.bytes symbol).isSome = true := by
  obtain ⟨pair, hpair, -⟩ := exists_lowerUpperFrom (length_of_tableIsValid table.valid) symbol
  rw [hpair]
  rfl

/-- `lower_upper`: look a unit up in the embedded table. -/
def lowerUpper (table : CaseFoldTable) (symbol : UInt16) : UInt16 × UInt16 :=
  (lowerUpperFrom table.bytes symbol).get (table.isSome_lowerUpperFrom symbol)

/-- The case rules of a parser that reads the table. -/
def rules (table : CaseFoldTable) (caseInsensitive : Bool) : CaseRules where
  caseInsensitive
  lowerUpper := table.lowerUpper

/-- The bytes of a valid table are read as the table says. -/
theorem lowerUpperFrom_bytes (table : CaseFoldTable) (symbol : UInt16) :
    lowerUpperFrom table.bytes symbol = some (table.lowerUpper symbol) :=
  (Option.some_get _).symm

/-- The bytes of a valid table are determined by its mappings. -/
theorem bytes_eq (table : CaseFoldTable) :
    table.bytes = writeCaseFoldTable (fun symbol => (table.lowerUpper symbol).1)
      fun symbol => (table.lowerUpper symbol).2 := by
  have hbytes := eq_writeCaseFoldTable table.valid
  simpa only [lowerUpperFrom_bytes, Option.getD_some] using hbytes

/-- The table that is written for mappings with the values that the reader asks for. -/
def ofMappings {lower upper : UInt16 → UInt16} (hprobes : Probes lower upper) : CaseFoldTable where
  bytes := writeCaseFoldTable lower upper
  valid := tableIsValid_writeCaseFoldTable.mpr hprobes

/-- The parser gets the mappings that were written. -/
theorem rules_ofMappings {lower upper : UInt16 → UInt16} (hprobes : Probes lower upper)
    (caseInsensitive : Bool) : (ofMappings hprobes).rules caseInsensitive =
      { caseInsensitive, lowerUpper := fun symbol => (lower symbol, upper symbol) } := by
  have hread : (ofMappings hprobes).lowerUpper = fun symbol => (lower symbol, upper symbol) := by
    funext symbol
    apply Option.some.inj
    rw [← lowerUpperFrom_bytes]
    exact lowerUpperFrom_writeCaseFoldTable symbol
  rw [rules, hread]

end CaseFoldTable

/-- The case tables of the oracle and of the crate are one format. Whatever mappings are written,
every unit is read back with its mappings, and a parser over the table has these mappings; the
reader accepts exactly the tables that are written for mappings with the values it asks for, so that
a valid table is determined by its mappings; and no valid table is accepted with its bytes in the
wrong order. -/
theorem case_fold_table_round_trip :
    (∀ lower upper : UInt16 → UInt16,
      (∀ symbol, lowerUpperFrom (writeCaseFoldTable lower upper) symbol =
        some (lower symbol, upper symbol)) ∧
      ∀ (hprobes : Probes lower upper) (caseInsensitive : Bool),
        (CaseFoldTable.ofMappings hprobes).rules caseInsensitive =
          { caseInsensitive, lowerUpper := fun symbol => (lower symbol, upper symbol) }) ∧
    (∀ bytes, tableIsValid bytes = true ↔
      ∃ lower upper, bytes = writeCaseFoldTable lower upper ∧ Probes lower upper) ∧
    ∀ table : CaseFoldTable,
      table.bytes = writeCaseFoldTable (fun symbol => (table.lowerUpper symbol).1)
        (fun symbol => (table.lowerUpper symbol).2) ∧
      tableIsValid (byteSwapped table.bytes) = false := by
  refine ⟨fun lower upper => ⟨lowerUpperFrom_writeCaseFoldTable, CaseFoldTable.rules_ofMappings⟩,
    fun bytes => ?_, fun table => ⟨table.bytes_eq, tableIsValid_byteSwapped table.valid⟩⟩
  constructor
  · intro hvalid
    have hbytes := eq_writeCaseFoldTable hvalid
    refine ⟨_, _, hbytes, ?_⟩
    rw [hbytes] at hvalid
    exact tableIsValid_writeCaseFoldTable.mp hvalid
  · rintro ⟨lower, upper, rfl, hprobes⟩
    exact tableIsValid_writeCaseFoldTable.mpr hprobes

/-- The lower case of Latin letters, and of omega. -/
def latinLower (symbol : UInt16) : UInt16 :=
  if ascii 'A' ≤ symbol ∧ symbol ≤ ascii 'Z' then symbol + 32
  else if symbol = 0x03a9 then 0x03c9
  else symbol

/-- The upper case of Latin letters. -/
def latinUpper (symbol : UInt16) : UInt16 :=
  if ascii 'a' ≤ symbol ∧ symbol ≤ ascii 'z' then symbol - 32 else symbol

/-- The Latin mappings are probed. -/
theorem probes_latin : Probes latinLower latinUpper where
  letter := by decide
  omega := by decide
  surrogate := by decide
  last := by decide

/-- A table for Latin letters is accepted, and it is not accepted with its bytes swapped. -/
theorem case_fold_table_round_trip_latin :
    tableIsValid (writeCaseFoldTable latinLower latinUpper) = true ∧
      tableIsValid (byteSwapped (writeCaseFoldTable latinLower latinUpper)) = false :=
  ⟨(case_fold_table_round_trip.2.1 _).mpr ⟨_, _, rfl, probes_latin⟩,
    (case_fold_table_round_trip.2.2 (CaseFoldTable.ofMappings probes_latin)).2⟩

end Rustmatch

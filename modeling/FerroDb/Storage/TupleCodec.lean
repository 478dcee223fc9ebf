import FerroDb.Library.ByteMap
import FerroDb.Library.Cursor
import FerroDb.Library.Fallible
import FerroDb.Storage.Tuple

/-!
# Rows as bytes

`Tuple::serialize` and `Tuple::deserialize` of `storage/tuple.rs`. The writer lays a value out by
the value, the reader by the column; both pad from the offset they have reached. How a refusal
prints a type and a value is left open.
-/

namespace FerroDb.Storage.Tuple

open Cluster (beBytes ofBeBytes ofBeBytes_beBytes length_beBytes)
open Library (ByteMap Cursor bind_ok)
open Library.Cursor List Prod

/-- A value as a row stores it: a double is its bits, and the text of a decimal may be any. -/
inductive Value where
  | integer (i : Int32)
  | float (bits : UInt64)
  | varchar (s : String)
  | boolean (b : Bool)
  | bigInt (i : Int64)
  | decimal (text : String)
  | timestamp (ms : Int64)
  | null
deriving DecidableEq

def Value.isNull : Value → Bool
  | null => true
  | _ => false

def valueFits : Value → DataType → Bool
  | .null, _ => true
  | .integer _, .integer => true
  | .float _, .float => true
  | .varchar _, .varchar _ => true
  | .boolean _, .boolean => true
  | .bigInt _, .bigInt => true
  | .decimal _, .decimal => true
  | .timestamp _, .timestamp => true
  | _, _ => false

def getPadding (align size : ℕ) : ℕ := (align - (size &&& (align - 1))) &&& (align - 1)

def u16Max : ℕ := 65535

/-! ## Writing -/

def textBytes (s : String) : List UInt8 := s.toUTF8.data.toList

/-- A number of `width` bytes, behind the padding that `offset` asks for. -/
def fixed (align width offset n : ℕ) : List UInt8 :=
  .replicate (getPadding align offset) 0 ++ beBytes width n

/-- Text with its length in front. -/
def pascal (s : String) : List UInt8 := beBytes 2 (textBytes s).length ++ textBytes s

def textWithin (limit : ℕ) (refusal s : String) : Except FerroError (List UInt8) :=
  if limit < (textBytes s).length then .error (.constraint refusal) else .ok (pascal s)

/-- What a value adds to a row that has `offset` bytes. -/
def valueBytes (offset : ℕ) (type : DataType) : Value → Except FerroError (List UInt8)
  | .boolean b => .ok (fixed 1 1 offset b.toNat)
  | .float bits => .ok (fixed 8 8 offset bits.toNat)
  | .integer i => .ok (fixed 4 4 offset i.toUInt32.toNat)
  | .bigInt i => .ok (fixed 8 8 offset i.toUInt64.toNat)
  | .timestamp ms => .ok (fixed 8 8 offset ms.toUInt64.toNat)
  | .decimal text =>
    let len := (textBytes text).length
    textWithin u16Max s!"decimal is {len} bytes, over the {u16Max} the length prefix can hold" text
  | .varchar s =>
    match type with
    | .varchar max => textWithin max s!"varchar exceeds declared len: {max}" s
    | _ => .ok (pascal s)
  | .null =>
    match type with
    | .boolean => .ok (fixed 1 1 offset 0)
    | .float => .ok (fixed 8 8 offset 0)
    | .integer => .ok (fixed 4 4 offset 0)
    | .bigInt | .timestamp => .ok (fixed 8 8 offset 0)
    | .decimal | .varchar _ => .ok [0, 0]

def rowBytes : ℕ → List (Column × Value) → Except FerroError (List UInt8)
  | _, [] => .ok []
  | offset, (column, value) :: row => do
    let bytes ← valueBytes offset column.dataType value
    return bytes ++ (← rowBytes (offset + bytes.length) row)

/-- The bitmap with the bit of every null set. -/
def markNulls (row : List (Value × ℕ)) (bitmap : ByteMap) : ByteMap :=
  row.foldl (fun bitmap p => if p.1.isNull then bitmap.setBit (p.2 / 8) (p.2 % 8) else bitmap)
    bitmap

def bitmapLen (schema : Schema) : ℕ := (schema.columns.length + 7) / 8

def bitmapBytes (len : ℕ) (bitmap : ByteMap) : List UInt8 :=
  (List.range len).map fun k => ⟨bitmap k⟩

def nullBitmap (values : List Value) (schema : Schema) : List UInt8 :=
  bitmapBytes (bitmapLen schema) (markNulls values.zipIdx .zeros)

def header (beginTs : ℕ) : List UInt8 := beBytes 8 beginTs ++ .replicate 16 0

variable (debugType : DataType → String) (debugValue : Value → String)

def serialize (values : List Value) (schema : Schema) (beginTs : ℕ) :
    Except FerroError (List UInt8) :=
  if values.length ≠ schema.columns.length then
    .error (.internal (s!"serialize was given {values.length} values for a " ++
      s!"{schema.columns.length}-column schema; a tuple written against the wrong schema is " ++
      "unreadable later"))
  else
    let row := schema.columns.zip values
    match row.find? fun p => !valueFits p.2 p.1.dataType with
    | some (column, value) =>
      .error (.constraint ("column '" ++ column.name ++ "' is declared " ++
        debugType column.dataType ++ " but was given " ++ debugValue value))
    | none => do
      let front := header beginTs ++ nullBitmap values schema
      return front ++ (← rowBytes front.length row)

/-! ## Reading -/

def outOfRange (offset : ℕ) : FerroError := .panic s!"a range from {offset} is out of the row"

def skip (n : ℕ) : Cursor UInt8 FerroError Unit := fun _ pos => .ok ((), pos + n)

def bytes (n : ℕ) : Cursor UInt8 FerroError (List UInt8) := take outOfRange n

/-- A number of `width` bytes behind padding, unless the bitmap says that it is null. -/
def readFixed (align width : ℕ) (null : Bool) (make : ℕ → Value) :
    Cursor UInt8 FerroError Value := do
  skip (getPadding align (← position))
  if null then
    skip width
    return .null
  return make (ofBeBytes (← bytes width))

def readText (null : Bool) (invalid : FerroError) (make : String → Value) :
    Cursor UInt8 FerroError Value := do
  let len := ofBeBytes (← bytes 2)
  if null then
    skip len
    return .null
  match String.fromUTF8? ⟨(← bytes len).toArray⟩ with
  | some s => return make s
  | none => throw invalid

def readValue (null : Bool) : DataType → Cursor UInt8 FerroError Value
  | .boolean => readFixed 1 1 null fun n => .boolean (n ≠ 0)
  | .float => readFixed 8 8 null fun n => .float (.ofNat n)
  | .integer => readFixed 4 4 null fun n => .integer (.ofUInt32 (.ofNat n))
  | .bigInt => readFixed 8 8 null fun n => .bigInt (.ofUInt64 (.ofNat n))
  | .timestamp => readFixed 8 8 null fun n => .timestamp (.ofUInt64 (.ofNat n))
  | .decimal => readText null (.corruption "decimal column held invalid utf8") .decimal
  | .varchar _ => readText null (.panic "called `Result::unwrap()` on an `Err` value") .varchar

/-- Bit `i` of the bitmap. -/
def nullAt (bitmap : List UInt8) (i : ℕ) : Bool :=
  (bitmap.getD (i / 8) 0).toBitVec &&& (1#8) <<< (i % 8) ≠ 0

def readColumns (bitmap : List UInt8) : ℕ → List Column → Cursor UInt8 FerroError (List Value)
  | _, [] => pure []
  | i, column :: columns => do
    let value ← readValue (nullAt bitmap i) column.dataType
    return value :: (← readColumns bitmap (i + 1) columns)

def deserialize (data : List UInt8) (schema : Schema) : Except FerroError (List Value) := do
  let bitmap ← bytes (bitmapLen schema) data versionHeaderSize
  return (← readColumns bitmap.1 0 schema.columns data bitmap.2).1

/-! ## What was written is read -/

variable {before after enc items : List UInt8} {align width n i : ℕ} {make : ℕ → Value}
  {type : DataType} {value : Value} {values : List Value} {schema : Schema}

lemma runs_skip : Runs (skip n) items i () (i + n) := rfl

lemma runs_fixed (hn : n < 256 ^ width) (hmake : make n = value) :
    Runs (readFixed align width false make) (before ++ fixed align width before.length n ++ after)
      before.length value (before ++ fixed align width before.length n).length := by
  have hread := reads_take outOfRange (length_beBytes width n)
    (before ++ .replicate (getPadding align before.length) 0) after
  rw [length_append, length_replicate] at hread
  simp only [fixed, ← append_assoc]
  refine runs_position.bind (runs_skip.bind (hread.bind ?_))
  rw [ofBeBytes_beBytes hn, hmake]
  exact runs_pure

lemma runs_text {limit : ℕ} {refusal s : String} {invalid : FerroError} {make : String → Value}
    (henc : textWithin limit refusal s = .ok enc) (hlimit : limit ≤ u16Max) :
    Runs (readText false invalid make) (before ++ enc ++ after) before.length (make s)
      (before ++ enc).length := by
  rw [textWithin] at henc
  split at henc <;> cases henc
  have hlen := reads_take outOfRange (length_beBytes 2 (textBytes s).length) before
    (textBytes s ++ after)
  have htext := reads_take outOfRange (Eq.refl (textBytes s).length)
    (before ++ beBytes 2 (textBytes s).length) after
  have hutf : String.fromUTF8? ⟨(textBytes s).toArray⟩ = some s := by
    exact dif_pos s.isValidUTF8
  simp only [append_assoc] at hlen htext ⊢
  refine hlen.bind ?_
  rw [ofBeBytes_beBytes (by simp only [u16Max] at hlimit; omega)]
  refine htext.bind ?_
  rw [hutf]
  exact runs_pure

/-- A null takes the bytes of its column, and text has none. -/
lemma runs_null (h : valueBytes before.length type .null = .ok enc) :
    Runs (readValue true type) (before ++ enc ++ after) before.length .null
      (before ++ enc).length := by
  cases type <;> cases h
  case decimal | varchar =>
    have hlen := reads_take outOfRange (length_beBytes 2 0) before after
    exact hlen.bind (runs_skip.bind runs_pure)
  all_goals
    simp only [fixed, length_append, length_replicate]
    exact runs_position.bind (runs_skip.bind (runs_skip.bind runs_pure))

/-- The reader of a column takes exactly what the writer of the value laid down. -/
lemma runs_value (henc : valueBytes before.length type value = .ok enc)
    (hfits : valueFits value type = true) (htype : ∀ max, type = .varchar max → max ≤ u16Max) :
    Runs (readValue value.isNull type) (before ++ enc ++ after) before.length value
      (before ++ enc).length := by
  fun_cases valueFits value type
  case case1 => exact runs_null henc
  case case9 => simp_all [valueFits]
  all_goals simp only [readValue] at henc ⊢
  case case4 s max => exact runs_text henc (htype max rfl)
  case case7 text => exact runs_text henc le_rfl
  all_goals cases henc
  case case2 i => exact runs_fixed i.toUInt32.toNat_lt (by simp)
  case case3 bits => exact runs_fixed bits.toNat_lt (by simp)
  case case5 b => exact runs_fixed (b.toNat_lt.trans (by decide)) (by cases b <;> rfl)
  case case6 i => exact runs_fixed i.toUInt64.toNat_lt (by simp)
  case case8 ms => exact runs_fixed ms.toUInt64.toNat_lt (by simp)

lemma bit_markNulls (row : List (Value × ℕ)) (bitmap : ByteMap) (j : ℕ) :
    (markNulls row bitmap).bit (j / 8) (j % 8) =
      (decide ((.null, j) ∈ row) || bitmap.bit (j / 8) (j % 8)) := by
  unfold markNulls
  induction row generalizing bitmap with
  | nil => simp
  | cons p row ih =>
    obtain ⟨value, i⟩ := p
    have hset := ByteMap.bit_setBit (p := bitmap) (a := j / 8) (b := j % 8) (i := i / 8)
      (Nat.mod_lt i (by decide : 0 < 8))
    cases value <;> simp_all [Value.isNull]
    grind

lemma nullAt_bitmapBytes {bitmap : ByteMap} (hi : i / 8 < n) :
    nullAt (bitmapBytes n bitmap) i = bitmap.bit (i / 8) (i % 8) := by
  have hbit := ByteMap.and_one_shiftLeft_eq_zero (p := bitmap) (i := i / 8)
    (Nat.mod_lt i (by decide : 0 < 8))
  have hbyte : (bitmapBytes n bitmap).getD (i / 8) 0 = ⟨bitmap (i / 8)⟩ := by
    simp [bitmapBytes, getElem?_range hi]
  rw [nullAt]
  cases h : bitmap.bit (i / 8) (i % 8) <;> simp_all

lemma nullAt_nullBitmap (hi : i < schema.columns.length) (hv : values[i]? = some value) :
    nullAt (nullBitmap values schema) i = value.isNull := by
  have hmem : (.null, i) ∈ values.zipIdx ↔ value = .null := by
    simp [mem_zipIdx_iff_getElem?, hv]
  rw [nullBitmap, nullAt_bitmapBytes (by rw [bitmapLen]; omega), bit_markNulls, ByteMap.bit_zeros,
    Bool.or_false, Bool.eq_iff_iff, decide_eq_true_iff, hmem]
  cases value <;> simp [Value.isNull]

lemma runs_columns {bits : List UInt8} {row : List (Column × Value)}
    (henc : rowBytes before.length row = .ok enc)
    (hfits : ∀ p ∈ row, valueFits p.2 p.1.dataType = true)
    (htype : ∀ p ∈ row, ∀ max, p.1.dataType = .varchar max → max ≤ u16Max)
    (hnull : ∀ k p, row[k]? = some p → nullAt bits (i + k) = p.2.isNull) :
    Runs (readColumns bits i (row.map fst)) (before ++ enc) before.length
      (row.map snd) (before ++ enc).length := by
  induction row generalizing before enc i with
  | nil =>
    cases henc
    simpa [readColumns] using runs_pure
  | cons p row ih =>
    obtain ⟨column, value⟩ := p
    obtain ⟨first, hfirst, henc⟩ := bind_ok.mp henc
    obtain ⟨rest, hrest, henc⟩ := bind_ok.mp henc
    cases henc
    rw [forall_mem_cons] at hfits htype
    have hvalue : Runs (readValue (nullAt bits i) column.dataType) (before ++ first ++ rest)
        before.length value (before ++ first).length := by
      rw [show nullAt bits i = value.isNull from hnull 0 _ rfl]
      exact runs_value hfirst hfits.1 htype.1
    have hrow : Runs (readColumns bits (i + 1) (row.map fst)) (before ++ first ++ rest)
        (before ++ first).length (row.map snd) (before ++ first ++ rest).length := by
      refine ih (by rwa [length_append]) hfits.2 htype.2 fun k p hp => ?_
      rw [Nat.add_right_comm]
      exact hnull (k + 1) p hp
    rw [← append_assoc]
    exact hvalue.bind (hrow.bind runs_pure)

lemma length_nullBitmap (values : List Value) (schema : Schema) :
    (nullBitmap values schema).length = bitmapLen schema := by
  simp [nullBitmap, bitmapBytes]

/-- What a row is read as does not depend on its version header. -/
lemma deserialize_front (hlen : values.length = schema.columns.length)
    (hfits : ∀ p ∈ schema.columns.zip values, valueFits p.2 p.1.dataType = true)
    (htype : ∀ c ∈ schema.columns, ∀ max, c.dataType = .varchar max → max ≤ u16Max)
    (hbefore : before.length = versionHeaderSize)
    (henc : rowBytes (versionHeaderSize + bitmapLen schema) (schema.columns.zip values) = .ok enc) :
    deserialize (before ++ nullBitmap values schema ++ enc) schema = .ok values := by
  have hread := reads_take outOfRange (length_nullBitmap values schema) before enc
  rw [← hbefore, ← length_nullBitmap values, ← length_append] at henc
  have hrow := runs_columns henc hfits (fun p hp => htype p.1 (of_mem_zip hp).1)
    fun k p hp => by
      obtain ⟨hc, hv⟩ := getElem?_zip_eq_some.mp hp
      rw [Nat.zero_add]
      exact nullAt_nullBitmap (List.getElem?_eq_some_iff.mp hc).1 hv
  rw [map_fst_zip hlen.ge, map_snd_zip hlen.le] at hrow
  rw [deserialize, ← hbefore, bytes, hread, Library.ok_bind, hrow]
  rfl

/-- A row that was written is read back, also when bytes 8 to 22 of its header are overwritten. -/
theorem deserialize_row {data : List UInt8} (beginTs : ℕ)
    (htype : ∀ c ∈ schema.columns, ∀ max, c.dataType = .varchar max → max ≤ u16Max)
    (h : serialize debugType debugValue values schema beginTs = .ok data) (patch : List UInt8)
    (hpatch : patch.length = 14) : deserialize data schema = .ok values ∧
      deserialize (data.take 8 ++ patch ++ data.drop 22) schema = .ok values := by
  have hheader : (header beginTs).length = versionHeaderSize := by simp [header, versionHeaderSize]
  unfold serialize at h
  dsimp only at h
  split_ifs at h with hlen
  split at h
  · cases h
  · rename_i hfind
    obtain ⟨enc, henc, h⟩ := bind_ok.mp h
    cases h
    rw [List.length_append, hheader, length_nullBitmap] at henc
    have hread : ∀ before : List UInt8, before.length = versionHeaderSize →
        deserialize (before ++ nullBitmap values schema ++ enc) schema = .ok values :=
      fun before hbefore => deserialize_front (not_not.mp hlen)
        (by simpa using List.find?_eq_none.mp hfind) htype hbefore henc
    refine ⟨hread _ hheader, ?_⟩
    have hpatched := hread ((header beginTs).take 8 ++ patch ++ (header beginTs).drop 22)
      (by simp [hheader, hpatch, versionHeaderSize])
    simpa [List.take_append, List.drop_append, hheader, versionHeaderSize] using hpatched

theorem deserialize_row_nullable : ∃ data,
    serialize (fun _ => "") (fun _ => "") [.integer 5, .null]
      ⟨[⟨"id", .integer, false⟩, ⟨"name", .varchar 10, true⟩]⟩ 7 = .ok data ∧
    deserialize data ⟨[⟨"id", .integer, false⟩, ⟨"name", .varchar 10, true⟩]⟩ =
      .ok [.integer 5, .null] :=
  ⟨_, rfl, (deserialize_row (fun _ => "") (fun _ => "") 7 (by simp [u16Max]) rfl
    (.replicate 14 0) rfl).1⟩

end FerroDb.Storage.Tuple

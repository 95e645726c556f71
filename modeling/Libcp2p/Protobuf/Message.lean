import Libcp2p.Protobuf.Grammar

/-!
# Messages: fields one after another

A message is written by calling the field writers one after another, each into what the fields before it left of the
buffer, and read by `protobufDecodeFieldAndType` followed by the reader of the wire type it reports, until the position
is at the end.

* `encodeField_ok`: a field with room for its `ProtobufField.size` bytes is written as a front and a value, unless an
  `assert` fails.
* `parseField_append`: what a writer wrote is read back at any position, whatever follows it.
* `encodeFields_protobufMessage`: what the writers write is a complete message in the sense of the wire format.
* `protobuf_message_iff`: a message that fits its buffer is read back field by field, up to its last byte, exactly when
  no `assert` fails; below `2 ^ 31` bytes none does.
-/

namespace Libcp2p

/-! ## Fields and their writers -/

/-- The value of a field of one of the two wire types that have a writer. -/
inductive FieldValue
  | varint (value : UInt64)
  | lengthDelimited (value : List UInt8)
  deriving DecidableEq, Repr

/-- The wire type of a value. -/
def FieldValue.wireType : FieldValue → WireType
  | .varint _ => .varint
  | .lengthDelimited _ => .lengthDelimited

/-- A field whose number stays inside an `int` when it is pushed together with the wire type. -/
structure ProtobufField where
  number : Nat
  value : FieldValue
  number_pos : 1 ≤ number
  number_lt : number < 2 ^ 28

/-- The front of a field. -/
def ProtobufField.tag (field : ProtobufField) : Nat := fieldTag field.number field.value.wireType

/-- The bytes a value takes. -/
def FieldValue.size : FieldValue → Nat
  | .varint value => varintEncodingLength value.toNat
  | .lengthDelimited value => varintEncodingLength value.length + value.length

/-- The bytes a field takes. -/
def ProtobufField.size (field : ProtobufField) : Nat := varintEncodingLength field.tag + field.value.size

/-- The bytes a list of fields takes. -/
def messageSize : List ProtobufField → Nat
  | [] => 0
  | field :: fields => field.size + messageSize fields

/-- One field into an object of `room` bytes, with the writer of its wire type: the bytes written. -/
def encodeField (field : ProtobufField) (room : Nat) : Except Fault (List UInt8) :=
  match field.value with
  | .varint value => protobufEncodeVarint field.number .varint value.toNat room
  | .lengthDelimited value => protobufEncodeLengthDelimited field.number .lengthDelimited value room

/-- The fields one after another into an object of `room` bytes: the bytes written. -/
def encodeFields : List ProtobufField → (room : Nat) → Except Fault (List UInt8)
  | [], _ => .ok []
  | field :: fields, room => do
    let bytes ← encodeField field room
    let rest ← encodeFields fields (room - bytes.length)
    .ok (bytes ++ rest)

/-- The number that is written behind the front of a field. -/
def FieldValue.leading : FieldValue → Nat
  | .varint value => value.toNat
  | .lengthDelimited value => value.length

/-- No `assert` fails for a field in an object of `room` bytes. -/
def ProtobufField.Told (field : ProtobufField) (room : Nat) : Prop :=
  FieldTold field.number field.value.wireType field.value.leading room

/-- No `assert` fails for the fields one after another. -/
def FieldsTold : List ProtobufField → (room : Nat) → Prop
  | [], _ => True
  | field :: fields, room => field.Told room ∧ FieldsTold fields (room - field.size)

/-! ## The reader -/

/-- What is learnt of a field: its number and wire type as the reader reports them, and its value. -/
structure ParsedField where
  number : Int
  wireType : Int
  value : FieldValue
  deriving DecidableEq, Repr

/-- The value at the front of `bytes` with the reader of its wire type, and the number of bytes read; nothing for a
wire type that has no reader. -/
def parseValue (wireType : Int) (bytes : List UInt8) : Except Fault (Option (FieldValue × Nat)) :=
  if wireType = WireType.varint.toNat then do
    let (value, bytesRead) ← protobufDecodeVarint bytes (toInt32 bytes.length)
    .ok (some (.varint (UInt64.ofNat value), bytesRead))
  else if wireType = WireType.lengthDelimited.toNat then do
    let (value, bytesRead) ← protobufDecodeLengthDelimited bytes (toInt32 bytes.length)
    .ok (some (.lengthDelimited value, bytesRead))
  else .ok none

/-- The field at `pos`, and the position after it. -/
def parseField (message : List UInt8) (pos : Nat) : Except Fault (Option (ParsedField × Nat)) := do
  let left := toInt32 (message.length - pos : Nat)
  let (number, wireType, bytesRead) ← protobufDecodeFieldAndType (message.drop pos) left
  let pos := pos + bytesRead
  let value ← parseValue wireType (message.drop pos)
  .ok (value.map fun (value, bytesRead) => (⟨number, wireType, value⟩, pos + bytesRead))

/-- The fields from `pos` to the end of the message, and the position where the reading ends. Every field passes at
least one byte, so `fuel` above the bytes that are left never runs out. -/
def parseFields (message : List UInt8) : (fuel pos : Nat) → Except Fault (Option (List ParsedField × Nat))
  | 0, _ => .error .diverge
  | fuel + 1, pos =>
    if pos < message.length then do
      match ← parseField message pos with
      | none => .ok none
      | some (field, pos) => do
        let rest ← parseFields message fuel pos
        .ok (rest.map fun (fields, pos) => (field :: fields, pos))
    else .ok (some ([], pos))

/-- A message read from its start. -/
def parseMessage (message : List UInt8) : Except Fault (Option (List ParsedField × Nat)) :=
  parseFields message (message.length + 1) 0

/-- What a reader should learn of a field. -/
def ProtobufField.parsed (field : ProtobufField) : ParsedField :=
  ⟨field.number, field.value.wireType.toNat, field.value⟩

/-! ## One field -/

/-- `bytes` is how a writer writes the value. -/
inductive ValueBytes : FieldValue → List UInt8 → Prop
  | varint {value : UInt64} {bytes : List UInt8} (h : VarintOf value.toNat bytes) : ValueBytes (.varint value) bytes
  | lengthDelimited {value size : List UInt8} (h : VarintOf value.length size) :
    ValueBytes (.lengthDelimited value) (size ++ value)

/-- A field has room for its front and for the number behind it. -/
theorem ProtobufField.front_le_size (field : ProtobufField) :
    varintEncodingLength (fieldTag field.number field.value.wireType) + varintEncodingLength field.value.leading ≤
      field.size := by
  obtain ⟨number, value, hpos, hlt⟩ := field
  cases value with
  | varint v => exact Nat.le_refl _
  | lengthDelimited v => exact Nat.add_le_add_left (Nat.le_add_right _ _) _

theorem ProtobufField.leading_lt {field : ProtobufField} (hsize : field.size < 2 ^ 31) :
    field.value.leading < 2 ^ 64 := by
  obtain ⟨number, value, hpos, hlt⟩ := field
  cases value with
  | varint v => exact v.toNat_lt
  | lengthDelimited v =>
    have hle : v.length ≤ ProtobufField.size ⟨number, .lengthDelimited v, hpos, hlt⟩ :=
      Nat.le_trans (Nat.le_add_left _ _) (Nat.le_add_left _ _)
    exact Nat.lt_trans (Nat.lt_of_le_of_lt hle hsize) (by decide)

/-- **A writer** with room for its field writes the front and then the value, in as many bytes as the field takes,
unless an `assert` fails. -/
theorem encodeField_ok {field : ProtobufField} {room : Nat} (hroom : field.size ≤ room) (hsize : field.size < 2 ^ 31)
    (htold : field.Told room) :
    ∃ tag value, VarintOf field.tag tag ∧ ValueBytes field.value value ∧ (tag ++ value).length = field.size ∧
      encodeField field room = .ok (tag ++ value) := by
  have hlead := ProtobufField.leading_lt hsize
  obtain ⟨number, fieldValue, hpos, hlt⟩ := field
  cases fieldValue with
  | varint v =>
    obtain ⟨tag, value, ht, hv, htl, hvl, he⟩ := protobufEncodeVarint_ok number .varint hlead hroom htold
    refine ⟨tag, value, ht, .varint hv, ?_, he⟩
    rw [List.length_append, htl, hvl]
    rfl
  | lengthDelimited v =>
    have hroom' : varintEncodingLength (fieldTag number .lengthDelimited) + varintEncodingLength v.length + v.length ≤
        room := by
      rw [Nat.add_assoc]
      exact hroom
    obtain ⟨tag, size, ht, hs, htl, hsl, he⟩ :=
      protobufEncodeLengthDelimited_ok number .lengthDelimited hroom' hlead htold
    refine ⟨tag, size ++ v, ht, .lengthDelimited hs, ?_, ?_⟩
    · rw [List.length_append, List.length_append, htl, hsl]
      rfl
    · rw [← List.append_assoc]
      exact he

/-- A field is written only if no `assert` fails. -/
theorem told_of_encodeField {field : ProtobufField} {room : Nat} {bytes : List UInt8} (hroom : field.size ≤ room)
    (hsize : field.size < 2 ^ 31) (h : encodeField field room = .ok bytes) : field.Told room := by
  have hlead := ProtobufField.leading_lt hsize
  have hfront := Nat.le_trans field.front_le_size hroom
  obtain ⟨number, value, hpos, hlt⟩ := field
  cases value with
  | varint v =>
    obtain ⟨tag, ht, h⟩ := bind_eq_ok.mp h
    obtain ⟨bytes, hb, -⟩ := bind_eq_ok.mp h
    exact fieldTold_of_encode number .varint hlead hfront ht hb
  | lengthDelimited v =>
    obtain ⟨tag, ht, h⟩ := bind_eq_ok.mp h
    obtain ⟨size, hs, -⟩ := bind_eq_ok.mp h
    exact fieldTold_of_encode number .lengthDelimited hlead hfront ht hs

/-- The reader of a value's wire type reads the value back and stops behind it. -/
theorem parseValue_append {value : FieldValue} {bytes : List UInt8} (h : ValueBytes value bytes) (rest : List UInt8)
    (hmax : (bytes ++ rest).length < 2 ^ 31) :
    parseValue value.wireType.toNat (bytes ++ rest) = .ok (some (value, bytes.length)) := by
  have hlen : toInt32 (bytes ++ rest).length = (bytes ++ rest).length := toInt32_natCast hmax
  unfold parseValue
  rw [hlen]
  cases h with
  | varint h =>
    rw [FieldValue.wireType, if_pos rfl, protobufDecodeVarint, varintDecode_append h rest (UInt64.toNat_lt _)
      (by rw [List.length_append]; omega), ok_bind]
    dsimp only
    rw [UInt64.ofNat_toNat]
  | @lengthDelimited value size h =>
    have hsize : value.length < 2 ^ 64 ∧ (size.length : Int) ≤ (size ++ value ++ rest).length := by
      simp only [List.length_append] at hmax ⊢
      omega
    rw [FieldValue.wireType, if_neg (by decide), if_pos rfl,
      protobufDecodeLengthDelimited_append h rest hsize.1 hsize.2, ok_bind, List.length_append]

/-- **A field is read back** at its place in a message, whatever is before and behind it. -/
theorem parseField_append {field : ProtobufField} {before tag value rest : List UInt8} (ht : VarintOf field.tag tag)
    (hv : ValueBytes field.value value) (hmax : (before ++ (tag ++ (value ++ rest))).length < 2 ^ 31) :
    parseField (before ++ (tag ++ (value ++ rest))) before.length =
      .ok (some (field.parsed, before.length + (tag ++ value).length)) := by
  obtain ⟨hdrop, -⟩ := after_tag hmax
  have hleft : toInt32 ((before ++ (tag ++ (value ++ rest))).length - before.length : Nat) =
      (tag ++ (value ++ rest)).length := by
    rw [toInt32_natCast (by omega), List.length_append]
    omega
  have hfront := protobufDecodeFieldAndType_append ht (value ++ rest) field.number_lt
    (show (tag.length : Int) ≤ (tag ++ (value ++ rest)).length by rw [List.length_append]; omega)
  have hvalue := parseValue_append hv rest (by simp only [List.length_append] at hmax ⊢; omega)
  unfold parseField
  rw [List.drop_left, hleft]
  dsimp only
  rw [hfront, ok_bind]
  dsimp only
  rw [hdrop, hvalue, ok_bind, Option.map_some, List.length_append, Nat.add_assoc]
  rfl

/-! ## Whole messages -/

/-- One round of the reading loop. -/
theorem parseFields_field {message : List UInt8} {fuel pos pos' : Nat} {field : ParsedField}
    (hpos : pos < message.length) (h : parseField message pos = .ok (some (field, pos'))) :
    parseFields message (fuel + 1) pos =
      (parseFields message fuel pos').map (Option.map fun (fields, pos) => (field :: fields, pos)) := by
  rw [parseFields, if_pos hpos, h, ok_bind]
  rfl

/-- **Fields behind any bytes** are written into room for them, unless an `assert` fails, and read back up to the
end. -/
theorem parseFields_encodeFields (fields : List ProtobufField) {room fuel : Nat} (before : List UInt8)
    (hroom : messageSize fields ≤ room) (hmax : before.length + messageSize fields < 2 ^ 31)
    (htold : FieldsTold fields room) (hfuel : messageSize fields < fuel) :
    ∃ message, encodeFields fields room = .ok message ∧ message.length = messageSize fields ∧
      parseFields (before ++ message) fuel before.length =
        .ok (some (fields.map ProtobufField.parsed, (before ++ message).length)) := by
  induction fields generalizing room fuel before with
  | nil =>
    obtain ⟨fuel, rfl⟩ := Nat.exists_eq_add_of_lt hfuel
    refine ⟨[], rfl, rfl, ?_⟩
    rw [List.append_nil, parseFields, if_neg (Nat.lt_irrefl _)]
    rfl
  | cons field fields ih =>
    rw [messageSize] at hroom hmax hfuel
    obtain ⟨hfirst, hrest⟩ := htold
    obtain ⟨tag, value, ht, hv, hl, he⟩ := encodeField_ok (show field.size ≤ room by omega) (by omega) hfirst
    rw [← hl] at hrest
    have htag := ht.length_pos (fieldTag_lt _ _)
    rw [List.length_append] at hl
    obtain ⟨fuel, rfl⟩ : ∃ f, fuel = f + 1 := ⟨fuel - 1, by omega⟩
    obtain ⟨rest, hrest, hrestl, hparse⟩ := ih (before ++ (tag ++ value))
      (show messageSize fields ≤ room - (tag ++ value).length by rw [List.length_append]; omega)
      (by simp only [List.length_append]; omega) hrest (show messageSize fields < fuel by omega)
    have hmessage : before ++ (tag ++ value) ++ rest = before ++ (tag ++ (value ++ rest)) := by
      simp only [List.append_assoc]
    rw [hmessage, List.length_append] at hparse
    refine ⟨tag ++ (value ++ rest), ?_, ?_, ?_⟩
    · rw [encodeFields, he, ok_bind, hrest, ok_bind, List.append_assoc]
    · rw [messageSize]
      simp only [List.length_append]
      omega
    · rw [parseFields_field (by simp only [List.length_append]; omega)
        (parseField_append ht hv (by simp only [List.length_append]; omega)), hparse]
      rfl

/-! ## What is written is a message -/

/-- A front that was written is a front of the grammar. -/
theorem ProtobufField.wireTag {field : ProtobufField} {tag : List UInt8} (h : VarintOf field.tag tag) :
    WireTag field.number field.value.wireType tag := by
  have hlt := fieldTag_lt field.number field.value.wireType
  obtain ⟨hf, hv, -⟩ := h.form hlt
  refine ⟨hf, h.length_le hlt, hv.trans (fieldTag_eq field.number_lt), field.number_pos, ?_⟩
  exact Nat.lt_trans field.number_lt (by decide)

theorem ValueBytes.wireValue {value : FieldValue} {bytes : List UInt8} (h : ValueBytes value bytes)
    (hmax : bytes.length < 2 ^ 31) : WireValue value.wireType bytes := by
  cases h with
  | varint h => exact .varint (h.form (UInt64.toNat_lt _)).1 (h.length_le (UInt64.toNat_lt _))
  | @lengthDelimited value size h =>
    have hlt : value.length < 2 ^ 64 := by
      rw [List.length_append] at hmax
      omega
    obtain ⟨hf, hv, -⟩ := h.form hlt
    exact .lengthDelimited hf (h.length_le hlt) hv

/-- Below `2 ^ 31` bytes no `assert` fails. -/
theorem fieldsTold_of_lt {fields : List ProtobufField} {room : Nat} (hroom : messageSize fields ≤ room)
    (hmax : room < 2 ^ 31) : FieldsTold fields room := by
  induction fields generalizing room with
  | nil => trivial
  | cons field fields ih =>
    rw [messageSize] at hroom
    refine ⟨?_, ih (by omega) (by omega)⟩
    exact fieldTold_of_lt _ _ (Nat.le_trans field.front_le_size (by omega)) hmax

/-- Fields are written one after another only if no `assert` fails. -/
theorem fieldsTold_of_encodeFields {fields : List ProtobufField} {room : Nat} {message : List UInt8}
    (hroom : messageSize fields ≤ room) (hsize : messageSize fields < 2 ^ 31)
    (h : encodeFields fields room = .ok message) : FieldsTold fields room := by
  induction fields generalizing room message with
  | nil => trivial
  | cons field fields ih =>
    rw [messageSize] at hroom hsize
    obtain ⟨bytes, hb, h⟩ := bind_eq_ok.mp h
    obtain ⟨rest, hrest, -⟩ := bind_eq_ok.mp h
    have htold := told_of_encodeField (show field.size ≤ room by omega) (by omega) hb
    obtain ⟨tag, value, -, -, hl, he⟩ := encodeField_ok (show field.size ≤ room by omega) (by omega) htold
    obtain rfl : bytes = tag ++ value := Except.ok.inj (hb.symm.trans he)
    rw [hl] at hrest
    exact ⟨htold, ih (by omega) (by omega) hrest⟩

/-- **What the writers write** is a complete message of the fields. -/
theorem encodeFields_protobufMessage {fields : List ProtobufField} {room : Nat} (hroom : messageSize fields ≤ room)
    (hsize : messageSize fields < 2 ^ 31) (htold : FieldsTold fields room) :
    ∃ message, encodeFields fields room = .ok message ∧ ProtobufMessage (fields.map ProtobufField.number) message := by
  induction fields generalizing room with
  | nil => exact ⟨[], rfl, .nil⟩
  | cons field fields ih =>
    rw [messageSize] at hroom hsize
    obtain ⟨hfirst, hrest⟩ := htold
    obtain ⟨tag, value, ht, hv, hl, he⟩ := encodeField_ok (show field.size ≤ room by omega) (by omega) hfirst
    rw [← hl] at hrest
    obtain ⟨rest, hrest, hmessage⟩ :=
      ih (show messageSize fields ≤ room - (tag ++ value).length by omega) (by omega) hrest
    refine ⟨tag ++ (value ++ rest), ?_, ?_⟩
    · rw [encodeFields, he, ok_bind, hrest, ok_bind, List.append_assoc]
    · rw [List.length_append] at hl
      exact .field (ProtobufField.wireTag ht) (hv.wireValue (by omega)) hmessage

/-- The fields are written one after another and read back with their numbers, wire types and values, and the reading
ends at the end of what was written. -/
def RoundTrips (fields : List ProtobufField) (bufferLength : Nat) : Prop :=
  ∃ message, encodeFields fields bufferLength = .ok message ∧ message.length = messageSize fields ∧
    parseMessage message = .ok (some (fields.map ProtobufField.parsed, message.length))

/-- **Messages** of fewer than `2 ^ 31` bytes, in a buffer that is large enough, are written and read back exactly when
no `assert` of `varint_encode` fails, which is told the bytes left as an `int`; in a buffer below `2 ^ 31` bytes none
does. -/
theorem protobuf_message_iff (fields : List ProtobufField) (bufferLength : Nat)
    (hsize : messageSize fields ≤ bufferLength) (htotal : messageSize fields < 2 ^ 31) :
    (RoundTrips fields bufferLength ↔ FieldsTold fields bufferLength) ∧
      (bufferLength < 2 ^ 31 → RoundTrips fields bufferLength) := by
  have hiff : RoundTrips fields bufferLength ↔ FieldsTold fields bufferLength := by
    constructor
    · rintro ⟨message, henc, -, -⟩
      exact fieldsTold_of_encodeFields hsize htotal henc
    · intro htold
      obtain ⟨message, henc, hlen, hparse⟩ := parseFields_encodeFields fields [] hsize
        (show [].length + messageSize fields < 2 ^ 31 by simpa using htotal) htold (Nat.lt_succ_self _)
      rw [List.nil_append, ← hlen] at hparse
      exact ⟨message, henc, hlen, hparse⟩
  exact ⟨hiff, fun hmax => hiff.mpr (fieldsTold_of_lt hsize hmax)⟩

/-- A number and an empty string, in a buffer of exactly their size. -/
theorem protobuf_message_iff_two :
    let fields : List ProtobufField :=
      [⟨1, .varint 300, by decide, by decide⟩, ⟨16, .lengthDelimited [], by decide, by decide⟩]
    messageSize fields = 6 ∧ RoundTrips fields 6 := by
  refine ⟨by decide, ?_⟩
  exact (protobuf_message_iff _ 6 (by decide) (by decide)).2 (by decide)

/-- The number 0 in field 16, in a buffer of `2 ^ 31` bytes: the `assert` for the second byte of the front fails. -/
theorem protobuf_message_large_buffer :
    let fields : List ProtobufField := [⟨16, .varint 0, by decide, by decide⟩]
    messageSize fields = 3 ∧ encodeFields fields (2 ^ 31) = .error .assertion ∧ ¬ RoundTrips fields (2 ^ 31) := by
  intro fields
  have henc : encodeFields fields (2 ^ 31) = .error .assertion := by decide
  refine ⟨by decide, henc, ?_⟩
  rintro ⟨message, henc', -⟩
  cases henc.symm.trans henc'

end Libcp2p

import Libcp2p.Cbor.Format
import Libcp2p.Cbor.Parser

/-!
# The tinycbor encoder

`src/tinycbor/cborencoder.c`, as far as the message encoders use it. A `CborEncoder` writes into a caller's buffer:
`written` holds the bytes from the start of the buffer to `data.ptr` and `room` the distance to `end`. When the buffer
is exhausted `end` becomes null (`room = none`) and the encoder only counts the bytes it would need, in a `ptrdiff_t`
that shares its memory with `data.ptr`. Functions return the updated encoder with their `CborError`, `none` for
`CborNoError`, or a fault where that count overflows.

As long as the buffer has room, encoding appends the shortest heads of `Libcp2p.Cbor.Format` (`encodeNumber_eq`,
`cborEncodeByteString_eq`).
-/

namespace Libcp2p.Cbor

/-- `struct CborEncoder`. -/
structure CborEncoder where
  /-- the bytes from the start of the buffer to `data.ptr` -/
  written : List UInt8
  /-- `end - data.ptr`, or `none` for a null `end` -/
  room : Option Nat
  /-- `data.bytes_needed`, used once `end` is null -/
  bytesNeeded : Int
  remaining : Nat
  unknownLength : Bool
  containerIsMap : Bool
  deriving DecidableEq, Repr

/-- `CborIndefiniteLength`. -/
def CborIndefiniteLength : Nat := SIZE_MAX

/-- `type << MajorTypeShift`. -/
def CborMajorTypes.shifted : CborMajorTypes → Nat
  | .unsignedInteger => 0 <<< 5
  | .negativeInteger => 1 <<< 5
  | .byteString => 2 <<< 5
  | .textString => 3 <<< 5
  | .array => 4 <<< 5
  | .map => 5 <<< 5
  | .tag => 6 <<< 5
  | .simpleTypes => 7 <<< 5

/-- `cbor_encoder_init` on a buffer of `size` bytes, with `flags = 0`. -/
def cborEncoderInit (size : Nat) : CborEncoder :=
  { written := [], room := some size, bytesNeeded := 0, remaining := 2, unknownLength := false,
    containerIsMap := false }

/-- A result of arithmetic in `ptrdiff_t`. -/
def ptrdiff (i : Int) : Except Fault Int := if -2 ^ 63 ≤ i ∧ i < 2 ^ 63 then .ok i else .error .overflow

/-- `would_overflow`. -/
def wouldOverflow (encoder : CborEncoder) (len : Nat) : Except Fault Bool := do
  let remaining ← match encoder.room with
    | some room => ptrdiff room
    | none => ptrdiff (0 - encoder.bytesNeeded)
  let remaining ← ptrdiff (remaining - toInt64 len)
  return remaining < 0

/-- `append_to_buffer`. -/
def appendToBuffer (encoder : CborEncoder) (data : List UInt8) : Except Fault (Option CborError × CborEncoder) := do
  if ← wouldOverflow encoder data.length then
    let encoder := match encoder.room with
      | some room => { encoder with room := none, bytesNeeded := toInt64 (data.length - room) }
      | none => { encoder with bytesNeeded := toInt64 (encoder.bytesNeeded + data.length) }
    return (some .outOfMemory, encoder)
  else match encoder.room with
    | some room =>
      if data.length ≤ room then
        return (none, { encoder with written := encoder.written ++ data, room := some (room - data.length) })
      else .error .outOfBounds
    -- without a buffer the bytes of `bytes_needed` are taken for the pointer to copy to
    | none => if data = [] then return (none, encoder) else .error .outOfBounds

/-- `encode_number_no_update`: the last bytes of the 64-bit number, after the first byte of the item. -/
def encodeNumberNoUpdate (encoder : CborEncoder) (ui shiftedMajorType : Nat) :
    Except Fault (Option CborError × CborEncoder) :=
  if ui < value8Bit then appendToBuffer encoder [UInt8.ofNat (shiftedMajorType + ui)]
  else
    let more := (if ui > 0xff then 1 else 0) + (if ui > 0xffff then 1 else 0) + (if ui > 0xffffffff then 1 else 0)
    appendToBuffer encoder (UInt8.ofNat (shiftedMajorType + value8Bit + more) :: beBytes (1 <<< more) ui)

/-- `saturated_decrement`. -/
def saturatedDecrement (encoder : CborEncoder) : CborEncoder := { encoder with remaining := encoder.remaining - 1 }

/-- `encode_number`. -/
def encodeNumber (encoder : CborEncoder) (ui shiftedMajorType : Nat) : Except Fault (Option CborError × CborEncoder) :=
  encodeNumberNoUpdate (saturatedDecrement encoder) ui shiftedMajorType

/-- `cbor_encode_int`: negative numbers are complemented. -/
def cborEncodeInt (encoder : CborEncoder) (value : Int) : Except Fault (Option CborError × CborEncoder) :=
  if value < 0 then encodeNumber encoder (-1 - value).toNat CborMajorTypes.negativeInteger.shifted
  else encodeNumber encoder value.toNat CborMajorTypes.unsignedInteger.shifted

/-- `cbor_encode_simple_value`. -/
def cborEncodeSimpleValue (encoder : CborEncoder) (value : UInt8) : Except Fault (Option CborError × CborEncoder) :=
  if 25 ≤ value.toNat ∧ value.toNat ≤ 31 then .ok (some .illegalSimpleType, encoder)
  else encodeNumber encoder value.toNat CborMajorTypes.simpleTypes.shifted

/-- `cbor_encode_uint`. -/
def cborEncodeUint (encoder : CborEncoder) (value : Nat) : Except Fault (Option CborError × CborEncoder) :=
  encodeNumber encoder value CborMajorTypes.unsignedInteger.shifted

/-- `cbor_encode_negative_int`: `absolute_value - 1` on a `uint64_t`. -/
def cborEncodeNegativeInt (encoder : CborEncoder) (absoluteValue : Nat) :
    Except Fault (Option CborError × CborEncoder) :=
  encodeNumber encoder (toUInt64 (absoluteValue - 1)) CborMajorTypes.negativeInteger.shifted

/-- `cbor_encode_floating_point`, with the bits of the number in `value`. -/
def cborEncodeFloatingPoint (encoder : CborEncoder) (fpType : CborType) (value : Nat) :
    Except Fault (Option CborError × CborEncoder) :=
  if fpType = .halfFloat ∨ fpType = .float ∨ fpType = .double then
    -- `fpType - CborHalfFloatType`
    let more := if fpType = .halfFloat then 0 else if fpType = .float then 1 else 2
    let buf := UInt8.ofNat (0xf9 + more) :: beBytes (2 <<< more) value
    appendToBuffer (saturatedDecrement encoder) buf
  else .error .assertion

/-- `cbor_encode_tag`: tags do not count towards the number of items. -/
def cborEncodeTag (encoder : CborEncoder) (tag : Nat) : Except Fault (Option CborError × CborEncoder) :=
  encodeNumberNoUpdate encoder tag CborMajorTypes.tag.shifted

/-- `encode_string`: a head that did not fit is no reason to stop. -/
def encodeString (encoder : CborEncoder) (string : List UInt8) (shiftedMajorType : Nat) :
    Except Fault (Option CborError × CborEncoder) := do
  let (_, encoder) ← encodeNumber encoder string.length shiftedMajorType
  appendToBuffer encoder string

/-- `cbor_encode_byte_string`. -/
def cborEncodeByteString (encoder : CborEncoder) (string : List UInt8) :
    Except Fault (Option CborError × CborEncoder) :=
  encodeString encoder string CborMajorTypes.byteString.shifted

/-- `cbor_encode_text_string`. -/
def cborEncodeTextString (encoder : CborEncoder) (string : List UInt8) :
    Except Fault (Option CborError × CborEncoder) :=
  encodeString encoder string CborMajorTypes.textString.shifted

/-- `create_container`: the encoder of the container, and the outer encoder. -/
def createContainer (encoder : CborEncoder) (length : Nat) (type : CborMajorTypes) :
    Except Fault (Option CborError × CborEncoder × CborEncoder) := do
  let isMap : Bool := type = .map
  let container := { encoder with
    remaining := (length + 1) % 2 ^ 64
    unknownLength := length = CborIndefiniteLength
    containerIsMap := isMap }
  let (err, container) ←
    if length = CborIndefiniteLength then appendToBuffer container [UInt8.ofNat (type.shifted + indefiniteLength)]
    else
      let container := if isMap then { container with remaining := container.remaining + length } else container
      encodeNumberNoUpdate container length type.shifted
  return (err, container, saturatedDecrement encoder)

/-- `cbor_encoder_create_array`. -/
def cborEncoderCreateArray (encoder : CborEncoder) (length : Nat) :
    Except Fault (Option CborError × CborEncoder × CborEncoder) :=
  createContainer encoder length .array

/-- `cbor_encoder_create_map`; no container is set up if `length` is too large. -/
def cborEncoderCreateMap (encoder : CborEncoder) (length : Nat) :
    Except Fault (Option CborError × Option CborEncoder × CborEncoder) :=
  if length ≠ CborIndefiniteLength ∧ length > SIZE_MAX / 2 then .ok (some .dataTooLarge, none, encoder)
  else do
    let (err, container, encoder) ← createContainer encoder length .map
    return (err, some container, encoder)

/-- `cbor_encoder_close_container`. -/
def cborEncoderCloseContainer (encoder containerEncoder : CborEncoder) :
    Except Fault (Option CborError × CborEncoder) :=
  let encoder := { encoder with
    written := if encoder.room.isSome then containerEncoder.written else encoder.written
    bytesNeeded := containerEncoder.bytesNeeded
    room := containerEncoder.room }
  if containerEncoder.unknownLength then appendToBuffer encoder [BreakByte]
  else if containerEncoder.remaining ≠ 1 then
    .ok (some (if containerEncoder.remaining = 0 then .tooManyItems else .tooFewItems), encoder)
  else if encoder.room = none then .ok (some .outOfMemory, encoder)
  else .ok (none, encoder)

/-- `cbor_encoder_get_extra_bytes_needed`. -/
def cborEncoderGetExtraBytesNeeded (encoder : CborEncoder) : Nat :=
  if encoder.room.isSome then 0 else (encoder.bytesNeeded % 2 ^ 64).toNat

/-! ## Room -/

theorem toInt64_natCast {n : Nat} (h : n < 2 ^ 63) : toInt64 n = n := by unfold toInt64; omega

theorem ptrdiff_eq {i : Int} (hlo : -2 ^ 63 ≤ i) (hhi : i < 2 ^ 63) : ptrdiff i = .ok i := if_pos ⟨hlo, hhi⟩

section Append

variable {encoder : CborEncoder} {data : List UInt8} {r : Nat}

theorem wouldOverflow_of_room {len : Nat} (hr : encoder.room = some r) (hlt : r < 2 ^ 63) (hlen : len < 2 ^ 63) :
    wouldOverflow encoder len = .ok (decide (r < len)) := by
  have hsub : ((r : Int) - len < 0) = (r < len) := propext (by omega)
  simp only [wouldOverflow, hr, ptrdiff_eq (i := (r : Int)) (by omega) (by omega), ok_bind, toInt64_natCast hlen,
    ptrdiff_eq (i := (r : Int) - len) (by omega) (by omega), pure_eq_ok, hsub]

/-- Bytes that fit are written. -/
theorem appendToBuffer_of_room (hr : encoder.room = some r) (hlt : r < 2 ^ 63) (hle : data.length ≤ r) :
    appendToBuffer encoder data =
      .ok (none, { encoder with written := encoder.written ++ data, room := some (r - data.length) }) := by
  have hnot : decide (r < data.length) = false := decide_eq_false (by omega)
  simp only [appendToBuffer, wouldOverflow_of_room hr hlt (Nat.lt_of_le_of_lt hle hlt), hnot, hr, ok_bind,
    Bool.false_eq_true, if_false, if_pos hle, pure_eq_ok]

/-- The first bytes that do not fit: the rest is missing. -/
theorem appendToBuffer_of_lt (hr : encoder.room = some r) (hlen : data.length < 2 ^ 63) (hlt : r < data.length) :
    appendToBuffer encoder data =
      .ok (some .outOfMemory, { encoder with room := none, bytesNeeded := data.length - r }) := by
  have hmiss : toInt64 (data.length - r) = data.length - r := by unfold toInt64; omega
  simp only [appendToBuffer, wouldOverflow_of_room hr (Nat.lt_trans hlt hlen) hlen, decide_eq_true hlt, hr, ok_bind,
    if_true, hmiss, pure_eq_ok]

/-- Once bytes are missing, all that follow are counted, as long as the count is a `ptrdiff_t`. -/
theorem appendToBuffer_of_full (hr : encoder.room = none) (hpos : 0 < encoder.bytesNeeded)
    (hlt : encoder.bytesNeeded + data.length < 2 ^ 63) :
    appendToBuffer encoder data =
      .ok (some .outOfMemory, { encoder with bytesNeeded := encoder.bytesNeeded + data.length }) := by
  have hlen : toInt64 data.length = data.length := toInt64_natCast (by omega)
  have hneg : decide (0 - encoder.bytesNeeded - data.length < 0) = true := decide_eq_true (by omega)
  have hsum : toInt64 (encoder.bytesNeeded + data.length) = encoder.bytesNeeded + data.length := by
    unfold toInt64; omega
  have hover : wouldOverflow encoder data.length = .ok true := by
    simp only [wouldOverflow, hr, ptrdiff_eq (i := 0 - encoder.bytesNeeded) (by omega) (by omega), ok_bind, hlen,
      ptrdiff_eq (i := 0 - encoder.bytesNeeded - data.length) (by omega) (by omega), pure_eq_ok, hneg]
  simp only [appendToBuffer, hover, hr, ok_bind, if_true, hsum, pure_eq_ok]

/-- The count is not checked: here `2 ^ 63 - 1` bytes are missing. -/
example : appendToBuffer { cborEncoderInit 0 with room := none, bytesNeeded := 2 ^ 63 - 1 } [1, 2] =
    .error .overflow := by decide

end Append

/-! ## Encoding with enough room -/

section Room

variable {encoder : CborEncoder}

/-- The encoder after `data` has been written to a buffer that has room for it. -/
def CborEncoder.push (encoder : CborEncoder) (data : List UInt8) : CborEncoder :=
  { encoder with written := encoder.written ++ data, room := encoder.room.map (· - data.length) }

/-- The encoder after one item of a container, `data`, has been written. -/
def CborEncoder.item (encoder : CborEncoder) (data : List UInt8) : CborEncoder := (saturatedDecrement encoder).push data

/-- The buffer has room for `n` more bytes. No object of C has `2 ^ 63` bytes. -/
def CborEncoder.HasRoom (encoder : CborEncoder) (n : Nat) : Prop := ∃ r ∈ encoder.room, n ≤ r ∧ r < 2 ^ 63

theorem CborEncoder.HasRoom.push {data : List UInt8} {n : Nat} (h : encoder.HasRoom (data.length + n)) :
    (encoder.push data).HasRoom n := by
  obtain ⟨r, hr, hle, hlt⟩ := h
  exact ⟨r - data.length, by simp [CborEncoder.push, Option.mem_def.mp hr], by omega, by omega⟩

theorem CborEncoder.HasRoom.item {data : List UInt8} {n : Nat} (h : encoder.HasRoom (data.length + n)) :
    (encoder.item data).HasRoom n := by
  have h' : (saturatedDecrement encoder).HasRoom (data.length + n) := h
  exact h'.push

theorem CborEncoder.HasRoom.mono {m n : Nat} (h : encoder.HasRoom n) (hmn : m ≤ n) : encoder.HasRoom m := by
  obtain ⟨r, hr, hle, hlt⟩ := h
  exact ⟨r, hr, by omega, hlt⟩

/-- The encoder of an array of `n` items, before its first item. -/
def CborEncoder.openArray (encoder : CborEncoder) (n : Nat) : CborEncoder :=
  { encoder with remaining := n + 1, unknownLength := false, containerIsMap := false }.push (head 4 n)

theorem CborEncoder.HasRoom.openArray {k n : Nat} (h : encoder.HasRoom ((head 4 n).length + k)) :
    (encoder.openArray n).HasRoom k := by
  have h' : ({ encoder with remaining := n + 1, unknownLength := false, containerIsMap := false } :
      CborEncoder).HasRoom ((head 4 n).length + k) := h
  exact h'.push

theorem appendToBuffer_eq {data : List UInt8} (h : encoder.HasRoom data.length) :
    appendToBuffer encoder data = .ok (none, encoder.push data) := by
  obtain ⟨r, hr, hle, hlt⟩ := h
  rw [appendToBuffer_of_room hr hlt hle, CborEncoder.push, Option.mem_def.mp hr]
  rfl

/-- `encode_number_no_update` writes the shortest head. -/
theorem encodeNumberNoUpdate_head (n : Nat) (type : CborMajorTypes) (m : Nat) (hm : type.shifted = 32 * m) :
    encodeNumberNoUpdate encoder n type.shifted = appendToBuffer encoder (head m n) := by
  unfold encodeNumberNoUpdate head widthCode initialByte value8Bit
  rw [hm]
  by_cases h24 : n < 24
  · rw [if_pos h24, if_pos h24]
  · rw [if_neg h24, if_neg h24]
    by_cases h8 : n ≤ 0xff
    · simp [h8, show ¬0xff < n by omega, show ¬0xffff < n by omega, show ¬0xffffffff < n by omega]
    · by_cases h16 : n ≤ 0xffff
      · simp [h8, h16, show 0xff < n by omega, show ¬0xffff < n by omega, show ¬0xffffffff < n by omega, Nat.add_assoc]
      · by_cases h32 : n ≤ 0xffffffff
        · simp [h8, h16, h32, show 0xff < n by omega, show 0xffff < n by omega, show ¬0xffffffff < n by omega,
            Nat.add_assoc]
        · simp [h8, h16, h32, show 0xff < n by omega, show 0xffff < n by omega, show 0xffffffff < n by omega,
            Nat.add_assoc]

/-- `encode_number` writes the shortest head of one item. -/
theorem encodeNumber_eq {n m k : Nat} {type : CborMajorTypes} (hm : type.shifted = 32 * m)
    (h : encoder.HasRoom ((head m n).length + k)) :
    encodeNumber encoder n type.shifted = .ok (none, encoder.item (head m n)) := by
  rw [encodeNumber, encodeNumberNoUpdate_head n type m hm]
  have h' : (saturatedDecrement encoder).HasRoom (head m n).length := h.mono (Nat.le_add_right _ _)
  exact appendToBuffer_eq h'

/-- `cbor_encode_int` of a length. -/
theorem cborEncodeInt_eq {n k : Nat} (h : encoder.HasRoom ((head 0 n).length + k)) :
    cborEncodeInt encoder n = .ok (none, encoder.item (head 0 n)) := by
  rw [cborEncodeInt, if_neg (by omega), Int.toNat_natCast]
  exact encodeNumber_eq rfl h

/-- `cbor_encode_int` of a length that the buffer has no room for. -/
theorem cborEncodeInt_full {n r : Nat} (hr : encoder.room = some r) (h : r < (head 0 n).length) :
    ∃ e, cborEncodeInt encoder n = .ok (some .outOfMemory, e) := by
  have hle := length_head_le 0 n
  have hr' : (saturatedDecrement encoder).room = some r := hr
  rw [cborEncodeInt, if_neg (by omega), Int.toNat_natCast, encodeNumber, encodeNumberNoUpdate_head n _ 0 rfl]
  exact ⟨_, appendToBuffer_of_lt hr' (by omega) h⟩

/-- `cbor_encode_simple_value`. -/
theorem cborEncodeSimpleValue_eq {v : UInt8} {k : Nat} (hv : ¬(25 ≤ v.toNat ∧ v.toNat ≤ 31))
    (h : encoder.HasRoom ((head 7 v.toNat).length + k)) :
    cborEncodeSimpleValue encoder v = .ok (none, encoder.item (head 7 v.toNat)) := by
  rw [cborEncodeSimpleValue, if_neg hv]
  exact encodeNumber_eq rfl h

/-- `cbor_encode_byte_string`. -/
theorem cborEncodeByteString_eq {s : List UInt8} {k : Nat}
    (h : encoder.HasRoom ((head 2 s.length ++ s).length + k)) :
    cborEncodeByteString encoder s = .ok (none, encoder.item (head 2 s.length ++ s)) := by
  rw [List.length_append, Nat.add_assoc] at h
  rw [cborEncodeByteString, encodeString, encodeNumber_eq rfl h, ok_bind]
  simp only
  rw [appendToBuffer_eq (h.item.mono (Nat.le_add_right _ _))]
  simp [CborEncoder.item, CborEncoder.push, Function.comp_def, Nat.sub_sub]

/-- `cbor_encoder_create_array` of a known number of items. -/
theorem cborEncoderCreateArray_eq {n k : Nat} (hn : n < SIZE_MAX) (h : encoder.HasRoom ((head 4 n).length + k)) :
    cborEncoderCreateArray encoder n = .ok (none, encoder.openArray n, saturatedDecrement encoder) := by
  have hmod : (n + 1) % 2 ^ 64 = n + 1 := Nat.mod_eq_of_lt (by unfold SIZE_MAX at hn; omega)
  simp only [cborEncoderCreateArray, createContainer, CborIndefiniteLength, Nat.ne_of_lt hn, if_false, hmod,
    reduceCtorEq, decide_false, Bool.false_eq_true, encodeNumberNoUpdate_head n .array 4 rfl]
  rw [appendToBuffer_eq]
  · rfl
  · exact CborEncoder.HasRoom.mono h (Nat.le_add_right _ _)

/-- `cbor_encoder_close_container` once all items are written. -/
theorem cborEncoderCloseContainer_eq (encoder : CborEncoder) {container : CborEncoder} (he : encoder.room.isSome)
    (hr : container.HasRoom 0) (hu : container.unknownLength = false) (hone : container.remaining = 1) :
    ∃ e, cborEncoderCloseContainer encoder container = .ok (none, e) ∧ e.written = container.written := by
  obtain ⟨r, hr, -⟩ := hr
  simp [cborEncoderCloseContainer, hu, hone, he, Option.mem_def.mp hr]

end Room

end Libcp2p.Cbor

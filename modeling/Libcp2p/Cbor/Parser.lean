import Libcp2p.Lib.BigEndian
import Libcp2p.Lib.CMemory

/-!
# The tinycbor parser

`src/tinycbor/cborparser.c` and the inline functions of `tinycbor/cbor.h`, as far as the message decoders use them,
with the validation of an item and the lookup in a map. A `CborValue` is an iterator: `ptr` holds the bytes from the
current position up to `parser->end`, so `ptr == end` is `ptr = []`, `end - ptr` is its length and dereferencing an
empty `ptr` is out of bounds. Functions that return a `CborError` and update an iterator return the iterator in `Except
Stop`: `Stop.err` is a `CborError`, `Stop.fault` a failed `cbor_assert` or an access outside the input, and `Stop.null`
a caller that gives up without a `CborError`.
-/

namespace Libcp2p.Cbor

/-- The values of `CborError` that parsing and encoding return. -/
inductive CborError
  | unknownLength
  | advancePastEOF
  | unexpectedEOF
  | unexpectedBreak
  | unknownType
  | illegalType
  | illegalNumber
  | illegalSimpleType
  | tooManyItems
  | tooFewItems
  | dataTooLarge
  | nestingTooDeep
  | outOfMemory
  deriving DecidableEq, Repr

/-- Why a computation on a `CborValue` ends early. -/
inductive Stop
  | err (e : CborError)
  | null
  | fault (f : Fault)
  deriving DecidableEq, Repr

/-- `CborMajorTypes`. -/
inductive CborMajorTypes
  | unsignedInteger
  | negativeInteger
  | byteString
  | textString
  | array
  | map
  | tag
  | simpleTypes
  deriving DecidableEq, Repr

/-- `CborType`. -/
inductive CborType
  | integer
  | byteString
  | textString
  | array
  | map
  | tag
  | simple
  | boolean
  | null
  | undefined
  | halfFloat
  | float
  | double
  | invalid
  deriving DecidableEq, Repr

/-- `CborParserIteratorFlags`. `NegativeInteger` and `IteratingStringChunks` are one bit, `0x02`. -/
structure CborFlags where
  integerValueTooLarge : Bool
  negativeIntegerOrIteratingStringChunks : Bool
  unknownLength : Bool
  containerIsMap : Bool
  nextIsMapKey : Bool
  deriving DecidableEq, Repr

/-- `flags = 0`. -/
def CborFlags.zero : CborFlags := ⟨false, false, false, false, false⟩

/-- `flags & FlagsToKeep`. -/
def CborFlags.keep (flags : CborFlags) : CborFlags := ⟨false, false, false, flags.containerIsMap, flags.nextIsMapKey⟩

/-- `struct CborValue`. -/
structure CborValue where
  /-- the bytes from `ptr` to `parser->end` -/
  ptr : List UInt8
  remaining : Nat
  extra : Nat
  type : CborType
  flags : CborFlags
  deriving DecidableEq, Repr

def UINT32_MAX : Nat := 2 ^ 32 - 1

def SIZE_MAX : Nat := 2 ^ 64 - 1

def value8Bit : Nat := 24

def value16Bit : Nat := 25

def value32Bit : Nat := 26

def value64Bit : Nat := 27

def indefiniteLength : Nat := 31

/-- `BreakByte`. -/
def BreakByte : UInt8 := 0xff

/-- `CBOR_PARSER_MAX_RECURSIONS`. -/
def maxRecursions : Nat := 1024

/-- `byte & SmallValueMask`. -/
def smallValue (byte : UInt8) : Nat := (byte &&& 0x1f).toNat

/-- `byte >> MajorTypeShift`. -/
def majorType (byte : UInt8) : CborMajorTypes :=
  match (byte >>> 5).toNat with
  | 0 => .unsignedInteger
  | 1 => .negativeInteger
  | 2 => .byteString
  | 3 => .textString
  | 4 => .array
  | 5 => .map
  | 6 => .tag
  | _ => .simpleTypes

/-- The type an iterator gets from the major type of its first byte. -/
def CborMajorTypes.toType : CborMajorTypes → CborType
  | .unsignedInteger | .negativeInteger => .integer
  | .byteString => .byteString
  | .textString => .textString
  | .array => .array
  | .map => .map
  | .tag => .tag
  | .simpleTypes => .simple

/-- `cbor_assert`: the repository builds without `NDEBUG`. -/
def cborAssert (cond : Bool) : Except Stop Unit := if cond then .ok () else .error (.fault .assertion)

/-! ## Numbers -/

/-- `_cbor_value_extract_number`: the number at `ptr` and the position after it. -/
def extractNumber (ptr : List UInt8) : Except Stop (Nat × List UInt8) :=
  match ptr with
  | [] => .error (.fault .outOfBounds)
  | byte :: ptr =>
    let additionalInformation := smallValue byte
    if additionalInformation < value8Bit then .ok (additionalInformation, ptr)
    else if additionalInformation > value64Bit then .error (.err .illegalNumber)
    else
      let bytesNeeded := 1 <<< (additionalInformation - value8Bit)
      if bytesNeeded > ptr.length then .error (.err .unexpectedEOF)
      else .ok (beNat (ptr.take bytesNeeded), ptr.drop bytesNeeded)

/-- `extract_number` where the source asserts that it returns no error. -/
def extractNumberAsserted (ptr : List UInt8) : Except Stop (Nat × List UInt8) :=
  match extractNumber ptr with
  | .ok r => .ok r
  | .error (.fault f) => .error (.fault f)
  | .error _ => .error (.fault .assertion)

/-! ## Positioning an iterator -/

/-- `is_fixed_type`. -/
def isFixedType (type : CborType) : Bool :=
  type ≠ .textString ∧ type ≠ .byteString ∧ type ≠ .array ∧ type ≠ .map

/-- The simple types and floating-point numbers of `preparse_value`. -/
def preparseSimple (it : CborValue) (descriptor : Nat) (next : List UInt8) : Except Stop CborValue :=
  match descriptor with
  | 20 => .ok { it with extra := 0, type := .boolean }
  | 26 => .ok { it with type := .float, flags := { it.flags with integerValueTooLarge := true } }
  | 27 => .ok { it with type := .double, flags := { it.flags with integerValueTooLarge := true } }
  | 21 => .ok { it with type := .boolean }
  | 22 => .ok { it with type := .null }
  | 23 => .ok { it with type := .undefined }
  | 25 => .ok { it with type := .halfFloat }
  | 24 =>
    let extra := beNat (next.take 1)
    if extra < 32 then .error (.err .illegalSimpleType) else .ok { it with extra := extra }
  | 28 | 29 | 30 | 31 => .error (.fault .assertion)
  | _ => .ok it

/-- The end of `preparse_value`: decode up to 16 bits. -/
def preparseNumber (it : CborValue) (descriptor : Nat) (next : List UInt8) : CborValue :=
  if descriptor < value8Bit then it
  else if descriptor = value8Bit then { it with extra := beNat (next.take 1) }
  else if descriptor = value16Bit then { it with extra := beNat (next.take 2) }
  else { it with flags := { it.flags with integerValueTooLarge := true } }

/-- `preparse_value`. -/
def preparseValue (it : CborValue) : Except Stop CborValue :=
  match it.ptr with
  | [] => .error (.err .unexpectedEOF)
  | byte :: next =>
    let type := majorType byte
    let descriptor := smallValue byte
    let it := { it with type := type.toType, flags := it.flags.keep, extra := descriptor }
    if descriptor > value64Bit then
      if descriptor ≠ indefiniteLength then
        .error (.err (if type = .simpleTypes then .unknownType else .illegalNumber))
      else if !isFixedType it.type then .ok { it with flags := { it.flags with unknownLength := true } }
      else .error (.err (if type = .simpleTypes then .unexpectedBreak else .illegalNumber))
    else
      let bytesNeeded := if descriptor < value8Bit then 0 else 1 <<< (descriptor - value8Bit)
      if bytesNeeded + 1 > (byte :: next).length then .error (.err .unexpectedEOF)
      else if type = .negativeInteger then
        .ok (preparseNumber
          { it with flags := { it.flags with negativeIntegerOrIteratingStringChunks := true } } descriptor next)
      else if type = .simpleTypes then preparseSimple it descriptor next
      else .ok (preparseNumber it descriptor next)

/-- `preparse_next_value_nodecrement`. -/
def preparseNextValueNodecrement (it : CborValue) : Except Stop CborValue :=
  if it.remaining = UINT32_MAX ∧ it.ptr.head? = some BreakByte then
    if it.flags.containerIsMap ∧ it.flags.nextIsMapKey ∨ it.type = .tag then .error (.err .unexpectedBreak)
    else .ok { it with ptr := it.ptr.tail, type := .invalid, remaining := 0 }
  else preparseValue it

/-- `preparse_next_value`. Tags do not count towards the number of items. -/
def preparseNextValue (it : CborValue) : Except Stop CborValue :=
  let itemCounts : Bool := it.type ≠ .tag
  -- `--it->remaining` on a `uint32_t`
  let remaining :=
    if it.remaining ≠ UINT32_MAX ∧ itemCounts then (it.remaining + UINT32_MAX) % 2 ^ 32 else it.remaining
  if it.remaining ≠ UINT32_MAX ∧ itemCounts ∧ remaining = 0 then
    .ok { it with remaining := remaining, type := .invalid }
  else
    let flags := if itemCounts then { it.flags with nextIsMapKey := !it.flags.nextIsMapKey } else it.flags
    preparseNextValueNodecrement { it with remaining := remaining, flags := flags }

/-- `cbor_parser_init`, with `flags = 0`. -/
def cborParserInit (buffer : List UInt8) : Except Stop CborValue :=
  preparseValue { ptr := buffer, remaining := 1, extra := 0, type := .invalid, flags := .zero }

/-! ## Types and values -/

/-- `cbor_value_at_end`. -/
def cborValueAtEnd (it : CborValue) : Bool := it.remaining = 0

/-- `cbor_value_is_container`. -/
def cborValueIsContainer (it : CborValue) : Bool := it.type = .array ∨ it.type = .map

/-- `cbor_value_is_array`. -/
def cborValueIsArray (value : CborValue) : Bool := value.type = .array

/-- `cbor_value_is_simple_type`. -/
def cborValueIsSimpleType (value : CborValue) : Bool := value.type = .simple

/-- `cbor_value_is_integer`. -/
def cborValueIsInteger (value : CborValue) : Bool := value.type = .integer

/-- `cbor_value_is_byte_string`. -/
def cborValueIsByteString (value : CborValue) : Bool := value.type = .byteString

/-- `cbor_value_is_text_string`. -/
def cborValueIsTextString (value : CborValue) : Bool := value.type = .textString

/-- `cbor_value_is_length_known`. -/
def cborValueIsLengthKnown (value : CborValue) : Bool := !value.flags.unknownLength

/-- `cbor_value_get_simple_type`: the low 8 bits of `extra`. -/
def cborValueGetSimpleType (value : CborValue) : Except Stop Nat := do
  cborAssert (cborValueIsSimpleType value)
  return value.extra % 2 ^ 8

/-- `_cbor_value_decode_int64_internal`. -/
def decodeInt64Internal (value : CborValue) : Except Stop Nat := do
  cborAssert (value.flags.integerValueTooLarge ∨ value.type = .float ∨ value.type = .double)
  match value.ptr with
  | [] => .error (.fault .outOfBounds)
  | byte :: next =>
    cborAssert (smallValue byte = value32Bit ∨ smallValue byte = value64Bit)
    if byte &&& 1 = 0 then
      let bytes ← (readBytes next 4).mapError .fault
      return beNat bytes
    else
      cborAssert (smallValue byte = value64Bit)
      let bytes ← (readBytes next 8).mapError .fault
      return beNat bytes

/-- `_cbor_value_extract_int64_helper`. -/
def extractInt64Helper (value : CborValue) : Except Stop Nat :=
  if value.flags.integerValueTooLarge then decodeInt64Internal value else .ok value.extra

/-- The value of a 64-bit pattern as an `int64_t`. -/
def toInt64 (i : Int) : Int := (i + 2 ^ 63) % 2 ^ 64 - 2 ^ 63

/-- `cbor_value_get_int64`: no range check. -/
def cborValueGetInt64 (value : CborValue) : Except Stop Int := do
  cborAssert (cborValueIsInteger value)
  let result := toInt64 (← extractInt64Helper value)
  return if value.flags.negativeIntegerOrIteratingStringChunks then toInt64 (-result - 1) else result

/-- `cbor_value_get_string_length`. -/
def cborValueGetStringLength (value : CborValue) : Except Stop Nat := do
  cborAssert (cborValueIsByteString value || cborValueIsTextString value)
  if !cborValueIsLengthKnown value then .error (.err .unknownLength) else extractInt64Helper value

/-! ## Strings -/

/-- `it->ptr = ptr` and `it->flags |= CborIteratorFlag_IteratingStringChunks`. -/
def CborValue.iterateFrom (it : CborValue) (ptr : List UInt8) : CborValue :=
  { it with ptr := ptr, flags := { it.flags with negativeIntegerOrIteratingStringChunks := true } }

/-- `prepare_string_iteration`: step over the head of a chunked string. -/
def prepareStringIteration (it : CborValue) : CborValue :=
  if cborValueIsLengthKnown it then it else it.iterateFrom it.ptr.tail

/-- The second half of `get_string_chunk`: the chunk at the current position, or `none` (a null `bufferptr`) after the
last one. -/
def readStringChunk (it : CborValue) : Except Stop (Option (List UInt8) × CborValue) :=
  match it.ptr with
  | [] => .error (.err .unexpectedEOF)
  | byte :: rest =>
    if byte = BreakByte then (preparseNextValue { it with ptr := rest }).map fun it => (none, it)
    else if (majorType byte).toType = it.type then do
      let (len, ptr) ← extractNumber (byte :: rest)
      if len > ptr.length then .error (.err .unexpectedEOF)
      else return (some (ptr.take len), it.iterateFrom (ptr.drop len))
    else .error (.err .illegalType)

/-- `get_string_chunk`. -/
def getStringChunk (it : CborValue) : Except Stop (Option (List UInt8) × CborValue) :=
  if it.flags.negativeIntegerOrIteratingStringChunks then
    -- if the length is known it was not chunked, so this finishes the iteration
    if cborValueIsLengthKnown it then (preparseNextValue it).map fun it => (none, it) else readStringChunk it
  else readStringChunk (prepareStringIteration it)

/-- The loop of `iterate_string_chunks`, copying chunks as long as they fit in `buflen`. The fuel bounds the number
of chunks; each takes at least one byte of the input. -/
def iterateStringChunksLoop (buflen : Nat) :
    Nat → CborValue → List UInt8 → Bool → Except Stop (List UInt8 × Bool × CborValue)
  | 0, _, _, _ => .error (.fault .diverge)
  | fuel + 1, next, copied, result => do
    match ← getStringChunk next with
    | (none, next) => return (copied, result, next)
    | (some chunk, next) =>
      if copied.length + chunk.length > SIZE_MAX then .error (.err .dataTooLarge)
      else
        iterateStringChunksLoop buflen fuel next (copied ++ chunk)
          (result && decide (copied.length + chunk.length ≤ buflen))

/-- `_cbor_value_copy_string` into a buffer of `buflen` bytes, with `next` the iterator itself. What the buffer holds
is returned only when everything fitted; its length is the new `*buflen`. -/
def copyString (value : CborValue) (buflen : Nat) : Except Stop (List UInt8 × CborValue) := do
  cborAssert (cborValueIsByteString value || cborValueIsTextString value)
  let (copied, copiedAll, next) ← iterateStringChunksLoop buflen (value.ptr.length + 2) value [] true
  if copiedAll then return (copied, next) else .error (.err .outOfMemory)

/-- `cbor_value_copy_byte_string`. -/
def cborValueCopyByteString (value : CborValue) (buflen : Nat) : Except Stop (List UInt8 × CborValue) := do
  cborAssert (cborValueIsByteString value)
  copyString value buflen

/-! ## Containers and advancing -/

/-- `cbor_value_enter_container`. -/
def cborValueEnterContainer (it : CborValue) : Except Stop CborValue := do
  cborAssert (cborValueIsContainer it)
  let flags := { CborFlags.zero with containerIsMap := it.type = .map }
  if it.flags.unknownLength then
    preparseNextValueNodecrement { it with ptr := it.ptr.tail, remaining := UINT32_MAX, flags := flags }
  else
    let (len, ptr) ← extractNumberAsserted it.ptr
    let remaining := len % 2 ^ 32
    if remaining ≠ len ∨ len = UINT32_MAX then .error (.err .dataTooLarge)
    else if it.type = .map ∧ remaining > UINT32_MAX / 2 then .error (.err .dataTooLarge)
    else
      let remaining := if it.type = .map then remaining * 2 else remaining
      if len = 0 then return { it with ptr := ptr, remaining := remaining, type := .invalid }
      else preparseNextValueNodecrement { it with ptr := ptr, remaining := remaining, flags := flags }

/-- `cbor_value_leave_container`. -/
def cborValueLeaveContainer (it recursed : CborValue) : Except Stop CborValue := do
  cborAssert (cborValueIsContainer it)
  cborAssert (recursed.type = .invalid)
  preparseNextValue { it with ptr := recursed.ptr }

/-- `advance_internal`. -/
def advanceInternal (it : CborValue) : Except Stop CborValue := do
  let (length, ptr) ← extractNumberAsserted it.ptr
  if it.type = .byteString ∨ it.type = .textString then
    cborAssert (!it.flags.unknownLength)
    if length > ptr.length then .error (.fault .outOfBounds)
    else preparseNextValue { it with ptr := ptr.drop length }
  else preparseNextValue { it with ptr := ptr }

/-- The loop of `advance_recursive` over the items of a container. The fuel bounds the number of items; each takes at
least one byte of the input. -/
def advanceItems (advance : CborValue → Except Stop CborValue) : Nat → CborValue → Except Stop CborValue
  | 0, _ => .error (.fault .diverge)
  | fuel + 1, recursed =>
    if cborValueAtEnd recursed then .ok recursed
    else do advanceItems advance fuel (← advance recursed)

/-- `advance_recursive`. -/
def advanceRecursive : Nat → CborValue → Except Stop CborValue
  | 0, it =>
    if isFixedType it.type then advanceInternal it
    else if !cborValueIsContainer it then do return (← copyString it SIZE_MAX).2
    else .error (.err .nestingTooDeep)
  | nestingLevel + 1, it =>
    if isFixedType it.type then advanceInternal it
    else if !cborValueIsContainer it then do return (← copyString it SIZE_MAX).2
    else do
      let recursed ← cborValueEnterContainer it
      let recursed ← advanceItems (advanceRecursive nestingLevel) (recursed.ptr.length + 1) recursed
      cborValueLeaveContainer it recursed

/-- `cbor_value_advance`. -/
def cborValueAdvance (it : CborValue) : Except Stop CborValue := do
  cborAssert (it.type ≠ .invalid)
  if it.remaining = 0 then .error (.err .advancePastEOF) else advanceRecursive maxRecursions it

/-- `cbor_value_validate_basic`. -/
def cborValueValidateBasic (it : CborValue) : Except Stop Unit := do
  let _ ← cborValueAdvance it

/-! ## Tags -/

/-- `cbor_value_is_tag`. -/
def cborValueIsTag (value : CborValue) : Bool := value.type = .tag

/-- `cbor_value_advance_fixed`. -/
def cborValueAdvanceFixed (it : CborValue) : Except Stop CborValue := do
  cborAssert (it.type ≠ .invalid)
  cborAssert (isFixedType it.type)
  if it.remaining = 0 then .error (.err .advancePastEOF) else advanceInternal it

/-- The loop of `cbor_value_skip_tag`. The fuel bounds the number of tags; each takes at least one byte of the input. -/
def skipTagLoop : Nat → CborValue → Except Stop CborValue
  | 0, _ => .error (.fault .diverge)
  | fuel + 1, it => if cborValueIsTag it then do skipTagLoop fuel (← cborValueAdvanceFixed it) else .ok it

/-- `cbor_value_skip_tag`. -/
def cborValueSkipTag (it : CborValue) : Except Stop CborValue := skipTagLoop (it.ptr.length + 1) it

/-! ## Searching a map -/

/-- `cbor_value_is_map`. -/
def cborValueIsMap (value : CborValue) : Bool := value.type = .map

/-- One chunk in `iterate_string_chunks` with `iterate_memcmp`, against a C string of the bytes `string`. -/
def compareChunk (string : List UInt8) (total : Nat) (result : Bool) (chunk : List UInt8) : Except Stop Bool :=
  if result && decide (string.length ≥ total + chunk.length) then
    (memcmpEq ((string ++ [0]).drop total) chunk chunk.length).mapError .fault
  else .ok false

/-- The end of `iterate_string_chunks` with `iterate_memcmp`: the byte after the chunks is compared with NUL. -/
def compareNul (string : List UInt8) (total : Nat) (result : Bool) : Except Stop Bool :=
  if result && decide (string.length > total) then (memcmpEq ((string ++ [0]).drop total) [0] 1).mapError .fault
  else .ok result

/-- The loop of `iterate_string_chunks` with `iterate_memcmp`. -/
def compareStringChunksLoop (string : List UInt8) : Nat → CborValue → Nat → Bool → Except Stop (Bool × CborValue)
  | 0, _, _, _ => .error (.fault .diverge)
  | fuel + 1, next, total, result => do
    match ← getStringChunk next with
    | (none, next) => return (← compareNul string total result, next)
    | (some chunk, next) =>
      if total + chunk.length > SIZE_MAX then .error (.err .dataTooLarge)
      else compareStringChunksLoop string fuel next (total + chunk.length) (← compareChunk string total result chunk)

/-- `iterate_string_chunks` with `iterate_memcmp`. -/
def compareStringChunks (string : List UInt8) (value : CborValue) : Except Stop (Bool × CborValue) := do
  cborAssert (cborValueIsByteString value || cborValueIsTextString value)
  compareStringChunksLoop string (value.ptr.length + 2) value 0 true

/-- A key of `cbor_value_map_find_value`: whether it is `string`, and the iterator after it. -/
def mapFindKey (string : List UInt8) (element : CborValue) : Except Stop (Bool × CborValue) := do
  let element ← cborValueSkipTag element
  if cborValueIsTextString element then compareStringChunks string element
  else return (false, ← cborValueAdvance element)

/-- The loop of `cbor_value_map_find_value`. The fuel bounds the number of entries. -/
def mapFindValueLoop (string : List UInt8) : Nat → CborValue → Except Stop CborValue
  | 0, _ => .error (.fault .diverge)
  | fuel + 1, element =>
    if cborValueAtEnd element then .ok { element with type := .invalid }
    else do
      let (equals, element) ← mapFindKey string element
      if equals then preparseValue element
      else
        -- skip this value
        let element ← cborValueSkipTag element
        let element ← cborValueAdvance element
        mapFindValueLoop string fuel element

/-- `cbor_value_map_find_value`. -/
def cborValueMapFindValue (map : CborValue) (string : List UInt8) : Except Stop CborValue := do
  cborAssert (cborValueIsMap map)
  let element ← cborValueEnterContainer map
  mapFindValueLoop string (element.ptr.length + 1) element

end Libcp2p.Cbor

import Libcp2p.Cbor.Encoder

/-!
# Messages

The message types of `network/messages.h` and their CBOR encoders and decoders in `src/network/messages.c`. A pointer
with its length is a list, so a `message_t` is its type and its data. Memory allocation always succeeds here. Stack
buffers whose size is computed (`uint8_t buf[n]`) are checked by `stackBuffer`: a negative size is a fault, and so is
one above `stack`, the size of the largest array there is stack for (`none` for no bound).
-/

namespace Libcp2p

open Cbor

/-- `MESSAGE_TYPES`. -/
inductive MessageTypes
  | wantPeerId
  | havePeerId
  | wantPubKey
  | havePubKey
  | startEcdh
  | beginEcdh
  | helloInt
  | helloFin
  | arbitrary
  deriving DecidableEq, Repr

/-- The values of the enumeration. -/
def MessageTypes.code : MessageTypes → UInt8
  | .wantPeerId => 0
  | .havePeerId => 1
  | .wantPubKey => 2
  | .havePubKey => 3
  | .startEcdh => 4
  | .beginEcdh => 5
  | .helloInt => 6
  | .helloFin => 7
  | .arbitrary => 99

/-- `message_t`. The type is kept as its value: the decoder casts any byte to the enumeration. -/
structure Message where
  type : UInt8
  data : List UInt8
  deriving DecidableEq, Repr

/-- `message_hello_t`. -/
structure MessageHello where
  peerId : List UInt8
  publicKey : List UInt8
  deriving DecidableEq, Repr

/-- `sizeof(message_t)`. -/
def sizeofMessageT : Nat := 24

/-- `sizeof(message_hello_t)`. -/
def sizeofMessageHelloT : Nat := 32

/-- The result of a function that returns a null pointer on every error. -/
def toNull {α : Type} : Except Stop α → Except Fault (Option α)
  | .ok a => .ok (some a)
  | .error (.fault f) => .error f
  | .error _ => .ok none

/-- Give up with a null pointer unless `cond` holds. -/
def orNull (cond : Bool) : Except Stop Unit := if cond then .ok () else .error .null

/-- Give up unless the encoder reports `CborNoError`. -/
def noError {α : Type} : Except Fault (Option CborError × α) → Except Stop α
  | .ok (none, a) => .ok a
  | .ok (some e, _) => .error (.err e)
  | .error f => .error (.fault f)

/-- There is stack for an array of `size` bytes. -/
def onStack (stack : Option Nat) (size : Int) : Bool := 0 ≤ size ∧ ∀ n ∈ stack, size ≤ n

/-- A variable-length array of `size` bytes on the stack. -/
def stackBuffer (stack : Option Nat) (size : Int) : Except Stop Unit :=
  if onStack stack size then .ok () else .error (.fault (.stackBuffer size))

section Results

variable {α : Type}

@[simp] theorem toNull_ok (a : α) : toNull (.ok a) = .ok (some a) := rfl

@[simp] theorem toNull_err (e : CborError) : toNull (.error (.err e) : Except Stop α) = .ok none := rfl

@[simp] theorem toNull_null : toNull (.error .null : Except Stop α) = .ok none := rfl

@[simp] theorem toNull_fault (f : Fault) : toNull (.error (.fault f) : Except Stop α) = .error f := rfl

@[simp] theorem noError_none (a : α) : noError (.ok (none, a)) = .ok a := rfl

@[simp] theorem orNull_true : orNull true = .ok () := rfl

@[simp] theorem orNull_false : orNull false = .error .null := rfl

end Results

/-! ## Encoding -/

/-- `cbor_encode_hello_t`. -/
def cborEncodeHelloT (stack : Option Nat) (msgHello : MessageHello) : Except Fault (Option (List UInt8)) := toNull do
  let size := sizeofMessageHelloT + msgHello.peerId.length + msgHello.publicKey.length
  stackBuffer stack size
  let (arrayEncoder, encoder) ← noError (cborEncoderCreateArray (cborEncoderInit size) 4)
  let arrayEncoder ← noError (cborEncodeInt arrayEncoder (toInt64 msgHello.peerId.length))
  let arrayEncoder ← noError (cborEncodeInt arrayEncoder (toInt64 msgHello.publicKey.length))
  let arrayEncoder ← noError (cborEncodeByteString arrayEncoder msgHello.peerId)
  let arrayEncoder ← noError (cborEncodeByteString arrayEncoder msgHello.publicKey)
  let encoder ← noError (cborEncoderCloseContainer encoder arrayEncoder)
  return encoder.written

/-- `cbor_encode_message_t`. -/
def cborEncodeMessageT (stack : Option Nat) (msg : Message) : Except Fault (Option (List UInt8)) := toNull do
  let size := sizeofMessageT + msg.data.length
  stackBuffer stack size
  let (arrayEncoder, encoder) ← noError (cborEncoderCreateArray (cborEncoderInit size) 3)
  let arrayEncoder ← noError (cborEncodeSimpleValue arrayEncoder msg.type)
  let arrayEncoder ← noError (cborEncodeInt arrayEncoder (toInt64 msg.data.length))
  let arrayEncoder ← noError (cborEncodeByteString arrayEncoder msg.data)
  let encoder ← noError (cborEncoderCloseContainer encoder arrayEncoder)
  return encoder.written

/-- `message_hello_t_to_message_t`. -/
def messageHelloTToMessageT (stack : Option Nat) (msg : MessageHello) (initiate : Bool) :
    Except Fault (Option Message) := do
  let encoded ← cborEncodeHelloT stack msg
  return encoded.map fun data =>
    { type := if initiate then MessageTypes.helloInt.code else MessageTypes.helloFin.code, data := data }

/-- `new_message_hello_t`. -/
def newMessageHelloT (peerId publicKey : List UInt8) (peerIdLen publicKeyLen : Nat) : Except Fault MessageHello := do
  let peerId ← readBytes peerId peerIdLen
  let publicKey ← readBytes publicKey publicKeyLen
  return { peerId := peerId, publicKey := publicKey }

/-! ## Decoding -/

/-- `cbor_decode_hello_t`. -/
def cborDecodeHelloT (stack : Option Nat) (input : List UInt8) : Except Fault (Option MessageHello) := toNull do
  let value ← cborParserInit input
  orNull (cborValueIsArray value)
  let recurse ← cborValueEnterContainer value
  orNull (cborValueIsInteger recurse)
  let peerIdLen ← cborValueGetInt64 recurse
  let recurse ← cborValueAdvance recurse
  orNull (cborValueIsInteger recurse)
  let publicKeyLen ← cborValueGetInt64 recurse
  let recurse ← cborValueAdvance recurse
  orNull (cborValueIsByteString recurse)
  stackBuffer stack peerIdLen
  let (peerId, recurse) ← cborValueCopyByteString recurse peerIdLen.toNat
  orNull (cborValueIsByteString recurse)
  stackBuffer stack publicKeyLen
  let (publicKey, recurse) ← cborValueCopyByteString recurse publicKeyLen.toNat
  let _ ← cborValueLeaveContainer value recurse
  return { peerId := peerId, publicKey := publicKey }

/-- `cbor_decode_message_t`. The integer before the data is read and not used. -/
def cborDecodeMessageT (stack : Option Nat) (input : List UInt8) : Except Fault (Option Message) := toNull do
  let value ← cborParserInit input
  orNull (cborValueIsArray value)
  let recurse ← cborValueEnterContainer value
  orNull (cborValueIsSimpleType recurse)
  let messageType ← cborValueGetSimpleType recurse
  let recurse ← cborValueAdvance recurse
  orNull (cborValueIsInteger recurse)
  let _ ← cborValueGetInt64 recurse
  let recurse ← cborValueAdvance recurse
  orNull (cborValueIsByteString recurse)
  let dataLen ← cborValueGetStringLength recurse
  stackBuffer stack dataLen
  let (data, recurse) ← cborValueCopyByteString recurse dataLen
  let _ ← cborValueLeaveContainer value recurse
  return { type := UInt8.ofNat messageType, data := data }

end Libcp2p

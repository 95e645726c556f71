import Libcp2p.Network.MessageRoundTrip

/-!
# Public keys on the wire

`libp2p_crypto_public_key_cbor_encode` writes the array `[type, data, size]` into a stack buffer of `data_size +
sizeof(pub_key) + 3` bytes, where `pub_key` is a pointer. With the two heads of one byte, the slack of eleven bytes
leaves nine for the head of the byte string and for the size, which have the same width.

* `libp2pCryptoPublicKeyCborDecode_eq`: the decoder in terms of the format, for every input.
* `libp2pCryptoPublicKeyCborEncode_eq`, `libp2pCryptoPublicKeyCborEncode_eq_none`: keys of fewer than `2 ^ 16` bytes
  fit, longer ones do not.
* `public_key_cbor_iff`: exactly the keys of fewer than `2 ^ 16` bytes are encoded and decoded again.
-/

namespace Libcp2p

open Cbor

/-! ## The functions -/

/-- `key_type_t`. -/
inductive KeyType
  | invalid
  | ecdsa
  deriving DecidableEq, Repr

/-- The values of the enumeration. -/
def KeyType.code : KeyType → UInt8
  | .invalid => 0
  | .ecdsa => 1

/-- `public_key_t`. The type is kept as its value: the decoder casts any byte to the enumeration. -/
structure PublicKey where
  type : UInt8
  data : List UInt8
  deriving DecidableEq, Repr

/-- `sizeof(pub_key)`, the size of a pointer. -/
def sizeofPubKey : Nat := 8

/-- `libp2p_crypto_public_key_cbor_encode`, whose allocations succeed. -/
def libp2pCryptoPublicKeyCborEncode (stack : Option Nat) (pubKey : PublicKey) : Except Fault (Option (List UInt8)) :=
  toNull do
    let size := pubKey.data.length + sizeofPubKey + 3
    stackBuffer stack size
    let (arrayEncoder, encoder) ← noError (cborEncoderCreateArray (cborEncoderInit size) 3)
    let arrayEncoder ← noError (cborEncodeSimpleValue arrayEncoder pubKey.type)
    let arrayEncoder ← noError (cborEncodeByteString arrayEncoder pubKey.data)
    let arrayEncoder ← noError (cborEncodeInt arrayEncoder (toInt64 pubKey.data.length))
    let encoder ← noError (cborEncoderCloseContainer encoder arrayEncoder)
    return encoder.written

/-- `libp2p_crypto_public_key_cbor_decode`, whose allocations succeed. The integer behind the data is read and not
used. -/
def libp2pCryptoPublicKeyCborDecode (stack : Option Nat) (data : List UInt8) : Except Fault (Option PublicKey) :=
  toNull do
    let value ← cborParserInit data
    orNull (cborValueIsArray value)
    let recurse ← cborValueEnterContainer value
    orNull (cborValueIsSimpleType recurse)
    let keyType ← cborValueGetSimpleType recurse
    let recurse ← cborValueAdvance recurse
    orNull (cborValueIsByteString recurse)
    let dataLen ← cborValueGetStringLength recurse
    stackBuffer stack dataLen
    let (data, recurse) ← cborValueCopyByteString recurse dataLen
    orNull (cborValueIsInteger recurse)
    let _ ← cborValueGetInt64 recurse
    let recurse ← cborValueAdvance recurse
    let _ ← cborValueLeaveContainer value recurse
    return { type := UInt8.ofNat keyType, data := data }

/-! ## What the decoder reads -/

/-- What is read before the stack buffer: the number of items, the type, and the length of the byte string with the
input after it. -/
structure PublicKeyFields where
  count : Option Nat
  type : Nat
  len : Nat
  rest : List UInt8
  deriving DecidableEq, Repr

/-- The fields, if the input starts with them. -/
def readPublicKeyFields (input : List UInt8) : Option PublicKeyFields := do
  let (count, rest) ← readArrayHead input
  guard (CountFits count)
  let (type, rest) ← (itemAt count 0 rest).bind readSimple
  let (len, rest) ← (itemAt count 1 rest).bind readByteHead
  return { count := count, type := type, len := len, rest := rest }

/-- The key, from the end of its byte string on. -/
def readPublicKeySize (f : PublicKeyFields) : Except Fault (Option PublicKey) :=
  match (itemAt f.count 2 (f.rest.drop f.len)).bind readInt with
  | none => .ok none
  | some (_, rest) => leaveArray f.count 3 rest { type := UInt8.ofNat f.type, data := f.rest.take f.len }

/-- The key in the input. -/
def readPublicKey (stack : Option Nat) (input : List UInt8) : Except Fault (Option PublicKey) :=
  match readPublicKeyFields input with
  | none => .ok none
  | some f =>
    if !onStack stack f.len then .error (.stackBuffer f.len)
    else if f.rest.length < f.len then .ok none
    else readPublicKeySize f

/-- **The key decoder**, in terms of the format. -/
theorem libp2pCryptoPublicKeyCborDecode_eq (stack : Option Nat) (input : List UInt8) :
    libp2pCryptoPublicKeyCborDecode stack input = readPublicKey stack input := by
  unfold readPublicKey readPublicKeyFields
  refine toNull_enter (fun ha => by simp [ha]) (fun count rest ha hc => by simp [ha, hc, guard])
    fun count rest value m ha hc ht hone hm => ?_
  simp only [ha, Option.bind_eq_bind, Option.bind_some, guard, if_pos hc, Option.pure_def]
  refine toNull_simple hm (fun hv => by simp [hv]) fun type rest m hv (hm : Moved count 1 rest m) => ?_
  simp only [hv, Option.bind_some]
  refine toNull_byteHead hm (fun hb => by simp [hb]) (fun len rest hb hs => by simp [hb, hs])
    (fun len rest hb hs hl => by simp [hb, hs, hl]) fun len rest m hb hs hl (hm : Moved count 2 (rest.drop len) m) => ?_
  simp only [hb, Option.bind_some, hs]
  rw [if_neg (by simp), if_neg (by omega)]
  unfold readPublicKeySize
  refine toNull_int hm (fun hn => by simp [hn]) fun n rest m hn hm => ?_
  simp only [hn]
  exact leave_of_moved ht hone hm _

/-! ## Keys that fit and keys that do not -/

/-- The encoding of a key. -/
def publicKeyBytes (key : PublicKey) : List UInt8 :=
  head 4 3 ++ (head 7 key.type.toNat ++ ((head 2 key.data.length ++ key.data) ++ head 0 key.data.length))

/-- The size of the stack buffer. -/
def publicKeyRoom (key : PublicKey) : Nat := key.data.length + sizeofPubKey + 3

/-- The encoder of the array before the size is written. -/
def publicKeyEncoder (key : PublicKey) : CborEncoder :=
  (((cborEncoderInit (publicKeyRoom key)).openArray 3).item (head 7 key.type.toNat)).item
    (head 2 key.data.length ++ key.data)

section Encoding

variable {stack : Option Nat} {key : PublicKey}

theorem length_head_type (hty : key.type.toNat < 20) : (head 7 key.type.toNat).length = 1 := by
  simp [head, widthCode, show key.type.toNat < 24 by omega]

/-- There is room for everything up to the data, and nine bytes for its head and the size behind it. -/
theorem publicKeyEncoder_room (hty : key.type.toNat < 20) :
    (publicKeyEncoder key).room = some (9 - (head 2 key.data.length).length) := by
  have h4 : (head 4 3).length = 1 := rfl
  simp only [publicKeyEncoder, CborEncoder.item, CborEncoder.openArray, CborEncoder.push, saturatedDecrement,
    cborEncoderInit, publicKeyRoom, sizeofPubKey, Option.map_some, length_head_type hty, h4, List.length_append,
    Option.some.injEq]
  omega

/-- The encoder comes to the size. -/
theorem libp2pCryptoPublicKeyCborEncode_size (hty : key.type.toNat < 20) (hlen : key.data.length < 2 ^ 32)
    (hs : ∀ n ∈ stack, publicKeyRoom key ≤ n) :
    libp2pCryptoPublicKeyCborEncode stack key = toNull do
      let arrayEncoder ← noError (cborEncodeInt (publicKeyEncoder key) key.data.length)
      let encoder ← noError
        (cborEncoderCloseContainer (saturatedDecrement (cborEncoderInit (publicKeyRoom key))) arrayEncoder)
      return encoder.written := by
  have hstack : stackBuffer stack (publicKeyRoom key : Int) = .ok () := by
    rw [stackBuffer, onStack_natCast hs, if_pos rfl]
  have h4 : (head 4 3).length = 1 := rfl
  have h7 := length_head_type hty
  have h2 := length_head_le 2 key.data.length
  have hroom : (cborEncoderInit (publicKeyRoom key)).HasRoom
      ((head 4 3).length + ((head 7 key.type.toNat).length + ((head 2 key.data.length ++ key.data).length + 0))) :=
    ⟨_, rfl, by simp only [publicKeyRoom, sizeofPubKey, List.length_append]; omega,
      by unfold publicKeyRoom sizeofPubKey; omega⟩
  have hroom₁ := hroom.openArray
  have hroom₂ := hroom₁.item
  have hsize : key.data.length + sizeofPubKey + 3 = publicKeyRoom key := rfl
  unfold libp2pCryptoPublicKeyCborEncode
  simp only [hsize, hstack]
  rw [ok_bind, cborEncoderCreateArray_eq (by decide) hroom, noError_none, ok_bind]
  simp only [cborEncodeSimpleValue_eq (by omega) hroom₁, noError_none, ok_bind, cborEncodeByteString_eq hroom₂,
    toInt64_natCast (show key.data.length < 2 ^ 63 by omega), publicKeyEncoder]

/-- A key of fewer than `2 ^ 16` bytes fits. -/
theorem libp2pCryptoPublicKeyCborEncode_eq (hty : key.type.toNat < 20) (hlen : key.data.length < 2 ^ 16)
    (hs : ∀ n ∈ stack, publicKeyRoom key ≤ n) :
    libp2pCryptoPublicKeyCborEncode stack key = .ok (some (publicKeyBytes key)) := by
  have h2 : (head 2 key.data.length).length ≤ 1 + 2 ^ 1 := length_head_le_of_lt (by omega) (by omega)
  have h0 := length_head_eq 0 2 key.data.length
  have hroom : (publicKeyEncoder key).HasRoom ((head 0 key.data.length).length + 0) :=
    ⟨_, publicKeyEncoder_room hty, by omega, by omega⟩
  obtain ⟨encoder, hclose, hwritten⟩ := cborEncoderCloseContainer_eq
    (saturatedDecrement (cborEncoderInit (publicKeyRoom key))) rfl hroom.item rfl rfl
  rw [libp2pCryptoPublicKeyCborEncode_size hty (by omega) hs, cborEncodeInt_eq hroom, noError_none, ok_bind, hclose,
    noError_none, ok_bind, hwritten]
  simp [publicKeyBytes, publicKeyEncoder, CborEncoder.item, CborEncoder.openArray, CborEncoder.push, saturatedDecrement,
    cborEncoderInit]

/-- A longer one does not: the size needs at least five bytes, and at most four are left. -/
theorem libp2pCryptoPublicKeyCborEncode_eq_none (hty : key.type.toNat < 20) (hmin : 2 ^ 16 ≤ key.data.length)
    (hlen : key.data.length < 2 ^ 32) (hs : ∀ n ∈ stack, publicKeyRoom key ≤ n) :
    libp2pCryptoPublicKeyCborEncode stack key = .ok none := by
  have h2 : 5 ≤ (head 2 key.data.length).length := five_le_length_head hmin
  have h0 := length_head_eq 0 2 key.data.length
  obtain ⟨encoder, hfull⟩ := cborEncodeInt_full (publicKeyEncoder_room hty)
    (show _ < (head 0 key.data.length).length by omega)
  rw [libp2pCryptoPublicKeyCborEncode_size hty hlen hs, hfull]
  rfl

/-- What was encoded is decoded. -/
theorem libp2pCryptoPublicKeyCborDecode_publicKeyBytes (hty : key.type.toNat < 20) (hlen : key.data.length < 2 ^ 64)
    (hs : ∀ n ∈ stack, key.data.length ≤ n) :
    libp2pCryptoPublicKeyCborDecode stack (publicKeyBytes key) = .ok (some key) := by
  have hfields : readPublicKeyFields (publicKeyBytes key) = some
      { count := some 3, type := key.type.toNat, len := key.data.length,
        rest := key.data ++ head 0 key.data.length } := by
    simp [readPublicKeyFields, publicKeyBytes, readArrayHead_head, CountFits, UINT32_MAX,
      readSimple_head (.inl hty) key.type.toNat_lt, readByteHead_head hlen]
  have hint : readInt (head 0 key.data.length ++ []) = some ((key.data.length : Int), []) := readInt_head hlen
  rw [List.append_nil] at hint
  rw [libp2pCryptoPublicKeyCborDecode_eq, readPublicKey, hfields]
  simp [onStack_natCast hs, readPublicKeySize, hint, leaveArray, closes]

end Encoding

theorem KeyType.code_lt (type : KeyType) : type.code.toNat < 20 := by
  cases type <;> decide

/-- **Public keys on the wire.** A key of fewer than `2 ^ 32` bytes is encoded within its stack buffer and decoded again
exactly if it has fewer than `2 ^ 16` bytes. -/
theorem public_key_cbor_iff (type : KeyType) (data : List UInt8) (stack : Option Nat) (hlen : data.length < 2 ^ 32)
    (hs : ∀ n ∈ stack, publicKeyRoom ⟨type.code, data⟩ ≤ n) :
    (∃ enc, libp2pCryptoPublicKeyCborEncode stack ⟨type.code, data⟩ = .ok (some enc) ∧
      libp2pCryptoPublicKeyCborDecode stack enc = .ok (some ⟨type.code, data⟩)) ↔ data.length < 2 ^ 16 := by
  have hty := type.code_lt
  constructor
  · rintro ⟨enc, henc, -⟩
    by_contra hlarge
    rw [libp2pCryptoPublicKeyCborEncode_eq_none hty (Nat.not_lt.mp hlarge) (by simp only; omega) hs] at henc
    cases henc
  · intro hsmall
    have hs' : ∀ n ∈ stack, data.length ≤ n := by
      intro n hn
      have hle : data.length + sizeofPubKey + 3 ≤ n := hs n hn
      omega
    exact ⟨_, libp2pCryptoPublicKeyCborEncode_eq hty hsmall hs,
      libp2pCryptoPublicKeyCborDecode_publicKeyBytes hty (by simp only; omega) hs'⟩

/-- A key of 256 bytes, the first whose size takes two bytes. -/
theorem public_key_cbor_iff_wide :
    (∃ enc, libp2pCryptoPublicKeyCborEncode (some 267) ⟨1, List.replicate 256 7⟩ = .ok (some enc) ∧
      libp2pCryptoPublicKeyCborDecode (some 267) enc = .ok (some ⟨1, List.replicate 256 7⟩)) ↔
        (List.replicate 256 (7 : UInt8)).length < 2 ^ 16 := by
  refine public_key_cbor_iff .ecdsa (List.replicate 256 7) (some 267) (by rw [List.length_replicate]; decide) ?_
  rintro n ⟨⟩
  rw [publicKeyRoom, List.length_replicate]
  decide

/-- A key of `2 ^ 16` bytes is not encoded. -/
theorem public_key_cbor_too_long :
    libp2pCryptoPublicKeyCborEncode none ⟨KeyType.ecdsa.code, List.replicate (2 ^ 16) 0⟩ = .ok none := by
  have hlen : (List.replicate (2 ^ 16) (0 : UInt8)).length = 2 ^ 16 := List.length_replicate
  exact libp2pCryptoPublicKeyCborEncode_eq_none (KeyType.code_lt .ecdsa) (by rw [hlen]) (by rw [hlen]; omega)
    (by intro n hn; cases hn)

end Libcp2p

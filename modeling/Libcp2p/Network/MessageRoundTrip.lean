import Libcp2p.Network.MessageFormat

/-!
# Round trips of the message encoders

`cborEncodeMessageT_eq` and `cborEncodeHelloT_eq` give the bytes the encoders write and show that their stack buffers,
sized by the structs and not by the CBOR heads, always suffice. The decoders give the message back
(`cborDecodeMessageT_messageBytes`, `cborDecodeHelloT_helloBytes`) whatever follows it, and reject every strict prefix
of an encoded message (`cborDecodeMessageT_truncated`).
-/

namespace Libcp2p

open Cbor

/-- The encoding of a message. -/
def messageBytes (m : Message) : List UInt8 :=
  head 4 3 ++ (head 7 m.type.toNat ++ (head 0 m.data.length ++ (head 2 m.data.length ++ m.data)))

/-- The encoding of a hello message. -/
def helloBytes (m : MessageHello) : List UInt8 :=
  head 4 4 ++ (head 0 m.peerId.length ++ (head 0 m.publicKey.length ++
    ((head 2 m.peerId.length ++ m.peerId) ++ (head 2 m.publicKey.length ++ m.publicKey))))

theorem onStack_natCast {stack : Option Nat} {n : Nat} (h : ∀ k ∈ stack, n ≤ k) : onStack stack n = true := by
  simpa [onStack] using h

/-- `cbor_encode_message_t` writes the encoding: the heads take at most 24 bytes. -/
theorem cborEncodeMessageT_eq {stack : Option Nat} {m : Message} (hty : ¬(25 ≤ m.type.toNat ∧ m.type.toNat ≤ 31))
    (hlen : m.data.length < 2 ^ 32) (hs : ∀ n ∈ stack, sizeofMessageT + m.data.length ≤ n) :
    cborEncodeMessageT stack m = .ok (some (messageBytes m)) := by
  have hstack : stackBuffer stack ((sizeofMessageT + m.data.length : Nat) : Int) = .ok () := by
    rw [stackBuffer, onStack_natCast hs, if_pos rfl]
  have h0 := length_head_le 0 m.data.length
  have h2 := length_head_le 2 m.data.length
  have h7 : (head 7 m.type.toNat).length ≤ 5 := length_head_le_five (by have := m.type.toNat_lt; omega)
  have h4 : (head 4 3).length = 1 := rfl
  have hroom : (cborEncoderInit (sizeofMessageT + m.data.length)).HasRoom
      ((head 4 3).length + ((head 7 m.type.toNat).length + ((head 0 m.data.length).length +
        ((head 2 m.data.length ++ m.data).length + 0)))) :=
    ⟨_, rfl, by simp only [sizeofMessageT, List.length_append]; omega, by unfold sizeofMessageT; omega⟩
  have hroom₁ := hroom.openArray
  have hroom₂ := hroom₁.item
  have hroom₃ := hroom₂.item
  obtain ⟨encoder, hclose, hwritten⟩ := cborEncoderCloseContainer_eq (saturatedDecrement
    (cborEncoderInit (sizeofMessageT + m.data.length))) rfl hroom₃.item rfl rfl
  simp only [cborEncodeMessageT, hstack, ok_bind, cborEncoderCreateArray_eq (by decide) hroom, noError_none,
    cborEncodeSimpleValue_eq hty hroom₁, toInt64_natCast (show m.data.length < 2 ^ 63 by omega),
    cborEncodeInt_eq hroom₂, cborEncodeByteString_eq hroom₃, hclose, pure_eq_ok, hwritten, toNull_ok, messageBytes]
  simp [CborEncoder.item, CborEncoder.openArray, CborEncoder.push, saturatedDecrement, cborEncoderInit]

/-- `cbor_encode_hello_t` writes the encoding: the heads take at most 21 bytes. -/
theorem cborEncodeHelloT_eq {stack : Option Nat} {m : MessageHello} (hid : m.peerId.length < 2 ^ 32)
    (hkey : m.publicKey.length < 2 ^ 32)
    (hs : ∀ n ∈ stack, sizeofMessageHelloT + m.peerId.length + m.publicKey.length ≤ n) :
    cborEncodeHelloT stack m = .ok (some (helloBytes m)) := by
  have hstack : stackBuffer stack
      ((sizeofMessageHelloT + m.peerId.length + m.publicKey.length : Nat) : Int) = .ok () := by
    rw [stackBuffer, onStack_natCast hs, if_pos rfl]
  have h4 : (head 4 4).length = 1 := rfl
  have hi := length_head_le_five (m := 0) hid
  have hi' := length_head_le_five (m := 2) hid
  have hk := length_head_le_five (m := 0) hkey
  have hk' := length_head_le_five (m := 2) hkey
  have hroom : (cborEncoderInit (sizeofMessageHelloT + m.peerId.length + m.publicKey.length)).HasRoom
      ((head 4 4).length + ((head 0 m.peerId.length).length + ((head 0 m.publicKey.length).length +
        ((head 2 m.peerId.length ++ m.peerId).length + ((head 2 m.publicKey.length ++ m.publicKey).length + 0))))) :=
    ⟨_, rfl, by simp only [sizeofMessageHelloT, List.length_append]; omega, by unfold sizeofMessageHelloT; omega⟩
  have hroom₁ := hroom.openArray
  have hroom₂ := hroom₁.item
  have hroom₃ := hroom₂.item
  have hroom₄ := hroom₃.item
  obtain ⟨encoder, hclose, hwritten⟩ := cborEncoderCloseContainer_eq (saturatedDecrement
    (cborEncoderInit (sizeofMessageHelloT + m.peerId.length + m.publicKey.length))) rfl hroom₄.item rfl rfl
  simp only [cborEncodeHelloT, hstack, ok_bind, cborEncoderCreateArray_eq (by decide) hroom, noError_none,
    toInt64_natCast (Nat.lt_trans hid (by norm_num : 2 ^ 32 < 2 ^ 63)),
    toInt64_natCast (Nat.lt_trans hkey (by norm_num : 2 ^ 32 < 2 ^ 63)), cborEncodeInt_eq hroom₁,
    cborEncodeInt_eq hroom₂, cborEncodeByteString_eq hroom₃, cborEncodeByteString_eq hroom₄, hclose, pure_eq_ok,
    hwritten, toNull_ok, helloBytes]
  simp [CborEncoder.item, CborEncoder.openArray, CborEncoder.push, saturatedDecrement, cborEncoderInit]

/-- A strict prefix of `x ++ y` ends inside `x` or inside `y`. -/
theorem strictPrefix_append {α : Type} {p x y : List α} (h : p <+: x ++ y) (hne : p ≠ x ++ y) :
    (p <+: x ∧ p ≠ x) ∨ ∃ q, p = x ++ q ∧ q <+: y ∧ q ≠ y := by
  rcases Nat.lt_or_ge p.length x.length with hlt | hge
  · exact .inl ⟨List.prefix_of_prefix_length_le h (List.prefix_append x y) hlt.le, by rintro rfl; omega⟩
  · obtain ⟨q, rfl⟩ := List.prefix_of_prefix_length_le (List.prefix_append x y) h hge
    exact .inr ⟨q, rfl, (List.prefix_append_right_inj x).mp h, by rintro rfl; exact hne rfl⟩

@[simp] theorem itemAt_of_ne {n k : Nat} {rest : List UInt8} (h : n ≠ k) : itemAt (some n) k rest = some rest := by
  simp [itemAt, closes, h]

/-- A message type that is one simple value on the wire. -/
def EncodableType (type : UInt8) : Prop := type.toNat < 20 ∨ 32 ≤ type.toNat

theorem encodableType_code (type : MessageTypes) : EncodableType type.code := by
  cases type <;> simp [EncodableType, MessageTypes.code]

section Message

variable {m : Message} (hty : EncodableType m.type) (hlen : m.data.length < 2 ^ 64)

include hty hlen

theorem readMessageFields_messageBytes (t : List UInt8) :
    readMessageFields (messageBytes m ++ t) = some
      { count := some 3, type := m.type.toNat, declared := m.data.length, len := m.data.length,
        rest := m.data ++ t } := by
  simp [readMessageFields, messageBytes, readArrayHead_head, CountFits, UINT32_MAX, readSimple_head hty m.type.toNat_lt,
    readInt_head hlen, readByteHead_head hlen]

/-- Decoding an encoded message, whatever follows it. -/
theorem cborDecodeMessageT_messageBytes {stack : Option Nat} (hs : ∀ n ∈ stack, m.data.length ≤ n) (t : List UInt8) :
    cborDecodeMessageT stack (messageBytes m ++ t) = .ok (some m) := by
  rw [cborDecodeMessageT_eq, readMessage, readMessageFields_messageBytes hty hlen]
  simp [onStack_natCast hs, leaveArray, closes]

/-- No strict prefix of an encoded message is decoded. -/
theorem cborDecodeMessageT_truncated {stack : Option Nat} (hs : ∀ n ∈ stack, m.data.length ≤ n) {p : List UInt8}
    (hp : p <+: messageBytes m) (hne : p ≠ messageBytes m) : cborDecodeMessageT stack p = .ok none := by
  rw [cborDecodeMessageT_eq, readMessage]
  have h7 : m.type.toNat < 2 ^ 64 := by have := m.type.toNat_lt; omega
  suffices h : readMessageFields p = none ∨ ∃ q, q.length < m.data.length ∧ readMessageFields p = some
      { count := some 3, type := m.type.toNat, declared := m.data.length, len := m.data.length, rest := q } by
    rcases h with h | ⟨q, hq, h⟩
    · rw [h]
    · rw [h]
      simp [onStack_natCast hs, hq]
  unfold messageBytes at hp hne
  -- the prefix ends inside one of the four heads, or inside the data
  rcases strictPrefix_append hp hne with ⟨hp, hne⟩ | ⟨p, rfl, hp, hne⟩
  · exact .inl (by simp [readMessageFields, readArrayHead_truncated (by norm_num) hp hne])
  simp only [readMessageFields, readArrayHead_head (show 3 < 2 ^ 64 by norm_num), Option.bind_eq_bind, Option.bind_some,
    itemAt_of_ne (show 3 ≠ 0 by decide), guard, if_pos (show CountFits (some 3) by decide)]
  rcases strictPrefix_append hp hne with ⟨hp, hne⟩ | ⟨p, rfl, hp, hne⟩
  · exact .inl (by simp [readSimple_truncated h7 hp hne])
  simp only [readSimple_head hty m.type.toNat_lt, Option.bind_some, itemAt_of_ne (show 3 ≠ 1 by decide)]
  rcases strictPrefix_append hp hne with ⟨hp, hne⟩ | ⟨p, rfl, hp, hne⟩
  · exact .inl (by simp [readInt_truncated hlen hp hne])
  simp only [readInt_head hlen, Option.bind_some, itemAt_of_ne (show 3 ≠ 2 by decide)]
  rcases strictPrefix_append hp hne with ⟨hp, hne⟩ | ⟨p, rfl, hp, hne⟩
  · exact .inl (by simp [readByteHead_truncated hlen hp hne])
  refine .inr ⟨p, ?_, by simp [readByteHead_head hlen]⟩
  exact lt_of_le_of_ne hp.length_le fun he => hne (hp.eq_of_length he)

end Message

/-- **Message round trip**: encoding succeeds within its stack buffer, the encoding is decoded to the message whatever
follows it, and no strict prefix of it is decoded. -/
theorem message_roundtrip (type : MessageTypes) (data : List UInt8) (stack : Option Nat)
    (hlen : data.length < 2 ^ 32) (hs : ∀ n ∈ stack, sizeofMessageT + data.length ≤ n) :
    ∃ enc, cborEncodeMessageT stack ⟨type.code, data⟩ = .ok (some enc) ∧
      (∀ t, cborDecodeMessageT stack (enc ++ t) = .ok (some ⟨type.code, data⟩)) ∧
      ∀ p, p <+: enc → p ≠ enc → cborDecodeMessageT stack p = .ok none := by
  have hty := encodableType_code type
  have hs' : ∀ n ∈ stack, data.length ≤ n := fun n hn => Nat.le_trans (Nat.le_add_left _ _) (hs n hn)
  refine ⟨messageBytes ⟨type.code, data⟩, cborEncodeMessageT_eq ?_ ?_ hs, fun t => ?_, fun p hp hne => ?_⟩
  · unfold EncodableType at hty
    simp only
    omega
  · simp only
    omega
  · exact cborDecodeMessageT_messageBytes hty (by simp only; omega) hs' t
  · exact cborDecodeMessageT_truncated hty (by simp only; omega) hs' hp hne

/-- A message of 256 bytes, the first whose length takes two bytes. -/
theorem message_roundtrip_wide :
    ∃ enc, cborEncodeMessageT (some 280) ⟨MessageTypes.arbitrary.code, List.replicate 256 7⟩ = .ok (some enc) ∧
      (∀ t, cborDecodeMessageT (some 280) (enc ++ t) = .ok (some ⟨MessageTypes.arbitrary.code, List.replicate 256 7⟩)) ∧
      ∀ p, p <+: enc → p ≠ enc → cborDecodeMessageT (some 280) p = .ok none := by
  refine message_roundtrip .arbitrary (List.replicate 256 7) (some 280) (by rw [List.length_replicate]; decide) ?_
  rintro n ⟨⟩
  rw [List.length_replicate]
  decide

section Hello

variable {m : MessageHello}

theorem readFitting_head {s r : List UInt8} (h : s.length < 2 ^ 64) :
    readFitting s.length (head 2 s.length ++ (s ++ r)) = some (s, r) := by
  have hread : readByteString (head 2 s.length ++ (s ++ r)) = some (s, r) := by
    rw [readByteString_of_head (readByteHead_head h), if_pos (by simp)]
    simp
  simp [readFitting, hread]

theorem byteStringAt_head {n : Nat} {r : List UInt8} (h : n < 2 ^ 64) :
    byteStringAt (head 2 n ++ r) = some (head 2 n ++ r) := by
  by_contra hne
  have : startsByteString (head 2 n ++ r) ≠ true := by
    intro hs
    simp [byteStringAt, hs] at hne
  have hnone := readByteHead_none this
  rw [readByteHead_head h] at hnone
  cases hnone

/-- Decoding an encoded hello message, whatever follows it. -/
theorem cborDecodeHelloT_helloBytes {stack : Option Nat} (hid : m.peerId.length < 2 ^ 63)
    (hkey : m.publicKey.length < 2 ^ 63) (hsi : ∀ n ∈ stack, m.peerId.length ≤ n)
    (hsk : ∀ n ∈ stack, m.publicKey.length ≤ n) (t : List UInt8) :
    cborDecodeHelloT stack (helloBytes m ++ t) = .ok (some m) := by
  have hid' : m.peerId.length < 2 ^ 64 := by omega
  have hkey' : m.publicKey.length < 2 ^ 64 := by omega
  have hfields : readHelloFields (helloBytes m ++ t) = some
      { count := some 4, peerIdLen := m.peerId.length, publicKeyLen := m.publicKey.length,
        rest := head 2 m.peerId.length ++ (m.peerId ++ (head 2 m.publicKey.length ++ (m.publicKey ++ t))) } := by
    simp [readHelloFields, helloBytes, readArrayHead_head, CountFits, UINT32_MAX, readInt_head hid', readInt_head hkey',
      byteStringAt_head hid']
  rw [cborDecodeHelloT_eq, readHello, hfields]
  simp [toInt64_natCast hid, toInt64_natCast hkey, onStack_natCast hsi, onStack_natCast hsk, readFitting_head hid',
    readFitting_head hkey', byteStringAt_head hkey', readHelloKey, leaveArray, closes]

end Hello

end Libcp2p

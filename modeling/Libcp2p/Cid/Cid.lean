import Libcp2p.Protobuf.Wire

/-!
# Content ids and their protobuf form

`ipfsCidProtobufEncode` writes the three fields of a `Cid`, `ipfsCidProtobufDecode` reads fields until its buffer ends.
The codec comes back through a `char`.

`cid_protobuf_iff`: encoding always succeeds within the size computed for it, and decoding gives the same `Cid` back
exactly when the codec is below 128.
-/

namespace Libcp2p

/-- `struct Cid`; a hash of length 0 is the null pointer or an empty object. -/
structure Cid where
  version : Int
  codec : Int
  hash : List UInt8
  deriving DecidableEq, Repr

/-- `CID_DAG_PROTOBUF`. -/
def CID_DAG_PROTOBUF : Int := 0x70

/-! ## Encoding -/

/-- `ipfs_cid_protobuf_encode_size`. -/
def ipfsCidProtobufEncodeSize (cid : Cid) : Nat := 11 + 12 + cid.hash.length + 11

/-- `ipfs_cid_protobuf_encode` into an object of `bufferLength` bytes: the bytes written. It always returns 1. -/
def ipfsCidProtobufEncode (cid : Cid) (bufferLength : Nat) : Except Fault (List UInt8) := do
  let version ← protobufEncodeVarint 1 .varint (toUInt64 cid.version) bufferLength
  let codec ← protobufEncodeVarint 2 .varint (toUInt64 cid.codec) (bufferLength - version.length)
  let hash ← protobufEncodeLengthDelimited 3 .lengthDelimited cid.hash
    (bufferLength - (version.length + codec.length))
  .ok (version ++ codec ++ hash)

/-! ## Decoding -/

/-- The local variables of `ipfs_cid_protobuf_decode`; `hash` and its length are not initialized. -/
structure CidFields where
  version : Int
  codec : Int
  hash : Option (List UInt8)
  deriving DecidableEq, Repr

/-- One field, read at `pos`, and the position after it. A field with another number is passed over without its
value. -/
def cidDecodeField (buffer : List UInt8) (pos : Nat) (fields : CidFields) : Except Fault (CidFields × Nat) := do
  let (fieldNo, _, bytesRead) ← protobufDecodeFieldAndType (buffer.drop pos) (toInt32 buffer.length)
  let pos := pos + bytesRead
  let left := toInt32 (buffer.length - pos : Nat)
  if fieldNo = 1 then do
    let (version, bytesRead) ← varintDecode (buffer.drop pos) left
    .ok ({ fields with version := toInt32 version }, pos + bytesRead)
  else if fieldNo = 2 then do
    let (codec, bytesRead) ← varintDecode (buffer.drop pos) left
    .ok ({ fields with codec := toInt8 codec }, pos + bytesRead)
  else if fieldNo = 3 then do
    let (hash, bytesRead) ← protobufDecodeLengthDelimited (buffer.drop pos) left
    .ok ({ fields with hash := some hash }, pos + bytesRead)
  else .ok (fields, pos)

/-- The loop of `ipfs_cid_protobuf_decode`. Every round passes at least one byte, so `fuel` above the bytes that are
left never runs out. -/
def cidDecodeLoop (buffer : List UInt8) : (fuel pos : Nat) → CidFields → Except Fault CidFields
  | 0, _, _ => .error .diverge
  | fuel + 1, pos, fields =>
    if pos < buffer.length then do
      let (fields, pos) ← cidDecodeField buffer pos fields
      cidDecodeLoop buffer fuel pos fields
    else .ok fields

/-- `ipfs_cid_new`, whose allocations succeed. -/
def ipfsCidNew (version : Int) (hash : List UInt8) (codec : Int) : Cid := ⟨version, codec, hash⟩

/-- `ipfs_cid_protobuf_decode`, whose allocations succeed: the value returned and `*output`, which is null for an empty
buffer. Without a field 3 the uninitialized `hash` is used. -/
def ipfsCidProtobufDecode (buffer : List UInt8) : Except Fault (Bool × Option Cid) :=
  if buffer.length = 0 then .ok (true, none)
  else do
    let fields ← cidDecodeLoop buffer (buffer.length + 1) 0 ⟨0, 0, none⟩
    match fields.hash with
    | none => .error .outOfBounds
    | some hash => .ok (true, some (ipfsCidNew fields.version hash fields.codec))

/-! ## What was encoded is decoded -/

section Fields

variable {before tag value rest : List UInt8} {n v : Nat} {t : WireType} (fields : CidFields)

/-- The front of a field is read at its place. -/
theorem decodeFieldAndType_at (ht : VarintOf (fieldTag n t) tag) (hn : n < 2 ^ 28)
    (hmax : (before ++ (tag ++ rest)).length < 2 ^ 31) :
    protobufDecodeFieldAndType ((before ++ (tag ++ rest)).drop before.length)
        (toInt32 (before ++ (tag ++ rest)).length) =
      .ok (n, t.toNat, tag.length) := by
  rw [List.drop_left]
  apply protobufDecodeFieldAndType_append ht _ hn
  rw [toInt32_natCast hmax, List.length_append, List.length_append]
  omega

theorem cidDecodeField_version (ht : VarintOf (fieldTag 1 .varint) tag) (hv : VarintOf v value)
    (hmax : (before ++ (tag ++ (value ++ rest))).length < 2 ^ 31) (hv64 : v < 2 ^ 64) :
    cidDecodeField (before ++ (tag ++ (value ++ rest))) before.length fields =
      .ok ({ fields with version := toInt32 v }, before.length + (tag.length + value.length)) := by
  obtain ⟨hdrop, hleft⟩ := after_tag hmax
  unfold cidDecodeField
  rw [decodeFieldAndType_at ht (by decide) hmax, ok_bind]
  dsimp only
  rw [if_pos (by rfl), hdrop, hleft, varintDecode_append hv rest hv64 (by simp only [List.length_append]; omega),
    ok_bind, Nat.add_assoc]

theorem cidDecodeField_codec (ht : VarintOf (fieldTag 2 .varint) tag) (hv : VarintOf v value)
    (hmax : (before ++ (tag ++ (value ++ rest))).length < 2 ^ 31) (hv64 : v < 2 ^ 64) :
    cidDecodeField (before ++ (tag ++ (value ++ rest))) before.length fields =
      .ok ({ fields with codec := toInt8 v }, before.length + (tag.length + value.length)) := by
  obtain ⟨hdrop, hleft⟩ := after_tag hmax
  unfold cidDecodeField
  rw [decodeFieldAndType_at ht (by decide) hmax, ok_bind]
  dsimp only
  rw [if_neg (by decide), if_pos (by rfl), hdrop, hleft,
    varintDecode_append hv rest hv64 (by simp only [List.length_append]; omega), ok_bind, Nat.add_assoc]

theorem cidDecodeField_hash {hash : List UInt8} (ht : VarintOf (fieldTag 3 .lengthDelimited) tag)
    (hv : VarintOf hash.length value) (hmax : (before ++ (tag ++ (value ++ hash))).length < 2 ^ 31) :
    cidDecodeField (before ++ (tag ++ (value ++ hash))) before.length fields =
      .ok ({ fields with hash := some hash }, (before ++ (tag ++ (value ++ hash))).length) := by
  obtain ⟨hdrop, hleft⟩ := after_tag hmax
  have hh : hash.length < 2 ^ 64 := by
    simp only [List.length_append] at hmax
    omega
  have hd := protobufDecodeLengthDelimited_append hv [] hh
    (show (value.length : Int) ≤ (value ++ hash).length by rw [List.length_append]; omega)
  rw [List.append_nil] at hd
  unfold cidDecodeField
  rw [decodeFieldAndType_at ht (by decide) hmax, ok_bind]
  dsimp only
  rw [if_neg (by decide), if_neg (by decide), if_pos (by rfl), hdrop, hleft, hd, ok_bind]
  simp only [List.length_append, Nat.add_assoc]

end Fields

/-- One round of the loop. -/
theorem cidDecodeLoop_field {buffer : List UInt8} {fuel pos pos' : Nat} {fields fields' : CidFields}
    (hpos : pos < buffer.length) (h : cidDecodeField buffer pos fields = .ok (fields', pos')) :
    cidDecodeLoop buffer (fuel + 1) pos fields = cidDecodeLoop buffer fuel pos' fields' := by
  rw [cidDecodeLoop, if_pos hpos, h]
  rfl

/-- A message of the three fields is decoded, its codec through a `char`. -/
theorem ipfsCidProtobufDecode_fields {version codec : Nat} {hash t1 v t2 c t3 l message : List UInt8}
    (ht1 : VarintOf (fieldTag 1 .varint) t1) (hv : VarintOf version v) (ht2 : VarintOf (fieldTag 2 .varint) t2)
    (hc : VarintOf codec c) (ht3 : VarintOf (fieldTag 3 .lengthDelimited) t3) (hl : VarintOf hash.length l)
    (hversion : version < 2 ^ 64) (hcodec : codec < 2 ^ 64) (hm : message = t1 ++ v ++ (t2 ++ c) ++ (t3 ++ l ++ hash))
    (hmax : message.length < 2 ^ 31) :
    ipfsCidProtobufDecode message = .ok (true, some ⟨toInt32 version, toInt8 codec, hash⟩) := by
  -- the message as each field of it sees it: what is before, the field, what is after
  have e1 : message = [] ++ (t1 ++ (v ++ (t2 ++ c ++ (t3 ++ l ++ hash)))) := by simp [hm]
  have e2 : message = (t1 ++ v) ++ (t2 ++ (c ++ (t3 ++ l ++ hash))) := by simp [hm]
  have e3 : message = (t1 ++ v ++ (t2 ++ c)) ++ (t3 ++ (l ++ hash)) := by simp [hm]
  have s1 := cidDecodeField_version ⟨0, 0, none⟩ ht1 hv (e1 ▸ hmax) hversion
  have s2 := cidDecodeField_codec ⟨toInt32 version, 0, none⟩ ht2 hc (e2 ▸ hmax) hcodec
  have s3 := cidDecodeField_hash ⟨toInt32 version, toInt8 codec, none⟩ ht3 hl (e3 ▸ hmax)
  rw [← e1, List.length_nil, Nat.zero_add, ← List.length_append] at s1
  rw [← e2, ← List.length_append, ← List.length_append] at s2
  rw [← e3] at s3
  have h1 := ht1.length_pos (fieldTag_lt _ _)
  have h2 := ht2.length_pos (fieldTag_lt _ _)
  have h3 := ht3.length_pos (fieldTag_lt _ _)
  have hlen : message.length =
      t1.length + v.length + (t2.length + c.length) + (t3.length + l.length + hash.length) := by
    simp only [hm, List.length_append]
  obtain ⟨fuel, hfuel⟩ : ∃ fuel, message.length + 1 = fuel + 1 + 1 + 1 + 1 := ⟨message.length - 3, by omega⟩
  have hloop : cidDecodeLoop message (message.length + 1) 0 ⟨0, 0, none⟩ =
      .ok ⟨toInt32 version, toInt8 codec, some hash⟩ := by
    rw [hfuel, cidDecodeLoop_field (by omega) s1,
      cidDecodeLoop_field (by rw [hlen, List.length_append]; omega) s2,
      cidDecodeLoop_field (by rw [hlen]; simp only [List.length_append]; omega) s3, cidDecodeLoop,
      if_neg (Nat.lt_irrefl _)]
  unfold ipfsCidProtobufDecode
  rw [if_neg (by omega), hloop, ok_bind]
  rfl

section RoundTrip

variable {cid : Cid} (hv : cid.version = 0 ∨ cid.version = 1) (hc : 0 ≤ cid.codec) (hc' : cid.codec < 2 ^ 31)
  (hh : cid.hash.length < 2 ^ 30)

include hv hc hc' hh

/-- The message fits, and is decoded as the same `Cid` but for its codec. -/
theorem ipfsCidProtobufDecode_encode :
    ∃ message, ipfsCidProtobufEncode cid (ipfsCidProtobufEncodeSize cid) = .ok message ∧
      message.length ≤ ipfsCidProtobufEncodeSize cid ∧
      ipfsCidProtobufDecode message = .ok (true, some { cid with codec := toInt8 cid.codec }) := by
  have hsize : ipfsCidProtobufEncodeSize cid = 34 + cid.hash.length := by unfold ipfsCidProtobufEncodeSize; omega
  have hversion : (toUInt64 cid.version : Int) = cid.version := by unfold toUInt64; omega
  have hcodec : (toUInt64 cid.codec : Int) = cid.codec := by unfold toUInt64; omega
  -- the fronts take one byte each, the version one byte, the codec and the length of the hash at most five
  have hfront : varintEncodingLength (fieldTag 1 .varint) = 1 ∧ varintEncodingLength (fieldTag 2 .varint) = 1 ∧
      varintEncodingLength (fieldTag 3 .lengthDelimited) = 1 := by decide
  have hvl : varintEncodingLength (toUInt64 cid.version) ≤ 0 + 1 := varintEncodingLength_le (by omega) (by omega)
  have hcl : varintEncodingLength (toUInt64 cid.codec) ≤ 4 + 1 := varintEncodingLength_le (by omega) (by omega)
  have hhl : varintEncodingLength cid.hash.length ≤ 4 + 1 := varintEncodingLength_le (by omega) (by omega)
  have hroom₁ : varintEncodingLength (fieldTag 1 .varint) + varintEncodingLength (toUInt64 cid.version) ≤
      ipfsCidProtobufEncodeSize cid := by omega
  obtain ⟨t1, v, ht1, hv1, htl1, hvl1, he1⟩ := protobufEncodeVarint_ok 1 .varint
    (show toUInt64 cid.version < 2 ^ 64 by omega) hroom₁ (fieldTold_of_lt _ _ hroom₁ (by omega))
  have hroom₂ : varintEncodingLength (fieldTag 2 .varint) + varintEncodingLength (toUInt64 cid.codec) ≤
      ipfsCidProtobufEncodeSize cid - (t1 ++ v).length := by rw [List.length_append]; omega
  obtain ⟨t2, c, ht2, hc2, htl2, hcl2, he2⟩ := protobufEncodeVarint_ok 2 .varint
    (show toUInt64 cid.codec < 2 ^ 64 by omega) hroom₂ (fieldTold_of_lt _ _ hroom₂ (by omega))
  have hroom₃ : varintEncodingLength (fieldTag 3 .lengthDelimited) + varintEncodingLength cid.hash.length +
      cid.hash.length ≤ ipfsCidProtobufEncodeSize cid - ((t1 ++ v).length + (t2 ++ c).length) := by
    simp only [List.length_append]
    omega
  obtain ⟨t3, l, ht3, hl3, htl3, hll3, he3⟩ := protobufEncodeLengthDelimited_ok 3 .lengthDelimited hroom₃ (by omega)
    (fieldTold_of_lt _ _ (Nat.le_trans (Nat.le_add_right _ _) hroom₃) (by omega))
  refine ⟨t1 ++ v ++ (t2 ++ c) ++ (t3 ++ l ++ cid.hash), ?_, ?_, ?_⟩
  · unfold ipfsCidProtobufEncode
    rw [he1, ok_bind, he2, ok_bind, he3, ok_bind]
  · simp only [List.length_append]
    omega
  · rw [ipfsCidProtobufDecode_fields ht1 hv1 ht2 hc2 ht3 hl3 (by omega) (by omega) rfl
      (by simp only [List.length_append]; omega), hcodec, hversion]
    have hint : toInt32 cid.version = cid.version := by unfold toInt32; omega
    rw [hint]

end RoundTrip

/-- **Protobuf form of content ids.** Encoding succeeds within the size computed for it, and decoding what was written
gives the `Cid` back exactly when its codec is below 128. -/
theorem cid_protobuf_iff (cid : Cid) (hv : cid.version = 0 ∨ cid.version = 1) (hc : 0 ≤ cid.codec)
    (hc' : cid.codec < 2 ^ 31) (hh : cid.hash.length < 2 ^ 30) :
    ∃ message, ipfsCidProtobufEncode cid (ipfsCidProtobufEncodeSize cid) = .ok message ∧
      message.length ≤ ipfsCidProtobufEncodeSize cid ∧
      (ipfsCidProtobufDecode message = .ok (true, some cid) ↔ cid.codec < 128) := by
  obtain ⟨message, henc, hle, hdec⟩ := ipfsCidProtobufDecode_encode hv hc hc' hh
  refine ⟨message, henc, hle, ?_⟩
  have hchar : toInt8 cid.codec = cid.codec ↔ cid.codec < 128 := by unfold toInt8; omega
  rw [hdec, ← hchar]
  constructor
  · intro h
    exact congrArg Cid.codec (Option.some.inj (Prod.mk.inj (Except.ok.inj h)).2)
  · intro h
    rw [h]

/-- A codec of one byte comes back, one of two bytes does not. -/
theorem cid_protobuf_iff_hash :
    (∃ message, ipfsCidProtobufEncode ⟨1, 0x70, [0x12, 2, 7, 9]⟩ 38 = .ok message ∧ message.length ≤ 38 ∧
      (ipfsCidProtobufDecode message = .ok (true, some ⟨1, 0x70, [0x12, 2, 7, 9]⟩) ↔ (0x70 : Int) < 128)) ∧
    ∃ message, ipfsCidProtobufEncode ⟨1, 300, [0x12, 2, 7, 9]⟩ 38 = .ok message ∧ message.length ≤ 38 ∧
      (ipfsCidProtobufDecode message = .ok (true, some ⟨1, 300, [0x12, 2, 7, 9]⟩) ↔ (300 : Int) < 128) :=
  ⟨cid_protobuf_iff ⟨1, 0x70, [0x12, 2, 7, 9]⟩ (by decide) (by decide) (by decide) (by decide),
    cid_protobuf_iff ⟨1, 300, [0x12, 2, 7, 9]⟩ (by decide) (by decide) (by decide) (by decide)⟩

/-- The codec of an Ethereum block comes back as a negative number. -/
theorem cid_protobuf_not_ethereum :
    ipfsCidProtobufEncode ⟨1, 0x90, [7]⟩ 35 = .ok [8, 1, 16, 0x90, 1, 26, 1, 7] ∧
      ipfsCidProtobufDecode [8, 1, 16, 0x90, 1, 26, 1, 7] = .ok (true, some ⟨1, -112, [7]⟩) := by
  decide +kernel

end Libcp2p

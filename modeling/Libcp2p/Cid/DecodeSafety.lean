import Libcp2p.Cid.Cid
import Libcp2p.Protobuf.Message

/-!
# Decoding any array as a content id

`ipfs_cid_protobuf_decode` on an arbitrary array, with allocations that may fail. It tells the reader of a front the
length of the whole array, reads a value by the number of its field alone, copies as many bytes as a field 3 declares,
passes over the fronts of other fields but not over their values, and uses `hash` whether or not there was a field 3.

* `Consumes`: how the decoder splits an array that it goes through, `cidDecodeLoopAlloc_eq_ok`.
* `ipfsCidProtobufDecodeAlloc_success`: where all allocations succeed this is `ipfsCidProtobufDecode`.
* `cid_decode_safe_iff`: the arrays on which the decoder stays inside, and returns 0 for truncated messages and messages
  without a hash.
-/

namespace Libcp2p

/-! ## The decoder with its allocations -/

/-- Whether the allocations of a run succeed: that for a field 3 whose size is read with `left` bytes left, that of the
`Cid` and that of its copy of the hash. -/
structure CidDecodeAllocs where
  field : (left : Nat) → Bool
  cid : Bool
  hash : Bool

/-- `protobuf_decode_length_delimited`; nothing where its allocation fails. -/
def protobufDecodeLengthDelimitedAlloc (malloc : Bool) (bytes : List UInt8) (len : Int) :
    Except Fault (Option (List UInt8 × Nat)) := do
  let (fieldSize, bytesRead) ← varintDecode bytes len
  if malloc then do
    let results ← readBytes (bytes.drop bytesRead) fieldSize
    .ok (some (results, bytesRead + fieldSize))
  else .ok none

/-- The `switch` of `ipfs_cid_protobuf_decode` with the bytes behind the front of a field, and the number of bytes it
reads; nothing where it returns 0. -/
def cidDecodeSwitch (allocs : CidDecodeAllocs) (fieldNo : Int) (bytes : List UInt8) (fields : CidFields) :
    Except Fault (Option (CidFields × Nat)) :=
  if fieldNo = 1 then do
    let (version, bytesRead) ← varintDecode bytes (toInt32 bytes.length)
    .ok (some ({ fields with version := toInt32 version }, bytesRead))
  else if fieldNo = 2 then do
    let (codec, bytesRead) ← varintDecode bytes (toInt32 bytes.length)
    .ok (some ({ fields with codec := toInt8 codec }, bytesRead))
  else if fieldNo = 3 then do
    let hash ← protobufDecodeLengthDelimitedAlloc (allocs.field bytes.length) bytes (toInt32 bytes.length)
    .ok (hash.map fun (hash, bytesRead) => ({ fields with hash := some hash }, bytesRead))
  else .ok (some (fields, 0))

/-- The loop of `ipfs_cid_protobuf_decode`; nothing where it returns 0. Every round passes at least one byte, so `fuel`
above the bytes that are left never runs out. -/
def cidDecodeLoopAlloc (allocs : CidDecodeAllocs) (buffer : List UInt8) :
    (fuel pos : Nat) → CidFields → Except Fault (Option CidFields)
  | 0, _, _ => .error .diverge
  | fuel + 1, pos, fields =>
    if pos < buffer.length then do
      let (fieldNo, _, bytesRead) ← protobufDecodeFieldAndType (buffer.drop pos) (toInt32 buffer.length)
      let pos := pos + bytesRead
      match ← cidDecodeSwitch allocs fieldNo (buffer.drop pos) fields with
      | none => .ok none
      | some (fields, bytesRead) => cidDecodeLoopAlloc allocs buffer fuel (pos + bytesRead) fields
    else .ok (some fields)

/-- `ipfs_cid_new`; an empty hash is not copied. -/
def ipfsCidNewAlloc (allocs : CidDecodeAllocs) (version : Int) (hash : List UInt8) (codec : Int) : Option Cid :=
  if allocs.cid then
    if hash.length = 0 ∨ allocs.hash then some ⟨version, codec, hash⟩ else none
  else none

/-- What follows the loop. Without a field 3 the uninitialized `hash` is used. -/
def cidDecodeFinish (allocs : CidDecodeAllocs) : Option CidFields → Except Fault (Bool × Option Cid)
  | none => .ok (false, none)
  | some fields =>
    match fields.hash with
    | none => .error .outOfBounds
    | some hash =>
      let output := ipfsCidNewAlloc allocs fields.version hash fields.codec
      .ok (output.isSome, output)

/-- `ipfs_cid_protobuf_decode`: the value returned and the `Cid` in `*output`, if it stores one. -/
def ipfsCidProtobufDecodeAlloc (allocs : CidDecodeAllocs) (buffer : List UInt8) : Except Fault (Bool × Option Cid) :=
  if buffer.length = 0 then .ok (true, none)
  else do
    let fields ← cidDecodeLoopAlloc allocs buffer (buffer.length + 1) 0 ⟨0, 0, none⟩
    cidDecodeFinish allocs fields

/-! ## Allocations that succeed -/

theorem protobufDecodeLengthDelimitedAlloc_true (bytes : List UInt8) (len : Int) :
    protobufDecodeLengthDelimitedAlloc true bytes len = (protobufDecodeLengthDelimited bytes len).map some := by
  unfold protobufDecodeLengthDelimitedAlloc protobufDecodeLengthDelimited
  cases varintDecode bytes len with
  | error fault => rfl
  | ok size =>
    rw [ok_bind, ok_bind]
    dsimp only
    rw [if_pos rfl]
    cases readBytes (bytes.drop size.2) size.1 with
    | error fault => rfl
    | ok results => rfl

section Success

variable {allocs : CidDecodeAllocs} {buffer : List UInt8} (hfield : ∀ left, allocs.field left = true)

include hfield

theorem cidDecodeLoopAlloc_success (fuel pos : Nat) (fields : CidFields) :
    cidDecodeLoopAlloc allocs buffer fuel pos fields = (cidDecodeLoop buffer fuel pos fields).map some := by
  induction fuel generalizing pos fields with
  | zero => rfl
  | succ fuel ih =>
    rw [cidDecodeLoopAlloc, cidDecodeLoop]
    by_cases hpos : pos < buffer.length
    · rw [if_pos hpos, if_pos hpos, cidDecodeField]
      cases hfront : protobufDecodeFieldAndType (buffer.drop pos) (toInt32 buffer.length) with
      | error fault => rfl
      | ok front =>
        obtain ⟨fieldNo, fieldType, bytesRead⟩ := front
        rw [ok_bind, ok_bind]
        dsimp only
        rw [cidDecodeSwitch, List.length_drop, hfield, protobufDecodeLengthDelimitedAlloc_true]
        generalize toInt32 (buffer.length - (pos + bytesRead) : Nat) = left
        by_cases h1 : fieldNo = 1
        · rw [if_pos h1, if_pos h1]
          cases varintDecode (buffer.drop (pos + bytesRead)) left with
          | error fault => rfl
          | ok version => exact ih _ _
        rw [if_neg h1, if_neg h1]
        by_cases h2 : fieldNo = 2
        · rw [if_pos h2, if_pos h2]
          cases varintDecode (buffer.drop (pos + bytesRead)) left with
          | error fault => rfl
          | ok codec => exact ih _ _
        rw [if_neg h2, if_neg h2]
        by_cases h3 : fieldNo = 3
        · rw [if_pos h3, if_pos h3]
          cases protobufDecodeLengthDelimited (buffer.drop (pos + bytesRead)) left with
          | error fault => rfl
          | ok hash => exact ih _ _
        · rw [if_neg h3, if_neg h3]
          exact ih _ _
    · rw [if_neg hpos, if_neg hpos]
      rfl

/-- Where all allocations succeed, this is the decoder of the round trip. -/
theorem ipfsCidProtobufDecodeAlloc_success (hcid : allocs.cid = true) (hhash : allocs.hash = true) :
    ipfsCidProtobufDecodeAlloc allocs buffer = ipfsCidProtobufDecode buffer := by
  unfold ipfsCidProtobufDecodeAlloc ipfsCidProtobufDecode
  rw [cidDecodeLoopAlloc_success hfield]
  by_cases hempty : buffer.length = 0
  · rw [if_pos hempty, if_pos hempty]
  · rw [if_neg hempty, if_neg hempty]
    cases cidDecodeLoop buffer (buffer.length + 1) 0 ⟨0, 0, none⟩ with
    | error fault => rfl
    | ok fields =>
      obtain ⟨version, codec, hash⟩ := fields
      cases hash with
      | none => rfl
      | some hash => simp [Except.map, cidDecodeFinish, ipfsCidNewAlloc, hcid, hhash, ipfsCidNew]

end Success

/-! ## What the decoder goes through -/

/-- The number that the decoder takes from the front of a field. -/
def tagNumber (tag : List UInt8) : Int := toInt32 (varintNumber tag >>> 3 : Nat)

section Reading

variable (allocs : CidDecodeAllocs)

/-- How the value of a field is read: a varint for the fields 1 and 2, a size and as many bytes for field 3 if there is
memory for them, and nothing for other fields. -/
inductive ValueRead : Int → List UInt8 → CidFields → Option (CidFields × Nat) → Prop
  | version {value rest : List UInt8} {version : Int} {fields : CidFields}
    (hv : VarintRead (toInt32 (value ++ rest).length) value) (hn : version = toInt32 (varintNumber value)) :
    ValueRead 1 (value ++ rest) fields (some ({ fields with version := version }, value.length))
  | codec {value rest : List UInt8} {codec : Int} {fields : CidFields}
    (hv : VarintRead (toInt32 (value ++ rest).length) value) (hn : codec = toInt8 (varintNumber value)) :
    ValueRead 2 (value ++ rest) fields (some ({ fields with codec := codec }, value.length))
  | hash {size hash rest : List UInt8} {fields : CidFields}
    (hs : VarintRead (toInt32 (size ++ (hash ++ rest)).length) size) (hl : varintNumber size = hash.length)
    (ha : allocs.field (size ++ (hash ++ rest)).length = true) :
    ValueRead 3 (size ++ (hash ++ rest)) fields (some ({ fields with hash := some hash }, size.length + hash.length))
  | refused {size rest : List UInt8} {fields : CidFields} (hs : VarintRead (toInt32 (size ++ rest).length) size)
    (ha : allocs.field (size ++ rest).length = false) : ValueRead 3 (size ++ rest) fields none
  | other {fieldNo : Int} {bytes : List UInt8} {fields : CidFields} (h1 : fieldNo ≠ 1) (h2 : fieldNo ≠ 2)
    (h3 : fieldNo ≠ 3) : ValueRead fieldNo bytes fields (some (fields, 0))

/-- How the fields of an array of `n` bytes are read, one after another: each has its front and its value inside the
array. The reading goes to the end, or up to a field 3 for which there is no memory. -/
inductive Consumes (n : Nat) : List UInt8 → CidFields → Option CidFields → Prop
  | done {fields : CidFields} : Consumes n [] fields (some fields)
  | field {tag rest : List UInt8} {fields fields' : CidFields} {bytesRead : Nat} {outcome : Option CidFields}
    (ht : VarintRead (toInt32 n) tag)
    (hv : ValueRead allocs (tagNumber tag) rest fields (some (fields', bytesRead)))
    (hrest : Consumes n (rest.drop bytesRead) fields' outcome) : Consumes n (tag ++ rest) fields outcome
  | refused {tag rest : List UInt8} {fields : CidFields} (ht : VarintRead (toInt32 n) tag)
    (hv : ValueRead allocs (tagNumber tag) rest fields none) : Consumes n (tag ++ rest) fields none

end Reading

variable {allocs : CidDecodeAllocs} {fields : CidFields}

/-- A front is read exactly where there is a varint for it. -/
theorem protobufDecodeFieldAndType_eq_ok {bytes : List UInt8} {len fieldNo : Int} {bytesRead : Nat} :
    (∃ fieldType, protobufDecodeFieldAndType bytes len = .ok (fieldNo, fieldType, bytesRead)) ↔
      ∃ tag rest, bytes = tag ++ rest ∧ VarintRead len tag ∧ fieldNo = tagNumber tag ∧ bytesRead = tag.length := by
  constructor
  · rintro ⟨fieldType, h⟩
    obtain ⟨⟨field, n⟩, hd, hfield⟩ := bind_eq_ok.mp h
    obtain ⟨tag, rest, rfl, ht, rfl, rfl⟩ := varintDecode_eq_ok.mp hd
    simp only [Except.ok.injEq, Prod.mk.injEq] at hfield
    refine ⟨tag, rest, rfl, ht, ?_, hfield.2.2.symm⟩
    rw [tagNumber]
    exact hfield.1.symm
  · rintro ⟨tag, rest, rfl, ht, hno, hlen⟩
    unfold protobufDecodeFieldAndType
    rw [varintDecode_eq_ok.mpr ⟨tag, rest, rfl, ht, rfl, rfl⟩, ok_bind, hno, hlen, tagNumber]
    exact ⟨_, rfl⟩

/-- A length-delimited value is read where its size is, and as many bytes as this says if there is memory for them. -/
theorem protobufDecodeLengthDelimitedAlloc_eq_ok {malloc : Bool} {bytes : List UInt8} {len : Int}
    {r : Option (List UInt8 × Nat)} :
    protobufDecodeLengthDelimitedAlloc malloc bytes len = .ok r ↔
      ∃ size rest, bytes = size ++ rest ∧ VarintRead len size ∧
        (malloc = false ∧ r = none ∨
          malloc = true ∧ ∃ value tail, rest = value ++ tail ∧ varintNumber size = value.length ∧
            r = some (value, size.length + value.length)) := by
  unfold protobufDecodeLengthDelimitedAlloc
  constructor
  · intro h
    obtain ⟨⟨fieldSize, bytesRead⟩, hsize, hread⟩ := bind_eq_ok.mp h
    obtain ⟨size, rest, rfl, hs, rfl, rfl⟩ := varintDecode_eq_ok.mp hsize
    refine ⟨size, rest, rfl, hs, ?_⟩
    dsimp only at hread
    cases malloc with
    | false => exact .inl ⟨rfl, (Except.ok.inj hread).symm⟩
    | true =>
      rw [if_pos rfl, List.drop_left] at hread
      obtain ⟨value, hvalue, hr⟩ := bind_eq_ok.mp hread
      obtain ⟨hle, htake⟩ := readBytes_eq_ok.mp hvalue
      have hl : varintNumber size = value.length := by rw [← htake, List.length_take_of_le hle]
      refine .inr ⟨rfl, value, rest.drop (varintNumber size), ?_, hl, ?_⟩
      · rw [← htake, List.take_append_drop]
      · rw [← hl]
        exact (Except.ok.inj hr).symm
  · rintro ⟨size, rest, rfl, hs, hcases⟩
    rw [varintDecode_eq_ok.mpr ⟨size, rest, rfl, hs, rfl, rfl⟩, ok_bind]
    dsimp only
    rcases hcases with ⟨rfl, rfl⟩ | ⟨rfl, value, tail, rfl, hl, rfl⟩
    · rfl
    · rw [if_pos rfl, List.drop_left, hl, readBytes_eq_ok.mpr ⟨by simp, List.take_left⟩, ok_bind]

/-- **One value**: the `switch` returns exactly where the value can be read. -/
theorem cidDecodeSwitch_eq_ok {fieldNo : Int} {bytes : List UInt8} {r : Option (CidFields × Nat)} :
    cidDecodeSwitch allocs fieldNo bytes fields = .ok r ↔ ValueRead allocs fieldNo bytes fields r := by
  unfold cidDecodeSwitch
  constructor
  · intro h
    by_cases h1 : fieldNo = 1
    · rw [if_pos h1] at h
      obtain ⟨⟨version, bytesRead⟩, hd, hr⟩ := bind_eq_ok.mp h
      obtain ⟨value, rest, rfl, hv, rfl, rfl⟩ := varintDecode_eq_ok.mp hd
      rw [h1, ← Except.ok.inj hr]
      exact .version hv rfl
    by_cases h2 : fieldNo = 2
    · rw [if_neg h1, if_pos h2] at h
      obtain ⟨⟨codec, bytesRead⟩, hd, hr⟩ := bind_eq_ok.mp h
      obtain ⟨value, rest, rfl, hv, rfl, rfl⟩ := varintDecode_eq_ok.mp hd
      rw [h2, ← Except.ok.inj hr]
      exact .codec hv rfl
    by_cases h3 : fieldNo = 3
    · rw [if_neg h1, if_neg h2, if_pos h3] at h
      obtain ⟨hash, hd, hr⟩ := bind_eq_ok.mp h
      obtain ⟨size, rest, rfl, hs, hcases⟩ := protobufDecodeLengthDelimitedAlloc_eq_ok.mp hd
      rw [h3, ← Except.ok.inj hr]
      rcases hcases with ⟨ha, rfl⟩ | ⟨ha, value, tail, rfl, hl, rfl⟩
      · exact .refused hs ha
      · exact .hash hs hl ha
    · rw [if_neg h1, if_neg h2, if_neg h3] at h
      rw [← Except.ok.inj h]
      exact .other h1 h2 h3
  · intro h
    cases h with
    | version hv hn => rw [hn, if_pos rfl, varintDecode_eq_ok.mpr ⟨_, _, rfl, hv, rfl, rfl⟩, ok_bind]
    | codec hv hn => rw [hn, if_neg (by decide), if_pos rfl, varintDecode_eq_ok.mpr ⟨_, _, rfl, hv, rfl, rfl⟩, ok_bind]
    | @hash size hash rest _ hs hl ha =>
      rw [if_neg (by decide), if_neg (by decide), if_pos rfl,
        protobufDecodeLengthDelimitedAlloc_eq_ok.mpr ⟨size, hash ++ rest, rfl, hs, .inr ⟨ha, hash, rest, rfl, hl, rfl⟩⟩,
        ok_bind, Option.map_some]
    | refused hs ha =>
      rw [if_neg (by decide), if_neg (by decide), if_pos rfl,
        protobufDecodeLengthDelimitedAlloc_eq_ok.mpr ⟨_, _, rfl, hs, .inl ⟨ha, rfl⟩⟩, ok_bind, Option.map_none]
    | other h1 h2 h3 => rw [if_neg h1, if_neg h2, if_neg h3]

/-- A value does not go past the end. -/
theorem ValueRead.bytesRead_le {fieldNo : Int} {bytes : List UInt8} {r : Option (CidFields × Nat)}
    (h : ValueRead allocs fieldNo bytes fields r) : ∀ value ∈ r, value.2 ≤ bytes.length := by
  intro value hvalue
  cases h with
  | version hv hn | codec hv hn =>
    obtain rfl := Option.some.inj hvalue
    rw [List.length_append]
    exact Nat.le_add_right _ _
  | hash hs hl ha =>
    obtain rfl := Option.some.inj hvalue
    simp only [List.length_append]
    omega
  | refused hs ha => cases hvalue
  | other h1 h2 h3 =>
    obtain rfl := Option.some.inj hvalue
    exact Nat.zero_le _

/-- A value leaves the hash as it was, or sets it to bytes of the array. -/
theorem ValueRead.hash_eq {fieldNo : Int} {bytes : List UInt8} {r : Option (CidFields × Nat)}
    (h : ValueRead allocs fieldNo bytes fields r) :
    ∀ value ∈ r, ∀ hash, value.1.hash = some hash → fields.hash = some hash ∨ hash <:+: bytes := by
  intro value hvalue hash hhash
  cases h with
  | version hv hn | codec hv hn | other h1 h2 h3 =>
    obtain rfl := Option.some.inj hvalue
    exact .inl hhash
  | @hash size value rest _ hs hl ha =>
    obtain rfl := Option.some.inj hvalue
    obtain rfl := Option.some.inj hhash
    exact .inr ⟨size, rest, by rw [List.append_assoc]⟩
  | refused hs ha => cases hvalue

/-- Where there is a front, the loop goes on with the value behind it. -/
theorem cidDecodeLoopAlloc_front {buffer tag rest : List UInt8} {fuel pos : Nat}
    (hbytes : buffer.drop pos = tag ++ rest) (ht : VarintRead (toInt32 buffer.length) tag) :
    cidDecodeLoopAlloc allocs buffer (fuel + 1) pos fields =
      cidDecodeSwitch allocs (tagNumber tag) rest fields >>= fun value =>
        match value with
        | none => .ok none
        | some (fields, bytesRead) => cidDecodeLoopAlloc allocs buffer fuel (pos + tag.length + bytesRead) fields := by
  have hpos : pos < buffer.length := by
    have hlen := congrArg List.length hbytes
    have htag := ht.form.length_pos
    rw [List.length_drop, List.length_append] at hlen
    omega
  have hrest : buffer.drop (pos + tag.length) = rest := by rw [← List.drop_drop, hbytes, List.drop_left]
  obtain ⟨fieldType, hfront⟩ := protobufDecodeFieldAndType_eq_ok.mpr ⟨tag, rest, rfl, ht, rfl, rfl⟩
  rw [cidDecodeLoopAlloc, if_pos hpos, hbytes, hfront, ok_bind]
  dsimp only
  rw [hrest]

/-- **The loop** returns exactly where the fields can be read one after another. -/
theorem cidDecodeLoopAlloc_eq_ok {buffer : List UInt8} {fuel pos : Nat} {outcome : Option CidFields}
    (hpos : pos ≤ buffer.length) (hfuel : buffer.length - pos < fuel) :
    cidDecodeLoopAlloc allocs buffer fuel pos fields = .ok outcome ↔
      Consumes allocs buffer.length (buffer.drop pos) fields outcome := by
  induction fuel generalizing pos fields with
  | zero => omega
  | succ fuel ih =>
    -- the position behind a front and its value, from where the rest of the fields is read
    have hnext {tag rest : List UInt8} {bytesRead : Nat} (hbytes : buffer.drop pos = tag ++ rest)
        (htag : VarintForm tag) (hle : bytesRead ≤ rest.length) (fields' : CidFields) :
        cidDecodeLoopAlloc allocs buffer fuel (pos + tag.length + bytesRead) fields' = .ok outcome ↔
          Consumes allocs buffer.length (rest.drop bytesRead) fields' outcome := by
      have hlen := congrArg List.length hbytes
      have hpos' := htag.length_pos
      rw [List.length_drop, List.length_append] at hlen
      rw [ih (by omega) (by omega), Nat.add_assoc, ← List.drop_drop, hbytes, ← List.drop_drop, List.drop_left]
    constructor
    · intro h
      by_cases hend : pos < buffer.length
      · have hrun := h
        rw [cidDecodeLoopAlloc, if_pos hend] at hrun
        obtain ⟨⟨fieldNo, fieldType, bytesRead⟩, hfront, -⟩ := bind_eq_ok.mp hrun
        obtain ⟨tag, rest, hbytes, ht, -, -⟩ := protobufDecodeFieldAndType_eq_ok.mp ⟨fieldType, hfront⟩
        rw [cidDecodeLoopAlloc_front hbytes ht] at h
        obtain ⟨value, hswitch, hloop⟩ := bind_eq_ok.mp h
        have hvalue := cidDecodeSwitch_eq_ok.mp hswitch
        rw [hbytes]
        cases value with
        | none =>
          rw [← Except.ok.inj hloop]
          exact .refused ht hvalue
        | some value => exact .field ht hvalue ((hnext hbytes ht.form (hvalue.bytesRead_le value rfl) value.1).mp hloop)
      · rw [cidDecodeLoopAlloc, if_neg hend] at h
        rw [← Except.ok.inj h, List.drop_of_length_le (by omega)]
        exact .done
    · intro h
      generalize hbytes : buffer.drop pos = bytes at h
      cases h with
      | done =>
        have hend : buffer.length ≤ pos := List.drop_eq_nil_iff.mp hbytes
        rw [cidDecodeLoopAlloc, if_neg (by omega)]
      | field ht hv hrest =>
        rw [cidDecodeLoopAlloc_front hbytes ht, cidDecodeSwitch_eq_ok.mpr hv, ok_bind]
        exact (hnext hbytes ht.form (hv.bytesRead_le _ rfl) _).mpr hrest
      | refused ht hv =>
        rw [cidDecodeLoopAlloc_front hbytes ht, cidDecodeSwitch_eq_ok.mpr hv, ok_bind]

/-- The hash at the end is the one from the start, or bytes of the array. -/
theorem Consumes.hash_eq {n : Nat} {bytes : List UInt8} {outcome : Option CidFields}
    (h : Consumes allocs n bytes fields outcome) :
    ∀ fields' ∈ outcome, ∀ hash, fields'.hash = some hash → fields.hash = some hash ∨ hash <:+: bytes := by
  induction h with
  | done =>
    intro fields' hf hash hhash
    obtain rfl := Option.some.inj hf
    exact .inl hhash
  | @field tag rest fields fields' bytesRead outcome ht hv hrest ih =>
    intro fields'' hf hash hhash
    have hrest' : rest <:+: tag ++ rest := (List.suffix_append _ _).isInfix
    rcases ih fields'' hf hash hhash with hfirst | hlater
    · rcases hv.hash_eq _ rfl hash hfirst with hbefore | hvalue
      · exact .inl hbefore
      · exact .inr (hvalue.trans hrest')
    · exact .inr ((hlater.trans (List.drop_suffix _ _).isInfix).trans hrest')
  | refused ht hv =>
    intro fields' hf
    cases hf

/-! ## Arrays that are decoded safely -/

/-- A message that was cut off: it can be completed, but is not complete. -/
def Truncated (bytes : List UInt8) : Prop :=
  (¬∃ numbers, ProtobufMessage numbers bytes) ∧ ∃ rest numbers, ProtobufMessage numbers (bytes ++ rest)

/-- A complete message without a field 3. -/
def HashLess (bytes : List UInt8) : Prop := ∃ numbers, ProtobufMessage numbers bytes ∧ 3 ∉ numbers

/-- A complete message is not truncated, and has a hash if it has a field 3. -/
theorem ProtobufMessage.not_truncated_not_hashLess {numbers : List Nat} {bytes : List UInt8}
    (h : ProtobufMessage numbers bytes) (hhash : 3 ∈ numbers) : ¬ Truncated bytes ∧ ¬ HashLess bytes := by
  constructor
  · rintro ⟨hnot, -⟩
    exact hnot ⟨numbers, h⟩
  · rintro ⟨numbers', h', hnone⟩
    rw [h'.unique h] at hnone
    exact hnone hhash

/-- What is asked of the decoder: it returns; where it returns 1, all fields it went through are inside the array, a
field 3 among them, and the `Cid` is made of them; and it does not return 1 for messages that are truncated or have no
hash. -/
def CidDecodeSafe (allocs : CidDecodeAllocs) (buffer : List UInt8) : Prop :=
  ∃ returned output, ipfsCidProtobufDecodeAlloc allocs buffer = .ok (returned, output) ∧
    (returned = true → ∃ fields hash, Consumes allocs buffer.length buffer ⟨0, 0, none⟩ (some fields) ∧
      fields.hash = some hash ∧ hash <:+: buffer ∧ output = some ⟨fields.version, fields.codec, hash⟩) ∧
    (Truncated buffer ∨ HashLess buffer → returned = false)

/-- `ipfs_cid_new` needs memory for the `Cid`, and for the hash unless this is empty. -/
def CidDecodeAllocs.New (allocs : CidDecodeAllocs) (hash : List UInt8) : Prop :=
  allocs.cid = true ∧ (hash = [] ∨ allocs.hash = true)

/-- The arrays that are decoded safely: the fields can be read one after another, up to a field 3 for which there is no
memory or to the end. In the second case there was a field 3, and if there is memory for the `Cid` then the array is
neither truncated nor without a hash. -/
def CidReadable (allocs : CidDecodeAllocs) (buffer : List UInt8) : Prop :=
  Consumes allocs buffer.length buffer ⟨0, 0, none⟩ none ∨
    ∃ fields hash, Consumes allocs buffer.length buffer ⟨0, 0, none⟩ (some fields) ∧ fields.hash = some hash ∧
      (allocs.New hash → ¬ Truncated buffer ∧ ¬ HashLess buffer)

/-- The decoder returns exactly where its loop does, and where there was a field 3 if it went to the end. -/
theorem ipfsCidProtobufDecodeAlloc_eq_ok {buffer : List UInt8} (hne : buffer ≠ []) {r : Bool × Option Cid} :
    ipfsCidProtobufDecodeAlloc allocs buffer = .ok r ↔
      ∃ outcome, Consumes allocs buffer.length buffer ⟨0, 0, none⟩ outcome ∧
        cidDecodeFinish allocs outcome = .ok r := by
  have hloop (outcome : Option CidFields) :
      cidDecodeLoopAlloc allocs buffer (buffer.length + 1) 0 ⟨0, 0, none⟩ = .ok outcome ↔
        Consumes allocs buffer.length (buffer.drop 0) ⟨0, 0, none⟩ outcome :=
    cidDecodeLoopAlloc_eq_ok (Nat.zero_le _) (by omega)
  rw [ipfsCidProtobufDecodeAlloc, if_neg (mt List.length_eq_zero_iff.mp hne), bind_eq_ok]
  simp only [hloop, List.drop_zero]

theorem cidDecodeFinish_new {hash : List UInt8} (hhash : fields.hash = some hash) (hnew : allocs.New hash) :
    cidDecodeFinish allocs (some fields) = .ok (true, some ⟨fields.version, fields.codec, hash⟩) := by
  have hlen : hash.length = 0 ∨ allocs.hash = true := hnew.2.imp_left List.length_eq_zero_iff.mpr
  unfold cidDecodeFinish
  dsimp only
  rw [hhash]
  dsimp only
  rw [ipfsCidNewAlloc, if_pos hnew.1, if_pos hlen]
  rfl

theorem cidDecodeFinish_not_new {hash : List UInt8} (hhash : fields.hash = some hash) (hnew : ¬ allocs.New hash) :
    cidDecodeFinish allocs (some fields) = .ok (false, none) := by
  have hnone : ipfsCidNewAlloc allocs fields.version hash fields.codec = none := by
    unfold ipfsCidNewAlloc
    split
    · rename_i hcid
      rw [if_neg]
      rw [List.length_eq_zero_iff]
      exact fun h => hnew ⟨hcid, h⟩
    · rfl
  unfold cidDecodeFinish
  dsimp only
  rw [hhash]
  dsimp only
  rw [hnone]
  rfl

/-- **Decoding any array.** For every array that is not empty and every outcome of the allocations, the decoder stays
inside the array and answers as it should exactly if the array is readable. -/
theorem cid_decode_safe_iff (allocs : CidDecodeAllocs) (buffer : List UInt8) (hne : buffer ≠ []) :
    CidDecodeSafe allocs buffer ↔ CidReadable allocs buffer := by
  constructor
  · rintro ⟨returned, output, hrun, -, hbad⟩
    obtain ⟨outcome, hc, hfinish⟩ := (ipfsCidProtobufDecodeAlloc_eq_ok hne).mp hrun
    cases outcome with
    | none => exact .inl hc
    | some fields =>
      cases hhash : fields.hash with
      | none =>
        rw [cidDecodeFinish, hhash] at hfinish
        cases hfinish
      | some hash =>
        refine .inr ⟨fields, hash, hc, hhash, ?_⟩
        intro hnew
        rw [cidDecodeFinish_new hhash hnew] at hfinish
        have hreturned : returned = true := (Prod.mk.inj (Except.ok.inj hfinish)).1.symm
        rw [← not_or]
        intro h
        exact absurd (hbad h) (by rw [hreturned]; decide)
  · rintro (hc | ⟨fields, hash, hc, hhash, hgood⟩)
    · refine ⟨false, none, (ipfsCidProtobufDecodeAlloc_eq_ok hne).mpr ⟨none, hc, rfl⟩, ?_, fun _ => rfl⟩
      intro h
      cases h
    · by_cases hnew : allocs.New hash
      · refine ⟨true, _, (ipfsCidProtobufDecodeAlloc_eq_ok hne).mpr ⟨_, hc, cidDecodeFinish_new hhash hnew⟩, ?_, ?_⟩
        · intro _
          refine ⟨fields, hash, hc, hhash, ?_, rfl⟩
          -- the hash was not there at the start
          rcases hc.hash_eq fields rfl hash hhash with hstart | hbytes
          · cases hstart
          · exact hbytes
        · intro h
          exact absurd h (not_or.mpr (hgood hnew))
      · refine ⟨false, none, (ipfsCidProtobufDecodeAlloc_eq_ok hne).mpr ⟨_, hc, cidDecodeFinish_not_new hhash hnew⟩, ?_,
          fun _ => rfl⟩
        intro h
        cases h

/-- A message of a version and a hash is decoded safely. -/
theorem cid_decode_safe_iff_version_hash : CidDecodeSafe ⟨fun _ => true, true, true⟩ [8, 1, 26, 1, 7] := by
  have hversion : WireTag 1 .varint [8] := wireTag_byte rfl (by simp) (by simp)
  have hhash : WireTag 3 .lengthDelimited [26] := wireTag_byte rfl (by simp) (by simp)
  have hone : VarintForm [1] := .last (by simp)
  have hvalue : WireValue .lengthDelimited ([1] ++ [7]) := .lengthDelimited hone (by simp) rfl
  have hmessage : ProtobufMessage [1, 3] ([8] ++ ([1] ++ ([26] ++ ([1] ++ [7] ++ [])))) :=
    .field hversion (.varint hone (by simp)) (.field hhash hvalue .nil)
  have hrun : cidDecodeLoopAlloc ⟨fun _ => true, true, true⟩ [8, 1, 26, 1, 7] 6 0 ⟨0, 0, none⟩ =
      .ok (some ⟨1, 0, some [7]⟩) := by decide +kernel
  have hconsumes := (cidDecodeLoopAlloc_eq_ok (Nat.zero_le _) (by simp)).mp hrun
  apply (cid_decode_safe_iff _ _ (by simp)).mpr
  refine .inr ⟨_, [7], hconsumes, rfl, ?_⟩
  intro _
  exact hmessage.not_truncated_not_hashLess (by simp)

/-- A hash of which two bytes are declared and one is there is read past the end; without a field 3 the uninitialized
`hash` is used; and a complete message whose only field is the 64-bit field 8 is answered with a `Cid`, because the
bytes of its value are taken for fields. -/
theorem cid_decode_unsafe :
    let allocs : CidDecodeAllocs := ⟨fun _ => true, true, true⟩
    (ipfsCidProtobufDecodeAlloc allocs [26, 2, 1] = .error .outOfBounds ∧ ¬ CidDecodeSafe allocs [26, 2, 1]) ∧
      (ipfsCidProtobufDecodeAlloc allocs [8, 1] = .error .outOfBounds ∧ ¬ CidDecodeSafe allocs [8, 1]) ∧
      ipfsCidProtobufDecodeAlloc allocs [65, 26, 1, 7, 0, 0, 0, 0, 0] = .ok (true, some ⟨0, 0, [7]⟩) ∧
        HashLess [65, 26, 1, 7, 0, 0, 0, 0, 0] ∧ ¬ CidDecodeSafe allocs [65, 26, 1, 7, 0, 0, 0, 0, 0] := by
  intro allocs
  have hpast : ipfsCidProtobufDecodeAlloc allocs [26, 2, 1] = .error .outOfBounds := by decide +kernel
  have hunset : ipfsCidProtobufDecodeAlloc allocs [8, 1] = .error .outOfBounds := by decide +kernel
  have hother : ipfsCidProtobufDecodeAlloc allocs [65, 26, 1, 7, 0, 0, 0, 0, 0] = .ok (true, some ⟨0, 0, [7]⟩) := by
    decide +kernel
  have htag : WireTag 8 .bit64 [65] := wireTag_byte rfl (by simp) (by simp)
  have hvalue : WireValue .bit64 [26, 1, 7, 0, 0, 0, 0, 0] := .bit64 rfl
  have hless : HashLess ([65] ++ ([26, 1, 7, 0, 0, 0, 0, 0] ++ [])) := ⟨[8], .field htag hvalue .nil, by simp⟩
  refine ⟨⟨hpast, ?_⟩, ⟨hunset, ?_⟩, hother, hless, ?_⟩
  · rintro ⟨returned, output, h, -⟩
    rw [hpast] at h
    cases h
  · rintro ⟨returned, output, h, -⟩
    rw [hunset] at h
    cases h
  · rintro ⟨returned, output, h, -, hbad⟩
    rw [hother, hbad (.inr hless)] at h
    cases h

end Libcp2p

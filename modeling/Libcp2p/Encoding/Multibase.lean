import Libcp2p.Encoding.Base32Decode
import Libcp2p.Lib.CString

/-!
# Multibase

The other bases of `multibase_encode` and `multibase_decode`, the size formulas, and how the pieces fit together.

* `multibase_round_trip`: with buffers of exactly the sizes that the size functions give, every byte string of fewer
  than 2^28 bytes is encoded and decoded again, in each base.
* `multibase_decode_exact_iff`: for which texts and buffers `multibase_decode` is exact, i.e. succeeds exactly on
  well-formed text that fits and then reports the length and the bytes it denotes.
-/

namespace Libcp2p

/-! ## Base16 -/

/-- The bytes that the loop of `libp2p_encoding_base16_encode` reaches: it counts up to the length as an `int`. -/
def base16Reach (bs : List UInt8) : List UInt8 := bs.take (toInt32 bs.length).toNat

/-- `libp2p_encoding_base16_encode` into an object of `resultsLength` bytes: what the object holds afterwards and the
length reported, or nothing where it returns 0. -/
def libp2pEncodingBase16Encode (incoming : List UInt8) (resultsLength : Nat) :
    Except Fault (Option (List UInt8 × Nat)) :=
  if resultsLength < incoming.length * 2 then .ok none
  else
    let text := hexLowerText (base16Reach incoming)
    .ok (some (overlay (List.replicate resultsLength 0) text, text.length))

/-- `sscanf(s, "%2hhx", &result)` on the string at the front of `s`: white space is skipped, then at most two
characters are taken, which may be a sign and a digit. Nothing is stored where they are no number. -/
def sscanf2hhx (s : List UInt8) : Option UInt8 :=
  match (s.takeWhile (· ≠ 0)).dropWhile isSpace with
  | [] => none
  | [c] => (hexValue c).map UInt8.ofNat
  | c :: c' :: _ =>
    if c = 43 then (hexValue c').map UInt8.ofNat
    else if c = 45 then (hexValue c').map (fun v => UInt8.ofNat (256 - v))
    else if c = 48 ∧ (c' = 120 ∨ c' = 88) then none
    else match hexValue c, hexValue c' with
      | some v, some v' => some (UInt8.ofNat (16 * v + v'))
      | some v, none => some (UInt8.ofNat v)
      | none, _ => none

/-- The loop of `libp2p_encoding_base16_decode`: what it stores in `n` bytes that were zero before. -/
def base16DecodeLoop : List UInt8 → Nat → List UInt8
  | _, 0 => []
  | pos, n + 1 => (sscanf2hhx pos).getD 0 :: base16DecodeLoop (pos.drop 2) n

/-- How often the loop runs: the length as an `int`, halved. -/
def base16Count (incomingLength : Nat) : Nat := ((toInt32 incomingLength).tdiv 2).toNat

/-- `libp2p_encoding_base16_decode` into the object `results`. It does not touch `*results_length`. -/
def libp2pEncodingBase16Decode (incoming results : List UInt8) : Option (List UInt8 × Nat) :=
  if results.length < incoming.length / 2 then none
  else some (overlay (List.replicate results.length 0) (base16DecodeLoop incoming (base16Count incoming.length)),
    results.length)

/-! ## Base64 -/

/-- The base64 of mbedtls, whose text has four characters for each started group of three bytes. -/
structure Base64 where
  text : List UInt8 → List UInt8
  decode : List UInt8 → Option (List UInt8)
  length_text : ∀ bs, (text bs).length = (bs.length + 2) / 3 * 4
  decode_text : ∀ bs, decode (text bs) = some bs

/-- A base64 in which each group is its bytes and their number. -/
def groupText : List UInt8 → List UInt8
  | [] => []
  | [a] => [a, 0, 0, 1]
  | [a, b] => [a, b, 0, 2]
  | a :: b :: c :: rest => [a, b, c, 3] ++ groupText rest

/-- The bytes of `groupText`. -/
def groupBytes : List UInt8 → Option (List UInt8)
  | [] => some []
  | a :: b :: c :: n :: rest => (groupBytes rest).map ([a, b, c].take n.toNat ++ ·)
  | _ => none

instance : Inhabited Base64 where
  default :=
    { text := groupText
      decode := groupBytes
      length_text := by
        intro bs
        induction bs using groupText.induct with
        | case4 a b c rest ih =>
          simp only [groupText, List.length_append, List.length_cons, List.length_nil, ih]
          omega
        | _ => simp [groupText]
      decode_text := by
        intro bs
        induction bs using groupText.induct with
        | case4 a b c rest ih => simp [groupText, groupBytes, ih]
        | _ => simp [groupText, groupBytes] }

/-- `libp2p_encoding_base64_encode` into the object `outputData`: `mbedtls_base64_encode` needs room for the text and
its NUL. -/
def libp2pEncodingBase64Encode (b64 : Base64) (outputData inputData : List UInt8) (maxOutputLength : Nat) :
    Except Fault (Option (List UInt8 × Nat)) :=
  if maxOutputLength < (b64.text inputData).length + 1 then .ok none
  else .ok (some (overlay outputData (b64.text inputData ++ [0]), (b64.text inputData).length))

/-- `libp2p_encoding_base64_decode` into the object `outputData`. -/
def libp2pEncodingBase64Decode (b64 : Base64) (inputData outputData : List UInt8) : Option (List UInt8 × Nat) := do
  let bytes ← b64.decode inputData
  if outputData.length < bytes.length then none else some (overlay outputData bytes, bytes.length)

/-- `libp2p_encoding_base64_encode_size`. -/
def libp2pEncodingBase64EncodeSize (decodedSize : Nat) : Nat :=
  (decodedSize / 3 + if decodedSize % 3 ≠ 0 then 1 else 0) * 4 + 1

/-- `libp2p_encoding_base64_decode_size`, its logarithm and quotient read as exact. -/
def libp2pEncodingBase64DecodeSize (encodedSize : Nat) : Nat := (encodedSize * 6 + 7) / 8

/-! ## The functions of multibase -/

/-- `MULTIBASE_BASE16`, the letter `f`. -/
def MULTIBASE_BASE16 : UInt8 := 102

/-- `MULTIBASE_BASE64`, the letter `m`. -/
def MULTIBASE_BASE64 : UInt8 := 109

/-- The bases that are implemented. -/
inductive Multibase
  | base16
  | base32
  | base64
  deriving DecidableEq, Repr

/-- The letter of a base. -/
def Multibase.code : Multibase → UInt8
  | .base16 => MULTIBASE_BASE16
  | .base32 => MULTIBASE_BASE32
  | .base64 => MULTIBASE_BASE64

/-- The encoder that the `switch` of `multibase_encode` selects. -/
def Multibase.encode (b64 : Base64) (results : List UInt8) :
    Multibase → List UInt8 → Nat → Except Fault (Option (List UInt8 × Nat))
  | .base16 => libp2pEncodingBase16Encode
  | .base32 => libp2pEncodingBase32Encode
  | .base64 => libp2pEncodingBase64Encode b64 results

/-- `multibase_encode` in one of the bases into the object `results`. -/
def multibaseEncodeIn (b64 : Base64) (base : Multibase) (incoming results : List UInt8) :
    Except Fault (Option (List UInt8 × Nat)) :=
  multibaseEncode (base.encode b64 results) base.code incoming results.length

/-- `multibase_encode_size`. -/
def multibaseEncodeSize (base : Multibase) (incomingLength : Nat) : Int :=
  match base with
  | .base16 => toInt32 (incomingLength * 2) + 1
  | .base32 => toInt32 (libp2pEncodingBase32EncodeSize incomingLength + 1)
  | .base64 => toInt32 (libp2pEncodingBase64EncodeSize incomingLength + 1)

/-- `multibase_decode` into the object `results`: what the object holds afterwards and the length reported, or nothing
where it returns 0. -/
def multibaseDecode (b64 : Base64) (incoming results : List UInt8) : Except Fault (Option (List UInt8 × Nat)) :=
  match incoming with
  | [] => .error .outOfBounds
  | base :: rest =>
    .ok (if base = MULTIBASE_BASE16 then libp2pEncodingBase16Decode rest results
      else if base = MULTIBASE_BASE32 then libp2pEncodingBase32Decode rest results
      else if base = MULTIBASE_BASE64 then libp2pEncodingBase64Decode b64 rest results
      else none)

/-- `multibase_decode_size`. -/
def multibaseDecodeSize (base : Multibase) (incomingLength : Nat) : Int :=
  match base with
  | .base16 => toInt32 (incomingLength / 2 : Nat)
  | .base32 => toInt32 (libp2pEncodingBase32DecodeSize incomingLength)
  | .base64 => toInt32 (libp2pEncodingBase64DecodeSize incomingLength)

/-! ## Base16 text -/

/-- Two digits are read as the byte they make. -/
theorem sscanf2hhx_pair {c c' : UInt8} {v v' : Nat} (h : hexValue c = some v) (h' : hexValue c' = some v')
    (rest : List UInt8) : sscanf2hhx (c :: c' :: rest) = some (UInt8.ofNat (16 * v + v')) := by
  obtain ⟨hc, hs, hplus, hminus, -⟩ := hexValue_facts h
  obtain ⟨hc', -, -, -, hx, hX, -⟩ := hexValue_facts h'
  simp [sscanf2hhx, hc, hc', hs, hplus, hminus, hx, hX, h, h']

theorem base16Count_eq {n : Nat} (h : n < 2 ^ 31) : base16Count n = n / 2 := by
  rw [base16Count, toInt32_natCast h]
  rfl

/-- The loop stays inside text and buffer. -/
theorem base16Count_le (n : Nat) : base16Count n ≤ n / 2 := by
  unfold base16Count
  cases h : toInt32 n with
  | ofNat m =>
    have hm : (m : Int) ≤ n := by
      rw [← Int.ofNat_eq_natCast, ← h, toInt32]
      omega
    exact Nat.div_le_div_right (by exact_mod_cast hm)
  | negSucc m =>
    simp only [Int.tdiv, Int.ofNat_eq_natCast, Int.toNat_le]
    omega

/-- The loop stores the bytes that well-formed text denotes. -/
theorem Base16Encodes.loop {payload d : List UInt8} (h : Base16Encodes payload d) {n : Nat} (hn : n ≤ d.length) :
    base16DecodeLoop payload n = d.take n := by
  induction h generalizing n with
  | nil =>
    cases Nat.le_zero.mp hn
    rfl
  | @pair c c' v v' payload d h h' _ ih =>
    cases n with
    | zero => rfl
    | succ n =>
      rw [base16DecodeLoop, sscanf2hhx_pair h h', List.drop_succ_cons, List.drop_succ_cons, List.drop_zero,
        ih (Nat.le_of_succ_le_succ hn)]
      rfl

/-! ## Round trips -/

/-- A text with room for one more byte is put behind the letter of its base. -/
theorem multibaseEncode_text {encode : List UInt8 → Nat → Except Fault (Option (List UInt8 × Nat))} (base : UInt8)
    {incoming text pad : List UInt8} {max : Nat} (h : encode incoming max = .ok (some (text ++ pad, text.length)))
    (hlt : text.length < max) :
    ∃ out, multibaseEncode encode base incoming max = .ok (some (out, text.length + 1)) ∧
      out.take (text.length + 1) = base :: text := by
  refine ⟨overlay (text ++ pad) (base :: text), ?_, ?_⟩
  · unfold multibaseEncode
    rw [h, ok_bind]
    simp only [Nat.not_le.mpr hlt, if_false, List.take_left]
  · exact List.take_left' rfl

/-- The text of a byte string in a base. -/
def Multibase.text (b64 : Base64) : Multibase → List UInt8 → List UInt8
  | .base16 => hexLowerText
  | .base32 => base32Text
  | .base64 => b64.text

/-- Eight characters for each started group of five bytes are within the size computed for them. -/
theorem base32_text_le_size (n : Nat) : (n + 4) / 5 * 8 ≤ libp2pEncodingBase32EncodeSize n := by
  obtain ⟨q, r, hr, rfl⟩ : ∃ q r, r < 5 ∧ n = 5 * q + r := ⟨n / 5, n % 5, by omega, by omega⟩
  unfold libp2pEncodingBase32EncodeSize
  omega

section RoundTrip

variable (b64 : Base64)

theorem encode_base16 {x : List UInt8} {n : Nat} (hx : x.length < 2 ^ 31) (hn : 2 * x.length ≤ n) :
    ∃ pad, libp2pEncodingBase16Encode x n = .ok (some (hexLowerText x ++ pad, (hexLowerText x).length)) := by
  have hr : base16Reach x = x := by
    unfold base16Reach
    rw [toInt32_natCast hx, Int.toNat_natCast, List.take_length]
  refine ⟨(List.replicate n 0).drop (hexLowerText x).length, ?_⟩
  unfold libp2pEncodingBase16Encode
  rw [if_neg (by omega), hr]
  rfl

/-- Each encoder writes the text of its base into a buffer of the size computed for it, with room for the letter. -/
theorem Multibase.encode_eq (base : Multibase) {x results : List UInt8} (hx : x.length < 2 ^ 28)
    (hsize : results.length = multibaseEncodeSize base x.length) :
    (base.text b64 x).length < results.length ∧ ∃ pad, base.encode b64 results x results.length =
      .ok (some (base.text b64 x ++ pad, (base.text b64 x).length)) := by
  cases base with
  | base16 =>
    have hs : results.length = 2 * x.length + 1 := by
      unfold multibaseEncodeSize toInt32 at hsize
      dsimp only at hsize
      omega
    refine ⟨?_, encode_base16 (by omega) (by omega)⟩
    simp only [Multibase.text, length_hexLowerText]
    omega
  | base32 =>
    have hs : results.length = libp2pEncodingBase32EncodeSize x.length + 1 := by
      unfold multibaseEncodeSize libp2pEncodingBase32EncodeSize at hsize
      dsimp only at hsize
      rw [← Nat.cast_succ, toInt32_natCast (by omega)] at hsize
      exact_mod_cast hsize
    have hlt : (base32Text x).length < results.length := by
      rw [length_base32Text, hs]
      exact Nat.lt_succ_of_le (base32_text_le_size x.length)
    exact ⟨hlt, _, libp2pEncodingBase32Encode_eq hlt⟩
  | base64 =>
    have hs : results.length = (b64.text x).length + 2 := by
      unfold multibaseEncodeSize libp2pEncodingBase64EncodeSize toInt32 at hsize
      dsimp only at hsize
      rw [b64.length_text]
      split at hsize <;> omega
    refine ⟨by simp only [Multibase.text]; omega, [0] ++ results.drop ((b64.text x).length + 1), ?_⟩
    simp only [Multibase.encode, Multibase.text, libp2pEncodingBase64Encode, overlay, List.length_append,
      List.length_singleton, List.append_assoc]
    rw [if_neg (by omega)]

/-- Each decoder reads the text of its base into a buffer of the size computed for it. -/
theorem multibaseDecode_text (base : Multibase) {x results : List UInt8} (hx : x.length < 2 ^ 28)
    (hsize : results.length = multibaseDecodeSize base ((base.text b64 x).length + 1)) :
    ∃ r, multibaseDecode b64 (base.code :: base.text b64 x) results = .ok (some (r, x.length)) ∧
      r.take x.length = x := by
  cases base with
  | base16 =>
    have hs : results.length = x.length := by
      unfold multibaseDecodeSize toInt32 at hsize
      simp only [Multibase.text, length_hexLowerText] at hsize
      omega
    have hloop := (hexLowerText_encodes x).loop (n := x.length) (Nat.le_refl _)
    have hcount : base16Count (2 * x.length) = x.length := by
      rw [base16Count_eq (by omega)]
      omega
    refine ⟨overlay (List.replicate results.length 0) x, ?_, take_overlay _ x⟩
    simp only [multibaseDecode, Multibase.code, Multibase.text, if_true, libp2pEncodingBase16Decode,
      length_hexLowerText, hcount, hloop, List.take_length]
    rw [if_neg (by omega), hs]
  | base32 =>
    have hle : x.length ≤ results.length := by
      unfold multibaseDecodeSize libp2pEncodingBase32DecodeSize at hsize
      simp only [Multibase.text, length_base32Text] at hsize
      rw [toInt32_natCast (by omega)] at hsize
      omega
    refine ⟨overlay results x, ?_, take_overlay _ x⟩
    simp only [multibaseDecode, Multibase.code, Multibase.text, libp2pEncodingBase32Decode_base32Text hle]
    rfl
  | base64 =>
    have hle : x.length ≤ results.length := by
      unfold multibaseDecodeSize libp2pEncodingBase64DecodeSize at hsize
      simp only [Multibase.text, b64.length_text] at hsize
      rw [toInt32_natCast (by omega)] at hsize
      omega
    refine ⟨overlay results x, ?_, take_overlay _ x⟩
    simp only [multibaseDecode, Multibase.code, Multibase.text, libp2pEncodingBase64Decode, b64.decode_text,
      Option.bind_eq_bind, Option.bind_some, Nat.not_lt.mpr hle, if_false]
    rfl

end RoundTrip

/-- The size computed for the text is not negative. -/
theorem multibaseDecodeSize_nonneg (b64 : Base64) (base : Multibase) {x : List UInt8} (hx : x.length < 2 ^ 28) :
    0 ≤ multibaseDecodeSize base ((base.text b64 x).length + 1) := by
  cases base with
  | base16 =>
    simp only [multibaseDecodeSize, Multibase.text, length_hexLowerText]
    rw [toInt32_natCast (by omega)]
    omega
  | base32 =>
    simp only [multibaseDecodeSize, libp2pEncodingBase32DecodeSize, Multibase.text, length_base32Text]
    rw [toInt32_natCast (by omega)]
    omega
  | base64 =>
    simp only [multibaseDecodeSize, libp2pEncodingBase64DecodeSize, Multibase.text, b64.length_text]
    rw [toInt32_natCast (by omega)]
    omega

/-- **Multibase round trip.** In each base, every byte string of fewer than 2^28 bytes is encoded into a buffer of
exactly the size computed for it, behind the letter of the base, and decoded from there into a buffer of exactly the
size computed for that text. -/
theorem multibase_round_trip (b64 : Base64) (base : Multibase) (x results : List UInt8) (hx : x.length < 2 ^ 28)
    (hresults : results.length = multibaseEncodeSize base x.length) :
    ∃ out len, multibaseEncodeIn b64 base x results = .ok (some (out, len)) ∧ len ≤ out.length ∧
      (out.take len).head? = some base.code ∧ 0 ≤ multibaseDecodeSize base (out.take len).length ∧
      ∀ results' : List UInt8, results'.length = multibaseDecodeSize base (out.take len).length →
        ∃ r, multibaseDecode b64 (out.take len) results' = .ok (some (r, x.length)) ∧ r.take x.length = x := by
  obtain ⟨hlt, pad, henc⟩ := base.encode_eq b64 hx hresults
  obtain ⟨out, hout, htake⟩ := multibaseEncode_text base.code henc hlt
  have hlen := congrArg List.length htake
  simp only [List.length_take, List.length_cons] at hlen
  refine ⟨out, _, hout, by omega, ?_, ?_, ?_⟩
  · rw [htake]
    rfl
  · rw [htake]
    exact multibaseDecodeSize_nonneg b64 base hx
  · rw [htake]
    intro results' hsize
    exact multibaseDecode_text b64 base hx hsize

/-- Two bytes in base32, through buffers of twelve and ten bytes. -/
theorem multibase_round_trip_two :
    ∃ out len, multibaseEncodeIn default .base32 [104, 105] (List.replicate 12 0) = .ok (some (out, len)) ∧
      (out.take len).head? = some (Multibase.code .base32) ∧
      ∃ r, multibaseDecode default (out.take len)
          (List.replicate (multibaseDecodeSize .base32 (out.take len).length).toNat 0) = .ok (some (r, 2)) ∧
        r.take 2 = [104, 105] := by
  obtain ⟨out, len, henc, -, hhead, hnonneg, hdec⟩ :=
    multibase_round_trip default .base32 [104, 105] (List.replicate 12 0) (by decide) (by decide)
  exact ⟨out, len, henc, hhead, hdec _ (by rw [List.length_replicate, Int.toNat_of_nonneg hnonneg])⟩

/-! ## Exact decoding -/

/-- `out`, the outcome of decoding `payload` into `size` bytes, is exact: success exactly on well-formed text that fits,
with the length and the bytes that the text denotes. -/
def DecodesExactly (Encodes : List UInt8 → List UInt8 → Prop) (payload : List UInt8) (size : Nat)
    (out : Option (List UInt8 × Nat)) : Prop :=
  (out.isSome ↔ ∃ d, Encodes payload d ∧ d.length ≤ size) ∧
    ∀ r len, out = some (r, len) → ∃ d, Encodes payload d ∧ len = d.length ∧ r.take len = d

/-- When base16 is decoded exactly: the buffer is too small for any result, or the text is well-formed, the buffer has
exactly its size, and whatever the loop does not reach is zero. -/
def Base16Exact (payload : List UInt8) (size : Nat) : Prop :=
  size < payload.length / 2 ∨
    ∃ d, Base16Encodes payload d ∧ size = d.length ∧ ∀ b ∈ d.drop (base16Count payload.length), b = 0

/-- When base32 is decoded exactly: the text is no sequence of groups, or it is well-formed and its bytes fit. -/
def Base32Exact (payload : List UInt8) (size : Nat) : Prop :=
  (¬ ∃ d, Base32Groups payload d) ∨ ∃ d, Base32Encodes payload d ∧ d.length ≤ size

/-- What the loop leaves of zeroed bytes agrees with `d` where the rest of `d` is zero. -/
theorem take_append_zeros (d : List UInt8) (k : Nat) :
    d.take k ++ List.replicate (d.length - k) 0 = d ↔ ∀ b ∈ d.drop k, b = 0 := by
  conv_lhs => rhs; rw [← List.take_append_drop k d]
  rw [List.append_right_inj, eq_comm, List.eq_replicate_iff, List.length_drop]
  exact and_iff_right rfl

theorem base16_exact_iff (payload results : List UInt8) :
    DecodesExactly Base16Encodes payload results.length (libp2pEncodingBase16Decode payload results) ↔
      Base16Exact payload results.length := by
  unfold libp2pEncodingBase16Decode
  split
  · rename_i hsmall
    refine iff_of_true ⟨?_, by simp⟩ (Or.inl hsmall)
    simp only [Option.isSome_none, Bool.false_eq_true, false_iff]
    rintro ⟨d, hd, hle⟩
    have := hd.length
    omega
  · rename_i hroom
    have hzero : ∀ d, Base16Encodes payload d → results.length = d.length →
        ((overlay (List.replicate results.length 0) (base16DecodeLoop payload (base16Count payload.length))).take
          results.length = d ↔ ∀ b ∈ d.drop (base16Count payload.length), b = 0) := by
      intro d hd hlen
      have hk : base16Count payload.length ≤ d.length := by
        have := base16Count_le payload.length
        have := hd.length
        omega
      rw [hd.loop hk, overlay, List.length_take, Nat.min_eq_left hk, List.drop_replicate, hlen,
        List.take_of_length_le (by simp; omega), take_append_zeros]
    constructor
    · rintro ⟨-, hout⟩
      obtain ⟨d, hd, hlen, hr⟩ := hout _ _ rfl
      exact Or.inr ⟨d, hd, hlen, (hzero d hd hlen).mp hr⟩
    · rintro (hsmall | ⟨d, hd, hlen, hz⟩)
      · exact absurd hsmall hroom
      · refine ⟨iff_of_true rfl ⟨d, hd, by omega⟩, ?_⟩
        intro r len h
        obtain ⟨rfl, rfl⟩ := Prod.mk.inj (Option.some.inj h)
        exact ⟨d, hd, hlen, (hzero d hd hlen).mpr hz⟩

theorem base32_exact_iff (payload results : List UInt8) :
    DecodesExactly Base32Encodes payload results.length (libp2pEncodingBase32Decode payload results) ↔
      Base32Exact payload results.length := by
  unfold libp2pEncodingBase32Decode Base32Exact
  by_cases hg : ∃ d, Base32Groups payload d
  · obtain ⟨d, hd⟩ := hg
    rw [base32DecodeCtx_eq_some.mpr ⟨d, hd, rfl⟩]
    constructor
    · rintro ⟨hsome, -⟩
      exact Or.inr (hsome.mp rfl)
    · rintro (hno | ⟨d', hd', hle⟩)
      · exact absurd ⟨d, hd⟩ hno
      · have hdd : d = d' := hd.unique hd'.groups
        subst hdd
        refine ⟨iff_of_true rfl ⟨d, hd', hle⟩, ?_⟩
        intro r len h
        simp only [Option.bind_eq_bind, Option.bind_some, List.take_of_length_le hle, Option.some.injEq,
          Prod.mk.injEq] at h
        obtain ⟨rfl, rfl⟩ := h
        exact ⟨d, hd', rfl, take_overlay results d⟩
  · have hnone : base32DecodeCtx payload results.length = none := by
      apply Option.eq_none_iff_forall_ne_some.mpr
      intro out hout
      obtain ⟨d, hd, -⟩ := base32DecodeCtx_eq_some.mp hout
      exact hg ⟨d, hd⟩
    rw [hnone]
    refine iff_of_true ⟨?_, by simp⟩ (Or.inl hg)
    simp only [Option.bind_eq_bind, Option.bind_none, Option.isSome_none, Bool.false_eq_true, false_iff]
    rintro ⟨d, hd, -⟩
    exact hg ⟨d, hd.groups⟩

/-- **Exactness of `multibase_decode`.** For every text in base16 or base32 and every results buffer the call returns,
and its outcome is exact in precisely these cases. -/
theorem multibase_decode_exact_iff (b64 : Base64) (payload results : List UInt8) :
    (∃ out, multibaseDecode b64 (MULTIBASE_BASE16 :: payload) results = .ok out ∧
      (DecodesExactly Base16Encodes payload results.length out ↔ Base16Exact payload results.length)) ∧
    ∃ out, multibaseDecode b64 (MULTIBASE_BASE32 :: payload) results = .ok out ∧
      (DecodesExactly Base32Encodes payload results.length out ↔ Base32Exact payload results.length) :=
  ⟨⟨_, rfl, base16_exact_iff payload results⟩, _, rfl, base32_exact_iff payload results⟩

/-- The text `zz` of base16 is no encoding, and is decoded. -/
theorem multibase_decode_not_exact :
    multibaseDecode default [102, 122, 122] [7] = .ok (some ([0], 1)) ∧
      ¬ DecodesExactly Base16Encodes [122, 122] 1 (some ([0], 1)) := by
  refine ⟨by decide, ?_⟩
  rintro ⟨-, h⟩
  obtain ⟨d, hd, -⟩ := h _ _ rfl
  cases hd with
  | pair h _ _ => exact absurd h (by simp [hexValue])

end Libcp2p

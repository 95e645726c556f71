import Libcp2p.Lib.CMemory

/-!
# Base32, multibase and multihash

The writers that turn a digest into the text of a peer id: `base32Encode` writes as much of the base32 text of its
input as its buffer takes, `multibaseEncode` puts the code of the base in front of a text and `mhNew` puts the code of
the hash and the length in front of a digest.

`libp2pEncodingBase32Encode_eq` and `multibaseEncode_base32` say what is in the buffer when the text fits.
-/

namespace Libcp2p

/-! ## Base32 -/

/-- The alphabet. -/
def b32str : List Char :=
  ['A', 'B', 'C', 'D', 'E', 'F', 'G', 'H', 'I', 'J', 'K', 'L', 'M', 'N', 'O', 'P', 'Q', 'R', 'S', 'T', 'U', 'V', 'W',
    'X', 'Y', 'Z', '2', '3', '4', '5', '6', '7']

/-- `b32str[i & 0x1f]`. -/
def b32char (i : Nat) : UInt8 := UInt8.ofNat (b32str.getD (i &&& 0x1f) '=').toNat

/-- The padding character `=`. -/
def b32pad : UInt8 := 61

/-- What is no character of the alphabet is no `b32char`. -/
theorem ne_b32char {x : UInt8} (h : ∀ j < 32, x ≠ UInt8.ofNat (b32str.getD j '=').toNat) (i : Nat) : x ≠ b32char i :=
  h _ (Nat.lt_of_le_of_lt Nat.and_le_right (by decide))

/-- The characters that the loop of `base32_encode` produces, eight for each five bytes. In the last group the bits of
the missing bytes are zero and the characters made of them only are `=`. -/
def base32Text : List UInt8 → List UInt8
  | [] => []
  | [a] =>
    [b32char (a.toNat >>> 3), b32char (a.toNat <<< 2), b32pad, b32pad, b32pad, b32pad, b32pad, b32pad]
  | [a, b] =>
    [b32char (a.toNat >>> 3), b32char (a.toNat <<< 2 + b.toNat >>> 6), b32char (b.toNat >>> 1),
      b32char (b.toNat <<< 4), b32pad, b32pad, b32pad, b32pad]
  | [a, b, c] =>
    [b32char (a.toNat >>> 3), b32char (a.toNat <<< 2 + b.toNat >>> 6), b32char (b.toNat >>> 1),
      b32char (b.toNat <<< 4 + c.toNat >>> 4), b32char (c.toNat <<< 1), b32pad, b32pad, b32pad]
  | [a, b, c, d] =>
    [b32char (a.toNat >>> 3), b32char (a.toNat <<< 2 + b.toNat >>> 6), b32char (b.toNat >>> 1),
      b32char (b.toNat <<< 4 + c.toNat >>> 4), b32char (c.toNat <<< 1 + d.toNat >>> 7), b32char (d.toNat >>> 2),
      b32char (d.toNat <<< 3), b32pad]
  | a :: b :: c :: d :: e :: rest =>
    [b32char (a.toNat >>> 3), b32char (a.toNat <<< 2 + b.toNat >>> 6), b32char (b.toNat >>> 1),
      b32char (b.toNat <<< 4 + c.toNat >>> 4), b32char (c.toNat <<< 1 + d.toNat >>> 7), b32char (d.toNat >>> 2),
      b32char (d.toNat <<< 3 + e.toNat >>> 5), b32char e.toNat] ++ base32Text rest

/-- The number of characters, `BASE32_LENGTH` in the source. -/
theorem length_base32Text (bs : List UInt8) : (base32Text bs).length = (bs.length + 4) / 5 * 8 := by
  induction bs using base32Text.induct with
  | case6 a b c d e rest ih =>
    simp only [base32Text, List.length_append, List.length_cons, List.length_nil, ih]
    omega
  | _ => simp [base32Text]

/-- The text has characters of the alphabet and padding only. -/
theorem notMem_base32Text {x : UInt8} (h : ∀ j < 32, x ≠ UInt8.ofNat (b32str.getD j '=').toNat) (hp : x ≠ b32pad)
    (bs : List UInt8) : x ∉ base32Text bs := by
  have hc := ne_b32char h
  induction bs using base32Text.induct with
  | case1 => simp [base32Text]
  | case6 a b c d e rest ih => simp [base32Text, hc, ih]
  | _ => simp [base32Text, hc, hp]

theorem zero_notMem_base32Text (bs : List UInt8) : 0 ∉ base32Text bs := notMem_base32Text (by decide) (by decide) bs

/-- `base32_encode` into the object `out`: it stops where `out` ends, and ends the text with a NUL if there is room. -/
def base32Encode (incoming out : List UInt8) : List UInt8 :=
  let text := (base32Text incoming).take out.length
  overlay out (if text.length < out.length then text ++ [0] else text)

/-- `libp2p_encoding_base32_encode` into an object of `resultsLength` bytes: what the object holds afterwards and the
length reported. It always returns 1. -/
def libp2pEncodingBase32Encode (incoming : List UInt8) (resultsLength : Nat) :
    Except Fault (Option (List UInt8 × Nat)) :=
  let results := base32Encode incoming (List.replicate resultsLength 0)
  match results.getLast? with
  | none => .error .outOfBounds
  | some 0 => do
    let text ← cString results
    .ok (some (results, text.length))
  | some _ => .ok (some (results, resultsLength))

theorem base32Encode_replicate {bs : List UInt8} {n : Nat} (h : (base32Text bs).length < n) :
    base32Encode bs (List.replicate n 0) = base32Text bs ++ List.replicate (n - (base32Text bs).length) 0 := by
  have ht : (base32Text bs).take n = base32Text bs := List.take_of_length_le (Nat.le_of_lt h)
  unfold base32Encode overlay
  simp only [List.length_replicate, ht, h, if_true, List.length_append, List.length_cons, List.length_nil,
    List.drop_replicate, List.append_assoc, List.cons_append, List.nil_append]
  congr 1
  rw [← List.replicate_succ]
  congr 1
  omega

/-- A text with room for its NUL is written whole, and its length is reported. -/
theorem libp2pEncodingBase32Encode_eq {bs : List UInt8} {n : Nat} (h : (base32Text bs).length < n) :
    libp2pEncodingBase32Encode bs n =
      .ok (some (base32Text bs ++ List.replicate (n - (base32Text bs).length) 0, (base32Text bs).length)) := by
  obtain ⟨k, hk⟩ : ∃ k, n - (base32Text bs).length = k + 1 := ⟨n - (base32Text bs).length - 1, by omega⟩
  have hlast : (base32Text bs ++ List.replicate (k + 1) (0 : UInt8)).getLast? = some 0 := by
    rw [List.replicate_succ', ← List.append_assoc, List.getLast?_concat]
  unfold libp2pEncodingBase32Encode
  simp only [base32Encode_replicate h, hk, hlast]
  rw [List.replicate_succ, cString_append (zero_notMem_base32Text bs), ok_bind]

/-! ## Multibase -/

/-- `MULTIBASE_BASE32`, the letter `b`. -/
def MULTIBASE_BASE32 : UInt8 := 98

/-- `multibase_encode` into an object of `resultsMaxLength` bytes, with the encoder that the `switch` on `base` selects:
what the object holds afterwards and the length reported, or nothing where it returns 0. -/
def multibaseEncode (encode : List UInt8 → Nat → Except Fault (Option (List UInt8 × Nat))) (base : UInt8)
    (incoming : List UInt8) (resultsMaxLength : Nat) : Except Fault (Option (List UInt8 × Nat)) := do
  match ← encode incoming resultsMaxLength with
  | none => .ok none
  | some (results, resultsLength) =>
    if resultsMaxLength ≤ resultsLength then .ok none
    else .ok (some (overlay results (base :: results.take resultsLength), resultsLength + 1))

theorem multibaseEncode_base32 {bs : List UInt8} {n : Nat} (h : (base32Text bs).length < n) :
    multibaseEncode libp2pEncodingBase32Encode MULTIBASE_BASE32 bs n =
      .ok (some (MULTIBASE_BASE32 :: base32Text bs ++ List.replicate (n - (base32Text bs).length - 1) 0,
        (base32Text bs).length + 1)) := by
  unfold multibaseEncode overlay
  rw [libp2pEncodingBase32Encode_eq h, ok_bind]
  simp only [Nat.not_le.mpr h, if_false, List.take_left, List.length_cons, Except.ok.injEq, Option.some.injEq,
    Prod.mk.injEq, and_true]
  rw [← List.drop_drop, List.drop_left, List.drop_replicate, List.cons_append]

/-! ## Multihash -/

/-- The errors of the multihash functions. -/
inductive MhError
  | tooShort
  | tooLong
  | varintNotSupported
  | digsetTooLong
  deriving DecidableEq, Repr

/-- `MH_H_SHA2_256`. -/
def MH_H_SHA2_256 : Nat := 0x12

/-- `mh_new` into the object `buffer`: what the object holds afterwards, or the error returned. -/
def mhNew (buffer : List UInt8) (code : Nat) (digest : List UInt8) : Except Fault (Except MhError (List UInt8)) :=
  if code &&& 0x80 ≠ 0 then .ok (.error .varintNotSupported)
  else if 127 < digest.length then .ok (.error .digsetTooLong)
  else if digest.length + 2 ≤ buffer.length then
    .ok (.ok (overlay buffer (UInt8.ofNat code :: UInt8.ofNat digest.length :: digest)))
  else .error .outOfBounds

end Libcp2p

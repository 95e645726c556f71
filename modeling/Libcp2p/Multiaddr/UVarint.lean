import Libcp2p.Multiaddr.VarHex

/-!
# The varints of `utils/varint.h`

`DEFN_ENCODER` and `DEFN_DECODER` for 32 and 64 bits, with the number of bytes that they return. The encoder sets the
top bit of every byte, the last one included, and the decoder goes on as long as it finds that bit; both stop after as
many bytes as the type has, which is one seventh of its bits too few.

* `uvarintEncode32_eq`, `uvarintDecode32_eq`: the functions of `Libcp2p.Multiaddr.VarHex` are these, without the count.
* `uvarintEncode_isSome_iff`: which numbers are encodable.
* `uvarintDecode_marked`: no number of bytes is returned for marked bytes.
* `uvarint_round_trip_iff`: no number is read back.
-/

namespace Libcp2p

/-! ## The functions -/

/-- What `uvarint_encode` returns, nothing for -1, and the bytes it has written. -/
structure UVarintEncoded where
  count : Option Nat
  written : List UInt8
  deriving DecidableEq, Repr

/-- The loop of `DEFN_ENCODER` at index `i`, with `left` iterations at most. -/
def uvarintEncodeLoop : (left i val : Nat) → UVarintEncoded
  | 0, _, _ => ⟨none, []⟩
  | left + 1, i, val =>
    let byte := UInt8.ofNat (val &&& 0xFF ||| 0x80)
    if val >>> 7 = 0 then ⟨some (i + 1), [byte]⟩
    else
      let rest := uvarintEncodeLoop left (i + 1) (val >>> 7)
      ⟨rest.count, byte :: rest.written⟩

/-- `uvarint_encode32` and `uvarint_encode64`, with `size` the number of bits. -/
def uvarintEncode (size val bufsize : Nat) : UVarintEncoded := uvarintEncodeLoop (min (size / 8) bufsize) 0 val

/-- The loop of `DEFN_DECODER` at index `i`: what is returned, nothing for -1, and `*val`. The low bits are shifted as
an `int`, which is then converted to the type of `*val`. -/
def uvarintDecodeLoop (size : Nat) : (i val : Nat) → List UInt8 → Except Fault (Option Nat × Nat)
  | _, val, [] => .ok (none, val)
  | i, val, b :: buf =>
    if 32 ≤ 7 * i then .error .shift
    else
      let val := val ||| toUInt64 (toInt32 ((b.toNat &&& 0x7f) <<< (7 * i) : Nat)) % 2 ^ size
      if b &&& 0x80 = 0 then .ok (some (i + 1), val) else uvarintDecodeLoop size (i + 1) val buf

/-- `uvarint_decode32` and `uvarint_decode64`, with `size` the number of bits. -/
def uvarintDecode (size : Nat) (buf : List UInt8) : Except Fault (Option Nat × Nat) :=
  uvarintDecodeLoop size 0 0 (buf.take (size / 8))

/-! ## The functions without the count -/

/-- The bytes are those of `uvarintEncode32`. -/
theorem uvarintEncode32_eq (left i val : Nat) : uvarintEncode32 val left = (uvarintEncodeLoop left i val).written := by
  induction left generalizing i val with
  | zero => rfl
  | succ left ih =>
    have hbyte : val &&& 0xFF = val % 256 := Nat.and_two_pow_sub_one_eq_mod val 8
    rw [uvarintEncode32, uvarintEncodeLoop, hbyte]
    by_cases h : val >>> 7 = 0
    · simp [h]
    · simp only [if_neg h]
      rw [ih (i + 1)]

/-- A group of seven bits that is shifted inside 32 bits. -/
theorem shifted_group {b : UInt8} {i : Nat} (hi : i < 4) :
    toUInt64 (toInt32 ((b.toNat &&& 0x7f) <<< (7 * i) : Nat)) % 2 ^ 32 = (b.toNat &&& 0x7f) <<< (7 * i) := by
  have hlow : b.toNat &&& 0x7f = b.toNat % 128 := Nat.and_two_pow_sub_one_eq_mod _ 7
  have hlt : (b.toNat % 128) * 2 ^ (7 * i) < 2 ^ 28 := by
    have hpow : 2 ^ (7 * i) ≤ 2 ^ 21 := Nat.pow_le_pow_right (by omega) (by omega)
    have hmul := Nat.mul_le_mul (show b.toNat % 128 ≤ 127 by omega) hpow
    omega
  rw [hlow, Nat.shiftLeft_eq]
  generalize b.toNat % 128 * 2 ^ (7 * i) = n at hlt
  unfold toUInt64 toInt32
  omega

/-- The value is that of `uvarintDecode32`. -/
theorem uvarintDecodeLoop_eq {buf : List UInt8} {i val : Nat} (h : i + buf.length ≤ 4) :
    ∃ count, uvarintDecodeLoop 32 i val buf = .ok (count, uvarintDecode32Loop i val buf) := by
  induction buf generalizing i val with
  | nil => exact ⟨none, rfl⟩
  | cons b buf ih =>
    rw [List.length_cons] at h
    rw [uvarintDecodeLoop, uvarintDecode32Loop, if_neg (by omega), shifted_group (by omega)]
    by_cases hb : b &&& 0x80 = 0
    · exact ⟨some (i + 1), by simp [hb]⟩
    · simp only [if_neg hb]
      exact ih (by omega)

theorem uvarintDecode32_eq (buf : List UInt8) : ∃ count, uvarintDecode 32 buf = .ok (count, uvarintDecode32 buf) := by
  apply uvarintDecodeLoop_eq
  rw [List.length_take]
  omega

/-! ## Encoding -/

/-- A number of more than one group is written as its low group and the rest. -/
theorem uvarintEncodeLoop_more {left i val : Nat} (h : 128 ≤ val) :
    uvarintEncodeLoop (left + 1) i val = ⟨(uvarintEncodeLoop left (i + 1) (val / 128)).count,
      UInt8.ofNat (val &&& 0xFF ||| 0x80) :: (uvarintEncodeLoop left (i + 1) (val / 128)).written⟩ := by
  have hshift : val >>> 7 = val / 128 := Nat.shiftRight_eq_div_pow val 7
  rw [uvarintEncodeLoop, hshift, if_neg (by omega)]

theorem uvarintEncodeLoop_last {left i val : Nat} (h : val < 128) :
    uvarintEncodeLoop (left + 1) i val = ⟨some (i + 1), [UInt8.ofNat (val &&& 0xFF ||| 0x80)]⟩ := by
  have hshift : val >>> 7 = val / 128 := Nat.shiftRight_eq_div_pow val 7
  rw [uvarintEncodeLoop, hshift, if_pos (by omega)]

/-- The top bit of every byte is set. -/
theorem uvarintEncodeLoop_marked (left i val : Nat) : ∀ b ∈ (uvarintEncodeLoop left i val).written, 128 ≤ b.toNat := by
  have hmark (n : Nat) : 128 ≤ (UInt8.ofNat (n &&& 0xFF ||| 0x80)).toNat := by
    rw [toNat_marked]
    omega
  induction left generalizing i val with
  | zero =>
    intro b hb
    cases hb
  | succ left ih =>
    intro b hb
    by_cases h : val < 128
    · rw [uvarintEncodeLoop_last h] at hb
      rw [List.mem_singleton.mp hb]
      exact hmark val
    · rw [uvarintEncodeLoop_more (by omega)] at hb
      rcases List.mem_cons.mp hb with rfl | hb
      · exact hmark val
      · exact ih _ _ b hb

/-- The count is that of the bytes written. -/
theorem uvarintEncodeLoop_count {left i val n : Nat} (h : (uvarintEncodeLoop left i val).count = some n) :
    n = i + (uvarintEncodeLoop left i val).written.length := by
  induction left generalizing i val with
  | zero => cases h
  | succ left ih =>
    by_cases hval : val < 128
    · rw [uvarintEncodeLoop_last hval] at h ⊢
      exact (Option.some.inj h).symm
    · rw [uvarintEncodeLoop_more (by omega)] at h ⊢
      rw [ih h, List.length_cons]
      omega

/-- Only the groups of seven bits that there are iterations for can be written. -/
theorem uvarintEncodeLoop_isSome_iff (left i val : Nat) :
    (uvarintEncodeLoop (left + 1) i val).count.isSome ↔ val < 128 ^ (left + 1) := by
  induction left generalizing i val with
  | zero =>
    by_cases h : val < 128
    · simp [uvarintEncodeLoop_last h, h]
    · rw [uvarintEncodeLoop_more (Nat.not_lt.mp h), uvarintEncodeLoop]
      simp [h]
  | succ left ih =>
    by_cases h : val < 128
    · have hpow : 128 ≤ 128 ^ (left + 1 + 1) := Nat.le_self_pow (by omega) 128
      simp [uvarintEncodeLoop_last h, Nat.lt_of_lt_of_le h hpow]
    · rw [uvarintEncodeLoop_more (Nat.not_lt.mp h), ih, Nat.pow_succ 128 (left + 1)]
      exact Nat.div_lt_iff_lt_mul (by omega)

/-! ## Decoding -/

/-- From marked bytes no count is returned. -/
theorem uvarintDecodeLoop_marked {size i val : Nat} {buf : List UInt8} {r : Option Nat × Nat}
    (hmarked : ∀ b ∈ buf, 128 ≤ b.toNat) (h : uvarintDecodeLoop size i val buf = .ok r) : r.1 = none := by
  induction buf generalizing i val with
  | nil =>
    cases h
    rfl
  | cons b buf ih =>
    have hb := hmarked b List.mem_cons_self
    rw [uvarintDecodeLoop] at h
    split at h
    · cases h
    · dsimp only at h
      rw [if_neg (mt (and_0x80_eq_zero b).mp (by omega))] at h
      exact ih (fun b hb => hmarked b (List.mem_cons_of_mem _ hb)) h

theorem uvarintDecode_marked {size : Nat} {buf : List UInt8} {r : Option Nat × Nat}
    (hmarked : ∀ b ∈ buf, 128 ≤ b.toNat) (h : uvarintDecode size buf = .ok r) : r.1 = none :=
  uvarintDecodeLoop_marked (fun b hb => hmarked b (List.mem_of_mem_take hb)) h

/-! ## Reader after writer -/

/-- The encoder returns the number of bytes it has written, at least one, and from these the decoder returns the same
number and the value. -/
def UVarintRoundTrip (size v bufsize : Nat) : Prop :=
  ∃ n, (uvarintEncode size v bufsize).count = some n ∧ 1 ≤ n ∧ (uvarintEncode size v bufsize).written.length = n ∧
    uvarintDecode size (uvarintEncode size v bufsize).written = .ok (some n, v)

/-- The encodable numbers of a type with a buffer for all of them. -/
theorem uvarintEncode_isSome_iff {size v bufsize : Nat} (hsize : size = 32 ∨ size = 64)
    (hbuf : (size + 6) / 7 ≤ bufsize) :
    (uvarintEncode size v bufsize).count.isSome ↔ v < 2 ^ (7 * (size / 8)) := by
  have hmin : min (size / 8) bufsize = size / 8 := Nat.min_eq_left (by omega)
  rw [uvarintEncode, hmin, Nat.pow_mul]
  rcases hsize with rfl | rfl
  · exact uvarintEncodeLoop_isSome_iff 3 0 v
  · exact uvarintEncodeLoop_isSome_iff 7 0 v

/-- **Varints of `utils/varint.h`.** In a buffer that has room for every number of the type, a number is reported as
encodable exactly if it fits in seven bits for each byte of the type, with the count of the bytes written; the decoder
returns no count for the bytes of any number, and so no number of the type is read back. -/
theorem uvarint_round_trip_iff (size v bufsize : Nat) (hsize : size = 32 ∨ size = 64)
    (hbuf : (size + 6) / 7 ≤ bufsize) :
    ((uvarintEncode size v bufsize).count.isSome ↔ v < 2 ^ (7 * (size / 8))) ∧
    (∀ n, (uvarintEncode size v bufsize).count = some n → (uvarintEncode size v bufsize).written.length = n) ∧
    (∀ r, uvarintDecode size (uvarintEncode size v bufsize).written = .ok r → r.1 = none) ∧
    (UVarintRoundTrip size v bufsize ↔ False) := by
  have hnone : ∀ r, uvarintDecode size (uvarintEncode size v bufsize).written = .ok r → r.1 = none :=
    fun r hr => uvarintDecode_marked (uvarintEncodeLoop_marked _ 0 v) hr
  refine ⟨uvarintEncode_isSome_iff hsize hbuf, ?_, hnone, ?_⟩
  · intro n hn
    have hcount := uvarintEncodeLoop_count hn
    rw [Nat.zero_add] at hcount
    exact hcount.symm
  · constructor
    · rintro ⟨n, -, -, -, hdec⟩
      cases hnone _ hdec
    · exact False.elim

/-- The number 1 of 32 bits, with five bytes. -/
theorem uvarint_round_trip_iff_one :
    ((uvarintEncode 32 1 5).count.isSome ↔ 1 < 2 ^ (7 * (32 / 8))) ∧
    (∀ n, (uvarintEncode 32 1 5).count = some n → (uvarintEncode 32 1 5).written.length = n) ∧
    (∀ r, uvarintDecode 32 (uvarintEncode 32 1 5).written = .ok r → r.1 = none) ∧
    (UVarintRoundTrip 32 1 5 ↔ False) :=
  uvarint_round_trip_iff 32 1 5 (.inl rfl) (by omega)

/-- The number 1 is written as one byte that is not the last one of any number; `2 ^ 28` is not encodable in 32 bits,
and the decoder of 64 bits shifts past an `int` at the sixth byte. -/
theorem uvarint_not_read_back :
    uvarintEncode 32 1 5 = ⟨some 1, [0x81]⟩ ∧ uvarintDecode 32 [0x81] = .ok (none, 1) ∧
      (uvarintEncode 32 (2 ^ 28) 5).count = none ∧
      uvarintDecode 64 (uvarintEncode 64 (2 ^ 35) 10).written = .error .shift := by
  decide

end Libcp2p

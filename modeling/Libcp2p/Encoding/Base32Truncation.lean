import Libcp2p.Encoding.Rfc4648

/-!
# Base32 text that does not fit

`base32_encode` stops after any of the eight characters of a group when its buffer is full, and
`libp2p_encoding_base32_encode` returns 1 whether or not the text was complete.

* `base32EncodeLoop_eq`: the loop of the source, character by character, writes as much of `base32Text` as fits.
* `base32_encode_complete_iff`: the value returned says that the text is complete exactly if there is room for all of
  it.
-/

namespace Libcp2p

/-! ## The loop -/

/-- The eight values that one round of `base32_encode` writes, from the bytes at `in`; `inlen` runs out where there is
no byte any more. -/
def base32EncodeGroup (a : UInt8) (rest : List UInt8) : List UInt8 :=
  let b := rest[0]?
  let c := rest[1]?
  let d := rest[2]?
  let e := rest[3]?
  let bits (byte : Option UInt8) (shift : Nat) : Nat := (byte.map fun byte => byte.toNat >>> shift).getD 0
  let char (byte : Option UInt8) (value : Nat → Nat) : UInt8 :=
    (byte.map fun byte => b32char (value byte.toNat)).getD b32pad
  [b32char (a.toNat >>> 3), b32char (a.toNat <<< 2 + bits b 6), char b (· >>> 1), char b (· <<< 4 + bits c 4),
    char c (· <<< 1 + bits d 7), char d (· >>> 2), char d (· <<< 3 + bits e 5), char e id]

/-- `*out++ = c; if (!--outlen) break;` for one value after another: what is written, and `outlen` if it is not used
up. -/
def writeChars : List UInt8 → Nat → List UInt8 × Option Nat
  | [], outlen => ([], some outlen)
  | c :: chars, outlen =>
    if outlen - 1 = 0 then ([c], none)
    else
      let (written, left) := writeChars chars (outlen - 1)
      (c :: written, left)

/-- The loop of `base32_encode`. Every round uses up a byte at least, so `fuel` above their number never runs out. -/
def base32EncodeLoop : (fuel : Nat) → (incoming : List UInt8) → (outlen : Nat) → List UInt8
  | fuel + 1, a :: rest, outlen =>
    if outlen = 0 then []
    else
      match writeChars (base32EncodeGroup a rest) outlen with
      | (written, none) => written
      | (written, some outlen) => written ++ base32EncodeLoop fuel (rest.drop 4) outlen
  | _, _, _ => []

theorem writeChars_eq {chars : List UInt8} {outlen : Nat} (h : outlen ≠ 0) :
    writeChars chars outlen =
      (chars.take outlen, if outlen ≤ chars.length then none else some (outlen - chars.length)) := by
  induction chars generalizing outlen with
  | nil => simp [writeChars, h]
  | cons c chars ih =>
    obtain ⟨n, rfl⟩ := Nat.exists_eq_succ_of_ne_zero h
    rw [writeChars, Nat.succ_sub_one, List.take_succ_cons]
    by_cases hn : n = 0
    · simp [hn]
    · rw [if_neg hn, ih hn]
      simp only [List.length_cons, Nat.succ_eq_add_one, Nat.add_le_add_iff_right, Nat.add_sub_add_right]

/-- One group of the text. -/
theorem base32Text_cons (a : UInt8) (rest : List UInt8) :
    base32Text (a :: rest) = base32EncodeGroup a rest ++ base32Text (rest.drop 4) := by
  cases rest with
  | nil => rfl
  | cons b rest =>
    cases rest with
    | nil => rfl
    | cons c rest =>
      cases rest with
      | nil => rfl
      | cons d rest =>
        cases rest with
        | nil => rfl
        | cons e rest => rfl

/-- **The loop of the source** writes the beginning of the text. -/
theorem base32EncodeLoop_eq {fuel : Nat} {incoming : List UInt8} (h : incoming.length ≤ fuel) (outlen : Nat) :
    base32EncodeLoop fuel incoming outlen = (base32Text incoming).take outlen := by
  induction fuel generalizing incoming outlen with
  | zero =>
    rw [List.eq_nil_of_length_eq_zero (Nat.le_zero.mp h)]
    simp [base32EncodeLoop, base32Text]
  | succ fuel ih =>
    cases incoming with
    | nil => simp [base32EncodeLoop, base32Text]
    | cons a rest =>
      rw [base32EncodeLoop, base32Text_cons]
      by_cases hout : outlen = 0
      · simp [hout]
      · rw [if_neg hout, writeChars_eq hout]
        have hlen : (base32EncodeGroup a rest).length = 8 := rfl
        by_cases hfull : outlen ≤ (base32EncodeGroup a rest).length
        · rw [if_pos hfull, List.take_append_of_le_length hfull]
        · rw [if_neg hfull]
          dsimp only
          rw [ih (by rw [List.length_drop]; rw [List.length_cons] at h; omega), List.take_append,
            List.take_of_length_le (by omega)]

/-- `base32_encode`, with its loop. -/
theorem base32Encode_eq_loop (incoming out : List UInt8) :
    base32Encode incoming out =
      let text := base32EncodeLoop incoming.length incoming out.length
      overlay out (if text.length < out.length then text ++ [0] else text) := by
  rw [base32EncodeLoop_eq (Nat.le_refl _)]
  rfl

/-! ## The value returned -/

/-- 1 is returned only with the complete text and its length, and 0 where there is no room for it. -/
def Base32EncodeComplete (incoming : List UInt8) (resultsLength : Nat) : Prop :=
  (∀ results length, libp2pEncodingBase32Encode incoming resultsLength = .ok (some (results, length)) →
    length = (rfc4648Base32 incoming).length ∧ results.take length = rfc4648Base32 incoming) ∧
  (resultsLength < (rfc4648Base32 incoming).length → libp2pEncodingBase32Encode incoming resultsLength = .ok none)

section Returned

variable {incoming : List UInt8} {m : Nat}

/-- A buffer that is filled holds the beginning of the text, and is reported with its own size. -/
theorem libp2pEncodingBase32Encode_full (hpos : 1 ≤ m) (h : m ≤ (base32Text incoming).length) :
    libp2pEncodingBase32Encode incoming m = .ok (some ((base32Text incoming).take m, m)) := by
  have hlen : ((base32Text incoming).take m).length = m := List.length_take_of_le h
  have hresults : base32Encode incoming (List.replicate m 0) = (base32Text incoming).take m := by
    unfold base32Encode overlay
    simp only [List.length_replicate, hlen, Nat.lt_irrefl, if_false, List.drop_replicate, Nat.sub_self,
      List.replicate_zero, List.append_nil]
  unfold libp2pEncodingBase32Encode
  rw [hresults]
  dsimp only
  split
  · rename_i hlast
    rw [List.getLast?_eq_none_iff] at hlast
    rw [hlast, List.length_nil] at hlen
    omega
  · rename_i hlast
    exact absurd (List.mem_of_mem_take (List.mem_of_getLast? hlast)) (zero_notMem_base32Text incoming)
  · rfl

end Returned

/-- **The value returned** by `libp2p_encoding_base32_encode` says whether the text is complete exactly when the buffer
has room for all of it; otherwise 1 is returned with the part that fits. -/
theorem base32_encode_complete_iff (incoming : List UInt8) (m : Nat) (hm : 1 ≤ m) :
    (Base32EncodeComplete incoming m ↔ (incoming.length + 4) / 5 * 8 ≤ m) ∧
    (m < (incoming.length + 4) / 5 * 8 →
      libp2pEncodingBase32Encode incoming m = .ok (some ((rfc4648Base32 incoming).take m, m))) := by
  have hlen := length_base32Text incoming
  unfold Base32EncodeComplete
  rw [← base32Text_eq_rfc4648, ← hlen]
  refine ⟨?_, fun h => libp2pEncodingBase32Encode_full hm (Nat.le_of_lt h)⟩
  constructor
  · rintro ⟨-, hnull⟩
    by_contra hshort
    have hfull := libp2pEncodingBase32Encode_full hm (Nat.le_of_lt (Nat.not_le.mp hshort))
    rw [hnull (Nat.not_le.mp hshort)] at hfull
    cases hfull
  · intro hroom
    refine ⟨?_, fun hshort => absurd hroom (Nat.not_le.mpr hshort)⟩
    intro results length hr
    rcases Nat.lt_or_eq_of_le hroom with hlt | heq
    · rw [libp2pEncodingBase32Encode_eq hlt] at hr
      cases hr
      exact ⟨rfl, List.take_left⟩
    · rw [libp2pEncodingBase32Encode_full hm (Nat.le_of_eq heq.symm)] at hr
      cases hr
      rw [← heq, List.take_length, List.take_length]
      exact ⟨rfl, rfl⟩

/-- One byte and a buffer of eight. -/
theorem base32_encode_complete_iff_one :
    (Base32EncodeComplete [7] 8 ↔ (1 + 4) / 5 * 8 ≤ 8) ∧
    (8 < (1 + 4) / 5 * 8 → libp2pEncodingBase32Encode [7] 8 = .ok (some ((rfc4648Base32 [7]).take 8, 8))) :=
  base32_encode_complete_iff [7] 8 (by omega)

/-- One byte and a buffer of one: 1 is returned with the first of eight characters. -/
theorem base32_encode_truncated :
    libp2pEncodingBase32Encode [7] 1 = .ok (some ([65], 1)) ∧ (rfc4648Base32 [7]).length = 8 := by
  decide

end Libcp2p

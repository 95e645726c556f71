import Libcp2p.Lib.CMemory

/-!
# The protobuf wire format

Variable-length integers (`varintEncode`, `varintDecode`) and the fields made of them. The writers put their bytes into
an object of `room` bytes and are told a length that they only use in an `assert`; the readers are given the bytes of
the object from where they start.

* `varintEncode_ok_iff`: where there is room for the bytes that `varintEncodingLength` says, a number is written exactly
  when the `assert` does not fail, which compares with the length of the object cut to an `int` (`VarintTold`).
* `varintDecode_eq_ok`: `varint_decode` returns exactly on varints of at most ten bytes, inside the length it is told.
* `varintDecode_append`: what was written is read back, whatever follows it.
* `varint_round_trip`: in a buffer of ten bytes every 64-bit number is written and read back, and no varint is the
  beginning of another.
* `protobufDecodeFieldAndType_append` and `protobufDecodeLengthDelimited_append`: fields are read back.
-/

namespace Libcp2p

/-! ## Varints -/

/-- The loop of `varint_encode`, with `room` bytes left at `ptr`, which is `pos` bytes behind `buf`. The mask `MSBALL`
is -128 as a `char`, so it tests every bit above the low seven. -/
def varintEncodeLoop : (room pos copy : Nat) → (len : Int) → Except Fault (List UInt8)
  | 0, _, _, _ => .error .outOfBounds
  | room + 1, pos, copy, len =>
    if copy >>> 7 ≠ 0 then
      if ((pos + 1 : Nat) : Int) < len then do
        let rest ← varintEncodeLoop room (pos + 1) (copy >>> 7) len
        .ok (UInt8.ofNat (copy &&& 0xFF ||| 0x80) :: rest)
      else .error .assertion
    else .ok [UInt8.ofNat copy]

/-- `varint_encoding_length`. -/
def varintEncodingLength (n : Nat) : Nat :=
  if n < 128 then 1
  else if n < 16384 then 2
  else if n < 2097152 then 3
  else if n < 268435456 then 4
  else if n < 34359738368 then 5
  else if n < 4398046511104 then 6
  else if n < 562949953421312 then 7
  else if n < 72057594037927936 then 8
  else if n < 9223372036854775808 then 9
  else 10

/-- `varint_encode` into an object of `room` bytes, told the length `len`: the bytes written. -/
def varintEncodeTold (n room : Nat) (len : Int) : Except Fault (List UInt8) := varintEncodeLoop room 0 n len

/-- `varint_encode` into an object of `room` bytes, told its length: the bytes written. -/
def varintEncode (n room : Nat) : Except Fault (List UInt8) := varintEncodeLoop room 0 n (toInt32 room)

/-- The loop of `varint_decode`, `pos` bytes behind `buf`: the value and the number of bytes processed. -/
def varintDecodeLoop : (bytes : List UInt8) → (pos result : Nat) → (len : Int) → Except Fault (Nat × Nat)
  | [], _, _, _ => .error .outOfBounds
  | byte :: bytes, pos, result, len =>
    if 64 ≤ 7 * pos then .error .shift
    else
      let result := (result + (byte.toNat &&& 0x7F) <<< (7 * pos)) % 2 ^ 64
      if byte &&& 0x80 ≠ 0 then
        if ((pos + 1 : Nat) : Int) < len then varintDecodeLoop bytes (pos + 1) result len
        else .error .assertion
      else .ok (result, pos + 1)

/-- `varint_decode` from the bytes at `buf`, told the length `len`. -/
def varintDecode (bytes : List UInt8) (len : Int) : Except Fault (Nat × Nat) := varintDecodeLoop bytes 0 0 len

/-! ### Lengths -/

theorem varintEncodingLength_small {n : Nat} (h : n < 128) : varintEncodingLength n = 1 := if_pos h

/-- A number of more than seven bits takes one byte more than what is left of it after the first. -/
theorem varintEncodingLength_shift {n : Nat} (hn : n < 2 ^ 64) (h : 128 ≤ n) :
    varintEncodingLength n = varintEncodingLength (n / 128) + 1 := by
  have hdiv (c : Nat) : n / 128 < c ↔ n < c * 128 := Nat.div_lt_iff_lt_mul (by decide)
  have hlast : n < 1180591620717411303424 := by omega
  unfold varintEncodingLength
  -- both sides compare `n` with the same bounds, one of them past its last
  simp only [hdiv, Nat.reduceMul, apply_ite (· + 1), if_neg (Nat.not_lt.mpr h), if_pos hlast]

theorem varintEncodingLength_pos {n : Nat} (hn : n < 2 ^ 64) : 0 < varintEncodingLength n := by
  by_cases h : n < 128
  · rw [varintEncodingLength_small h]
    exact Nat.one_pos
  · rw [varintEncodingLength_shift hn (by omega)]
    exact Nat.succ_pos _

/-- A number of `k + 1` groups of seven bits takes at most `k + 1` bytes. -/
theorem varintEncodingLength_le {k n : Nat} (hn : n < 2 ^ 64) (h : n < 128 ^ (k + 1)) :
    varintEncodingLength n ≤ k + 1 := by
  induction k generalizing n with
  | zero => exact Nat.le_of_eq (varintEncodingLength_small h)
  | succ k ih =>
    by_cases hsmall : n < 128
    · rw [varintEncodingLength_small hsmall]
      omega
    · have hdiv : n / 128 < 128 ^ (k + 1) := by
        rw [Nat.pow_succ] at h
        omega
      have hle := ih (show n / 128 < 2 ^ 64 by omega) hdiv
      rw [varintEncodingLength_shift hn (by omega)]
      omega

/-- A number below `2 ^ 64` takes at most ten bytes. -/
theorem varintEncodingLength_le_ten {n : Nat} (hn : n < 2 ^ 64) : varintEncodingLength n ≤ 10 :=
  varintEncodingLength_le (k := 9) hn (by omega)

/-! ### Forms -/

/-- The bytes of a varint: all but the last carry the mark. -/
inductive VarintForm : List UInt8 → Prop
  | last {byte : UInt8} (h : byte.toNat < 128) : VarintForm [byte]
  | more {byte : UInt8} {bytes : List UInt8} (h : 128 ≤ byte.toNat) (tail : VarintForm bytes) :
      VarintForm (byte :: bytes)

theorem VarintForm.length_pos {bytes : List UInt8} (h : VarintForm bytes) : 0 < bytes.length := by
  cases h with
  | last h => exact Nat.succ_pos _
  | more h tail => exact Nat.succ_pos _

/-- The number in the groups of seven bits, the low ones first. -/
def varintValue : List UInt8 → Nat
  | [] => 0
  | byte :: bytes => byte.toNat % 128 + 128 * varintValue bytes

/-- The number in 64 bits, as `varint_decode` has it. -/
def varintNumber (bytes : List UInt8) : Nat := varintValue bytes % 2 ^ 64

/-- A varint that `varint_decode`, told the length `len`, goes through: it has at most 64 bits, and more than one byte
only if they are inside `len`. -/
structure VarintRead (len : Int) (bytes : List UInt8) : Prop where
  form : VarintForm bytes
  length_le : bytes.length ≤ 10
  inside : bytes.length = 1 ∨ (bytes.length : Int) ≤ len

/-- One byte of a varint that is still inside 64 bits. -/
theorem varintDecodeLoop_cons {byte : UInt8} {bytes : List UInt8} {pos acc : Nat} {len : Int} (hpos : pos < 10) :
    varintDecodeLoop (byte :: bytes) pos acc len =
      if byte.toNat < 128 then .ok ((acc + byte.toNat % 128 * 2 ^ (7 * pos)) % 2 ^ 64, pos + 1)
      else if ((pos + 1 : Nat) : Int) < len then
        varintDecodeLoop bytes (pos + 1) ((acc + byte.toNat % 128 * 2 ^ (7 * pos)) % 2 ^ 64) len
      else .error .assertion := by
  have hlow : byte.toNat &&& 0x7F = byte.toNat % 128 := Nat.and_two_pow_sub_one_eq_mod _ 7
  rw [varintDecodeLoop, if_neg (show ¬ 64 ≤ 7 * pos by omega)]
  simp only [hlow, Nat.shiftLeft_eq]
  by_cases hb : byte.toNat < 128
  · rw [if_neg (not_not.mpr ((and_0x80_eq_zero byte).mpr hb)), if_pos hb]
  · rw [if_pos (mt (and_0x80_eq_zero byte).mp hb), if_neg hb]

/-- The groups of a varint from `pos` on, added to those before. -/
theorem groups_add (acc low high pos : Nat) :
    ((acc + low * 2 ^ (7 * pos)) % 2 ^ 64 + high * 2 ^ (7 * (pos + 1))) % 2 ^ 64 =
      (acc + (low + 128 * high) * 2 ^ (7 * pos)) % 2 ^ 64 := by
  have hhigh : high * 2 ^ (7 * (pos + 1)) = 128 * high * 2 ^ (7 * pos) := by
    rw [show 7 * (pos + 1) = 7 + 7 * pos by omega, Nat.pow_add, ← Nat.mul_assoc, Nat.mul_comm high]
  rw [Nat.mod_add_mod, hhigh, Nat.add_assoc, ← Nat.add_mul]

/-- The loop goes through a varint, with any bytes following. -/
theorem varintDecodeLoop_form {bytes : List UInt8} (h : VarintForm bytes) (rest : List UInt8) {pos acc : Nat}
    {len : Int} (hpos : pos + bytes.length ≤ 10) (hlen : bytes.length = 1 ∨ ((pos + bytes.length : Nat) : Int) ≤ len) :
    varintDecodeLoop (bytes ++ rest) pos acc len =
      .ok ((acc + varintValue bytes * 2 ^ (7 * pos)) % 2 ^ 64, pos + bytes.length) := by
  induction h generalizing pos acc with
  | last h =>
    rw [List.length_singleton] at hpos
    rw [List.singleton_append, varintDecodeLoop_cons (by omega), if_pos h]
    rfl
  | @more byte bytes h tail ih =>
    have hpos' := tail.length_pos
    rw [List.length_cons] at hpos hlen
    rw [List.cons_append, varintDecodeLoop_cons (by omega), if_neg (Nat.not_lt.mpr h), if_pos (by omega),
      ih (by omega) (by omega), groups_add, List.length_cons]
    congr 2
    omega

/-- What the loop goes through is a varint. -/
theorem exists_form_of_varintDecodeLoop {bytes : List UInt8} {pos acc : Nat} {len : Int} {r : Nat × Nat}
    (h : varintDecodeLoop bytes pos acc len = .ok r) :
    ∃ form rest, bytes = form ++ rest ∧ VarintForm form ∧ pos + form.length ≤ 10 ∧
      (form.length = 1 ∨ ((pos + form.length : Nat) : Int) ≤ len) := by
  induction bytes generalizing pos acc with
  | nil => cases h
  | cons byte bytes ih =>
    by_cases hpos : pos < 10
    · rw [varintDecodeLoop_cons hpos] at h
      split at h
      · rename_i hlast
        exact ⟨[byte], bytes, rfl, .last hlast, hpos, .inl rfl⟩
      · rename_i hmore
        split at h
        · rename_i hlen
          obtain ⟨form, rest, rfl, hf, hp, hl⟩ := ih h
          refine ⟨byte :: form, rest, rfl, .more (by omega) hf, ?_, ?_⟩
          · rw [List.length_cons]
            omega
          · rw [List.length_cons]
            omega
        · cases h
    · rw [varintDecodeLoop, if_pos (show 64 ≤ 7 * pos by omega)] at h
      cases h

/-- **`varint_decode` returns** exactly on a varint, with its number in 64 bits and its length. -/
theorem varintDecode_eq_ok {bytes : List UInt8} {len : Int} {value bytesRead : Nat} :
    varintDecode bytes len = .ok (value, bytesRead) ↔
      ∃ form rest, bytes = form ++ rest ∧ VarintRead len form ∧ value = varintNumber form ∧
        bytesRead = form.length := by
  have hform (form rest : List UInt8) (hf : VarintRead len form) :
      varintDecode (form ++ rest) len = .ok (varintNumber form, form.length) := by
    have hlen : 0 + form.length = form.length := Nat.zero_add _
    rw [varintDecode, varintDecodeLoop_form hf.form rest (by rw [hlen]; exact hf.length_le)
      (by rw [hlen]; exact hf.inside), Nat.mul_zero, Nat.pow_zero, Nat.mul_one, Nat.zero_add, hlen, varintNumber]
  constructor
  · intro h
    obtain ⟨form, rest, rfl, hf, hp, hl⟩ := exists_form_of_varintDecodeLoop h
    have hread : VarintRead len form := ⟨hf, by simpa using hp, by simpa using hl⟩
    rw [hform form rest hread] at h
    cases h
    exact ⟨form, rest, rfl, hread, rfl, rfl⟩
  · rintro ⟨form, rest, rfl, hread, rfl, rfl⟩
    exact hform form rest hread

/-! ### Reader after writer -/

/-- The writer writes a varint of the number, in as many bytes as `varint_encoding_length` says. -/
theorem varintEncodeLoop_form {n pos room : Nat} {len : Int} {bytes : List UInt8} (hn : n < 2 ^ 64)
    (h : varintEncodeLoop room pos n len = .ok bytes) :
    VarintForm bytes ∧ varintValue bytes = n ∧ bytes.length = varintEncodingLength n := by
  induction room generalizing n pos bytes with
  | zero => cases h
  | succ room ih =>
    rw [varintEncodeLoop, Nat.shiftRight_eq_div_pow] at h
    by_cases hsmall : n < 128
    · have hbyte : (UInt8.ofNat n).toNat = n := by rw [UInt8.toNat_ofNat']; omega
      rw [if_neg (by omega)] at h
      cases h
      refine ⟨.last (by rw [hbyte]; exact hsmall), ?_, (varintEncodingLength_small hsmall).symm⟩
      rw [varintValue, varintValue, hbyte, Nat.mod_eq_of_lt hsmall, Nat.mul_zero, Nat.add_zero]
    · rw [if_pos (by omega)] at h
      split at h
      · obtain ⟨tail, htail, hb⟩ := bind_eq_ok.mp h
        cases hb
        obtain ⟨hf, hv, hl⟩ := ih (by omega) htail
        have hbyte := toNat_marked n
        refine ⟨.more (by rw [hbyte]; omega) hf, ?_, ?_⟩
        · rw [varintValue, hv, hbyte]
          omega
        · rw [varintEncodingLength_shift hn (by omega), List.length_cons, hl]
      · cases h

/-- In room for a varint it is written exactly if it has one byte or the length told has room for it too. -/
theorem varintEncodeLoop_ok_iff {n pos room : Nat} {len : Int} (hn : n < 2 ^ 64)
    (hroom : varintEncodingLength n ≤ room) :
    (∃ bytes, varintEncodeLoop room pos n len = .ok bytes) ↔
      n < 128 ∨ ((pos + varintEncodingLength n : Nat) : Int) ≤ len := by
  induction room generalizing n pos with
  | zero =>
    have hpos := varintEncodingLength_pos hn
    omega
  | succ room ih =>
    rw [varintEncodeLoop, Nat.shiftRight_eq_div_pow]
    by_cases h : n < 128
    · rw [if_neg (by omega)]
      exact ⟨fun _ => .inl h, fun _ => ⟨_, rfl⟩⟩
    · have hn' : n / 128 < 2 ^ 64 := by omega
      have hpos := varintEncodingLength_pos hn'
      rw [varintEncodingLength_shift hn (by omega)] at hroom ⊢
      have hrec : (∃ bytes, varintEncodeLoop room (pos + 1) (n / 128) len = .ok bytes) ↔
          n / 128 < 128 ∨ ((pos + 1 + varintEncodingLength (n / 128) : Nat) : Int) ≤ len := ih hn' (by omega)
      rw [if_pos (by omega)]
      by_cases hlen : ((pos + 1 : Nat) : Int) < len
      · have hbind : (∃ bytes, (do
            let rest ← varintEncodeLoop room (pos + 1) (n / 2 ^ 7) len
            .ok (UInt8.ofNat (n &&& 0xFF ||| 0x80) :: rest)) = (.ok bytes : Except Fault (List UInt8))) ↔
            ∃ bytes, varintEncodeLoop room (pos + 1) (n / 2 ^ 7) len = .ok bytes := by
          simp only [bind_eq_ok]
          exact ⟨fun ⟨_, rest, hrest, _⟩ => ⟨rest, hrest⟩, fun ⟨rest, hrest⟩ => ⟨_, rest, hrest, rfl⟩⟩
        rw [if_pos hlen, hbind]
        refine hrec.trans ⟨?_, ?_⟩
        · rintro (hsmall | hfits)
          · rw [varintEncodingLength_small hsmall]
            omega
          · omega
        · rintro (hsmall | hfits)
          · omega
          · omega
      · rw [if_neg hlen]
        refine ⟨fun ⟨_, hb⟩ => (by cases hb), ?_⟩
        omega

/-- `bytes` is what `varint_encode` writes for `n`. -/
def VarintOf (n : Nat) (bytes : List UInt8) : Prop := ∃ room, varintEncode n room = .ok bytes

theorem VarintOf.form {n : Nat} {bytes : List UInt8} (h : VarintOf n bytes) (hn : n < 2 ^ 64) :
    VarintForm bytes ∧ varintValue bytes = n ∧ bytes.length = varintEncodingLength n := by
  obtain ⟨room, h⟩ := h
  exact varintEncodeLoop_form hn h

theorem VarintOf.length_pos {n : Nat} {bytes : List UInt8} (h : VarintOf n bytes) (hn : n < 2 ^ 64) :
    0 < bytes.length := (h.form hn).1.length_pos

/-- A number below `2 ^ 64` is written in at most ten bytes. -/
theorem VarintOf.length_le {n : Nat} {bytes : List UInt8} (h : VarintOf n bytes) (hn : n < 2 ^ 64) :
    bytes.length ≤ 10 := by
  obtain ⟨-, -, hl⟩ := h.form hn
  exact Nat.le_trans (Nat.le_of_eq hl) (varintEncodingLength_le_ten hn)

/-- The number that a varint carries. -/
theorem VarintOf.number {n : Nat} {bytes : List UInt8} (h : VarintOf n bytes) (hn : n < 2 ^ 64) :
    varintNumber bytes = n := by
  obtain ⟨-, hvalue, -⟩ := h.form hn
  rw [varintNumber, hvalue, Nat.mod_eq_of_lt hn]

/-- A varint of one byte is that number. -/
theorem VarintOf.eq_singleton {n : Nat} {bytes : List UInt8} (h : VarintOf n bytes) (hn : n < 128) :
    bytes = [UInt8.ofNat n] := by
  obtain ⟨hform, hvalue, hlen⟩ := h.form (by omega)
  rw [varintEncodingLength_small hn] at hlen
  cases hform with
  | @last byte hbyte =>
    rw [varintValue, varintValue, Nat.mul_zero, Nat.add_zero, Nat.mod_eq_of_lt hbyte] at hvalue
    rw [← hvalue, UInt8.ofNat_toNat]
  | more _ tail =>
    have hpos := tail.length_pos
    rw [List.length_cons] at hlen
    omega

theorem VarintOf.length_eq_one_iff {n : Nat} {bytes : List UInt8} (h : VarintOf n bytes) (hn : n < 2 ^ 64) :
    bytes.length = 1 ↔ n < 128 := by
  constructor
  · intro hone
    by_contra hlarge
    have hn' : n / 128 < 2 ^ 64 := by omega
    have hpos := varintEncodingLength_pos hn'
    rw [(h.form hn).2.2, varintEncodingLength_shift hn (by omega)] at hone
    omega
  · intro hsmall
    rw [(h.form hn).2.2, varintEncodingLength_small hsmall]

/-- The length of an object of `room` bytes, cut to an `int`, does not fail the `assert` for `n`. -/
def VarintTold (n room : Nat) : Prop := n < 128 ∨ (varintEncodingLength n : Int) ≤ toInt32 room

/-- The length of an object below `2 ^ 31` is not cut. -/
theorem varintTold_of_lt {n room : Nat} (hroom : varintEncodingLength n ≤ room) (hmax : room < 2 ^ 31) :
    VarintTold n room := by
  right
  rw [toInt32_natCast hmax]
  omega

/-- A number is written into an object that has room for its varint exactly if the `assert` does not fail. -/
theorem varintEncode_ok_iff {n room : Nat} (hn : n < 2 ^ 64) (hroom : varintEncodingLength n ≤ room) :
    (∃ bytes, varintEncode n room = .ok bytes) ↔ VarintTold n room := by
  have hloop : (∃ bytes, varintEncodeLoop room 0 n (toInt32 room) = .ok bytes) ↔
      n < 128 ∨ ((0 + varintEncodingLength n : Nat) : Int) ≤ toInt32 room := varintEncodeLoop_ok_iff hn hroom
  rwa [Nat.zero_add] at hloop

theorem varintEncode_ok {n room : Nat} (hn : n < 2 ^ 64) (hroom : varintEncodingLength n ≤ room)
    (htold : VarintTold n room) : ∃ bytes, varintEncode n room = .ok bytes ∧ bytes.length = varintEncodingLength n := by
  obtain ⟨bytes, h⟩ := (varintEncode_ok_iff hn hroom).mpr htold
  exact ⟨bytes, h, (varintEncodeLoop_form hn h).2.2⟩

/-- A varint is read as its number, whatever follows it. -/
theorem varintDecode_form {n : Nat} {len : Int} {bytes : List UInt8} (hform : VarintForm bytes)
    (hvalue : varintValue bytes = n) (hn : n < 2 ^ 64) (hle : bytes.length ≤ 10) (rest : List UInt8)
    (hlen : (bytes.length : Int) ≤ len) : varintDecode (bytes ++ rest) len = .ok (n, bytes.length) := by
  have hnumber : varintNumber bytes = n := by rw [varintNumber, hvalue, Nat.mod_eq_of_lt hn]
  rw [varintDecode_eq_ok]
  exact ⟨bytes, rest, rfl, ⟨hform, hle, .inr hlen⟩, hnumber.symm, rfl⟩

/-- What `varint_encode` wrote is read back as the number and the count of its bytes. -/
theorem varintDecode_append {n : Nat} {len : Int} {bytes : List UInt8} (h : VarintOf n bytes) (rest : List UInt8)
    (hn : n < 2 ^ 64) (hlen : (bytes.length : Int) ≤ len) :
    varintDecode (bytes ++ rest) len = .ok (n, bytes.length) := by
  obtain ⟨hform, hvalue, -⟩ := h.form hn
  exact varintDecode_form hform hvalue hn (h.length_le hn) rest hlen

section AnyLength

variable {n m room room' : Nat} {len len' : Int} {bytes bytes' : List UInt8}

/-- What is written is a varint of the number, of at most ten bytes, whatever length `varint_encode` is told. -/
theorem varintEncodeTold_form (hn : n < 2 ^ 64) (h : varintEncodeTold n room len = .ok bytes) :
    VarintForm bytes ∧ varintValue bytes = n ∧ bytes.length = varintEncodingLength n ∧ bytes.length ≤ 10 := by
  obtain ⟨hform, hvalue, hlength⟩ := varintEncodeLoop_form hn h
  exact ⟨hform, hvalue, hlength, Nat.le_trans (Nat.le_of_eq hlength) (varintEncodingLength_le_ten hn)⟩

/-- Ten bytes are room for any number. -/
theorem varintEncodeTold_ok (hn : n < 2 ^ 64) (hroom : 10 ≤ room) (hlen : 10 ≤ len) :
    ∃ bytes, varintEncodeTold n room len = .ok bytes := by
  have hle := varintEncodingLength_le_ten hn
  exact (varintEncodeLoop_ok_iff hn (by omega)).mpr (.inr (by omega))

/-- No varint that is written is the beginning of another one: both are read as the same number. -/
theorem eq_of_varintEncodeTold_isPrefix (hn : n < 2 ^ 64) (hm : m < 2 ^ 64)
    (h : varintEncodeTold n room len = .ok bytes) (h' : varintEncodeTold m room' len' = .ok bytes')
    (hbegin : bytes <+: bytes') : n = m := by
  obtain ⟨rest, rfl⟩ := hbegin
  obtain ⟨hform, hvalue, -, hle⟩ := varintEncodeTold_form hn h
  obtain ⟨hform', hvalue', -, hle'⟩ := varintEncodeTold_form hm h'
  have hread : varintDecode (bytes ++ rest) 10 = .ok (n, bytes.length) :=
    varintDecode_form hform hvalue hn hle rest (by omega)
  have hread' : varintDecode (bytes ++ rest ++ []) 10 = .ok (m, (bytes ++ rest).length) :=
    varintDecode_form hform' hvalue' hm hle' [] (by omega)
  rw [List.append_nil, hread] at hread'
  exact (Prod.mk.inj (Except.ok.inj hread')).1

end AnyLength

/-- **Varints of 64-bit numbers.** Into any object of at least ten bytes, told at least ten, `varint_encode` writes as
many bytes as `varint_encoding_length` says, `varint_decode` reads them back whatever follows them and whatever length
it is told that they are inside of, and no varint is the beginning of that of another number. -/
theorem varint_round_trip (n : UInt64) (t : List UInt8) (room : Nat) (len : Int) (hroom : 10 ≤ room) (hlen : 10 ≤ len) :
    ∃ bytes, varintEncodeTold n.toNat room len = .ok bytes ∧ bytes.length = varintEncodingLength n.toNat ∧
      1 ≤ bytes.length ∧ bytes.length ≤ 10 ∧
      (∀ told : Int, (bytes.length : Int) ≤ told → varintDecode (bytes ++ t) told = .ok (n.toNat, bytes.length)) ∧
      ∀ (m : UInt64) (room' : Nat) (len' : Int) (bytes' : List UInt8),
        varintEncodeTold m.toNat room' len' = .ok bytes' → bytes <+: bytes' → m = n := by
  obtain ⟨bytes, h⟩ := varintEncodeTold_ok n.toNat_lt hroom hlen
  obtain ⟨hform, hvalue, hlength, hle⟩ := varintEncodeTold_form n.toNat_lt h
  refine ⟨bytes, h, hlength, hform.length_pos, hle, ?_, ?_⟩
  · intro told htold
    exact varintDecode_form hform hvalue n.toNat_lt hle t htold
  · intro m room' len' bytes' h' hbegin
    have heq := eq_of_varintEncodeTold_isPrefix n.toNat_lt m.toNat_lt h h' hbegin
    exact UInt64.toNat_inj.mp heq.symm

theorem varint_round_trip_largest :
    varintEncodeTold (2 ^ 64 - 1) 10 10 = .ok [255, 255, 255, 255, 255, 255, 255, 255, 255, 1] ∧
      varintDecode ([255, 255, 255, 255, 255, 255, 255, 255, 255, 1] ++ [128]) 11 = .ok (2 ^ 64 - 1, 10) := by
  obtain ⟨bytes, h, -, -, -, hread, -⟩ :=
    varint_round_trip (UInt64.ofNat (2 ^ 64 - 1)) [128] 10 10 (Nat.le_refl _) (Int.le_refl _)
  have hbytes : varintEncodeTold (2 ^ 64 - 1) 10 10 = .ok [255, 255, 255, 255, 255, 255, 255, 255, 255, 1] := by decide
  obtain rfl : [255, 255, 255, 255, 255, 255, 255, 255, 255, 1] = bytes := Except.ok.inj (hbytes.symm.trans h)
  exact ⟨hbytes, hread 11 (by decide)⟩

/-! ## Fields -/

/-- `enum WireType`. -/
inductive WireType
  | varint
  | bit64
  | lengthDelimited
  | startGroup
  | endGroup
  | bit32
  deriving DecidableEq, Repr

/-- The number of a wire type. -/
def WireType.toNat : WireType → Nat
  | .varint => 0
  | .bit64 => 1
  | .lengthDelimited => 2
  | .startGroup => 3
  | .endGroup => 4
  | .bit32 => 5

/-- Field number and wire type pushed together, the number through an `unsigned int`. -/
def fieldTag (fieldNumber : Nat) (fieldType : WireType) : Nat := (fieldNumber <<< 3) % 2 ^ 32 ||| fieldType.toNat

/-- `protobuf_encode_varint` into an object of `room` bytes, told its length: the bytes written. -/
def protobufEncodeVarint (fieldNumber : Nat) (fieldType : WireType) (incoming room : Nat) :
    Except Fault (List UInt8) := do
  let tag ← varintEncode (fieldTag fieldNumber fieldType) room
  let value ← varintEncode incoming (room - tag.length)
  .ok (tag ++ value)

/-- `protobuf_encode_length_delimited` into an object of `room` bytes, told its length: the bytes written. -/
def protobufEncodeLengthDelimited (fieldNumber : Nat) (fieldType : WireType) (incoming : List UInt8) (room : Nat) :
    Except Fault (List UInt8) := do
  let tag ← varintEncode (fieldTag fieldNumber fieldType) room
  let size ← varintEncode incoming.length (room - tag.length)
  if incoming.length ≤ room - (tag.length + size.length) then .ok (tag ++ size ++ incoming) else .error .outOfBounds

/-- `protobuf_decode_field_and_type`: the field number as an `int`, what is left for the type in the 32 bits of its
enumeration, and the bytes read. -/
def protobufDecodeFieldAndType (bytes : List UInt8) (len : Int) : Except Fault (Int × Int × Nat) := do
  let (field, bytesRead) ← varintDecode bytes len
  let fieldNo := toInt32 (field >>> 3 : Nat)
  .ok (fieldNo, (field - fieldNo * 8) % 2 ^ 32, bytesRead)

/-- `protobuf_decode_varint`: the value and the number of bytes read. -/
def protobufDecodeVarint (bytes : List UInt8) (len : Int) : Except Fault (Nat × Nat) := varintDecode bytes len

/-- `protobuf_decode_length_delimited`, whose allocation succeeds: the bytes of the field and the number of bytes
read. -/
def protobufDecodeLengthDelimited (bytes : List UInt8) (len : Int) : Except Fault (List UInt8 × Nat) := do
  let (fieldSize, bytesRead) ← varintDecode bytes len
  let results ← readBytes (bytes.drop bytesRead) fieldSize
  .ok (results, bytesRead + fieldSize)

section Writing

variable (fieldNumber : Nat) (fieldType : WireType) {room : Nat}

theorem fieldTag_lt : fieldTag fieldNumber fieldType < 2 ^ 64 := by
  have ht : fieldType.toNat < 2 ^ 64 := by cases fieldType <;> decide
  apply Nat.or_lt_two_pow _ ht
  omega

/-- The `assert` does not fail for the front of a field, nor for the number behind it. -/
def FieldTold (fieldNumber : Nat) (fieldType : WireType) (incoming room : Nat) : Prop :=
  VarintTold (fieldTag fieldNumber fieldType) room ∧
    VarintTold incoming (room - varintEncodingLength (fieldTag fieldNumber fieldType))

theorem fieldTold_of_lt {incoming : Nat}
    (hroom : varintEncodingLength (fieldTag fieldNumber fieldType) + varintEncodingLength incoming ≤ room)
    (hmax : room < 2 ^ 31) : FieldTold fieldNumber fieldType incoming room :=
  ⟨varintTold_of_lt (by omega) hmax, varintTold_of_lt (by omega) (by omega)⟩

/-- A field that has room for its front and its value is written as these two. -/
theorem protobufEncodeVarint_ok {incoming : Nat} (hin : incoming < 2 ^ 64)
    (hroom : varintEncodingLength (fieldTag fieldNumber fieldType) + varintEncodingLength incoming ≤ room)
    (htold : FieldTold fieldNumber fieldType incoming room) :
    ∃ tag value, VarintOf (fieldTag fieldNumber fieldType) tag ∧ VarintOf incoming value ∧
      tag.length = varintEncodingLength (fieldTag fieldNumber fieldType) ∧
      value.length = varintEncodingLength incoming ∧
      protobufEncodeVarint fieldNumber fieldType incoming room = .ok (tag ++ value) := by
  obtain ⟨tag, ht, htl⟩ := varintEncode_ok (fieldTag_lt fieldNumber fieldType) (by omega) htold.1
  obtain ⟨value, hv, hvl⟩ := varintEncode_ok hin (show _ ≤ room - tag.length by omega) (htl ▸ htold.2)
  refine ⟨tag, value, ⟨_, ht⟩, ⟨_, hv⟩, htl, hvl, ?_⟩
  unfold protobufEncodeVarint
  rw [ht, ok_bind, hv, ok_bind]

theorem protobufEncodeLengthDelimited_ok {incoming : List UInt8}
    (hroom : varintEncodingLength (fieldTag fieldNumber fieldType) + varintEncodingLength incoming.length +
      incoming.length ≤ room) (hin : incoming.length < 2 ^ 64)
    (htold : FieldTold fieldNumber fieldType incoming.length room) :
    ∃ tag size, VarintOf (fieldTag fieldNumber fieldType) tag ∧ VarintOf incoming.length size ∧
      tag.length = varintEncodingLength (fieldTag fieldNumber fieldType) ∧
      size.length = varintEncodingLength incoming.length ∧
      protobufEncodeLengthDelimited fieldNumber fieldType incoming room = .ok (tag ++ size ++ incoming) := by
  obtain ⟨tag, ht, htl⟩ := varintEncode_ok (fieldTag_lt fieldNumber fieldType) (by omega) htold.1
  obtain ⟨size, hs, hsl⟩ := varintEncode_ok hin (show _ ≤ room - tag.length by omega) (htl ▸ htold.2)
  refine ⟨tag, size, ⟨_, ht⟩, ⟨_, hs⟩, htl, hsl, ?_⟩
  unfold protobufEncodeLengthDelimited
  rw [ht, ok_bind, hs, ok_bind, if_pos (by omega)]

/-- The front and the number behind it are written one after the other only if the `assert` does not fail. -/
theorem fieldTold_of_encode {incoming : Nat} {tag value : List UInt8} (hin : incoming < 2 ^ 64)
    (hroom : varintEncodingLength (fieldTag fieldNumber fieldType) + varintEncodingLength incoming ≤ room)
    (ht : varintEncode (fieldTag fieldNumber fieldType) room = .ok tag)
    (hv : varintEncode incoming (room - tag.length) = .ok value) : FieldTold fieldNumber fieldType incoming room := by
  have htag := fieldTag_lt fieldNumber fieldType
  have hlen : tag.length = varintEncodingLength (fieldTag fieldNumber fieldType) := (varintEncodeLoop_form htag ht).2.2
  rw [hlen] at hv
  exact ⟨(varintEncode_ok_iff htag (by omega)).mp ⟨tag, ht⟩, (varintEncode_ok_iff hin (by omega)).mp ⟨value, hv⟩⟩

end Writing

/-- The front of a field as a number. -/
theorem fieldTag_eq {fieldNumber : Nat} {fieldType : WireType} (hf : fieldNumber < 2 ^ 28) :
    fieldTag fieldNumber fieldType = fieldNumber * 8 + fieldType.toNat := by
  have ht : fieldType.toNat < 2 ^ 3 := by cases fieldType <;> decide
  have hs : fieldNumber <<< 3 < 2 ^ 32 := by rw [Nat.shiftLeft_eq]; omega
  rw [fieldTag, Nat.mod_eq_of_lt hs, ← Nat.shiftLeft_add_eq_or_of_lt ht, Nat.shiftLeft_eq]

/-- The front of a field is read back. -/
theorem protobufDecodeFieldAndType_append {fieldNumber : Nat} {fieldType : WireType} {len : Int}
    {tag : List UInt8} (h : VarintOf (fieldTag fieldNumber fieldType) tag) (rest : List UInt8)
    (hf : fieldNumber < 2 ^ 28) (hlen : (tag.length : Int) ≤ len) :
    protobufDecodeFieldAndType (tag ++ rest) len = .ok (fieldNumber, fieldType.toNat, tag.length) := by
  have ht : fieldType.toNat < 8 := by cases fieldType <;> decide
  have htag : fieldTag fieldNumber fieldType = fieldNumber * 8 + fieldType.toNat := fieldTag_eq hf
  have hno : fieldTag fieldNumber fieldType >>> 3 = fieldNumber := by
    rw [htag, Nat.shiftRight_eq_div_pow]
    omega
  unfold protobufDecodeFieldAndType
  rw [varintDecode_append h rest (by rw [htag]; omega) hlen, ok_bind]
  simp only [hno, toInt32_natCast (show fieldNumber < 2 ^ 31 by omega)]
  congr 3
  rw [htag]
  push_cast
  omega

/-- What follows the front of a field, and the length that the readers are told for it. -/
theorem after_tag {before tag rest : List UInt8} (hmax : (before ++ (tag ++ rest)).length < 2 ^ 31) :
    (before ++ (tag ++ rest)).drop (before.length + tag.length) = rest ∧
      toInt32 ((before ++ (tag ++ rest)).length - (before.length + tag.length) : Nat) = rest.length := by
  constructor
  · rw [← List.drop_drop, List.drop_left, List.drop_left]
  · rw [toInt32_natCast (by omega)]
    simp only [List.length_append]
    omega

/-- The size and the bytes of a field are read back. -/
theorem protobufDecodeLengthDelimited_append {len : Int} {size incoming : List UInt8}
    (h : VarintOf incoming.length size) (rest : List UInt8) (hin : incoming.length < 2 ^ 64)
    (hlen : (size.length : Int) ≤ len) :
    protobufDecodeLengthDelimited (size ++ incoming ++ rest) len = .ok (incoming, size.length + incoming.length) := by
  unfold protobufDecodeLengthDelimited
  rw [List.append_assoc, varintDecode_append h _ hin hlen, ok_bind]
  dsimp only
  rw [List.drop_left, readBytes_eq_ok.mpr ⟨by simp, List.take_left⟩, ok_bind]

end Libcp2p

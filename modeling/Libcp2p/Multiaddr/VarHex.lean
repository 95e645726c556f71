import Libcp2p.Lib.BigEndian
import Libcp2p.Lib.CString

/-!
# Numbers and byte arrays as hexadecimal text

The conversions of `varhexutils.c`: `intToHex` and `hexToInt` between numbers and text, `varToHex` and `hexToVar`
between byte arrays and text, and the one-byte prefix `numToHexVar32` that `hexVarToNum32` reads. Allocations succeed.

* `intToHex_eq`: a number is written as its shortest sequence of bytes.
* `hexToVar_eq`: well-formed text is read as the bytes it denotes.
* `hexToInt_hexText`: the text of bytes is read as the number they denote.
* `hexVarToNum32_hexText`: of a prefix byte the low seven bits are read.
-/

namespace Libcp2p

/-! ## The functions -/

/-- `Int_To_Hex` of a 64-bit number: `%02lX`, with one more zero in front where the number of digits is odd. -/
def intToHex (int2hex : Nat) : List UInt8 :=
  let digits := numeral hexUpper 16 int2hex
  let result := if digits.length < 2 then 48 :: digits else digits
  if result.length % 2 ≠ 0 then 48 :: result else result

/-- The four bits that `Hex_To_Int` takes from a character. -/
def hexToIntDigit (byte : UInt8) : Nat :=
  match hexValue byte with
  | some v => v &&& 0xF
  | none => byte.toNat &&& 0xF

/-- `Hex_To_Int`. -/
def hexToInt (hax : List UInt8) : Nat := hax.foldl (fun val byte => (val <<< 4 ||| hexToIntDigit byte) % 2 ^ 64) 0

/-- `Var_To_Hex`: the text of the array it allocates. -/
def varToHex (incoming : List UInt8) : List UInt8 := hexLowerText incoming

/-- The byte that `strtol(code, NULL, 16)` makes of two characters. -/
def hexCode (c c' : UInt8) : UInt8 := UInt8.ofNat (strtol 16 (cstr [c, c']) % 256).toNat

/-- `Hex_To_Var`: the array it allocates, which has no room for the half byte of an odd length. -/
def hexToVar : List UInt8 → Except Fault (List UInt8)
  | [] => .ok []
  | [_] => .error .outOfBounds
  | c :: c' :: incoming => do
    let retVal ← hexToVar incoming
    .ok (hexCode c c' :: retVal)

/-- The bytes that `uvarint_encode32` writes in `n` iterations. -/
def uvarintEncode32 : (val n : Nat) → List UInt8
  | _, 0 => []
  | val, n + 1 =>
    let byte := UInt8.ofNat (val % 256 ||| 0x80)
    if val >>> 7 = 0 then [byte] else byte :: uvarintEncode32 (val >>> 7) n

/-- The loop of `uvarint_decode32` at index `i`. -/
def uvarintDecode32Loop : (i val : Nat) → List UInt8 → Nat
  | _, val, [] => val
  | i, val, b :: buf =>
    let val := val ||| (b.toNat &&& 0x7f) <<< (7 * i)
    if b &&& 0x80 = 0 then val else uvarintDecode32Loop (i + 1) val buf

/-- `uvarint_decode32`, which reads four bytes at most. -/
def uvarintDecode32 (buf : List UInt8) : Nat := uvarintDecode32Loop 0 0 (buf.take 4)

/-- `Num_To_HexVar_32`: the text of the one byte that there is room for. -/
def numToHexVar32 (n : Nat) : List UInt8 := hexUpperText (uvarintEncode32 n 1)

/-- `HexVar_To_Num_32`: two characters for each of the ten bytes that it decodes, from a buffer filled with zeros. -/
def hexVarToNum32 (theHEXstring : List UInt8) : Nat :=
  uvarintDecode32 ((List.range 10).map fun x =>
    hexCode (theHEXstring.getD (2 * x) 0) (theHEXstring.getD (2 * x + 1) 0))

/-! ## What they compute -/

section Text

variable {c c' : UInt8} {v v' : Nat} {payload d : List UInt8}

/-- Two digits are the byte they make. -/
theorem hexCode_eq (h : hexValue c = some v) (h' : hexValue c' = some v') :
    hexCode c c' = UInt8.ofNat (16 * v + v') := by
  obtain ⟨hc, hs, hplus, hminus, -, -, hv⟩ := hexValue_facts h
  obtain ⟨hc', -, -, -, -, -, hv'⟩ := hexValue_facts h'
  have hdigits : strtolDigits 16 0 [c, c'] = 16 * v + v' := by
    simp [strtolDigits, digitValue, h, h', Option.filter, hv, hv']
  have hcstr : cstr [c, c'] = [c, c'] := cstr_of_notMem (by simp [Ne.symm hc, Ne.symm hc'])
  have hstrtol : strtol 16 [c, c'] = 16 * v + v' := by
    simp only [strtol, List.dropWhile_cons, hs]
    simp [hplus, hminus, skip0x, hdigits]
    omega
  rw [hexCode, hcstr, hstrtol]
  congr 1
  omega

/-- Well-formed text is read as what it denotes. -/
theorem hexToVar_eq (h : Base16Encodes payload d) : hexToVar payload = .ok d := by
  induction h with
  | nil => rfl
  | pair hc hc' _ ih => rw [hexToVar, ih, ok_bind, hexCode_eq hc hc']

theorem hexToInt_snoc (s : List UInt8) (c : UInt8) :
    hexToInt (s ++ [c]) = (hexToInt s <<< 4 ||| hexToIntDigit c) % 2 ^ 64 := by
  simp [hexToInt]

theorem hexToIntDigit_eq (h : hexValue c = some v) : hexToIntDigit c = v := by
  have hv := (hexValue_facts h).2.2.2.2.2.2
  rw [hexToIntDigit, h]
  exact Nat.and_two_pow_sub_one_of_lt_two_pow (n := 4) hv

theorem hexToInt_snoc_digit {s : List UInt8} (hs : hexToInt s < 2 ^ 60) (h : hexValue c = some v) :
    hexToInt (s ++ [c]) = 16 * hexToInt s + v := by
  have hv := (hexValue_facts h).2.2.2.2.2.2
  rw [hexToInt_snoc, hexToIntDigit_eq h, or_shift _ _ (show v < 2 ^ 4 from hv)]
  omega

/-- The text of up to eight bytes is read as the number they denote. -/
theorem hexToInt_hexText {digit : Nat → UInt8} (hdigit : ∀ d < 16, hexValue (digit d) = some d) {bs : List UInt8}
    (hlen : bs.length ≤ 8) : hexToInt (hexText digit bs) = beNat bs := by
  induction bs using List.reverseRecOn with
  | nil => rfl
  | append_singleton bs b ih =>
    rw [List.length_append, List.length_singleton] at hlen
    have ih := ih (by omega)
    have hlt : beNat bs < 256 ^ 7 := Nat.lt_of_lt_of_le (beNat_lt bs) (Nat.pow_le_pow_right (by decide) (by omega))
    have hb := b.toNat_lt
    have hhigh := hexToInt_snoc_digit (s := hexText digit bs) (by omega) (hdigit (b.toNat / 16) (by omega))
    have hlow := hexToInt_snoc_digit (s := hexText digit bs ++ [digit (b.toNat / 16)]) (by omega)
      (hdigit (b.toNat % 16) (by omega))
    rw [hexText_append, beNat_snoc]
    rw [List.append_assoc] at hlow
    refine hlow.trans ?_
    omega

end Text

section Numbers

variable {v k : Nat}

theorem numeral_hexUpper (v : Nat) : numeral hexUpper 16 v =
    if v < 16 then [hexUpper v] else numeral hexUpper 16 (v / 16) ++ [hexUpper (v % 16)] :=
  numeral_eq hexUpper (by decide) v

theorem intToHex_eq_pad (v : Nat) : intToHex v =
    if (numeral hexUpper 16 v).length % 2 = 1 then 48 :: numeral hexUpper 16 v else numeral hexUpper 16 v := by
  have hpos : 0 < (numeral hexUpper 16 v).length := List.length_pos_of_ne_nil (numeral_ne_nil (by decide))
  unfold intToHex
  by_cases hone : (numeral hexUpper 16 v).length < 2
  · have hlen : (numeral hexUpper 16 v).length = 1 := by omega
    simp [hlen]
  · simp [hone]

/-- A number of more than one byte ends with the digits of its last byte. -/
theorem intToHex_of_le (h : 256 ≤ v) :
    intToHex v = intToHex (v / 256) ++ [hexUpper (v / 16 % 16), hexUpper (v % 16)] := by
  have hnum : numeral hexUpper 16 v = numeral hexUpper 16 (v / 256) ++ [hexUpper (v / 16 % 16), hexUpper (v % 16)] := by
    rw [numeral_hexUpper, if_neg (by omega), numeral_hexUpper, if_neg (by omega),
      Nat.div_div_eq_div_mul, List.append_assoc]
    rfl
  rw [intToHex_eq_pad, intToHex_eq_pad, hnum, List.length_append]
  simp only [List.length_cons, List.length_nil, Nat.add_mod_right]
  split <;> rfl

theorem hexUpperText_ofNat (v : Nat) : hexUpperText [UInt8.ofNat v] = [hexUpper (v / 16 % 16), hexUpper (v % 16)] := by
  have hv : (UInt8.ofNat v).toNat = v % 256 := by simp
  simp only [hexUpperText, hexText, hv]
  congr 2
  · omega
  · congr 1
    omega

/-- **A number is written as its shortest sequence of bytes**, of which there is at least one. -/
theorem intToHex_eq (h : k = 0 ∨ 256 ^ k ≤ v) (hlt : v < 256 ^ (k + 1)) :
    intToHex v = hexUpperText (beBytes (k + 1) v) := by
  induction k generalizing v with
  | zero =>
    have hv : v < 256 := hlt
    have hdigits : numeral hexUpper 16 v =
        if v < 16 then [hexUpper v] else [hexUpper (v / 16), hexUpper (v % 16)] := by
      rw [numeral_hexUpper]
      split
      · rfl
      · rw [numeral_hexUpper, if_pos (by omega)]
        rfl
    rw [show beBytes 1 v = [UInt8.ofNat v] from rfl, hexUpperText_ofNat, intToHex_eq_pad, hdigits]
    by_cases hone : v < 16
    · simp only [if_pos hone, Nat.div_eq_of_lt hone, Nat.mod_eq_of_lt hone]
      rfl
    · simp [hone, Nat.mod_eq_of_lt (show v / 16 < 16 by omega)]
  | succ k ih =>
    have hle : 256 ^ (k + 1) ≤ v := h.resolve_left (by omega)
    have h256 : 256 ≤ 256 ^ (k + 1) := Nat.le_self_pow (by omega) 256
    have hdiv : 256 ^ k ≤ v / 256 := (Nat.le_div_iff_mul_le (by decide)).mpr (by rwa [Nat.pow_succ] at hle)
    have hdivlt : v / 256 < 256 ^ (k + 1) := Nat.div_lt_of_lt_mul (by rwa [Nat.pow_succ, Nat.mul_comm] at hlt)
    have hbytes : beBytes (k + 1 + 1) v = beBytes (k + 1) (v / 256) ++ [UInt8.ofNat v] := rfl
    rw [intToHex_of_le (by omega), ih (.inr hdiv) hdivlt, ← hexUpperText_ofNat, hbytes, hexUpperText, hexText_append]

theorem intToHex_shortest (v : Nat) : ∃ bytes, ShortestBytes v bytes ∧ intToHex v = hexUpperText bytes := by
  obtain ⟨k, hle, hlt, h⟩ := exists_shortestBytes v
  exact ⟨_, h, intToHex_eq hle hlt⟩

/-- The prefix of a length. -/
theorem numToHexVar32_eq (n : Nat) : numToHexVar32 n = hexUpperText [UInt8.ofNat (n % 256 ||| 0x80)] := by
  unfold numToHexVar32 uvarintEncode32
  split <;> rfl

/-- Of a prefix byte the low seven bits are read. -/
theorem hexVarToNum32_hexText {digit : Nat → UInt8} (hdigit : ∀ d < 16, hexValue (digit d) = some d) (b : UInt8) :
    hexVarToNum32 (hexText digit [b]) = b.toNat % 128 := by
  have hb := b.toNat_lt
  have hcode : hexCode (digit (b.toNat / 16)) (digit (b.toNat % 16)) = b := by
    rw [hexCode_eq (hdigit _ (by omega)) (hdigit _ (by omega)), Nat.div_add_mod, UInt8.ofNat_toNat]
  have hbuf : ((List.range 10).map fun x => hexCode ((hexText digit [b]).getD (2 * x) 0)
      ((hexText digit [b]).getD (2 * x + 1) 0)).take 4 =
      [hexCode (digit (b.toNat / 16)) (digit (b.toNat % 16)), hexCode 0 0, hexCode 0 0, hexCode 0 0] := rfl
  have hzero : hexCode 0 0 = 0 := by decide
  have hlow : b.toNat &&& 0x7f = b.toNat % 128 := Nat.and_two_pow_sub_one_eq_mod b.toNat 7
  rw [hexVarToNum32, uvarintDecode32, hbuf, hcode, hzero]
  simp [uvarintDecode32Loop, hlow]

end Numbers

end Libcp2p

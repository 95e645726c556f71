import Libcp2p.Encoding.Base32
import Libcp2p.Lib.BigEndian

/-!
# The base32 text of RFC 4648

The format in its own terms: the bits of up to five bytes as one number, and its digits to the base 32, most significant
first. `base32Text_eq_rfc4648`: this is the text that the shifts of `base32_encode` produce.
-/

namespace Libcp2p

/-! ## The format -/

/-- The `k` digits of a number to the base 32, most significant first. -/
def digits32 : (k n : Nat) → List Nat
  | 0, _ => []
  | k + 1, n => digits32 k (n / 32) ++ [n % 32]

/-- One quantum: the bits of up to five bytes, filled with zeros to groups of five, a character for each group, and
padding up to eight characters. -/
def rfc4648Quantum (bytes : List UInt8) : List UInt8 :=
  let groups := (8 * bytes.length + 4) / 5
  (digits32 groups (beNat bytes * 2 ^ (5 * groups - 8 * bytes.length))).map b32char ++
    List.replicate (8 - groups) b32pad

/-- The base32 text of RFC 4648: a quantum for each five bytes, and one for what is left. -/
def rfc4648Base32 : List UInt8 → List UInt8
  | [] => []
  | a :: b :: c :: d :: e :: rest => rfc4648Quantum [a, b, c, d, e] ++ rfc4648Base32 rest
  | bytes => rfc4648Quantum bytes

/-! ## The text of the encoder -/

/-- A character depends on five bits. -/
theorem map_b32char_of_mod {is digits : List Nat} (h : is.map (· % 32) = digits) :
    is.map b32char = digits.map b32char := by
  have hmask (n : Nat) : n &&& 0x1f = n % 32 := Nat.and_two_pow_sub_one_eq_mod n 5
  have hchar (n : Nat) : b32char n = b32char (n % 32) := by rw [b32char, b32char, hmask, hmask, Nat.mod_mod]
  subst h
  rw [List.map_map]
  exact List.map_congr_left fun n _ => hchar n

/-- The first digits are those of what is left without the others. -/
theorem digits32_add (k j n : Nat) : digits32 (k + j) n = digits32 k (n / 32 ^ j) ++ digits32 j n := by
  induction j generalizing n with
  | zero => simp [digits32]
  | succ j ih =>
    rw [← Nat.add_assoc, digits32, ih, digits32, List.append_assoc, Nat.div_div_eq_div_mul, Nat.pow_succ, Nat.mul_comm]

theorem length_digits32 (k n : Nat) : (digits32 k n).length = k := by
  induction k generalizing n with
  | zero => rfl
  | succ k ih => rw [digits32, List.length_append, ih, List.length_singleton]

theorem beNat_append_zeros (bytes : List UInt8) (k : Nat) :
    beNat (bytes ++ List.replicate k 0) = beNat bytes * 256 ^ k := by
  induction k with
  | zero => simp
  | succ k ih =>
    rw [List.replicate_succ', ← List.append_assoc, beNat_snoc, ih, Nat.pow_succ, Nat.mul_left_comm, Nat.mul_comm 256]
    simp

/-- The digits of a quantum are the first ones of its bytes filled up with zeros. -/
theorem digits32_quantum {bytes : List UInt8} {k : Nat} (hk : k = (8 * bytes.length + 4) / 5) (hle : bytes.length ≤ 5) :
    digits32 k (beNat bytes * 2 ^ (5 * k - 8 * bytes.length)) =
      (digits32 8 (beNat (bytes ++ List.replicate (5 - bytes.length) 0))).take k := by
  have hk8 : k + (8 - k) = 8 := by omega
  have hbits : 8 * (5 - bytes.length) = (5 * k - 8 * bytes.length) + 5 * (8 - k) := by omega
  have hpow : 256 ^ (5 - bytes.length) = 2 ^ (5 * k - 8 * bytes.length) * 32 ^ (8 - k) := by
    calc 256 ^ (5 - bytes.length) = 2 ^ (8 * (5 - bytes.length)) := by rw [Nat.pow_mul]
      _ = 2 ^ (5 * k - 8 * bytes.length) * 32 ^ (8 - k) := by rw [hbits, Nat.pow_add, Nat.pow_mul]
  have hsplit := digits32_add k (8 - k) (beNat (bytes ++ List.replicate (5 - bytes.length) 0))
  rw [hk8] at hsplit
  rw [hsplit, List.take_left' (length_digits32 _ _), beNat_append_zeros, hpow, ← Nat.mul_assoc,
    Nat.mul_div_cancel _ (Nat.pow_pos (by decide))]

section Quanta

variable (a b c d e : UInt8)

/-- The eight values that the encoder computes from five bytes. -/
def quantumValues : List Nat :=
  [a.toNat >>> 3, a.toNat <<< 2 + b.toNat >>> 6, b.toNat >>> 1, b.toNat <<< 4 + c.toNat >>> 4,
    c.toNat <<< 1 + d.toNat >>> 7, d.toNat >>> 2, d.toNat <<< 3 + e.toNat >>> 5, e.toNat]

/-- They are the digits of the five bytes: those between two bytes carry the low bits of one and the high bits of the
next. -/
theorem quantumValues_mod : (quantumValues a b c d e).map (· % 32) = digits32 8 (beNat [a, b, c, d, e]) := by
  have ha := a.toNat_lt
  have hb := b.toNat_lt
  have hc := c.toNat_lt
  have hd := d.toNat_lt
  have he := e.toNat_lt
  simp only [quantumValues, digits32, beNat, List.foldl, Nat.shiftLeft_eq, Nat.shiftRight_eq_div_pow, List.map,
    List.nil_append, List.cons_append, List.cons.injEq, and_true, Nat.div_div_eq_div_mul]
  refine ⟨?_, ?_, ?_, ?_, ?_, ?_, ?_, ?_⟩
  all_goals omega

/-- A quantum from the values of its bytes filled up with zeros. -/
theorem rfc4648Quantum_eq {bytes : List UInt8} {k : Nat} (hk : k = (8 * bytes.length + 4) / 5) (hle : bytes.length ≤ 5)
    (hbytes : bytes ++ List.replicate (5 - bytes.length) 0 = [a, b, c, d, e]) :
    rfc4648Quantum bytes = ((quantumValues a b c d e).take k).map b32char ++ List.replicate (8 - k) b32pad := by
  have hdigits : ((quantumValues a b c d e).take k).map (· % 32) =
      digits32 k (beNat bytes * 2 ^ (5 * k - 8 * bytes.length)) := by
    rw [digits32_quantum hk hle, hbytes, ← quantumValues_mod, List.map_take]
  unfold rfc4648Quantum
  rw [← hk, map_b32char_of_mod hdigits]

theorem base32Text_one : base32Text [a] = rfc4648Quantum [a] := by
  rw [rfc4648Quantum_eq a 0 0 0 0 (k := 2) (by simp) (by simp) rfl]
  simp [base32Text, quantumValues]

theorem base32Text_two : base32Text [a, b] = rfc4648Quantum [a, b] := by
  rw [rfc4648Quantum_eq a b 0 0 0 (k := 4) (by simp) (by simp) rfl]
  simp [base32Text, quantumValues]

theorem base32Text_three : base32Text [a, b, c] = rfc4648Quantum [a, b, c] := by
  rw [rfc4648Quantum_eq a b c 0 0 (k := 5) (by simp) (by simp) rfl]
  simp [base32Text, quantumValues]

theorem base32Text_four : base32Text [a, b, c, d] = rfc4648Quantum [a, b, c, d] := by
  rw [rfc4648Quantum_eq a b c d 0 (k := 7) (by simp) (by simp) rfl]
  simp [base32Text, quantumValues]

theorem base32Text_five : base32Text [a, b, c, d, e] = rfc4648Quantum [a, b, c, d, e] := by
  rw [rfc4648Quantum_eq a b c d e (k := 8) (by simp) (by simp) rfl]
  simp [base32Text, quantumValues]

end Quanta

/-- **The encoder writes the text of RFC 4648.** -/
theorem base32Text_eq_rfc4648 (bytes : List UInt8) : base32Text bytes = rfc4648Base32 bytes := by
  induction bytes using base32Text.induct with
  | case1 => rfl
  | case2 a => exact base32Text_one a
  | case3 a b => exact base32Text_two a b
  | case4 a b c => exact base32Text_three a b c
  | case5 a b c d => exact base32Text_four a b c d
  | case6 a b c d e rest ih =>
    rw [rfc4648Base32, ← ih, ← base32Text_five]
    rfl

end Libcp2p

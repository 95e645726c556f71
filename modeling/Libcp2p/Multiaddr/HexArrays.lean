import Libcp2p.Lib.Buffer
import Libcp2p.Multiaddr.VarHex

/-!
# The arrays of the hexadecimal conversions

The conversions of `varhexutils.c` as the source has them, with their arrays, their `int` sizes and their indices.
`Int_To_Hex` prints into an array of 50 characters and moves the text up to put a zero in front of it; `Var_To_Hex`
prints the digits of each byte over the NUL behind the last ones; `Hex_To_Var` takes the characters in pairs.

* `intToHexArray_eq`, `varToHexArray_eq`, `hexToVarArray_eq`: inside the ranges of their sizes the three compute
  `intToHex`, `varToHex` and `hexToVar`.
* `hex_round_trip`: byte arrays and 64-bit numbers are read back from their text.
-/

namespace Libcp2p

/-! ## The functions -/

/-- `%02lX`. -/
def hexNumeral (n : Nat) : List UInt8 :=
  let digits := numeral hexUpper 16 n
  if digits.length < 2 then 48 :: digits else digits

/-- `Int_To_Hex` of a 64-bit number: what `result` holds. -/
def intToHexArray (int2hex : Nat) : Except Fault (List UInt8) := do
  let result ← sprintf (List.replicate 50 0) 0 (hexNumeral int2hex)
  let slen := (cstr result).length
  if slen % 2 ≠ 0 then do
    let result ← moveUp result slen
    writeByte result 0 48
  else .ok result

/-- The loop of `vthconvert` at index `i`, with `n` indices left. -/
def vthconvertLoop : (incoming ptr : List UInt8) → (i n : Nat) → Except Fault (List UInt8)
  | _, ptr, _, 0 => .ok ptr
  | [], _, _, _ + 1 => .error .outOfBounds
  | b :: incoming, ptr, i, n + 1 => do
    let ptr ← sprintf ptr (i * 2) (hexLowerText [b])
    vthconvertLoop incoming ptr (i + 1) n

/-- `vthconvert`: the array at `out`, unless it cannot be allocated. A negative size asks for more than there is. -/
def vthconvert (malloc : Bool) (incoming : List UInt8) (inSize : Int) : Except Fault (Option (List UInt8)) :=
  if inSize * 2 + 1 < -2 ^ 31 ∨ 2 ^ 31 ≤ inSize * 2 + 1 then .error .overflow
  else if malloc ∧ 0 ≤ inSize then do
    let out ← vthconvertLoop incoming (List.replicate (inSize * 2 + 1).toNat 0) 0 inSize.toNat
    .ok (some out)
  else .ok none

/-- `Var_To_Hex`: the array it allocates. -/
def varToHexArray (malloc : Bool) : (incoming : Option (List UInt8)) → Except Fault (Option (List UInt8))
  | some incoming => vthconvert malloc incoming (toInt32 incoming.length)
  | none => .ok none

/-- The loop of `Hex_To_Var` with `n` pairs left, over a string with its NUL; `retVal` is what is written so far of an
array of `room` bytes. -/
def hexToVarLoop (incoming : List UInt8) (room : Nat) : (retVal : List UInt8) → (n : Nat) → Except Fault (List UInt8)
  | retVal, 0 => .ok retVal
  | retVal, n + 1 => do
    let c ← readByte incoming (retVal.length * 2)
    let c' ← readByte incoming (retVal.length * 2 + 1)
    if retVal.length < room then hexToVarLoop incoming room (retVal ++ [hexCode c c']) n else .error .outOfBounds

/-- `Hex_To_Var` of a string: the array it allocates and `num_bytes`. Without the array nothing can be written. -/
def hexToVarArray (malloc : Bool) (incoming : List UInt8) : Except Fault (List UInt8 × Nat) := do
  let incomingSize := toInt32 incoming.length
  let numBytes := toUInt64 (incomingSize.tdiv 2)
  let retVal ← hexToVarLoop (incoming ++ [0]) (if malloc then numBytes else 0) [] ((incomingSize + 1) / 2).toNat
  .ok (retVal, numBytes)

/-! ## Numbers -/

section Numbers

variable {v : Nat}

theorem hexUpper_ne_zero {d : Nat} (h : d < 16) : hexUpper d ≠ 0 := (hexValue_facts (hexValue_hexUpper h)).1

theorem zero_notMem_hexNumeral (v : Nat) : 0 ∉ hexNumeral v := by
  have hdigits : 0 ∉ numeral hexUpper 16 v := by
    intro h
    obtain ⟨d, hd, hzero⟩ := mem_numeral (by decide) h
    exact hexUpper_ne_zero hd hzero.symm
  unfold hexNumeral
  dsimp only
  split
  · exact List.not_mem_cons_of_ne_of_not_mem (by decide) hdigits
  · exact hdigits

theorem length_hexNumeral_le (hv : v < 2 ^ 64) : (hexNumeral v).length ≤ 16 := by
  have hdigits : (numeral hexUpper 16 v).length ≤ 16 := length_numeral_le (by decide) (by decide) hv
  unfold hexNumeral
  dsimp only
  split
  · rw [List.length_cons]
    omega
  · exact hdigits

theorem intToHex_eq_hexNumeral (v : Nat) :
    intToHex v = if (hexNumeral v).length % 2 ≠ 0 then 48 :: hexNumeral v else hexNumeral v := rfl

/-- `Int_To_Hex` stays inside its array, which holds the text of the number. -/
theorem intToHexArray_eq (hv : v < 2 ^ 64) :
    ∃ k, 0 < k ∧ intToHexArray v = .ok (intToHex v ++ List.replicate k 0) := by
  have hlen := length_hexNumeral_le hv
  have hprint : sprintf (List.replicate 50 0) 0 (hexNumeral v) =
      .ok (hexNumeral v ++ List.replicate (50 - (hexNumeral v).length) 0) :=
    sprintf_zeros [] (show (hexNumeral v).length < 50 by omega)
  have hstrlen : cstr (hexNumeral v ++ List.replicate (50 - (hexNumeral v).length) 0) = hexNumeral v := by
    obtain ⟨k, hk⟩ : ∃ k, 50 - (hexNumeral v).length = k + 1 := ⟨49 - (hexNumeral v).length, by omega⟩
    rw [hk, List.replicate_succ]
    exact cstr_append_zero (zero_notMem_hexNumeral v) _
  rw [intToHexArray, hprint, ok_bind, hstrlen, intToHex_eq_hexNumeral]
  by_cases hodd : (hexNumeral v).length % 2 ≠ 0
  · rw [if_pos hodd, if_pos hodd, moveUp_zeros (by omega)]
    exact ⟨_, by omega, rfl⟩
  · rw [if_neg hodd, if_neg hodd]
    exact ⟨_, by omega, rfl⟩

end Numbers

/-! ## Byte arrays -/

section Arrays

/-- Each round writes the digits of a byte behind those of the bytes before it. -/
theorem vthconvertLoop_eq (incoming done : List UInt8) (k : Nat) :
    vthconvertLoop incoming (hexLowerText done ++ List.replicate (2 * incoming.length + (k + 1)) 0) done.length
      incoming.length = .ok (hexLowerText (done ++ incoming) ++ List.replicate (k + 1) 0) := by
  induction incoming generalizing done with
  | nil => simp [vthconvertLoop]
  | cons b incoming ih =>
    have hpos : done.length * 2 = (hexLowerText done).length := by
      rw [length_hexLowerText]
      omega
    have htwo : (hexLowerText [b]).length = 2 := length_hexLowerText [b]
    have hroom : 2 * (incoming.length + 1) + (k + 1) - 2 = 2 * incoming.length + (k + 1) := by omega
    have hfront : hexLowerText done ++ hexLowerText [b] = hexLowerText (done ++ [b]) := (hexText_append _ _ _).symm
    have ih := ih (done ++ [b])
    rw [List.length_append, List.length_singleton, List.append_assoc] at ih
    rw [List.length_cons, vthconvertLoop, hpos, sprintf_zeros _ (by omega), ok_bind, htwo, hroom, hfront]
    exact ih

/-- The array of `Var_To_Hex` holds the text of the bytes. -/
theorem varToHexArray_eq {incoming : List UInt8} (h : incoming.length < 2 ^ 30) :
    varToHexArray true (some incoming) = .ok (some (varToHex incoming ++ [0])) := by
  have hsize : toInt32 incoming.length = incoming.length := toInt32_natCast (by omega)
  have hroom : ((incoming.length : Int) * 2 + 1).toNat = 2 * incoming.length + (0 + 1) := by omega
  have hloop := vthconvertLoop_eq incoming [] 0
  rw [varToHexArray, hsize, vthconvert, if_neg (by omega), if_pos ⟨rfl, by omega⟩, hroom, Int.toNat_natCast]
  rw [show vthconvertLoop incoming (List.replicate (2 * incoming.length + (0 + 1)) 0) 0 incoming.length = _ from hloop]
  rfl

/-- The pairs that are left are read behind what is written. -/
theorem hexToVarLoop_eq (front left retVal : List UInt8) (hfront : front.length = retVal.length * 2) :
    hexToVarLoop (front ++ (left ++ [0])) ((front.length + left.length) / 2) retVal ((left.length + 1) / 2) =
      (hexToVar left >>= fun bytes => .ok (retVal ++ bytes)) := by
  fun_induction hexToVar left generalizing front retVal with
  | case1 => simp [hexToVarLoop]
  | case2 c =>
    -- the half byte has a NUL behind it, but no place in the array
    have hc : readByte (front ++ ([c] ++ [0])) (retVal.length * 2) = .ok c := by
      rw [← hfront]
      simp [readByte]
    have hzero : readByte (front ++ ([c] ++ [0])) (retVal.length * 2 + 1) = .ok 0 := by
      rw [← hfront]
      simp [readByte]
    have hfull : ¬ retVal.length < (front.length + 1) / 2 := by omega
    rw [List.length_singleton, show (1 + 1) / 2 = 0 + 1 from rfl, hexToVarLoop, hc, ok_bind, hzero, ok_bind,
      if_neg hfull]
    rfl
  | case3 c c' left ih =>
    have hc : readByte (front ++ (c :: c' :: left ++ [0])) (retVal.length * 2) = .ok c := by
      rw [← hfront]
      simp [readByte]
    have hc' : readByte (front ++ (c :: c' :: left ++ [0])) (retVal.length * 2 + 1) = .ok c' := by
      rw [← hfront]
      simp [readByte]
    have hrounds : ((c :: c' :: left).length + 1) / 2 = (left.length + 1) / 2 + 1 := by
      simp only [List.length_cons]
      omega
    have hfree : retVal.length < (front.length + (c :: c' :: left).length) / 2 := by
      simp only [List.length_cons]
      omega
    have ih := ih (front ++ [c, c']) (retVal ++ [hexCode c c']) (by simp [hfront]; omega)
    have hstring : front ++ [c, c'] ++ (left ++ [0]) = front ++ (c :: c' :: left ++ [0]) := by simp
    have hsize : (front ++ [c, c']).length + left.length = front.length + (c :: c' :: left).length := by
      simp only [List.length_append, List.length_cons, List.length_nil]
      omega
    rw [hstring, hsize] at ih
    rw [hrounds, hexToVarLoop, hc, ok_bind, hc', ok_bind, if_pos hfree, ih]
    cases hexToVar left with
    | ok bytes => simp
    | error e => rfl

/-- `Hex_To_Var` reads a string in pairs; a half byte at its end has no place in the array. -/
theorem hexToVarArray_eq {incoming : List UInt8} (h : incoming.length < 2 ^ 31) :
    hexToVarArray true incoming = (hexToVar incoming >>= fun bytes => .ok (bytes, incoming.length / 2)) := by
  have hsize : toInt32 incoming.length = incoming.length := toInt32_natCast h
  have hbytes : toUInt64 ((incoming.length : Int).tdiv 2) = incoming.length / 2 := by
    rw [toUInt64, Int.tdiv_eq_ediv_of_nonneg (Int.natCast_nonneg _)]
    omega
  have hrounds : (((incoming.length : Int) + 1) / 2).toNat = (incoming.length + 1) / 2 := by omega
  have hloop := hexToVarLoop_eq [] incoming [] rfl
  rw [List.nil_append, List.length_nil, Nat.zero_add] at hloop
  unfold hexToVarArray
  dsimp only
  rw [hsize, hbytes, hrounds, if_pos rfl, hloop]
  cases hexToVar incoming with
  | ok bytes => rfl
  | error e => rfl

end Arrays

/-! ## Reading back -/

/-- A digit that `%lX` writes. -/
def UpperHexDigit (c : UInt8) : Prop := 48 ≤ c ∧ c ≤ 57 ∨ 65 ≤ c ∧ c ≤ 70

theorem upperHexDigit_hexUpper {d : Nat} (h : d < 16) : UpperHexDigit (hexUpper d) := by
  have all : ∀ d < 16, 48 ≤ hexUpper d ∧ hexUpper d ≤ 57 ∨ 65 ≤ hexUpper d ∧ hexUpper d ≤ 70 := by decide
  exact all d h

theorem upperHexDigit_of_mem {bytes : List UInt8} {c : UInt8} (h : c ∈ hexUpperText bytes) : UpperHexDigit c := by
  induction bytes with
  | nil => cases h
  | cons b bytes ih =>
    have hb := b.toNat_lt
    rcases List.mem_cons.mp h with rfl | h
    · exact upperHexDigit_hexUpper (by omega)
    · rcases List.mem_cons.mp h with rfl | h
      · exact upperHexDigit_hexUpper (by omega)
      · exact ih h

/-- Well-formed text is read into an array of its bytes. -/
theorem hexToVarArray_encodes {payload d : List UInt8} (h : Base16Encodes payload d) (hlen : payload.length < 2 ^ 31) :
    hexToVarArray true payload = .ok (d, d.length) := by
  have hhalf : payload.length / 2 = d.length := by
    rw [h.length]
    omega
  rw [hexToVarArray_eq hlen, hexToVar_eq h, ok_bind, hhalf]

/-- **Hexadecimal text is read back.** The text of fewer than `2 ^ 29` bytes is read as these bytes. The text of a
64-bit number is of even length and upper case, is read as the number, and as the shortest bytes that denote it. -/
theorem hex_round_trip (b : List UInt8) (hb : b.length < 2 ^ 29) (v : UInt64) :
    (∃ array text, varToHexArray true (some b) = .ok (some array) ∧ cString array = .ok text ∧
      hexToVarArray true text = .ok (b, b.length)) ∧
    ∃ result text bytes, intToHexArray v.toNat = .ok result ∧ cString result = .ok text ∧
      text.length % 2 = 0 ∧ (∀ c ∈ text, UpperHexDigit c) ∧ hexToInt text = v.toNat ∧
      hexToVarArray true text = .ok (bytes, bytes.length) ∧ ShortestBytes v.toNat bytes := by
  constructor
  · have htext := hexLowerText_encodes b
    have hlen := htext.length
    exact ⟨_, _, varToHexArray_eq (by omega), cString_append htext.zero_notMem [],
      hexToVarArray_encodes htext (by omega)⟩
  · obtain ⟨k, hk, hresult⟩ := intToHexArray_eq v.toNat_lt
    obtain ⟨bytes, hshortest, htext⟩ := intToHex_shortest v.toNat
    have hbytes : bytes.length ≤ 8 := hshortest.length_le (k := 7) v.toNat_lt
    have hencodes := hexUpperText_encodes bytes
    have hlen := hencodes.length
    obtain ⟨k, rfl⟩ : ∃ j, k = j + 1 := ⟨k - 1, by omega⟩
    rw [htext, List.replicate_succ] at hresult
    refine ⟨_, _, bytes, hresult, cString_append hencodes.zero_notMem _, by omega, fun c => upperHexDigit_of_mem, ?_,
      hexToVarArray_encodes hencodes (by omega), hshortest⟩
    exact (hexToInt_hexText (fun d hd => hexValue_hexUpper hd) hbytes).trans hshortest.value

theorem hex_round_trip_two_bytes :
    hexToVarArray true (ascii ['0', '0', 'a', 'b']) = .ok ([0, 171], 2) ∧
      hexToInt (ascii ['0', 'F', 'F', 'F']) = 4095 := by
  obtain ⟨⟨array, text, harray, htext, hread⟩, result, text', -, hresult, htext', -, -, hint, -, -⟩ :=
    hex_round_trip [0, 171] (by decide) 4095
  obtain rfl : ascii ['0', '0', 'a', 'b', '\x00'] = array := Option.some.inj (Except.ok.inj harray)
  obtain rfl : ascii ['0', '0', 'a', 'b'] = text := Except.ok.inj htext
  have hprinted : intToHexArray 4095 = .ok (ascii ['0', 'F', 'F', 'F'] ++ List.replicate 46 0) := by decide
  obtain rfl : ascii ['0', 'F', 'F', 'F'] ++ List.replicate 46 0 = result := Except.ok.inj (hprinted.symm.trans hresult)
  obtain rfl : ascii ['0', 'F', 'F', 'F'] = text' := Except.ok.inj htext'
  exact ⟨hread, hint⟩

end Libcp2p

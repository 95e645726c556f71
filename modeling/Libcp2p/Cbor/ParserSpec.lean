import Libcp2p.Cbor.Format
import Libcp2p.Cbor.Parser
import Mathlib.Tactic.IntervalCases

/-!
# The parser reads the format

What the functions of the tinycbor parser give, in terms of the readers of `Libcp2p.Cbor.Format`:

* `preparseValue_starts`, `preparseValue_stops`: `preparse_value` succeeds exactly where an item starts, and never
  faults; `Preparsed.readInt_cases`, `Preparsed.readSimple_cases`, `Preparsed.byteString_iff` and
  `Preparsed.readArrayHead_cases` say what the type tests and the getters then give;
* `Moved` lists the outcomes of moving to the next item of an array; `moved_of_enter`, `moved_of_next` and
  `moved_of_advance` cover the functions that move;
* `Copied` lists the outcomes of copying a byte string, in one piece or in chunks (`copied_of_copyByteString`).
-/

namespace Libcp2p.Cbor

/-! ## First bytes and heads -/

theorem smallValue_eq (b : UInt8) : smallValue b = info b := by
  unfold smallValue info
  rw [UInt8.toNat_and]
  exact Nat.and_two_pow_sub_one_eq_mod b.toNat 5

theorem shiftRight_eq_major (b : UInt8) : (b >>> 5).toNat = major b := by
  unfold major
  rw [UInt8.toNat_shiftRight]
  exact Nat.shiftRight_eq_div_pow b.toNat 5

/-- The type that goes with each major type. -/
theorem majorType_cases (b : UInt8) :
    (major b = 0 ∧ majorType b = .unsignedInteger) ∨ (major b = 1 ∧ majorType b = .negativeInteger) ∨
    (major b = 2 ∧ majorType b = .byteString) ∨ (major b = 3 ∧ majorType b = .textString) ∨
    (major b = 4 ∧ majorType b = .array) ∨ (major b = 5 ∧ majorType b = .map) ∨
    (major b = 6 ∧ majorType b = .tag) ∨ (major b = 7 ∧ majorType b = .simpleTypes) := by
  have h := major_lt b
  unfold majorType
  rw [shiftRight_eq_major]
  generalize major b = m at *
  interval_cases m <;> simp

section ToType

variable {b : UInt8}

theorem toType_integer : (majorType b).toType = .integer ↔ major b = 0 ∨ major b = 1 := by
  rcases majorType_cases b with h | h | h | h | h | h | h | h <;> simp [h, CborMajorTypes.toType]

theorem toType_byteString : (majorType b).toType = .byteString ↔ major b = 2 := by
  rcases majorType_cases b with h | h | h | h | h | h | h | h <;> simp [h, CborMajorTypes.toType]

theorem toType_array : (majorType b).toType = .array ↔ major b = 4 := by
  rcases majorType_cases b with h | h | h | h | h | h | h | h <;> simp [h, CborMajorTypes.toType]

theorem toType_simple : (majorType b).toType = .simple ↔ major b = 7 := by
  rcases majorType_cases b with h | h | h | h | h | h | h | h <;> simp [h, CborMajorTypes.toType]

end ToType

/-- The first byte of a head whose argument is complete. -/
theorem readArg_isSome {b : UInt8} {bs : List UInt8} :
    (readArg (b :: bs)).isSome ↔ info b ≤ 27 ∧ argWidth (info b) ≤ bs.length := by
  simp only [readArg]
  split_ifs with h1 h2
  · simp [argWidth, h1]; omega
  · simpa using h2
  · simpa using h2

theorem argWidth_eq (i : Nat) : (if i < value8Bit then 0 else 1 <<< (i - value8Bit)) = argWidth i := by
  simp [argWidth, value8Bit, Nat.shiftLeft_eq]

/-- `extract_number` reads a complete head. -/
theorem extractNumber_of_readArg {bs : List UInt8} {r : Nat × List UInt8} (h : readArg bs = some r) :
    extractNumber bs = .ok r := by
  cases bs with
  | nil => cases h
  | cons b bs =>
    simp only [extractNumber, readArg, smallValue_eq, value8Bit, value64Bit, argWidth, Nat.shiftLeft_eq] at h ⊢
    split_ifs at h ⊢ <;> simp_all <;> omega

theorem extractNumber_of_none {bs : List UInt8} (h : readArg bs = none) (hne : bs ≠ []) :
    ∃ e, extractNumber bs = .error (.err e) := by
  cases bs with
  | nil => contradiction
  | cons b bs =>
    simp only [extractNumber, readArg, smallValue_eq, value8Bit, value64Bit, argWidth, Nat.shiftLeft_eq] at h ⊢
    split_ifs at h ⊢ <;> simp_all

/-! ## `preparse_value` -/

/-- What `preparse_value` has set once the first byte is read. -/
def started (it : CborValue) (b : UInt8) : CborValue :=
  { it with type := (majorType b).toType, flags := it.flags.keep, extra := info b }

/-- `preparse_value` at a chunked string or a container without a length. -/
theorem preparseValue_indefinite {it : CborValue} {b : UInt8} {bs : List UInt8} (hp : it.ptr = b :: bs)
    (hi : info b = 31) (hm : major b = 2 ∨ major b = 3 ∨ major b = 4 ∨ major b = 5) :
    preparseValue it = .ok { started it b with flags := { it.flags.keep with unknownLength := true } } := by
  simp only [preparseValue, hp, smallValue_eq, hi, value64Bit, indefiniteLength, started]
  rcases majorType_cases b with h | h | h | h | h | h | h | h <;>
    simp [h.2, CborMajorTypes.toType, isFixedType] <;> omega

/-- `preparse_value` at a complete head. -/
theorem preparseValue_definite {it : CborValue} {b : UInt8} {bs : List UInt8} (hp : it.ptr = b :: bs)
    (ha : (readArg (b :: bs)).isSome) :
    preparseValue it =
      if major b = 1 then
        .ok (preparseNumber { started it b with
          flags := { it.flags.keep with negativeIntegerOrIteratingStringChunks := true } } (info b) bs)
      else if major b = 7 then preparseSimple (started it b) (info b) bs
      else .ok (preparseNumber (started it b) (info b) bs) := by
  obtain ⟨hi, hw⟩ := readArg_isSome.mp ha
  simp only [preparseValue, hp, smallValue_eq, argWidth_eq, List.length_cons, started]
  rw [if_neg (by simp only [value64Bit]; omega), if_neg (by omega)]
  rcases majorType_cases b with h | h | h | h | h | h | h | h <;> simp [h.1, h.2]

/-- `preparse_value` at an incomplete head. -/
theorem preparseValue_truncated {it : CborValue} {b : UInt8} {bs : List UInt8} (hp : it.ptr = b :: bs)
    (hi : info b ≠ 31) (ha : ¬(readArg (b :: bs)).isSome) : ∃ e, preparseValue it = .error (.err e) := by
  rw [readArg_isSome] at ha
  simp only [preparseValue, hp, smallValue_eq, argWidth_eq, List.length_cons, value64Bit, indefiniteLength]
  by_cases h27 : info b > 27
  · exact ⟨_, by rw [if_pos h27, if_pos hi]⟩
  · exact ⟨_, by rw [if_neg h27, if_pos (by omega)]⟩

/-- `preparse_value` where no item starts. -/
theorem preparseValue_stops {it : CborValue} (h : startsItem it.ptr = false) :
    ∃ e, preparseValue it = .error (.err e) := by
  cases hp : it.ptr with
  | nil => exact ⟨.unexpectedEOF, by simp [preparseValue, hp]⟩
  | cons b bs =>
    simp only [hp, startsItem] at h
    by_cases hi : info b = 31
    · simp only [hi, if_true, decide_eq_false_iff_not] at h
      simp only [preparseValue, hp, smallValue_eq, hi, value64Bit, indefiniteLength]
      rcases majorType_cases b with hm | hm | hm | hm | hm | hm | hm | hm <;>
        simp [hm.2, CborMajorTypes.toType, isFixedType] <;> omega
    · by_cases ha : (readArg (b :: bs)).isSome
      · simp only [hi, ha, if_false, true_and, decide_eq_false_iff_not] at h
        push Not at h
        obtain ⟨hm, hi24, hlt⟩ := h
        rw [preparseValue_definite hp ha, hm, hi24]
        exact ⟨.illegalSimpleType, by simp [preparseSimple, hlt]⟩
      · exact preparseValue_truncated hp hi ha

/-- `preparse_value` looks at the position, and keeps what is left and whether a map is read. -/
theorem preparseValue_congr {it it' : CborValue} (hp : it'.ptr = it.ptr) (hr : it'.remaining = it.remaining)
    (hk : it'.flags.keep = it.flags.keep) : preparseValue it' = preparseValue it := by
  obtain ⟨ptr, remaining, extra, type, flags⟩ := it
  obtain ⟨ptr', remaining', extra', type', flags'⟩ := it'
  simp only at hp hr hk
  subst hp hr
  simp only [preparseValue, hk]

theorem preparseNumber_keeps (it : CborValue) (d : Nat) (next : List UInt8) :
    (preparseNumber it d next).ptr = it.ptr ∧ (preparseNumber it d next).remaining = it.remaining ∧
    (preparseNumber it d next).type = it.type ∧ (preparseNumber it d next).flags.keep = it.flags.keep := by
  unfold preparseNumber
  split_ifs <;> simp [CborFlags.keep]

theorem preparseNumber_flags (it : CborValue) (d : Nat) (next : List UInt8) :
    (preparseNumber it d next).flags.negativeIntegerOrIteratingStringChunks =
      it.flags.negativeIntegerOrIteratingStringChunks ∧
    (preparseNumber it d next).flags.unknownLength = it.flags.unknownLength := by
  unfold preparseNumber
  split_ifs <;> simp

/-- `preparse_value` at a simple value keeps it in `extra`. -/
theorem preparseSimple_simple {it : CborValue} {d : Nat} {next : List UInt8} (hd : d < 20) :
    preparseSimple it d next = .ok it := by
  interval_cases d <;> rfl

theorem preparseSimple_nextByte {it : CborValue} {next : List UInt8} (h : 32 ≤ beNat (next.take 1)) :
    preparseSimple it 24 next = .ok { it with extra := beNat (next.take 1) } := by
  simp [preparseSimple, Nat.not_lt.mpr h]

/-- The types that only `preparse_value` of major type 7 gives. -/
def CborType.isLiteral (t : CborType) : Bool :=
  t = .boolean ∨ t = .null ∨ t = .undefined ∨ t = .halfFloat ∨ t = .float ∨ t = .double

/-- `preparse_value` at a truth value, null, undefined or a floating-point number. -/
theorem preparseSimple_literal (it : CborValue) {d : Nat} (next : List UInt8) (hlo : 20 ≤ d) (hhi : d ≤ 27)
    (h24 : d ≠ 24) : ∃ t f x, t.isLiteral ∧
      preparseSimple it d next =
        .ok { it with type := t, flags := { it.flags with integerValueTooLarge := f }, extra := x } := by
  interval_cases d
  all_goals first
    | exact absurd rfl h24
    | exact ⟨_, _, _, by decide, rfl⟩

/-- An iterator that `preparse_value` has nothing left to do for. -/
def Preparsed (it : CborValue) : Prop := preparseValue it = .ok it

/-- `preparse_value` where an item starts. -/
theorem preparseValue_starts {it : CborValue} (h : startsItem it.ptr = true) :
    ∃ it', preparseValue it = .ok it' ∧ Preparsed it' ∧ it'.ptr = it.ptr ∧ it'.remaining = it.remaining ∧
      it'.flags.keep = it.flags.keep := by
  suffices hk : ∃ it', preparseValue it = .ok it' ∧ it'.ptr = it.ptr ∧ it'.remaining = it.remaining ∧
      it'.flags.keep = it.flags.keep by
    obtain ⟨it', h', hp, hr, hf⟩ := hk
    exact ⟨it', h', (preparseValue_congr hp hr hf).trans h', hp, hr, hf⟩
  cases hp : it.ptr with
  | nil => simp [hp, startsItem] at h
  | cons b bs =>
    simp only [hp, startsItem] at h
    by_cases hi : info b = 31
    · simp only [hi, if_true, decide_eq_true_eq] at h
      exact ⟨_, preparseValue_indefinite hp hi h, hp, rfl, rfl⟩
    · simp only [hi, if_false, decide_eq_true_eq] at h
      obtain ⟨ha, hs⟩ := h
      rw [preparseValue_definite hp ha]
      split_ifs with h1 h7
      · obtain ⟨kp, kr, -, kf⟩ := preparseNumber_keeps { started it b with
          flags := { it.flags.keep with negativeIntegerOrIteratingStringChunks := true } } (info b) bs
        exact ⟨_, rfl, kp.trans hp, kr, kf⟩
      · have hi27 := (readArg_isSome.mp ha).1
        by_cases h20 : info b < 20
        · exact ⟨_, preparseSimple_simple h20, hp, rfl, rfl⟩
        · by_cases h24 : info b = 24
          · rw [h24]
            exact ⟨_, preparseSimple_nextByte (hs h7 h24), hp, rfl, rfl⟩
          · obtain ⟨t, f, x, -, he⟩ := preparseSimple_literal (started it b) bs (by omega) hi27 h24
            exact ⟨_, he, hp, rfl, rfl⟩
      · obtain ⟨kp, kr, -, kf⟩ := preparseNumber_keeps (started it b) (info b) bs
        exact ⟨_, rfl, kp.trans hp, kr, kf⟩

/-! ## What stands at the current position -/

section Standing

variable {it : CborValue} {b : UInt8} {bs : List UInt8}

theorem Preparsed.startsItem (h : Preparsed it) : startsItem it.ptr = true := by
  by_contra hs
  obtain ⟨e, he⟩ := preparseValue_stops (Bool.eq_false_iff.mpr hs)
  rw [Preparsed, he] at h
  cases h

/-- Outside major type 7 the first byte gives the type. -/
theorem Preparsed.type_eq (h : Preparsed it) (hp : it.ptr = b :: bs) (hm : major b ≠ 7) :
    it.type = (majorType b).toType := by
  have hs := h.startsItem
  simp only [hp, Cbor.startsItem] at hs
  rw [Preparsed] at h
  by_cases hi : info b = 31
  · simp only [hi, if_true, decide_eq_true_eq] at hs
    rw [preparseValue_indefinite hp hi hs] at h
    rw [← Except.ok.inj h]
    rfl
  · simp only [hi, if_false, decide_eq_true_eq] at hs
    rw [preparseValue_definite hp hs.1, if_neg hm] at h
    split_ifs at h
    · rw [← Except.ok.inj h, (preparseNumber_keeps _ _ _).2.2.1]; rfl
    · rw [← Except.ok.inj h, (preparseNumber_keeps _ _ _).2.2.1]; rfl

/-- In major type 7 the iterator stands at a simple value or at one of the literals. -/
theorem Preparsed.type_of_seven (h : Preparsed it) (hp : it.ptr = b :: bs) (hm : major b = 7) :
    (it.type = .simple ∧ it.extra < 256 ∧
      ∃ a rest, readSimple it.ptr = some (it.extra, rest) ∧ readArg it.ptr = some (a, rest)) ∨
    (it.type.isLiteral ∧ readSimple it.ptr = none) := by
  have hs := h.startsItem
  simp only [hp, Cbor.startsItem] at hs
  have hi : info b ≠ 31 := by intro hi; simp [hi, hm] at hs
  simp only [hi, if_false, decide_eq_true_eq] at hs
  obtain ⟨ha, hs⟩ := hs
  have hw := readArg_isSome.mp ha
  rw [Preparsed, preparseValue_definite hp ha, if_neg (by omega), if_pos hm] at h
  by_cases h20 : info b < 20
  · left
    rw [preparseSimple_simple h20] at h
    rw [← Except.ok.inj h]
    refine ⟨toType_simple.mpr hm, ?_, info b, bs, ?_, ?_⟩
    · simp only [started]; omega
    · simp [started, hp, readSimple, hm, h20]
    · simp [started, hp, readArg, show info b < 24 by omega]
  · by_cases h24 : info b = 24
    · left
      rw [h24, preparseSimple_nextByte (hs hm h24)] at h
      rw [← Except.ok.inj h]
      cases bs with
      | nil => simp [h24, argWidth] at hw
      | cons c bs =>
        refine ⟨toType_simple.mpr hm, ?_, c.toNat, bs, ?_, ?_⟩
        · simpa using c.toNat_lt
        · have h32 := hs hm h24
          simp only [List.take_succ_cons, List.take_zero, beNat_singleton] at h32
          simp [started, hp, readSimple, hm, h24, h32]
        · simp [started, hp, readArg, h24, show argWidth 24 = 1 from rfl]
    · right
      obtain ⟨t, f, x, htl, he⟩ := preparseSimple_literal (started it b) bs (by omega) hw.1 h24
      rw [he] at h
      constructor
      · rw [← Except.ok.inj h]; exact htl
      · simp [hp, readSimple, h20, h24]

/-- `preparse_value` of a number keeps an argument of at most 16 bits in `extra`. -/
theorem preparseNumber_extra {n : Nat} {rest : List UInt8} (ha : readArg (b :: bs) = some (n, rest))
    (hx : it.extra = info b) (hf : it.flags.integerValueTooLarge = false) :
    if (preparseNumber it (info b) bs).flags.integerValueTooLarge then 26 ≤ info b
    else (preparseNumber it (info b) bs).extra = n := by
  simp only [readArg] at ha
  unfold preparseNumber value8Bit value16Bit
  by_cases h24 : info b < 24
  · simp_all
  · rw [if_neg h24] at ha ⊢
    by_cases h8 : info b = 24
    · simp_all [argWidth]
    · by_cases h16 : info b = 25
      · simp_all [argWidth]
      · simp only [h8, h16, if_false, if_true]
        omega

/-- At a complete head outside major type 7 the flags say whether it is a negative integer, and the argument is in
`extra` unless it is wider than 16 bits. -/
theorem Preparsed.number {n : Nat} {rest : List UInt8} (h : Preparsed it) (hp : it.ptr = b :: bs) (hm : major b ≠ 7)
    (ha : readArg (b :: bs) = some (n, rest)) :
    it.flags.negativeIntegerOrIteratingStringChunks = decide (major b = 1) ∧ it.flags.unknownLength = false ∧
    (if it.flags.integerValueTooLarge then 26 ≤ info b else it.extra = n) := by
  rw [Preparsed, preparseValue_definite hp (by rw [ha]; rfl), if_neg hm] at h
  split_ifs at h with h1
  · rw [← Except.ok.inj h]
    obtain ⟨hn, hu⟩ := preparseNumber_flags { started it b with
      flags := { it.flags.keep with negativeIntegerOrIteratingStringChunks := true } } (info b) bs
    exact ⟨by simp [hn, h1], hu, preparseNumber_extra ha rfl rfl⟩
  · rw [← Except.ok.inj h]
    obtain ⟨hn, hu⟩ := preparseNumber_flags (started it b) (info b) bs
    exact ⟨by rw [hn]; simp [h1, started, CborFlags.keep], hu, preparseNumber_extra ha rfl rfl⟩

/-- The argument of a number, from `extra` or from the input. -/
theorem Preparsed.extractInt64Helper_eq {n : Nat} {rest : List UInt8} (h : Preparsed it) (hp : it.ptr = b :: bs)
    (hm : major b ≠ 7) (ha : readArg (b :: bs) = some (n, rest)) : extractInt64Helper it = .ok n := by
  obtain ⟨-, -, hx⟩ := h.number hp hm ha
  unfold extractInt64Helper
  split_ifs at hx ⊢ with htl
  · have hw := readArg_isSome.mp (by rw [ha]; rfl : (readArg (b :: bs)).isSome)
    have hpar : (b &&& 1 = 0) ↔ info b % 2 = 0 := by
      rw [← UInt8.toNat_inj, UInt8.toNat_and]
      have : b.toNat &&& 1 = b.toNat % 2 := Nat.and_one_is_mod b.toNat
      simp only [info]
      change b.toNat &&& 1 = 0 ↔ _
      omega
    simp only [readArg] at ha
    rw [if_neg (by omega), if_pos hw] at ha
    obtain ⟨rfl, -⟩ := Prod.mk.inj (Option.some.inj ha)
    simp only [decodeInt64Internal, cborAssert, hp, htl, true_or, decide_true, if_true, ok_bind, smallValue_eq,
      value32Bit, value64Bit, hpar]
    have h67 : info b = 26 ∨ info b = 27 := by omega
    rcases h67 with h6 | h7
    · simp [h6, argWidth] at hw ⊢
      simp [readBytes, hw, Except.mapError]
    · simp [h7, argWidth] at hw ⊢
      simp [readBytes, hw, Except.mapError]
  · rw [hx]

theorem extractNumberAsserted_of_readArg {bs : List UInt8} {r : Nat × List UInt8} (h : readArg bs = some r) :
    extractNumberAsserted bs = .ok r := by
  rw [extractNumberAsserted, extractNumber_of_readArg h]

theorem Preparsed.ne_nil (h : Preparsed it) : ∃ b bs, it.ptr = b :: bs := by
  cases hp : it.ptr with
  | nil => have := h.startsItem; simp [hp, Cbor.startsItem] at this
  | cons b bs => exact ⟨b, bs, rfl⟩

/-- The types that a first byte outside major type 7 gives are never given in major type 7. -/
theorem Preparsed.type_ne_of_seven (h : Preparsed it) (hp : it.ptr = b :: bs) (hm : major b = 7) :
    it.type ≠ .integer ∧ it.type ≠ .byteString ∧ it.type ≠ .array := by
  rcases h.type_of_seven hp hm with ⟨ht, -⟩ | ⟨ht, -⟩ <;> refine ⟨?_, ?_, ?_⟩ <;> intro he <;>
    simp [he, CborType.isLiteral] at ht

/-- Only strings and containers start with a head of unknown length. -/
theorem Preparsed.readArg_of_fixed (h : Preparsed it) (hp : it.ptr = b :: bs)
    (hm : ¬(major b = 2 ∨ major b = 3 ∨ major b = 4 ∨ major b = 5)) : ∃ n rest, readArg (b :: bs) = some (n, rest) := by
  have hs := h.startsItem
  simp only [hp, Cbor.startsItem] at hs
  split_ifs at hs
  · simp only [decide_eq_true_eq] at hs
    exact absurd hs hm
  · simp only [decide_eq_true_eq] at hs
    obtain ⟨r, hr⟩ := Option.isSome_iff_exists.mp hs.1
    exact ⟨r.1, r.2, hr⟩

theorem toInt64_neg (n : Nat) : toInt64 (-toInt64 n - 1) = toInt64 (-1 - (n : Int)) := by
  unfold toInt64; omega

/-- The iterator stands at an integer, or `is_integer` is false. -/
theorem Preparsed.readInt_cases (h : Preparsed it) :
    (∃ n rest, readInt it.ptr = some (n, rest) ∧ it.type = .integer ∧ cborValueGetInt64 it = .ok (toInt64 n) ∧
      ∃ a, readArg it.ptr = some (a, rest)) ∨
    (readInt it.ptr = none ∧ it.type ≠ .integer) := by
  obtain ⟨b, bs, hp⟩ := h.ne_nil
  by_cases h01 : major b = 0 ∨ major b = 1
  · left
    have h7 : major b ≠ 7 := by omega
    obtain ⟨a, rest, ha⟩ := h.readArg_of_fixed hp (by omega)
    obtain ⟨hneg, -, -⟩ := h.number hp h7 ha
    have ht : it.type = .integer := by rw [h.type_eq hp h7, toType_integer]; exact h01
    have hx := h.extractInt64Helper_eq hp h7 ha
    rcases h01 with h0 | h1
    · refine ⟨a, rest, by simp [readInt, hp, h0, ha], ht, ?_, a, by rw [hp, ha]⟩
      simp [cborValueGetInt64, cborAssert, cborValueIsInteger, ht, hx, hneg, h0]
    · refine ⟨-1 - (a : Int), rest, by simp [readInt, hp, h1, ha], ht, ?_, a, by rw [hp, ha]⟩
      simp [cborValueGetInt64, cborAssert, cborValueIsInteger, ht, hx, hneg, h1, toInt64_neg]
  · right
    constructor
    · simp only [readInt, hp, List.head?_cons, Option.map_some]
      split <;> simp_all
    · by_cases h7 : major b = 7
      · exact (h.type_ne_of_seven hp h7).1
      · rw [h.type_eq hp h7, ne_eq, toType_integer]
        exact h01

/-- The iterator stands at a simple value, or `is_simple_type` is false. -/
theorem Preparsed.readSimple_cases (h : Preparsed it) :
    (∃ v rest, readSimple it.ptr = some (v, rest) ∧ it.type = .simple ∧ cborValueGetSimpleType it = .ok v ∧
      ∃ a, readArg it.ptr = some (a, rest)) ∨
    (readSimple it.ptr = none ∧ it.type ≠ .simple) := by
  obtain ⟨b, bs, hp⟩ := h.ne_nil
  by_cases h7 : major b = 7
  · rcases h.type_of_seven hp h7 with ⟨ht, hlt, a, rest, hr, ha⟩ | ⟨ht, hr⟩
    · left
      refine ⟨it.extra, rest, hr, ht, ?_, a, ha⟩
      simp [cborValueGetSimpleType, cborAssert, cborValueIsSimpleType, ht, Nat.mod_eq_of_lt hlt]
    · right
      exact ⟨hr, by intro he; simp [he, CborType.isLiteral] at ht⟩
  · right
    constructor
    · simp [readSimple, hp, h7]
    · rw [h.type_eq hp h7, ne_eq, toType_simple]
      exact h7

/-- The iterator stands at a byte string exactly when `is_byte_string` is true. -/
theorem Preparsed.byteString_iff (h : Preparsed it) : it.type = .byteString ↔ startsByteString it.ptr := by
  obtain ⟨b, bs, hp⟩ := h.ne_nil
  have hs := h.startsItem
  simp only [hp, Cbor.startsItem] at hs
  simp only [hp, startsByteString, decide_eq_true_eq]
  by_cases h7 : major b = 7
  · simp [(h.type_ne_of_seven hp h7).2.1, h7]
  · rw [h.type_eq hp h7, toType_byteString]
    refine ⟨fun hm => ⟨hm, ?_⟩, fun hm => hm.1⟩
    by_cases hi : info b = 31
    · exact .inl hi
    · simp only [hi, if_false, decide_eq_true_eq] at hs
      exact .inr hs.1

end Standing

/-! ## Moving through an array -/

/-- How many items an iterator at item `k` of an array of `count` items has left, as `remaining` counts. -/
def left (count : Option Nat) (k : Nat) : Nat := (count.map (· - k)).getD UINT32_MAX

/-- A number of items that `enter_container` accepts. -/
def CountFits (count : Option Nat) : Prop := ∀ n ∈ count, n < UINT32_MAX

instance (count : Option Nat) : Decidable (CountFits count) := inferInstanceAs (Decidable (∀ n ∈ count, n < UINT32_MAX))

/-- The iterator is at item `k` (counted from 0) of an array of `count` items. -/
structure InArray (count : Option Nat) (k : Nat) (it : CborValue) : Prop where
  remaining : it.remaining = left count k
  countFits : CountFits count
  inside : ∀ n ∈ count, k < n
  notMap : it.flags.containerIsMap = false

/-- What moving to item `k` of an array of `count` items gives, with `rest` the input from there on: the array is at
its end, an item starts, or an error is reported. -/
inductive Moved (count : Option Nat) (k : Nat) (rest : List UInt8) : Except Stop CborValue → Prop
  | ended (hc : closes count k rest) (it : CborValue) (ht : it.type = .invalid) : Moved count k rest (.ok it)
  | item (hc : ¬closes count k rest) (it : CborValue) (hp : Preparsed it) (hr : it.ptr = rest)
      (ha : InArray count k it) : Moved count k rest (.ok it)
  | stopped (hc : ¬closes count k rest) (hs : startsItem rest = false) (e : CborError) :
      Moved count k rest (.error (.err e))

section Moving

variable {count : Option Nat} {k : Nat} {it : CborValue} {rest : List UInt8}

/-- Parsing the item the iterator has been moved to. -/
theorem moved_of_preparseValue (hp : it.ptr = rest) (hc : ¬closes count k rest) (ha : InArray count k it) :
    Moved count k rest (preparseValue it) := by
  subst hp
  by_cases hs : startsItem it.ptr = true
  · obtain ⟨it', he, hp, hptr, hr, hk⟩ := preparseValue_starts hs
    rw [he]
    refine .item hc it' hp hptr ⟨hr.trans ha.remaining, ha.countFits, ha.inside, ?_⟩
    have : it'.flags.keep.containerIsMap = it.flags.keep.containerIsMap := by rw [hk]
    exact this.trans ha.notMap
  · obtain ⟨e, he⟩ := preparseValue_stops (Bool.eq_false_iff.mpr hs)
    rw [he]
    exact .stopped hc (Bool.eq_false_iff.mpr hs) e

/-- `preparse_next_value_nodecrement` in an array. -/
theorem moved_of_nodecrement (hp : it.ptr = rest) (ht : it.type ≠ .tag) (ha : InArray count k it) :
    Moved count k rest (preparseNextValueNodecrement it) := by
  unfold preparseNextValueNodecrement
  split_ifs with hb hx
  · simp [ha.notMap, ht] at hx
  · refine .ended ?_ _ rfl
    cases count with
    | none => exact .inr ⟨rfl, hp ▸ hb.2⟩
    | some n =>
      have h1 := ha.remaining
      have h2 := ha.countFits n rfl
      simp only [left, Option.map_some, Option.getD_some] at h1
      omega
  · refine moved_of_preparseValue hp ?_ ha
    rintro (rfl | ⟨rfl, hh⟩)
    · exact absurd (ha.inside k rfl) (Nat.lt_irrefl k)
    · exact hb ⟨ha.remaining, hp ▸ hh⟩

/-- `preparse_next_value` in an array. -/
theorem moved_of_next (hp : it.ptr = rest) (ht : it.type ≠ .tag) (ha : InArray count k it) :
    Moved count (k + 1) rest (preparseNextValue it) := by
  unfold preparseNextValue
  cases count with
  | none =>
    have hr : it.remaining = UINT32_MAX := ha.remaining
    simp only [hr, ne_eq, not_true_eq_false, false_and, if_false, ht, not_false_eq_true, decide_true, if_true]
    exact moved_of_nodecrement hp ht ⟨rfl, ha.countFits, by simp, ha.notMap⟩
  | some n =>
    have hr : it.remaining = n - k := ha.remaining
    have hn : n < UINT32_MAX := ha.countFits n rfl
    have hk : k < n := ha.inside n rfl
    have hne : it.remaining ≠ UINT32_MAX := by omega
    have hdec : (it.remaining + UINT32_MAX) % 2 ^ 32 = n - (k + 1) := by
      unfold UINT32_MAX at *; omega
    simp only [hne, ne_eq, not_false_eq_true, ht, decide_true, and_self, true_and, if_true, hdec]
    split_ifs with h0
    · exact .ended (.inl (congrArg some (by omega))) _ rfl
    · refine moved_of_nodecrement hp ht ⟨rfl, ha.countFits, ?_, ha.notMap⟩
      rintro m ⟨rfl⟩
      omega

theorem advanceRecursive_fixed {level : Nat} (h : isFixedType it.type = true) :
    advanceRecursive level it = advanceInternal it := by
  cases level <;> rw [advanceRecursive, if_pos h]

theorem InArray.remaining_ne_zero (ha : InArray count k it) : it.remaining ≠ 0 := by
  rw [ha.remaining]
  cases count with
  | none => simp [left, UINT32_MAX]
  | some n => have := ha.inside n rfl; simp [left]; omega

/-- `cbor_value_advance` over an item of fixed size. -/
theorem moved_of_advance {a : Nat} (ht : it.type = .integer ∨ it.type = .simple) (ha : InArray count k it)
    (hr : readArg it.ptr = some (a, rest)) : Moved count (k + 1) rest (cborValueAdvance it) := by
  have hadv : cborValueAdvance it = preparseNextValue { it with ptr := rest } := by
    have hfix : isFixedType it.type = true := by rcases ht with ht | ht <;> simp [ht, isFixedType]
    have hinv : it.type ≠ .invalid := by rcases ht with ht | ht <;> simp [ht]
    have hstr : ¬(it.type = .byteString ∨ it.type = .textString) := by rcases ht with ht | ht <;> simp [ht]
    simp only [cborValueAdvance, cborAssert, hinv, ne_eq, not_false_eq_true, decide_true, if_true, ok_bind,
      ha.remaining_ne_zero, if_false, advanceRecursive_fixed hfix, advanceInternal,
      extractNumberAsserted_of_readArg hr, hstr]
  rw [hadv]
  refine moved_of_next rfl ?_ ⟨ha.remaining, ha.countFits, ha.inside, ha.notMap⟩
  rcases ht with ht | ht <;> simp [ht]

end Moving

/-! ## The outermost array -/

theorem cborParserInit_eq (buffer : List UInt8) : ∃ it : CborValue,
    it.ptr = buffer ∧ it.remaining = 1 ∧ cborParserInit buffer = preparseValue it :=
  ⟨_, rfl, rfl, rfl⟩

/-- An iterator that stands at an array. -/
theorem Preparsed.readArrayHead_cases {it : CborValue} (h : Preparsed it) :
    (∃ count rest, readArrayHead it.ptr = some (count, rest) ∧ it.type = .array ∧
      (count = none ∧ it.flags.unknownLength = true ∧ rest = it.ptr.tail ∨
        ∃ n, count = some n ∧ it.flags.unknownLength = false ∧ readArg it.ptr = some (n, rest))) ∨
    (readArrayHead it.ptr = none ∧ it.type ≠ .array) := by
  obtain ⟨b, bs, hp⟩ := h.ne_nil
  by_cases h7 : major b = 7
  · exact .inr ⟨by simp [readArrayHead, hp, h7], (h.type_ne_of_seven hp h7).2.2⟩
  · have ht := h.type_eq hp h7
    by_cases h4 : major b = 4
    · left
      rw [toType_array.mpr h4] at ht
      by_cases hi : info b = 31
      · refine ⟨none, bs, by simp [readArrayHead, hp, h4, hi], ht, .inl ⟨rfl, ?_, by rw [hp]; rfl⟩⟩
        rw [Preparsed, preparseValue_indefinite hp hi (by omega)] at h
        rw [← Except.ok.inj h]
      · have hs := h.startsItem
        simp only [hp, Cbor.startsItem, hi, if_false, decide_eq_true_eq] at hs
        obtain ⟨⟨n, rest⟩, hr⟩ := Option.isSome_iff_exists.mp hs.1
        exact ⟨some n, rest, by simp [readArrayHead, hp, h4, hi, hr], ht,
          .inr ⟨n, rfl, (h.number hp h7 hr).2.1, by rw [hp, hr]⟩⟩
    · right
      refine ⟨by simp [readArrayHead, hp, h4], ?_⟩
      rw [ht, ne_eq, toType_array]
      exact h4

/-- `cbor_value_enter_container` at an array. -/
theorem moved_of_enter {it : CborValue} {count : Option Nat} {rest : List UInt8} (ht : it.type = .array)
    (hc : CountFits count)
    (h : count = none ∧ it.flags.unknownLength = true ∧ rest = it.ptr.tail ∨
      ∃ n, count = some n ∧ it.flags.unknownLength = false ∧ readArg it.ptr = some (n, rest)) :
    Moved count 0 rest (cborValueEnterContainer it) := by
  have hcont : cborValueIsContainer it = true := by simp [cborValueIsContainer, ht]
  rcases h with ⟨rfl, hu, rfl⟩ | ⟨n, rfl, hu, hr⟩
  · simp only [cborValueEnterContainer, cborAssert, hcont, if_true, ok_bind, hu]
    exact moved_of_nodecrement rfl (by simp [ht]) ⟨rfl, hc, by simp, by simp [ht]⟩
  · have hn : n < UINT32_MAX := hc n rfl
    have hmod : n % 2 ^ 32 = n := Nat.mod_eq_of_lt (by unfold UINT32_MAX at hn; omega)
    simp only [cborValueEnterContainer, cborAssert, hcont, if_true, ok_bind, hu, extractNumberAsserted_of_readArg hr,
      hmod, ne_eq, not_true_eq_false, false_or, Nat.ne_of_lt hn, if_false, ht, false_and, reduceCtorEq]
    by_cases h0 : n = 0
    · simp only [h0, if_true, pure_eq_ok]
      exact .ended (.inl rfl) _ rfl
    · rw [if_neg h0]
      exact moved_of_nodecrement rfl (by simp) ⟨rfl, hc, by simp; omega, by simp⟩

/-- An array of too many items is not entered. -/
theorem enter_of_not_countFits {it : CborValue} {n : Nat} {rest : List UInt8} (ht : it.type = .array)
    (hc : ¬n < UINT32_MAX) (hu : it.flags.unknownLength = false) (hr : readArg it.ptr = some (n, rest)) :
    cborValueEnterContainer it = .error (.err .dataTooLarge) := by
  have hcont : cborValueIsContainer it = true := by simp [cborValueIsContainer, ht]
  have hbig : n % 2 ^ 32 ≠ n ∨ n = UINT32_MAX := by
    unfold UINT32_MAX at *; omega
  simp only [cborValueEnterContainer, cborAssert, hcont, if_true, ok_bind, hu, extractNumberAsserted_of_readArg hr,
    hbig, Bool.false_eq_true, if_false]

/-- The start of the input: an array, or neither an array nor a fault. -/
theorem cborParserInit_cases (buffer : List UInt8) :
    (readArrayHead buffer = none ∧
      ((∃ e, cborParserInit buffer = .error (.err e)) ∨ ∃ it, cborParserInit buffer = .ok it ∧ it.type ≠ .array)) ∨
    (∃ count rest it, readArrayHead buffer = some (count, rest) ∧ cborParserInit buffer = .ok it ∧
      it.type = .array ∧ it.remaining = 1 ∧
      (CountFits count → Moved count 0 rest (cborValueEnterContainer it)) ∧
      (¬CountFits count → cborValueEnterContainer it = .error (.err .dataTooLarge))) := by
  obtain ⟨it, hp, hr, he⟩ := cborParserInit_eq buffer
  rw [he]
  subst hp
  by_cases hs : Cbor.startsItem it.ptr = true
  · obtain ⟨it', he', hpre, hptr, hr', -⟩ := preparseValue_starts hs
    rw [he', ← hptr]
    rcases hpre.readArrayHead_cases with ⟨count, rest, ha, ht, hc⟩ | ⟨ha, ht⟩
    · refine .inr ⟨count, rest, it', ha, rfl, ht, hr'.trans hr, fun hcount => moved_of_enter ht hcount hc, ?_⟩
      intro hcount
      rcases hc with ⟨rfl, -, -⟩ | ⟨n, rfl, hu, hread⟩
      · exact absurd (by simp [CountFits]) hcount
      · exact enter_of_not_countFits ht (by simpa [CountFits] using hcount) hu hread
    · exact .inl ⟨ha, .inr ⟨it', rfl, ht⟩⟩
  · refine .inl ⟨?_, .inl (preparseValue_stops (Bool.eq_false_iff.mpr hs))⟩
    cases hp : it.ptr with
    | nil => rfl
    | cons b bs =>
      simp only [hp, Cbor.startsItem] at hs
      simp only [readArrayHead]
      split_ifs at hs ⊢ <;> simp_all

/-- `cbor_value_leave_container` of the outermost array. -/
theorem leave_of_invalid {it recursed : CborValue} (ht : it.type = .array) (hr : it.remaining = 1)
    (hi : recursed.type = .invalid) : ∃ it', cborValueLeaveContainer it recursed = .ok it' := by
  simp [cborValueLeaveContainer, cborAssert, cborValueIsContainer, ht, hi, preparseNextValue, hr, UINT32_MAX]

theorem leave_of_valid {it recursed : CborValue} (ht : it.type = .array) (hi : recursed.type ≠ .invalid) :
    cborValueLeaveContainer it recursed = .error (.fault .assertion) := by
  simp [cborValueLeaveContainer, cborAssert, cborValueIsContainer, ht, hi]

/-! ## Byte strings -/

section ByteStrings

variable {count : Option Nat} {k : Nat} {it : CborValue} {b : UInt8} {bs : List UInt8}

@[simp] theorem iterateFrom_ptr (ptr : List UInt8) : (it.iterateFrom ptr).ptr = ptr := rfl

@[simp] theorem iterateFrom_type (ptr : List UInt8) : (it.iterateFrom ptr).type = it.type := rfl

theorem InArray.iterateFrom {ptr : List UInt8} (h : InArray count k it) : InArray count k (it.iterateFrom ptr) :=
  ⟨h.remaining, h.countFits, h.inside, h.notMap⟩

/-- The flags at a chunked string. -/
theorem Preparsed.chunked (h : Preparsed it) (hp : it.ptr = b :: bs) (hm : major b = 2) (hi : info b = 31) :
    it.flags.negativeIntegerOrIteratingStringChunks = false ∧ it.flags.unknownLength = true := by
  rw [Preparsed, preparseValue_indefinite hp hi (.inl hm)] at h
  rw [← Except.ok.inj h]
  exact ⟨rfl, rfl⟩

/-- `cbor_value_get_string_length` at a byte string in one piece. -/
theorem Preparsed.getStringLength_eq {n : Nat} {rest : List UInt8} (h : Preparsed it)
    (hr : readByteHead it.ptr = some (n, rest)) : cborValueGetStringLength it = .ok n := by
  obtain ⟨b, bs, hp⟩ := h.ne_nil
  simp only [readByteHead, hp, List.head?_cons, Option.map_some, Option.some.injEq] at hr
  split_ifs at hr with hm
  have h7 : major b ≠ 7 := by omega
  have ht : it.type = .byteString := by rw [h.type_eq hp h7, toType_byteString]; exact hm
  simp [cborValueGetStringLength, cborAssert, cborValueIsByteString, ht, cborValueIsLengthKnown,
    (h.number hp h7 hr).2.1, h.extractInt64Helper_eq hp h7 hr]

/-- The length of a chunked string is not known. -/
theorem Preparsed.getStringLength_chunked (h : Preparsed it) (ht : it.type = .byteString)
    (hr : readByteHead it.ptr = none) : cborValueGetStringLength it = .error (.err .unknownLength) := by
  obtain ⟨b, bs, hp⟩ := h.ne_nil
  have hs := h.byteString_iff.mp ht
  simp only [hp, startsByteString, decide_eq_true_eq] at hs
  simp only [readByteHead, hp, List.head?_cons, Option.map_some, hs.1, if_true] at hr
  rcases hs with ⟨hm, hi | ha⟩
  · simp [cborValueGetStringLength, cborAssert, cborValueIsByteString, ht, cborValueIsLengthKnown,
      (h.chunked hp hm hi).2]
  · rw [hr] at ha
    cases ha

/-- What copying a byte string gives, from what stands in the input. -/
inductive Copied (buflen : Nat) (count : Option Nat) (k : Nat) :
    Option (List UInt8 × List UInt8) → Except Stop (List UInt8 × CborValue) → Prop
  | fits (s rest : List UInt8) (hs : s.length ≤ buflen) (m : Except Stop CborValue) (hm : Moved count (k + 1) rest m) :
      Copied buflen count k (some (s, rest)) (m.map fun it => (s, it))
  | tooLong (s rest : List UInt8) (hs : buflen < s.length) (e : CborError) :
      Copied buflen count k (some (s, rest)) (.error (.err e))
  | stopped (e : CborError) : Copied buflen count k none (.error (.err e))

/-- The end of `_cbor_value_copy_string`: all was copied, or the buffer was too small. -/
def copyResult : List UInt8 × Bool × CborValue → Except Stop (List UInt8 × CborValue)
  | (copied, copiedAll, next) => if copiedAll then .ok (copied, next) else .error (.err .outOfMemory)

theorem cborValueCopyByteString_eq {buflen : Nat} (ht : it.type = .byteString) :
    cborValueCopyByteString it buflen =
      iterateStringChunksLoop buflen (it.ptr.length + 2) it [] true >>= copyResult := by
  simp only [cborValueCopyByteString, copyString, cborAssert, cborValueIsByteString, ht, decide_true, Bool.true_or,
    if_true, ok_bind]
  rfl

/-- The last round of the loop: nothing more to copy. -/
theorem copied_of_last {buflen fuel : Nat} {copied rest : List UInt8} {m : Except Stop CborValue}
    (hm : Moved count (k + 1) rest m) (hg : getStringChunk it = m.map fun next => (none, next)) :
    Copied buflen count k (some (copied, rest))
      (iterateStringChunksLoop buflen (fuel + 1) it copied (decide (copied.length ≤ buflen)) >>= copyResult) := by
  simp only [iterateStringChunksLoop, hg]
  by_cases hl : copied.length ≤ buflen
  · have hfit := Copied.fits copied rest hl m hm
    cases hm <;> simpa [Except.map, copyResult, hl] using hfit
  · cases hm <;> simpa [Except.map, copyResult, hl] using Copied.tooLong copied rest (by omega) _

theorem readStringChunk_nil (hp : it.ptr = []) : readStringChunk it = .error (.err .unexpectedEOF) := by
  simp only [readStringChunk, hp]

theorem readStringChunk_break (ht : it.type = .byteString) (ha : InArray count k it) (hp : it.ptr = breakByte :: bs) :
    ∃ m, Moved count (k + 1) bs m ∧ readStringChunk it = m.map fun next => (none, next) := by
  refine ⟨preparseNextValue { it with ptr := bs }, moved_of_next rfl (by simp [ht]) ?_, ?_⟩
  · exact ⟨ha.remaining, ha.countFits, ha.inside, ha.notMap⟩
  · simp only [readStringChunk, hp]
    rfl

/-- `get_string_chunk` at a complete piece of a byte string. -/
theorem readStringChunk_piece {s rest : List UInt8} (ht : it.type = .byteString)
    (hr : readPiece it.ptr = some (s, rest)) :
    readStringChunk it = .ok (some s, it.iterateFrom rest) := by
  cases hp : it.ptr with
  | nil => simp [hp, readPiece, readByteHead] at hr
  | cons b bs =>
    simp only [hp, readPiece, readByteHead, List.head?_cons, Option.map_some, Option.some.injEq] at hr
    split_ifs at hr with hm
    · cases ha : readArg (b :: bs) with
      | none => simp [ha] at hr
      | some r =>
        obtain ⟨n, ptr⟩ := r
        simp only [ha, Option.ite_none_right_eq_some, Option.some.injEq, Prod.mk.injEq] at hr
        obtain ⟨hle, rfl, rfl⟩ := hr
        have hb : b ≠ BreakByte := by rintro rfl; revert hm; decide
        simp only [readStringChunk, hp, if_neg hb, ht, toType_byteString.mpr hm, if_true,
          extractNumber_of_readArg ha, ok_bind, if_neg (Nat.not_lt.mpr hle), pure_eq_ok, gt_iff_lt]

/-- `get_string_chunk` where neither a piece nor the end of the string stands. -/
theorem readStringChunk_other (ht : it.type = .byteString) (hp : it.ptr = b :: bs) (hb : b ≠ breakByte)
    (hr : readPiece it.ptr = none) : ∃ e, readStringChunk it = .error (.err e) := by
  simp only [readStringChunk, hp, ht, if_neg (show b ≠ BreakByte from hb)]
  simp only [hp, readPiece, readByteHead, List.head?_cons, Option.map_some, Option.some.injEq] at hr
  split_ifs with hm
  · rw [toType_byteString] at hm
    simp only [hm, if_true] at hr
    cases ha : readArg (b :: bs) with
    | none =>
      obtain ⟨e, he⟩ := extractNumber_of_none ha (by simp)
      exact ⟨e, by rw [he]; rfl⟩
    | some r =>
      simp only [ha, ite_eq_right_iff, reduceCtorEq, imp_false, Nat.not_le] at hr
      exact ⟨.unexpectedEOF, by simp [extractNumber_of_readArg ha, hr]⟩
  · exact ⟨_, rfl⟩

/-- The iterator is inside a chunked byte string. -/
structure InChunks (count : Option Nat) (k : Nat) (it : CborValue) : Prop where
  type : it.type = .byteString
  iterating : it.flags.negativeIntegerOrIteratingStringChunks = true
  unknownLength : it.flags.unknownLength = true
  inArray : InArray count k it

theorem InChunks.getStringChunk_eq (h : InChunks count k it) : getStringChunk it = readStringChunk it := by
  simp [getStringChunk, h.iterating, cborValueIsLengthKnown, h.unknownLength]

theorem length_of_readPiece {s rest bs : List UInt8} (h : readPiece bs = some (s, rest)) : rest.length < bs.length := by
  unfold readPiece at h
  split at h
  · rename_i n rest' hr
    split_ifs at h
    obtain ⟨-, rfl⟩ := Prod.mk.inj (Option.some.inj h)
    unfold readByteHead at hr
    split_ifs at hr
    have := length_of_readArg hr
    simp; omega
  · cases h

/-- **The loop of `iterate_string_chunks`** over the pieces of a chunked byte string. The flag says whether what was
copied so far fits. -/
theorem copied_of_pieces {buflen : Nat} (hbuf : buflen ≤ SIZE_MAX) (fuel fuel' : Nat) (copied : List UInt8)
    (h : InChunks count k it) (hf : it.ptr.length < fuel) (hf' : it.ptr.length < fuel') :
    Copied buflen count k ((readPieces fuel' it.ptr).map fun r => (copied ++ r.1, r.2))
      (iterateStringChunksLoop buflen fuel it copied (decide (copied.length ≤ buflen)) >>= copyResult) := by
  induction fuel generalizing it fuel' copied with
  | zero => omega
  | succ fuel ih =>
    obtain ⟨fuel', rfl⟩ : ∃ f, fuel' = f + 1 := ⟨fuel' - 1, by omega⟩
    cases hp : it.ptr with
    | nil =>
      simp only [iterateStringChunksLoop, h.getStringChunk_eq, readStringChunk_nil hp, error_bind]
      exact .stopped _
    | cons b bs =>
      by_cases hb : b = breakByte
      · subst hb
        obtain ⟨m, hm, hg⟩ := readStringChunk_break h.type h.inArray hp
        simpa [readPieces] using copied_of_last hm (h.getStringChunk_eq.trans hg)
      · simp only [readPieces, if_neg hb]
        rw [← hp]
        cases hr : readPiece it.ptr with
        | none =>
          obtain ⟨e, he⟩ := readStringChunk_other h.type hp hb hr
          simp only [iterateStringChunksLoop, h.getStringChunk_eq, he, error_bind]
          exact .stopped _
        | some r =>
          obtain ⟨s, rest⟩ := r
          have hlen := length_of_readPiece hr
          simp only [iterateStringChunksLoop, h.getStringChunk_eq, readStringChunk_piece h.type hr, ok_bind]
          split_ifs with hov
          · -- the total overflows `size_t`, so it does not fit in the buffer either
            cases readPieces fuel' rest with
            | none => exact .stopped _
            | some r => exact .tooLong _ _ (by simp; omega) _
          · have hflag : (decide (copied.length ≤ buflen) && decide (copied.length + s.length ≤ buflen)) =
                decide ((copied ++ s).length ≤ buflen) := by
              rw [List.length_append, ← Bool.decide_and, decide_eq_decide]
              omega
            have hnext : InChunks count k (it.iterateFrom rest) :=
              ⟨h.type, rfl, h.unknownLength, h.inArray.iterateFrom⟩
            have hrec := ih fuel' (copied ++ s) hnext (by simp only [iterateFrom_ptr]; omega)
              (by simp only [iterateFrom_ptr]; omega)
            rw [hflag]
            simpa [Option.map_map, Function.comp_def] using hrec

/-- `iterate_string_chunks` over a byte string in one piece: the chunk, and then the end. -/
theorem copied_of_piece {buflen fuel : Nat} (hbuf : buflen ≤ SIZE_MAX) (h : Preparsed it) (ht : it.type = .byteString)
    (ha : InArray count k it) (hneg : it.flags.negativeIntegerOrIteratingStringChunks = false)
    (hu : it.flags.unknownLength = false) :
    Copied buflen count k (readPiece it.ptr) (iterateStringChunksLoop buflen (fuel + 2) it [] true >>= copyResult) := by
  have hprep : prepareStringIteration it = it := by simp [prepareStringIteration, cborValueIsLengthKnown, hu]
  have hg : getStringChunk it = readStringChunk it := by simp [getStringChunk, hneg, hprep]
  obtain ⟨b, bs, hp⟩ := h.ne_nil
  have hs := h.byteString_iff.mp ht
  simp only [hp, startsByteString, decide_eq_true_eq] at hs
  cases hr : readPiece it.ptr with
  | none =>
    have hb : b ≠ breakByte := by rintro rfl; revert hs; simp [show major breakByte = 7 from rfl]
    obtain ⟨e, he⟩ := readStringChunk_other ht hp hb hr
    simp only [iterateStringChunksLoop, hg, he, error_bind]
    exact .stopped _
  | some r =>
    obtain ⟨s, rest⟩ := r
    rw [iterateStringChunksLoop]
    simp only [hg, readStringChunk_piece ht hr, ok_bind, List.length_nil, Nat.zero_add, List.nil_append, Bool.true_and]
    split_ifs with hov
    · exact .tooLong _ _ (by omega) _
    · have hlast : getStringChunk (it.iterateFrom rest) =
          (preparseNextValue (it.iterateFrom rest)).map fun next => (none, next) := by
        simp [getStringChunk, cborValueIsLengthKnown, CborValue.iterateFrom, hu]
      exact copied_of_last (moved_of_next rfl (by simp [ht]) ha.iterateFrom) hlast

/-- **`cbor_value_copy_byte_string`** in an array, from what stands in the input. -/
theorem copied_of_copyByteString {buflen : Nat} (hbuf : buflen ≤ SIZE_MAX) (h : Preparsed it)
    (ht : it.type = .byteString) (ha : InArray count k it) :
    Copied buflen count k (readByteString it.ptr) (cborValueCopyByteString it buflen) := by
  rw [cborValueCopyByteString_eq ht]
  obtain ⟨b, bs, hp⟩ := h.ne_nil
  have hs := h.byteString_iff.mp ht
  simp only [hp, startsByteString, decide_eq_true_eq] at hs
  by_cases hi : info b = 31
  · obtain ⟨hneg, hu⟩ := h.chunked hp hs.1 hi
    -- the first round only steps over the head of the string
    have hstep : ∀ fuel, iterateStringChunksLoop buflen (fuel + 1) it [] true =
        iterateStringChunksLoop buflen (fuel + 1) (prepareStringIteration it) [] true := by
      intro fuel
      have : getStringChunk it = getStringChunk (prepareStringIteration it) := by
        simp [getStringChunk, hneg, prepareStringIteration, cborValueIsLengthKnown, hu, CborValue.iterateFrom]
      simp only [iterateStringChunksLoop, this]
    have hprep : prepareStringIteration it = it.iterateFrom bs := by
      simp [prepareStringIteration, cborValueIsLengthKnown, hu, hp]
    have hin : InChunks count k (it.iterateFrom bs) := ⟨ht, rfl, hu, ha.iterateFrom⟩
    have hrec := copied_of_pieces hbuf (it.ptr.length + 2) (bs.length + 1) [] hin
      (by rw [iterateFrom_ptr, hp, List.length_cons]; omega) (Nat.lt_succ_self _)
    rw [hstep, hprep]
    simpa [readByteString, hp, hs.1, hi] using hrec
  · obtain ⟨r, hr⟩ := Option.isSome_iff_exists.mp (hs.2.resolve_left hi)
    obtain ⟨hneg, hu, -⟩ := h.number hp (by omega) hr
    have hread : readByteString it.ptr = readPiece it.ptr := by simp [hp, readByteString, hi]
    rw [hread]
    exact copied_of_piece hbuf h ht ha (by rw [hneg]; simp [hs.1]) hu

end ByteStrings

end Libcp2p.Cbor

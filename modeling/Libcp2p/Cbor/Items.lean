import Libcp2p.Cbor.ParserSpec

/-!
# Items of an array

A decoder that walks through an array asks at every position for an item of one kind and gives up otherwise. For each
kind this says what it then finds: `Moved.int_cases`, `Moved.simple_cases`, `Moved.byteString_cases` and
`Moved.byteHead_cases` compare what the iterator gives with what the readers of the format give at that position.
-/

namespace Libcp2p.Cbor

/-- The rest of the input as item `k` of an array of `count` items, if the array does not end here. -/
def itemAt (count : Option Nat) (k : Nat) (rest : List UInt8) : Option (List UInt8) :=
  if closes count k rest then none else some rest

theorem itemAt_eq_some {count : Option Nat} {k : Nat} {rest r : List UInt8} :
    itemAt count k rest = some r ↔ ¬closes count k rest ∧ rest = r := by
  unfold itemAt
  split_ifs with h <;> simp [h]

section Items

variable {count : Option Nat} {k : Nat} {rest : List UInt8} {m : Except Stop CborValue}

theorem startsItem_of_readInt {r : Int × List UInt8} (h : readInt rest = some r) : startsItem rest = true := by
  cases rest with
  | nil => simp [readInt] at h
  | cons b bs =>
    have hi : info b ≠ 31 := by
      intro hi
      simp [readInt, readArg, hi] at h
    have hm : major b ≠ 7 := by
      intro hm
      simp [readInt, hm] at h
    have ha : (readArg (b :: bs)).isSome := by
      cases hr : readArg (b :: bs) with
      | none => simp [readInt, hr] at h
      | some r => rfl
    simp [startsItem, hi, ha, hm]

theorem startsItem_of_readSimple {r : Nat × List UInt8} (h : readSimple rest = some r) : startsItem rest = true := by
  cases rest with
  | nil => simp [readSimple] at h
  | cons b bs =>
    simp only [readSimple] at h
    split_ifs at h with h1 h2
    · have ha : (readArg (b :: bs)).isSome := by simp [readArg, show info b < 24 by omega]
      have h31 : info b ≠ 31 := by omega
      have h24 : info b ≠ 24 := by omega
      simp [startsItem, h31, h24, ha]
    · have ha : (readArg (b :: bs)).isSome := by
        rw [readArg_isSome, h2.2.1]
        exact ⟨by omega, List.length_pos_of_ne_nil h2.2.2.1⟩
      simp [startsItem, ha, h2]

theorem startsItem_of_startsByteString (h : startsByteString rest = true) : startsItem rest = true := by
  cases rest with
  | nil => simp [startsByteString] at h
  | cons b bs =>
    simp only [startsByteString, decide_eq_true_eq] at h
    by_cases hi : info b = 31
    · simp [startsItem, hi, h.1]
    · simp [startsItem, hi, h.2.resolve_left hi, h.1]

theorem Preparsed.type_ne_invalid {it : CborValue} (h : Preparsed it) : it.type ≠ .invalid := by
  obtain ⟨b, bs, hp⟩ := h.ne_nil
  by_cases h7 : major b = 7
  · rcases h.type_of_seven hp h7 with ⟨ht, -⟩ | ⟨ht, -⟩ <;> intro he <;> simp [he, CborType.isLiteral] at ht
  · rw [h.type_eq hp h7]
    cases majorType b <;> simp [CborMajorTypes.toType]

/-- After moving to an item: an integer stands there, or the decoder gives up. -/
theorem Moved.int_cases (h : Moved count k rest m) :
    ((itemAt count k rest).bind readInt = none ∧
      ((∃ e, m = .error (.err e)) ∨ ∃ it, m = .ok it ∧ it.type ≠ .integer)) ∨
    (∃ n rest' it, (itemAt count k rest).bind readInt = some (n, rest') ∧ m = .ok it ∧ it.type = .integer ∧
      cborValueGetInt64 it = .ok (toInt64 n) ∧ Moved count (k + 1) rest' (cborValueAdvance it)) := by
  cases h with
  | ended hc it ht => exact .inl ⟨by simp [itemAt, hc], .inr ⟨it, rfl, by simp [ht]⟩⟩
  | stopped hc hs e =>
    refine .inl ⟨?_, .inl ⟨e, rfl⟩⟩
    cases hr : readInt rest with
    | none => simp [itemAt, hc, hr]
    | some r => rw [startsItem_of_readInt hr] at hs; cases hs
  | item hc it hp hr ha =>
    subst hr
    rcases hp.readInt_cases with ⟨n, rest', hread, ht, hget, a, harg⟩ | ⟨hread, ht⟩
    · exact .inr ⟨n, rest', it, by simp [itemAt, hc, hread], rfl, ht, hget, moved_of_advance (.inl ht) ha harg⟩
    · exact .inl ⟨by simp [itemAt, hc, hread], .inr ⟨it, rfl, ht⟩⟩

/-- After moving to an item: a simple value stands there, or the decoder gives up. -/
theorem Moved.simple_cases (h : Moved count k rest m) :
    ((itemAt count k rest).bind readSimple = none ∧
      ((∃ e, m = .error (.err e)) ∨ ∃ it, m = .ok it ∧ it.type ≠ .simple)) ∨
    (∃ v rest' it, (itemAt count k rest).bind readSimple = some (v, rest') ∧ m = .ok it ∧ it.type = .simple ∧
      cborValueGetSimpleType it = .ok v ∧ Moved count (k + 1) rest' (cborValueAdvance it)) := by
  cases h with
  | ended hc it ht => exact .inl ⟨by simp [itemAt, hc], .inr ⟨it, rfl, by simp [ht]⟩⟩
  | stopped hc hs e =>
    refine .inl ⟨?_, .inl ⟨e, rfl⟩⟩
    cases hr : readSimple rest with
    | none => simp [itemAt, hc, hr]
    | some r => rw [startsItem_of_readSimple hr] at hs; cases hs
  | item hc it hp hr ha =>
    subst hr
    rcases hp.readSimple_cases with ⟨v, rest', hread, ht, hget, a, harg⟩ | ⟨hread, ht⟩
    · exact .inr ⟨v, rest', it, by simp [itemAt, hc, hread], rfl, ht, hget, moved_of_advance (.inr ht) ha harg⟩
    · exact .inl ⟨by simp [itemAt, hc, hread], .inr ⟨it, rfl, ht⟩⟩

/-- The input as a byte string that starts here. -/
def byteStringAt (rest : List UInt8) : Option (List UInt8) := if startsByteString rest then some rest else none

/-- After moving to an item: a byte string starts there, or the decoder gives up. -/
theorem Moved.byteString_cases (h : Moved count k rest m) :
    ((itemAt count k rest).bind byteStringAt = none ∧
      ((∃ e, m = .error (.err e)) ∨ ∃ it, m = .ok it ∧ it.type ≠ .byteString)) ∨
    (∃ it, (itemAt count k rest).bind byteStringAt = some rest ∧ m = .ok it ∧ it.type = .byteString ∧ Preparsed it ∧
      it.ptr = rest ∧ InArray count k it) := by
  cases h with
  | ended hc it ht => exact .inl ⟨by simp [itemAt, hc], .inr ⟨it, rfl, by simp [ht]⟩⟩
  | stopped hc hs e =>
    refine .inl ⟨?_, .inl ⟨e, rfl⟩⟩
    have : startsByteString rest ≠ true := fun hb => by rw [startsItem_of_startsByteString hb] at hs; cases hs
    simp [itemAt, hc, byteStringAt, this]
  | item hc it hp hr ha =>
    subst hr
    by_cases ht : it.type = .byteString
    · exact .inr ⟨it, by simp [itemAt, hc, byteStringAt, hp.byteString_iff.mp ht], rfl, ht, hp, rfl, ha⟩
    · refine .inl ⟨?_, .inr ⟨it, rfl, ht⟩⟩
      rw [hp.byteString_iff] at ht
      simp [itemAt, hc, byteStringAt, ht]

theorem readByteHead_none (h : startsByteString rest ≠ true) : readByteHead rest = none := by
  cases rest with
  | nil => rfl
  | cons b bs =>
    simp only [startsByteString, ne_eq, decide_eq_true_iff, not_and, not_or, Option.not_isSome_iff_eq_none] at h
    simp only [readByteHead, List.head?_cons, Option.map_some, Option.some.injEq]
    split_ifs with hm
    · exact (h hm).2
    · rfl

/-- A byte string with a known length is in one piece. -/
theorem readByteString_of_head {len : Nat} {bs : List UInt8} (h : readByteHead rest = some (len, bs)) :
    readByteString rest = if len ≤ bs.length then some (bs.take len, bs.drop len) else none := by
  cases rest with
  | nil => simp [readByteHead] at h
  | cons b bs' =>
    have hi : info b ≠ 31 := by
      intro hi
      simp [readByteHead, readArg, hi] at h
    simp [readByteString, hi, readPiece, h]

/-- After moving to an item: a byte string of known length starts there, or the decoder gives up. -/
theorem Moved.byteHead_cases (h : Moved count k rest m) :
    ((itemAt count k rest).bind readByteHead = none ∧
      ((∃ e, m = .error (.err e)) ∨ (∃ it, m = .ok it ∧ it.type ≠ .byteString) ∨
        ∃ it e, m = .ok it ∧ it.type = .byteString ∧ cborValueGetStringLength it = .error (.err e))) ∨
    (∃ len rest' it, (itemAt count k rest).bind readByteHead = some (len, rest') ∧ m = .ok it ∧
      it.type = .byteString ∧ cborValueGetStringLength it = .ok len ∧
      Copied len count k (if len ≤ rest'.length then some (rest'.take len, rest'.drop len) else none)
        (cborValueCopyByteString it len)) := by
  rcases h.byteString_cases with ⟨hr, hm⟩ | ⟨it, hr, rfl, ht, hp, hptr, ha⟩
  · refine .inl ⟨?_, hm.imp_right .inl⟩
    unfold itemAt byteStringAt at hr
    unfold itemAt
    split_ifs at hr ⊢ with hc
    · rfl
    · simp only [Option.bind_some, ite_eq_right_iff, reduceCtorEq, imp_false] at hr ⊢
      exact readByteHead_none hr
  · have hitem : itemAt count k rest = some rest := by
      unfold itemAt byteStringAt at hr
      unfold itemAt
      split_ifs at hr ⊢ with hc <;> simp_all
    subst hptr
    rw [hitem, Option.bind_some]
    cases hhead : readByteHead it.ptr with
    | none => exact .inl ⟨rfl, .inr (.inr ⟨it, _, rfl, ht, hp.getStringLength_chunked ht hhead⟩)⟩
    | some r =>
      obtain ⟨len, rest'⟩ := r
      have hlen : len ≤ SIZE_MAX := by
        unfold readByteHead at hhead
        split_ifs at hhead
        have := readArg_lt hhead
        unfold SIZE_MAX
        omega
      refine .inr ⟨len, rest', it, rfl, rfl, ht, hp.getStringLength_eq hhead, ?_⟩
      rw [← readByteString_of_head hhead]
      exact copied_of_copyByteString hlen hp ht ha

end Items

end Libcp2p.Cbor

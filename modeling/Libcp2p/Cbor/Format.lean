import Libcp2p.Lib.BigEndian

/-!
# The CBOR format

The part of the format that the messages use, read off byte strings without any parser state. An item starts with a
head: the high three bits of its first byte are the major type, the low five bits either the argument itself or the
width of the argument that follows (`readArg`). Integers, simple values, byte strings (in one piece or in chunks) and
the heads of arrays are read by `readInt`, `readSimple`, `readByteString` and `readArrayHead`; each returns what is
left of the input. `head m n` is the shortest head of major type `m` with argument `n`: reading it gives `n` back
(`readArg_head`), and no strict prefix of it is a head (`readArg_head_truncated`).
-/

namespace Libcp2p.Cbor

/-- The major type of an item that starts with `b`. -/
def major (b : UInt8) : Nat := b.toNat / 32

/-- The additional information of an item that starts with `b`. -/
def info (b : UInt8) : Nat := b.toNat % 32

/-- How many bytes of argument follow a first byte with additional information `i`. -/
def argWidth (i : Nat) : Nat := if i < 24 then 0 else 2 ^ (i - 24)

/-- The first byte of every chunked item's end. -/
def breakByte : UInt8 := 0xff

theorem major_lt (b : UInt8) : major b < 8 := by
  have := b.toNat_lt
  unfold major
  omega

theorem info_lt (b : UInt8) : info b < 32 := by unfold info; omega

/-! ## Heads -/

/-- The argument of the head at the front of the input, for heads of definite length. -/
def readArg : List UInt8 → Option (Nat × List UInt8)
  | [] => none
  | b :: bs =>
    if info b < 24 then some (info b, bs)
    else if info b ≤ 27 ∧ argWidth (info b) ≤ bs.length then
      some (beNat (bs.take (argWidth (info b))), bs.drop (argWidth (info b)))
    else none

/-- What is left after a head is shorter than the input. -/
theorem length_of_readArg {bs rest : List UInt8} {n : Nat} (h : readArg bs = some (n, rest)) :
    rest.length < bs.length := by
  cases bs with
  | nil => cases h
  | cons b bs =>
    simp only [readArg] at h
    split at h
    · cases h; simp
    · split at h
      · cases h
        rw [List.length_drop, List.length_cons]
        omega
      · cases h

/-- An argument fits in 64 bits. -/
theorem readArg_lt {bs rest : List UInt8} {n : Nat} (h : readArg bs = some (n, rest)) : n < 2 ^ 64 := by
  cases bs with
  | nil => cases h
  | cons b bs =>
    simp only [readArg] at h
    split at h
    · cases h; have := info_lt b; omega
    · split at h
      · rename_i hi hw
        cases h
        have hlen : (bs.take (argWidth (info b))).length ≤ 8 := by
          have : argWidth (info b) ≤ 2 ^ 3 := by
            unfold argWidth
            rw [if_neg hi]
            exact Nat.pow_le_pow_right (by omega) (by omega)
          rw [List.length_take]
          omega
        calc beNat (bs.take (argWidth (info b)))
            < 256 ^ (bs.take (argWidth (info b))).length := beNat_lt _
          _ ≤ 256 ^ 8 := Nat.pow_le_pow_right (by omega) hlen
          _ = 2 ^ 64 := by norm_num
      · cases h

/-- The first byte of major type `m` and additional information `i`. -/
def initialByte (m i : Nat) : UInt8 := UInt8.ofNat (32 * m + i)

theorem major_initialByte {m i : Nat} (hm : m < 8) (hi : i < 32) : major (initialByte m i) = m := by
  have h : (UInt8.ofNat (32 * m + i)).toNat = 32 * m + i := by
    rw [UInt8.toNat_ofNat']; omega
  unfold major initialByte
  rw [h]; omega

theorem info_initialByte {m i : Nat} (hm : m < 8) (hi : i < 32) : info (initialByte m i) = i := by
  have h : (UInt8.ofNat (32 * m + i)).toNat = 32 * m + i := by
    rw [UInt8.toNat_ofNat']; omega
  unfold info initialByte
  rw [h]; omega

/-- The number of argument bytes the shortest head needs, as the power of two that follows `24` in the first byte;
`none` when the argument is in the first byte. -/
def widthCode (n : Nat) : Option Nat :=
  if n < 24 then none
  else if n ≤ 0xff then some 0
  else if n ≤ 0xffff then some 1
  else if n ≤ 0xffffffff then some 2
  else some 3

/-- The shortest head of major type `m` with argument `n`. -/
def head (m n : Nat) : List UInt8 :=
  match widthCode n with
  | none => [initialByte m n]
  | some k => initialByte m (24 + k) :: beBytes (2 ^ k) n

/-- The cases of the shortest head: the argument alone, or a width that holds it. -/
theorem widthCode_cases {n : Nat} (h : n < 2 ^ 64) :
    (widthCode n = none ∧ n < 24) ∨ ∃ k, widthCode n = some k ∧ k < 4 ∧ 24 ≤ n ∧ n < 256 ^ 2 ^ k := by
  unfold widthCode
  split
  · exact .inl ⟨rfl, by assumption⟩
  · right
    split
    · exact ⟨0, rfl, by omega, by omega, by norm_num; omega⟩
    · split
      · exact ⟨1, rfl, by omega, by omega, by norm_num; omega⟩
      · split
        · exact ⟨2, rfl, by omega, by omega, by norm_num; omega⟩
        · exact ⟨3, rfl, by omega, by omega, by norm_num; omega⟩

/-- The first byte of the shortest head has the major type asked for. -/
theorem head_cons {m n : Nat} (hm : m < 8) (h : n < 2 ^ 64) :
    ∃ b bs, head m n = b :: bs ∧ major b = m ∧ info b ≤ 27 ∧ bs.length = argWidth (info b) := by
  rcases widthCode_cases h with ⟨hw, hn⟩ | ⟨k, hw, hk, hn, hlt⟩
  · refine ⟨initialByte m n, [], by simp [head, hw], major_initialByte hm (by omega), ?_, ?_⟩
    · rw [info_initialByte hm (by omega)]; omega
    · rw [info_initialByte hm (by omega), argWidth, if_pos hn]; rfl
  · refine ⟨initialByte m (24 + k), beBytes (2 ^ k) n, by simp [head, hw], major_initialByte hm (by omega), ?_, ?_⟩
    · rw [info_initialByte hm (by omega)]; omega
    · rw [info_initialByte hm (by omega), argWidth, if_neg (by omega), length_beBytes]
      congr 1
      omega

/-- A head of 64 bits takes at most nine bytes. -/
theorem length_head_le (m n : Nat) : (head m n).length ≤ 9 := by
  unfold head
  split
  · simp
  · rename_i k hk
    have hk3 : k ≤ 3 := by
      unfold widthCode at hk
      split at hk
      · cases hk
      · split at hk
        · cases hk; omega
        · split at hk
          · cases hk; omega
          · split at hk <;> cases hk <;> omega
    have : 2 ^ k ≤ 2 ^ 3 := Nat.pow_le_pow_right (by omega) hk3
    simp only [List.length_cons, length_beBytes]
    omega

/-- The shortest head of an argument that fits in `2 ^ k` bytes. -/
theorem length_head_le_of_lt {m n k : Nat} (hk : k ≤ 3) (h : n < 256 ^ 2 ^ k) : (head m n).length ≤ 1 + 2 ^ k := by
  rcases Nat.lt_or_ge k 3 with hk3 | hk3
  · unfold head widthCode
    have hk : k = 0 ∨ k = 1 ∨ k = 2 := by omega
    rcases hk with rfl | rfl | rfl <;> norm_num at h ⊢ <;> split_ifs <;> simp <;> omega
  · obtain rfl : k = 3 := by omega
    exact length_head_le m n

/-- How long a head is depends on the argument only. -/
theorem length_head_eq (m m' n : Nat) : (head m n).length = (head m' n).length := by
  unfold head
  cases widthCode n with
  | none => rfl
  | some k => simp

/-- An argument of more than 16 bits takes at least five bytes. -/
theorem five_le_length_head {m n : Nat} (h : 2 ^ 16 ≤ n) : 5 ≤ (head m n).length := by
  unfold head widthCode
  rw [if_neg (by omega), if_neg (by omega), if_neg (by omega)]
  split_ifs <;> simp

/-- A head of 32 bits takes at most five bytes. -/
theorem length_head_le_five {m n : Nat} (h : n < 2 ^ 32) : (head m n).length ≤ 5 :=
  length_head_le_of_lt (k := 2) (by omega) (by norm_num; omega)

/-- **Reading the shortest head.** -/
theorem readArg_head {m n : Nat} (hm : m < 8) (h : n < 2 ^ 64) (rest : List UInt8) :
    readArg (head m n ++ rest) = some (n, rest) := by
  rcases widthCode_cases h with ⟨hw, hn⟩ | ⟨k, hw, hk, hn, hlt⟩
  · have hi := info_initialByte (i := n) hm (by omega)
    simp [head, hw, readArg, hi, hn]
  · have hi := info_initialByte (i := 24 + k) hm (by omega)
    have ha : argWidth (24 + k) = 2 ^ k := by simp [argWidth]
    have hlen := length_beBytes (2 ^ k) n
    simp only [head, hw, List.cons_append, readArg, hi, ha]
    rw [if_neg (by omega), if_pos ⟨by omega, by simp⟩]
    rw [List.take_append_of_le_length (Nat.le_of_eq hlen.symm), List.take_of_length_le (Nat.le_of_eq hlen),
      List.drop_append_of_le_length (Nat.le_of_eq hlen.symm), List.drop_of_length_le (Nat.le_of_eq hlen),
      beNat_beBytes hlt]
    rfl

/-- **No strict prefix of the shortest head is a head.** -/
theorem readArg_head_truncated {m n : Nat} (hm : m < 8) (h : n < 2 ^ 64) {p : List UInt8} (hp : p <+: head m n)
    (hne : p ≠ head m n) : readArg p = none := by
  obtain ⟨b, bs, hb, -, hi, hl⟩ := head_cons hm h
  rw [hb] at hp hne
  cases p with
  | nil => rfl
  | cons c p =>
    obtain ⟨rfl, hp'⟩ := List.cons_prefix_cons.mp hp
    have hlt : p.length < bs.length := by
      rcases Nat.lt_or_ge p.length bs.length with hlt | hge
      · exact hlt
      · exact absurd (by rw [hp'.eq_of_length_le hge]) hne
    simp only [readArg]
    have hw : ¬info c < 24 := by
      intro hc
      rw [hl, argWidth, if_pos hc] at hlt
      omega
    rw [if_neg hw, if_neg (by omega)]

/-! ## Items -/

/-- An item starts here: a complete head, or one of the chunked strings and containers. Simple values below 32 have
no two-byte form. -/
def startsItem : List UInt8 → Bool
  | [] => false
  | b :: bs =>
    if info b = 31 then major b = 2 ∨ major b = 3 ∨ major b = 4 ∨ major b = 5
    else (readArg (b :: bs)).isSome ∧ (major b = 7 → info b = 24 → 32 ≤ beNat (bs.take 1))

/-- An integer. -/
def readInt (bs : List UInt8) : Option (Int × List UInt8) :=
  match bs.head?.map major, readArg bs with
  | some 0, some (n, rest) => some (n, rest)
  | some 1, some (n, rest) => some (-1 - (n : Int), rest)
  | _, _ => none

/-- A simple value other than false, true, null and undefined. -/
def readSimple : List UInt8 → Option (Nat × List UInt8)
  | [] => none
  | b :: bs =>
    if major b = 7 ∧ info b < 20 then some (info b, bs)
    else if major b = 7 ∧ info b = 24 ∧ bs ≠ [] ∧ 32 ≤ beNat (bs.take 1) then some (beNat (bs.take 1), bs.drop 1)
    else none

/-- The length of a byte string in one piece. -/
def readByteHead (bs : List UInt8) : Option (Nat × List UInt8) :=
  if bs.head?.map major = some 2 then readArg bs else none

/-- A byte string in one piece. -/
def readPiece (bs : List UInt8) : Option (List UInt8 × List UInt8) :=
  match readByteHead bs with
  | some (n, rest) => if n ≤ rest.length then some (rest.take n, rest.drop n) else none
  | none => none

/-- The pieces of a chunked byte string up to its break; the fuel bounds the number of pieces. -/
def readPieces : Nat → List UInt8 → Option (List UInt8 × List UInt8)
  | 0, _ => none
  | _ + 1, [] => none
  | fuel + 1, b :: bs =>
    if b = breakByte then some ([], bs)
    else match readPiece (b :: bs) with
      | some (s, rest) => (readPieces fuel rest).map fun (t, rest') => (s ++ t, rest')
      | none => none

/-- A byte string starts here, in one piece or chunked. -/
def startsByteString : List UInt8 → Bool
  | [] => false
  | b :: bs => major b = 2 ∧ (info b = 31 ∨ (readArg (b :: bs)).isSome)

/-- A byte string, in one piece or chunked. -/
def readByteString : List UInt8 → Option (List UInt8 × List UInt8)
  | [] => none
  | b :: bs =>
    if major b = 2 ∧ info b = 31 then readPieces (bs.length + 1) bs
    else readPiece (b :: bs)

/-- The number of items of an array, `none` for an array that ends with a break. -/
def readArrayHead : List UInt8 → Option (Option Nat × List UInt8)
  | [] => none
  | b :: bs =>
    if major b ≠ 4 then none
    else if info b = 31 then some (none, bs)
    else (readArg (b :: bs)).map fun (n, rest) => (some n, rest)

/-- An array of `count` items ends after `k` of them. -/
def closes (count : Option Nat) (k : Nat) (rest : List UInt8) : Prop :=
  count = some k ∨ count = none ∧ rest.head? = some breakByte

instance (count : Option Nat) (k : Nat) (rest : List UInt8) : Decidable (closes count k rest) :=
  inferInstanceAs (Decidable (_ ∨ _ ∧ _))

/-! ## Items with the shortest head -/

section Shortest

variable {n : Nat} {rest p : List UInt8}

theorem readArrayHead_head (h : n < 2 ^ 64) : readArrayHead (head 4 n ++ rest) = some (some n, rest) := by
  obtain ⟨b, bs, hb, hm, hi, -⟩ := head_cons (m := 4) (by omega) h
  have ha := readArg_head (m := 4) (by omega) h rest
  rw [hb, List.cons_append] at ha ⊢
  have h31 : info b ≠ 31 := by omega
  simp [readArrayHead, hm, h31, ha]

theorem readInt_head (h : n < 2 ^ 64) : readInt (head 0 n ++ rest) = some ((n : Int), rest) := by
  obtain ⟨b, bs, hb, hm, -, -⟩ := head_cons (m := 0) (by omega) h
  have ha := readArg_head (m := 0) (by omega) h rest
  rw [hb, List.cons_append] at ha ⊢
  simp [readInt, hm, ha]

theorem readByteHead_head (h : n < 2 ^ 64) : readByteHead (head 2 n ++ rest) = some (n, rest) := by
  obtain ⟨b, bs, hb, hm, -, -⟩ := head_cons (m := 2) (by omega) h
  have ha := readArg_head (m := 2) (by omega) h rest
  rw [hb, List.cons_append] at ha ⊢
  simp [readByteHead, hm, ha]

/-- A simple value, other than those between 20 and 31, has the shortest head as its encoding. -/
theorem readSimple_head (h : n < 20 ∨ 32 ≤ n) (hlt : n < 256) : readSimple (head 7 n ++ rest) = some (n, rest) := by
  rcases h with h | h
  · have hm := major_initialByte (m := 7) (i := n) (by omega) (by omega)
    have hi := info_initialByte (m := 7) (i := n) (by omega) (by omega)
    simp [head, widthCode, show n < 24 by omega, readSimple, hm, hi, h]
  · have hm := major_initialByte (m := 7) (i := 24) (by omega) (by omega)
    have hi := info_initialByte (m := 7) (i := 24) (by omega) (by omega)
    simp [head, widthCode, show ¬n < 24 by omega, show n ≤ 0xff by omega, readSimple, hm, hi, beBytes]
    omega

theorem readArrayHead_truncated (h : n < 2 ^ 64) (hp : p <+: head 4 n) (hne : p ≠ head 4 n) :
    readArrayHead p = none := by
  have ha := readArg_head_truncated (by omega) h hp hne
  obtain ⟨b, bs, hb, -, hi, -⟩ := head_cons (m := 4) (by omega) h
  cases p with
  | nil => rfl
  | cons c p =>
    rw [hb] at hp
    obtain ⟨rfl, -⟩ := List.cons_prefix_cons.mp hp
    have h31 : info c ≠ 31 := by omega
    simp [readArrayHead, h31, ha]

theorem readInt_truncated (h : n < 2 ^ 64) (hp : p <+: head 0 n) (hne : p ≠ head 0 n) : readInt p = none := by
  simp [readInt, readArg_head_truncated (by omega) h hp hne]

theorem readByteHead_truncated (h : n < 2 ^ 64) (hp : p <+: head 2 n) (hne : p ≠ head 2 n) : readByteHead p = none := by
  simp [readByteHead, readArg_head_truncated (by omega) h hp hne]

/-- A simple value is read only where its head is complete. -/
theorem readSimple_none (h : readArg p = none) : readSimple p = none := by
  cases p with
  | nil => rfl
  | cons b bs =>
    simp only [readArg] at h
    split_ifs at h with h24 hw
    have h20 : ¬info b < 20 := by omega
    simp only [readSimple, h20, and_false, if_false, ite_eq_right_iff, reduceCtorEq, imp_false, not_and]
    rintro - hi hne
    rw [hi] at hw
    exact absurd ⟨by omega, List.length_pos_iff.mpr hne⟩ hw

theorem readSimple_truncated (h : n < 2 ^ 64) (hp : p <+: head 7 n) (hne : p ≠ head 7 n) : readSimple p = none :=
  readSimple_none (readArg_head_truncated (by omega) h hp hne)

end Shortest

/-! ## How much of the input an item takes -/

section Lengths

variable {bs rest : List UInt8}

/-- No head with argument `n` is shorter than the shortest one. -/
theorem length_head_le_of_readArg {m n : Nat} (h : readArg bs = some (n, rest)) :
    (head m n).length + rest.length ≤ bs.length := by
  cases bs with
  | nil => cases h
  | cons b bs =>
    simp only [readArg] at h
    split_ifs at h with h24 hw
    · cases h
      simp [head, widthCode, h24]
      omega
    · cases h
      have hlt := beNat_lt (bs.take (argWidth (info b)))
      rw [List.length_take, Nat.min_eq_left hw.2] at hlt
      have hw' : argWidth (info b) = 2 ^ (info b - 24) := if_neg h24
      rw [hw'] at hlt
      have hlen := length_head_le_of_lt (m := m) (by omega) hlt
      rw [← hw'] at hlen
      rw [List.length_drop, List.length_cons]
      omega

theorem length_of_readInt {n : Int} (h : readInt bs = some (n, rest)) : rest.length < bs.length := by
  unfold readInt at h
  split at h
  · cases h; exact length_of_readArg ‹_›
  · cases h; exact length_of_readArg ‹_›
  · cases h

theorem length_of_readArrayHead {count : Option Nat} (h : readArrayHead bs = some (count, rest)) :
    rest.length < bs.length := by
  cases bs with
  | nil => cases h
  | cons b bs =>
    simp only [readArrayHead] at h
    split_ifs at h
    · cases h; simp
    · obtain ⟨r, hr, he⟩ := Option.map_eq_some_iff.mp h
      cases he
      exact length_of_readArg hr

theorem length_of_readByteHead {n : Nat} (h : readByteHead bs = some (n, rest)) :
    (head 2 n).length + rest.length ≤ bs.length := by
  unfold readByteHead at h
  split_ifs at h
  exact length_head_le_of_readArg h

/-- A simple value is a byte, and takes as much as the shortest head. -/
theorem length_of_readSimple {v : Nat} (h : readSimple bs = some (v, rest)) :
    v < 256 ∧ (head 7 v).length + rest.length = bs.length := by
  cases bs with
  | nil => cases h
  | cons b bs =>
    simp only [readSimple] at h
    split_ifs at h with h1 h2
    · cases h
      refine ⟨by omega, ?_⟩
      simp [head, widthCode, show info b < 24 by omega]
      omega
    · cases h
      obtain ⟨c, bs, rfl⟩ := List.exists_cons_of_ne_nil h2.2.2.1
      have hc := c.toNat_lt
      have h32 := h2.2.2.2
      simp only [List.take_succ_cons, List.take_zero, beNat_singleton] at h32 ⊢
      refine ⟨by omega, ?_⟩
      simp [head, widthCode, show ¬c.toNat < 24 by omega, show c.toNat ≤ 255 by omega]
      omega

end Lengths

end Libcp2p.Cbor

import Libcp2p.Cbor.Format
import Libcp2p.Lib.Readers

/-!
# The CBOR data model

Data items of every kind, and all the ways to write them: arguments need not be in the shortest head, strings may come
in chunks, and arrays and maps may be open, without a number of items and with a break at their end. `Encodes limit d
item w` says that the bytes `w` are a well-formed encoding of `item` in which no part lies in more than `d` containers
and no container that states its number of items has `limit` of them or more.

`readItem limit d` reads an item of this kind off the front of its input, and does so exactly when there is one
(`reads_readItem`). In particular a byte string encodes at most one item, and no encoding is a strict prefix of another.
-/

namespace Libcp2p.Cbor

/-- A data item. -/
inductive Item where
  | unsigned (n : Nat)
  /-- the number `-1 - n` -/
  | negative (n : Nat)
  | bytes (s : List UInt8)
  | text (s : List UInt8)
  | array (items : List Item)
  /-- the keys and the values in turn -/
  | map (entries : List Item)
  | tag (t : Nat) (item : Item)
  /-- among them the truth values, null and undefined -/
  | simple (v : Nat)
  /-- a floating-point number of `2 ^ width` bytes -/
  | float (width bits : Nat)

/-! ## The grammar -/

/-- A head of major type `m` with argument `n`. -/
inductive Head (m n : Nat) : List UInt8 → Prop
  | short (b : UInt8) (hm : major b = m) (hi : info b < 24) (hn : info b = n) : Head m n [b]
  | long (b : UInt8) (arg : List UInt8) (hm : major b = m) (hlo : 24 ≤ info b) (hhi : info b ≤ 27)
      (hl : arg.length = 2 ^ (info b - 24)) (hn : beNat arg = n) : Head m n (b :: arg)

/-- A string of major type `m` in one piece. -/
inductive Piece (m : Nat) : List UInt8 → List UInt8 → Prop
  | mk {s h : List UInt8} (hh : Head m s.length h) : Piece m s (h ++ s)

/-- A string of major type `m`, in one piece or in chunks. -/
inductive Str (m : Nat) : List UInt8 → List UInt8 → Prop
  | piece {s w : List UInt8} (hs : Piece m s w) : Str m s w
  | chunks {ss : List (List UInt8)} {w : List UInt8} (hs : Words (Piece m) ss w) :
      Str m ss.flatten (initialByte m 31 :: w ++ [breakByte])

/-- An item of major type `m` that is neither a container nor a tag. Simple values below 32 have no two-byte form. -/
inductive Leaf : Nat → Item → List UInt8 → Prop
  | unsigned {n : Nat} {w : List UInt8} (h : Head 0 n w) : Leaf 0 (.unsigned n) w
  | negative {n : Nat} {w : List UInt8} (h : Head 1 n w) : Leaf 1 (.negative n) w
  | bytes {s w : List UInt8} (h : Str 2 s w) : Leaf 2 (.bytes s) w
  | text {s w : List UInt8} (h : Str 3 s w) : Leaf 3 (.text s) w
  | simple {v : Nat} (hv : v < 24) : Leaf 7 (.simple v) [initialByte 7 v]
  | simpleByte {c : UInt8} (hc : 32 ≤ c.toNat) : Leaf 7 (.simple c.toNat) [initialByte 7 24, c]
  | float {k : Nat} {arg : List UInt8} (hlo : 1 ≤ k) (hhi : k ≤ 3) (hl : arg.length = 2 ^ k) :
      Leaf 7 (.float k (beNat arg)) (initialByte 7 (24 + k) :: arg)

/-- A container of major type `m` whose parts are written in the language `G`. -/
inductive Container (limit : Nat) (G : Item → List UInt8 → Prop) : Nat → Item → List UInt8 → Prop
  | array {items : List Item} {h w : List UInt8} (hh : Head 4 items.length h) (hl : items.length < limit)
      (hi : Words G items w) : Container limit G 4 (.array items) (h ++ w)
  | openArray {items : List Item} {w : List UInt8} (hi : Words G items w) :
      Container limit G 4 (.array items) (initialByte 4 31 :: w ++ [breakByte])
  | map {n : Nat} {entries : List Item} {h w : List UInt8} (hh : Head 5 n h) (hn : entries.length = 2 * n)
      (hl : entries.length < limit) (hi : Words G entries w) : Container limit G 5 (.map entries) (h ++ w)
  | openMap {entries : List Item} {w : List UInt8} (hn : entries.length % 2 = 0) (hi : Words G entries w) :
      Container limit G 5 (.map entries) (initialByte 5 31 :: w ++ [breakByte])

/-- An item of `G` with any number of tags. -/
def Tagged (G : Item → List UInt8 → Prop) : Item → List UInt8 → Prop := Wrapped (Head 6) Item.tag G

/-- An encoding of an item that is no tag. -/
def Untagged (limit : Nat) : Nat → Item → List UInt8 → Prop
  | 0, item, w => ∃ m, Leaf m item w
  | d + 1, item, w => ∃ m, Leaf m item w ∨ Container limit (Tagged (Untagged limit d)) m item w

/-- **A well-formed encoding of an item**, with at most `d` containers inside each other. -/
def Encodes (limit d : Nat) : Item → List UInt8 → Prop := Tagged (Untagged limit d)

theorem Leaf.encodes {limit d m : Nat} {item : Item} {w : List UInt8} (h : Leaf m item w) : Encodes limit d item w := by
  cases d with
  | zero => exact .base ⟨m, h⟩
  | succ d => exact .base ⟨m, .inl h⟩

theorem Container.encodes {limit d m : Nat} {item : Item} {w : List UInt8}
    (h : Container limit (Encodes limit d) m item w) : Encodes limit (d + 1) item w :=
  .base ⟨m, .inr h⟩

/-! ## The readers -/

/-- Read a head of major type `m`. -/
def readHead (m : Nat) : Reader UInt8 Nat := fun input => if input.head?.map major = some m then readArg input else none

/-- Read a string of major type `m` in one piece. -/
def readPieceOf (m : Nat) : Reader UInt8 (List UInt8) := (readHead m).bind Reader.take

/-- Read the first byte of an item of major type `m` that has no length. -/
def readOpen (m : Nat) : Reader UInt8 UInt8 := Reader.letter fun b => b = initialByte m 31

/-- The first byte announces no length. -/
def isOpen (b : UInt8) : Bool := info b = 31

/-- Read a string of major type `m`, in one piece or in chunks. -/
def readString (m : Nat) : Reader UInt8 (List UInt8) :=
  Reader.choose isOpen fun o =>
    if o then ((readOpen m).bind fun _ => Reader.manyUntil breakByte (readPieceOf m)).map List.flatten
    else readPieceOf m

/-- Read a simple value or a floating-point number. -/
def readLiteral : Reader UInt8 Item
  | [] => none
  | b :: input =>
    if major b ≠ 7 ∨ 27 < info b then none
    else if info b < 24 then some (.simple (info b), input)
    else if info b = 24 then
      (Reader.letter (fun c => 32 ≤ c.toNat) input).map fun r => (.simple r.1.toNat, r.2)
    else (Reader.take (2 ^ (info b - 24)) input).map fun r => (.float (info b - 24) (beNat r.1), r.2)

/-- Read the number of items of a container of major type `m` with `per` items for one of its argument; `none` for a
container that ends with a break. -/
def readCount (limit m per : Nat) : Reader UInt8 (Option Nat) :=
  Reader.choose isOpen fun o =>
    if o then (readOpen m).map fun _ => none
    else ((readHead m).guard fun n => per * n < limit).map fun n => some (per * n)

/-- Read the items of a container of `count` items. -/
def readEntries (read : Reader UInt8 Item) (isMap : Bool) : Option Nat → Reader UInt8 (List Item)
  | some n => read.times n
  | none => (Reader.manyUntil breakByte read).guard fun items => !isMap || items.length % 2 == 0

/-- Read an array whose items `read` reads. -/
def readArray (limit : Nat) (read : Reader UInt8 Item) : Reader UInt8 (List Item) :=
  (readCount limit 4 1).bind (readEntries read false)

/-- Read a map whose keys and values `read` reads. -/
def readMap (limit : Nat) (read : Reader UInt8 Item) : Reader UInt8 (List Item) :=
  (readCount limit 5 2).bind (readEntries read true)

/-- Read an item of major type `m` that is neither a container nor a tag. -/
def readLeaf : Nat → Reader UInt8 Item
  | 0 => (readHead 0).map .unsigned
  | 1 => (readHead 1).map .negative
  | 2 => (readString 2).map .bytes
  | 3 => (readString 3).map .text
  | 7 => readLiteral
  | _ => fun _ => none

/-- Read tags and then what `read` reads. -/
def readTagged (read : Reader UInt8 Item) : Reader UInt8 Item := Reader.wrapped (readHead 6) Item.tag read

/-- Read an item that is no tag. -/
def readUntagged (limit : Nat) : Nat → Reader UInt8 Item
  | 0 => Reader.choose major readLeaf
  | d + 1 => Reader.choose major fun m =>
    if m = 4 then (readArray limit (readTagged (readUntagged limit d))).map .array
    else if m = 5 then (readMap limit (readTagged (readUntagged limit d))).map .map
    else readLeaf m

/-- Read an item. -/
def readItem (limit d : Nat) : Reader UInt8 Item := readTagged (readUntagged limit d)

/-! ## First bytes -/

theorem initialByte_major_info (b : UInt8) : initialByte (major b) (info b) = b := by
  rw [← UInt8.toNat_inj]
  unfold initialByte major info
  rw [UInt8.toNat_ofNat', Nat.div_add_mod]
  exact Nat.mod_eq_of_lt b.toNat_lt

theorem eq_initialByte {b : UInt8} {m i : Nat} (hm : major b = m) (hi : info b = i) : b = initialByte m i := by
  rw [← hm, ← hi, initialByte_major_info]

theorem ne_breakByte {b : UInt8} (h : major b ≠ 7 ∨ info b ≠ 31) : b ≠ breakByte := by
  rintro rfl
  rcases h with h | h
  · exact h rfl
  · exact h rfl

theorem Head.starts (m : Nat) : StartsWith (Head m) fun b => major b = m ∧ isOpen b = false := by
  rintro n w (⟨b, hm, hi, -⟩ | ⟨b, arg, hm, -, hi, -, -⟩)
  · exact ⟨b, [], rfl, hm, decide_eq_false (by omega)⟩
  · exact ⟨b, arg, rfl, hm, decide_eq_false (by omega)⟩

/-! ## What the readers read -/

theorem reads_readHead (m : Nat) : Reads (readHead m) (Head m) := by
  intro input n rest
  unfold readHead
  cases input with
  | nil =>
    refine ⟨fun h => (by cases h), ?_⟩
    rintro ⟨w, hw, he⟩
    obtain ⟨b, v, rfl, -⟩ := Head.starts m n w hw
    cases he
  | cons b input =>
    simp only [List.head?_cons, Option.map_some, Option.some.injEq, Option.ite_none_right_eq_some, readArg]
    constructor
    · rintro ⟨hm, ha⟩
      split_ifs at ha with hi hw
      · obtain ⟨rfl, rfl⟩ := Prod.mk.inj (Option.some.inj ha)
        exact ⟨[b], .short b hm hi rfl, rfl⟩
      · obtain ⟨rfl, rfl⟩ := Prod.mk.inj (Option.some.inj ha)
        refine ⟨b :: input.take (argWidth (info b)), .long b _ hm (by omega) hw.1 ?_ rfl, ?_⟩
        · rw [List.length_take_of_le hw.2, argWidth, if_neg hi]
        · rw [List.cons_append, List.take_append_drop]
    · rintro ⟨w, (⟨c, hm, hi, rfl⟩ | ⟨c, arg, hm, hlo, hhi, hl, rfl⟩), he⟩
      · obtain ⟨rfl, rfl⟩ := List.cons.inj he
        exact ⟨hm, if_pos hi⟩
      · rw [List.cons_append] at he
        obtain ⟨rfl, rfl⟩ := List.cons.inj he
        have hw : argWidth (info b) = arg.length := by rw [hl, argWidth, if_neg (by omega)]
        refine ⟨hm, ?_⟩
        rw [if_neg (by omega), if_pos ⟨hhi, by simp [hw]⟩, hw, List.take_left, List.drop_left]

theorem Piece.starts (m : Nat) : StartsWith (Piece m) fun b => major b = m ∧ isOpen b = false := by
  rintro s w ⟨hh⟩
  obtain ⟨b, v, rfl, hb⟩ := Head.starts m _ _ hh
  exact ⟨b, v ++ s, rfl, hb⟩

theorem reads_readPieceOf (m : Nat) : Reads (readPieceOf m) (Piece m) := by
  refine ((reads_readHead m).bind reads_take).congr fun s w => ⟨?_, ?_⟩
  · rintro ⟨n, u, v, hu, ⟨rfl, rfl⟩, rfl⟩
    exact .mk hu
  · rintro ⟨hh⟩
    exact ⟨_, _, _, hh, ⟨rfl, rfl⟩, rfl⟩

theorem reads_readOpen (m : Nat) : Reads (readOpen m) fun b w => b = initialByte m 31 ∧ w = [b] :=
  (reads_letter _).congr fun b w => by simp

theorem isOpen_initialByte {m : Nat} (hm : m < 8) : isOpen (initialByte m 31) = true :=
  decide_eq_true (info_initialByte hm (by omega))

theorem reads_readString {m : Nat} (hm : m < 7) : Reads (readString m) (Str m) := by
  have hne : StartsWith (Piece m) (· ≠ breakByte) := (Piece.starts m).mono fun b hb => ne_breakByte (.inl (by omega))
  have hmany := (((reads_readOpen m).bind fun _ => (reads_readPieceOf m).manyUntil hne).map List.flatten)
  refine (Reads.choose (G := fun o s w => if o then ∃ ss v, Words (Piece m) ss v ∧
      w = initialByte m 31 :: v ++ [breakByte] ∧ ss.flatten = s else Piece m s w) ?_ ?_).congr fun s w => ⟨?_, ?_⟩
  · rintro (_ | _)
    · exact reads_readPieceOf m
    · refine hmany.congr fun s w => ⟨?_, ?_⟩
      · rintro ⟨ss, ⟨b, u, v, ⟨rfl, rfl⟩, ⟨v', hv, rfl⟩, rfl⟩, rfl⟩
        exact ⟨ss, v', hv, rfl, rfl⟩
      · rintro ⟨ss, v, hv, rfl, rfl⟩
        exact ⟨ss, ⟨_, _, _, ⟨rfl, rfl⟩, ⟨v, hv, rfl⟩, rfl⟩, rfl⟩
  · rintro (_ | _)
    · exact (Piece.starts m).mono fun b hb => hb.2
    · rintro s w ⟨ss, v, -, rfl, -⟩
      exact ⟨_, _, rfl, isOpen_initialByte (by omega)⟩
  · rintro ⟨_ | _, h⟩
    · exact .piece h
    · obtain ⟨ss, v, hv, rfl, rfl⟩ := h
      exact .chunks hv
  · rintro (h | h)
    · exact ⟨false, h⟩
    · exact ⟨true, _, _, h, rfl, rfl⟩

theorem reads_readLiteral : Reads readLiteral (Leaf 7) := by
  intro input item rest
  constructor
  · intro h
    cases input with
    | nil => cases h
    | cons b input =>
      simp only [readLiteral] at h
      split_ifs at h with hb h24 hi
      · obtain ⟨rfl, rfl⟩ := Prod.mk.inj (Option.some.inj h)
        have hw := Leaf.simple h24
        rw [← eq_initialByte (b := b) (by omega) rfl] at hw
        exact ⟨[b], hw, rfl⟩
      · obtain ⟨⟨c, r⟩, hr, he⟩ := Option.map_eq_some_iff.mp h
        obtain ⟨rfl, rfl⟩ := Prod.mk.inj he
        obtain ⟨w, ⟨hc, rfl⟩, rfl⟩ := (reads_letter _).sound hr
        have hw := Leaf.simpleByte (of_decide_eq_true hc)
        rw [← eq_initialByte (b := b) (by omega) hi] at hw
        exact ⟨[b, c], hw, rfl⟩
      · obtain ⟨⟨arg, r⟩, ht, he⟩ := Option.map_eq_some_iff.mp h
        obtain ⟨rfl, rfl⟩ := Prod.mk.inj he
        obtain ⟨w, ⟨rfl, hl⟩, rfl⟩ := (reads_take _).sound ht
        have hw := Leaf.float (k := info b - 24) (by omega) (by omega) hl
        rw [← eq_initialByte (b := b) (by omega) (by omega)] at hw
        exact ⟨b :: w, hw, rfl⟩
  · rintro ⟨w, hw, rfl⟩
    cases hw with
    | @simple v hv =>
      have hm := major_initialByte (m := 7) (i := v) (by omega) (by omega)
      have hi := info_initialByte (m := 7) (i := v) (by omega) (by omega)
      simp [readLiteral, hm, hi, hv]
      omega
    | @simpleByte c hc =>
      have hm := major_initialByte (m := 7) (i := 24) (by omega) (by omega)
      have hi := info_initialByte (m := 7) (i := 24) (by omega) (by omega)
      simp [readLiteral, hm, hi, Reader.letter, hc]
    | @float k arg hlo hhi hl =>
      have hm := major_initialByte (m := 7) (i := 24 + k) (by omega) (by omega)
      have hi := info_initialByte (m := 7) (i := 24 + k) (by omega) (by omega)
      have ht := (reads_take (2 ^ k)).complete ⟨rfl, hl⟩ rest
      have hk : 24 + k - 24 = k := by omega
      simp only [List.cons_append, readLiteral, hm, hi]
      rw [if_neg (by omega), if_neg (by omega), if_neg (by omega), hk, ht]
      rfl

/-- The head of a container of major type `m`: the number of its items, unless it ends with a break. -/
inductive Count (limit m per : Nat) : Option Nat → List UInt8 → Prop
  | known {n : Nat} {h : List UInt8} (hh : Head m n h) (hl : per * n < limit) : Count limit m per (some (per * n)) h
  | unknown : Count limit m per none [initialByte m 31]

theorem reads_readCount {limit m per : Nat} (hm : m < 8) : Reads (readCount limit m per) (Count limit m per) := by
  refine (Reads.choose (G := fun o c w => Count limit m per c w ∧ c.isNone = o) ?_ ?_).congr fun c w => ⟨?_, ?_⟩
  · rintro (_ | _)
    · refine (((reads_readHead m).guard fun n => per * n < limit).map fun n => some (per * n)).congr fun c w => ⟨?_, ?_⟩
      · rintro ⟨n, ⟨hh, hl⟩, rfl⟩
        exact ⟨.known hh (by simpa using hl), rfl⟩
      · rintro ⟨⟨hh, hl⟩ | _, ho⟩
        · exact ⟨_, ⟨hh, by simpa using hl⟩, rfl⟩
        · cases ho
    · refine ((reads_readOpen m).map fun _ => none).congr fun c w => ⟨?_, ?_⟩
      · rintro ⟨b, ⟨rfl, rfl⟩, rfl⟩
        exact ⟨.unknown, rfl⟩
      · rintro ⟨⟨hh, hl⟩ | _, ho⟩
        · cases ho
        · exact ⟨_, ⟨rfl, rfl⟩, rfl⟩
  · rintro o c w ⟨⟨hh, -⟩ | _, rfl⟩
    · exact (Head.starts m).mono (fun b hb => hb.2) _ _ hh
    · exact ⟨_, _, rfl, isOpen_initialByte hm⟩
  · rintro ⟨o, h, -⟩
    exact h
  · exact fun h => ⟨_, h, rfl⟩

section Items

variable {limit : Nat} {read : Reader UInt8 Item} {G : Item → List UInt8 → Prop}

/-- The words of the items of a container: with a break at the end if their number is not known. -/
def Entries (G : Item → List UInt8 → Prop) (isMap : Bool) : Option Nat → List Item → List UInt8 → Prop
  | some n, items, w => Words G items w ∧ items.length = n
  | none, items, w => (∃ v, Words G items v ∧ w = v ++ [breakByte]) ∧ (isMap = true → items.length % 2 = 0)

theorem reads_readEntries (h : Reads read G) (hG : StartsWith G (· ≠ breakByte)) (isMap : Bool) (count : Option Nat) :
    Reads (readEntries read isMap count) (Entries G isMap count) := by
  cases count with
  | some n => exact h.times n
  | none =>
    refine ((h.manyUntil hG).guard fun items => !isMap || items.length % 2 == 0).congr fun items w => ?_
    exact and_congr_right fun _ => by cases isMap <;> simp

theorem reads_readArray (h : Reads read G) (hG : StartsWith G (· ≠ breakByte)) :
    Reads (readArray limit read) fun items w => Container limit G 4 (.array items) w := by
  refine ((reads_readCount (by omega)).bind (reads_readEntries h hG false)).congr fun items w => ⟨?_, ?_⟩
  · rintro ⟨c, u, v, ⟨hh, hl⟩ | _, he, rfl⟩
    · obtain ⟨hi, hn⟩ := he
      rw [Nat.one_mul] at hn hl
      subst hn
      exact .array hh hl hi
    · obtain ⟨⟨v', hi, rfl⟩, -⟩ := he
      exact .openArray hi
  · rintro (⟨hh, hl, hi⟩ | ⟨hi⟩)
    · exact ⟨_, _, _, .known hh (by rwa [Nat.one_mul]), ⟨hi, (Nat.one_mul _).symm⟩, rfl⟩
    · exact ⟨_, _, _, .unknown, ⟨⟨_, hi, rfl⟩, by simp⟩, rfl⟩

theorem reads_readMap (h : Reads read G) (hG : StartsWith G (· ≠ breakByte)) :
    Reads (readMap limit read) fun entries w => Container limit G 5 (.map entries) w := by
  refine ((reads_readCount (by omega)).bind (reads_readEntries h hG true)).congr fun entries w => ⟨?_, ?_⟩
  · rintro ⟨c, u, v, ⟨hh, hl⟩ | _, he, rfl⟩
    · obtain ⟨hi, hn⟩ := he
      exact .map hh hn (hn ▸ hl) hi
    · obtain ⟨⟨v', hi, rfl⟩, hn⟩ := he
      exact .openMap (hn rfl) hi
  · rintro (_ | _ | ⟨hh, hn, hl, hi⟩ | ⟨hn, hi⟩)
    · exact ⟨_, _, _, .known hh (hn ▸ hl), ⟨hi, hn⟩, rfl⟩
    · exact ⟨_, _, _, .unknown, ⟨⟨_, hi, rfl⟩, fun _ => hn⟩, rfl⟩

theorem Str.starts {m : Nat} (hm : m < 8) : StartsWith (Str m) fun b => major b = m := by
  rintro s w (h | h)
  · exact (Piece.starts m).mono (fun b hb => hb.1) _ _ h
  · exact ⟨_, _, rfl, major_initialByte hm (by omega)⟩

/-- The first byte of an item of major type `m` that is no tag. -/
def StartsOf (m : Nat) (b : UInt8) : Prop := major b = m ∧ m ≠ 6 ∧ b ≠ breakByte

theorem startsOf_of_ne {m : Nat} {b : UInt8} (hb : major b = m) (h6 : m ≠ 6) (h7 : m ≠ 7) : StartsOf m b :=
  ⟨hb, h6, ne_breakByte (.inl (by omega))⟩

theorem startsOf_literal {i : Nat} (hi : i ≤ 27) : StartsOf 7 (initialByte 7 i) :=
  ⟨major_initialByte (by omega) (by omega), by omega, ne_breakByte (.inr (by rw [info_initialByte] <;> omega))⟩

theorem Leaf.starts (m : Nat) : StartsWith (Leaf m) (StartsOf m) := by
  rintro item w (h | h | h | h | hv | hc | ⟨hlo, hhi, hl⟩)
  · exact (Head.starts 0).mono (fun b hb => startsOf_of_ne hb.1 (by omega) (by omega)) _ _ h
  · exact (Head.starts 1).mono (fun b hb => startsOf_of_ne hb.1 (by omega) (by omega)) _ _ h
  · exact (Str.starts (by omega)).mono (fun b hb => startsOf_of_ne hb (by omega) (by omega)) _ _ h
  · exact (Str.starts (by omega)).mono (fun b hb => startsOf_of_ne hb (by omega) (by omega)) _ _ h
  · exact ⟨_, _, rfl, startsOf_literal (by omega)⟩
  · exact ⟨_, _, rfl, startsOf_literal (by omega)⟩
  · exact ⟨_, _, rfl, startsOf_literal (by omega)⟩

theorem Container.starts (m : Nat) : StartsWith (Container limit G m) (StartsOf m) := by
  have hhead : ∀ {m n : Nat} {h w : List UInt8}, m ≠ 6 → m ≠ 7 → Head m n h →
      ∃ b v, h ++ w = b :: v ∧ StartsOf m b := by
    intro m n h w h6 h7 hh
    obtain ⟨b, v, rfl, hb⟩ := Head.starts m _ _ hh
    exact ⟨b, _, rfl, startsOf_of_ne hb.1 h6 h7⟩
  rintro item w (⟨hh, -, -⟩ | _ | ⟨hh, -, -, -⟩ | _)
  · exact hhead (by omega) (by omega) hh
  · exact ⟨_, _, rfl, startsOf_of_ne (major_initialByte (by omega) (by omega)) (by omega) (by omega)⟩
  · exact hhead (by omega) (by omega) hh
  · exact ⟨_, _, rfl, startsOf_of_ne (major_initialByte (by omega) (by omega)) (by omega) (by omega)⟩

theorem reads_readLeaf (m : Nat) : Reads (readLeaf m) (Leaf m) := by
  unfold readLeaf
  split
  · refine ((reads_readHead 0).map _).congr fun item w => ⟨?_, ?_⟩
    · rintro ⟨n, h, rfl⟩
      exact .unsigned h
    · intro h
      cases h with
      | unsigned h => exact ⟨_, h, rfl⟩
  · refine ((reads_readHead 1).map _).congr fun item w => ⟨?_, ?_⟩
    · rintro ⟨n, h, rfl⟩
      exact .negative h
    · intro h
      cases h with
      | negative h => exact ⟨_, h, rfl⟩
  · refine ((reads_readString (by omega)).map _).congr fun item w => ⟨?_, ?_⟩
    · rintro ⟨s, h, rfl⟩
      exact .bytes h
    · intro h
      cases h with
      | bytes h => exact ⟨_, h, rfl⟩
  · refine ((reads_readString (by omega)).map _).congr fun item w => ⟨?_, ?_⟩
    · rintro ⟨s, h, rfl⟩
      exact .text h
    · intro h
      cases h with
      | text h => exact ⟨_, h, rfl⟩
  · exact reads_readLiteral
  · rename_i h0 h1 h2 h3 h7
    intro input item rest
    refine ⟨fun h => (by cases h), ?_⟩
    rintro ⟨w, hw, -⟩
    cases hw <;> contradiction

theorem reads_readTagged (h : Reads read G) (hG : StartsWith G fun b => ∃ m, StartsOf m b) :
    Reads (readTagged read) (Tagged G) := by
  refine h.wrapped (reads_readHead 6) ((Head.starts 6).mono fun _ _ => trivial) ?_
  intro item w hw rest
  obtain ⟨b, v, rfl, m, hm, h6, -⟩ := hG item w hw
  have : some (major b) ≠ some 6 := fun he => h6 (hm ▸ Option.some.inj he)
  exact if_neg this

theorem Tagged.starts (hG : StartsWith G fun b => ∃ m, StartsOf m b) : StartsWith (Tagged G) (· ≠ breakByte) := by
  rintro item w (h | ⟨ht, -⟩)
  · exact hG.mono (fun b ⟨m, hb⟩ => hb.2.2) _ _ h
  · obtain ⟨b, v, rfl, hb⟩ := Head.starts 6 _ _ ht
    exact ⟨b, _, rfl, ne_breakByte (.inl (by omega))⟩

end Items

theorem Untagged.starts (limit d : Nat) : StartsWith (Untagged limit d) fun b => ∃ m, StartsOf m b := by
  cases d with
  | zero =>
    rintro item w ⟨m, h⟩
    exact (Leaf.starts m).mono (fun b hb => ⟨m, hb⟩) _ _ h
  | succ d =>
    rintro item w ⟨m, h | h⟩
    · exact (Leaf.starts m).mono (fun b hb => ⟨m, hb⟩) _ _ h
    · exact (Container.starts m).mono (fun b hb => ⟨m, hb⟩) _ _ h

/-- One more level of containers. -/
theorem reads_readUntagged (limit d : Nat) : Reads (readUntagged limit d) (Untagged limit d) := by
  induction d with
  | zero => exact Reads.choose reads_readLeaf fun m => (Leaf.starts m).mono fun b hb => hb.1
  | succ d ih =>
    have hitem := reads_readTagged ih (Untagged.starts limit d)
    have hstart := Tagged.starts (Untagged.starts limit d)
    refine Reads.choose (fun m => ?_) ?_
    · by_cases h4 : m = 4
      · subst h4
        refine ((reads_readArray hitem hstart).map _).congr fun item w => ⟨?_, ?_⟩
        · rintro ⟨items, h, rfl⟩
          exact .inr h
        · rintro (h | h)
          · cases h
          · cases h with
            | array hh hl hi => exact ⟨_, .array hh hl hi, rfl⟩
            | openArray hi => exact ⟨_, .openArray hi, rfl⟩
      · by_cases h5 : m = 5
        · subst h5
          refine ((reads_readMap hitem hstart).map _).congr fun item w => ⟨?_, ?_⟩
          · rintro ⟨entries, h, rfl⟩
            exact .inr h
          · rintro (h | h)
            · cases h
            · cases h with
              | map hh hn hl hi => exact ⟨_, .map hh hn hl hi, rfl⟩
              | openMap hn hi => exact ⟨_, .openMap hn hi, rfl⟩
        · rw [if_neg h4, if_neg h5]
          refine (reads_readLeaf m).congr fun item w => ⟨.inl, ?_⟩
          rintro (h | h)
          · exact h
          · cases h <;> contradiction
    · rintro m item w (h | h)
      · exact (Leaf.starts m).mono (fun b hb => hb.1) _ _ h
      · exact (Container.starts m).mono (fun b hb => hb.1) _ _ h

/-- **The reader reads exactly the well-formed encodings.** -/
theorem reads_readItem (limit d : Nat) : Reads (readItem limit d) (Encodes limit d) :=
  reads_readTagged (reads_readUntagged limit d) (Untagged.starts limit d)

end Libcp2p.Cbor

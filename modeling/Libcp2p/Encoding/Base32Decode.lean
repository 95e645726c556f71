import Libcp2p.Encoding.Rfc4648

/-!
# Reading base32

`decode8` reads one group of eight characters, `base32DecodeCtx` a text group by group, writing while its buffer has
room. What the texts mean is said independently of the decoder: a group of `k` characters of the alphabet (2, 4, 5, 7 or
8) and padding denotes the whole bytes among its `5 * k` bits (`B32Group`), and a well-formed text is a sequence of full
groups with at most one padded group, the last (`Base32Encodes`).

* `decode8_eq_some`: a group is read exactly when it denotes something, and as what it denotes.
* `base32DecodeCtx_eq_some`: the decoder accepts exactly the sequences of groups, padded ones anywhere
  (`Base32Groups`), and returns as many of the bytes as there is room for.
* `base32Text_encodes`: the encoder writes well-formed text of its input.
-/

namespace Libcp2p

/-! ## The decoder -/

/-- The table `b32`, with nothing for -1. -/
def b32 (c : UInt8) : Option Nat := b32str.findIdx? (fun ch => ch.toNat = c.toNat)

/-- The bytes of a group of eight characters, as `decode_8` computes them, or nothing where it returns false. -/
def decode8 (c0 c1 c2 c3 c4 c5 c6 c7 : UInt8) : Option (List UInt8) := do
  let v0 ← b32 c0
  let v1 ← b32 c1
  let o0 := UInt8.ofNat (v0 <<< 3 ||| v1 >>> 2)
  if c2 = b32pad then
    if c3 = b32pad ∧ c4 = b32pad ∧ c5 = b32pad ∧ c6 = b32pad ∧ c7 = b32pad then some [o0] else none
  else do
    let v2 ← b32 c2
    let v3 ← b32 c3
    let o1 := UInt8.ofNat (v1 <<< 6 ||| v2 <<< 1 ||| v3 >>> 4)
    if c4 = b32pad then
      if c5 = b32pad ∧ c6 = b32pad ∧ c7 = b32pad then some [o0, o1] else none
    else do
      let v4 ← b32 c4
      let o2 := UInt8.ofNat (v3 <<< 4 ||| v4 >>> 1)
      if c5 = b32pad then
        if c6 = b32pad ∧ c7 = b32pad then some [o0, o1, o2] else none
      else do
        let v5 ← b32 c5
        let v6 ← b32 c6
        let o3 := UInt8.ofNat (v4 <<< 7 ||| v5 <<< 2 ||| v6 >>> 3)
        if c7 = b32pad then some [o0, o1, o2, o3]
        else do
          let v7 ← b32 c7
          some [o0, o1, o2, o3, UInt8.ofNat (v6 <<< 5 ||| v7)]

/-- `base32_decode_ctx` without a context: the bytes written to a buffer of `outleft` bytes. Each byte of a group is
written only while there is room. A group that cannot be read, or fewer than eight characters at the end, make the call
return false (the source tries such a group a second time, with the same outcome). -/
def base32DecodeCtx : List UInt8 → Nat → Option (List UInt8)
  | [], _ => some []
  | c0 :: c1 :: c2 :: c3 :: c4 :: c5 :: c6 :: c7 :: rest, outleft => do
    let group ← decode8 c0 c1 c2 c3 c4 c5 c6 c7
    let written := group.take outleft
    let more ← base32DecodeCtx rest (outleft - written.length)
    some (written ++ more)
  | _, _ => none

/-- `libp2p_encoding_base32_decode` into the object `results`: what the object holds afterwards and the length reported,
or nothing where it returns 0. -/
def libp2pEncodingBase32Decode (incoming results : List UInt8) : Option (List UInt8 × Nat) := do
  let written ← base32DecodeCtx incoming results.length
  some (overlay results written, written.length)

/-- `libp2p_encoding_base32_encode_size`, its product with 1.6 read as exact. -/
def libp2pEncodingBase32EncodeSize (incomingLength : Nat) : Nat := incomingLength * 8 / 5 + 8

/-- `libp2p_encoding_base32_decode_size`. -/
def libp2pEncodingBase32DecodeSize (incomingLength : Nat) : Nat := 5 * (incomingLength / 8) + 5

/-! ## What base32 text denotes -/

/-- The number that base32 digits denote, most significant first. -/
def b32Nat (vs : List Nat) : Nat := vs.foldl (fun acc v => 32 * acc + v) 0

/-- How many characters of a group are not padding. -/
def B32Size (k : Nat) : Prop := k = 2 ∨ k = 4 ∨ k = 5 ∨ k = 7 ∨ k = 8

/-- The group `g` denotes `d`: its `k` characters stand for `5 * k` bits, of which the whole bytes count. -/
def B32Group (g d : List UInt8) : Prop :=
  ∃ cs vs, B32Size cs.length ∧ cs.map b32 = vs.map some ∧ g = cs ++ List.replicate (8 - cs.length) b32pad ∧
    d = beBytes (5 * cs.length / 8) (b32Nat vs / 2 ^ (5 * cs.length % 8))

/-- A sequence of groups. -/
inductive Base32Groups : List UInt8 → List UInt8 → Prop
  | nil : Base32Groups [] []
  | cons {g d payload ds} (hg : B32Group g d) (hp : Base32Groups payload ds) : Base32Groups (g ++ payload) (d ++ ds)

/-- Well-formed base32: full groups, of which only the last may be padded. -/
inductive Base32Encodes : List UInt8 → List UInt8 → Prop
  | nil : Base32Encodes [] []
  | last {g d} (hg : B32Group g d) : Base32Encodes g d
  | full {g d payload ds} (hg : B32Group g d) (hfull : b32pad ∉ g) (hp : Base32Encodes payload ds) :
    Base32Encodes (g ++ payload) (d ++ ds)

theorem Base32Encodes.groups {payload d : List UInt8} (h : Base32Encodes payload d) : Base32Groups payload d := by
  induction h with
  | nil => exact .nil
  | last hg => simpa using Base32Groups.cons hg .nil
  | full hg _ _ ih => exact .cons hg ih

/-! ## One group -/

theorem b32_lt {c : UInt8} {v : Nat} (h : b32 c = some v) : v < 32 := by
  have := List.findIdx?_eq_some_iff_findIdx_eq.mp h
  exact this.1

theorem b32_b32pad : b32 b32pad = none := by decide

theorem ne_pad_of_b32 {c : UInt8} {v : Nat} (h : b32 c = some v) : c ≠ b32pad := by
  rintro rfl
  rw [b32_b32pad] at h
  cases h

theorem or_shift₂ (a b : Nat) {c i j : Nat} (hc : c < 2 ^ j) (hb : b * 2 ^ j + c < 2 ^ i) :
    a <<< i ||| b <<< j ||| c = a * 2 ^ i + b * 2 ^ j + c := by
  rw [Nat.or_assoc, or_shift b c hc, or_shift a _ hb, Nat.add_assoc]

theorem b32Nat_snoc (vs : List Nat) (v : Nat) : b32Nat (vs ++ [v]) = 32 * b32Nat vs + v := by simp [b32Nat]

/-- One byte more, whose bits are the low ones of the number. -/
theorem beBytes_snoc {w n m o : Nat} (hfront : n / 256 = m) (hbyte : n % 256 = o % 256) :
    beBytes (w + 1) n = beBytes w m ++ [UInt8.ofNat o] := by
  have hlast : UInt8.ofNat n = UInt8.ofNat o := by
    apply UInt8.toNat_inj.mp
    rw [UInt8.toNat_ofNat', UInt8.toNat_ofNat']
    exact hbyte
  rw [beBytes, hfront, hlast]

/-! The five bytes of a group, each behind those before it; `vs` are the digits that it has no bits of. -/

section Bytes

variable {w v1 v2 v3 : Nat} (vs : List Nat)

theorem beBytes_byte1 (h2 : v2 < 32) (h3 : v3 < 32) :
    beBytes (w + 1) (b32Nat (vs ++ [v1] ++ [v2] ++ [v3]) / 2 ^ 4) =
      beBytes w (b32Nat (vs ++ [v1]) / 2 ^ 2) ++ [UInt8.ofNat (v1 <<< 6 ||| v2 <<< 1 ||| v3 >>> 4)] := by
  rw [Nat.shiftRight_eq_div_pow, or_shift₂ v1 v2 (by omega) (by omega)]
  simp only [b32Nat_snoc]
  exact beBytes_snoc (by omega) (by omega)

theorem beBytes_byte2 (h2 : v2 < 32) :
    beBytes (w + 1) (b32Nat (vs ++ [v1] ++ [v2]) / 2 ^ 1) =
      beBytes w (b32Nat (vs ++ [v1]) / 2 ^ 4) ++ [UInt8.ofNat (v1 <<< 4 ||| v2 >>> 1)] := by
  rw [Nat.shiftRight_eq_div_pow, or_shift v1 _ (by omega)]
  simp only [b32Nat_snoc]
  exact beBytes_snoc (by omega) (by omega)

theorem beBytes_byte3 (h2 : v2 < 32) (h3 : v3 < 32) :
    beBytes (w + 1) (b32Nat (vs ++ [v1] ++ [v2] ++ [v3]) / 2 ^ 3) =
      beBytes w (b32Nat (vs ++ [v1]) / 2 ^ 1) ++ [UInt8.ofNat (v1 <<< 7 ||| v2 <<< 2 ||| v3 >>> 3)] := by
  rw [Nat.shiftRight_eq_div_pow, or_shift₂ v1 v2 (by omega) (by omega)]
  simp only [b32Nat_snoc]
  exact beBytes_snoc (by omega) (by omega)

theorem beBytes_byte4 (h2 : v2 < 32) :
    beBytes (w + 1) (b32Nat (vs ++ [v1] ++ [v2]) / 2 ^ 0) =
      beBytes w (b32Nat (vs ++ [v1]) / 2 ^ 3) ++ [UInt8.ofNat (v1 <<< 5 ||| v2)] := by
  rw [or_shift v1 _ h2]
  simp only [b32Nat_snoc]
  exact beBytes_snoc (by omega) (by omega)

end Bytes

section Group

variable {c0 c1 c2 c3 c4 c5 c6 c7 : UInt8} {v0 v1 v2 v3 v4 v5 v6 v7 : Nat}

variable (h0 : b32 c0 = some v0) (h1 : b32 c1 = some v1)

/-! The bytes of two, four, five, seven and eight digits, as `decode_8` computes them. -/

section

include h1

theorem group_two (v0 : Nat) : beBytes 1 (b32Nat [v0, v1] / 2 ^ 2) = [UInt8.ofNat (v0 <<< 3 ||| v1 >>> 2)] := by
  have hlt := b32_lt h1
  have hvalue : b32Nat [v0, v1] = 32 * v0 + v1 := by simp [b32Nat]
  rw [hvalue, Nat.shiftRight_eq_div_pow, or_shift v0 _ (by omega)]
  exact beBytes_snoc rfl (by omega)

variable (h2 : b32 c2 = some v2) (h3 : b32 c3 = some v3)

include h2 h3

theorem group_four (v0 : Nat) : beBytes 2 (b32Nat [v0, v1, v2, v3] / 2 ^ 4) =
    [UInt8.ofNat (v0 <<< 3 ||| v1 >>> 2), UInt8.ofNat (v1 <<< 6 ||| v2 <<< 1 ||| v3 >>> 4)] :=
  (beBytes_byte1 [v0] (b32_lt h2) (b32_lt h3)).trans (congrArg (· ++ _) (group_two h1 v0))

variable (h4 : b32 c4 = some v4)

include h4

theorem group_five (v0 : Nat) : beBytes 3 (b32Nat [v0, v1, v2, v3, v4] / 2 ^ 1) =
    [UInt8.ofNat (v0 <<< 3 ||| v1 >>> 2), UInt8.ofNat (v1 <<< 6 ||| v2 <<< 1 ||| v3 >>> 4),
      UInt8.ofNat (v3 <<< 4 ||| v4 >>> 1)] :=
  (beBytes_byte2 [v0, v1, v2] (b32_lt h4)).trans (congrArg (· ++ _) (group_four h1 h2 h3 v0))

variable (h5 : b32 c5 = some v5) (h6 : b32 c6 = some v6)

include h5 h6

theorem group_seven (v0 : Nat) : beBytes 4 (b32Nat [v0, v1, v2, v3, v4, v5, v6] / 2 ^ 3) =
    [UInt8.ofNat (v0 <<< 3 ||| v1 >>> 2), UInt8.ofNat (v1 <<< 6 ||| v2 <<< 1 ||| v3 >>> 4),
      UInt8.ofNat (v3 <<< 4 ||| v4 >>> 1), UInt8.ofNat (v4 <<< 7 ||| v5 <<< 2 ||| v6 >>> 3)] :=
  (beBytes_byte3 [v0, v1, v2, v3] (b32_lt h5) (b32_lt h6)).trans (congrArg (· ++ _) (group_five h1 h2 h3 h4 v0))

variable (h7 : b32 c7 = some v7)

include h7

theorem group_eight (v0 : Nat) : beBytes 5 (b32Nat [v0, v1, v2, v3, v4, v5, v6, v7] / 2 ^ 0) =
    [UInt8.ofNat (v0 <<< 3 ||| v1 >>> 2), UInt8.ofNat (v1 <<< 6 ||| v2 <<< 1 ||| v3 >>> 4),
      UInt8.ofNat (v3 <<< 4 ||| v4 >>> 1), UInt8.ofNat (v4 <<< 7 ||| v5 <<< 2 ||| v6 >>> 3),
      UInt8.ofNat (v6 <<< 5 ||| v7)] :=
  (beBytes_byte4 [v0, v1, v2, v3, v4, v5] (b32_lt h7)).trans (congrArg (· ++ _) (group_seven h1 h2 h3 h4 h5 h6 v0))

end

include h0 h1

theorem decode8_two : decode8 c0 c1 b32pad b32pad b32pad b32pad b32pad b32pad =
    some (beBytes 1 (b32Nat [v0, v1] / 2 ^ 2)) := by
  rw [group_two h1]
  simp only [decode8, h0, h1, Option.bind_eq_bind, Option.bind_some, if_true, and_self]

variable (h2 : b32 c2 = some v2) (h3 : b32 c3 = some v3)

include h2 h3

theorem decode8_four : decode8 c0 c1 c2 c3 b32pad b32pad b32pad b32pad =
    some (beBytes 2 (b32Nat [v0, v1, v2, v3] / 2 ^ 4)) := by
  rw [group_four h1 h2 h3]
  simp only [decode8, h0, h1, h2, h3, ne_pad_of_b32 h2, Option.bind_eq_bind, Option.bind_some, if_true, if_false,
    and_self]

variable (h4 : b32 c4 = some v4)

include h4

theorem decode8_five : decode8 c0 c1 c2 c3 c4 b32pad b32pad b32pad =
    some (beBytes 3 (b32Nat [v0, v1, v2, v3, v4] / 2 ^ 1)) := by
  rw [group_five h1 h2 h3 h4]
  simp only [decode8, h0, h1, h2, h3, h4, ne_pad_of_b32 h2, ne_pad_of_b32 h4, Option.bind_eq_bind, Option.bind_some,
    if_true, if_false, and_self]

variable (h5 : b32 c5 = some v5) (h6 : b32 c6 = some v6)

include h5 h6

theorem decode8_seven : decode8 c0 c1 c2 c3 c4 c5 c6 b32pad =
    some (beBytes 4 (b32Nat [v0, v1, v2, v3, v4, v5, v6] / 2 ^ 3)) := by
  rw [group_seven h1 h2 h3 h4 h5 h6]
  simp only [decode8, h0, h1, h2, h3, h4, h5, h6, ne_pad_of_b32 h2, ne_pad_of_b32 h4, ne_pad_of_b32 h5,
    Option.bind_eq_bind, Option.bind_some, if_true, if_false]

variable (h7 : b32 c7 = some v7)

include h7

theorem decode8_eight : decode8 c0 c1 c2 c3 c4 c5 c6 c7 =
    some (beBytes 5 (b32Nat [v0, v1, v2, v3, v4, v5, v6, v7] / 2 ^ 0)) := by
  rw [group_eight h1 h2 h3 h4 h5 h6 h7]
  simp only [decode8, h0, h1, h2, h3, h4, h5, h6, h7, ne_pad_of_b32 h2, ne_pad_of_b32 h4, ne_pad_of_b32 h5,
    ne_pad_of_b32 h7, Option.bind_eq_bind, Option.bind_some, if_false]

end Group

section Invert

variable {c0 c1 c2 c3 c4 c5 c6 c7 : UInt8} {d : List UInt8}

/-- A group that is read has one of the five shapes. -/
theorem decode8_shape (h : decode8 c0 c1 c2 c3 c4 c5 c6 c7 = some d) :
    ∃ (cs : List UInt8) (vs : List Nat), B32Size cs.length ∧ cs.map b32 = vs.map some ∧
      [c0, c1, c2, c3, c4, c5, c6, c7] = cs ++ List.replicate (8 - cs.length) b32pad := by
  unfold decode8 at h
  obtain ⟨v0, h0, h⟩ := Option.bind_eq_some_iff.mp h
  obtain ⟨v1, h1, h⟩ := Option.bind_eq_some_iff.mp h
  dsimp only at h
  split at h
  · split at h
    · rename_i hc2 hc
      obtain ⟨rfl, rfl, rfl, rfl, rfl⟩ := hc
      subst hc2
      exact ⟨[c0, c1], [v0, v1], by simp [B32Size], by simp [h0, h1], rfl⟩
    · cases h
  · obtain ⟨v2, h2, h⟩ := Option.bind_eq_some_iff.mp h
    obtain ⟨v3, h3, h⟩ := Option.bind_eq_some_iff.mp h
    split at h
    · split at h
      · rename_i hc4 hc
        obtain ⟨rfl, rfl, rfl⟩ := hc
        subst hc4
        exact ⟨[c0, c1, c2, c3], [v0, v1, v2, v3], by simp [B32Size], by simp [h0, h1, h2, h3], rfl⟩
      · cases h
    · obtain ⟨v4, h4, h⟩ := Option.bind_eq_some_iff.mp h
      split at h
      · split at h
        · rename_i hc5 hc
          obtain ⟨rfl, rfl⟩ := hc
          subst hc5
          exact ⟨[c0, c1, c2, c3, c4], [v0, v1, v2, v3, v4], by simp [B32Size], by simp [h0, h1, h2, h3, h4], rfl⟩
        · cases h
      · obtain ⟨v5, h5, h⟩ := Option.bind_eq_some_iff.mp h
        obtain ⟨v6, h6, h⟩ := Option.bind_eq_some_iff.mp h
        split at h
        · rename_i hc7
          subst hc7
          exact ⟨[c0, c1, c2, c3, c4, c5, c6], [v0, v1, v2, v3, v4, v5, v6], by simp [B32Size],
            by simp [h0, h1, h2, h3, h4, h5, h6], rfl⟩
        · obtain ⟨v7, h7, -⟩ := Option.bind_eq_some_iff.mp h
          exact ⟨[c0, c1, c2, c3, c4, c5, c6, c7], [v0, v1, v2, v3, v4, v5, v6, v7], by simp [B32Size],
            by simp [h0, h1, h2, h3, h4, h5, h6, h7], rfl⟩

/-- The digits of characters of the alphabet, one by one. -/
theorem map_b32_eq {cs : List UInt8} {vs : List Nat} (h : cs.map b32 = vs.map some) :
    vs = cs.map (fun c => (b32 c).getD 0) ∧ ∀ c ∈ cs, b32 c = some ((b32 c).getD 0) := by
  induction cs generalizing vs with
  | nil => simpa using h
  | cons c cs ih =>
    obtain ⟨v, vs', rfl, hv, hvs⟩ := List.map_eq_cons_iff.mp h.symm
    obtain ⟨rfl, hmem⟩ := ih hvs.symm
    refine ⟨by simp [← hv], ?_⟩
    intro x hx
    rcases List.mem_cons.mp hx with rfl | hx
    · rw [← hv]; rfl
    · exact hmem x hx

/-- A group of one of the five shapes is read as what it denotes. -/
theorem decode8_of_shape {cs : List UInt8} {vs : List Nat} (hk : B32Size cs.length) (hmap : cs.map b32 = vs.map some)
    (hg : [c0, c1, c2, c3, c4, c5, c6, c7] = cs ++ List.replicate (8 - cs.length) b32pad) :
    decode8 c0 c1 c2 c3 c4 c5 c6 c7 =
      some (beBytes (5 * cs.length / 8) (b32Nat vs / 2 ^ (5 * cs.length % 8))) := by
  obtain ⟨rfl, h⟩ := map_b32_eq hmap
  rcases hk with hk | hk | hk | hk | hk <;> rw [hk] at hg ⊢
  · obtain ⟨rfl, hp⟩ := List.append_inj (show [c0, c1] ++ [c2, c3, c4, c5, c6, c7] = _ from hg) hk.symm
    cases hp
    exact decode8_two (h c0 (by simp)) (h c1 (by simp))
  · obtain ⟨rfl, hp⟩ := List.append_inj (show [c0, c1, c2, c3] ++ [c4, c5, c6, c7] = _ from hg) hk.symm
    cases hp
    exact decode8_four (h c0 (by simp)) (h c1 (by simp)) (h c2 (by simp)) (h c3 (by simp))
  · obtain ⟨rfl, hp⟩ := List.append_inj (show [c0, c1, c2, c3, c4] ++ [c5, c6, c7] = _ from hg) hk.symm
    cases hp
    exact decode8_five (h c0 (by simp)) (h c1 (by simp)) (h c2 (by simp)) (h c3 (by simp)) (h c4 (by simp))
  · obtain ⟨rfl, hp⟩ := List.append_inj (show [c0, c1, c2, c3, c4, c5, c6] ++ [c7] = _ from hg) hk.symm
    cases hp
    exact decode8_seven (h c0 (by simp)) (h c1 (by simp)) (h c2 (by simp)) (h c3 (by simp)) (h c4 (by simp))
      (h c5 (by simp)) (h c6 (by simp))
  · obtain ⟨rfl, -⟩ := List.append_inj (show [c0, c1, c2, c3, c4, c5, c6, c7] ++ [] = _ from hg) hk.symm
    exact decode8_eight (h c0 (by simp)) (h c1 (by simp)) (h c2 (by simp)) (h c3 (by simp)) (h c4 (by simp))
      (h c5 (by simp)) (h c6 (by simp)) (h c7 (by simp))

/-- **A group is read exactly as what it denotes.** -/
theorem decode8_eq_some :
    decode8 c0 c1 c2 c3 c4 c5 c6 c7 = some d ↔ B32Group [c0, c1, c2, c3, c4, c5, c6, c7] d := by
  constructor
  · intro h
    obtain ⟨cs, vs, hk, hmap, hg⟩ := decode8_shape h
    refine ⟨cs, vs, hk, hmap, hg, ?_⟩
    exact Option.some.inj (h.symm.trans (decode8_of_shape hk hmap hg))
  · rintro ⟨cs, vs, hk, hmap, hg, rfl⟩
    exact decode8_of_shape hk hmap hg

end Invert

theorem B32Group.length {g d : List UInt8} (h : B32Group g d) : g.length = 8 := by
  obtain ⟨cs, vs, hk, -, rfl, -⟩ := h
  unfold B32Size at hk
  rw [List.length_append, List.length_replicate]
  omega

theorem B32Group.exists_chars {g d : List UInt8} (h : B32Group g d) :
    ∃ c0 c1 c2 c3 c4 c5 c6 c7, g = [c0, c1, c2, c3, c4, c5, c6, c7] := by
  have hl := h.length
  rcases g with _ | ⟨c0, _ | ⟨c1, _ | ⟨c2, _ | ⟨c3, _ | ⟨c4, _ | ⟨c5, _ | ⟨c6, _ | ⟨c7, _ | ⟨c8, g⟩⟩⟩⟩⟩⟩⟩⟩⟩ <;>
    simp at hl
  exact ⟨c0, c1, c2, c3, c4, c5, c6, c7, rfl⟩

/-! ## Whole texts -/

/-- The decoder accepts exactly the sequences of groups and returns the bytes there is room for. -/
theorem base32DecodeCtx_eq_some {payload out : List UInt8} {n : Nat} :
    base32DecodeCtx payload n = some out ↔ ∃ d, Base32Groups payload d ∧ out = d.take n := by
  constructor
  · intro h
    induction payload, n using base32DecodeCtx.induct generalizing out with
    | case1 n =>
      cases h
      exact ⟨[], .nil, (List.take_nil).symm⟩
    | case2 c0 c1 c2 c3 c4 c5 c6 c7 rest n ih =>
      rw [base32DecodeCtx] at h
      obtain ⟨group, hg, h⟩ := Option.bind_eq_some_iff.mp h
      obtain ⟨more, hm, h⟩ := Option.bind_eq_some_iff.mp h
      cases h
      obtain ⟨d, hd, rfl⟩ := ih group hm
      refine ⟨group ++ d, .cons (decode8_eq_some.mp hg) hd, ?_⟩
      rw [List.take_append, List.length_take]
      congr 2
      omega
    | case3 payload n h1 h2 =>
      rw [base32DecodeCtx] at h
      · cases h
      · exact h1
      · exact h2
  · rintro ⟨d, hd, rfl⟩
    induction hd generalizing n with
    | nil => simp [base32DecodeCtx]
    | @cons g d payload ds hg _ ih =>
      obtain ⟨c0, c1, c2, c3, c4, c5, c6, c7, rfl⟩ := hg.exists_chars
      simp only [List.cons_append, List.nil_append, base32DecodeCtx, decode8_eq_some.mpr hg, Option.bind_eq_bind,
        Option.bind_some, ih, Option.some.injEq]
      rw [List.take_append, List.length_take]
      congr 2
      omega

/-- A text denotes one byte string at most. -/
theorem Base32Groups.unique {payload d d' : List UInt8} (h : Base32Groups payload d) (h' : Base32Groups payload d') :
    d = d' := by
  have hd := base32DecodeCtx_eq_some.mpr ⟨d, h, (List.take_of_length_le (Nat.le_add_right d.length d'.length)).symm⟩
  have hd' := base32DecodeCtx_eq_some.mpr ⟨d', h', (List.take_of_length_le (Nat.le_add_left d'.length d.length)).symm⟩
  exact Option.some.inj (hd.symm.trans hd')

theorem Base32Groups.length_le {payload d : List UInt8} (h : Base32Groups payload d) :
    d.length ≤ 5 * (payload.length / 8) := by
  induction h with
  | nil => exact Nat.le_refl _
  | cons hg _ ih =>
    have h8 := hg.length
    obtain ⟨cs, vs, hk, -, -, rfl⟩ := hg
    unfold B32Size at hk
    rw [List.length_append, List.length_append, length_beBytes, h8]
    omega

theorem Base32Groups.length_mod {payload d : List UInt8} (h : Base32Groups payload d) : payload.length % 8 = 0 := by
  induction h with
  | nil => rfl
  | cons hg _ ih =>
    rw [List.length_append, hg.length]
    omega

/-- Well-formed base32 has eight characters for each five bytes that are begun. -/
theorem Base32Encodes.length {payload d : List UInt8} (h : Base32Encodes payload d) :
    payload.length = (d.length + 4) / 5 * 8 := by
  have hgroup {g d : List UInt8} (hg : B32Group g d) :
      1 ≤ d.length ∧ d.length ≤ 5 ∧ (b32pad ∉ g → d.length = 5) := by
    obtain ⟨cs, vs, hk, -, rfl, rfl⟩ := hg
    unfold B32Size at hk
    rw [length_beBytes]
    refine ⟨by omega, by omega, ?_⟩
    intro hfull
    have hlen : 8 - cs.length = 0 := by
      by_contra hne
      exact hfull (List.mem_append_right _ (List.mem_replicate.mpr ⟨hne, rfl⟩))
    omega
  induction h with
  | nil => rfl
  | last hg =>
    obtain ⟨hlo, hhi, -⟩ := hgroup hg
    rw [hg.length]
    omega
  | full hg hfull _ ih =>
    have h5 := (hgroup hg).2.2 hfull
    rw [List.length_append, List.length_append, hg.length, ih]
    omega

/-- Groups have characters of the alphabet and padding only. -/
theorem Base32Groups.notMem {payload d : List UInt8} {x : UInt8} (h : Base32Groups payload d) (hx : b32 x = none)
    (hpad : x ≠ b32pad) : x ∉ payload := by
  induction h with
  | nil => exact List.not_mem_nil
  | cons hg _ ih =>
    obtain ⟨cs, vs, -, hmap, rfl, -⟩ := hg
    have hcs : x ∉ cs := by
      intro hmem
      have hsome := (map_b32_eq hmap).2 x hmem
      rw [hx] at hsome
      cases hsome
    simp [hcs, ih, hpad]

/-! ## The text of the encoder -/

theorem b32_b32char (i : Nat) : b32 (b32char i) = some (i % 32) := by
  have h : ∀ j < 32, b32 (UInt8.ofNat (b32str.getD j '=').toNat) = some j := by decide
  have hi : i &&& 0x1f = i % 32 := Nat.and_two_pow_sub_one_eq_mod i 5
  rw [b32char, hi]
  exact h _ (Nat.mod_lt _ (by decide))

theorem b32char_ne_pad (i : Nat) : b32char i ≠ b32pad := ne_pad_of_b32 (b32_b32char i)

/-- Digits are read back. -/
theorem b32Nat_digits32 {k n : Nat} (h : n < 32 ^ k) : b32Nat (digits32 k n) = n := by
  induction k generalizing n with
  | zero => rw [Nat.lt_one_iff.mp h]; rfl
  | succ k ih =>
    have hdiv : n / 32 < 32 ^ k := Nat.div_lt_of_lt_mul (by rwa [Nat.mul_comm, ← Nat.pow_succ])
    rw [digits32, b32Nat_snoc, ih hdiv, Nat.div_add_mod]

theorem map_b32_digits32 (k n : Nat) : ((digits32 k n).map b32char).map b32 = (digits32 k n).map some := by
  induction k generalizing n with
  | zero => rfl
  | succ k ih => simp only [digits32, List.map_append, ih, List.map_cons, List.map_nil, b32_b32char, Nat.mod_mod]

/-- A quantum is a group of its bytes: the zeros that fill its bits are no whole byte. -/
theorem b32Group_quantum {bytes : List UInt8} (hpos : 1 ≤ bytes.length) (hle : bytes.length ≤ 5) :
    B32Group (rfc4648Quantum bytes) bytes := by
  have hsize : B32Size ((8 * bytes.length + 4) / 5) := by unfold B32Size; omega
  have hbytes : 5 * ((8 * bytes.length + 4) / 5) / 8 = bytes.length := by omega
  have hfill : 5 * ((8 * bytes.length + 4) / 5) % 8 = 5 * ((8 * bytes.length + 4) / 5) - 8 * bytes.length := by omega
  have hbits : 8 * bytes.length + 5 * ((8 * bytes.length + 4) / 5) % 8 = 5 * ((8 * bytes.length + 4) / 5) := by omega
  unfold rfc4648Quantum
  dsimp only
  rw [← hfill]
  generalize (8 * bytes.length + 4) / 5 = k at *
  have hlt : beNat bytes * 2 ^ (5 * k % 8) < 32 ^ k := by
    calc beNat bytes * 2 ^ (5 * k % 8) < 256 ^ bytes.length * 2 ^ (5 * k % 8) :=
          Nat.mul_lt_mul_of_pos_right (beNat_lt bytes) (Nat.two_pow_pos _)
      _ = 2 ^ (8 * bytes.length + 5 * k % 8) := by rw [Nat.pow_add, Nat.pow_mul]
      _ = 32 ^ k := by rw [hbits, Nat.pow_mul]
  have hlen : ((digits32 k (beNat bytes * 2 ^ (5 * k % 8))).map b32char).length = k := by
    rw [List.length_map, length_digits32]
  refine ⟨_, _, by rwa [hlen], map_b32_digits32 k _, by rw [hlen], ?_⟩
  rw [hlen, b32Nat_digits32 hlt, Nat.mul_div_cancel _ (Nat.two_pow_pos _), hbytes, beBytes_beNat]

/-- **The encoder writes well-formed text of its input.** -/
theorem base32Text_encodes (bs : List UInt8) : Base32Encodes (base32Text bs) bs := by
  induction bs using base32Text.induct with
  | case1 => exact .nil
  | case2 a => exact .last (base32Text_one a ▸ b32Group_quantum (by simp) (by simp))
  | case3 a b => exact .last (base32Text_two a b ▸ b32Group_quantum (by simp) (by simp))
  | case4 a b c => exact .last (base32Text_three a b c ▸ b32Group_quantum (by simp) (by simp))
  | case5 a b c d => exact .last (base32Text_four a b c d ▸ b32Group_quantum (by simp) (by simp))
  | case6 a b c d e rest ih =>
    have hgroup : B32Group (base32Text [a, b, c, d, e]) [a, b, c, d, e] :=
      base32Text_five a b c d e ▸ b32Group_quantum (by simp) (by simp)
    refine .full hgroup ?_ ih
    simp [base32Text, fun i => (b32char_ne_pad i).symm]

/-- What the encoder wrote is decoded, into any object that it fits. -/
theorem libp2pEncodingBase32Decode_base32Text {bs results : List UInt8} (h : bs.length ≤ results.length) :
    libp2pEncodingBase32Decode (base32Text bs) results = some (overlay results bs, bs.length) := by
  have hd := base32DecodeCtx_eq_some.mpr ⟨bs, (base32Text_encodes bs).groups, (List.take_of_length_le h).symm⟩
  unfold libp2pEncodingBase32Decode
  rw [hd]
  rfl

end Libcp2p

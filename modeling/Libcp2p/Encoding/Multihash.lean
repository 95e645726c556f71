import Libcp2p.Encoding.Base32

/-!
# Reading multihashes

`mhMultihashHash`, `mhMultihashLength` and `mhMultihashDigest` read the code, the length and the digest of a multihash
after the checks of `checkMultihash`.

* `readers_multihash`: what `multihash`-shaped bytes are read as.
* `multihash_agree_iff`: the writer `mhNew` and the readers agree exactly on codes below 128 and non-empty digests, and
  the digest handed out lies inside the array exactly when the array is not shorter than it declares.
-/

namespace Libcp2p

/-! ## The readers -/

/-- `VARINT_MASK`. -/
def VARINT_MASK : UInt8 := 0x80

/-- `check_len`. -/
def checkLen (len : Nat) : Except MhError Unit :=
  if len < 1 then .error .tooShort
  else if 128 ≤ len then .error .tooLong
  else .ok ()

/-- `check_multihash` on an array, of which it needs three bytes. -/
def checkMultihash : List UInt8 → Except MhError Unit
  | mh0 :: mh1 :: _ :: _ =>
    if mh0 &&& VARINT_MASK ≠ 0 then .error .varintNotSupported
    else if mh1 &&& VARINT_MASK ≠ 0 then .error .varintNotSupported
    else checkLen mh1.toNat
  | _ => .error .tooShort

/-- `mh_multihash_hash`: the code, as an `int`. -/
def mhMultihashHash (mh : List UInt8) : Except MhError Int := do
  checkMultihash mh
  return (mh.getD 0 0).toNat

/-- `mh_multihash_length`. -/
def mhMultihashLength (mh : List UInt8) : Except MhError Nat := do
  checkMultihash mh
  return (mh.getD 1 0).toNat

/-- What `mh_multihash_digest` hands out: where in the array the digest starts and how long it is. -/
structure MhDigest where
  digest : Nat
  digestLen : Nat
  deriving DecidableEq, Repr

/-- `mh_multihash_digest`. -/
def mhMultihashDigest (multihash : List UInt8) : Except MhError MhDigest := do
  checkMultihash multihash
  let digestLen ← mhMultihashLength multihash
  return ⟨2, digestLen⟩

/-- The bytes that a digest of an array points to. -/
def MhDigest.bytes (d : MhDigest) (multihash : List UInt8) : Except Fault (List UInt8) :=
  readBytes (multihash.drop d.digest) d.digestLen

/-! ## What the checks accept -/

theorem checkLen_eq_ok {len : Nat} : checkLen len = .ok () ↔ 1 ≤ len ∧ len < 128 := by
  unfold checkLen
  split
  · simp; omega
  · split
    · simp; omega
    · simp; omega

/-- The checks pass on three bytes or more that start with a code and a length below 128, the length not zero. -/
theorem checkMultihash_eq_ok {mh : List UInt8} :
    checkMultihash mh = .ok () ↔ ∃ code len b rest, mh = code :: len :: b :: rest ∧ code.toNat < 128 ∧
      1 ≤ len.toNat ∧ len.toNat < 128 := by
  constructor
  · intro h
    unfold checkMultihash at h
    split at h
    · rename_i code len b rest
      split at h
      · cases h
      · rename_i hcode
        split at h
        · cases h
        · have hlen := checkLen_eq_ok.mp h
          exact ⟨code, len, b, rest, rfl, (and_0x80_eq_zero code).mp (not_not.mp hcode), hlen⟩
    · cases h
  · rintro ⟨code, len, b, rest, rfl, hcode, hlen⟩
    rw [checkMultihash, VARINT_MASK, if_neg (not_not.mpr ((and_0x80_eq_zero code).mpr hcode)),
      if_neg (not_not.mpr ((and_0x80_eq_zero len).mpr hlen.2))]
    exact checkLen_eq_ok.mpr hlen

section Accepted

variable {mh : List UInt8} (h : checkMultihash mh = .ok ())

include h

theorem mhMultihashHash_ok : mhMultihashHash mh = .ok (mh.getD 0 0).toNat := by
  unfold mhMultihashHash
  rw [h]
  rfl

theorem mhMultihashLength_ok : mhMultihashLength mh = .ok (mh.getD 1 0).toNat := by
  unfold mhMultihashLength
  rw [h]
  rfl

theorem mhMultihashDigest_ok : mhMultihashDigest mh = .ok ⟨2, (mh.getD 1 0).toNat⟩ := by
  unfold mhMultihashDigest
  rw [mhMultihashLength_ok h, h]
  rfl

end Accepted

/-- Nothing is read from an array that does not pass the checks. -/
theorem checkMultihash_of_digest {mh : List UInt8} {d : MhDigest} (h : mhMultihashDigest mh = .ok d) :
    checkMultihash mh = .ok () := by
  unfold mhMultihashDigest at h
  obtain ⟨_, hc, -⟩ := bind_eq_ok.mp h
  exact hc

/-- A code, a length and that many bytes are read as they are. -/
theorem readers_multihash {code : UInt8} {digest : List UInt8} (hcode : code.toNat < 128) (hd : digest ≠ [])
    (hlen : digest.length < 128) :
    mhMultihashHash (code :: UInt8.ofNat digest.length :: digest) = .ok code.toNat ∧
      mhMultihashLength (code :: UInt8.ofNat digest.length :: digest) = .ok digest.length ∧
      mhMultihashDigest (code :: UInt8.ofNat digest.length :: digest) = .ok ⟨2, digest.length⟩ := by
  obtain ⟨b, rest, rfl⟩ := List.exists_cons_of_ne_nil hd
  have hn : (UInt8.ofNat (b :: rest).length).toNat = (b :: rest).length := by
    rw [UInt8.toNat_ofNat']
    omega
  have hc : checkMultihash (code :: UInt8.ofNat (b :: rest).length :: b :: rest) = .ok () :=
    checkMultihash_eq_ok.mpr ⟨code, _, b, rest, rfl, hcode, by rw [hn]; simp, by rw [hn]; exact hlen⟩
  refine ⟨mhMultihashHash_ok hc, ?_, ?_⟩
  · rw [mhMultihashLength_ok hc, List.getD_cons_succ, List.getD_cons_zero, hn]
  · rw [mhMultihashDigest_ok hc, List.getD_cons_succ, List.getD_cons_zero, hn]

/-! ## Writer and readers -/

/-- The `2 + digest_len` bytes that `mh_new` wrote are read back as the code, the length and the digest. -/
def ReadsBack (code : BitVec 32) (digest written : List UInt8) : Prop :=
  mhMultihashHash (written.take (2 + digest.length)) = .ok code.toInt ∧
    mhMultihashLength (written.take (2 + digest.length)) = .ok digest.length ∧
    ∃ d, mhMultihashDigest (written.take (2 + digest.length)) = .ok d ∧
      d.bytes (written.take (2 + digest.length)) = .ok digest

/-- A digest that `mh_multihash_digest` hands out lies inside the array. -/
def DigestInside (mh : List UInt8) : Prop := ∀ d, mhMultihashDigest mh = .ok d → d.digestLen + 2 ≤ mh.length

/-- An array that passes the checks and ends before the digest that it declares. -/
def Overdeclares (mh : List UInt8) : Prop :=
  ∃ code len b rest, mh = code :: len :: b :: rest ∧ code.toNat < 128 ∧ len.toNat < 128 ∧ rest.length + 1 < len.toNat

/-- What `mh_new` leaves in the first bytes of its buffer. -/
theorem mhNew_eq_ok {buffer digest written : List UInt8} {code : Nat}
    (h : mhNew buffer code digest = .ok (.ok written)) :
    digest.length ≤ 127 ∧
      written.take (2 + digest.length) = UInt8.ofNat code :: UInt8.ofNat digest.length :: digest := by
  unfold mhNew at h
  split at h
  · cases h
  · split at h
    · cases h
    · rename_i hlen
      split at h
      · cases h
        refine ⟨by omega, ?_⟩
        rw [overlay]
        exact List.take_left' (by simp only [List.length_cons]; omega)
      · cases h

/-- A 32-bit number is its low byte, as an `int`, when it is below 256. -/
theorem toInt_eq_low_byte {code : BitVec 32} {n : Nat} (hn : n < 256) (h : (n : Int) = code.toInt) :
    code.toNat = n := by
  have hc := code.isLt
  rw [BitVec.toInt_eq_toNat_cond] at h
  split at h
  · omega
  · omega

/-- What was written is read back exactly when the digest is not empty and the code is below 128. -/
theorem readsBack_iff {buffer digest written : List UInt8} {code : BitVec 32}
    (h : mhNew buffer code.toNat digest = .ok (.ok written)) :
    ReadsBack code digest written ↔ digest ≠ [] ∧ code.toNat < 128 := by
  obtain ⟨hlen, hw⟩ := mhNew_eq_ok h
  have hbyte : (UInt8.ofNat code.toNat).toNat = code.toNat % 256 := UInt8.toNat_ofNat'
  unfold ReadsBack
  rw [hw]
  constructor
  · rintro ⟨hhash, -, d, hd, -⟩
    have hc := checkMultihash_of_digest hd
    rw [mhMultihashHash_ok hc] at hhash
    obtain ⟨c, l, b, rest, he, hc128, -⟩ := checkMultihash_eq_ok.mp hc
    simp only [List.cons.injEq] at he
    obtain ⟨rfl, -, rfl⟩ := he
    have hcode : code.toNat = (UInt8.ofNat code.toNat).toNat :=
      toInt_eq_low_byte (UInt8.toNat_lt _) (Except.ok.inj hhash)
    exact ⟨List.cons_ne_nil _ _, by rw [hcode]; exact hc128⟩
  · rintro ⟨hne, hcode⟩
    have hb : (UInt8.ofNat code.toNat).toNat = code.toNat := by omega
    obtain ⟨hhash, hl, hdig⟩ := readers_multihash (by rw [hb]; exact hcode) hne (by omega)
    have hint : ((UInt8.ofNat code.toNat).toNat : Int) = code.toInt := by
      rw [hb, BitVec.toInt_eq_toNat_cond, if_pos (by omega)]
    refine ⟨by rw [hhash, hint], hl, _, hdig, ?_⟩
    exact readBytes_length digest

theorem digestInside_iff (mh : List UInt8) : DigestInside mh ↔ ¬ Overdeclares mh := by
  constructor
  · rintro h ⟨code, len, b, rest, rfl, hcode, hlen, hshort⟩
    have hc : checkMultihash (code :: len :: b :: rest) = .ok () :=
      checkMultihash_eq_ok.mpr ⟨code, len, b, rest, rfl, hcode, by omega, hlen⟩
    have hin := h _ (mhMultihashDigest_ok hc)
    simp only [List.getD_cons_succ, List.getD_cons_zero, List.length_cons] at hin
    omega
  · intro h d hd
    have hc := checkMultihash_of_digest hd
    obtain ⟨code, len, b, rest, rfl, hcode, hpos, hlen⟩ := checkMultihash_eq_ok.mp hc
    rw [mhMultihashDigest_ok hc] at hd
    cases hd
    by_contra hout
    apply h
    refine ⟨code, len, b, rest, rfl, hcode, hlen, ?_⟩
    simp only [List.getD_cons_succ, List.getD_cons_zero, List.length_cons] at hout
    omega

/-- **Writer and readers of multihashes.** What `mh_new` writes is read back exactly for codes below 128 and digests
that are not empty, and a digest handed out lies inside the array exactly when the array holds what it declares. -/
theorem multihash_agree_iff (buffer digest written mh : List UInt8) (code : BitVec 32) :
    (mhNew buffer code.toNat digest = .ok (.ok written) →
      (ReadsBack code digest written ↔ digest ≠ [] ∧ code.toNat < 128)) ∧
    (DigestInside mh ↔ ¬ Overdeclares mh) :=
  ⟨readsBack_iff, digestInside_iff mh⟩

/-- Three bytes that declare a digest of 32. -/
theorem digest_not_inside : ¬ DigestInside [0x12, 0x20, 0x00] := by
  intro h
  exact absurd (h ⟨2, 32⟩ (by decide)) (by decide)

/-- An empty digest is written and cannot be read. -/
example : mhNew [0, 0] 0x12 [] = .ok (.ok [0x12, 0x00]) ∧ mhMultihashDigest [0x12, 0x00] = .error .tooShort := by decide

end Libcp2p

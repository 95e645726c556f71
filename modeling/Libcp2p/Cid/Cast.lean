import Libcp2p.Cid.Cid
import Libcp2p.Encoding.Multihash
import Libcp2p.Protobuf.Grammar

/-!
# Casting an array to a content id

`ipfs_cid_cast` looks at an array in place: 34 bytes that start with 18 and 32 are a SHA-256 multihash, everything else
is two varints and a hash. The hash that it stores points into the array.

* `ipfsCidCast_eq_ok`: the arrays on which the function returns, and what it returns, as a relation `Casts`.
* `CidForm.unique`: no two content ids share a byte form.
* `cid_cast_form_iff`: both byte forms are read back, the varints as long as the length that `varint_decode` is told
  fits in an `int`.
* `cid_cast_safe_iff`: the arrays on which the function stays inside and its assertions hold.
-/

namespace Libcp2p

/-! ## The function -/

/-- What `ipfs_cid_cast` stores in its `struct Cid`; `hash` is where in the array the hash starts. -/
structure CidCast where
  version : Int
  codec : Int
  hash : Nat
  hashLength : Nat
  deriving DecidableEq, Repr

/-- The branch for a multihash. What `mh_multihash_digest` returns is not looked at, so `hash` would stay unset after an
error. -/
def castMultihash (incoming : List UInt8) : Except Fault CidCast :=
  match mhMultihashDigest incoming with
  | .ok d => .ok ⟨0, CID_DAG_PROTOBUF, d.digest, d.digestLen⟩
  | .error _ => .error .indeterminate

/-- The branch for varints; nothing where it returns 0. A varint that was read lies inside the array, so the
subtractions do not wrap. -/
def castVarints (incoming : List UInt8) : Except Fault (Option CidCast) := do
  let (version, numBytes) ← varintDecode incoming (toInt32 incoming.length)
  let version := toInt32 version
  if numBytes = 0 ∨ 1 < version ∨ version < 0 then .ok none
  else do
    let pos := numBytes
    let (codec, numBytes) ← varintDecode (incoming.drop pos) (toInt32 (incoming.length - pos : Nat))
    if numBytes = 0 then .ok none
    else
      let pos := pos + numBytes
      .ok (some ⟨version, toInt32 (codec % 2 ^ 32 : Nat), pos, incoming.length - pos⟩)

/-- `ipfs_cid_cast`; nothing where it returns 0. -/
def ipfsCidCast (incoming : List UInt8) : Except Fault (Option CidCast) :=
  if incoming.length = 34 ∧ incoming[0]? = some 18 ∧ incoming[1]? = some 32 then (castMultihash incoming).map some
  else castVarints incoming

/-! ## Where it returns -/

/-- The bytes of a SHA-256 multihash. -/
def IsSha256Multihash (bytes : List UInt8) : Prop := ∃ digest, digest.length = 32 ∧ bytes = 18 :: 32 :: digest

/-- The test of `ipfs_cid_cast` finds the multihashes. -/
theorem isSha256Multihash_iff {bytes : List UInt8} :
    bytes.length = 34 ∧ bytes[0]? = some 18 ∧ bytes[1]? = some 32 ↔ IsSha256Multihash bytes := by
  constructor
  · rintro ⟨hlen, h0, h1⟩
    cases bytes with
    | nil => cases h0
    | cons code bytes =>
      cases bytes with
      | nil => cases h1
      | cons size digest =>
        cases h0
        cases h1
        exact ⟨digest, by simpa using hlen, rfl⟩
  · rintro ⟨digest, hd, rfl⟩
    simp [hd]

/-- The digest of a multihash is found. -/
theorem castMultihash_sha256 {digest : List UInt8} (hd : digest.length = 32) :
    castMultihash (18 :: 32 :: digest) = .ok ⟨0, CID_DAG_PROTOBUF, 2, 32⟩ := by
  have hne : digest ≠ [] := by
    rintro rfl
    cases hd
  have hcode : (18 : UInt8).toNat < 128 := by decide
  obtain ⟨-, -, hdigest⟩ := readers_multihash hcode hne (by omega)
  rw [hd, show UInt8.ofNat 32 = 32 from rfl] at hdigest
  unfold castMultihash
  rw [hdigest]

/-- How an array is cast as a version, a codec and the rest. Another version than 0 and 1 is refused. -/
inductive CastsVarints : List UInt8 → Option CidCast → Prop
  | refused {version rest : List UInt8} {v : Int} (hv : VarintRead (toInt32 (version ++ rest).length) version)
    (hn : v = toInt32 (varintNumber version)) (hout : 1 < v ∨ v < 0) : CastsVarints (version ++ rest) none
  | read {version codec hash : List UInt8} {v c : Int}
    (hv : VarintRead (toInt32 (version ++ (codec ++ hash)).length) version) (hn : v = toInt32 (varintNumber version))
    (hin : ¬ (1 < v ∨ v < 0)) (hc : VarintRead (toInt32 (codec ++ hash).length) codec)
    (hcn : c = toInt32 (varintNumber codec % 2 ^ 32 : Nat)) :
    CastsVarints (version ++ (codec ++ hash)) (some ⟨v, c, version.length + codec.length, hash.length⟩)

/-- The branch for varints returns exactly where the two varints lie inside the array, or the first one is refused. -/
theorem castVarints_eq_ok {incoming : List UInt8} {r : Option CidCast} :
    castVarints incoming = .ok r ↔ CastsVarints incoming r := by
  constructor
  · intro h
    obtain ⟨⟨number, numBytes⟩, hversion, h⟩ := bind_eq_ok.mp h
    obtain ⟨version, rest, rfl, hv, rfl, rfl⟩ := varintDecode_eq_ok.mp hversion
    have hpos := hv.form.length_pos
    dsimp only at h
    by_cases hout : 1 < toInt32 (varintNumber version) ∨ toInt32 (varintNumber version) < 0
    · rw [if_pos (.inr hout)] at h
      cases h
      exact .refused hv rfl hout
    · rw [if_neg (by omega)] at h
      obtain ⟨⟨number, numBytes⟩, hcodec, h⟩ := bind_eq_ok.mp h
      rw [List.drop_left, List.length_append, Nat.add_sub_cancel_left] at hcodec
      obtain ⟨codec, hash, rfl, hc, rfl, rfl⟩ := varintDecode_eq_ok.mp hcodec
      have hpos' := hc.form.length_pos
      dsimp only at h
      rw [if_neg (by omega)] at h
      have hleft : (version ++ (codec ++ hash)).length - (version.length + codec.length) = hash.length := by
        simp only [List.length_append]
        omega
      rw [hleft] at h
      cases Except.ok.inj h
      exact .read hv rfl hout hc rfl
  · intro h
    cases h with
    | @refused version rest v hv hn hout =>
      have hversion := varintDecode_eq_ok.mpr ⟨version, rest, rfl, hv, rfl, rfl⟩
      unfold castVarints
      rw [hversion, ok_bind]
      dsimp only
      rw [← hn, if_pos (.inr hout)]
    | @read version codec hash v c hv hn hin hc hcn =>
      have hversion := varintDecode_eq_ok.mpr ⟨version, codec ++ hash, rfl, hv, rfl, rfl⟩
      have hcodec := varintDecode_eq_ok.mpr ⟨codec, hash, rfl, hc, rfl, rfl⟩
      have hpos := hv.form.length_pos
      have hpos' := hc.form.length_pos
      have hrest : (version ++ (codec ++ hash)).length - version.length = (codec ++ hash).length := by
        rw [List.length_append, Nat.add_sub_cancel_left]
      have hleft : (version ++ (codec ++ hash)).length - (version.length + codec.length) = hash.length := by
        simp only [List.length_append]
        omega
      unfold castVarints
      rw [hversion, ok_bind]
      dsimp only
      rw [← hn, if_neg (by omega), List.drop_left, hrest, hcodec, ok_bind]
      dsimp only
      rw [if_neg (by omega), hleft, hcn]

/-- What is stored for an array: a multihash is one with the digest at byte 2, anything else is read as varints. -/
inductive Casts (bytes : List UInt8) : Option CidCast → Prop
  | multihash (hm : IsSha256Multihash bytes) : Casts bytes (some ⟨0, CID_DAG_PROTOBUF, 2, 32⟩)
  | varints {r : Option CidCast} (hm : ¬ IsSha256Multihash bytes) (h : CastsVarints bytes r) : Casts bytes r

/-- **`ipfs_cid_cast` returns** exactly where `Casts` says. -/
theorem ipfsCidCast_eq_ok {incoming : List UInt8} {r : Option CidCast} :
    ipfsCidCast incoming = .ok r ↔ Casts incoming r := by
  unfold ipfsCidCast
  by_cases hm : IsSha256Multihash incoming
  · rw [if_pos (isSha256Multihash_iff.mpr hm)]
    have hcast : castMultihash incoming = .ok ⟨0, CID_DAG_PROTOBUF, 2, 32⟩ := by
      obtain ⟨digest, hd, rfl⟩ := hm
      exact castMultihash_sha256 hd
    rw [hcast]
    constructor
    · intro h
      cases Except.ok.inj h
      exact .multihash hm
    · intro h
      cases h with
      | multihash _ => rfl
      | varints hm' _ => exact absurd hm hm'
  · rw [if_neg (mt isSha256Multihash_iff.mp hm), castVarints_eq_ok]
    constructor
    · intro h
      exact .varints hm h
    · intro h
      cases h with
      | multihash hm' => exact absurd hm' hm
      | varints _ h => exact h

/-! ## Byte forms of content ids -/

/-- The byte forms: version and codec as varints with the hash behind them, or a SHA-256 multihash. -/
inductive CidForm : Cid → List UInt8 → Prop
  | varints {v c : Nat} {version codec hash : List UInt8} (hv : v ≤ 1) (hc : c < 2 ^ 31) (hversion : VarintOf v version)
    (hcodec : VarintOf c codec) : CidForm ⟨v, c, hash⟩ (version ++ (codec ++ hash))
  | multihash {digest : List UInt8} (hd : digest.length = 32) :
      CidForm ⟨0, CID_DAG_PROTOBUF, digest⟩ (18 :: 32 :: digest)

/-- `ipfs_cid_cast` returns 1 and stores this `Cid`, with the hash as the bytes that it points to. -/
def CastsTo (bytes : List UInt8) (cid : Cid) : Prop :=
  ∃ cast, ipfsCidCast bytes = .ok (some cast) ∧ cast.version = cid.version ∧ cast.codec = cid.codec ∧
    readBytes (bytes.drop cast.hash) cast.hashLength = .ok cid.hash

section Forms

variable {v c : Nat} {version codec hash : List UInt8}

/-- A version comes first in its form, and no version is the code of SHA-256. -/
theorem not_isSha256Multihash_version (hv : v ≤ 1) (hversion : VarintOf v version) (rest : List UInt8) :
    ¬ IsSha256Multihash (version ++ rest) := by
  rintro ⟨digest, -, h⟩
  rw [hversion.eq_singleton (by omega)] at h
  obtain ⟨hbyte, -⟩ := List.cons.inj h
  have hcode := congrArg UInt8.toNat hbyte
  rw [UInt8.toNat_ofNat', show (18 : UInt8).toNat = 18 from rfl] at hcode
  omega

/-- **No two content ids share a byte form.** -/
theorem CidForm.unique {a b : Cid} {bytes : List UInt8} (ha : CidForm a bytes) (hb : CidForm b bytes) : a = b := by
  cases ha with
  | @varints v c version codec hash hv hc hversion hcodec =>
    generalize hbytes : version ++ (codec ++ hash) = bytes at hb
    cases hb with
    | @varints v' c' version' codec' hash' hv' hc' hversion' hcodec' =>
      obtain ⟨rfl, hrest⟩ := (hversion.form (by omega)).1.append_inj (hversion'.form (by omega)).1 hbytes
      obtain ⟨rfl, rfl⟩ := (hcodec.form (by omega)).1.append_inj (hcodec'.form (by omega)).1 hrest
      have hveq : v = v' := (hversion.number (by omega)).symm.trans (hversion'.number (by omega))
      have hceq : c = c' := (hcodec.number (by omega)).symm.trans (hcodec'.number (by omega))
      rw [hveq, hceq]
    | multihash hd => exact absurd ⟨_, hd, hbytes⟩ (not_isSha256Multihash_version hv hversion _)
  | @multihash digest hd =>
    generalize hbytes : 18 :: 32 :: digest = bytes at hb
    cases hb with
    | varints hv hc hversion hcodec =>
      exact absurd ⟨_, hd, hbytes.symm⟩ (not_isSha256Multihash_version hv hversion _)
    | multihash hd' =>
      cases hbytes
      rfl

/-- A multihash is cast to its digest. -/
theorem castsTo_multihash {digest : List UInt8} (hd : digest.length = 32) :
    CastsTo (18 :: 32 :: digest) ⟨0, CID_DAG_PROTOBUF, digest⟩ := by
  refine ⟨_, ipfsCidCast_eq_ok.mpr (.multihash ⟨digest, hd, rfl⟩), rfl, rfl, ?_⟩
  rw [← hd]
  exact readBytes_length digest

/-- The varints of a content id are read back exactly if the codec takes one byte, or all of its bytes are inside the
length that `varint_decode` is told as an `int`. -/
theorem castsTo_varints_iff (hv : v ≤ 1) (hc : c < 2 ^ 31) (hversion : VarintOf v version) (hcodec : VarintOf c codec) :
    CastsTo (version ++ (codec ++ hash)) ⟨v, c, hash⟩ ↔
      codec.length = 1 ∨ (codec.length : Int) ≤ toInt32 (codec ++ hash).length := by
  have hvform := (hversion.form (by omega)).1
  have hcform := (hcodec.form (by omega)).1
  have hone : version.length = 1 := by rw [hversion.eq_singleton (by omega)]; rfl
  constructor
  · rintro ⟨cast, hcast, -⟩
    generalize hbytes : version ++ (codec ++ hash) = bytes at hcast
    cases ipfsCidCast_eq_ok.mp hcast with
    | multihash hm => exact absurd (hbytes ▸ hm) (not_isSha256Multihash_version hv hversion _)
    | varints _ h =>
      cases h with
      | read hv' _ _ hc' _ =>
        obtain ⟨rfl, hrest⟩ := hvform.append_inj hv'.form hbytes
        obtain ⟨rfl, rfl⟩ := hcform.append_inj hc'.form hrest
        exact hc'.inside
  · intro hinside
    have hvint : (v : Int) = toInt32 (varintNumber version) := by
      rw [hversion.number (by omega), toInt32_natCast (by omega)]
    have hcint : (c : Int) = toInt32 (varintNumber codec % 2 ^ 32 : Nat) := by
      rw [hcodec.number (by omega), Nat.mod_eq_of_lt (by omega), toInt32_natCast hc]
    have hin : ¬ (1 < (v : Int) ∨ (v : Int) < 0) := by omega
    refine ⟨_, ipfsCidCast_eq_ok.mpr (.varints (not_isSha256Multihash_version hv hversion _)
      (.read ⟨hvform, by omega, .inl hone⟩ hvint hin ⟨hcform, hcodec.length_le (by omega), hinside⟩ hcint)),
      rfl, rfl, ?_⟩
    change readBytes ((version ++ (codec ++ hash)).drop (version.length + codec.length)) hash.length = .ok hash
    rw [← List.length_append, ← List.append_assoc, List.drop_left, readBytes_length]

end Forms

/-- **Casting the byte forms.** Version and codec written by `varint_encode` with a hash behind them are read back
exactly when the codec is below 128, or its bytes and the hash together have a length that as an `int` still covers the
codec; a SHA-256 multihash always is; the two forms are disjoint, and no two content ids share one. -/
theorem cid_cast_form_iff (v c : Nat) (version codec hash digest : List UInt8) (hv : v ≤ 1) (hc : c < 2 ^ 31)
    (hversion : VarintOf v version) (hcodec : VarintOf c codec) (hd : digest.length = 32) :
    (CastsTo (version ++ (codec ++ hash)) ⟨v, c, hash⟩ ↔
      c < 128 ∨ (codec.length : Int) ≤ toInt32 (codec ++ hash).length) ∧
    CastsTo (18 :: 32 :: digest) ⟨0, CID_DAG_PROTOBUF, digest⟩ ∧
    version ++ (codec ++ hash) ≠ 18 :: 32 :: digest ∧
    ∀ (a b : Cid) (bytes : List UInt8), CidForm a bytes → CidForm b bytes → a = b := by
  refine ⟨?_, castsTo_multihash hd, ?_, fun a b bytes ha hb => ha.unique hb⟩
  · rw [castsTo_varints_iff hv hc hversion hcodec, hcodec.length_eq_one_iff (by omega)]
  · intro h
    exact not_isSha256Multihash_version hv hversion _ ⟨digest, hd, h⟩

/-- A codec of two bytes before a hash, and a digest of sevens. -/
theorem cid_cast_form_iff_hash :
    (CastsTo [1, 0x90, 1, 0x12, 1, 9] ⟨1, 0x90, [0x12, 1, 9]⟩ ↔ 0x90 < 128 ∨ (2 : Int) ≤ toInt32 5) ∧
    CastsTo (18 :: 32 :: List.replicate 32 7) ⟨0, CID_DAG_PROTOBUF, List.replicate 32 7⟩ ∧
    [1, 0x90, 1, 0x12, 1, 9] ≠ 18 :: 32 :: List.replicate 32 (7 : UInt8) ∧
    ∀ (a b : Cid) (bytes : List UInt8), CidForm a bytes → CidForm b bytes → a = b :=
  cid_cast_form_iff 1 0x90 [1] [0x90, 1] [0x12, 1, 9] (List.replicate 32 7) (by decide) (by decide) ⟨1, rfl⟩ ⟨2, rfl⟩
    List.length_replicate

/-- Codec 128 before a hash of `2 ^ 31` bytes: the length does not fit in an `int`, and the assertion fails. -/
theorem cid_cast_form_huge :
    VarintOf 1 [1] ∧ VarintOf 128 [0x80, 1] ∧
      ¬ CastsTo ([1] ++ ([0x80, 1] ++ List.replicate (2 ^ 31) 0)) ⟨1, 128, List.replicate (2 ^ 31) 0⟩ := by
  have hversion : VarintOf 1 [1] := ⟨1, rfl⟩
  have hcodec : VarintOf 128 [0x80, 1] := ⟨2, rfl⟩
  refine ⟨hversion, hcodec, ?_⟩
  have hlen : ([0x80, 1] ++ List.replicate (2 ^ 31) (0 : UInt8)).length = 2 + 2 ^ 31 := by
    rw [List.length_append, List.length_replicate]
    rfl
  intro h
  have hinside := (castsTo_varints_iff (by omega) (by omega) hversion hcodec).mp h
  rw [hlen] at hinside
  rcases hinside with hone | hle
  · cases hone
  · have htwo : (2 : Int) ≤ toInt32 (2 + 2 ^ 31 : Nat) := hle
    unfold toInt32 at htwo
    omega

/-! ## Any array -/

/-- The call reads only inside the array, its assertions hold, and a hash that it returns is the rest of the array. -/
def CastSafe (bytes : List UInt8) : Prop :=
  ∃ r, ipfsCidCast bytes = .ok r ∧
    ∀ cast, r = some cast → cast.hashLength ≤ bytes.length ∧ cast.hash + cast.hashLength = bytes.length

/-- The arrays that can be cast: multihashes, and arrays that start with a varint, after which comes another one unless
the first is neither 0 nor 1 as an `int`. The varints have at most ten bytes, and more than one only inside the length
of the rest as an `int`. -/
inductive CastReadable : List UInt8 → Prop
  | multihash {digest : List UInt8} (hd : digest.length = 32) : CastReadable (18 :: 32 :: digest)
  | version {version rest : List UInt8} (hv : VarintRead (toInt32 (version ++ rest).length) version)
    (hn : toInt32 (varintNumber version) ≠ 0 ∧ toInt32 (varintNumber version) ≠ 1) : CastReadable (version ++ rest)
  | varints {version codec hash : List UInt8} (hv : VarintRead (toInt32 (version ++ (codec ++ hash)).length) version)
    (hc : VarintRead (toInt32 (codec ++ hash).length) codec) : CastReadable (version ++ (codec ++ hash))

/-- What is stored describes the rest of the array. -/
theorem Casts.suffix {bytes : List UInt8} {cast : CidCast} (h : Casts bytes (some cast)) :
    cast.hashLength ≤ bytes.length ∧ cast.hash + cast.hashLength = bytes.length := by
  cases h with
  | multihash hm =>
    obtain ⟨digest, hd, rfl⟩ := hm
    simp [hd]
  | varints hm h =>
    cases h with
    | read hv hn hin hc hcn =>
      simp only [List.length_append]
      omega

/-- **Casting any array** stays inside it, and gives a suffix of it as the hash, exactly on the arrays of these
forms. -/
theorem cid_cast_safe_iff (bytes : List UInt8) : CastSafe bytes ↔ CastReadable bytes := by
  constructor
  · rintro ⟨r, hr, -⟩
    cases ipfsCidCast_eq_ok.mp hr with
    | multihash hm =>
      obtain ⟨digest, hd, rfl⟩ := hm
      exact .multihash hd
    | varints hm h =>
      cases h with
      | refused hv hn hout => exact .version hv (by omega)
      | read hv hn hin hc hcn => exact .varints hv hc
  · intro h
    suffices ∃ r, Casts bytes r by
      obtain ⟨r, hr⟩ := this
      refine ⟨r, ipfsCidCast_eq_ok.mpr hr, ?_⟩
      rintro cast rfl
      exact hr.suffix
    by_cases hm : IsSha256Multihash bytes
    · exact ⟨_, .multihash hm⟩
    · cases h with
      | multihash hd => exact absurd ⟨_, hd, rfl⟩ hm
      | version hv hn => exact ⟨_, .varints hm (.refused hv rfl (by omega))⟩
      | @varints version codec hash hv hc =>
        by_cases hout : 1 < toInt32 (varintNumber version) ∨ toInt32 (varintNumber version) < 0
        · exact ⟨_, .varints hm (.refused hv rfl hout)⟩
        · exact ⟨_, .varints hm (.read hv rfl hout hc rfl)⟩

/-- The empty array, one that ends behind the version, one that ends inside it, and a version without an end. -/
theorem cid_cast_unsafe :
    ¬ CastSafe [] ∧ ipfsCidCast [] = .error .outOfBounds ∧ ipfsCidCast [1] = .error .outOfBounds ∧
      ipfsCidCast [0x80] = .error .assertion ∧ ipfsCidCast (List.replicate 12 0x80) = .error .shift := by
  have hempty : ipfsCidCast [] = .error .outOfBounds := rfl
  refine ⟨?_, hempty, by decide⟩
  rintro ⟨r, hr, -⟩
  rw [hempty] at hr
  cases hr

end Libcp2p

import Libcp2p.Encoding.Base32

/-!
# Peer ids

A peer id is the multibase text, with its NUL, of the multihash of a digest of the public key. `libp2pNewPeerId` builds
it from the digest, `libp2pNewPeerIdSha256` and `keypairPeerid` from the key.

`PID` is the id of a key; both functions compute it (`libp2pNewPeerIdSha256_eq`, `keypairPeerid_eq`), and it always has
58 bytes (`length_PID`).
-/

namespace Libcp2p

/-- The SHA-256 of mbedtls: some function to 32 bytes. -/
structure Sha256 where
  /-- `libp2p_crypto_hashing_sha256`, which always returns 1 -/
  hash : List UInt8 → List UInt8
  length_hash : ∀ input, (hash input).length = 32

/-- A hash that repeats the first byte of its input. -/
def firstByteSha : Sha256 := ⟨fun input => List.replicate 32 (input.headD 0), fun _ => List.length_replicate⟩

/-- Which allocations of `libp2p_new_peer_id` succeed. -/
structure PidAlloc where
  pid : Bool
  data : Bool
  deriving DecidableEq, Repr

/-- Every allocation succeeds. -/
def PidAlloc.success : PidAlloc := ⟨true, true⟩

/-- Both are needed. -/
def PidAlloc.ok (alloc : PidAlloc) : Bool := alloc.pid && alloc.data

/-- `libp2p_new_peer_id` with an object of `outputLen` bytes for `output`: the data of the id, or nothing for NULL. -/
def libp2pNewPeerId (alloc : PidAlloc) (outputLen : Nat) (inputHash : List UInt8) :
    Except Fault (Option (List UInt8)) := do
  match ← mhNew (List.replicate outputLen 0) MH_H_SHA2_256 inputHash with
  | .error _ => .ok none
  | .ok tempBuffer =>
    let multihash ← readBytes tempBuffer (inputHash.length + 2)
    match ← multibaseEncode libp2pEncodingBase32Encode MULTIBASE_BASE32 multihash outputLen with
    | none => .ok none
    | some (output, len) =>
      if !alloc.ok then .ok none
      else do
        -- one byte more than the text, its NUL
        let data ← readBytes output (len + 1)
        .ok (some data)

/-- `libp2p_new_peer_id_sha256`. -/
def libp2pNewPeerIdSha256 (sha : Sha256) (alloc : PidAlloc) (outputLen : Nat) (publicKey : List UInt8) :
    Except Fault (Option (List UInt8)) :=
  libp2pNewPeerId alloc outputLen (sha.hash publicKey)

/-- The hashing path of `libp2p_crypto_ecdsa_keypair_peerid`, from the NUL-terminated PEM text in `pub_key->data`. -/
def keypairPeerid (sha : Sha256) (alloc : PidAlloc) (pubKeyData : List UInt8) : Except Fault (Option (List UInt8)) := do
  let text ← cString pubKeyData
  libp2pNewPeerId alloc 1024 (sha.hash text)

/-- The multihash of a SHA-256 digest. -/
def multihash (digest : List UInt8) : List UInt8 := 0x12 :: UInt8.ofNat digest.length :: digest

/-- The id that `libp2p_new_peer_id` builds from a digest that fits. -/
theorem libp2pNewPeerId_eq (alloc : PidAlloc) {n : Nat} {digest : List UInt8} (hd : digest.length ≤ 127)
    (hn : (base32Text (multihash digest)).length + 2 ≤ n) :
    libp2pNewPeerId alloc n digest =
      .ok (if alloc.ok then some (MULTIBASE_BASE32 :: base32Text (multihash digest) ++ [0]) else none) := by
  have hfits : digest.length + 2 ≤ n := by
    have := length_base32Text (multihash digest)
    simp only [multihash, List.length_cons] at this hn
    omega
  have hmh : mhNew (List.replicate n 0) MH_H_SHA2_256 digest =
      .ok (.ok (multihash digest ++ List.replicate (n - (digest.length + 2)) 0)) := by
    unfold mhNew
    rw [if_neg (by decide), if_neg (by omega), if_pos (by simpa using hfits)]
    simp only [overlay, List.drop_replicate, List.length_cons]
    rfl
  have hread : readBytes (multihash digest ++ List.replicate (n - (digest.length + 2)) 0) (digest.length + 2) =
      .ok (multihash digest) :=
    readBytes_eq_ok.mpr ⟨by simp [multihash], List.take_left' rfl⟩
  have hout : readBytes (MULTIBASE_BASE32 :: base32Text (multihash digest) ++
      List.replicate (n - (base32Text (multihash digest)).length - 1) 0)
      ((base32Text (multihash digest)).length + 1 + 1) =
      .ok (MULTIBASE_BASE32 :: base32Text (multihash digest) ++ [0]) := by
    obtain ⟨k, hk⟩ : ∃ k, n - (base32Text (multihash digest)).length - 1 = k + 1 :=
      ⟨n - (base32Text (multihash digest)).length - 2, by omega⟩
    rw [hk, List.replicate_succ, readBytes_eq_ok]
    exact ⟨by simp, by rw [List.append_cons]; exact List.take_left' (by simp)⟩
  unfold libp2pNewPeerId
  rw [hmh, ok_bind]
  dsimp only
  rw [hread, ok_bind, multibaseEncode_base32 (by omega), ok_bind]
  dsimp only
  rw [hout, ok_bind]
  cases alloc.ok <;> rfl

/-! ## The id of a key -/

section Pid

variable (sha : Sha256)

/-- The id that `libp2p_new_peer_id_sha256` derives from a key, with the 1024 bytes its callers give it. -/
def PID (key : List UInt8) : List UInt8 :=
  match libp2pNewPeerIdSha256 sha .success 1024 key with
  | .ok (some id) => id
  | _ => []

theorem length_base32Text_sha256 (key : List UInt8) : (base32Text (multihash (sha.hash key))).length = 56 := by
  rw [length_base32Text, multihash, List.length_cons, List.length_cons, sha.length_hash]

/-- A digest of SHA-256 makes an id, whatever it is. -/
theorem libp2pNewPeerIdSha256_text (alloc : PidAlloc) (key : List UInt8) :
    libp2pNewPeerIdSha256 sha alloc 1024 key =
      .ok (if alloc.ok then some (MULTIBASE_BASE32 :: base32Text (multihash (sha.hash key)) ++ [0]) else none) :=
  libp2pNewPeerId_eq alloc (by rw [sha.length_hash]; decide) (by rw [length_base32Text_sha256]; decide)

theorem PID_eq (key : List UInt8) :
    PID sha key = MULTIBASE_BASE32 :: base32Text (multihash (sha.hash key)) ++ [0] := by
  unfold PID
  rw [libp2pNewPeerIdSha256_text]
  rfl

@[simp] theorem length_PID (key : List UInt8) : (PID sha key).length = 58 := by
  rw [PID_eq, List.length_append, List.length_cons, length_base32Text_sha256]
  rfl

theorem libp2pNewPeerIdSha256_eq (alloc : PidAlloc) (key : List UInt8) :
    libp2pNewPeerIdSha256 sha alloc 1024 key = .ok (if alloc.ok then some (PID sha key) else none) := by
  rw [PID_eq, libp2pNewPeerIdSha256_text]

/-- The two derivations agree on a key without a NUL. -/
theorem keypairPeerid_eq {key : List UInt8} (hk : 0 ∉ key) (rest : List UInt8) :
    keypairPeerid sha .success (key ++ 0 :: rest) = .ok (some (PID sha key)) := by
  unfold keypairPeerid
  rw [cString_append hk, ok_bind]
  exact libp2pNewPeerIdSha256_eq sha .success key

end Pid

end Libcp2p

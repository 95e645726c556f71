import Libcp2p.Cid.Cid
import Libcp2p.Encoding.Base32Decode
import Libcp2p.Lib.CString

/-!
# Content ids as text

`ipfs_cid_hash_to_base32` writes a digest as the base32 text of its multihash. `ipfs_cid_decode_hash_from_base32` only
looks at texts of 46 characters that start with `Qm`, the form of a base58 text, and base32 has no text of that length.

* `ipfsCidHashToBase32_sha256`: the 56 characters that are written for a SHA-256 digest.
* `ipfsCidDecodeHashFromBase32_eq_none`: no text is accepted.
* `cid_hash_text_iff`: no digest is read back from its text.
-/

namespace Libcp2p

/-- `ipfs_cid_hash_to_base32` into an object of `maxBufferLength` bytes: what the object holds afterwards, or nothing
where it returns 0. -/
def ipfsCidHashToBase32 (hash : List UInt8) (maxBufferLength : Nat) : Except Fault (Option (List UInt8)) := do
  let multihashLen := hash.length + 2
  match ← mhNew (List.replicate multihashLen 0) MH_H_SHA2_256 hash with
  | .error _ => .ok none
  | .ok multihash =>
    if maxBufferLength < libp2pEncodingBase32EncodeSize multihashLen then .ok none
    else do
      match ← libp2pEncodingBase32Encode multihash maxBufferLength with
      | none => .ok none
      | some (buffer, _) => .ok (some buffer)

/-- `ipfs_cid_decode_hash_from_base32`, whose allocations succeed: `*cid`, or nothing where it returns 0. -/
def ipfsCidDecodeHashFromBase32 (incoming : List UInt8) : Except Fault (Option Cid) :=
  if incoming.length < 2 then .ok none
  else if incoming.length = 46 ∧ incoming.head? = some 81 ∧ (incoming.drop 1).head? = some 109 then
    match libp2pEncodingBase32Decode incoming
        (List.replicate (libp2pEncodingBase32DecodeSize incoming.length) 0) with
    | none => .ok none
    | some (hash, hashLength) =>
      -- the length is unsigned, so that a shorter hash would be copied from far outside
      if hashLength < 2 then .error .outOfBounds
      else .ok (some (ipfsCidNew 0 ((hash.take hashLength).drop 2) CID_DAG_PROTOBUF))
  else .ok none

/-- `ipfs_cid_decode_hash_from_ipfs_ipns_string`: it writes a NUL over the first slash of its argument. -/
def ipfsCidDecodeHashFromIpfsIpnsString (incoming : List UInt8) : Except Fault (Option Cid) :=
  if strpos incoming (ascii ['/', 'i', 'p', 'f', 's', '/']) ≠ some 0 ∧
      strpos incoming (ascii ['/', 'i', 'p', 'n', 's', '/']) ≠ some 0 then .ok none
  else
    let cut := match strpos incoming [47] with
      | none => incoming
      | some slash => incoming.set slash 0
    ipfsCidDecodeHashFromBase32 (cstr (cut.drop 6))

/-! ## What is written and what is read -/

section Digest

variable {hash : List UInt8} (h : hash.length = 32) {n : Nat} (hn : 62 ≤ n)

include h

theorem mhNew_sha256 :
    mhNew (List.replicate (hash.length + 2) 0) MH_H_SHA2_256 hash = .ok (.ok (18 :: 32 :: hash)) := by
  have hoverlay : overlay (List.replicate (hash.length + 2) 0) (18 :: 32 :: hash) = 18 :: 32 :: hash := by
    rw [overlay, List.drop_of_length_le (by simp), List.append_nil]
  rw [mhNew, if_neg (by decide), if_neg (by omega), if_pos (by rw [List.length_replicate])]
  rw [h] at hoverlay ⊢
  exact congrArg (fun multihash => Except.ok (Except.ok multihash)) hoverlay

include hn

/-- A SHA-256 digest is written as 56 characters. -/
theorem ipfsCidHashToBase32_sha256 :
    ∃ buffer, ipfsCidHashToBase32 hash n = .ok (some buffer) ∧ cString buffer = .ok (base32Text (18 :: 32 :: hash)) ∧
      (base32Text (18 :: 32 :: hash)).length = 56 := by
  have hlen : (base32Text (18 :: 32 :: hash)).length = 56 := by
    rw [length_base32Text, List.length_cons, List.length_cons, h]
  have hsize : ¬ n < libp2pEncodingBase32EncodeSize (hash.length + 2) := by
    rw [libp2pEncodingBase32EncodeSize, h]
    omega
  obtain ⟨k, hk⟩ : ∃ k, n - (base32Text (18 :: 32 :: hash)).length = k + 1 := ⟨n - 57, by omega⟩
  refine ⟨base32Text (18 :: 32 :: hash) ++ List.replicate (n - (base32Text (18 :: 32 :: hash)).length) 0, ?_, ?_, hlen⟩
  · rw [ipfsCidHashToBase32, mhNew_sha256 h, ok_bind]
    dsimp only
    rw [if_neg hsize, libp2pEncodingBase32Encode_eq (by omega), ok_bind]
  · rw [hk, List.replicate_succ, cString_append (zero_notMem_base32Text _)]

end Digest

/-- No text is accepted: 46 characters are no groups of eight. -/
theorem ipfsCidDecodeHashFromBase32_eq_none (incoming : List UInt8) :
    ipfsCidDecodeHashFromBase32 incoming = .ok none := by
  rw [ipfsCidDecodeHashFromBase32]
  split
  · rfl
  · split
    · rename_i hform
      cases hd : libp2pEncodingBase32Decode incoming
          (List.replicate (libp2pEncodingBase32DecodeSize incoming.length) 0) with
      | none => rfl
      | some r =>
        obtain ⟨written, hw, -⟩ := Option.bind_eq_some_iff.mp hd
        obtain ⟨d, hgroups, -⟩ := base32DecodeCtx_eq_some.mp hw
        have hmod := hgroups.length_mod
        omega
    · rfl

theorem ipfsCidDecodeHashFromIpfsIpnsString_eq_none (incoming : List UInt8) :
    ipfsCidDecodeHashFromIpfsIpnsString incoming = .ok none := by
  rw [ipfsCidDecodeHashFromIpfsIpnsString]
  split
  · rfl
  · exact ipfsCidDecodeHashFromBase32_eq_none _

/-- The text that is written for a digest is read back as a `Cid` with this digest: on its own, and after `/ipfs/` or
`/ipns/` with any path following it. -/
def HashTextReadBack (hash : List UInt8) (n : Nat) : Prop :=
  ∃ buffer text, ipfsCidHashToBase32 hash n = .ok (some buffer) ∧ cString buffer = .ok text ∧
    ipfsCidDecodeHashFromBase32 text = .ok (some ⟨0, CID_DAG_PROTOBUF, hash⟩) ∧
    ∀ root ∈ [ascii ['/', 'i', 'p', 'f', 's', '/'], ascii ['/', 'i', 'p', 'n', 's', '/']],
      ∀ path, (path = [] ∨ path.head? = some 47) →
        ipfsCidDecodeHashFromIpfsIpnsString (root ++ text ++ path) = .ok (some ⟨0, CID_DAG_PROTOBUF, hash⟩)

/-- **Digests as text.** Every SHA-256 digest is written, as 56 characters, and no digest is read back: each reader
returns 0 for its text. -/
theorem cid_hash_text_iff (hash : List UInt8) (h : hash.length = 32) (n : Nat) (hn : 62 ≤ n) :
    (∃ buffer text, ipfsCidHashToBase32 hash n = .ok (some buffer) ∧ cString buffer = .ok text ∧ text.length = 56 ∧
      ipfsCidDecodeHashFromBase32 text = .ok none ∧
      ∀ root path, ipfsCidDecodeHashFromIpfsIpnsString (root ++ text ++ path) = .ok none) ∧
      (HashTextReadBack hash n ↔ False) := by
  constructor
  · obtain ⟨buffer, hbuffer, htext, hlen⟩ := ipfsCidHashToBase32_sha256 h hn
    refine ⟨buffer, _, hbuffer, htext, hlen, ipfsCidDecodeHashFromBase32_eq_none _, ?_⟩
    intro root path
    exact ipfsCidDecodeHashFromIpfsIpnsString_eq_none _
  · rw [iff_false]
    rintro ⟨buffer, text, -, -, hread, -⟩
    rw [ipfsCidDecodeHashFromBase32_eq_none] at hread
    cases hread

/-- The digest of zeros, into 62 bytes. -/
theorem cid_hash_text_iff_zeros : HashTextReadBack (List.replicate 32 0) 62 ↔ False :=
  (cid_hash_text_iff (List.replicate 32 0) (by decide) 62 (by decide)).2

/-- The text of the digest of zeros is rejected. -/
theorem cid_hash_text_rejected :
    (∃ buffer, ipfsCidHashToBase32 (List.replicate 32 0) 62 = .ok (some buffer) ∧
      cString buffer = .ok (base32Text (18 :: 32 :: List.replicate 32 0))) ∧
      ipfsCidDecodeHashFromBase32 (base32Text (18 :: 32 :: List.replicate 32 0)) = .ok none ∧
      ipfsCidDecodeHashFromIpfsIpnsString (ascii ['/', 'i', 'p', 'f', 's', '/'] ++
        base32Text (18 :: 32 :: List.replicate 32 0)) = .ok none := by
  refine ⟨?_, by decide +kernel, by decide +kernel⟩
  obtain ⟨buffer, hbuffer, htext, -⟩ :=
    ipfsCidHashToBase32_sha256 (show (List.replicate 32 (0 : UInt8)).length = 32 by decide) (Nat.le_refl 62)
  exact ⟨buffer, hbuffer, htext⟩

end Libcp2p

import Libcp2p.Crypto.PeerId
import Libcp2p.Encoding.Multibase
import Libcp2p.Encoding.Multihash

/-!
# Reading peer ids

The way back from a peer id to the digest it was made of: `multibase_decode` of the id without its NUL, and the readers
of multihashes on the result. `peer_id_round_trip` says that it recovers every digest of 1 to 127 bytes, so that ids are
distinct, and that longer digests get no id.
-/

namespace Libcp2p

/-- The id without its NUL leads back to the digest, through any object that has room for the multihash. -/
def LeadsBack (b64 : Base64) (id digest : List UInt8) : Prop :=
  ∀ results : List UInt8, digest.length + 2 ≤ results.length →
    ∃ r len, multibaseDecode b64 id.dropLast results = .ok (some (r, len)) ∧
      mhMultihashHash (r.take len) = .ok 0x12 ∧ mhMultihashLength (r.take len) = .ok digest.length ∧
      ∃ d, mhMultihashDigest (r.take len) = .ok d ∧ d.bytes (r.take len) = .ok digest

section

variable {digest : List UInt8}

theorem length_multihash (digest : List UInt8) : (multihash digest).length = digest.length + 2 := rfl

theorem length_text_multihash (digest : List UInt8) :
    (base32Text (multihash digest)).length = 8 * ((digest.length + 2 + 4) / 5) := by
  rw [length_base32Text, length_multihash, Nat.mul_comm]

/-- The id of a digest that fits. -/
theorem libp2pNewPeerId_1024 (alloc : PidAlloc) (hd : digest.length ≤ 127) :
    libp2pNewPeerId alloc 1024 digest =
      .ok (if alloc.ok then some (MULTIBASE_BASE32 :: base32Text (multihash digest) ++ [0]) else none) := by
  apply libp2pNewPeerId_eq alloc hd
  rw [length_text_multihash]
  omega

theorem libp2pNewPeerId_too_long (alloc : PidAlloc) (n : Nat) (hd : 127 < digest.length) :
    libp2pNewPeerId alloc n digest = .ok none := by
  have hmh : mhNew (List.replicate n 0) MH_H_SHA2_256 digest = .ok (.error .digsetTooLong) := by
    unfold mhNew
    rw [if_neg (by decide), if_pos hd]
  unfold libp2pNewPeerId
  rw [hmh]
  rfl

theorem leadsBack_text (b64 : Base64) (hne : digest ≠ []) (hd : digest.length ≤ 127) :
    LeadsBack b64 (MULTIBASE_BASE32 :: base32Text (multihash digest) ++ [0]) digest := by
  intro results hroom
  refine ⟨overlay results (multihash digest), (multihash digest).length, ?_, ?_⟩
  · rw [List.dropLast_concat, multibaseDecode, if_neg (by decide), if_pos rfl,
      libp2pEncodingBase32Decode_base32Text (by rw [length_multihash]; exact hroom)]
  · obtain ⟨hhash, hlen, hdig⟩ := readers_multihash (show (0x12 : UInt8).toNat < 128 by decide) hne (by omega)
    rw [take_overlay]
    exact ⟨hhash, hlen, _, hdig, readBytes_length digest⟩

/-- Texts of different multihashes differ. -/
theorem base32Text_injective {bs bs' : List UInt8} (h : base32Text bs = base32Text bs') : bs = bs' := by
  have hg := (base32Text_encodes bs).groups
  rw [h] at hg
  exact hg.unique (base32Text_encodes bs').groups

end

/-- **Peer ids.** Every digest of 1 to 127 bytes gets an id, of the length that its text and NUL make, that leads back
to the digest; different digests get different ids; a longer digest gets none. -/
theorem peer_id_round_trip :
    (∀ digest : List UInt8, 1 ≤ digest.length → digest.length ≤ 127 →
      ∃ id, libp2pNewPeerId .success 1024 digest = .ok (some id) ∧
        id.length = 8 * ((digest.length + 2 + 4) / 5) + 2 ∧ id.getLast? = some 0 ∧ ∀ b64, LeadsBack b64 id digest) ∧
    (∀ digest digest' : List UInt8, 1 ≤ digest.length → digest.length ≤ 127 → 1 ≤ digest'.length →
      digest'.length ≤ 127 → digest ≠ digest' →
      libp2pNewPeerId .success 1024 digest ≠ libp2pNewPeerId .success 1024 digest') ∧
    ∀ (alloc : PidAlloc) (digest : List UInt8), 127 < digest.length → libp2pNewPeerId alloc 1024 digest = .ok none := by
  refine ⟨?_, ?_, ?_⟩
  · intro digest h1 h127
    have hne : digest ≠ [] := List.ne_nil_of_length_pos h1
    refine ⟨_, libp2pNewPeerId_1024 .success h127, ?_, List.getLast?_concat, fun b64 => leadsBack_text b64 hne h127⟩
    rw [List.length_append, List.length_cons, length_text_multihash]
    rfl
  · intro digest digest' _ h127 _ h127' hne heq
    rw [libp2pNewPeerId_1024 .success h127, libp2pNewPeerId_1024 .success h127'] at heq
    apply hne
    have hid := List.append_cancel_right (Option.some.inj (Except.ok.inj heq))
    have hmh := base32Text_injective (List.cons.inj hid).2
    exact (List.cons.inj (List.cons.inj hmh).2).2
  · intro alloc digest h
    exact libp2pNewPeerId_too_long alloc 1024 h

/-- A digest of one byte. -/
theorem peer_id_round_trip_one :
    ∃ id, libp2pNewPeerId .success 1024 [7] = .ok (some id) ∧ id.length = 10 ∧ id.getLast? = some 0 ∧
      ∀ b64, LeadsBack b64 id [7] :=
  peer_id_round_trip.1 [7] (by decide) (by decide)

end Libcp2p

import Libcp2p.Crypto.PeerId
import Mathlib.Data.List.Nodup

/-!
# The peerstore

The store keeps its peers in a dynamic array: `peersSize` slots, of which the first `numPeers` are filled. A lookup
compares each stored id, over its own length, with the id it is given; an insertion tests the capacity, looks the id up,
validates it against the key and then resizes the array and appends.

Every access of a slot is checked: one outside the array, or of a slot that was never filled, is a fault. What the
functions do on a store whose first slots hold the list `es` (`Holds`) is stated once for each of them:
`peerstoreHavePeer_eq`, `peerstoreGetPublicKey_eq`, `peerstoreValidatePeerId_eq_true`, `appendPeer_eq` and, where the
peers have the ids of their keys (`HoldsGenuine`), `insertPeer_eq`. Whatever the store and the allocations,
`appendPeer_outcome` says what an append that returns has done.
-/

namespace Libcp2p

/-! ## The code -/

/-- `peer_t`. -/
structure Peer where
  peerId : List UInt8
  publicKey : List UInt8
  deriving DecidableEq, Repr

/-- `peerstore_t`, without its lock. The array is the list of its slots, `none` for one without a peer; a null pointer
has no slots. -/
structure Peerstore where
  maxPeers : Nat
  numPeers : Nat
  peersSize : Nat
  peers : List (Option Peer)
  deriving DecidableEq, Repr

/-- `peerstore_new_peerstore`. -/
def peerstoreNewPeerstore (maxPeers : Nat) : Peerstore := ⟨maxPeers, 0, 2, [none, none]⟩

/-- Which allocations of `peerstore_insert_peer` succeed. -/
structure Alloc where
  pid : PidAlloc
  peers : Bool
  peerId : Bool
  publicKey : Bool
  deriving DecidableEq, Repr

/-- Every allocation succeeds. -/
def Alloc.success : Alloc := ⟨.success, true, true, true⟩

/-- The loop of `peerstore_have_peer` over `n` slots. -/
def havePeerLoop (peerId : List UInt8) : List (Option Peer) → Nat → Except Fault Bool
  | _, 0 => .ok false
  | some p :: slots, n + 1 => do
    if ← memcmpEq p.peerId peerId p.peerId.length then .ok true else havePeerLoop peerId slots n
  | _, _ + 1 => .error .outOfBounds

/-- `peerstore_have_peer`. -/
def peerstoreHavePeer (pst : Peerstore) (peerId : List UInt8) : Except Fault Bool :=
  havePeerLoop peerId pst.peers pst.numPeers

/-- `peerstore_validate_peer_id`. The comparison is over the length of the id it is given. -/
def peerstoreValidatePeerId (sha : Sha256) (alloc : PidAlloc) (peerId publicKey : List UInt8) : Except Fault Bool := do
  match ← libp2pNewPeerIdSha256 sha alloc 1024 publicKey with
  | none => .ok false
  | some pid => memcmpEq peerId pid peerId.length

/-- The size that `peerstore_resize_if_needed` asks for. -/
def newPeersSize (pst : Peerstore) : Nat :=
  let doubled := pst.peersSize * 2 % 2 ^ 64
  if pst.maxPeers < doubled then pst.maxPeers else doubled

/-- The store after a successful `realloc` of its array to `size` slots. -/
def reallocPeers (pst : Peerstore) (size : Nat) : Peerstore :=
  { pst with peers := pst.peers.take size ++ List.replicate (size - pst.peers.length) none, peersSize := size }

/-- `peerstore_resize_if_needed`. A failed `realloc` leaves a null pointer. The size in bytes,
`new_peers_size * sizeof(peer_t)`, is taken without overflow: the peers that fill half of so many slots do not fit in
memory. -/
def peerstoreResizeIfNeeded (realloc : Bool) (pst : Peerstore) : Bool × Peerstore :=
  if pst.numPeers = pst.peersSize then
    if realloc then (true, reallocPeers pst (newPeersSize pst)) else (false, { pst with peers := [] })
  else (true, pst)

/-- The store after `pst->peers[pst->num_peers] = pt; pst->num_peers += 1`. -/
def storePeer (pst : Peerstore) (p : Peer) : Peerstore :=
  { pst with peers := pst.peers.set pst.numPeers (some p), numPeers := pst.numPeers + 1 }

/-- The part of `peerstore_insert_peer` under the write lock: resize and append. -/
def appendPeer (alloc : Alloc) (pst : Peerstore) (peerId publicKey : List UInt8) : Except Fault (Bool × Peerstore) :=
  match peerstoreResizeIfNeeded alloc.peers pst with
  | (false, pst) => .ok (false, pst)
  | (true, pst) =>
    if !alloc.publicKey then .ok (false, pst)
    -- the source tests `peer_id` and not its new copy for NULL, and then copies the id there
    else if !alloc.peerId && !peerId.isEmpty then .error .outOfBounds
    else if pst.numPeers < pst.peers.length then .ok (true, storePeer pst ⟨peerId, publicKey⟩)
    else .error .outOfBounds

/-- `peerstore_insert_peer`. -/
def peerstoreInsertPeer (sha : Sha256) (alloc : Alloc) (pst : Peerstore) (peerId publicKey : List UInt8) :
    Except Fault (Bool × Peerstore) :=
  if pst.numPeers = pst.maxPeers then .ok (false, pst)
  else do
    if ← peerstoreHavePeer pst peerId then .ok (false, pst)
    else if ← peerstoreValidatePeerId sha alloc.pid peerId publicKey then appendPeer alloc pst peerId publicKey
    else .ok (false, pst)

/-- The loop of `peerstore_get_public_key` over `n` slots, which goes on after a match. -/
def getPublicKeyLoop (peerId : List UInt8) :
    List (Option Peer) → Nat → Bool → List UInt8 → Except Fault (Bool × List UInt8)
  | _, 0, ok, output => .ok (ok, output)
  | some p :: slots, n + 1, ok, output => do
    if ← memcmpEq p.peerId peerId p.peerId.length then
      if output.length < p.publicKey.length then .ok (ok, output)
      else getPublicKeyLoop peerId slots n true (overlay output p.publicKey)
    else getPublicKeyLoop peerId slots n ok output
  | _, _ + 1, _, _ => .error .outOfBounds

/-- `peerstore_get_public_key` into the object `output`: the result, and what the object holds afterwards. -/
def peerstoreGetPublicKey (pst : Peerstore) (peerId output : List UInt8) : Except Fault (Bool × List UInt8) :=
  getPublicKeyLoop peerId pst.peers pst.numPeers false output

/-! ## Stores and the lists they hold -/

/-- The first slots of the store hold the peers `es`, and the others none. -/
structure Holds (pst : Peerstore) (es : List Peer) : Prop where
  numPeers_eq : pst.numPeers = es.length
  length_le : es.length ≤ pst.peersSize
  peers_eq : pst.peers = es.map some ++ List.replicate (pst.peersSize - es.length) none

namespace Holds

variable {pst : Peerstore} {es : List Peer}

theorem length_peers (h : Holds pst es) : pst.peers.length = pst.peersSize := by
  rw [h.peers_eq]
  simpa using Nat.add_sub_cancel' h.length_le

end Holds

/-- The peers in the first `numPeers` slots. -/
def Peerstore.entries (pst : Peerstore) : List Peer := (pst.peers.take pst.numPeers).filterMap fun slot => slot

theorem Holds.entries_eq {pst : Peerstore} {es : List Peer} (h : Holds pst es) : pst.entries = es := by
  rw [Peerstore.entries, h.peers_eq, h.numPeers_eq, List.take_left' (List.length_map some), List.filterMap_map]
  exact List.filterMap_some

theorem holds_new (maxPeers : Nat) : Holds (peerstoreNewPeerstore maxPeers) [] := ⟨rfl, Nat.zero_le _, rfl⟩

/-- The peers' ids. -/
def ids (es : List Peer) : List (List UInt8) := es.map Peer.peerId

@[simp] theorem ids_append (es es' : List Peer) : ids (es ++ es') = ids es ++ ids es' := List.map_append

@[simp] theorem ids_singleton (p : Peer) : ids [p] = [p.peerId] := rfl

theorem mem_ids {id : List UInt8} {es : List Peer} : id ∈ ids es ↔ ∃ p ∈ es, p.peerId = id := List.mem_map

theorem nodup_ids_snoc {es : List Peer} {p : Peer} :
    (ids (es ++ [p])).Nodup ↔ (ids es).Nodup ∧ p.peerId ∉ ids es := by
  rw [ids_append, ids_singleton, List.nodup_append_comm, List.singleton_append, List.nodup_cons, and_comm]

/-! ## Lookups among ids of one length -/

section Lookup

variable {id : List UInt8} {es : List Peer}

theorem havePeerLoop_eq (hid : ∀ p ∈ es, p.peerId.length = id.length) (slots : List (Option Peer)) :
    havePeerLoop id (es.map some ++ slots) es.length = .ok (decide (id ∈ ids es)) := by
  induction es with
  | nil => cases slots <;> simp [havePeerLoop, ids]
  | cons p es ih =>
    have hp := hid p List.mem_cons_self
    simp only [List.map_cons, List.cons_append, List.length_cons, havePeerLoop, memcmpEq_of_length rfl hp.symm, ok_bind,
      ih fun q hq => hid q (List.mem_cons_of_mem _ hq)]
    by_cases h : p.peerId = id
    · simp [h, ids]
    · simp [h, Ne.symm h, ids]

/-- Among ids of the length looked for, the lookup is membership. -/
theorem peerstoreHavePeer_eq {pst : Peerstore} (h : Holds pst es) (hid : ∀ p ∈ es, p.peerId.length = id.length) :
    peerstoreHavePeer pst id = .ok (decide (id ∈ ids es)) := by
  rw [peerstoreHavePeer, h.peers_eq, h.numPeers_eq, havePeerLoop_eq hid]

/-- Slots without a match are passed over. -/
theorem getPublicKeyLoop_skip (hid : ∀ p ∈ es, p.peerId.length = id.length) (habs : id ∉ ids es)
    (slots : List (Option Peer)) (n : Nat) (ok : Bool) (output : List UInt8) :
    getPublicKeyLoop id (es.map some ++ slots) (es.length + n) ok output = getPublicKeyLoop id slots n ok output := by
  induction es with
  | nil => simp
  | cons p es ih =>
    have hp := hid p List.mem_cons_self
    simp only [ids, List.map_cons, List.mem_cons, not_or] at habs
    rw [List.length_cons, Nat.add_right_comm]
    simp only [List.map_cons, List.cons_append, getPublicKeyLoop, memcmpEq_of_length rfl hp.symm, ok_bind,
      Ne.symm habs.1, decide_false, Bool.false_eq_true, if_false]
    exact ih (fun q hq => hid q (List.mem_cons_of_mem _ hq)) habs.2

theorem peerstoreGetPublicKey_absent {pst : Peerstore} (h : Holds pst es)
    (hid : ∀ q ∈ es, q.peerId.length = id.length) (habs : id ∉ ids es) (output : List UInt8) :
    peerstoreGetPublicKey pst id output = .ok (false, output) := by
  have := getPublicKeyLoop_skip hid habs (List.replicate (pst.peersSize - es.length) none) 0 false output
  rw [peerstoreGetPublicKey, h.peers_eq, h.numPeers_eq]
  simpa [getPublicKeyLoop] using this

/-- Among ids of the length looked for, the key of the one match is copied if it fits. -/
theorem peerstoreGetPublicKey_eq {pst : Peerstore} {p : Peer} {es' : List Peer} (h : Holds pst (es ++ p :: es'))
    (hid : ∀ q ∈ es ++ p :: es', q.peerId.length = p.peerId.length) (hes : p.peerId ∉ ids es)
    (hes' : p.peerId ∉ ids es') (output : List UInt8) :
    peerstoreGetPublicKey pst p.peerId output =
      .ok (if p.publicKey.length ≤ output.length then (true, overlay output p.publicKey) else (false, output)) := by
  have hid₁ : ∀ q ∈ es, q.peerId.length = p.peerId.length := fun q hq => hid q (List.mem_append_left _ hq)
  have hid₂ : ∀ q ∈ es', q.peerId.length = p.peerId.length := fun q hq =>
    hid q (List.mem_append_right _ (List.mem_cons_of_mem _ hq))
  have hrest : ∀ slots out, getPublicKeyLoop p.peerId (es'.map some ++ slots) es'.length true out = .ok (true, out) :=
    fun slots out => by simpa [getPublicKeyLoop] using getPublicKeyLoop_skip hid₂ hes' slots 0 true out
  rw [peerstoreGetPublicKey, h.peers_eq, h.numPeers_eq, List.map_append, List.append_assoc, List.length_append,
    getPublicKeyLoop_skip hid₁ hes]
  simp only [List.map_cons, List.cons_append, List.length_cons, getPublicKeyLoop, memcmpEq_of_length rfl rfl, ok_bind,
    decide_true, if_true, hrest]
  by_cases hl : p.publicKey.length ≤ output.length
  · rw [if_neg (Nat.not_lt.mpr hl), if_pos hl]
  · rw [if_pos (Nat.lt_of_not_le hl), if_neg hl]

end Lookup

/-! ## Insertion -/

/-- **Validation** accepts the id of the key and every shorter beginning of it. -/
theorem peerstoreValidatePeerId_eq_true {sha : Sha256} {alloc : PidAlloc} {id key : List UInt8} :
    peerstoreValidatePeerId sha alloc id key = .ok true ↔ alloc.ok = true ∧ id <+: PID sha key := by
  unfold peerstoreValidatePeerId
  rw [libp2pNewPeerIdSha256_eq, ok_bind]
  cases alloc.ok with
  | false => simp
  | true => simpa using memcmpEq_prefix_iff

/-- A call that returns appends, after its three checks, or leaves the store as it is. -/
theorem peerstoreInsertPeer_cases {sha : Sha256} {alloc : Alloc} {pst pst' : Peerstore} {id key : List UInt8}
    {ok : Bool} (h : peerstoreInsertPeer sha alloc pst id key = .ok (ok, pst')) :
    (pst.numPeers ≠ pst.maxPeers ∧ peerstoreHavePeer pst id = .ok false ∧
      peerstoreValidatePeerId sha alloc.pid id key = .ok true ∧ appendPeer alloc pst id key = .ok (ok, pst')) ∨
    (ok = false ∧ pst' = pst ∧ (pst.numPeers = pst.maxPeers ∨ peerstoreHavePeer pst id = .ok true ∨
      peerstoreValidatePeerId sha alloc.pid id key = .ok false)) := by
  unfold peerstoreInsertPeer at h
  split_ifs at h with hmax
  · obtain ⟨rfl, rfl⟩ := Prod.mk.inj (Except.ok.inj h)
    exact .inr ⟨rfl, rfl, .inl hmax⟩
  · obtain ⟨have_, hhave, h⟩ := bind_eq_ok.mp h
    cases have_ with
    | true =>
      obtain ⟨rfl, rfl⟩ := Prod.mk.inj (Except.ok.inj h)
      exact .inr ⟨rfl, rfl, .inr (.inl hhave)⟩
    | false =>
      obtain ⟨valid, hvalid, h⟩ := bind_eq_ok.mp h
      cases valid with
      | true => exact .inl ⟨hmax, hhave, hvalid, h⟩
      | false =>
        obtain ⟨rfl, rfl⟩ := Prod.mk.inj (Except.ok.inj h)
        exact .inr ⟨rfl, rfl, .inr (.inr hvalid)⟩

section Append

variable {pst : Peerstore} {es : List Peer}

/-- A full array with room below the limit grows, unless twice its size overflows. -/
theorem lt_newPeersSize (hroom : pst.peersSize < pst.maxPeers) (hpos : 0 < pst.peersSize)
    (hwrap : pst.peersSize * 2 < 2 ^ 64) : pst.peersSize < newPeersSize pst := by
  unfold newPeersSize
  rw [Nat.mod_eq_of_lt hwrap]
  dsimp only
  split <;> omega

theorem newPeersSize_le (pst : Peerstore) : newPeersSize pst ≤ pst.maxPeers := by
  unfold newPeersSize
  dsimp only
  split <;> omega

theorem newPeersSize_lt (pst : Peerstore) : newPeersSize pst < 2 ^ 64 := by
  have := Nat.mod_lt (pst.peersSize * 2) (by decide : 0 < 2 ^ 64)
  unfold newPeersSize
  dsimp only
  split <;> omega

theorem length_reallocPeers (pst : Peerstore) (size : Nat) : (reallocPeers pst size).peers.length = size := by
  simp only [reallocPeers, List.length_append, List.length_take, List.length_replicate]
  omega

theorem holds_reallocPeers {size : Nat} (h : Holds pst es) (hfull : es.length = pst.peersSize)
    (hsize : es.length ≤ size) : Holds (reallocPeers pst size) es where
  numPeers_eq := h.numPeers_eq
  length_le := hsize
  peers_eq := by
    have hp : pst.peers = es.map some := by rw [h.peers_eq, hfull]; simp
    simp only [reallocPeers, hp, List.length_map]
    rw [List.take_of_length_le (by simpa using hsize)]

theorem holds_storePeer (h : Holds pst es) (hlt : es.length < pst.peersSize) (p : Peer) :
    Holds (storePeer pst p) (es ++ [p]) where
  numPeers_eq := by simp [storePeer, h.numPeers_eq]
  length_le := by simp only [storePeer, List.length_append, List.length_singleton]; omega
  peers_eq := by
    obtain ⟨k, hk⟩ : ∃ k, pst.peersSize - es.length = k + 1 := ⟨pst.peersSize - es.length - 1, by omega⟩
    have hk' : pst.peersSize - (es.length + 1) = k := by omega
    have hset : pst.peers.set pst.numPeers (some p) = es.map some ++ some p :: List.replicate k none := by
      rw [h.peers_eq, h.numPeers_eq, hk, List.replicate_succ, List.set_append_right _ _ (by simp)]
      simp
    simp [storePeer, hset, hk']

/-- With a free slot the peer goes there. -/
theorem appendPeer_of_lt (h : Holds pst es) (hlt : es.length < pst.peersSize) (id key : List UInt8) :
    appendPeer .success pst id key = .ok (true, storePeer pst ⟨id, key⟩) := by
  have hn : pst.numPeers < pst.peersSize := h.numPeers_eq ▸ hlt
  simp [appendPeer, peerstoreResizeIfNeeded, Nat.ne_of_lt hn, Alloc.success, h.length_peers, hn]

/-- A full array is reallocated first. -/
theorem appendPeer_of_full (h : Holds pst es) (hfull : es.length = pst.peersSize) (hlt : es.length < newPeersSize pst)
    (id key : List UInt8) :
    appendPeer .success pst id key = .ok (true, storePeer (reallocPeers pst (newPeersSize pst)) ⟨id, key⟩) := by
  have hn : pst.numPeers = pst.peersSize := h.numPeers_eq.trans hfull
  have hlt' : (reallocPeers pst (newPeersSize pst)).numPeers < (reallocPeers pst (newPeersSize pst)).peers.length := by
    rw [length_reallocPeers]
    exact h.numPeers_eq ▸ hlt
  simp [appendPeer, peerstoreResizeIfNeeded, hn, Alloc.success, hlt']

/-- **Append.** Below the limit, and unless twice the size of a full array overflows, the peer is added. -/
theorem appendPeer_eq (h : Holds pst es) (hroom : es.length < pst.maxPeers) (hpos : 0 < pst.peersSize)
    (hwrap : pst.peersSize < 2 ^ 63) (id key : List UInt8) :
    ∃ pst', appendPeer .success pst id key = .ok (true, pst') ∧ Holds pst' (es ++ [⟨id, key⟩]) ∧
      pst'.maxPeers = pst.maxPeers ∧ pst'.peersSize ≤ max pst.peersSize pst.maxPeers := by
  rcases Nat.lt_or_eq_of_le h.length_le with hlt | hfull
  · exact ⟨_, appendPeer_of_lt h hlt id key, holds_storePeer h hlt _, rfl, Nat.le_max_left _ _⟩
  · have hgrow : es.length < newPeersSize pst := hfull ▸ lt_newPeersSize (hfull ▸ hroom) hpos (by omega)
    refine ⟨_, appendPeer_of_full h hfull hgrow id key, ?_, rfl, ?_⟩
    · exact holds_storePeer (holds_reallocPeers h hfull (Nat.le_of_lt hgrow)) hgrow _
    · exact Nat.le_trans (newPeersSize_le pst) (Nat.le_max_right _ _)

/-- What an append that returns has done: the array is lost, it has grown for nothing, nothing has happened, or the
peer is stored in the array as it was or as it has grown. -/
inductive AppendOutcome (alloc : Alloc) (pst : Peerstore) (id key : List UInt8) : Bool → Peerstore → Prop
  | lost (hfull : pst.numPeers = pst.peersSize) (ha : alloc.peers = false) :
    AppendOutcome alloc pst id key false { pst with peers := [] }
  | grown (hfull : pst.numPeers = pst.peersSize) (ha : alloc.peers = true) (hk : alloc.publicKey = false) :
    AppendOutcome alloc pst id key false (reallocPeers pst (newPeersSize pst))
  | refused (hroom : pst.numPeers ≠ pst.peersSize) (hk : alloc.publicKey = false) :
    AppendOutcome alloc pst id key false pst
  | stored (hroom : pst.numPeers ≠ pst.peersSize) (hk : alloc.publicKey = true)
    (hlt : pst.numPeers < pst.peers.length) : AppendOutcome alloc pst id key true (storePeer pst ⟨id, key⟩)
  | storedGrown (hfull : pst.numPeers = pst.peersSize) (ha : alloc.peers = true) (hk : alloc.publicKey = true)
    (hlt : pst.numPeers < (reallocPeers pst (newPeersSize pst)).peers.length) :
    AppendOutcome alloc pst id key true (storePeer (reallocPeers pst (newPeersSize pst)) ⟨id, key⟩)

/-- After the resize the key may have no memory; otherwise the peer is stored. -/
theorem appendPeer_of_resized {alloc : Alloc} {resized pst' : Peerstore} {id key : List UInt8} {ok : Bool}
    (hr : peerstoreResizeIfNeeded alloc.peers pst = (true, resized))
    (h : appendPeer alloc pst id key = .ok (ok, pst')) :
    (alloc.publicKey = false ∧ ok = false ∧ pst' = resized) ∨
      (alloc.publicKey = true ∧ ok = true ∧ pst' = storePeer resized ⟨id, key⟩ ∧
        resized.numPeers < resized.peers.length) := by
  unfold appendPeer at h
  rw [hr] at h
  dsimp only at h
  split_ifs at h with hkey hid hlt
  · cases h
    exact .inl ⟨by simpa using hkey, rfl, rfl⟩
  · cases h
    exact .inr ⟨by simpa using hkey, rfl, rfl, hlt⟩

theorem appendPeer_outcome {alloc : Alloc} {pst' : Peerstore} {id key : List UInt8} {ok : Bool}
    (h : appendPeer alloc pst id key = .ok (ok, pst')) : AppendOutcome alloc pst id key ok pst' := by
  by_cases hfull : pst.numPeers = pst.peersSize
  · cases ha : alloc.peers with
    | false =>
      simp only [appendPeer, peerstoreResizeIfNeeded, if_pos hfull, ha, Bool.false_eq_true, if_false] at h
      cases h
      exact .lost hfull ha
    | true =>
      have hr : peerstoreResizeIfNeeded alloc.peers pst = (true, reallocPeers pst (newPeersSize pst)) := by
        simp [peerstoreResizeIfNeeded, hfull, ha]
      rcases appendPeer_of_resized hr h with ⟨hk, rfl, rfl⟩ | ⟨hk, rfl, rfl, hlt⟩
      · exact .grown hfull ha hk
      · exact .storedGrown hfull ha hk hlt
  · have hr : peerstoreResizeIfNeeded alloc.peers pst = (true, pst) := by simp [peerstoreResizeIfNeeded, hfull]
    rcases appendPeer_of_resized hr h with ⟨hk, rfl, rfl⟩ | ⟨hk, rfl, rfl, hlt⟩
    · exact .refused hfull hk
    · exact .stored hfull hk hlt

/-- An append that returns true has added the peer, in a slot of the array. -/
theorem AppendOutcome.holds {alloc : Alloc} {pst' : Peerstore} {id key : List UInt8} (h : Holds pst es)
    (happ : AppendOutcome alloc pst id key true pst') :
    Holds pst' (es ++ [⟨id, key⟩]) ∧ pst'.maxPeers = pst.maxPeers ∧
      (es.length = pst.peersSize → es.length < newPeersSize pst) ∧
      (pst.peersSize < 2 ^ 64 → pst'.peersSize < 2 ^ 64) := by
  cases happ with
  | stored hroom hk hlt =>
    rw [h.numPeers_eq] at hroom
    have hlt : es.length < pst.peersSize := Nat.lt_of_le_of_ne h.length_le hroom
    exact ⟨holds_storePeer h hlt _, rfl, fun he => absurd he hroom, fun hmax => hmax⟩
  | storedGrown hfull ha hk hlt =>
    rw [length_reallocPeers, h.numPeers_eq] at hlt
    rw [h.numPeers_eq] at hfull
    have hholds := holds_storePeer (holds_reallocPeers h hfull (Nat.le_of_lt hlt)) hlt ⟨id, key⟩
    exact ⟨hholds, rfl, fun _ => hlt, fun _ => newPeersSize_lt pst⟩

/-- With memory for everything the peer is always added. -/
theorem holds_of_appendPeer {pst' : Peerstore} {id key : List UInt8} {ok : Bool} (h : Holds pst es)
    (happ : appendPeer .success pst id key = .ok (ok, pst')) :
    ok = true ∧ Holds pst' (es ++ [⟨id, key⟩]) ∧ pst'.maxPeers = pst.maxPeers ∧
      (es.length = pst.peersSize → es.length < newPeersSize pst) := by
  have hout := appendPeer_outcome happ
  cases ok with
  | true =>
    obtain ⟨hholds, hmax, hgrow, -⟩ := hout.holds h
    exact ⟨rfl, hholds, hmax, hgrow⟩
  | false =>
    cases hout with
    | lost hfull ha => cases ha
    | grown hfull ha hk => cases hk
    | refused hroom hk => cases hk

end Append

/-! ## Stores of genuine peers -/

/-- The store holds the peers `es`, each under the id of its key. -/
structure HoldsGenuine (sha : Sha256) (pst : Peerstore) (es : List Peer) : Prop extends Holds pst es where
  genuine : ∀ p ∈ es, p.peerId = PID sha p.publicKey
  size_pos : 0 < pst.peersSize

theorem holdsGenuine_new (sha : Sha256) (maxPeers : Nat) : HoldsGenuine sha (peerstoreNewPeerstore maxPeers) [] :=
  ⟨holds_new maxPeers, by simp, Nat.zero_lt_two⟩

namespace HoldsGenuine

variable {sha : Sha256} {pst pst' : Peerstore} {es : List Peer} {key : List UInt8}

theorem length_peerId (h : HoldsGenuine sha pst es) {id : List UInt8} (hid : id.length = 58) :
    ∀ p ∈ es, p.peerId.length = id.length := by
  intro p hp
  rw [h.genuine p hp, length_PID, hid]

theorem havePeer_eq (h : HoldsGenuine sha pst es) (key : List UInt8) :
    peerstoreHavePeer pst (PID sha key) = .ok (decide (PID sha key ∈ ids es)) :=
  peerstoreHavePeer_eq h.toHolds (h.length_peerId (length_PID sha key))

/-- A store that holds one more peer, under its id, holds genuine peers. -/
theorem snoc (h : HoldsGenuine sha pst es) (h' : Holds pst' (es ++ [⟨PID sha key, key⟩])) :
    HoldsGenuine sha pst' (es ++ [⟨PID sha key, key⟩]) where
  toHolds := h'
  genuine := by
    intro p hp
    rcases List.mem_append.mp hp with hp | hp
    · exact h.genuine p hp
    · rw [List.mem_singleton.mp hp]
  size_pos := Nat.lt_of_lt_of_le (by simp) h'.length_le

/-- **Insertion** of a key under its id: refused at the limit and for a known id, and otherwise the append. -/
theorem insertPeer_eq (h : HoldsGenuine sha pst es) (key : List UInt8) :
    peerstoreInsertPeer sha .success pst (PID sha key) key =
      if es.length = pst.maxPeers ∨ PID sha key ∈ ids es then .ok (false, pst)
      else appendPeer .success pst (PID sha key) key := by
  have hval : peerstoreValidatePeerId sha Alloc.success.pid (PID sha key) key = .ok true :=
    peerstoreValidatePeerId_eq_true.mpr ⟨rfl, List.prefix_rfl⟩
  unfold peerstoreInsertPeer
  rw [h.numPeers_eq, h.havePeer_eq, hval]
  by_cases hmax : es.length = pst.maxPeers
  · simp [hmax]
  · by_cases hmem : PID sha key ∈ ids es <;> simp [hmax, hmem]

end HoldsGenuine

end Libcp2p

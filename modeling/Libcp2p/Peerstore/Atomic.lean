import Libcp2p.Peerstore.Authentic

/-!
# Insertions that fail

`peerstore_insert_peer` resizes the array before it allocates the copies of the id and of the key. A `realloc` that
fails has already replaced the pointer to the array, and a key without memory leaves the array at its new size; a
missing copy of the id is not noticed at all.

* `insertPeer_peerId_fault`: an append that does not return.
* `Reached`: what is known of every store that calls can reach; `reached_insertStep` is one call, `reached_run` a whole
  run.
* `insert_atomic_iff`: from every such store, a call leaves the store as it was or adds the whole peer exactly when, on
  a full array, the array and the key get their memory.
-/

namespace Libcp2p

/-! ## What a call should do -/

/-- The two stores cannot be told apart by their sizes, entries and lookups. -/
structure SameStore (pst pst' : Peerstore) : Prop where
  numPeers : pst'.numPeers = pst.numPeers
  peersSize : pst'.peersSize = pst.peersSize
  entries : pst'.entries = pst.entries
  havePeer : ∀ id, peerstoreHavePeer pst' id = peerstoreHavePeer pst id
  getPublicKey : ∀ id output, peerstoreGetPublicKey pst' id output = peerstoreGetPublicKey pst id output

theorem SameStore.rfl {pst : Peerstore} : SameStore pst pst :=
  ⟨Eq.refl _, Eq.refl _, Eq.refl _, fun _ => Eq.refl _, fun _ _ => Eq.refl _⟩

/-- A call that returns true has added the whole peer, one that returns false has changed nothing. -/
def InsertAtomic (sha : Sha256) (pst : Peerstore) (c : InsertCall) : Prop :=
  ∀ ok pst', peerstoreInsertPeer sha c.alloc pst c.peerId c.publicKey = .ok (ok, pst') →
    if ok then pst'.numPeers = pst.numPeers + 1 ∧ pst'.entries = pst.entries ++ [⟨c.peerId, c.publicKey⟩]
    else SameStore pst pst'

/-- The call comes to the append: there is room below the limit, the id is not found, and it is valid for the key. -/
structure InsertCall.Appends (sha : Sha256) (pst : Peerstore) (c : InsertCall) : Prop where
  room : pst.numPeers ≠ pst.maxPeers
  absent : peerstoreHavePeer pst c.peerId = .ok false
  pid : c.alloc.pid.ok = true
  valid : c.peerId <+: PID sha c.publicKey

/-! ## Stores that calls reach -/

/-- A lookup that finds nothing has gone through all slots that should be filled. -/
theorem havePeerLoop_false_le {id : List UInt8} {slots : List (Option Peer)} {n : Nat}
    (h : havePeerLoop id slots n = .ok false) : n ≤ slots.length := by
  induction n generalizing slots with
  | zero => exact Nat.zero_le _
  | succ n ih =>
    cases slots with
    | nil => cases h
    | cons slot slots =>
      cases slot with
      | none => cases h
      | some p =>
        obtain ⟨same, -, h⟩ := bind_eq_ok.mp h
        cases same with
        | true => cases h
        | false => exact Nat.succ_le_succ (ih h)

/-- What is known of a store after any calls: its first slots hold its peers, or the array has lost slots that count as
filled. -/
inductive Reached (pst : Peerstore) : Prop
  | holds {es : List Peer} (h : Holds pst es) (hpos : 0 < pst.peersSize) (hmax : pst.peersSize < 2 ^ 64) : Reached pst
  | lost (h : pst.peers.length < pst.numPeers) : Reached pst

section Calls

variable {sha : Sha256} {pst pst' : Peerstore} {c : InsertCall} {id key : List UInt8} {es : List Peer} {ok : Bool}

/-- The new size of a full array below the limit is another one. -/
theorem newPeersSize_ne (hroom : pst.peersSize ≠ pst.maxPeers) (hpos : 0 < pst.peersSize)
    (hmax : pst.peersSize < 2 ^ 64) :
    newPeersSize pst ≠ pst.peersSize := by
  unfold newPeersSize
  dsimp only
  split
  · exact hroom.symm
  · omega

/-- An array that grows for nothing still holds the peers, or it has lost slots. -/
theorem reached_reallocPeers (h : Holds pst es) (hfull : pst.numPeers = pst.peersSize) (hpos : 0 < pst.peersSize) :
    Reached (reallocPeers pst (newPeersSize pst)) := by
  have hlen : es.length = pst.peersSize := h.numPeers_eq.symm.trans hfull
  rcases Nat.lt_or_ge (newPeersSize pst) es.length with hlt | hge
  · refine .lost ?_
    rw [length_reallocPeers]
    exact h.numPeers_eq ▸ hlt
  · exact .holds (holds_reallocPeers h hlen hge) (Nat.lt_of_lt_of_le (hlen ▸ hpos) hge) (newPeersSize_lt pst)

/-- The append comes only from a store whose slots hold its peers. -/
theorem Reached.holds_of_absent (h : Reached pst) (habsent : peerstoreHavePeer pst id = .ok false) :
    ∃ es, Holds pst es ∧ 0 < pst.peersSize ∧ pst.peersSize < 2 ^ 64 := by
  cases h with
  | holds h hpos hmax => exact ⟨_, h, hpos, hmax⟩
  | lost h => exact absurd (havePeerLoop_false_le habsent) (Nat.not_le.mpr h)

theorem reached_added {alloc : Alloc} (h : Holds pst es) (hmax : pst.peersSize < 2 ^ 64)
    (happ : AppendOutcome alloc pst id key true pst') : Reached pst' := by
  obtain ⟨hholds, -, -, hsize⟩ := happ.holds h
  refine .holds hholds ?_ (hsize hmax)
  have hle := hholds.length_le
  rw [List.length_append, List.length_singleton] at hle
  omega

/-- The append of a peer leads to such a store again. -/
theorem reached_append {alloc : Alloc} (h : Holds pst es) (hpos : 0 < pst.peersSize) (hmax : pst.peersSize < 2 ^ 64)
    (happ : AppendOutcome alloc pst id key ok pst') : Reached pst' := by
  cases happ with
  | lost hfull ha => exact .lost (show 0 < pst.numPeers by omega)
  | grown hfull ha hk => exact reached_reallocPeers h hfull hpos
  | refused hroom hk => exact .holds h hpos hmax
  | stored hroom hk hlt => exact reached_added h hmax (.stored hroom hk hlt)
  | storedGrown hfull ha hk hlt => exact reached_added h hmax (.storedGrown hfull ha hk hlt)

/-- **One call** from a store that calls reach leads to such a store. -/
theorem reached_insertStep (h : Reached pst) (hstep : insertStep sha pst c = some pst') : Reached pst' := by
  obtain ⟨ok, hins⟩ := insertStep_eq_some hstep
  rcases peerstoreInsertPeer_cases hins with ⟨-, habsent, -, happ⟩ | ⟨-, rfl, -⟩
  · obtain ⟨es, hholds, hpos, hmax⟩ := h.holds_of_absent habsent
    exact reached_append hholds hpos hmax (appendPeer_outcome happ)
  · exact h

theorem reached_new (maxPeers : Nat) : Reached (peerstoreNewPeerstore maxPeers) :=
  .holds (holds_new maxPeers) (show 0 < 2 by decide) (show 2 < 2 ^ 64 by decide)

/-- **Whole runs**, whatever the arguments and allocations of their calls. -/
theorem reached_run {maxPeers : Nat} {calls : List InsertCall}
    (hrun : run (insertStep sha) (peerstoreNewPeerstore maxPeers) calls = some pst) : Reached pst :=
  (always_of_step (fun _ _ _ => reached_insertStep) (reached_new maxPeers) calls).last hrun

/-! ## Calls that fail -/

/-- A call that comes to the append is the append. -/
theorem InsertCall.Appends.insertPeer_eq (h : c.Appends sha pst) :
    peerstoreInsertPeer sha c.alloc pst c.peerId c.publicKey = appendPeer c.alloc pst c.peerId c.publicKey := by
  have hvalid := peerstoreValidatePeerId_eq_true.mpr ⟨h.pid, h.valid⟩
  simp [peerstoreInsertPeer, h.room, h.absent, hvalid]

/-- Losing the array of a full store is noticed. -/
theorem not_sameStore_lost (h : Holds pst es) (hfull : pst.numPeers = pst.peersSize) (hpos : 0 < pst.peersSize) :
    ¬SameStore pst { pst with peers := [] } := by
  intro hsame
  have hnil : es = [] := by
    rw [← h.entries_eq, ← hsame.entries]
    simp [Peerstore.entries]
  rw [← hfull, h.numPeers_eq, hnil] at hpos
  exact Nat.lt_irrefl 0 hpos

/-- A call that comes to the append and finds the array full needs memory for the array and for the key. -/
theorem allocs_of_insertAtomic (h : Holds pst es) (hpos : 0 < pst.peersSize) (hmax : pst.peersSize < 2 ^ 64)
    (hatomic : InsertAtomic sha pst c) (happends : c.Appends sha pst) (hfull : pst.numPeers = pst.peersSize) :
    c.alloc.peers = true ∧ c.alloc.publicKey = true := by
  have hatomic' (pst' : Peerstore) (happ : appendPeer c.alloc pst c.peerId c.publicKey = .ok (false, pst')) :
      SameStore pst pst' :=
    hatomic false pst' (happends.insertPeer_eq.trans happ)
  cases ha : c.alloc.peers with
  | false =>
    have happ : appendPeer c.alloc pst c.peerId c.publicKey = .ok (false, { pst with peers := [] }) := by
      simp [appendPeer, peerstoreResizeIfNeeded, hfull, ha]
    exact absurd (hatomic' _ happ) (not_sameStore_lost h hfull hpos)
  | true =>
    cases hk : c.alloc.publicKey with
    | true => exact ⟨rfl, rfl⟩
    | false =>
      have happ : appendPeer c.alloc pst c.peerId c.publicKey = .ok (false, reallocPeers pst (newPeersSize pst)) := by
        simp [appendPeer, peerstoreResizeIfNeeded, hfull, ha, hk]
      exact absurd (hatomic' _ happ).peersSize (newPeersSize_ne (hfull ▸ happends.room) hpos hmax)

/-- A missing copy of the id is written to. -/
theorem insertPeer_peerId_fault (happends : c.Appends sha pst)
    (ha : pst.numPeers = pst.peersSize → c.alloc.peers = true)
    (hk : c.alloc.publicKey = true) (hi : c.alloc.peerId = false) (hid : c.peerId ≠ []) :
    peerstoreInsertPeer sha c.alloc pst c.peerId c.publicKey = .error .outOfBounds := by
  rw [happends.insertPeer_eq]
  by_cases hfull : pst.numPeers = pst.peersSize
  · simp [appendPeer, peerstoreResizeIfNeeded, hfull, ha hfull, hk, hi, hid]
  · simp [appendPeer, peerstoreResizeIfNeeded, hfull, hk, hi, hid]

/-- An append that the allocations do not stop halfway is atomic. -/
theorem insertAtomic_of_allocs (hreached : Reached pst)
    (hallocs : c.Appends sha pst → pst.numPeers = pst.peersSize → c.alloc.peers = true ∧ c.alloc.publicKey = true) :
    InsertAtomic sha pst c := by
  intro ok pst' hins
  rcases peerstoreInsertPeer_cases hins with ⟨hroom, habsent, hvalid, happ⟩ | ⟨rfl, rfl, -⟩
  · obtain ⟨hpid, hpre⟩ := peerstoreValidatePeerId_eq_true.mp hvalid
    have hallocs := hallocs ⟨hroom, habsent, hpid, hpre⟩
    obtain ⟨es, hholds, -, -⟩ := hreached.holds_of_absent habsent
    have hout := appendPeer_outcome happ
    cases ok with
    | true =>
      obtain ⟨hholds', -⟩ := hout.holds hholds
      have hn := hholds'.numPeers_eq
      rw [List.length_append, ← hholds.numPeers_eq] at hn
      exact ⟨hn, by rw [hholds'.entries_eq, hholds.entries_eq]⟩
    | false =>
      cases hout with
      | lost hfull ha => cases (hallocs hfull).1.symm.trans ha
      | grown hfull ha hk => cases (hallocs hfull).2.symm.trans hk
      | refused hroom hk => exact SameStore.rfl
  · exact SameStore.rfl

end Calls

/-- **Atomic insertions.** From every store that calls reach, a call that returns has added the whole peer or changed
nothing exactly when it does not come to the append, or finds a free slot, or has memory for the array and for the
key. -/
theorem insert_atomic_iff (sha : Sha256) (maxPeers : Nat) (calls : List InsertCall) (pst : Peerstore)
    (hrun : run (insertStep sha) (peerstoreNewPeerstore maxPeers) calls = some pst) (c : InsertCall) :
    InsertAtomic sha pst c ↔
      (c.Appends sha pst → pst.numPeers = pst.peersSize → c.alloc.peers = true ∧ c.alloc.publicKey = true) := by
  constructor
  · intro hatomic happends hfull
    obtain ⟨es, hholds, hpos, hmax⟩ := (reached_run hrun).holds_of_absent happends.absent
    exact allocs_of_insertAtomic hholds hpos hmax hatomic happends hfull
  · exact insertAtomic_of_allocs (reached_run hrun)

/-- The entry of the key of one byte. -/
def firstBytePeer (b : UInt8) : Peer := ⟨PID firstByteSha [b], [b]⟩

/-- The call that inserts the key of one byte under its id. -/
def firstByteCall (alloc : Alloc) (b : UInt8) : InsertCall := ⟨alloc, PID firstByteSha [b], [b]⟩

/-- After two peers the array of a store for three is full, and the allocations decide. -/
theorem insert_atomic_iff_full :
    let pst : Peerstore := ⟨3, 2, 2, [some (firstBytePeer 1), some (firstBytePeer 2)]⟩
    run (insertStep firstByteSha) (peerstoreNewPeerstore 3) [firstByteCall .success 1, firstByteCall .success 2] =
        some pst ∧
      InsertAtomic firstByteSha pst (firstByteCall .success 3) ∧
      ¬InsertAtomic firstByteSha pst (firstByteCall { Alloc.success with publicKey := false } 3) := by
  intro pst
  have hrun : run (insertStep firstByteSha) (peerstoreNewPeerstore 3)
      [firstByteCall .success 1, firstByteCall .success 2] = some pst := by decide +kernel
  refine ⟨hrun, ?_, ?_⟩
  · exact (insert_atomic_iff firstByteSha 3 _ pst hrun _).mpr fun _ _ => ⟨rfl, rfl⟩
  · intro hatomic
    have happends : (firstByteCall { Alloc.success with publicKey := false } 3).Appends firstByteSha pst :=
      ⟨by decide, by decide +kernel, rfl, by dsimp only [firstByteCall]; exact List.prefix_rfl⟩
    exact absurd ((insert_atomic_iff firstByteSha 3 _ pst hrun _).mp hatomic happends rfl).2 (by decide)

/-- **Failures that are not atomic.** After two peers the array of a store for three is full. A third call without
memory for the array returns false, and the two peers are lost: the next lookup goes through a null pointer. Without
memory for the key it returns false and leaves an array of three slots. -/
theorem insert_not_atomic :
    let peers := [some (firstBytePeer 1), some (firstBytePeer 2)]
    let noArray := firstByteCall { Alloc.success with peers := false } 3
    let noKey := firstByteCall { Alloc.success with publicKey := false } 3
    run (insertStep firstByteSha) (peerstoreNewPeerstore 3) [firstByteCall .success 1, firstByteCall .success 2] =
        some ⟨3, 2, 2, peers⟩ ∧
      peerstoreInsertPeer firstByteSha noArray.alloc ⟨3, 2, 2, peers⟩ noArray.peerId noArray.publicKey =
        .ok (false, ⟨3, 2, 2, []⟩) ∧
      peerstoreHavePeer ⟨3, 2, 2, peers⟩ (firstBytePeer 1).peerId = .ok true ∧
      peerstoreHavePeer ⟨3, 2, 2, []⟩ (firstBytePeer 1).peerId = .error .outOfBounds ∧
      peerstoreInsertPeer firstByteSha noKey.alloc ⟨3, 2, 2, peers⟩ noKey.peerId noKey.publicKey =
        .ok (false, ⟨3, 2, 3, peers ++ [none]⟩) := by
  decide +kernel

end Libcp2p

import Libcp2p.Lib.BoundedMap
import Libcp2p.Lib.Runs
import Libcp2p.Peerstore.Store

/-!
# The peerstore is a bounded finite map

On full-length ids the store implements the map from ids to keys with at most `maxPeers` entries. `Represents` relates a
store to the map whose entries it holds; every call keeps the relation and answers as the map does (`exec_simulates`),
so every run of calls does (`peerstore_bounded_map`).
-/

namespace Libcp2p

/-- A full-length peer id. -/
abbrev FullId := { id : List UInt8 // id.length = 58 }

/-- A call on a store: insertion of a key under its own id, or a lookup of a full-length id. -/
inductive Call
  | insertPeer (publicKey : List UInt8)
  | havePeer (peerId : FullId)
  | getPublicKey (peerId : FullId) (output : List UInt8)

/-- What a call returns, and what the output object of `getPublicKey` holds afterwards. -/
inductive Reply
  | result (ok : Bool)
  | output (ok : Bool) (output : List UInt8)
  deriving DecidableEq, Repr

/-- A call on the store. -/
def exec (sha : Sha256) (pst : Peerstore) : Call → Except Fault (Reply × Peerstore)
  | .insertPeer key => do
    let (ok, pst) ← peerstoreInsertPeer sha .success pst (PID sha key) key
    .ok (.result ok, pst)
  | .havePeer id => do
    let ok ← peerstoreHavePeer pst id
    .ok (.result ok, pst)
  | .getPublicKey id output => do
    let (ok, output) ← peerstoreGetPublicKey pst id output
    .ok (.output ok output, pst)

/-- The bounded map from ids to keys that the store is for. -/
abbrev PeerMap := BoundedMap (List UInt8) (List UInt8)

/-- The same call on the map. -/
def PeerMap.exec (sha : Sha256) (m : PeerMap) : Call → Except Fault (Reply × PeerMap)
  | .insertPeer key => .ok (.result (m.insert (PID sha key) key).1, (m.insert (PID sha key) key).2)
  | .havePeer id => .ok (.result (m.contains id), m)
  | .getPublicKey id output =>
    match m.lookup id with
    | none => .ok (.output false output, m)
    | some key =>
      if key.length ≤ output.length then .ok (.output true (overlay output key), m) else .ok (.output false output, m)

/-- An entry of the map. -/
def Peer.entry (p : Peer) : List UInt8 × List UInt8 := (p.peerId, p.publicKey)

theorem map_fst_entry (es : List Peer) : (es.map Peer.entry).map Prod.fst = ids es := by
  rw [List.map_map]; rfl

theorem mem_map_entry {es : List Peer} {id key : List UInt8} : (id, key) ∈ es.map Peer.entry ↔ ⟨id, key⟩ ∈ es := by
  constructor
  · intro h
    obtain ⟨⟨id', key'⟩, hp, he⟩ := List.mem_map.mp h
    cases he
    exact hp
  · exact fun h => List.mem_map.mpr ⟨_, h, rfl⟩

/-- The store has the limit `maxPeers` and holds the peers `es`, which are the entries of `m`. -/
structure Represents (sha : Sha256) (maxPeers : Nat) (pst : Peerstore) (m : PeerMap) (es : List Peer) : Prop
    extends HoldsGenuine sha pst es where
  lists : m.Lists (es.map Peer.entry)
  maxPeers_eq : pst.maxPeers = maxPeers
  cap_eq : m.cap = maxPeers
  size_le : pst.peersSize ≤ max 2 maxPeers

section Represents

variable {sha : Sha256} {maxPeers : Nat} {pst : Peerstore} {m : PeerMap} {es : List Peer}

theorem represents_new (sha : Sha256) (maxPeers : Nat) :
    Represents sha maxPeers (peerstoreNewPeerstore maxPeers) (.empty maxPeers) [] where
  toHoldsGenuine := holdsGenuine_new sha maxPeers
  lists := BoundedMap.lists_empty maxPeers
  maxPeers_eq := rfl
  cap_eq := rfl
  size_le := Nat.le_max_left _ _

namespace Represents

theorem length_le_maxPeers (h : Represents sha maxPeers pst m es) : es.length ≤ maxPeers := by
  have hle := m.card_le
  rwa [h.lists.card_eq, List.length_map, h.cap_eq] at hle

/-- A refused insertion leaves the store and the map as they were. -/
theorem insert_refused (h : Represents sha maxPeers pst m es) {key : List UInt8}
    (hr : es.length = pst.maxPeers ∨ PID sha key ∈ ids es) :
    peerstoreInsertPeer sha .success pst (PID sha key) key = .ok (false, pst) ∧
      m.insert (PID sha key) key = (false, m) := by
  refine ⟨by rw [h.insertPeer_eq, if_pos hr], ?_⟩
  rcases hr with hfull | hmem
  · exact BoundedMap.insert_full (by rw [h.lists.card_eq, List.length_map, h.cap_eq, hfull, h.maxPeers_eq]) _ _
  · exact BoundedMap.insert_known (by rwa [h.lists.mem_iff, map_fst_entry]) _

/-- An insertion of a new id with room adds its entry to both, in a slot of the array. -/
theorem insert_added (h : Represents sha maxPeers pst m es) (hmax : maxPeers < 2 ^ 62) {key : List UInt8}
    (hr : ¬(es.length = pst.maxPeers ∨ PID sha key ∈ ids es)) :
    ∃ pst' m', peerstoreInsertPeer sha .success pst (PID sha key) key = .ok (true, pst') ∧
      m.insert (PID sha key) key = (true, m') ∧
      Represents sha maxPeers pst' m' (es ++ [⟨PID sha key, key⟩]) := by
  have hroom : es.length < maxPeers := Nat.lt_of_le_of_ne h.length_le_maxPeers fun he => hr (.inl (h.maxPeers_eq ▸ he))
  have hsize := h.size_le
  obtain ⟨pst', happ, hholds, hmax', hsize'⟩ :=
    appendPeer_eq h.toHolds (h.maxPeers_eq ▸ hroom) h.size_pos (by omega) (PID sha key) key
  obtain ⟨m', hins, hcap, hlists⟩ := h.lists.insert_append (k := PID sha key)
    (by rwa [List.length_map, h.cap_eq]) (by rw [map_fst_entry]; exact fun hm => hr (.inr hm)) key
  refine ⟨pst', m', by rw [h.insertPeer_eq, if_neg hr, happ], hins, h.snoc hholds, ?_, hmax'.trans h.maxPeers_eq,
    hcap.trans h.cap_eq, ?_⟩
  · rw [List.map_append]
    exact hlists
  · rw [h.maxPeers_eq] at hsize'
    omega

/-- A lookup of a key answers as the map does. -/
theorem getPublicKey_eq (h : Represents sha maxPeers pst m es) (id : FullId) (output : List UInt8) :
    ∃ r, exec sha pst (.getPublicKey id output) = .ok (r, pst) ∧
      PeerMap.exec sha m (.getPublicKey id output) = .ok (r, m) := by
  by_cases hmem : id.1 ∈ ids es
  · -- the one entry with this id splits the list
    obtain ⟨⟨_, key⟩, hp, rfl⟩ := mem_ids.mp hmem
    obtain ⟨as, bs, rfl⟩ := List.append_of_mem hp
    have hnodup := h.lists.nodup
    rw [map_fst_entry] at hnodup
    simp only [ids, List.map_append, List.map_cons, List.nodup_middle, List.nodup_cons, List.mem_append,
      not_or] at hnodup
    have hlook : m.lookup id.1 = some key := h.lists.lookup_eq_some.mpr (mem_map_entry.mpr hp)
    have hget := peerstoreGetPublicKey_eq (p := ⟨id.1, key⟩) h.toHolds (h.length_peerId id.2) hnodup.1.1 hnodup.1.2
      output
    simp only [exec, PeerMap.exec, hget, hlook, ok_bind]
    by_cases hl : key.length ≤ output.length
    · exact ⟨_, by rw [if_pos hl], by rw [if_pos hl]⟩
    · exact ⟨_, by rw [if_neg hl], by rw [if_neg hl]⟩
  · have hlook : m.lookup id.1 = none := h.lists.lookup_eq_none (by rwa [map_fst_entry])
    simp only [exec, PeerMap.exec, hlook, peerstoreGetPublicKey_absent h.toHolds (h.length_peerId id.2) hmem output,
      ok_bind]
    exact ⟨_, rfl, rfl⟩

end Represents

/-- **One call.** The store answers as the map it represents, and still represents it afterwards. -/
theorem exec_simulates (hmax : maxPeers < 2 ^ 62) (h : Represents sha maxPeers pst m es) (call : Call) :
    ∃ r pst' m', exec sha pst call = .ok (r, pst') ∧ PeerMap.exec sha m call = .ok (r, m') ∧
      ∃ es', Represents sha maxPeers pst' m' es' := by
  cases call with
  | insertPeer key =>
    by_cases hr : es.length = pst.maxPeers ∨ PID sha key ∈ ids es
    · obtain ⟨hpst, hm⟩ := h.insert_refused hr
      exact ⟨.result false, pst, m, by rw [exec, hpst, ok_bind], by rw [PeerMap.exec, hm], es, h⟩
    · obtain ⟨pst', m', hpst, hm, h'⟩ := h.insert_added hmax hr
      exact ⟨.result true, pst', m', by rw [exec, hpst, ok_bind], by rw [PeerMap.exec, hm], _, h'⟩
  | havePeer id =>
    refine ⟨.result (decide (id.1 ∈ ids es)), pst, m, ?_, ?_, es, h⟩
    · rw [exec, peerstoreHavePeer_eq h.toHolds (h.length_peerId id.2), ok_bind]
    · have hc : m.contains id.1 = decide (id.1 ∈ ids es) := by
        rw [Bool.eq_iff_iff, h.lists.contains_iff, map_fst_entry, decide_eq_true_iff]
      rw [PeerMap.exec, hc]
  | getPublicKey id output =>
    obtain ⟨r, hpst, hm⟩ := h.getPublicKey_eq id output
    exact ⟨r, pst, m, hpst, hm, es, h⟩

/-- From a store that represents a map, an insertion writes below the size of the array or changes nothing. -/
theorem insert_within (hmax : maxPeers < 2 ^ 62) (h : Represents sha maxPeers pst m es) {key : List UInt8} {ok : Bool}
    {pst' : Peerstore} (hins : peerstoreInsertPeer sha .success pst (PID sha key) key = .ok (ok, pst')) :
    if ok then pst.numPeers < pst'.peersSize else pst' = pst := by
  by_cases hr : es.length = pst.maxPeers ∨ PID sha key ∈ ids es
  · obtain ⟨rfl, rfl⟩ := Prod.mk.inj (Except.ok.inj (hins.symm.trans (h.insert_refused hr).1))
    rfl
  · obtain ⟨pst₁, m', hpst, -, h'⟩ := h.insert_added hmax hr
    obtain ⟨rfl, rfl⟩ := Prod.mk.inj (Except.ok.inj (hins.symm.trans hpst))
    rw [if_pos rfl, h.numPeers_eq]
    exact Nat.lt_of_lt_of_le (by simp) h'.length_le

end Represents

/-- **Refinement.** Every run of calls on a new store goes through without a fault and answers as the bounded finite map
does; the store it reaches holds the entries of the map, in at most `maxPeers` and at most `peersSize` slots. From there
an insertion that is refused leaves the store as it was, and one that is not writes below the size of the array. -/
theorem peerstore_bounded_map (sha : Sha256) {maxPeers : Nat} (hmax : maxPeers < 2 ^ 62) (calls : List Call) :
    ∃ replies pst m es,
      outs (exec sha) (peerstoreNewPeerstore maxPeers) calls = .ok (replies, pst) ∧
      outs (PeerMap.exec sha) (.empty maxPeers) calls = .ok (replies, m) ∧
      Represents sha maxPeers pst m es ∧ pst.numPeers ≤ min maxPeers pst.peersSize ∧
      ∀ key ok pst', peerstoreInsertPeer sha .success pst (PID sha key) key = .ok (ok, pst') →
        if ok then pst.numPeers < pst'.peersSize else pst' = pst := by
  have hstep : ∀ (pst : Peerstore) (m : PeerMap) (call : Call), (∃ es, Represents sha maxPeers pst m es) →
      ∃ r pst' m', exec sha pst call = .ok (r, pst') ∧ PeerMap.exec sha m call = .ok (r, m') ∧
        ∃ es', Represents sha maxPeers pst' m' es' := fun _ _ call ⟨_, h⟩ => exec_simulates hmax h call
  obtain ⟨replies, pst, m, hpst, hm, es, h⟩ := outs_simulates hstep ⟨[], represents_new sha maxPeers⟩ calls
  refine ⟨replies, pst, m, es, hpst, hm, h, ?_, fun key ok pst' hins => insert_within hmax h hins⟩
  rw [h.numPeers_eq]
  exact Nat.le_min.mpr ⟨h.length_le_maxPeers, h.length_le⟩

/-- A store for three peers, which grows for the third and refuses the fourth. -/
theorem peerstore_bounded_map_grows : 3 < 2 ^ 62 ∧ ∃ replies pst m es,
    outs (exec firstByteSha) (peerstoreNewPeerstore 3)
      [.insertPeer [1], .insertPeer [2], .insertPeer [3], .insertPeer [4]] = .ok (replies, pst) ∧
    outs (PeerMap.exec firstByteSha) (.empty 3)
      [.insertPeer [1], .insertPeer [2], .insertPeer [3], .insertPeer [4]] = .ok (replies, m) ∧
    Represents firstByteSha 3 pst m es ∧ pst.numPeers ≤ min 3 pst.peersSize ∧
    ∀ key ok pst', peerstoreInsertPeer firstByteSha .success pst (PID firstByteSha key) key = .ok (ok, pst') →
      if ok then pst.numPeers < pst'.peersSize else pst' = pst :=
  ⟨by decide, peerstore_bounded_map firstByteSha (by decide) _⟩

end Libcp2p

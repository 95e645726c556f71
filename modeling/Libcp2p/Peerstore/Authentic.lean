import Libcp2p.Lib.Runs
import Libcp2p.Peerstore.Store

/-!
# Authenticity of the peerstore

An entry is authentic when its id is the id of its key. A call of `peerstore_insert_peer` validates the id it is given
over the length it is given, so it also accepts a proper prefix of the id of the key.

`genuine_iff`: over every sequence of calls with arbitrary arguments and allocations, all the stores are authentic, and
all their lookups of full-length ids answer with a key of that id, exactly when no call that reaches the append has a
proper prefix for its id. `not_genuine_short` is a call that has.
-/

namespace Libcp2p

/-- The arguments of a call of `peerstore_insert_peer`, and which of its allocations succeed. -/
structure InsertCall where
  alloc : Alloc
  peerId : List UInt8
  publicKey : List UInt8

/-- The store after a call, unless a fault stops it. -/
def insertStep (sha : Sha256) (pst : Peerstore) (c : InsertCall) : Option Peerstore :=
  match peerstoreInsertPeer sha c.alloc pst c.peerId c.publicKey with
  | .ok (_, pst') => some pst'
  | .error _ => none

/-- Every entry has the id of its key. -/
def Authentic (sha : Sha256) (pst : Peerstore) : Prop := ∀ p, some p ∈ pst.peers → p.peerId = PID sha p.publicKey

/-- A lookup of a full-length id that succeeds copies out a key with that id. -/
def LookupsAuthentic (sha : Sha256) (pst : Peerstore) : Prop :=
  ∀ id output output', id.length = 58 → peerstoreGetPublicKey pst id output = .ok (true, output') →
    ∃ key, PID sha key = id ∧ key <+: output'

/-- The entries are authentic, and so are the answers. -/
structure Genuine (sha : Sha256) (pst : Peerstore) : Prop where
  entries : Authentic sha pst
  lookups : LookupsAuthentic sha pst

/-- The allocations that an insertion into `pst` needs succeed. -/
structure Alloc.Suffices (alloc : Alloc) (pst : Peerstore) : Prop where
  pid : alloc.pid.ok = true
  peers : pst.numPeers = pst.peersSize → alloc.peers = true
  publicKey : alloc.publicKey = true

/-- The id is not a proper prefix of the id of the key, or the call does not come to the append: the store is at its
limit or an allocation fails. -/
def InsertCall.FullLength (sha : Sha256) (pst : Peerstore) (c : InsertCall) : Prop :=
  pst.numPeers ≠ pst.maxPeers → c.alloc.Suffices pst → c.peerId <+: PID sha c.publicKey →
    c.peerId = PID sha c.publicKey

section Calls

variable {sha : Sha256} {pst pst' : Peerstore} {alloc : Alloc} {id key : List UInt8}

/-! ## What a call does to the slots -/

theorem mem_reallocPeers {size : Nat} {p : Peer} (h : some p ∈ (reallocPeers pst size).peers) : some p ∈ pst.peers := by
  rcases List.mem_append.mp h with h | h
  · exact List.mem_of_mem_take h
  · cases List.eq_of_mem_replicate h

theorem mem_storePeer {p q : Peer} (h : some q ∈ (storePeer pst p).peers) : q = p ∨ some q ∈ pst.peers := by
  rcases List.mem_or_eq_of_mem_set h with h | h
  · exact .inr h
  · exact .inl (Option.some.inj h)

/-- An append that returns adds its one peer, when the allocations suffice, or none. -/
theorem appendPeer_cases {ok : Bool} (h : appendPeer alloc pst id key = .ok (ok, pst')) :
    (ok = true ∧ (pst.numPeers = pst.peersSize → alloc.peers = true) ∧ alloc.publicKey = true ∧
      some ⟨id, key⟩ ∈ pst'.peers ∧ ∀ p, some p ∈ pst'.peers → p = ⟨id, key⟩ ∨ some p ∈ pst.peers) ∨
    (ok = false ∧ ((pst.numPeers = pst.peersSize ∧ alloc.peers = false) ∨ alloc.publicKey = false) ∧
      ∀ p, some p ∈ pst'.peers → some p ∈ pst.peers) := by
  cases appendPeer_outcome h with
  | lost hfull ha => exact .inr ⟨rfl, .inl ⟨hfull, ha⟩, by simp⟩
  | grown hfull ha hk => exact .inr ⟨rfl, .inr hk, fun p => mem_reallocPeers⟩
  | refused hroom hk => exact .inr ⟨rfl, .inr hk, fun p hp => hp⟩
  | stored hroom hk hlt =>
    exact .inl ⟨rfl, fun hfull => absurd hfull hroom, hk, List.mem_set hlt _, fun p => mem_storePeer⟩
  | storedGrown hfull ha hk hlt =>
    refine .inl ⟨rfl, fun _ => ha, hk, List.mem_set hlt _, fun p hp => ?_⟩
    exact (mem_storePeer hp).imp_right mem_reallocPeers

/-! ## Lookups -/

theorem havePeerLoop_eq_true {n : Nat} {slots : List (Option Peer)} (h : havePeerLoop id slots n = .ok true) :
    ∃ p, some p ∈ slots ∧ p.peerId <+: id := by
  induction n generalizing slots with
  | zero => simp [havePeerLoop] at h
  | succ n ih =>
    cases slots with
    | nil => simp [havePeerLoop] at h
    | cons slot slots =>
      cases slot with
      | none => simp [havePeerLoop] at h
      | some p =>
        obtain ⟨eq, heq, h⟩ := bind_eq_ok.mp h
        cases eq with
        | true => exact ⟨p, List.mem_cons_self, memcmpEq_prefix_iff.mp heq⟩
        | false =>
          obtain ⟨q, hq, hpre⟩ := ih h
          exact ⟨q, List.mem_cons_of_mem _ hq, hpre⟩

/-- A lookup that succeeds copied the key of an entry whose id is a prefix of the one looked for. -/
theorem getPublicKeyLoop_eq_true {n : Nat} {slots : List (Option Peer)} {ok : Bool} {output output' : List UInt8}
    (h : getPublicKeyLoop id slots n ok output = .ok (true, output')) :
    (ok = true ∧ output' = output) ∨ ∃ p, some p ∈ slots ∧ p.peerId <+: id ∧ p.publicKey <+: output' := by
  induction n generalizing slots ok output with
  | zero =>
    simp only [getPublicKeyLoop, Except.ok.injEq, Prod.mk.injEq] at h
    exact .inl ⟨h.1, h.2.symm⟩
  | succ n ih =>
    cases slots with
    | nil => simp [getPublicKeyLoop] at h
    | cons slot slots =>
      cases slot with
      | none => simp [getPublicKeyLoop] at h
      | some p =>
        obtain ⟨eq, heq, h⟩ := bind_eq_ok.mp h
        cases eq with
        | true =>
          simp only [if_true] at h
          split_ifs at h with hlen
          · simp only [Except.ok.injEq, Prod.mk.injEq] at h
            exact .inl ⟨h.1, h.2.symm⟩
          · right
            rcases ih h with ⟨-, rfl⟩ | ⟨q, hq, hpre⟩
            · exact ⟨p, List.mem_cons_self, memcmpEq_prefix_iff.mp heq, List.prefix_append _ _⟩
            · exact ⟨q, List.mem_cons_of_mem _ hq, hpre⟩
        | false =>
          simp only [Bool.false_eq_true, if_false] at h
          rcases ih h with h | ⟨q, hq, hpre⟩
          · exact .inl h
          · exact .inr ⟨q, List.mem_cons_of_mem _ hq, hpre⟩

/-- In an authentic store a prefix of a full-length id is that id. -/
theorem Authentic.eq_of_prefix (h : Authentic sha pst) {p : Peer} (hp : some p ∈ pst.peers) (hpre : p.peerId <+: id)
    (hlen : id.length ≤ 58) : p.peerId = id := by
  apply hpre.eq_of_length_le
  rw [h p hp, length_PID]
  exact hlen

theorem Authentic.lookups (h : Authentic sha pst) : LookupsAuthentic sha pst := by
  intro id output output' hid hget
  rcases getPublicKeyLoop_eq_true hget with ⟨hfalse, -⟩ | ⟨p, hp, hpre, hkey⟩
  · cases hfalse
  · refine ⟨p.publicKey, ?_, hkey⟩
    rw [← h p hp]
    exact h.eq_of_prefix hp hpre (Nat.le_of_eq hid)

theorem genuine_iff_authentic : Genuine sha pst ↔ Authentic sha pst := by
  constructor
  · intro h
    exact h.entries
  · intro h
    exact ⟨h, h.lookups⟩

/-! ## Runs -/

theorem insertStep_eq_some {c : InsertCall} (h : insertStep sha pst c = some pst') :
    ∃ ok, peerstoreInsertPeer sha c.alloc pst c.peerId c.publicKey = .ok (ok, pst') := by
  unfold insertStep at h
  split at h
  · rename_i ok pst₁ he
    cases h
    exact ⟨ok, he⟩
  · cases h

/-- **One call** keeps an authentic store authentic exactly when it does not append under a proper prefix. -/
theorem insertStep_authentic {c : InsertCall} (h : Authentic sha pst) (hstep : insertStep sha pst c = some pst') :
    Authentic sha pst' ↔ c.FullLength sha pst := by
  obtain ⟨ok, hins⟩ := insertStep_eq_some hstep
  rcases peerstoreInsertPeer_cases hins with ⟨hmax, -, hvalid, happ⟩ | ⟨-, rfl, hrefused⟩
  · obtain ⟨hpid, hpre⟩ := peerstoreValidatePeerId_eq_true.mp hvalid
    rcases appendPeer_cases happ with ⟨-, hpeers, hkey, hnew, hmem⟩ | ⟨-, hfail, hmem⟩
    · -- the peer is appended
      constructor
      · intro h' _ _ _
        exact h' _ hnew
      · intro hfull p hp
        rcases hmem p hp with rfl | hp
        · exact hfull hmax ⟨hpid, hpeers, hkey⟩ hpre
        · exact h p hp
    · -- an allocation fails
      constructor
      · rintro - - hs -
        rcases hfail with ⟨hfull, hpeers⟩ | hkey
        · rw [hs.peers hfull] at hpeers
          cases hpeers
        · rw [hs.publicKey] at hkey
          cases hkey
      · intro _ p hp
        exact h p (hmem p hp)
  · -- a check fails, so the store is unchanged and the condition holds
    refine iff_of_true h ?_
    intro hmax hs hpre
    rcases hrefused with heq | hhave | hvalid
    · exact absurd heq hmax
    · -- a stored id of 58 bytes is a prefix of the given one
      obtain ⟨p, hp, hstored⟩ := havePeerLoop_eq_true hhave
      have hlen := hstored.length_le
      rw [h p hp, length_PID] at hlen
      apply hpre.eq_of_length_le
      rw [length_PID]
      exact hlen
    · rw [peerstoreValidatePeerId_eq_true.mpr ⟨hs.pid, hpre⟩] at hvalid
      cases hvalid

end Calls

/-- **Authenticity.** Every store that a sequence of calls goes through is genuine exactly when no completed call
appends under a proper prefix of the id of its key. -/
theorem genuine_iff (sha : Sha256) (maxPeers : Nat) (calls : List InsertCall) :
    Always (insertStep sha) (Genuine sha) (peerstoreNewPeerstore maxPeers) calls ↔
      StepsOk (insertStep sha) (InsertCall.FullLength sha) (peerstoreNewPeerstore maxPeers) calls := by
  apply always_iff_stepsOk (J := Authentic sha)
  · intro pst h
    exact genuine_iff_authentic.mpr h
  · intro pst c pst' h hfull hstep
    exact (insertStep_authentic h hstep).mpr hfull
  · intro pst c pst' h hstep h'
    exact (insertStep_authentic h hstep).mp h'.entries
  · intro p hp
    simp [peerstoreNewPeerstore] at hp

/-- A call whose id is the one byte `b` stores its key under that id. -/
theorem insertStep_short (sha : Sha256) :
    insertStep sha (peerstoreNewPeerstore 2) ⟨.success, [98], [1]⟩ = some ⟨2, 1, 2, [some ⟨[98], [1]⟩, none]⟩ := by
  have hvalid : peerstoreValidatePeerId sha .success [98] [1] = .ok true := by
    rw [peerstoreValidatePeerId_eq_true, PID_eq]
    exact ⟨rfl, List.prefix_append [98] _⟩
  simp [insertStep, peerstoreInsertPeer, peerstoreNewPeerstore, peerstoreHavePeer, havePeerLoop, hvalid, appendPeer,
    peerstoreResizeIfNeeded, storePeer, Alloc.success]

/-- **A short id is accepted**: its entry is not authentic, and the lookup of every id that starts with `b` answers with
its key. -/
theorem not_genuine_short : ¬∃ sha : Sha256,
    Always (insertStep sha) (Authentic sha) (peerstoreNewPeerstore 2) [⟨.success, [98], [1]⟩] ∨
    Always (insertStep sha) (LookupsAuthentic sha) (peerstoreNewPeerstore 2) [⟨.success, [98], [1]⟩] := by
  rintro ⟨sha, h | h⟩
  · have hid := h.2 _ (insertStep_short sha) ⟨[98], [1]⟩ List.mem_cons_self
    have hlen := congrArg List.length hid
    rw [length_PID] at hlen
    cases hlen
  · -- the id `b` followed by zeros is the id of no key
    obtain ⟨key, hkey, -⟩ := h.2 _ (insertStep_short sha) (98 :: List.replicate 57 0) [0] [1] rfl rfl
    have hlen := length_base32Text_sha256 sha key
    have hzero := zero_notMem_base32Text (multihash (sha.hash key))
    rw [PID_eq] at hkey
    cases htext : base32Text (multihash (sha.hash key)) with
    | nil => rw [htext] at hlen; cases hlen
    | cons c text =>
      rw [htext] at hkey hzero
      simp only [List.cons_append, List.replicate_succ, List.cons.injEq] at hkey
      exact hzero (hkey.2.1 ▸ List.mem_cons_self)

end Libcp2p

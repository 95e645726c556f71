import Libcp2p.Network.MessageRoundTrip
import Libcp2p.Peerstore.Store

/-!
# The hello protocol

A hello message carries the id and the public key of its sender. `handleHelloProtocol` decodes the one it is given, puts
the sender into the peerstore and answers a `MESSAGE_HELLO_INT` with a `MESSAGE_HELLO_FIN` that carries its own.

The hello of an honest server, whose id is the id of its key, is built and decoded without loss
(`messageHelloTToMessageT_eq`, `cborDecodeHelloT_helloMessage`), so that the whole way from the key of one server into
the peerstore of another is the identity (`hello_exchange`).
-/

namespace Libcp2p

open Cbor

/-- The part of `socket_server_t` that the hello protocol uses. -/
structure Server where
  peerId : List UInt8
  publicKey : List UInt8
  pstore : Peerstore

/-- `new_server_message_hello_t`. -/
def newServerMessageHelloT (srv : Server) : Except Fault MessageHello :=
  newMessageHelloT srv.peerId srv.publicKey srv.peerId.length srv.publicKey.length

/-- What `handle_hello_protocol` returns, its peerstore afterwards and the message it has sent. -/
structure HelloResult where
  ok : Bool
  pstore : Peerstore
  reply : Option Message

/-- `handle_hello_protocol`, where `sendOk` says whether `handle_send` succeeds. -/
def handleHelloProtocol (sha : Sha256) (stack : Option Nat) (srv : Server) (msg : Message) (sendOk : Bool) :
    Except Fault HelloResult := do
  match ← cborDecodeHelloT stack msg.data with
  | none => .ok ⟨false, srv.pstore, none⟩
  | some msgHello =>
    let (ok, pstore) ← peerstoreInsertPeer sha .success srv.pstore msgHello.peerId msgHello.publicKey
    if !ok then .ok ⟨false, pstore, none⟩
    else if msg.type = MessageTypes.helloFin.code then .ok ⟨true, pstore, none⟩
    else do
      let sendMsgHello ← newServerMessageHelloT srv
      match ← messageHelloTToMessageT stack sendMsgHello false with
      | none => .ok ⟨false, pstore, none⟩
      | some sendMsg => .ok ⟨sendOk, pstore, if sendOk then some sendMsg else none⟩

/-! ## The hello of an honest server -/

/-- The hello message of the server with the given key. -/
def helloMessage (sha : Sha256) (key : List UInt8) (initiate : Bool) : Message where
  type := if initiate then MessageTypes.helloInt.code else MessageTypes.helloFin.code
  data := helloBytes ⟨PID sha key, key⟩

section Honest

variable {sha : Sha256} {key : List UInt8} {stack : Option Nat}

theorem encodableType_helloMessage (sha : Sha256) (key : List UInt8) (initiate : Bool) :
    EncodableType (helloMessage sha key initiate).type := by
  cases initiate
  · exact encodableType_code .helloFin
  · exact encodableType_code .helloInt

theorem newMessageHelloT_eq (id key : List UInt8) : newMessageHelloT id key id.length key.length = .ok ⟨id, key⟩ := by
  simp [newMessageHelloT]

/-- The heads of a hello message take at most 21 bytes. -/
theorem length_helloBytes_le (hkey : key.length < 2 ^ 31) :
    (helloBytes ⟨PID sha key, key⟩).length ≤ 79 + key.length := by
  have hi := length_head_le_five (m := 0) (show (PID sha key).length < 2 ^ 32 by rw [length_PID]; decide)
  have hi' := length_head_le_five (m := 2) (show (PID sha key).length < 2 ^ 32 by rw [length_PID]; decide)
  have hk := length_head_le_five (m := 0) (show key.length < 2 ^ 32 by omega)
  have hk' := length_head_le_five (m := 2) (show key.length < 2 ^ 32 by omega)
  have h4 : (head 4 4).length = 1 := rfl
  simp only [helloBytes, List.length_append, length_PID] at *
  omega

theorem messageHelloTToMessageT_eq (hkey : key.length < 2 ^ 31) (hs : ∀ n ∈ stack, 103 + key.length ≤ n)
    (initiate : Bool) :
    messageHelloTToMessageT stack ⟨PID sha key, key⟩ initiate = .ok (some (helloMessage sha key initiate)) := by
  have henc : cborEncodeHelloT stack ⟨PID sha key, key⟩ = .ok (some (helloBytes ⟨PID sha key, key⟩)) := by
    apply cborEncodeHelloT_eq
    · rw [length_PID]; decide
    · dsimp only; omega
    · intro n hn
      have := hs n hn
      simp only [length_PID, sizeofMessageHelloT]
      omega
  rw [messageHelloTToMessageT, henc]
  rfl

theorem cborDecodeHelloT_helloMessage (hkey : key.length < 2 ^ 31) (hs : ∀ n ∈ stack, 103 + key.length ≤ n)
    (initiate : Bool) :
    cborDecodeHelloT stack (helloMessage sha key initiate).data = .ok (some ⟨PID sha key, key⟩) := by
  have hdecode : cborDecodeHelloT stack (helloBytes ⟨PID sha key, key⟩ ++ []) = .ok (some ⟨PID sha key, key⟩) := by
    apply cborDecodeHelloT_helloBytes
    · rw [length_PID]; decide
    · dsimp only; omega
    · intro n hn
      have := hs n hn
      dsimp only
      rw [length_PID]
      omega
    · intro n hn
      have := hs n hn
      dsimp only
      omega
  rwa [List.append_nil] at hdecode

/-- A hello message goes over the wire without loss. -/
theorem helloMessage_roundtrip (sha : Sha256) (hkey : key.length < 2 ^ 31) (hs : ∀ n ∈ stack, 103 + key.length ≤ n)
    (initiate : Bool) :
    ∃ bytes, cborEncodeMessageT stack (helloMessage sha key initiate) = .ok (some bytes) ∧
      cborDecodeMessageT stack bytes = .ok (some (helloMessage sha key initiate)) := by
  have hty := encodableType_helloMessage sha key initiate
  have hlen : (helloMessage sha key initiate).data.length ≤ 79 + key.length := length_helloBytes_le hkey
  have hdecode := cborDecodeMessageT_messageBytes hty (by omega) (fun n hn => by have := hs n hn; omega) []
  rw [List.append_nil] at hdecode
  refine ⟨messageBytes (helloMessage sha key initiate), ?_, hdecode⟩
  apply cborEncodeMessageT_eq
  · unfold EncodableType at hty
    omega
  · omega
  · intro n hn
    have := hs n hn
    unfold sizeofMessageT
    omega

/-- **The handler** on the hello of an honest server: it refuses a known peer, or any peer when the store is full,
without a change and without an answer; otherwise it takes the peer in, and answers a `MESSAGE_HELLO_INT`. -/
theorem handleHelloProtocol_eq {pst : Peerstore} {es : List Peer} {ownKey : List UInt8}
    (hpst : HoldsGenuine sha pst es) (hkey : key.length < 2 ^ 31) (hown : ownKey.length < 2 ^ 31)
    (initiate sendOk : Bool) :
    handleHelloProtocol sha none ⟨PID sha ownKey, ownKey, pst⟩ (helloMessage sha key initiate) sendOk =
      if es.length = pst.maxPeers ∨ PID sha key ∈ ids es then .ok ⟨false, pst, none⟩
      else (appendPeer .success pst (PID sha key) key).map fun r =>
        ⟨!initiate || sendOk, r.2, if initiate && sendOk then some (helloMessage sha ownKey false) else none⟩ := by
  have hdecode : cborDecodeHelloT none (helloMessage sha key initiate).data = .ok (some ⟨PID sha key, key⟩) :=
    cborDecodeHelloT_helloMessage hkey (by simp) initiate
  have hbuild : messageHelloTToMessageT none ⟨PID sha ownKey, ownKey⟩ false =
      .ok (some (helloMessage sha ownKey false)) :=
    messageHelloTToMessageT_eq hown (by simp) false
  have hanswer : newServerMessageHelloT ⟨PID sha ownKey, ownKey, pst⟩ = .ok ⟨PID sha ownKey, ownKey⟩ :=
    newMessageHelloT_eq _ _
  unfold handleHelloProtocol
  rw [hdecode, ok_bind]
  dsimp only
  rw [hpst.insertPeer_eq]
  by_cases hr : es.length = pst.maxPeers ∨ PID sha key ∈ ids es
  · rw [if_pos hr, if_pos hr, ok_bind]
    rfl
  · rw [if_neg hr, if_neg hr]
    cases happ : appendPeer .success pst (PID sha key) key with
    | error fault => rfl
    | ok r =>
      obtain ⟨ok, pst'⟩ := r
      obtain ⟨rfl, -, -, -⟩ := holds_of_appendPeer hpst.toHolds happ
      rw [ok_bind]
      dsimp only
      rw [hanswer, ok_bind, hbuild, ok_bind]
      cases initiate <;> cases sendOk <;> rfl

end Honest

/-- **Hello exchange.** The hello of a server with key `key`, built from the id that its key pair gives it, arrives with
the same id and key, and the peerstore that takes it in returns the key for the id. -/
theorem hello_exchange (sha : Sha256) (key rest output : List UInt8) {stack : Option Nat} {pst : Peerstore}
    {es : List Peer} (initiate : Bool) (hnul : 0 ∉ key) (hkey : key.length < 2 ^ 31)
    (hs : ∀ n ∈ stack, 103 + key.length ≤ n) (hpst : HoldsGenuine sha pst es) (hsize : pst.peersSize < 2 ^ 63)
    (hroom : es.length < pst.maxPeers) (hnew : PID sha key ∉ ids es) (hout : key.length ≤ output.length) :
    ∃ id hello msg bytes pst',
      keypairPeerid sha .success (key ++ 0 :: rest) = .ok (some id) ∧
      newMessageHelloT id key 58 key.length = .ok hello ∧
      messageHelloTToMessageT stack hello initiate = .ok (some msg) ∧
      cborEncodeMessageT stack msg = .ok (some bytes) ∧
      cborDecodeMessageT stack bytes = .ok (some msg) ∧
      msg.type = (if initiate then MessageTypes.helloInt.code else MessageTypes.helloFin.code) ∧
      cborDecodeHelloT stack msg.data = .ok (some ⟨id, key⟩) ∧
      peerstoreInsertPeer sha .success pst id key = .ok (true, pst') ∧
      peerstoreGetPublicKey pst' id output = .ok (true, overlay output key) := by
  obtain ⟨bytes, hencode, hdecode⟩ := helloMessage_roundtrip sha hkey hs initiate
  obtain ⟨pst', happ, hholds, -, -⟩ := appendPeer_eq hpst.toHolds hroom hpst.size_pos hsize (PID sha key) key
  have hhello : newMessageHelloT (PID sha key) key 58 key.length = .ok ⟨PID sha key, key⟩ := by
    have := newMessageHelloT_eq (PID sha key) key
    rwa [length_PID] at this
  have hinsert : peerstoreInsertPeer sha .success pst (PID sha key) key = .ok (true, pst') := by
    rw [hpst.insertPeer_eq, if_neg, happ]
    rintro (hfull | hmem)
    · exact Nat.ne_of_lt hroom hfull
    · exact hnew hmem
  have hget : peerstoreGetPublicKey pst' (PID sha key) output = .ok (true, overlay output key) := by
    have hids := (hpst.snoc hholds).length_peerId (length_PID sha key)
    have := peerstoreGetPublicKey_eq hholds hids hnew (by simp [ids]) output
    rwa [if_pos hout] at this
  exact ⟨PID sha key, ⟨PID sha key, key⟩, helloMessage sha key initiate, bytes, pst', keypairPeerid_eq sha hnul rest,
    hhello, messageHelloTToMessageT_eq hkey hs initiate, hencode, hdecode, rfl,
    cborDecodeHelloT_helloMessage hkey hs initiate, hinsert, hget⟩

/-- The hello with the key of one byte, taken into a store that holds another peer. -/
theorem hello_exchange_second :
    let pst : Peerstore := ⟨2, 1, 2, [some ⟨PID firstByteSha [2], [2]⟩, none]⟩
    ∃ id hello msg bytes pst',
      keypairPeerid firstByteSha .success [1, 0] = .ok (some id) ∧
      newMessageHelloT id [1] 58 1 = .ok hello ∧
      messageHelloTToMessageT none hello true = .ok (some msg) ∧
      cborEncodeMessageT none msg = .ok (some bytes) ∧
      cborDecodeMessageT none bytes = .ok (some msg) ∧
      msg.type = MessageTypes.helloInt.code ∧
      cborDecodeHelloT none msg.data = .ok (some ⟨id, [1]⟩) ∧
      peerstoreInsertPeer firstByteSha .success pst id [1] = .ok (true, pst') ∧
      peerstoreGetPublicKey pst' id [0] = .ok (true, [1]) := by
  intro pst
  have hholds : HoldsGenuine firstByteSha pst [⟨PID firstByteSha [2], [2]⟩] :=
    ⟨⟨rfl, by decide, rfl⟩, by simp, by decide⟩
  exact hello_exchange firstByteSha [1] [] [0] true (by decide) (by decide) (by simp) hholds (by decide) (by decide)
    (by decide +kernel) (by decide)

end Libcp2p

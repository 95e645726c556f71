import Libcp2p.Network.HelloNetwork
import Mathlib.Data.Fintype.Card

/-!
# Answers to hello messages

`peerstore_insert_peer` returns false for a peer it already has, so `handle_hello_protocol` fails on every hello whose
sender is known: it sends no answer and its connection is closed.

`hello_answered_iff`: when every store has room for all servers, every hello message of a run is processed with success,
its sender stored and each `MESSAGE_HELLO_INT` answered by one `MESSAGE_HELLO_FIN`, exactly when no message is delivered
to a server that has already stored its sender (and each answer can be sent). `hello_not_answered` is a second exchange
between the same two servers.
-/

namespace Libcp2p

/-- Honest servers whose peerstores have room for all of them. -/
structure RoomyServers (sha : Sha256) (S : Type) [Fintype S] extends Servers sha S where
  maxPeers_lt : ∀ s, (pstore s).maxPeers < 2 ^ 62
  size_le : ∀ s, (pstore s).peersSize ≤ max 2 (pstore s).maxPeers
  room : ∀ s, (peers s).length + Fintype.card S ≤ (pstore s).maxPeers

section Room

variable {sha : Sha256} {S : Type} [Fintype S] (servers : RoomyServers sha S)

/-- The store of `s` has grown by some of the servers, each once. -/
structure Grown (s : S) (pst : Peerstore) (added : List S) : Prop where
  entries_eq : pst.entries = servers.peers s ++ added.map servers.peer
  nodup : added.Nodup
  maxPeers_eq : pst.maxPeers = (servers.pstore s).maxPeers
  size_le : pst.peersSize ≤ max 2 pst.maxPeers

variable {servers} {s t : S} {pst : Peerstore} {added : List S}

theorem grown_init (s : S) : Grown servers s (servers.pstore s) [] where
  entries_eq := by
    rw [(servers.holds s).entries_eq, List.map_nil, List.append_nil]
  nodup := List.nodup_nil
  maxPeers_eq := rfl
  size_le := servers.size_le s

theorem Grown.notMem (h : Grown servers s pst added) (hnew : PID sha (servers.key t) ∉ ids pst.entries) :
    t ∉ added := by
  intro ht
  apply hnew
  rw [mem_ids, h.entries_eq]
  exact ⟨servers.peer t, List.mem_append_right _ (List.mem_map_of_mem ht), rfl⟩

/-- A store without one of the servers has room for it. -/
theorem Grown.room (h : Grown servers s pst added) (hnew : PID sha (servers.key t) ∉ ids pst.entries) :
    pst.entries.length < pst.maxPeers := by
  have hcard : (t :: added).length ≤ Fintype.card S := (List.nodup_cons.mpr ⟨h.notMem hnew, h.nodup⟩).length_le_card
  have hroom := servers.room s
  rw [h.entries_eq, h.maxPeers_eq, List.length_append, List.length_map]
  rw [List.length_cons] at hcard
  omega

/-- A new server is appended to the store. -/
theorem Grown.append (h : Grown servers s pst added) (hpst : HoldsGenuine sha pst pst.entries)
    (hnew : PID sha (servers.key t) ∉ ids pst.entries) :
    ∃ pst', appendPeer .success pst (PID sha (servers.key t)) (servers.key t) = .ok (true, pst') ∧
      Grown servers s pst' (added ++ [t]) := by
  have hmax := servers.maxPeers_lt s
  have hsize := h.size_le
  rw [← h.maxPeers_eq] at hmax
  obtain ⟨pst', happ, hholds, hmax', hsize'⟩ :=
    appendPeer_eq hpst.toHolds (h.room hnew) hpst.size_pos (by omega) (PID sha (servers.key t)) (servers.key t)
  refine ⟨pst', happ, ?_, ?_, hmax'.trans h.maxPeers_eq, ?_⟩
  · rw [hholds.entries_eq, h.entries_eq, List.map_append, List.append_assoc]
    rfl
  · rw [List.nodup_append_comm]
    exact List.nodup_cons.mpr ⟨h.notMem hnew, h.nodup⟩
  · rw [hmax']
    omega

end Room

section Answers

variable {sha : Sha256} {S : Type} [Fintype S] (servers : RoomyServers sha S)

/-- A delivery after which the sender is stored, and a `MESSAGE_HELLO_INT` answered by a `MESSAGE_HELLO_FIN`. -/
structure Delivery.Answered (net : Net S) (d : Delivery S) : Prop where
  ok : d.ok = true
  stored : servers.peer d.env.src ∈ (net.pstore d.env.dst).entries
  reply : d.env.isInt = true → d.reply = some (helloMessage sha (servers.key d.env.dst) false)

/-- What was answered stays so when stores grow. -/
theorem Delivery.Answered.mono {servers : RoomyServers sha S} {net net' : Net S} {d : Delivery S}
    (h : d.Answered servers net) (hgrows : ∀ s, (net.pstore s).entries <+: (net'.pstore s).entries) :
    d.Answered servers net' := ⟨h.ok, (hgrows _).subset h.stored, h.reply⟩

/-- If a message is delivered, its receiver has not stored its sender, and an answer to it can be sent. -/
def Net.NewSender (net : Net S) (a : NetAction S) : Prop :=
  ∀ i sendOk env, a = .deliver i sendOk → net.flight[i]? = some env →
    PID sha (servers.key env.src) ∉ ids (net.pstore env.dst).entries ∧ (env.isInt = true → sendOk = true)

variable [DecidableEq S]

/-- Every message delivered was answered, and every message in flight can be processed. -/
structure Net.Answered (net : Net S) : Prop where
  delivered : ∀ d ∈ net.delivered, d.Answered servers net
  processes : ∀ i sendOk, i < net.flight.length → (netStep servers.toServers net (.deliver i sendOk)).isSome

/-- The invariant of runs where every message is answered. -/
structure AnswerInv (net : Net S) : Prop extends NetInv servers.toServers net where
  grown : ∀ s, ∃ added, Grown servers s (net.pstore s) added
  answered : ∀ d ∈ net.delivered, d.Answered servers net

variable {servers} {net net' : Net S} {a : NetAction S}

theorem answerInv_init (servers : RoomyServers sha S) : AnswerInv servers servers.init where
  toNetInv := netInv_init servers.toServers
  grown := fun s => ⟨[], grown_init s⟩
  answered := by simp [Servers.init]

theorem AnswerInv.not_refused (h : AnswerInv servers net) {env : Envelope S}
    (hnew : PID sha (servers.key env.src) ∉ ids (net.pstore env.dst).entries) :
    ¬Refused servers.toServers net env := by
  obtain ⟨added, hgrown⟩ := h.grown env.dst
  rintro (hfull | hknown)
  · exact Nat.ne_of_lt (hgrown.room hnew) hfull
  · exact hnew hknown

/-- No delivery is stopped by a fault. -/
theorem AnswerInv.processes (h : AnswerInv servers net) {i : Nat} (sendOk : Bool) (hi : i < net.flight.length) :
    (netStep servers.toServers net (.deliver i sendOk)).isSome := by
  obtain ⟨env, henv⟩ : ∃ env, net.flight[i]? = some env := ⟨_, List.getElem?_eq_getElem hi⟩
  obtain ⟨initiate, hmsg⟩ := h.honest env (List.mem_of_getElem? henv)
  have heq := handleHelloProtocol_eq (h.holds env.dst) (servers.key_lt env.src) (servers.key_lt env.dst) initiate sendOk
  have hhandled : ∃ r, handleHelloProtocol sha none (servers.server net env.dst) env.msg sendOk = .ok r := by
    rw [hmsg, Servers.server, heq]
    by_cases hr : Refused servers.toServers net env
    · rw [if_pos (show _ ∨ _ from hr)]
      exact ⟨_, rfl⟩
    · obtain ⟨added, hgrown⟩ := h.grown env.dst
      obtain ⟨pst', happ, -⟩ := hgrown.append (h.holds env.dst) fun hm => hr (.inr hm)
      rw [if_neg (show ¬(_ ∨ _) from hr), happ]
      exact ⟨_, rfl⟩
  obtain ⟨r, hr⟩ := hhandled
  simp [netStep, henv, hr]

theorem AnswerInv.netAnswered (h : AnswerInv servers net) : net.Answered servers :=
  ⟨h.answered, fun _ sendOk hi => h.processes sendOk hi⟩

/-- A message from a new sender is taken in and, when the answer can be sent, answered. -/
theorem AnswerInv.processed (h : AnswerInv servers net) {env : Envelope S} {sendOk : Bool} {r : HelloResult}
    (henv : env ∈ net.flight) (hr : Processed servers.toServers net env sendOk r)
    (hnew : PID sha (servers.key env.src) ∉ ids (net.pstore env.dst).entries)
    (hsend : env.isInt = true → sendOk = true) :
    (∃ added, Grown servers env.dst r.pstore added) ∧ r.ok = true ∧
      (env.isInt = true → r.reply = some (helloMessage sha (servers.key env.dst) false)) := by
  cases hr with
  | refused hr => exact absurd hr (h.not_refused hnew)
  | stored hr happ hholds =>
    obtain ⟨added, hgrown⟩ := h.grown env.dst
    obtain ⟨pst', happ', hgrown'⟩ := hgrown.append (h.holds env.dst) hnew
    obtain ⟨-, rfl⟩ := Prod.mk.inj (Except.ok.inj (happ.symm.trans happ'))
    refine ⟨⟨_, hgrown'⟩, ?_, ?_⟩
    · rw [h.isFin_eq henv]
      cases hint : env.isInt with
      | false => rfl
      | true => exact hsend hint
    · intro hint
      simp [hint, hsend hint]

/-- A step with a new sender keeps every message answered. -/
theorem AnswerInv.step (h : AnswerInv servers net) (hok : net.NewSender servers a)
    (hstep : netStep servers.toServers net a = some net') : AnswerInv servers net' := by
  have hcases := h.netStep_cases hstep
  have hmono : ∀ d ∈ net.delivered, d.Answered servers net' := fun d hd => (h.answered d hd).mono hcases.grows
  refine ⟨h.toNetInv.step hstep, ?_, ?_⟩
  · cases hcases with
    | initiate src dst => exact h.grown
    | lose i => exact h.grown
    | @deliver i sendOk env r henv hr =>
      obtain ⟨hnew, hsend⟩ := hok i sendOk env rfl henv
      intro s
      simp only [Net.post, Net.process, Net.take, Function.update_apply]
      split_ifs with hs
      · rw [hs]
        exact (h.processed (List.mem_of_getElem? henv) hr hnew hsend).1
      · exact h.grown s
  · cases hcases with
    | initiate src dst => exact hmono
    | lose i => exact hmono
    | @deliver i sendOk env r henv hr =>
      obtain ⟨hnew, hsend⟩ := hok i sendOk env rfl henv
      obtain ⟨-, hokr, hreply⟩ := h.processed (List.mem_of_getElem? henv) hr hnew hsend
      intro d hd
      rcases List.mem_append.mp hd with hd | hd
      · exact hmono d hd
      · obtain rfl := List.mem_singleton.mp hd
        refine ⟨hokr, ?_, hreply⟩
        simp only [Net.post, Net.process, Function.update_self]
        exact hr.known (.inl hokr)

/-- A message that was answered came from a new sender. -/
theorem AnswerInv.newSender (h : AnswerInv servers net) (hstep : netStep servers.toServers net a = some net')
    (hanswered : net'.Answered servers) : net.NewSender servers a := by
  rintro i sendOk env rfl henv
  cases h.netStep_cases hstep with
  | @deliver _ _ env' r henv' hr =>
    obtain rfl := Option.some.inj (henv'.symm.trans henv)
    have hd := hanswered.delivered ⟨env', r.ok, r.reply⟩ (List.mem_append_right _ (List.mem_singleton.mpr rfl))
    have hok : r.ok = true := hd.ok
    have hreply : env'.isInt = true → r.reply = some _ := hd.reply
    cases hr with
    | refused hr => cases hok
    | stored hr happ hholds =>
      constructor
      · intro hmem
        exact hr (.inr hmem)
      · intro hint
        have hsome := hreply hint
        rw [hint, Bool.true_and] at hsome
        by_contra hfalse
        rw [if_neg hfalse] at hsome
        cases hsome

end Answers

/-- **Answers.** In a run of hello exchanges every message delivered is processed with success and answered exactly when
no message is delivered to a server that has already stored its sender, and the answers can be sent. -/
theorem hello_answered_iff {sha : Sha256} {S : Type} [Fintype S] [DecidableEq S] (servers : RoomyServers sha S)
    (actions : List (NetAction S)) :
    Always (netStep servers.toServers) (Net.Answered servers) servers.init actions ↔
      StepsOk (netStep servers.toServers) (Net.NewSender servers) servers.init actions := by
  apply always_iff_stepsOk (J := AnswerInv servers)
  · intro net h
    exact h.netAnswered
  · intro net a net' h hok hstep
    exact h.step hok hstep
  · intro net a net' h hstep hanswered
    exact h.newSender hstep hanswered
  · exact answerInv_init servers

/-- Two servers with room for each other. -/
def twoServers (sha : Sha256) : RoomyServers sha Bool where
  key := fun s => if s then [1] else [2]
  key_lt := by decide
  pstore := fun _ => peerstoreNewPeerstore 2
  peers := fun _ => []
  holds := fun _ => holdsGenuine_new sha 2
  maxPeers_lt := by decide
  size_le := by decide
  room := by decide

/-- **A repeated hello fails**: of two exchanges started by the same server, the second is refused. -/
theorem hello_not_answered : ¬∃ sha : Sha256,
    Always (netStep (twoServers sha).toServers) (Net.Answered (twoServers sha)) (twoServers sha).init
      [.initiate true false, .initiate true false, .deliver 0 true, .deliver 0 true] := by
  rintro ⟨sha, h⟩
  -- the two messages are in flight
  have hinv₁ := (answerInv_init (twoServers sha)).step (by rintro i sendOk env ⟨⟩) (netStep_initiate _ true false)
  have hinv₂ := hinv₁.step (by rintro i sendOk env ⟨⟩) (netStep_initiate _ true false)
  have h₂ := (h.2 _ (netStep_initiate _ true false)).2 _ (netStep_initiate _ true false)
  -- the first is delivered and leaves its sender in the store
  obtain ⟨net₃, hstep₃⟩ := Option.isSome_iff_exists.mp (hinv₂.processes (i := 0) true (by simp [Net.post]))
  have h₃ := h₂.2 net₃ hstep₃
  have hinv₃ := hinv₂.step (hinv₂.newSender hstep₃ h₃.head) hstep₃
  have hnet₃ : net₃.flight[0]? = some ⟨true, false, helloMessage sha [1] true⟩ ∧
      (twoServers sha).peer true ∈ (net₃.pstore false).entries := by
    cases hinv₂.netStep_cases hstep₃ with
    | @deliver _ _ env r henv hr =>
      obtain rfl : ⟨true, false, helloMessage sha [1] true⟩ = env := Option.some.inj henv
      have hd := h₃.head.delivered ⟨_, r.ok, r.reply⟩ (List.mem_append_right _ (List.mem_singleton.mpr rfl))
      exact ⟨rfl, hd.stored⟩
  -- so the second is not from a new sender
  have hpos : 0 < net₃.flight.length := (List.getElem?_eq_some_iff.mp hnet₃.1).1
  obtain ⟨net₄, hstep₄⟩ := Option.isSome_iff_exists.mp (hinv₃.processes true hpos)
  have hnew := (hinv₃.newSender hstep₄ (h₃.2 net₄ hstep₄) 0 true _ rfl hnet₃.1).1
  exact hnew (mem_ids.mpr ⟨_, hnet₃.2, rfl⟩)

end Libcp2p

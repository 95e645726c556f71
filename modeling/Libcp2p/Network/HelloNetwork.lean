import Libcp2p.Lib.Runs
import Libcp2p.Network.Hello
import Mathlib.Logic.Function.Basic

/-!
# Hello exchanges between honest servers

A network of honest servers, each with the id of its key. Any server may send a `MESSAGE_HELLO_INT` to any server at any
time; a message in flight may be delivered at any time, in any order, or lost; each delivery is processed by
`handleHelloProtocol`, whose answer goes back to the sender. The network keeps a record of what was sent and of every
delivery with its result.

`hello_agreement`: in every reachable state a `MESSAGE_HELLO_FIN` comes only from a server that has stored its
addressee, so that a server that has processed one and its sender know each other; stores only grow; and no server
sends more `MESSAGE_HELLO_FIN` than it was delivered `MESSAGE_HELLO_INT`.
-/

namespace Libcp2p

/-- Honest servers: their keys, short enough for a hello message, and the peerstores they start with. -/
structure Servers (sha : Sha256) (S : Type) where
  key : S → List UInt8
  key_lt : ∀ s, (key s).length < 2 ^ 31
  pstore : S → Peerstore
  /-- the peers known before -/
  peers : S → List Peer
  holds : ∀ s, HoldsGenuine sha (pstore s) (peers s)

/-- A message on its way. -/
structure Envelope (S : Type) where
  src : S
  dst : S
  msg : Message

/-- A processed message, the result of its handler and the answer it sent. -/
structure Delivery (S : Type) where
  env : Envelope S
  ok : Bool
  reply : Option Message

/-- The peerstores, the messages in flight, and the messages sent and processed so far. -/
structure Net (S : Type) where
  pstore : S → Peerstore
  flight : List (Envelope S)
  sent : List (Envelope S)
  delivered : List (Delivery S)

/-- What can happen: a server starts an exchange, or a message in flight is delivered or lost. -/
inductive NetAction (S : Type)
  | initiate (src dst : S)
  | deliver (i : Nat) (sendOk : Bool)
  | lose (i : Nat)

section Network

variable {sha : Sha256} {S : Type} (servers : Servers sha S)

/-- The server `s` in the network. -/
def Servers.server (net : Net S) (s : S) : Server := ⟨PID sha (servers.key s), servers.key s, net.pstore s⟩

/-- The server as an entry of a peerstore. -/
def Servers.peer (s : S) : Peer := ⟨PID sha (servers.key s), servers.key s⟩

/-- The network before the first exchange. -/
def Servers.init : Net S := ⟨servers.pstore, [], [], []⟩

/-- The envelopes of the answer to `env`. -/
def Envelope.answer (env : Envelope S) (reply : Option Message) : List (Envelope S) :=
  reply.toList.map fun msg => ⟨env.dst, env.src, msg⟩

/-- The network puts the messages `envs` into flight. -/
def Net.post (net : Net S) (envs : List (Envelope S)) : Net S :=
  { net with flight := net.flight ++ envs, sent := net.sent ++ envs }

/-- The message at `i` leaves the flight. -/
def Net.take (net : Net S) (i : Nat) : Net S := { net with flight := net.flight.eraseIdx i }

variable [DecidableEq S]

/-- The receiver of `env` has processed it with result `r`. -/
def Net.process (net : Net S) (env : Envelope S) (r : HelloResult) : Net S :=
  { net with
    pstore := Function.update net.pstore env.dst r.pstore
    delivered := net.delivered ++ [⟨env, r.ok, r.reply⟩] }

/-- The hello message with which `s` starts an exchange, as `new_server_message_hello_t` and
`message_hello_t_to_message_t` build it. -/
def Servers.buildHello (net : Net S) (s : S) : Except Fault (Option Message) := do
  let msgHello ← newServerMessageHelloT (servers.server net s)
  messageHelloTToMessageT none msgHello true

/-- One step of the network; a fault of a server is not a step. -/
def netStep (net : Net S) : NetAction S → Option (Net S)
  | .initiate src dst =>
    match servers.buildHello net src with
    | .ok msg => some (net.post (msg.toList.map fun msg => ⟨src, dst, msg⟩))
    | .error _ => none
  | .deliver i sendOk =>
    match net.flight[i]? with
    | none => none
    | some env =>
      match handleHelloProtocol sha none (servers.server net env.dst) env.msg sendOk with
      | .ok r => some (((net.take i).process env r).post (env.answer r.reply))
      | .error _ => none
  | .lose i => if i < net.flight.length then some (net.take i) else none

end Network

/-! ## Messages and counts -/

/-- A `MESSAGE_HELLO_INT`. -/
def Envelope.isInt {S : Type} (env : Envelope S) : Bool := env.msg.type = MessageTypes.helloInt.code

/-- A `MESSAGE_HELLO_FIN`. -/
def Envelope.isFin {S : Type} (env : Envelope S) : Bool := env.msg.type = MessageTypes.helloFin.code

section Counts

variable {S : Type} {sha : Sha256} {key : List UInt8} {src dst s : S} {net : Net S}

@[simp] theorem isFin_helloMessage (initiate : Bool) :
    (⟨src, dst, helloMessage sha key initiate⟩ : Envelope S).isFin = !initiate := by
  cases initiate <;> rfl

variable [DecidableEq S]

/-- The number of `MESSAGE_HELLO_FIN` that `s` has sent. -/
def Net.finSent (net : Net S) (s : S) : Nat := net.sent.countP fun env => env.src = s && env.isFin

/-- The number of `MESSAGE_HELLO_INT` that `s` has been delivered. -/
def Net.intDelivered (net : Net S) (s : S) : Nat := net.delivered.countP fun d => d.env.dst = s && d.env.isInt

theorem finSent_post (envs : List (Envelope S)) :
    (net.post envs).finSent s = net.finSent s + envs.countP fun env => env.src = s && env.isFin := by
  simp [Net.finSent, Net.post]

theorem intDelivered_process (env : Envelope S) (r : HelloResult) :
    (net.process env r).intDelivered s = net.intDelivered s + if env.dst = s && env.isInt then 1 else 0 := by
  simp [Net.intDelivered, Net.process, List.countP_cons]

end Counts

/-! ## The handler on the messages of honest servers -/

section Processing

variable {sha : Sha256} {S : Type} (servers : Servers sha S)

/-- The receiver of a hello message refuses it. -/
def Refused (net : Net S) (env : Envelope S) : Prop :=
  (net.pstore env.dst).entries.length = (net.pstore env.dst).maxPeers ∨
    PID sha (servers.key env.src) ∈ ids (net.pstore env.dst).entries

/-- What processing the hello message `env` can do. -/
inductive Processed (net : Net S) (env : Envelope S) (sendOk : Bool) : HelloResult → Prop
  | refused (hr : Refused servers net env) : Processed net env sendOk ⟨false, net.pstore env.dst, none⟩
  | stored {pst' : Peerstore} (hr : ¬Refused servers net env)
      (happ : appendPeer .success (net.pstore env.dst) (PID sha (servers.key env.src)) (servers.key env.src) =
        .ok (true, pst'))
      (hholds : HoldsGenuine sha pst' ((net.pstore env.dst).entries ++ [servers.peer env.src])) :
      Processed net env sendOk ⟨env.isFin || sendOk, pst',
        if env.isInt && sendOk then some (helloMessage sha (servers.key env.dst) false) else none⟩

variable {servers} {net : Net S} {env : Envelope S} {sendOk : Bool} {r : HelloResult}

/-- **Handler.** A message of an honest server is processed in one of these ways. -/
theorem processed_of_honest {initiate : Bool}
    (hpst : HoldsGenuine sha (net.pstore env.dst) (net.pstore env.dst).entries)
    (hmsg : env.msg = helloMessage sha (servers.key env.src) initiate)
    (hr : handleHelloProtocol sha none (servers.server net env.dst) env.msg sendOk = .ok r) :
    Processed servers net env sendOk r := by
  have hint : env.isInt = initiate := by rw [Envelope.isInt, hmsg]; cases initiate <;> rfl
  have hfin : env.isFin = !initiate := by rw [Envelope.isFin, hmsg]; cases initiate <;> rfl
  rw [hmsg, Servers.server,
    handleHelloProtocol_eq hpst (servers.key_lt env.src) (servers.key_lt env.dst) initiate sendOk, ← hfin, ← hint] at hr
  by_cases hrefused : Refused servers net env
  · rw [if_pos (show _ ∨ _ from hrefused)] at hr
    cases hr
    exact .refused hrefused
  · rw [if_neg (show ¬(_ ∨ _) from hrefused)] at hr
    cases happ : appendPeer .success (net.pstore env.dst) (PID sha (servers.key env.src)) (servers.key env.src) with
    | error fault =>
      rw [happ] at hr
      cases hr
    | ok p =>
      obtain ⟨ok, pst'⟩ := p
      obtain ⟨rfl, hholds, -, -⟩ := holds_of_appendPeer hpst.toHolds happ
      rw [happ] at hr
      cases hr
      exact .stored hrefused happ (hpst.snoc hholds)

namespace Processed

/-- The store of a receiver only grows. -/
theorem grows (hr : Processed servers net env sendOk r) : (net.pstore env.dst).entries <+: r.pstore.entries := by
  cases hr with
  | refused hr => exact List.prefix_rfl
  | stored hr happ hholds =>
    rw [hholds.entries_eq]
    exact List.prefix_append _ _

theorem holds (hpst : HoldsGenuine sha (net.pstore env.dst) (net.pstore env.dst).entries)
    (hr : Processed servers net env sendOk r) : HoldsGenuine sha r.pstore r.pstore.entries := by
  cases hr with
  | refused hr => exact hpst
  | stored hr happ hholds =>
    rw [hholds.entries_eq]
    exact hholds

/-- A message that is not refused leaves its sender in the store. -/
theorem known (hr : Processed servers net env sendOk r) (hok : r.ok = true ∨ r.reply.isSome) :
    servers.peer env.src ∈ r.pstore.entries := by
  cases hr with
  | refused hr => simp at hok
  | stored hr happ hholds =>
    rw [hholds.entries_eq]
    exact List.mem_append_right _ (List.mem_singleton.mpr rfl)

/-- An answer is a `MESSAGE_HELLO_FIN`, to a `MESSAGE_HELLO_INT`. -/
theorem reply_eq {msg : Message} (hr : Processed servers net env sendOk r) (hmsg : r.reply = some msg) :
    msg = helloMessage sha (servers.key env.dst) false ∧ env.isInt = true := by
  cases hr with
  | refused hr => cases hmsg
  | stored hr happ hholds =>
    simp only at hmsg
    split_ifs at hmsg with hint
    rw [Bool.and_eq_true] at hint
    exact ⟨(Option.some.inj hmsg).symm, hint.1⟩

end Processed

end Processing

/-! ## Safety -/

section Safety

variable {sha : Sha256} {S : Type} [DecidableEq S] (servers : Servers sha S)

/-- What holds in a reachable state of the network. -/
structure NetSafe (net : Net S) : Prop where
  /-- a `MESSAGE_HELLO_FIN` in flight or processed comes from a server that has stored its addressee -/
  fin_known : ∀ env, env ∈ net.flight ∨ env ∈ net.delivered.map Delivery.env → env.isFin = true →
    servers.peer env.dst ∈ (net.pstore env.src).entries
  /-- entries stay as they are, whatever happens afterwards -/
  stored : ∀ actions net', run (netStep servers) net actions = some net' →
    ∀ s, (net.pstore s).entries <+: (net'.pstore s).entries
  /-- once a `MESSAGE_HELLO_FIN` has been processed with success, its sender and receiver have stored each other -/
  agreement : ∀ d ∈ net.delivered, d.env.isFin = true → d.ok = true →
    servers.peer d.env.src ∈ (net.pstore d.env.dst).entries ∧ servers.peer d.env.dst ∈ (net.pstore d.env.src).entries
  fin_count : ∀ s, net.finSent s ≤ net.intDelivered s
  /-- processing a `MESSAGE_HELLO_FIN` sends nothing -/
  fin_silent : ∀ i sendOk env net', net.flight[i]? = some env → env.isFin = true →
    netStep servers net (.deliver i sendOk) = some net' → net'.sent = net.sent

/-- The invariant of the network. -/
structure NetInv (net : Net S) : Prop where
  holds : ∀ s, HoldsGenuine sha (net.pstore s) (net.pstore s).entries
  honest : ∀ env ∈ net.flight, ∃ initiate, env.msg = helloMessage sha (servers.key env.src) initiate
  fin_known : ∀ env, env ∈ net.flight ∨ env ∈ net.delivered.map Delivery.env → env.isFin = true →
    servers.peer env.dst ∈ (net.pstore env.src).entries
  ok_known : ∀ d ∈ net.delivered, d.ok = true → servers.peer d.env.src ∈ (net.pstore d.env.dst).entries
  fin_count : ∀ s, net.finSent s ≤ net.intDelivered s

/-- What a step of the network can be. -/
inductive NetStep (net : Net S) : NetAction S → Net S → Prop
  | initiate (src dst : S) :
    NetStep net (.initiate src dst) (net.post [⟨src, dst, helloMessage sha (servers.key src) true⟩])
  | deliver (i : Nat) {sendOk : Bool} {env : Envelope S} {r : HelloResult} (henv : net.flight[i]? = some env)
    (hr : Processed servers net env sendOk r) :
    NetStep net (.deliver i sendOk) (((net.take i).process env r).post (env.answer r.reply))
  | lose (i : Nat) : NetStep net (.lose i) (net.take i)

variable {servers} {net net' : Net S} {a : NetAction S}

/-- A message in flight has one of the two types. -/
theorem NetInv.isFin_eq (h : NetInv servers net) {env : Envelope S} (henv : env ∈ net.flight) :
    env.isFin = !env.isInt := by
  obtain ⟨initiate, hmsg⟩ := h.honest env henv
  rw [Envelope.isFin, Envelope.isInt, hmsg]
  cases initiate <;> rfl

theorem netStep_initiate (net : Net S) (src dst : S) :
    netStep servers net (.initiate src dst) =
      some (net.post [⟨src, dst, helloMessage sha (servers.key src) true⟩]) := by
  have hbuild : servers.buildHello net src = .ok (some (helloMessage sha (servers.key src) true)) := by
    rw [Servers.buildHello, newServerMessageHelloT, Servers.server, newMessageHelloT_eq, ok_bind]
    exact messageHelloTToMessageT_eq (servers.key_lt src) (by simp) true
  simp only [netStep, hbuild]
  rfl

theorem NetInv.netStep_cases (h : NetInv servers net) (hstep : netStep servers net a = some net') :
    NetStep servers net a net' := by
  cases a with
  | initiate src dst =>
    rw [netStep_initiate] at hstep
    cases hstep
    exact .initiate src dst
  | deliver i sendOk =>
    cases henv : net.flight[i]? with
    | none =>
      simp only [netStep, henv] at hstep
      cases hstep
    | some env =>
      cases hr : handleHelloProtocol sha none (servers.server net env.dst) env.msg sendOk with
      | error fault =>
        simp only [netStep, henv, hr] at hstep
        cases hstep
      | ok r =>
        simp only [netStep, henv, hr, Option.some.injEq] at hstep
        subst hstep
        obtain ⟨initiate, hmsg⟩ := h.honest env (List.mem_of_getElem? henv)
        exact .deliver i henv (processed_of_honest (h.holds env.dst) hmsg hr)
  | lose i =>
    simp only [netStep] at hstep
    split_ifs at hstep
    cases hstep
    exact .lose i

namespace NetStep

/-- Stores only grow. -/
theorem grows (h : NetStep servers net a net') (s : S) : (net.pstore s).entries <+: (net'.pstore s).entries := by
  cases h with
  | initiate src dst => exact List.prefix_rfl
  | lose i => exact List.prefix_rfl
  | @deliver i sendOk env r henv hr =>
    simp only [Net.post, Net.process, Net.take, Function.update_apply]
    split_ifs with hs
    · rw [hs]
      exact hr.grows
    · exact List.prefix_rfl

theorem holds (hinv : NetInv servers net) (h : NetStep servers net a net') (s : S) :
    HoldsGenuine sha (net'.pstore s) (net'.pstore s).entries := by
  cases h with
  | initiate src dst => exact hinv.holds s
  | lose i => exact hinv.holds s
  | @deliver i sendOk env r henv hr =>
    simp only [Net.post, Net.process, Net.take, Function.update_apply]
    split_ifs with hs
    · exact hr.holds (hinv.holds env.dst)
    · exact hinv.holds s

/-- A message in flight was there before, or is the hello of its sender; a `MESSAGE_HELLO_FIN` goes to a server that its
sender has stored. -/
theorem flight (h : NetStep servers net a net') {env : Envelope S} (henv : env ∈ net'.flight) :
    env ∈ net.flight ∨ ∃ initiate, env.msg = helloMessage sha (servers.key env.src) initiate ∧
      (env.isFin = true → servers.peer env.dst ∈ (net'.pstore env.src).entries) := by
  cases h with
  | initiate src dst =>
    rcases List.mem_append.mp henv with henv | henv
    · exact .inl henv
    · obtain rfl := List.mem_singleton.mp henv
      exact .inr ⟨true, rfl, by simp⟩
  | lose i => exact .inl (List.mem_of_mem_eraseIdx henv)
  | @deliver i sendOk env₀ r henv₀ hr =>
    rcases List.mem_append.mp henv with henv | henv
    · exact .inl (List.mem_of_mem_eraseIdx henv)
    · -- the answer of the receiver
      obtain ⟨msg, hmsg, rfl⟩ := List.mem_map.mp henv
      have hreply : r.reply = some msg := by simpa using hmsg
      obtain ⟨rfl, -⟩ := hr.reply_eq hreply
      refine .inr ⟨false, rfl, fun _ => ?_⟩
      simp only [Net.post, Net.process, Function.update_self]
      exact hr.known (.inr (by rw [hreply]; rfl))

/-- A delivery was recorded before, or is of a message that was in flight; one with success leaves the sender in the
store. -/
theorem delivered (h : NetStep servers net a net') {d : Delivery S} (hd : d ∈ net'.delivered) :
    d ∈ net.delivered ∨ d.env ∈ net.flight ∧
      (d.ok = true → servers.peer d.env.src ∈ (net'.pstore d.env.dst).entries) := by
  cases h with
  | initiate src dst => exact .inl hd
  | lose i => exact .inl hd
  | @deliver i sendOk env r henv hr =>
    rcases List.mem_append.mp hd with hd | hd
    · exact .inl hd
    · obtain rfl := List.mem_singleton.mp hd
      refine .inr ⟨List.mem_of_getElem? henv, fun hok => ?_⟩
      simp only [Net.post, Net.process, Function.update_self]
      exact hr.known (.inl hok)

/-- A `MESSAGE_HELLO_FIN` is sent only for a `MESSAGE_HELLO_INT` delivered. -/
theorem fin_count (h : NetStep servers net a net') (s : S) :
    net'.finSent s + net.intDelivered s ≤ net.finSent s + net'.intDelivered s := by
  cases h with
  | initiate src dst =>
    rw [finSent_post]
    simp [Net.post, Net.intDelivered]
  | lose i => exact Nat.le_refl _
  | @deliver i sendOk env r henv hr =>
    have hsent : (((net.take i).process env r).post (env.answer r.reply)).finSent s =
        net.finSent s + (env.answer r.reply).countP fun e => e.src = s && e.isFin := finSent_post _
    have hint : (((net.take i).process env r).post (env.answer r.reply)).intDelivered s =
        net.intDelivered s + if env.dst = s && env.isInt then 1 else 0 := intDelivered_process _ _
    rw [hsent, hint]
    cases hreply : r.reply with
    | none =>
      simp only [Envelope.answer, Option.toList_none, List.map_nil, List.countP_nil]
      omega
    | some msg =>
      obtain ⟨rfl, hi⟩ := hr.reply_eq hreply
      simp only [Envelope.answer, Option.toList_some, List.map_cons, List.map_nil, List.countP_cons, List.countP_nil,
        hi, isFin_helloMessage, Bool.not_false]
      omega

/-- Processing a `MESSAGE_HELLO_FIN` sends nothing. -/
theorem fin_silent {i : Nat} {sendOk : Bool} {env : Envelope S} (h : NetStep servers net (.deliver i sendOk) net')
    (henv : net.flight[i]? = some env) (hfin : env.isFin = true) : net'.sent = net.sent := by
  cases h with
  | @deliver _ _ env' r henv' hr =>
    obtain rfl := Option.some.inj (henv'.symm.trans henv)
    have hreply : r.reply = none := by
      cases hreply : r.reply with
      | none => rfl
      | some msg =>
        -- a message is not of both types
        have hint := (hr.reply_eq hreply).2
        simp only [Envelope.isInt, Envelope.isFin, decide_eq_true_eq] at hint hfin
        rw [hint] at hfin
        cases hfin
    simp [Net.post, Net.process, Net.take, Envelope.answer, hreply]

end NetStep

/-- **One step** keeps the invariant. -/
theorem NetInv.step (h : NetInv servers net) (hstep : netStep servers net a = some net') : NetInv servers net' := by
  have hcases := h.netStep_cases hstep
  have hmem : ∀ {s t}, servers.peer t ∈ (net.pstore s).entries → servers.peer t ∈ (net'.pstore s).entries :=
    fun hp => (hcases.grows _).subset hp
  constructor
  · exact hcases.holds h
  · intro env henv
    rcases hcases.flight henv with henv | ⟨initiate, hmsg, -⟩
    · exact h.honest env henv
    · exact ⟨initiate, hmsg⟩
  · rintro env (henv | henv) hfin
    · rcases hcases.flight henv with henv | ⟨-, -, hknown⟩
      · exact hmem (h.fin_known env (.inl henv) hfin)
      · exact hknown hfin
    · obtain ⟨d, hd, rfl⟩ := List.mem_map.mp henv
      rcases hcases.delivered hd with hd | ⟨henv, -⟩
      · exact hmem (h.fin_known d.env (.inr (List.mem_map.mpr ⟨d, hd, rfl⟩)) hfin)
      · exact hmem (h.fin_known d.env (.inl henv) hfin)
  · intro d hd hok
    rcases hcases.delivered hd with hd | ⟨-, hknown⟩
    · exact hmem (h.ok_known d hd hok)
    · exact hknown hok
  · intro s
    have := hcases.fin_count s
    have := h.fin_count s
    omega

theorem netInv_init (servers : Servers sha S) : NetInv servers servers.init where
  holds := by
    intro s
    have h := servers.holds s
    simp only [Servers.init]
    rw [h.entries_eq]
    exact h
  honest := by simp [Servers.init]
  fin_known := by simp [Servers.init]
  ok_known := by simp [Servers.init]
  fin_count := by simp [Servers.init, Net.finSent, Net.intDelivered]

/-- **Runs.** Stores only grow along a run. -/
theorem NetInv.run_grows {actions : List (NetAction S)} (h : NetInv servers net)
    (hrun : run (netStep servers) net actions = some net') (s : S) :
    (net.pstore s).entries <+: (net'.pstore s).entries := by
  induction actions generalizing net with
  | nil =>
    cases hrun
    exact List.prefix_rfl
  | cons a actions ih =>
    obtain ⟨net₁, hstep, hrun⟩ := Option.bind_eq_some_iff.mp hrun
    exact ((h.netStep_cases hstep).grows s).trans (ih (h.step hstep) hrun)

theorem NetInv.safe (h : NetInv servers net) : NetSafe servers net where
  fin_known := h.fin_known
  stored := fun _ _ hrun s => h.run_grows hrun s
  agreement := by
    intro d hd hfin hok
    exact ⟨h.ok_known d hd hok, h.fin_known d.env (.inr (List.mem_map.mpr ⟨d, hd, rfl⟩)) hfin⟩
  fin_count := h.fin_count
  fin_silent := fun _ _ _ _ henv hfin hstep => (h.netStep_cases hstep).fin_silent henv hfin

end Safety

/-- **Agreement.** Every state that honest servers reach by exchanging hello messages in any order, with any losses, is
safe. -/
theorem hello_agreement {sha : Sha256} {S : Type} [DecidableEq S] (servers : Servers sha S)
    (actions : List (NetAction S)) : Always (netStep servers) (NetSafe servers) servers.init actions := by
  apply Always.mono (I := NetInv servers)
  · intro net h
    exact h.safe
  · apply always_of_step
    · intro net a net' h hstep
      exact h.step hstep
    · exact netInv_init servers

end Libcp2p

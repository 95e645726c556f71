import Libcp2p.Network.MessageRoundTrip
import Libcp2p.Lib.Runs

/-!
# Messages on a TCP connection

`handle_send` writes a message as four bytes of length and its CBOR encoding. `handle_receive` reads the length in a
loop and then calls `recv` once, for as many bytes as its buffer holds. A connection is the bytes sent and not yet
received; every `recv` returns some of them, at least one and at most as many as asked for.

`framing_iff`: over a whole connection the messages received are the messages sent exactly when every call's single
`recv` for the body returns just that message. A `recv` that returns less makes the call fail, and one that returns more
loses the start of the next frame, from which the receiver never recovers.
-/

namespace Libcp2p

open Cbor

/-! ## Sending and receiving -/

/-- What a `recv` of `receive_int_tcp` does. -/
inductive RecvEvent
  /-- it returns as many bytes as this, but at least one and at most as many as it was asked for and there are; at the
  end of the stream, where it returns 0, `errno` has none of the values of `retry` -/
  | bytes (amount : Nat)
  /-- it fails with `EAGAIN`, `EWOULDBLOCK` or `EINTR`, or returns 0 when an earlier call has left one of them in
  `errno` -/
  | retry
  /-- it fails otherwise -/
  | fail
  /-- `do_shutdown` is set before it is called -/
  | shutdown
  deriving DecidableEq, Repr

/-- How many bytes `recv` returns. -/
def recvLength (asked amount available : Nat) : Nat := min (min (max 1 amount) asked) available

/-- `recv`: the bytes it returns and the rest of the stream. -/
def recv (stream : List UInt8) (asked amount : Nat) : List UInt8 × List UInt8 :=
  (stream.take (recvLength asked amount stream.length), stream.drop (recvLength asked amount stream.length))

/-- `receive_int_tcp`, with `left` bytes still to read after `data`: the bytes, or `none` for failure. Without a further
event it waits for ever. -/
def receiveIntTcp : List RecvEvent → Nat → List UInt8 → List UInt8 → Except Fault (Option (List UInt8) × List UInt8)
  | [], _, _, _ => .error .diverge
  | .shutdown :: _, _, _, stream => .ok (none, stream)
  | .fail :: _, _, _, stream => .ok (none, stream)
  | .retry :: events, left, data, stream => receiveIntTcp events left data stream
  | .bytes amount :: events, left, data, stream =>
    let (bytes, stream) := recv stream left amount
    if bytes.length = 0 then .ok (none, stream)
    else if left - bytes.length = 0 then .ok (some (data ++ bytes), stream)
    else receiveIntTcp events (left - bytes.length) (data ++ bytes) stream

/-- `MAX_RPC_MSG_SIZE_KB`. -/
def MAX_RPC_MSG_SIZE_KB : Nat := 8192

/-- What the socket does during one `handle_receive`: the events of the length, and the `recv` of the body, which fails
if it is `none`. -/
structure ReceiveEvents where
  header : List RecvEvent
  body : Option Nat
  deriving DecidableEq, Repr

/-- The lengths `handle_receive` rejects: not positive, or above the largest message or the buffer. -/
def invalidSize (messageSize : Int) (maxBufferLen : Nat) : Bool :=
  messageSize ≤ 0 ∨ messageSize ≥ MAX_RPC_MSG_SIZE_KB ∨ messageSize > toInt32 maxBufferLen

/-- The second half of `handle_receive`, once the length is accepted: one `recv` into the buffer, and the decoder. -/
def receiveBody (stack : Option Nat) (maxBufferLen : Nat) (stream : List UInt8) (body : Option Nat) :
    Except Fault (Option Message × List UInt8) :=
  if onStack stack maxBufferLen then
    match body with
    | none => .ok (none, stream)
    | some amount =>
      let (buffer, stream) := recv stream maxBufferLen amount
      if buffer.length = 0 then .ok (none, stream)
      else do
        let msg ← cborDecodeMessageT stack buffer
        return (msg, stream)
  else .error (.stackBuffer maxBufferLen)

/-- `handle_receive`: the message or a null pointer, and the rest of the stream. -/
def handleReceive (stack : Option Nat) (maxBufferLen : Nat) (stream : List UInt8) (events : ReceiveEvents) :
    Except Fault (Option Message × List UInt8) := do
  match ← receiveIntTcp events.header 4 [] stream with
  | (none, stream) => .ok (none, stream)
  | (some bytes, stream) =>
    if invalidSize (toInt32 (beNat bytes)) maxBufferLen then .ok (none, stream)
    else receiveBody stack maxBufferLen stream events.body

/-- `handle_send` on a connection whose `send` takes all it is given: whether it succeeds, and the stream. -/
def handleSend (stack : Option Nat) (stream : List UInt8) (msg : Message) : Except Fault (Bool × List UInt8) := do
  match ← cborEncodeMessageT stack msg with
  | none => return (false, stream)
  | some cbor =>
    if !onStack stack cbor.length then .error (.stackBuffer cbor.length)
    else return (true, stream ++ (beBytes 4 cbor.length ++ cbor))

/-! ## Connections -/

/-- A message with a defined type, data, and an encoding that `handle_receive` accepts. -/
structure WireMessage where
  type : MessageTypes
  data : List UInt8
  nonempty : 1 ≤ data.length
  short : (messageBytes ⟨type.code, data⟩).length < MAX_RPC_MSG_SIZE_KB

/-- The message. -/
def WireMessage.msg (m : WireMessage) : Message := ⟨m.type.code, m.data⟩

/-- How the stream is split for one `handle_receive`: the amounts of the reads for the length, of which there are
enough, and the amount of the read for the body. -/
structure Split where
  header : List Nat
  enough : 4 ≤ header.length
  body : Nat

/-- The events of a split. -/
def Split.events (s : Split) : ReceiveEvents := ⟨s.header.map .bytes, some s.body⟩

/-- The messages sent one after another are received one after another, with `n` the size of the receive buffer. -/
def Delivered (n : Nat) (calls : List (WireMessage × Split)) : Prop :=
  ∃ stream rest,
    outs (handleSend none) [] (calls.map (·.1.msg)) = .ok (calls.map fun _ => true, stream) ∧
    outs (handleReceive none n) stream (calls.map (·.2.events)) = .ok (calls.map (some ·.1.msg), rest)

/-- A message on the wire. -/
def frame (m : Message) : List UInt8 := beBytes 4 (messageBytes m).length ++ messageBytes m

/-- The messages of a connection on the wire. -/
def wire (calls : List (WireMessage × Split)) : List UInt8 := calls.flatMap (frame ·.1.msg)

/-- Every `recv` for a body returns just the body of that message. -/
def BodiesExact (n : Nat) : List (WireMessage × Split) → Prop
  | [] => True
  | (m, s) :: calls =>
    recvLength n s.body ((messageBytes m.msg).length + (wire calls).length) = (messageBytes m.msg).length ∧
      BodiesExact n calls

/-! ## One call -/

section Call

variable {stream : List UInt8}

/-- `recv` takes some bytes from the front of the stream. -/
theorem recv_spec (stream : List UInt8) (asked amount : Nat) :
    ∃ n, recv stream asked amount = (stream.take n, stream.drop n) ∧ n ≤ stream.length ∧ n ≤ asked ∧
      (0 < asked → 0 < stream.length → 0 < n) :=
  ⟨_, rfl, by unfold recvLength; omega, by unfold recvLength; omega, by unfold recvLength; omega⟩

/-- `receive_int_tcp` reads the next bytes of the stream, however they are split. -/
theorem receiveIntTcp_bytes (data : List UInt8) {amounts : List Nat} {left : Nat} (hpos : 0 < left)
    (hamounts : left ≤ amounts.length) (hstream : left ≤ stream.length) :
    receiveIntTcp (amounts.map .bytes) left data stream = .ok (some (data ++ stream.take left), stream.drop left) := by
  induction amounts generalizing left data stream with
  | nil => simp at hamounts; omega
  | cons a amounts ih =>
    obtain ⟨n, hrecv, hlen, hle, hn⟩ := recv_spec stream left a
    specialize hn hpos (by omega)
    have htake : (stream.take n).length = n := by simpa using hlen
    rw [List.map_cons, receiveIntTcp, hrecv]
    simp only [htake]
    rw [if_neg (by omega)]
    by_cases hdone : left - n = 0
    · obtain rfl : left = n := by omega
      rw [if_pos hdone]
    · rw [if_neg hdone, ih _ (by omega) (by simp at hamounts; omega) (by simp; omega), List.drop_drop,
        List.append_assoc, ← List.take_add, Nat.add_sub_cancel' hle]

/-- `receive_int_tcp` fails on a stream that ends too early. -/
theorem receiveIntTcp_short (data : List UInt8) {amounts : List Nat} {left : Nat} (hamounts : left ≤ amounts.length)
    (hstream : stream.length < left) :
    ∃ rest, receiveIntTcp (amounts.map .bytes) left data stream = .ok (none, rest) := by
  induction amounts generalizing left data stream with
  | nil => simp at hamounts; omega
  | cons a amounts ih =>
    obtain ⟨n, hrecv, hlen, -, hn⟩ := recv_spec stream left a
    have htake : (stream.take n).length = n := by simpa using hlen
    rw [List.map_cons, receiveIntTcp, hrecv]
    simp only [htake]
    by_cases hz : n = 0
    · exact ⟨_, by rw [if_pos hz]⟩
    · rw [if_neg hz, if_neg (by omega)]
      exact ih _ (by simp at hamounts; omega) (by simp; omega)

/-- With a buffer of the size of the largest message, the lengths from 1 up to it are accepted. -/
theorem invalidSize_eq_false {size : Int} :
    invalidSize size MAX_RPC_MSG_SIZE_KB = false ↔ 0 < size ∧ size < MAX_RPC_MSG_SIZE_KB := by
  have h : toInt32 (MAX_RPC_MSG_SIZE_KB : Nat) = (MAX_RPC_MSG_SIZE_KB : Nat) := by
    unfold MAX_RPC_MSG_SIZE_KB toInt32; omega
  simp only [invalidSize, h, decide_eq_false_iff_not]
  omega

/-- `handle_receive` after the length. -/
theorem handleReceive_bytes {N : Nat} (s : Split) (hstream : 4 ≤ stream.length) :
    handleReceive none N stream s.events =
      if invalidSize (toInt32 (beNat (stream.take 4))) N then .ok (none, stream.drop 4)
      else receiveBody none N (stream.drop 4) (some s.body) := by
  have he := receiveIntTcp_bytes [] (by decide : 0 < 4) s.enough hstream
  rw [List.nil_append] at he
  rw [handleReceive, Split.events, he, ok_bind]

/-- The body is what one `recv` returns, and the message what that decodes to. -/
theorem receiveBody_eq {N : Nat} (amount : Nat) (hN : 0 < N) (hstream : stream ≠ []) :
    ∃ n, n = recvLength N amount stream.length ∧ 0 < n ∧ n ≤ stream.length ∧
      receiveBody none N stream (some amount) = (cborDecodeMessageT none (stream.take n)).map (·, stream.drop n) := by
  have hlen := List.length_pos_iff.mpr hstream
  have hpos : 0 < recvLength N amount stream.length := by unfold recvLength; omega
  have hle : recvLength N amount stream.length ≤ stream.length := by unfold recvLength; omega
  refine ⟨recvLength N amount stream.length, rfl, hpos, hle, ?_⟩
  have hstack : onStack none (N : Int) = true := by simp [onStack]
  have hne : (recv stream N amount).1.length ≠ 0 := by
    rw [recv, List.length_take]
    omega
  rw [receiveBody, hstack, if_pos rfl]
  dsimp only
  rw [if_neg hne]
  rfl

/-- At the end of the stream the call fails. -/
theorem receiveBody_nil {N amount : Nat} : receiveBody none N [] (some amount) = .ok (none, []) := by
  simp [receiveBody, onStack, recv]

/-- A message is received only where a length is accepted and the body decodes to it. -/
theorem handleReceive_some {N : Nat} (hN : 0 < N) {s : Split} {m : Message} {rest : List UInt8}
    (h : handleReceive none N stream s.events = .ok (some m, rest)) :
    invalidSize (toInt32 (beNat (stream.take 4))) N = false ∧
    ∃ n, 0 < n ∧ 4 + n ≤ stream.length ∧ rest = stream.drop (4 + n) ∧
      cborDecodeMessageT none ((stream.drop 4).take n) = .ok (some m) := by
  rcases Nat.lt_or_ge stream.length 4 with hshort | hlong
  · obtain ⟨rest', he⟩ := receiveIntTcp_short [] s.enough hshort
    rw [handleReceive, Split.events, he] at h
    cases h
  · rw [handleReceive_bytes s hlong] at h
    split_ifs at h with hsize
    · cases h
    refine ⟨Bool.eq_false_iff.mpr hsize, ?_⟩
    by_cases hnil : stream.drop 4 = []
    · rw [hnil, receiveBody_nil] at h
      cases h
    · obtain ⟨n, -, hpos, hle, he⟩ := receiveBody_eq s.body hN hnil
      rw [he] at h
      rw [List.length_drop] at hle
      refine ⟨n, hpos, by omega, ?_⟩
      cases hd : cborDecodeMessageT none ((stream.drop 4).take n) with
      | error f => rw [hd] at h; cases h
      | ok r =>
        rw [hd] at h
        simp only [Except.map, Except.ok.injEq, Prod.mk.injEq, List.drop_drop] at h
        exact ⟨h.2.symm, by rw [h.1]⟩

end Call

/-! ## Whole connections -/

section Connection

variable {m : WireMessage} {s : Split} {calls : List (WireMessage × Split)}

/-- The encoding of a message, as it is, is at least as long as its data. -/
theorem WireMessage.length_lt (m : WireMessage) : m.data.length < 8192 := by
  have h := m.short
  simp only [messageBytes, List.length_append, MAX_RPC_MSG_SIZE_KB] at h
  omega

theorem WireMessage.encodableType (m : WireMessage) : EncodableType m.msg.type := encodableType_code m.type

/-- `handle_send` puts one frame on the wire. -/
theorem handleSend_eq (m : WireMessage) (stream : List UInt8) :
    handleSend none stream m.msg = .ok (true, stream ++ frame m.msg) := by
  have hty := m.encodableType
  have hlen := m.length_lt
  have henc : cborEncodeMessageT none m.msg = .ok (some (messageBytes m.msg)) := by
    refine cborEncodeMessageT_eq ?_ ?_ (by simp)
    · unfold EncodableType at hty
      omega
    · simp only [WireMessage.msg]
      omega
  simp [handleSend, henc, onStack, frame]

theorem wire_cons : wire ((m, s) :: calls) = frame m.msg ++ wire calls := by simp [wire]

/-- Successive `handle_send` calls put the frames on the wire. -/
theorem outs_handleSend (stream : List UInt8) (calls : List (WireMessage × Split)) :
    outs (handleSend none) stream (calls.map (·.1.msg)) = .ok (calls.map fun _ => true, stream ++ wire calls) := by
  induction calls generalizing stream with
  | nil => simp [outs, wire]
  | cons c calls ih =>
    obtain ⟨m, s⟩ := c
    simp [outs, handleSend_eq, ih, wire_cons]

/-- The messages are received one after another from the stream. -/
def Received (N : Nat) (stream : List UInt8) (calls : List (WireMessage × Split)) : Prop :=
  ∃ rest, outs (handleReceive none N) stream (calls.map (·.2.events)) = .ok (calls.map (some ·.1.msg), rest)

theorem delivered_iff {N : Nat} : Delivered N calls ↔ Received N (wire calls) calls := by
  unfold Delivered Received
  simp [outs_handleSend]

theorem received_cons {N : Nat} {stream : List UInt8} : Received N stream ((m, s) :: calls) ↔
    ∃ stream', handleReceive none N stream s.events = .ok (some m.msg, stream') ∧ Received N stream' calls := by
  unfold Received
  simp only [List.map_cons, outs_cons_eq_ok]
  constructor
  · rintro ⟨rest, stream', hr, ho⟩
    exact ⟨stream', hr, rest, ho⟩
  · rintro ⟨stream', hr, rest, ho⟩
    exact ⟨rest, stream', hr, ho⟩

/-- A decoded message was read from at least this many bytes. -/
theorem length_of_decoded {stack : Option Nat} {buffer : List UInt8} {msg : Message}
    (h : cborDecodeMessageT stack buffer = .ok (some msg)) :
    2 + (head 7 msg.type.toNat).length + (head 2 msg.data.length).length + msg.data.length ≤ buffer.length := by
  rw [cborDecodeMessageT_eq, readMessage] at h
  cases hf : readMessageFields buffer with
  | none => rw [hf] at h; cases h
  | some f =>
    rw [hf] at h
    simp only at h
    split_ifs at h with hs hl
    · cases h
    · unfold leaveArray at h
      split_ifs at h
      · obtain rfl := Option.some.inj (Except.ok.inj h)
        obtain ⟨r₁, r₂, r₃, ha, hsimple, hint, hbytes⟩ := readMessageFields_spec hf
        have h₁ := length_of_readArrayHead ha
        obtain ⟨hlt, h₂⟩ := length_of_readSimple hsimple
        have h₃ := length_of_readInt hint
        have h₄ := length_of_readByteHead hbytes
        have htype : (UInt8.ofNat f.type).toNat = f.type := by simp; omega
        have htake : (f.rest.take f.len).length = f.len := by simpa using hl
        simp only [htype, htake]
        omega
      · cases h

/-- The length of an encoding, by its parts. -/
theorem length_messageBytes (msg : Message) : (messageBytes msg).length =
    1 + (head 7 msg.type.toNat).length + (head 0 msg.data.length).length + (head 2 msg.data.length).length +
      msg.data.length := by
  have h4 : (head 4 3).length = 1 := rfl
  simp only [messageBytes, List.length_append, h4]
  omega

/-- At the start of a frame the length is accepted, and what the one `recv` for the body returns is decoded. -/
theorem handleReceive_frame (m : WireMessage) (s : Split) (rest : List UInt8) :
    ∃ n, n = recvLength MAX_RPC_MSG_SIZE_KB s.body ((messageBytes m.msg).length + rest.length) ∧
      n ≤ (messageBytes m.msg).length + rest.length ∧
      handleReceive none MAX_RPC_MSG_SIZE_KB (frame m.msg ++ rest) s.events =
        (cborDecodeMessageT none ((messageBytes m.msg ++ rest).take n)).map
          (·, (messageBytes m.msg ++ rest).drop n) := by
  have hshort : (messageBytes m.msg).length < 8192 := m.short
  have hpos : 0 < (messageBytes m.msg).length := by rw [length_messageBytes]; omega
  have h4 : (beBytes 4 (messageBytes m.msg).length).length = 4 := length_beBytes _ _
  have htake : (frame m.msg ++ rest).take 4 = beBytes 4 (messageBytes m.msg).length := by
    rw [frame, List.append_assoc, List.take_append_of_le_length (by omega), List.take_of_length_le (by omega)]
  have hdrop : (frame m.msg ++ rest).drop 4 = messageBytes m.msg ++ rest := by
    rw [frame, List.append_assoc, List.drop_append_of_le_length (by omega), List.drop_of_length_le (by omega),
      List.nil_append]
  have hsize : invalidSize (toInt32 (beNat (beBytes 4 (messageBytes m.msg).length))) MAX_RPC_MSG_SIZE_KB = false := by
    rw [beNat_beBytes (by norm_num; omega), toInt32_natCast (by omega), invalidSize_eq_false]
    unfold MAX_RPC_MSG_SIZE_KB
    omega
  have hne : messageBytes m.msg ++ rest ≠ [] := by
    rw [← List.length_pos_iff, List.length_append]
    omega
  obtain ⟨n, hn, -, hle, he⟩ := receiveBody_eq (N := MAX_RPC_MSG_SIZE_KB) s.body (by decide) hne
  rw [List.length_append] at hn hle
  refine ⟨n, hn, hle, ?_⟩
  rw [handleReceive_bytes s (by simp [frame]), htake, hdrop, hsize, if_neg Bool.false_ne_true, he]

/-- Two bytes into a frame, the length read is too large. -/
theorem invalidSize_ahead_two (m : WireMessage) {t : UInt8} :
    invalidSize (toInt32 (beNat (beBytes 2 (messageBytes m.msg).length ++ [0x83, t]))) MAX_RPC_MSG_SIZE_KB = true := by
  have hshort : (messageBytes m.msg).length < 8192 := m.short
  have ht := t.toNat_lt
  have hb : beNat (beBytes 2 (messageBytes m.msg).length ++ [0x83, t]) =
      256 * (256 * (messageBytes m.msg).length + 0x83) + t.toNat := by
    rw [show beBytes 2 (messageBytes m.msg).length ++ [0x83, t] =
      (beBytes 2 (messageBytes m.msg).length ++ [0x83]) ++ [t] by simp, beNat_snoc, beNat_snoc,
      beNat_beBytes (by norm_num; omega)]
    rfl
  rw [hb, toInt32_natCast (by omega)]
  by_contra hf
  have := invalidSize_eq_false.mp (Bool.eq_false_iff.mpr hf)
  unfold MAX_RPC_MSG_SIZE_KB at this
  omega

/-- Nothing decodes that does not start with an array. -/
theorem cborDecodeMessageT_of_head {stack : Option Nat} {b : UInt8} {bs : List UInt8} (h : major b ≠ 4) :
    cborDecodeMessageT stack (b :: bs) = .ok none := by
  rw [cborDecodeMessageT_eq, readMessage]
  simp [readMessageFields, readArrayHead, h]

/-- An encoding starts with the head of an array and a simple value. -/
theorem messageBytes_cons (msg : Message) : ∃ t es, messageBytes msg = 0x83 :: t :: es ∧ major t = 7 := by
  obtain ⟨t, bs, ht, hm, -, -⟩ := head_cons (m := 7) (n := msg.type.toNat) (by omega)
    (by have := msg.type.toNat_lt; omega)
  refine ⟨t, bs ++ (head 0 msg.data.length ++ (head 2 msg.data.length ++ msg.data)), ?_, hm⟩
  rw [messageBytes, ht]
  rfl

/-- From `k` bytes into a frame, a call that receives its message reads beyond the frame. -/
theorem length_lt_of_ahead {k n : Nat} {rest : List UInt8} (hk : 0 < k)
    (hsize : invalidSize (toInt32 (beNat (((frame m.msg ++ rest).drop k).take 4))) MAX_RPC_MSG_SIZE_KB = false)
    (hn : 0 < n) (hlen : 4 + n ≤ ((frame m.msg ++ rest).drop k).length)
    (hdecode : cborDecodeMessageT none ((((frame m.msg ++ rest).drop k).drop 4).take n) = .ok (some m.msg)) :
    (messageBytes m.msg).length < k + n := by
  have hmin := length_of_decoded hdecode
  rw [List.length_take, List.length_drop] at hmin
  have hint : (head 0 m.msg.data.length).length ≤ 3 :=
    length_head_le_of_lt (k := 1) (by omega) (by have := m.length_lt; norm_num [WireMessage.msg]; omega)
  have hbytes := length_messageBytes m.msg
  rcases Nat.lt_or_ge 2 k with h3 | h2
  · omega
  · -- one or two bytes into the frame the stream is known
    obtain ⟨t, es, he, ht⟩ := messageBytes_cons m.msg
    exfalso
    have hk12 : k = 1 ∨ k = 2 := by omega
    rcases hk12 with rfl | rfl
    · have hd : ((frame m.msg ++ rest).drop 1).drop 4 = t :: (es ++ rest) := by
        rw [frame, beBytes_add 1 3, List.drop_drop, he]
        rfl
      obtain ⟨n, rfl⟩ : ∃ j, n = j + 1 := ⟨n - 1, by omega⟩
      rw [hd, List.take_succ_cons, cborDecodeMessageT_of_head (by omega)] at hdecode
      cases hdecode
    · have hd : ((frame m.msg ++ rest).drop 2).take 4 = beBytes 2 (messageBytes m.msg).length ++ [0x83, t] := by
        rw [frame, beBytes_add 2 2, he]
        rfl
      rw [hd, invalidSize_ahead_two] at hsize
      cases hsize

/-- **A receiver that is ahead of the frames never receives the remaining messages.** -/
theorem not_received_ahead {k : Nat} (hk : 0 < k) (hle : k ≤ (wire calls).length) :
    ¬Received MAX_RPC_MSG_SIZE_KB ((wire calls).drop k) calls := by
  induction calls generalizing k with
  | nil => simp [wire] at hle; omega
  | cons c calls ih =>
    obtain ⟨m, s⟩ := c
    intro h
    obtain ⟨stream', hr, hrec⟩ := received_cons.mp h
    obtain ⟨hsize, n, hn, hlen, rfl, hdecode⟩ := handleReceive_some (by decide) hr
    rw [wire_cons] at hsize hlen hdecode hrec hle
    have hahead := length_lt_of_ahead hk hsize hn hlen hdecode
    have hframe : (frame m.msg).length = 4 + (messageBytes m.msg).length := by simp [frame]
    rw [List.length_drop, List.length_append] at hlen
    rw [List.drop_drop, List.drop_append, List.drop_of_length_le (by omega), List.nil_append] at hrec
    exact ih (by omega) (by omega) hrec

/-- **Framing**: the messages received are the messages sent exactly when each call's `recv` for the body returns just
that message. -/
theorem framing_iff (calls : List (WireMessage × Split)) :
    Delivered MAX_RPC_MSG_SIZE_KB calls ↔ BodiesExact MAX_RPC_MSG_SIZE_KB calls := by
  rw [delivered_iff]
  induction calls with
  | nil => simp [Received, BodiesExact, outs]
  | cons c calls ih =>
    obtain ⟨m, s⟩ := c
    obtain ⟨n, hn, hle, he⟩ := handleReceive_frame m s (wire calls)
    rw [received_cons, wire_cons, he, BodiesExact, ← hn, ← ih]
    have hdata : m.msg.data.length < 2 ^ 64 := by have := m.length_lt; simp only [WireMessage.msg]; omega
    rcases Nat.lt_trichotomy n (messageBytes m.msg).length with hlt | heq | hgt
    · -- a part of the encoding is not decoded
      have hprefix : (messageBytes m.msg ++ wire calls).take n <+: messageBytes m.msg := by
        rw [List.take_append_of_le_length hlt.le]
        exact List.take_prefix n _
      have hstrict : (messageBytes m.msg ++ wire calls).take n ≠ messageBytes m.msg := by
        intro h
        have := congrArg List.length h
        rw [List.length_take, List.length_append] at this
        omega
      rw [cborDecodeMessageT_truncated m.encodableType hdata (by simp) hprefix hstrict]
      simp only [Except.map, Except.ok.injEq, Prod.mk.injEq, reduceCtorEq, false_and, exists_false, false_iff, not_and]
      omega
    · rw [heq, List.take_left, List.drop_left]
      have hd : cborDecodeMessageT none (messageBytes m.msg ++ []) = .ok (some m.msg) :=
        cborDecodeMessageT_messageBytes m.encodableType hdata (by simp) []
      rw [List.append_nil] at hd
      simp [hd, Except.map]
    · -- the start of the next frame is lost
      obtain ⟨k, rfl⟩ : ∃ k, n = (messageBytes m.msg).length + k := ⟨n - (messageBytes m.msg).length, by omega⟩
      rw [List.take_length_add_append, List.drop_length_add_append,
        cborDecodeMessageT_messageBytes m.encodableType hdata (by simp)]
      have hnot : ¬Received MAX_RPC_MSG_SIZE_KB ((wire calls).drop k) calls := not_received_ahead (by omega) (by omega)
      simp only [Except.map, Except.ok.injEq, Prod.mk.injEq, true_and, exists_eq_left', hnot, false_iff, not_and]
      omega

end Connection

/-- A message of one byte. -/
def oneByte (b : UInt8) : WireMessage where
  type := .arbitrary
  data := [b]
  nonempty := Nat.le_refl 1
  short := by simp [messageBytes, head, widthCode, MessageTypes.code, MAX_RPC_MSG_SIZE_KB]

/-- A split in which `recv` returns all there is. -/
def coalesced : Split where
  header := [4, 4, 4, 4]
  enough := by decide
  body := 8192

/-- Two messages that arrive together: the second one is lost with the `recv` of the first, and the second call
fails. -/
theorem not_delivered_coalesced :
    outs (handleReceive none MAX_RPC_MSG_SIZE_KB) (frame (oneByte 1).msg ++ frame (oneByte 2).msg)
      [coalesced.events, coalesced.events] = .ok ([some (oneByte 1).msg, none], []) ∧
    ¬Delivered MAX_RPC_MSG_SIZE_KB [(oneByte 1, coalesced), (oneByte 2, coalesced)] := by
  have hlost : outs (handleReceive none MAX_RPC_MSG_SIZE_KB) (frame (oneByte 1).msg ++ frame (oneByte 2).msg)
      [coalesced.events, coalesced.events] = .ok ([some (oneByte 1).msg, none], []) := by decide
  refine ⟨hlost, fun h => ?_⟩
  obtain ⟨rest, hr⟩ := delivered_iff.mp h
  have hwire : wire [(oneByte 1, coalesced), (oneByte 2, coalesced)] =
      frame (oneByte 1).msg ++ frame (oneByte 2).msg := by simp [wire]
  rw [hwire] at hr
  have := hlost.symm.trans hr
  simp at this

end Libcp2p

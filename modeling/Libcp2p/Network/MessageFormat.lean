import Libcp2p.Network.Messages
import Libcp2p.Cbor.Items

/-!
# What the message decoders read

The two decoders of `Libcp2p.Network.Messages` walk through the input with a stateful iterator. `readMessage` and
`readHello` say in terms of the format alone what they return, and which inputs make them fault; `cborDecodeMessageT_eq`
and `cborDecodeHelloT_eq` show that the decoders do just that, one step after another: `toNull_enter` for the array,
`toNull_int`, `toNull_simple`, `toNull_byteHead` and `toNull_byteString` for its items, `leave_of_moved` for its end.
-/

namespace Libcp2p

open Cbor

/-! ## Reading messages -/

/-- What `cbor_decode_message_t` reads before its stack buffer: the number of items, the message type, the integer, and
the length of the byte string with the input after it. -/
structure MessageFields where
  count : Option Nat
  type : Nat
  declared : Int
  len : Nat
  rest : List UInt8
  deriving DecidableEq, Repr

/-- The fields, if the input starts with them. -/
def readMessageFields (input : List UInt8) : Option MessageFields := do
  let (count, rest) ← readArrayHead input
  guard (CountFits count)
  let (type, rest) ← (itemAt count 0 rest).bind readSimple
  let (declared, rest) ← (itemAt count 1 rest).bind readInt
  let (len, rest) ← (itemAt count 2 rest).bind readByteHead
  return { count := count, type := type, declared := declared, len := len, rest := rest }

/-- The end of both decoders: the array ends after `k` items, or an assertion fails at the next one. -/
def leaveArray {α : Type} (count : Option Nat) (k : Nat) (rest : List UInt8) (a : α) : Except Fault (Option α) :=
  if closes count k rest then .ok (some a) else if startsItem rest then .error .assertion else .ok none

/-- The message in the input. -/
def readMessage (stack : Option Nat) (input : List UInt8) : Except Fault (Option Message) :=
  match readMessageFields input with
  | none => .ok none
  | some f =>
    if !onStack stack f.len then .error (.stackBuffer f.len)
    else if f.rest.length < f.len then .ok none
    else leaveArray f.count 3 (f.rest.drop f.len) { type := UInt8.ofNat f.type, data := f.rest.take f.len }

/-- The fields are the ones the readers of the format give. -/
theorem readMessageFields_spec {input : List UInt8} {f : MessageFields} (h : readMessageFields input = some f) :
    ∃ r₁ r₂ r₃, readArrayHead input = some (f.count, r₁) ∧ readSimple r₁ = some (f.type, r₂) ∧
      readInt r₂ = some (f.declared, r₃) ∧ readByteHead r₃ = some (f.len, f.rest) := by
  simp only [readMessageFields, Option.bind_eq_bind, Option.bind_eq_some_iff, itemAt_eq_some, Prod.exists] at h
  obtain ⟨count, r₁, ha, -, -, type, r₂, ⟨_, ⟨-, rfl⟩, hs⟩, n, r₃, ⟨_, ⟨-, rfl⟩, hi⟩, len, r₄,
    ⟨_, ⟨-, rfl⟩, hb⟩, hf⟩ := h
  cases hf
  exact ⟨_, _, _, ha, hs, hi, hb⟩

/-! ## Reading hello messages -/

/-- What `cbor_decode_hello_t` reads before its first stack buffer: the number of items, the two integers, and the
input from the first byte string on. -/
structure HelloFields where
  count : Option Nat
  peerIdLen : Int
  publicKeyLen : Int
  rest : List UInt8
  deriving DecidableEq, Repr

/-- The fields, if the input starts with them. -/
def readHelloFields (input : List UInt8) : Option HelloFields := do
  let (count, rest) ← readArrayHead input
  guard (CountFits count)
  let (peerIdLen, rest) ← (itemAt count 0 rest).bind readInt
  let (publicKeyLen, rest) ← (itemAt count 1 rest).bind readInt
  let rest ← (itemAt count 2 rest).bind byteStringAt
  return { count := count, peerIdLen := peerIdLen, publicKeyLen := publicKeyLen, rest := rest }

/-- A byte string that has to fit in `size` bytes. -/
def readFitting (size : Int) (rest : List UInt8) : Option (List UInt8 × List UInt8) :=
  (readByteString rest).filter fun r => r.1.length ≤ size.toNat

/-- The hello message, from the end of its first byte string on. -/
def readHelloKey (stack : Option Nat) (f : HelloFields) (peerId rest : List UInt8) :
    Except Fault (Option MessageHello) :=
  match (itemAt f.count 3 rest).bind byteStringAt with
  | none => .ok none
  | some rest =>
    if !onStack stack (toInt64 f.publicKeyLen) then .error (.stackBuffer (toInt64 f.publicKeyLen))
    else match readFitting (toInt64 f.publicKeyLen) rest with
      | none => .ok none
      | some (publicKey, rest) => leaveArray f.count 4 rest { peerId := peerId, publicKey := publicKey }

/-- The hello message in the input. -/
def readHello (stack : Option Nat) (input : List UInt8) : Except Fault (Option MessageHello) :=
  match readHelloFields input with
  | none => .ok none
  | some f =>
    if !onStack stack (toInt64 f.peerIdLen) then .error (.stackBuffer (toInt64 f.peerIdLen))
    else match readFitting (toInt64 f.peerIdLen) f.rest with
      | none => .ok none
      | some (peerId, rest) => readHelloKey stack f peerId rest

/-! ## The decoders -/

/-- The end of a decoder, behind the last item. -/
theorem leave_of_moved {α : Type} {count : Option Nat} {k : Nat} {rest : List UInt8} {m : Except Stop CborValue}
    {value : CborValue} (ht : value.type = .array) (hone : value.remaining = 1) (h : Moved count k rest m) (a : α) :
    toNull (do let _ ← cborValueLeaveContainer value (← m); return a) = leaveArray count k rest a := by
  unfold leaveArray
  cases h with
  | ended hc it hi =>
    obtain ⟨it', he⟩ := leave_of_invalid ht hone hi
    simp [hc, he]
  | stopped hc hs e => simp [hc, hs]
  | item hc it hp hr ha =>
    subst hr
    simp [hc, hp.startsItem, leave_of_valid ht hp.type_ne_invalid]

theorem toInt64_toNat_le (n : Int) : (toInt64 n).toNat ≤ SIZE_MAX := by
  unfold toInt64 SIZE_MAX; omega

/-- The two outcomes of a copy into a stack buffer. -/
theorem Cbor.Copied.fitting_cases {size : Int} {count : Option Nat} {k : Nat} {rest : List UInt8}
    {c : Except Stop (List UInt8 × CborValue)} (h : Copied size.toNat count k (readByteString rest) c) :
    (readFitting size rest = none ∧ ∃ e, c = .error (.err e)) ∨
    (∃ s rest' m, readFitting size rest = some (s, rest') ∧ Moved count (k + 1) rest' m ∧
      c = m.map fun it => (s, it)) := by
  unfold readFitting
  cases h' : readByteString rest with
  | none =>
    rw [h'] at h
    cases h with
    | stopped e => exact .inl ⟨rfl, e, rfl⟩
  | some r =>
    rw [h'] at h
    cases h with
    | fits s rest' hs m hm => exact .inr ⟨s, rest', m, by simp [hs], hm, rfl⟩
    | tooLong s rest' hs e => exact .inl ⟨by simp; omega, e, rfl⟩

/-! The steps of a decoder whose result is `r`: what it reads at the front of the input stands there and it goes on
behind it, or it gives up. -/

section Steps

variable {α : Type} {count : Option Nat} {k : Nat} {rest : List UInt8} {m : Except Stop CborValue} {stack : Option Nat}
  {r : Except Fault (Option α)}

theorem toNull_enter {input : List UInt8} {f : CborValue → CborValue → Except Stop α}
    (hnone : readArrayHead input = none → r = .ok none)
    (hlarge : ∀ count rest, readArrayHead input = some (count, rest) → ¬ CountFits count → r = .ok none)
    (hsome : ∀ count rest value m, readArrayHead input = some (count, rest) → CountFits count → value.type = .array →
      value.remaining = 1 → Moved count 0 rest m → toNull (m >>= f value) = r) :
    toNull (do
      let value ← cborParserInit input
      orNull (cborValueIsArray value)
      let recurse ← cborValueEnterContainer value
      f value recurse) = r := by
  rcases cborParserInit_cases input with ⟨ha, ⟨e, he⟩ | ⟨it, he, ht⟩⟩ |
    ⟨count, rest, value, ha, he, ht, hone, hin, hout⟩
  · rw [hnone ha]
    simp [he]
  · rw [hnone ha]
    simp [he, cborValueIsArray, ht]
  · by_cases hc : CountFits count
    · rw [← hsome count rest value _ ha hc ht hone (hin hc)]
      simp [he, cborValueIsArray, ht]
    · rw [hlarge count rest ha hc]
      simp [he, cborValueIsArray, ht, hout hc]

theorem toNull_int (h : Moved count k rest m) {f : Int → CborValue → Except Stop α}
    (hnone : (itemAt count k rest).bind readInt = none → r = .ok none)
    (hsome : ∀ n rest' m', (itemAt count k rest).bind readInt = some (n, rest') → Moved count (k + 1) rest' m' →
      toNull (m' >>= f (toInt64 n)) = r) :
    toNull (do
      let recurse ← m
      orNull (cborValueIsInteger recurse)
      let n ← cborValueGetInt64 recurse
      let recurse ← cborValueAdvance recurse
      f n recurse) = r := by
  rcases h.int_cases with ⟨hr, ⟨e, rfl⟩ | ⟨it, rfl, ht⟩⟩ | ⟨n, rest', it, hr, rfl, ht, hget, hmoved⟩
  · rw [hnone hr]
    simp
  · rw [hnone hr]
    simp [cborValueIsInteger, ht]
  · rw [← hsome n rest' _ hr hmoved]
    simp [cborValueIsInteger, ht, hget]

theorem toNull_simple (h : Moved count k rest m) {f : Nat → CborValue → Except Stop α}
    (hnone : (itemAt count k rest).bind readSimple = none → r = .ok none)
    (hsome : ∀ v rest' m', (itemAt count k rest).bind readSimple = some (v, rest') → Moved count (k + 1) rest' m' →
      toNull (m' >>= f v) = r) :
    toNull (do
      let recurse ← m
      orNull (cborValueIsSimpleType recurse)
      let v ← cborValueGetSimpleType recurse
      let recurse ← cborValueAdvance recurse
      f v recurse) = r := by
  rcases h.simple_cases with ⟨hr, ⟨e, rfl⟩ | ⟨it, rfl, ht⟩⟩ | ⟨v, rest', it, hr, rfl, ht, hget, hmoved⟩
  · rw [hnone hr]
    simp
  · rw [hnone hr]
    simp [cborValueIsSimpleType, ht]
  · rw [← hsome v rest' _ hr hmoved]
    simp [cborValueIsSimpleType, ht, hget]

/-- A byte string that is copied into a stack buffer of its length. -/
theorem toNull_byteHead (h : Moved count k rest m) {f : List UInt8 × CborValue → Except Stop α}
    (hnone : (itemAt count k rest).bind readByteHead = none → r = .ok none)
    (hstack : ∀ len rest', (itemAt count k rest).bind readByteHead = some (len, rest') → onStack stack len = false →
      r = .error (.stackBuffer len))
    (hshort : ∀ len rest', (itemAt count k rest).bind readByteHead = some (len, rest') → onStack stack len = true →
      rest'.length < len → r = .ok none)
    (hsome : ∀ len rest' m', (itemAt count k rest).bind readByteHead = some (len, rest') → onStack stack len = true →
      len ≤ rest'.length → Moved count (k + 1) (rest'.drop len) m' →
      toNull (m' >>= fun it => f (rest'.take len, it)) = r) :
    toNull (do
      let recurse ← m
      orNull (cborValueIsByteString recurse)
      let len ← cborValueGetStringLength recurse
      stackBuffer stack len
      let copied ← cborValueCopyByteString recurse len
      f copied) = r := by
  rcases h.byteHead_cases with ⟨hr, ⟨e, rfl⟩ | ⟨it, rfl, ht⟩ | ⟨it, e, rfl, ht, hlen⟩⟩ |
    ⟨len, rest', it, hr, rfl, ht, hlen, hcopy⟩
  · rw [hnone hr]
    simp
  · rw [hnone hr]
    simp [cborValueIsByteString, ht]
  · rw [hnone hr]
    simp [cborValueIsByteString, ht, hlen]
  · simp only [ok_bind, cborValueIsByteString, ht, decide_true, orNull_true, hlen, stackBuffer]
    cases hs : onStack stack len with
    | false =>
      rw [hstack len rest' hr hs]
      simp
    | true =>
      simp only [if_true, ok_bind]
      generalize cborValueCopyByteString it len = c at hcopy
      by_cases hfull : len ≤ rest'.length
      · rw [if_pos hfull] at hcopy
        cases hcopy with
        | tooLong _ _ hlong e => simp at hlong
        | fits _ _ _ m' hm =>
          rw [← hsome len rest' m' hr hs hfull hm]
          cases m' <;> rfl
      · rw [if_neg hfull] at hcopy
        rw [hshort len rest' hr hs (by omega)]
        cases hcopy
        rfl

/-- A byte string that is copied into a stack buffer of a length read before. -/
theorem toNull_byteString (h : Moved count k rest m) {n : Int} {f : List UInt8 × CborValue → Except Stop α}
    (hnone : (itemAt count k rest).bind byteStringAt = none → r = .ok none)
    (hstack : (itemAt count k rest).bind byteStringAt = some rest → onStack stack (toInt64 n) = false →
      r = .error (.stackBuffer (toInt64 n)))
    (hshort : (itemAt count k rest).bind byteStringAt = some rest → onStack stack (toInt64 n) = true →
      readFitting (toInt64 n) rest = none → r = .ok none)
    (hsome : ∀ s rest' m', (itemAt count k rest).bind byteStringAt = some rest → onStack stack (toInt64 n) = true →
      readFitting (toInt64 n) rest = some (s, rest') → Moved count (k + 1) rest' m' →
      toNull (m' >>= fun it => f (s, it)) = r) :
    toNull (do
      let recurse ← m
      orNull (cborValueIsByteString recurse)
      stackBuffer stack (toInt64 n)
      let copied ← cborValueCopyByteString recurse (toInt64 n).toNat
      f copied) = r := by
  rcases h.byteString_cases with ⟨hr, ⟨e, rfl⟩ | ⟨it, rfl, ht⟩⟩ | ⟨it, hr, rfl, ht, hp, rfl, hin⟩
  · rw [hnone hr]
    simp
  · rw [hnone hr]
    simp [cborValueIsByteString, ht]
  · simp only [ok_bind, cborValueIsByteString, ht, decide_true, orNull_true, stackBuffer]
    cases hs : onStack stack (toInt64 n) with
    | false =>
      rw [hstack hr hs]
      simp
    | true =>
      simp only [if_true, ok_bind]
      rcases (copied_of_copyByteString (toInt64_toNat_le n) hp ht hin).fitting_cases with
        ⟨hf, e, hcopy⟩ | ⟨s, rest', m', hf, hm, hcopy⟩
      · rw [hshort hr hs hf, hcopy]
        rfl
      · rw [← hsome s rest' m' hr hs hf hm, hcopy]
        cases m' <;> rfl

end Steps

/-- **The message decoder**, in terms of the format. -/
theorem cborDecodeMessageT_eq (stack : Option Nat) (input : List UInt8) :
    cborDecodeMessageT stack input = readMessage stack input := by
  unfold readMessage readMessageFields
  refine toNull_enter (fun ha => by simp [ha]) (fun count rest ha hc => by simp [ha, hc, guard])
    fun count rest value m ha hc ht hone hm => ?_
  simp only [ha, Option.bind_eq_bind, Option.bind_some, guard, if_pos hc, Option.pure_def]
  refine toNull_simple hm (fun hv => by simp [hv]) fun type rest m hv (hm : Moved count 1 rest m) => ?_
  simp only [hv, Option.bind_some]
  refine toNull_int hm (fun hn => by simp [hn]) fun n rest m hn (hm : Moved count 2 rest m) => ?_
  simp only [hn, Option.bind_some]
  refine toNull_byteHead hm (fun hb => by simp [hb]) (fun len rest hb hs => by simp [hb, hs])
    (fun len rest hb hs hl => by simp [hb, hs, hl]) fun len rest m hb hs hl hm => ?_
  simp only [hb, Option.bind_some, hs]
  rw [if_neg (by simp), if_neg (by omega)]
  exact leave_of_moved ht hone hm _

/-- **The hello decoder**, in terms of the format. -/
theorem cborDecodeHelloT_eq (stack : Option Nat) (input : List UInt8) :
    cborDecodeHelloT stack input = readHello stack input := by
  unfold readHello readHelloFields
  refine toNull_enter (fun ha => by simp [ha]) (fun count rest ha hc => by simp [ha, hc, guard])
    fun count rest value m ha hc ht hone hm => ?_
  simp only [ha, Option.bind_eq_bind, Option.bind_some, guard, if_pos hc, Option.pure_def]
  refine toNull_int hm (fun hn => by simp [hn]) fun n rest m hn (hm : Moved count 1 rest m) => ?_
  simp only [hn, Option.bind_some]
  refine toNull_int hm (fun hn => by simp [hn]) fun n' rest m hn (hm : Moved count 2 rest m) => ?_
  simp only [hn, Option.bind_some]
  refine toNull_byteString hm (fun hb => by simp [hb]) (fun hb hs => by simp [hb, hs])
    (fun hb hs hf => by simp [hb, hs, hf]) fun peerId rest m hb hs hf (hm : Moved count 3 rest m) => ?_
  simp only [hb, Option.bind_some, hs, hf]
  unfold readHelloKey
  refine toNull_byteString hm (fun hb => by simp [hb]) (fun hb hs => by simp [hb, hs])
    (fun hb hs hf => by simp [hb, hs, hf]) fun publicKey rest m hb hs hf hm => ?_
  simp only [hb, hs, hf]
  exact leave_of_moved ht hone hm _

end Libcp2p

import Libcp2p.Network.MessageFormat

/-!
# Which inputs the message decoders handle safely

A decoder is safe on an input when it fails no assertion, gives no stack buffer a size that is negative or above the
length of the input, and returns either a null pointer or a structure whose lengths are both the declared integers and
the lengths of the byte strings, in an array of exactly three (respectively four) items. Not every input is handled
safely: sizes are taken from the input before they are checked, and an array with more items fails an assertion of
tinycbor. `decoders_safe_iff` gives the inputs that are.
-/

namespace Libcp2p

open Cbor

/-! ## Safe decoding -/

/-- The input starts with an array of exactly three items: a simple value, the integer `n` and the byte string `s`. -/
def IsMessageArray (input : List UInt8) (n : Int) (s : List UInt8) : Prop :=
  ∃ count type r₁ r₂ r₃ r₄, readArrayHead input = some (count, r₁) ∧ readSimple r₁ = some (type, r₂) ∧
    readInt r₂ = some (n, r₃) ∧ readByteString r₃ = some (s, r₄) ∧ closes count 3 r₄

/-- The input starts with an array of exactly four items: the integers `n₁` and `n₂` and the byte strings `s₁` and
`s₂`. -/
def IsHelloArray (input : List UInt8) (n₁ n₂ : Int) (s₁ s₂ : List UInt8) : Prop :=
  ∃ count r₁ r₂ r₃ r₄ r₅, readArrayHead input = some (count, r₁) ∧ readInt r₁ = some (n₁, r₂) ∧
    readInt r₂ = some (n₂, r₃) ∧ readByteString r₃ = some (s₁, r₄) ∧ readByteString r₄ = some (s₂, r₅) ∧
    closes count 4 r₅

/-- The result is a null pointer or has the property `P`, and there is no fault. -/
def Safely {α : Type} (r : Except Fault (Option α)) (P : α → Prop) : Prop := ∃ o, r = .ok o ∧ ∀ a ∈ o, P a

/-- `cbor_decode_message_t` is safe on the input, with no more stack than the input has bytes. -/
def MessageSafe (input : List UInt8) : Prop :=
  Safely (cborDecodeMessageT (some input.length) input) fun m => IsMessageArray input m.data.length m.data

/-- `cbor_decode_hello_t` is safe on the input, with no more stack than the input has bytes. -/
def HelloSafe (input : List UInt8) : Prop :=
  Safely (cborDecodeHelloT (some input.length) input) fun m =>
    IsHelloArray input m.peerId.length m.publicKey.length m.peerId m.publicKey

/-! ## The inputs that are handled safely -/

/-- Where the decoder has read its last item, the array ends and the declared lengths are right, or nothing can be
read. -/
def EndsWell (count : Option Nat) (k : Nat) (rest : List UInt8) (lengths : Prop) : Prop :=
  (closes count k rest → lengths) ∧ (¬closes count k rest → startsItem rest = false)

/-- If the input starts like a message, then the length of its byte string is at most the length of the input; and if
the byte string is complete, it has the declared length and is the last item, or no item starts after it. -/
def MessageInputOk (input : List UInt8) : Prop :=
  ∀ f, readMessageFields input = some f → f.len ≤ input.length ∧
    (f.len ≤ f.rest.length → EndsWell f.count 3 (f.rest.drop f.len) (f.declared = f.len))

/-- If a second byte string starts after the first one, then the second integer, read as an `int64_t`, is between 0 and
the length of the input; and if that byte string is complete and not longer, both have the declared lengths and it is
the last item, or no item starts after it. -/
def HelloKeyOk (input : List UInt8) (f : HelloFields) (peerId rest : List UInt8) : Prop :=
  ∀ r, (itemAt f.count 3 rest).bind byteStringAt = some r →
    (0 ≤ toInt64 f.publicKeyLen ∧ toInt64 f.publicKeyLen ≤ input.length) ∧
    ∀ publicKey r', readFitting (toInt64 f.publicKeyLen) r = some (publicKey, r') →
      EndsWell f.count 4 r' (f.peerIdLen = peerId.length ∧ f.publicKeyLen = publicKey.length)

/-- If the input starts like a hello message, then the first integer, read as an `int64_t`, is between 0 and the length
of the input; and if the first byte string is complete and not longer, then what follows it is `HelloKeyOk`. -/
def HelloInputOk (input : List UInt8) : Prop :=
  ∀ f, readHelloFields input = some f → (0 ≤ toInt64 f.peerIdLen ∧ toInt64 f.peerIdLen ≤ input.length) ∧
    ∀ peerId r, readFitting (toInt64 f.peerIdLen) f.rest = some (peerId, r) → HelloKeyOk input f peerId r

section Safely

variable {α : Type} {P : α → Prop}

@[simp] theorem safely_none : Safely (.ok none) P ↔ True := by simp [Safely]

@[simp] theorem safely_some {a : α} : Safely (.ok (some a)) P ↔ P a := by simp [Safely]

@[simp] theorem safely_error {f : Fault} : Safely (.error f) P ↔ False := by simp [Safely]

theorem not_safely_of_error {r : Except Fault (Option α)} {f : Fault} (h : r = .error f) : ¬Safely r P := by simp [h]

theorem safely_leaveArray {count : Option Nat} {k : Nat} {rest : List UInt8} {a : α} :
    Safely (leaveArray count k rest a) P ↔ EndsWell count k rest (P a) := by
  unfold leaveArray EndsWell
  split_ifs with hc hs <;> simp_all

theorem endsWell_congr {count : Option Nat} {k : Nat} {rest : List UInt8} {p q : Prop}
    (h : closes count k rest → (p ↔ q)) : EndsWell count k rest p ↔ EndsWell count k rest q :=
  and_congr_left fun _ => imp_congr_right h

theorem onStack_some {n : Nat} {size : Int} : onStack (some n) size = true ↔ 0 ≤ size ∧ size ≤ n := by simp [onStack]

end Safely

/-! ## Messages -/

section Message

variable {input : List UInt8}

/-- An array that starts with the fields has their integer and byte string. -/
theorem IsMessageArray.eq_fields {f : MessageFields} {n : Int} {s : List UInt8} (h : IsMessageArray input n s)
    (hf : readMessageFields input = some f) : n = f.declared := by
  obtain ⟨count, type, r₁, r₂, r₃, r₄, ha, hs, hi, -, -⟩ := h
  obtain ⟨r₁', r₂', r₃', ha', hs', hi', -⟩ := readMessageFields_spec hf
  rw [ha] at ha'
  cases ha'
  rw [hs] at hs'
  cases hs'
  rw [hi] at hi'
  cases hi'
  rfl

/-- Complete fields with the array ending after them make a message array. -/
theorem isMessageArray_of_fields {f : MessageFields} (hf : readMessageFields input = some f)
    (hl : f.len ≤ f.rest.length) (hc : closes f.count 3 (f.rest.drop f.len)) :
    IsMessageArray input f.declared (f.rest.take f.len) := by
  obtain ⟨r₁, r₂, r₃, ha, hs, hi, hb⟩ := readMessageFields_spec hf
  refine ⟨f.count, f.type, r₁, r₂, r₃, f.rest.drop f.len, ha, hs, hi, ?_, hc⟩
  rw [readByteString_of_head hb, if_pos hl]

theorem messageSafe_iff : MessageSafe input ↔ MessageInputOk input := by
  unfold MessageSafe MessageInputOk
  rw [cborDecodeMessageT_eq, readMessage]
  cases hf : readMessageFields input with
  | none => simp
  | some f =>
    simp only [Option.some.injEq, forall_eq']
    have hstack : onStack (some input.length) f.len = true ↔ f.len ≤ input.length := by rw [onStack_some]; omega
    by_cases hs : f.len ≤ input.length
    swap
    · simp [Bool.eq_false_iff.mpr (mt hstack.mp hs), hs]
    by_cases hl : f.len ≤ f.rest.length
    swap
    · simp [hstack.mpr hs, hs, hl, Nat.lt_of_not_le hl]
    have hlen : (f.rest.take f.len).length = f.len := by simpa using hl
    simp only [hstack.mpr hs, Bool.not_true, Bool.false_eq_true, if_false, Nat.not_lt.mpr hl, safely_leaveArray, hs, hl,
      true_and, true_imp_iff, hlen]
    refine endsWell_congr fun hc => ⟨fun h => (h.eq_fields hf).symm, fun h => ?_⟩
    exact h ▸ isMessageArray_of_fields hf hl hc

end Message

/-! ## Hello messages -/

section Hello

variable {input : List UInt8}

theorem byteStringAt_eq_some {rest r : List UInt8} :
    byteStringAt rest = some r ↔ startsByteString rest = true ∧ rest = r := by
  unfold byteStringAt
  split_ifs with h <;> simp [h]

theorem readFitting_eq_some {size : Int} {rest : List UInt8} {r : List UInt8 × List UInt8} :
    readFitting size rest = some r ↔ readByteString rest = some r ∧ r.1.length ≤ size.toNat := by
  simp [readFitting, Option.filter_eq_some_iff]

/-- The fields are the ones the readers of the format give. -/
theorem readHelloFields_spec {f : HelloFields} (h : readHelloFields input = some f) :
    ∃ r₁ r₂, readArrayHead input = some (f.count, r₁) ∧ readInt r₁ = some (f.peerIdLen, r₂) ∧
      readInt r₂ = some (f.publicKeyLen, f.rest) := by
  simp only [readHelloFields, Option.bind_eq_bind, Option.bind_eq_some_iff, itemAt_eq_some, byteStringAt_eq_some,
    Prod.exists] at h
  obtain ⟨count, r₁, ha, -, -, n₁, r₂, ⟨_, ⟨-, rfl⟩, hi⟩, n₂, r₃, ⟨_, ⟨-, rfl⟩, hj⟩, _, ⟨_, ⟨-, rfl⟩, -, rfl⟩, hf⟩ := h
  cases hf
  exact ⟨_, _, ha, hi, hj⟩

/-- An array that starts with the fields has their integers. -/
theorem IsHelloArray.eq_fields {f : HelloFields} {n₁ n₂ : Int} {s₁ s₂ : List UInt8}
    (h : IsHelloArray input n₁ n₂ s₁ s₂) (hf : readHelloFields input = some f) :
    n₁ = f.peerIdLen ∧ n₂ = f.publicKeyLen := by
  obtain ⟨count, r₁, r₂, r₃, r₄, r₅, ha, hi, hj, -, -, -⟩ := h
  obtain ⟨r₁', r₂', ha', hi', hj'⟩ := readHelloFields_spec hf
  rw [ha] at ha'
  cases ha'
  rw [hi] at hi'
  cases hi'
  rw [hj] at hj'
  cases hj'
  exact ⟨rfl, rfl⟩

/-- Complete fields with the array ending after them make a hello array. -/
theorem isHelloArray_of_fields {f : HelloFields} {s₁ s₂ r r' : List UInt8} {n₁ n₂ : Int}
    (hf : readHelloFields input = some f) (h₁ : readFitting n₁ f.rest = some (s₁, r))
    (h₂ : readFitting n₂ r = some (s₂, r')) (hc : closes f.count 4 r') :
    IsHelloArray input f.peerIdLen f.publicKeyLen s₁ s₂ := by
  obtain ⟨r₁, r₂, ha, hi, hj⟩ := readHelloFields_spec hf
  exact ⟨f.count, r₁, r₂, f.rest, r, r', ha, hi, hj, (readFitting_eq_some.mp h₁).1, (readFitting_eq_some.mp h₂).1, hc⟩

/-- The second half of the hello decoder. -/
theorem readHelloKey_safely {f : HelloFields} {peerId rest : List UInt8} (hf : readHelloFields input = some f)
    (h₁ : readFitting (toInt64 f.peerIdLen) f.rest = some (peerId, rest)) :
    Safely (readHelloKey (some input.length) f peerId rest)
        (fun m => IsHelloArray input m.peerId.length m.publicKey.length m.peerId m.publicKey) ↔
      HelloKeyOk input f peerId rest := by
  unfold readHelloKey HelloKeyOk
  cases hr : (itemAt f.count 3 rest).bind byteStringAt with
  | none => simp
  | some r =>
    obtain rfl : rest = r := by
      simp only [Option.bind_eq_some_iff, itemAt_eq_some, byteStringAt_eq_some] at hr
      obtain ⟨_, ⟨-, rfl⟩, -, rfl⟩ := hr
      rfl
    simp only [Option.some.injEq, forall_eq']
    by_cases hs : 0 ≤ toInt64 f.publicKeyLen ∧ toInt64 f.publicKeyLen ≤ input.length
    swap
    · simp [Bool.eq_false_iff.mpr (mt onStack_some.mp hs), hs]
    simp only [onStack_some.mpr hs, Bool.not_true, Bool.false_eq_true, if_false, hs, true_and, and_self]
    cases h₂ : readFitting (toInt64 f.publicKeyLen) rest with
    | none => simp
    | some p =>
      obtain ⟨publicKey, r'⟩ := p
      simp only [Option.some.injEq, Prod.mk.injEq, safely_leaveArray]
      have hends : EndsWell f.count 4 r' (IsHelloArray input peerId.length publicKey.length peerId publicKey) ↔
          EndsWell f.count 4 r' (f.peerIdLen = peerId.length ∧ f.publicKeyLen = publicKey.length) := by
        refine endsWell_congr fun hc => ⟨fun h => ⟨(h.eq_fields hf).1.symm, (h.eq_fields hf).2.symm⟩, fun h => ?_⟩
        exact h.1 ▸ h.2 ▸ isHelloArray_of_fields hf h₁ h₂ hc
      rw [hends]
      constructor
      · rintro h _ _ ⟨rfl, rfl⟩
        exact h
      · exact fun h => h publicKey r' ⟨rfl, rfl⟩

theorem helloSafe_iff : HelloSafe input ↔ HelloInputOk input := by
  unfold HelloSafe HelloInputOk
  rw [cborDecodeHelloT_eq, readHello]
  cases hf : readHelloFields input with
  | none => simp
  | some f =>
    simp only [Option.some.injEq, forall_eq']
    by_cases hs : 0 ≤ toInt64 f.peerIdLen ∧ toInt64 f.peerIdLen ≤ input.length
    swap
    · simp [Bool.eq_false_iff.mpr (mt onStack_some.mp hs), hs]
    simp only [onStack_some.mpr hs, Bool.not_true, Bool.false_eq_true, if_false, hs, true_and, and_self]
    cases h₁ : readFitting (toInt64 f.peerIdLen) f.rest with
    | none => simp
    | some p =>
      obtain ⟨peerId, rest⟩ := p
      simp only [Option.some.injEq, Prod.mk.injEq]
      rw [readHelloKey_safely hf h₁]
      constructor
      · rintro h _ _ ⟨rfl, rfl⟩
        exact h
      · exact fun h => h peerId rest ⟨rfl, rfl⟩

end Hello

/-! ## Both decoders -/

/-- **Safe decoding**: exactly the inputs described by `MessageInputOk` and `HelloInputOk` are handled safely. -/
theorem decoders_safe_iff (input : List UInt8) :
    (MessageSafe input ↔ MessageInputOk input) ∧ (HelloSafe input ↔ HelloInputOk input) :=
  ⟨messageSafe_iff, helloSafe_iff⟩

/-- Inputs that are not: an array of four items fails an assertion, an integer that is not the length of the byte string
is accepted, and a byte string of `2 ^ 64 - 1` declared bytes or a hello with the integer -1 sizes a stack buffer. -/
theorem decoders_not_safe :
    (cborDecodeMessageT (some 5) [0x84, 0xe0, 0x00, 0x40, 0x00] = .error .assertion ∧
      ¬MessageSafe [0x84, 0xe0, 0x00, 0x40, 0x00]) ∧
    (cborDecodeMessageT (some 5) [0x83, 0xe0, 0x05, 0x41, 0x01] = .ok (some ⟨0, [1]⟩) ∧
      ¬MessageSafe [0x83, 0xe0, 0x05, 0x41, 0x01]) ∧
    (cborDecodeMessageT (some 12) [0x83, 0xe0, 0x00, 0x5b, 0xff, 0xff, 0xff, 0xff, 0xff, 0xff, 0xff, 0xff] =
        .error (.stackBuffer (2 ^ 64 - 1)) ∧
      ¬MessageSafe [0x83, 0xe0, 0x00, 0x5b, 0xff, 0xff, 0xff, 0xff, 0xff, 0xff, 0xff, 0xff]) ∧
    (cborDecodeHelloT (some 4) [0x84, 0x20, 0x00, 0x40] = .error (.stackBuffer (-1)) ∧
      ¬HelloSafe [0x84, 0x20, 0x00, 0x40]) := by
  refine ⟨⟨by decide, ?_⟩, ⟨by decide, ?_⟩, ⟨by decide, ?_⟩, by decide, ?_⟩
  · exact not_safely_of_error (f := .assertion) (by decide)
  · intro h
    obtain ⟨-, hends⟩ := messageSafe_iff.mp h ⟨some 3, 0, 5, 1, [0x01]⟩ (by decide)
    exact absurd ((hends (by decide)).1 (by decide)) (by decide)
  · exact not_safely_of_error (f := .stackBuffer (2 ^ 64 - 1)) (by decide)
  · exact not_safely_of_error (f := .stackBuffer (-1)) (by decide)

end Libcp2p

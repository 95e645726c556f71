import Libcp2p.Protobuf.Wire

/-!
# The grammar of protobuf messages

What a complete message is, whoever wrote it: fields one after another, each a front and a value whose extent the wire
type of the front tells. Groups are messages between two fronts.

`ProtobufMessage.unique`: the bytes of a message determine the numbers of its fields, because no varint, front or value
is the beginning of another one.
-/

namespace Libcp2p

/-- The front of a field: its number and wire type as a varint. -/
structure WireTag (number : Nat) (wireType : WireType) (tag : List UInt8) : Prop where
  form : VarintForm tag
  length_le : tag.length ≤ 10
  value_eq : varintValue tag = number * 8 + wireType.toNat
  number_pos : 1 ≤ number
  number_lt : number < 2 ^ 29

/-- The bytes of a value of a wire type. -/
inductive WireValue : WireType → List UInt8 → Prop
  | varint {bytes : List UInt8} (h : VarintForm bytes) (hl : bytes.length ≤ 10) : WireValue .varint bytes
  | bit64 {bytes : List UInt8} (h : bytes.length = 8) : WireValue .bit64 bytes
  | lengthDelimited {size value : List UInt8} (h : VarintForm size) (hl : size.length ≤ 10)
    (hv : varintValue size = value.length) : WireValue .lengthDelimited (size ++ value)
  | bit32 {bytes : List UInt8} (h : bytes.length = 4) : WireValue .bit32 bytes

/-- The bytes of a complete message, with the numbers of its fields. A group is a message between two fronts. -/
inductive ProtobufMessage : List Nat → List UInt8 → Prop
  | nil : ProtobufMessage [] []
  | field {number : Nat} {numbers : List Nat} {wireType : WireType} {tag value rest : List UInt8}
    (ht : WireTag number wireType tag) (hv : WireValue wireType value) (hrest : ProtobufMessage numbers rest) :
    ProtobufMessage (number :: numbers) (tag ++ (value ++ rest))
  | group {number : Nat} {inner numbers : List Nat} {tag body tag' rest : List UInt8}
    (ht : WireTag number .startGroup tag) (hbody : ProtobufMessage inner body) (ht' : WireTag number .endGroup tag')
    (hrest : ProtobufMessage numbers rest) : ProtobufMessage (number :: numbers) (tag ++ (body ++ (tag' ++ rest)))

/-- A front of one byte. -/
theorem wireTag_byte {number : Nat} {wireType : WireType} {byte : UInt8}
    (h : byte.toNat = number * 8 + wireType.toNat) (hpos : 1 ≤ number) (hbyte : byte.toNat < 128) :
    WireTag number wireType [byte] := by
  refine ⟨.last hbyte, by simp, ?_, hpos, by omega⟩
  rw [varintValue, varintValue, Nat.mod_eq_of_lt hbyte, Nat.mul_zero, Nat.add_zero, h]

/-! ## Reading a message in one way -/

section Unique

variable {x y : List UInt8}

/-- No varint is the beginning of another one. -/
theorem VarintForm.append_inj {a b : List UInt8} (ha : VarintForm a) (hb : VarintForm b) (h : a ++ x = b ++ y) :
    a = b ∧ x = y := by
  induction ha generalizing b with
  | @last byte hbyte =>
    cases hb with
    | last _ =>
      obtain ⟨rfl, hrest⟩ := List.cons.inj h
      exact ⟨rfl, hrest⟩
    | more hmore _ =>
      obtain ⟨rfl, -⟩ := List.cons.inj h
      omega
  | @more byte bytes hbyte _ ih =>
    cases hb with
    | last hlast =>
      obtain ⟨rfl, -⟩ := List.cons.inj h
      omega
    | more _ tail =>
      obtain ⟨rfl, hrest⟩ := List.cons.inj h
      obtain ⟨rfl, hxy⟩ := ih tail hrest
      exact ⟨rfl, hxy⟩

/-- A front tells the number and the wire type. -/
theorem WireTag.append_inj {m n : Nat} {s t : WireType} {a b : List UInt8} (ha : WireTag m s a) (hb : WireTag n t b)
    (h : a ++ x = b ++ y) : m = n ∧ s = t ∧ a = b ∧ x = y := by
  obtain ⟨rfl, hxy⟩ := ha.form.append_inj hb.form h
  have hvalue := ha.value_eq.symm.trans hb.value_eq
  have hs : s.toNat < 8 := by cases s <;> decide
  have ht : t.toNat < 8 := by cases t <;> decide
  have htypes : s.toNat = t.toNat := by omega
  refine ⟨by omega, ?_, rfl, hxy⟩
  cases s <;> cases t <;> first | rfl | cases htypes

/-- The wire type of a value tells where it ends. -/
theorem WireValue.append_inj {t : WireType} {a b : List UInt8} (ha : WireValue t a) (hb : WireValue t b)
    (h : a ++ x = b ++ y) : a = b ∧ x = y := by
  cases ha with
  | varint hf _ =>
    cases hb with
    | varint hf' _ => exact hf.append_inj hf' h
  | bit64 hl =>
    cases hb with
    | bit64 hl' => exact List.append_inj h (hl.trans hl'.symm)
  | bit32 hl =>
    cases hb with
    | bit32 hl' => exact List.append_inj h (hl.trans hl'.symm)
  | lengthDelimited hf _ hv =>
    cases hb with
    | lengthDelimited hf' _ hv' =>
      rw [List.append_assoc, List.append_assoc] at h
      obtain ⟨rfl, hrest⟩ := hf.append_inj hf' h
      obtain ⟨rfl, hxy⟩ := List.append_inj hrest (hv.symm.trans hv')
      exact ⟨rfl, hxy⟩

/-- What may follow a message: nothing, or the front that closes the group it is in. -/
def EndsMessage (x : List UInt8) : Prop := x = [] ∨ ∃ n tag rest, WireTag n .endGroup tag ∧ x = tag ++ rest

/-- No field starts where a message ends. -/
theorem EndsMessage.ne_front {n : Nat} {t : WireType} {tag rest : List UInt8} (hx : EndsMessage x)
    (ht : WireTag n t tag) (hne : t ≠ .endGroup) : x ≠ tag ++ rest := by
  rintro rfl
  rcases hx with hnil | ⟨m, tag', rest', ht', heq⟩
  · have hpos := ht.form.length_pos
    rw [(List.append_eq_nil_iff.mp hnil).1] at hpos
    exact Nat.lt_irrefl _ hpos
  · exact hne (ht.append_inj ht' heq).2.1

theorem WireValue.ne_group {t : WireType} {value : List UInt8} (h : WireValue t value) :
    t ≠ .startGroup ∧ t ≠ .endGroup := by
  cases h <;> exact ⟨nofun, nofun⟩

/-- A message that is followed by its end is read in one way only. -/
theorem ProtobufMessage.append_inj {m n : List Nat} {a b : List UInt8} (ha : ProtobufMessage m a)
    (hb : ProtobufMessage n b) (hx : EndsMessage x) (hy : EndsMessage y) (h : a ++ x = b ++ y) :
    m = n ∧ a = b ∧ x = y := by
  induction ha generalizing n b x y with
  | nil =>
    cases hb with
    | nil => exact ⟨rfl, rfl, h⟩
    | field ht hv _ =>
      rw [List.append_assoc] at h
      exact absurd h (hx.ne_front ht hv.ne_group.2)
    | group ht _ _ _ =>
      rw [List.append_assoc] at h
      exact absurd h (hx.ne_front ht nofun)
  | field ht hv _ ih =>
    rw [List.append_assoc, List.append_assoc] at h
    cases hb with
    | nil => exact absurd h.symm (hy.ne_front ht hv.ne_group.2)
    | field ht' hv' hrest' =>
      rw [List.append_assoc, List.append_assoc] at h
      obtain ⟨rfl, rfl, rfl, hvalue⟩ := ht.append_inj ht' h
      obtain ⟨rfl, hrest⟩ := hv.append_inj hv' hvalue
      obtain ⟨rfl, rfl, hxy⟩ := ih hrest' hx hy hrest
      exact ⟨rfl, rfl, hxy⟩
    | group ht' _ _ _ =>
      rw [List.append_assoc] at h
      exact absurd (ht.append_inj ht' h).2.1 hv.ne_group.1
  | group ht _ hend _ ihbody ih =>
    simp only [List.append_assoc] at h
    cases hb with
    | nil => exact absurd h.symm (hy.ne_front ht nofun)
    | field ht' hv' _ =>
      rw [List.append_assoc] at h
      exact absurd (ht.append_inj ht' h).2.1.symm hv'.ne_group.1
    | group ht' hbody' hend' hrest' =>
      simp only [List.append_assoc] at h
      obtain ⟨rfl, -, rfl, hbody⟩ := ht.append_inj ht' h
      obtain ⟨-, rfl, hclose⟩ := ihbody hbody' (.inr ⟨_, _, _, hend, rfl⟩) (.inr ⟨_, _, _, hend', rfl⟩) hbody
      obtain ⟨-, -, rfl, hrest⟩ := hend.append_inj hend' hclose
      obtain ⟨rfl, rfl, hxy⟩ := ih hrest' hx hy hrest
      exact ⟨rfl, rfl, hxy⟩

end Unique

/-- **A message has one list of fields.** -/
theorem ProtobufMessage.unique {m n : List Nat} {bytes : List UInt8} (hm : ProtobufMessage m bytes)
    (hn : ProtobufMessage n bytes) : m = n := (hm.append_inj hn (.inl rfl) (.inl rfl) (by rfl)).1

end Libcp2p

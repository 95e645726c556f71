import Libcp2p.Lib.Comparison
import Libcp2p.Multiaddr.Accessors

/-!
# Comparing addresses

The header documents for `multi_address_compare` a negative result where its second argument is the greater one. The
differences it returns are taken the other way round, those of `multi_address_compare_id` are not.

* `addressOrder`: the order of addresses, the null pointer being least.
* `compares_multiAddressCompare`: what is really compared is the reverse of that order, with the null pointer least
  again.
* `compares_multiAddressCompareId`: peer ids are compared as documented.
* `multiAddressCompare_sign_iff`: exactly the pairs that are compared as documented.
-/

namespace Libcp2p

/-! ## The functions -/

/-- `multi_address_compare`; a null pointer is `none`. The difference of the lengths is taken in `size_t` and becomes an
`int`, so that lengths below 2 GiB are equal where the bytes are looked at. -/
def multiAddressCompare : Option MultiAddress → Option MultiAddress → Int
  | none, none => 0
  | none, some _ => -1
  | some _, none => 1
  | some a, some b =>
    let total := toInt32 (toUInt64 (b.bytes.length - a.bytes.length))
    if total ≠ 0 then total else firstDifference a.bytes b.bytes

/-- `multi_address_compare_id` of two addresses, with the outcomes of the allocations for their ids. -/
def multiAddressCompareId (a b : MultiAddress) (allocA allocB : Bool) : Int :=
  match multiAddressGetPeerId a allocA, multiAddressGetPeerId b allocB with
  | none, none => 0
  | none, some _ => -1
  | some _, none => 1
  | some aId, some bId => strcmp aId bId

/-! ## The orders -/

/-- The order of addresses: the length of the bytes, then the bytes. -/
def MultiAddress.order (ma : MultiAddress) : Nat ×ₗ List Nat := toLex (ma.bytes.length, byteOrder ma.bytes)

/-- The order of pointers to addresses: the null pointer is least. -/
def addressOrder : Option MultiAddress → WithBot (Nat ×ₗ List Nat)
  | none => ⊥
  | some ma => (ma.order : WithBot _)

/-- The reverse order, the null pointer being least again. -/
def reverseOrder : Option MultiAddress → WithBot (Nat ×ₗ List Nat)ᵒᵈ
  | none => ⊥
  | some ma => ((OrderDual.toDual ma.order : (Nat ×ₗ List Nat)ᵒᵈ) : WithBot _)

/-- The order of peer ids: the null pointer is least, the others are ordered as strings. -/
def peerIdOrder : Option (List UInt8) → WithBot (List Nat)
  | none => ⊥
  | some id => (byteOrder id : WithBot _)

theorem MultiAddress.order_inj {a b : MultiAddress} : a.order = b.order ↔ a.bytes = b.bytes := by
  constructor
  · intro h
    exact byteOrder_inj.mp (Prod.mk.inj (toLex_inj.mp h)).2
  · intro h
    rw [MultiAddress.order, MultiAddress.order, h]

theorem reverseOrder_inj {a b : Option MultiAddress} :
    reverseOrder a = reverseOrder b ↔ a.map MultiAddress.bytes = b.map MultiAddress.bytes := by
  cases a with
  | none => cases b <;> simp [reverseOrder]
  | some a => cases b <;> simp [reverseOrder, MultiAddress.order_inj]

section Compare

variable {a b c : Option MultiAddress}

/-- Two addresses are compared by the differences of the second from the first. -/
theorem compares_address {a b : MultiAddress} (ha : a.bytes.length < 2 ^ 31) (hb : b.bytes.length < 2 ^ 31) :
    Compares (multiAddressCompare (some a) (some b)) a.order b.order := by
  have hlength := compares_natCast_sub a.bytes.length b.bytes.length
  have hzero : (b.bytes.length : Int) - a.bytes.length ≠ 0 ↔ a.bytes.length ≠ b.bytes.length := by omega
  simp only [multiAddressCompare, toInt32_toUInt64_sub ha hb, hzero]
  exact hlength.ite_prod compares_firstDifference

theorem compares_multiAddressCompare (ha : ∀ x ∈ a, x.bytes.length < 2 ^ 31) (hb : ∀ x ∈ b, x.bytes.length < 2 ^ 31) :
    Compares (multiAddressCompare a b) (reverseOrder b) (reverseOrder a) := by
  cases a with
  | none =>
    cases b with
    | none => exact compares_self (reverseOrder none)
    | some b => exact compares_coe_bot (OrderDual.toDual b.order)
  | some a =>
    cases b with
    | none => exact compares_bot_coe (OrderDual.toDual a.order)
    | some b => exact (compares_address (ha a rfl) (hb b rfl)).toDual.coe

/-- Whether two addresses are compared as documented. -/
theorem compares_addressOrder_iff (ha : ∀ x ∈ a, x.bytes.length < 2 ^ 31) (hb : ∀ x ∈ b, x.bytes.length < 2 ^ 31) :
    Compares (multiAddressCompare a b) (addressOrder b) (addressOrder a) ↔
      a = none ∨ b = none ∨ a.map MultiAddress.bytes = b.map MultiAddress.bytes := by
  cases a with
  | none =>
    refine iff_of_true ?_ (.inl rfl)
    cases b with
    | none => exact compares_self (addressOrder none)
    | some b => exact compares_coe_bot b.order
  | some a =>
    cases b with
    | none => exact iff_of_true (compares_bot_coe a.order) (.inr (.inl rfl))
    | some b =>
      have h := (compares_address (ha a rfl) (hb b rfl)).coe.flip_iff
      refine h.trans ?_
      simp [MultiAddress.order_inj]

/-- The peer id of a string has no NUL. -/
theorem notMem_peerId {ma : MultiAddress} {alloc : Bool} {id : List UInt8}
    (h : multiAddressGetPeerId ma alloc = some id) (hz : 0 ∉ ma.string) : 0 ∉ id := by
  unfold multiAddressGetPeerId at h
  split at h
  · cases h
  · dsimp only at h
    split at h
    · cases h
    · split at h
      · cases h
        intro hmem
        exact hz (List.mem_of_mem_drop (List.mem_of_mem_take hmem))
      · cases h

theorem compares_multiAddressCompareId {a b : MultiAddress} (ha : 0 ∉ a.string) (hb : 0 ∉ b.string)
    (allocA allocB : Bool) :
    Compares (multiAddressCompareId a b allocA allocB) (peerIdOrder (multiAddressGetPeerId b allocB))
      (peerIdOrder (multiAddressGetPeerId a allocA)) := by
  unfold multiAddressCompareId
  cases hida : multiAddressGetPeerId a allocA with
  | none =>
    cases hidb : multiAddressGetPeerId b allocB with
    | none => exact compares_self (peerIdOrder none)
    | some idb => exact compares_coe_bot (byteOrder idb)
  | some ida =>
    cases hidb : multiAddressGetPeerId b allocB with
    | none => exact compares_bot_coe (byteOrder ida)
    | some idb => exact (compares_strcmp (notMem_peerId hida ha) (notMem_peerId hidb hb)).coe

end Compare

/-- **The sign of a comparison.** Two addresses are compared as documented exactly when one of them is null or their
bytes are equal. The comparison is antisymmetric and transitive all the same and 0 exactly for equal bytes, and peer
ids are always compared as documented. -/
theorem multiAddressCompare_sign_iff (a b c : Option MultiAddress) (ha : ∀ x ∈ a, x.bytes.length < 2 ^ 31)
    (hb : ∀ x ∈ b, x.bytes.length < 2 ^ 31) (hc : ∀ x ∈ c, x.bytes.length < 2 ^ 31) :
    (Compares (multiAddressCompare a b) (addressOrder b) (addressOrder a) ↔
        a = none ∨ b = none ∨ a.map MultiAddress.bytes = b.map MultiAddress.bytes) ∧
      (multiAddressCompare a b = 0 ↔ a.map MultiAddress.bytes = b.map MultiAddress.bytes) ∧
      ((multiAddressCompare b a < 0 ↔ 0 < multiAddressCompare a b) ∧
        (0 < multiAddressCompare b a ↔ multiAddressCompare a b < 0)) ∧
      (multiAddressCompare a b ≤ 0 → multiAddressCompare b c ≤ 0 → multiAddressCompare a c ≤ 0) ∧
      ∀ x y : MultiAddress, 0 ∉ x.string → 0 ∉ y.string → ∀ allocX allocY,
        Compares (multiAddressCompareId x y allocX allocY) (peerIdOrder (multiAddressGetPeerId y allocY))
          (peerIdOrder (multiAddressGetPeerId x allocX)) := by
  have hab := compares_multiAddressCompare ha hb
  have hba := compares_multiAddressCompare hb ha
  have hbc := compares_multiAddressCompare hb hc
  have hac := compares_multiAddressCompare ha hc
  refine ⟨compares_addressOrder_iff ha hb, ?_, hab.opposite hba, ?_, ?_⟩
  · rw [hab.eq_zero_iff, eq_comm, reverseOrder_inj]
  · intro h h'
    exact hbc.trans_nonpos hab hac h' h
  · intro x y hx hy allocX allocY
    exact compares_multiAddressCompareId hx hy allocX allocY

/-- Addresses whose lengths differ by more than a byte can hold. -/
theorem multiAddressCompare_sign_iff_lengths :
    let a : Option MultiAddress := some ⟨[], [4, 127, 0, 0, 1]⟩
    let b : Option MultiAddress := some ⟨[], List.replicate 300 4⟩
    Compares (multiAddressCompare b b) (addressOrder b) (addressOrder b) ∧
      ¬Compares (multiAddressCompare a b) (addressOrder b) (addressOrder a) := by
  intro a b
  have ha : ∀ x ∈ a, x.bytes.length < 2 ^ 31 := by
    intro x hx
    obtain rfl := Option.some.inj hx
    decide
  have hb : ∀ x ∈ b, x.bytes.length < 2 ^ 31 := by
    intro x hx
    obtain rfl := Option.some.inj hx
    rw [List.length_replicate]
    decide
  refine ⟨(multiAddressCompare_sign_iff b b none hb hb (by simp)).1.mpr (.inr (.inr rfl)), fun h => ?_⟩
  rcases (multiAddressCompare_sign_iff a b none ha hb (by simp)).1.mp h with h | h | h
  · exact absurd h (Option.some_ne_none _)
  · exact absurd h (Option.some_ne_none _)
  · have hlen := congrArg List.length (Option.some.inj h)
    rw [List.length_replicate] at hlen
    exact absurd hlen (by decide)

/-- The byte 2 is greater than the byte 1, and the result is positive. -/
theorem multiAddressCompare_not_documented :
    multiAddressCompare (some ⟨[], [1]⟩) (some ⟨[], [2]⟩) = 1 ∧
      addressOrder (some ⟨[], [1]⟩) < addressOrder (some ⟨[], [2]⟩) := by
  refine ⟨by decide, ?_⟩
  apply WithBot.coe_lt_coe.mpr
  apply Prod.Lex.toLex_lt_toLex.mpr
  exact .inr ⟨rfl, by decide⟩

end Libcp2p

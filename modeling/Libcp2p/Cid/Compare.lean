import Libcp2p.Cid.Cid
import Libcp2p.Lib.Comparison

/-!
# Comparing content ids

`ipfsCidCompare` goes through version, codec, length and bytes of the hash, and returns the first difference.

`ipfsCidCompare_order`: for versions 0 and 1, codecs that are not negative and hashes below 2 GiB it compares in one
linear order, `cidOrder`, with a negative result where its first argument is the greater one.
-/

namespace Libcp2p

/-- `ipfs_cid_compare`; a null pointer is `none`. The difference of the lengths is taken in `size_t` and returned as an
`int`, the others are taken in `int`. -/
def ipfsCidCompare : Option Cid → Option Cid → Int
  | none, none => 0
  | some _, none => -1
  | none, some _ => 1
  | some a, some b =>
    if a.version ≠ b.version then toInt32 (b.version - a.version)
    else if a.codec ≠ b.codec then toInt32 (b.codec - a.codec)
    else if a.hash.length ≠ b.hash.length then toInt32 (toUInt64 (b.hash.length - a.hash.length))
    else firstDifference a.hash b.hash

/-- The order of content ids: version, codec, length of the hash and its bytes, one after the other. -/
def Cid.order (c : Cid) : Int ×ₗ Int ×ₗ Nat ×ₗ List Nat :=
  toLex (c.version, toLex (c.codec, toLex (c.hash.length, byteOrder c.hash)))

/-- The order of pointers to content ids: the null pointer is least. -/
def cidOrder : Option Cid → WithBot (Int ×ₗ Int ×ₗ Nat ×ₗ List Nat)
  | none => ⊥
  | some c => (c.order : WithBot _)

theorem Cid.order_inj {a b : Cid} : a.order = b.order ↔ a = b := by
  constructor
  · intro h
    obtain ⟨hversion, hrest⟩ := Prod.mk.inj (toLex_inj.mp h)
    obtain ⟨hcodec, hhash⟩ := Prod.mk.inj (toLex_inj.mp hrest)
    have hbytes := byteOrder_inj.mp (Prod.mk.inj (toLex_inj.mp hhash)).2
    cases a
    cases b
    simp only at hversion hcodec hbytes
    rw [hversion, hcodec, hbytes]
  · rintro rfl
    rfl

theorem cidOrder_inj {a b : Option Cid} : cidOrder a = cidOrder b ↔ a = b := by
  cases a with
  | none => cases b <;> simp [cidOrder]
  | some a => cases b <;> simp [cidOrder, Cid.order_inj]

/-- The values between which no difference overflows. -/
structure Cid.InRange (c : Cid) : Prop where
  version : c.version = 0 ∨ c.version = 1
  codec_nonneg : 0 ≤ c.codec
  codec_lt : c.codec < 2 ^ 31
  hash : c.hash.length < 2 ^ 31

section Order

variable {a b c : Option Cid}

theorem toInt32_sub {m n : Int} (hm : 0 ≤ m) (hm' : m < 2 ^ 31) (hn : 0 ≤ n) (hn' : n < 2 ^ 31) :
    toInt32 (n - m) = n - m := by
  unfold toInt32
  omega

/-- The four stages, one after the other. -/
theorem compares_cid {a b : Cid} (ha : a.InRange) (hb : b.InRange) :
    Compares (ipfsCidCompare (some a) (some b)) (cidOrder (some a)) (cidOrder (some b)) := by
  obtain ⟨hav, hac, hac', hah⟩ := ha
  obtain ⟨hbv, hbc, hbc', hbh⟩ := hb
  have hversion : Compares (toInt32 (b.version - a.version)) a.version b.version := by
    rw [toInt32_sub (by omega) (by omega) (by omega) (by omega)]
    exact compares_sub _ _
  have hcodec : Compares (toInt32 (b.codec - a.codec)) a.codec b.codec := by
    rw [toInt32_sub hac hac' hbc hbc']
    exact compares_sub _ _
  have hlength : Compares (toInt32 (toUInt64 (b.hash.length - a.hash.length))) a.hash.length b.hash.length := by
    rw [toInt32_toUInt64_sub hah hbh]
    exact compares_natCast_sub _ _
  have hstages : Compares (ipfsCidCompare (some a) (some b)) a.order b.order :=
    hversion.ite_prod fun _ => hcodec.ite_prod fun _ => hlength.ite_prod compares_firstDifference
  exact hstages.coe

theorem compares_ipfsCidCompare (ha : ∀ x ∈ a, x.InRange) (hb : ∀ x ∈ b, x.InRange) :
    Compares (ipfsCidCompare a b) (cidOrder a) (cidOrder b) := by
  cases a with
  | none =>
    cases b with
    | none => exact compares_self (cidOrder none)
    | some b => exact compares_bot_coe b.order
  | some a =>
    cases b with
    | none => exact compares_coe_bot a.order
    | some b => exact compares_cid (ha a rfl) (hb b rfl)

end Order

/-- **The order of content ids.** The comparison is negative exactly when its first argument is greater in `cidOrder`
and positive exactly when the second one is, its two directions have opposite signs, it is transitive, and it is 0
exactly for two null pointers and for content ids all of whose fields are equal. -/
theorem ipfsCidCompare_order (a b c : Option Cid) (ha : ∀ x ∈ a, x.InRange) (hb : ∀ x ∈ b, x.InRange)
    (hc : ∀ x ∈ c, x.InRange) :
    Compares (ipfsCidCompare a b) (cidOrder a) (cidOrder b) ∧
      ((ipfsCidCompare b a < 0 ↔ 0 < ipfsCidCompare a b) ∧ (0 < ipfsCidCompare b a ↔ ipfsCidCompare a b < 0)) ∧
      (ipfsCidCompare a b ≤ 0 → ipfsCidCompare b c ≤ 0 → ipfsCidCompare a c ≤ 0) ∧
      (ipfsCidCompare a b = 0 ↔ a = b) := by
  have hab := compares_ipfsCidCompare ha hb
  have hba := compares_ipfsCidCompare hb ha
  have hbc := compares_ipfsCidCompare hb hc
  have hac := compares_ipfsCidCompare ha hc
  refine ⟨hab, hab.opposite hba, hab.trans_nonpos hbc hac, ?_⟩
  rw [hab.eq_zero_iff, cidOrder_inj]

/-- A null pointer, and two content ids that differ in their last byte only. -/
theorem ipfsCidCompare_order_three :
    Compares (ipfsCidCompare (some ⟨1, 0x70, [1, 3]⟩) (some ⟨1, 0x70, [1, 2]⟩)) (cidOrder (some ⟨1, 0x70, [1, 3]⟩))
        (cidOrder (some ⟨1, 0x70, [1, 2]⟩)) ∧
      (ipfsCidCompare (some ⟨1, 0x70, [1, 3]⟩) (some ⟨1, 0x70, [1, 2]⟩) ≤ 0 →
        ipfsCidCompare (some ⟨1, 0x70, [1, 2]⟩) none ≤ 0 → ipfsCidCompare (some ⟨1, 0x70, [1, 3]⟩) none ≤ 0) := by
  have hrange (x y : UInt8) : ∀ c ∈ some (Cid.mk 1 0x70 [x, y]), c.InRange := by
    rintro c ⟨⟩
    constructor <;> simp
  obtain ⟨hsign, -, htrans, -⟩ := ipfsCidCompare_order (some ⟨1, 0x70, [1, 3]⟩) (some ⟨1, 0x70, [1, 2]⟩) none
    (hrange 1 3) (hrange 1 2) (by simp)
  exact ⟨hsign, htrans⟩

end Libcp2p

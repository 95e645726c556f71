import Libcp2p.Lib.CMemory

/-!
# Hexadecimal text

Digits of either case are read by `hexValue`, lower-case and upper-case digits written by `hexLower` and `hexUpper`;
`hexText` is the text of two digits for each byte, as `%02x` and `%02X` write it. `Base16Encodes` says what a text of
either case denotes (`hexText_encodes`).
-/

namespace Libcp2p

/-- The value of a hexadecimal digit of either case. -/
def hexValue (c : UInt8) : Option Nat :=
  if 48 ≤ c ∧ c ≤ 57 then some (c.toNat - 48)
  else if 97 ≤ c ∧ c ≤ 102 then some (c.toNat - 87)
  else if 65 ≤ c ∧ c ≤ 70 then some (c.toNat - 55)
  else none

/-- The lower-case digit of `d`. -/
def hexLower (d : Nat) : UInt8 := UInt8.ofNat (if d < 10 then 48 + d else 87 + d)

theorem hexValue_hexLower {d : Nat} (h : d < 16) : hexValue (hexLower d) = some d := by
  have : ∀ d < 16, hexValue (hexLower d) = some d := by decide
  exact this d h

/-- The upper-case digit of `d`. -/
def hexUpper (d : Nat) : UInt8 := UInt8.ofNat (if d < 10 then 48 + d else 55 + d)

theorem hexValue_hexUpper {d : Nat} (h : d < 16) : hexValue (hexUpper d) = some d := by
  have : ∀ d < 16, hexValue (hexUpper d) = some d := by decide
  exact this d h

/-- Two digits for each byte. -/
def hexText (digit : Nat → UInt8) : List UInt8 → List UInt8
  | [] => []
  | b :: bs => digit (b.toNat / 16) :: digit (b.toNat % 16) :: hexText digit bs

/-- Two lower-case digits for each byte. -/
def hexLowerText : List UInt8 → List UInt8 := hexText hexLower

/-- Two upper-case digits for each byte. -/
def hexUpperText : List UInt8 → List UInt8 := hexText hexUpper

theorem length_hexText (digit : Nat → UInt8) (bs : List UInt8) : (hexText digit bs).length = 2 * bs.length := by
  induction bs with
  | nil => rfl
  | cons b bs ih => simp only [hexText, List.length_cons, ih]; omega

@[simp] theorem length_hexLowerText (bs : List UInt8) : (hexLowerText bs).length = 2 * bs.length := length_hexText _ bs

theorem hexText_append (digit : Nat → UInt8) (bs cs : List UInt8) :
    hexText digit (bs ++ cs) = hexText digit bs ++ hexText digit cs := by
  induction bs with
  | nil => rfl
  | cons b bs ih => simp only [List.cons_append, hexText, ih]

/-- Well-formed base16: two digits of either case for each byte. -/
inductive Base16Encodes : List UInt8 → List UInt8 → Prop
  | nil : Base16Encodes [] []
  | pair {c c' : UInt8} {v v' : Nat} {payload d : List UInt8} (h : hexValue c = some v) (h' : hexValue c' = some v')
    (hp : Base16Encodes payload d) : Base16Encodes (c :: c' :: payload) (UInt8.ofNat (16 * v + v') :: d)

theorem Base16Encodes.length {payload d : List UInt8} (h : Base16Encodes payload d) :
    payload.length = 2 * d.length := by
  induction h with
  | nil => rfl
  | pair _ _ _ ih => simp only [List.length_cons, ih]; omega

/-- Digits are no NUL. -/
theorem Base16Encodes.zero_notMem {payload d : List UInt8} (h : Base16Encodes payload d) : 0 ∉ payload := by
  induction h with
  | nil => exact List.not_mem_nil
  | pair hc hc' _ ih =>
    intro hzero
    rcases List.mem_cons.mp hzero with rfl | hzero
    · cases hc
    · rcases List.mem_cons.mp hzero with rfl | hzero
      · cases hc'
      · exact ih hzero

theorem Base16Encodes.append {payload d payload' d' : List UInt8} (h : Base16Encodes payload d)
    (h' : Base16Encodes payload' d') : Base16Encodes (payload ++ payload') (d ++ d') := by
  induction h with
  | nil => exact h'
  | pair hc hc' _ ih => exact .pair hc hc' ih

theorem Base16Encodes.flatMap {α : Type} {f g : α → List UInt8} {l : List α}
    (h : ∀ a ∈ l, Base16Encodes (f a) (g a)) : Base16Encodes (l.flatMap f) (l.flatMap g) := by
  induction l with
  | nil => exact .nil
  | cons a l ih => exact (h a List.mem_cons_self).append (ih fun b hb => h b (List.mem_cons_of_mem a hb))

/-- A text denotes one array at most. -/
theorem Base16Encodes.unique {payload d d' : List UInt8} (h : Base16Encodes payload d) (h' : Base16Encodes payload d') :
    d = d' := by
  induction h generalizing d' with
  | nil =>
    cases h'
    rfl
  | pair hc hc' _ ih =>
    cases h' with
    | pair gc gc' hp =>
      rw [hc] at gc
      rw [hc'] at gc'
      cases gc
      cases gc'
      rw [ih hp]

theorem hexText_encodes {digit : Nat → UInt8} (hdigit : ∀ d < 16, hexValue (digit d) = some d) (bs : List UInt8) :
    Base16Encodes (hexText digit bs) bs := by
  induction bs with
  | nil => exact .nil
  | cons b bs ih =>
    have hb := b.toNat_lt
    have hp := Base16Encodes.pair (hdigit (b.toNat / 16) (by omega)) (hdigit (b.toNat % 16) (by omega)) ih
    rw [Nat.div_add_mod, UInt8.ofNat_toNat] at hp
    exact hp

/-- The first byte that a text denotes. -/
theorem Base16Encodes.exists_cons {digit : Nat → UInt8} (hdigit : ∀ d < 16, hexValue (digit d) = some d) {b : UInt8}
    {payload d : List UInt8} (h : Base16Encodes (hexText digit [b] ++ payload) d) : ∃ rest, d = b :: rest := by
  have hb := b.toNat_lt
  cases h with
  | pair hc hc' hp =>
    rw [hdigit _ (by omega)] at hc hc'
    cases hc
    cases hc'
    rw [Nat.div_add_mod, UInt8.ofNat_toNat]
    exact ⟨_, rfl⟩

theorem hexLowerText_encodes (bs : List UInt8) : Base16Encodes (hexLowerText bs) bs :=
  hexText_encodes (fun _ h => hexValue_hexLower h) bs

theorem hexUpperText_encodes (bs : List UInt8) : Base16Encodes (hexUpperText bs) bs :=
  hexText_encodes (fun _ h => hexValue_hexUpper h) bs

end Libcp2p

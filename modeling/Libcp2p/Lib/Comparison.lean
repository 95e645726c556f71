import Mathlib.Data.List.Lex
import Mathlib.Data.Prod.Lex
import Mathlib.Order.WithBot
import Libcp2p.Lib.CMemory

/-!
# Comparisons that return a number

A C comparison returns an `int` whose sign tells which of two values is greater. `Compares d x y` says that `d` is such
a number for the elements `x` and `y` of a linear order. A comparison in stages, each deciding only what the earlier
ones left equal, compares in the lexicographic order of its stages.

* `Compares.ite_prod`, `Compares.toDual` and `Compares.coe`: one more stage, the reverse order, a least value.
* `compares_firstDifference`: the loop that stops at the first different byte, on arrays of one length.
* `compares_strcmp`: strings, of any lengths.
-/

namespace Libcp2p

section Compares

variable {α β : Type} [LinearOrder α] [LinearOrder β] {d e f : Int} {x y z : α}

/-- `d` compares `x` with `y`: it is negative where `x` is greater and positive where `y` is. -/
def Compares (d : Int) (x y : α) : Prop := (d < 0 ↔ y < x) ∧ (0 < d ↔ x < y)

theorem Compares.eq_zero_iff (h : Compares d x y) : d = 0 ↔ x = y := by
  obtain ⟨hneg, hpos⟩ := h
  constructor
  · intro hd
    subst hd
    exact le_antisymm (not_lt.mp (mt hneg.mpr (lt_irrefl _))) (not_lt.mp (mt hpos.mpr (lt_irrefl _)))
  · rintro rfl
    have hnneg := mt hneg.mp (lt_irrefl x)
    have hnpos := mt hpos.mp (lt_irrefl x)
    omega

theorem Compares.nonpos_iff (h : Compares d x y) : d ≤ 0 ↔ y ≤ x := by
  rw [← not_lt, ← not_lt, h.2]

/-- The two ways to compare two values have opposite signs. -/
theorem Compares.opposite (h : Compares d x y) (h' : Compares e y x) : (e < 0 ↔ 0 < d) ∧ (0 < e ↔ d < 0) :=
  ⟨h'.1.trans h.2.symm, h'.2.trans h.1.symm⟩

/-- Comparisons are transitive. -/
theorem Compares.trans_nonpos (h : Compares d x y) (h' : Compares e y z) (h'' : Compares f x z) (hd : d ≤ 0)
    (he : e ≤ 0) : f ≤ 0 :=
  h''.nonpos_iff.mpr (le_trans (h'.nonpos_iff.mp he) (h.nonpos_iff.mp hd))

/-- Only equal values are compared as well the other way round. -/
theorem Compares.flip_iff (h : Compares d x y) : Compares d y x ↔ x = y := by
  constructor
  · intro h'
    by_contra hne
    rcases lt_or_gt_of_ne hne with hlt | hlt
    · exact absurd (h.2.mpr hlt) (not_lt.mpr (le_of_lt (h'.1.mpr hlt)))
    · exact absurd (h'.2.mpr hlt) (not_lt.mpr (le_of_lt (h.1.mpr hlt)))
  · rintro rfl
    exact h

theorem compares_self (x : α) : Compares 0 x x := by
  constructor <;> simp

theorem compares_sub (i j : Int) : Compares (j - i) i j := by
  constructor <;> omega

theorem compares_natCast_sub (m n : Nat) : Compares ((n : Int) - m) m n := by
  constructor <;> omega

/-- A stage that decides unless its values are equal, and the stages after it. -/
theorem Compares.ite_prod {u v : β} (h : Compares d x y) (h' : x = y → Compares e u v) :
    Compares (if x ≠ y then d else e) (toLex (x, u)) (toLex (y, v)) := by
  unfold Compares
  rw [Prod.Lex.toLex_lt_toLex, Prod.Lex.toLex_lt_toLex]
  by_cases hxy : x = y
  · subst hxy
    simpa using And.intro (h' rfl).1 (h' rfl).2
  · simpa [hxy, Ne.symm hxy] using And.intro h.1 h.2

/-- The reverse order is compared the other way round. -/
theorem Compares.toDual (h : Compares d x y) : Compares d (OrderDual.toDual y) (OrderDual.toDual x) := by
  unfold Compares
  rwa [OrderDual.toDual_lt_toDual, OrderDual.toDual_lt_toDual]

/-- A least value does not change the comparison of the others. -/
theorem Compares.coe (h : Compares d x y) : Compares d (x : WithBot α) y := by
  unfold Compares
  rwa [WithBot.coe_lt_coe, WithBot.coe_lt_coe]

theorem compares_bot_coe (x : α) : Compares 1 (⊥ : WithBot α) x := by
  constructor <;> simp

theorem compares_coe_bot (x : α) : Compares (-1) (x : WithBot α) ⊥ := by
  constructor <;> simp

end Compares

/-! ## Bytes -/

/-- Bytes as numbers, in the order of lists: lexicographic, a beginning of a list before the list. -/
def byteOrder (s : List UInt8) : List Nat := s.map UInt8.toNat

theorem byteOrder_inj {s t : List UInt8} : byteOrder s = byteOrder t ↔ s = t := by
  constructor
  · exact fun h => List.map_injective_iff.mpr (fun _ _ => UInt8.toNat_inj.mp) h
  · rintro rfl
    rfl

/-- The difference of the first two bytes that differ, of two arrays that are read together. -/
def firstDifference : List UInt8 → List UInt8 → Int
  | x :: a, y :: b => if x ≠ y then (y.toNat : Int) - x.toNat else firstDifference a b
  | _, _ => 0

section Bytes

variable {a b : List UInt8}

/-- One byte of two arrays. -/
theorem Compares.cons_byte {d : Int} (x y : UInt8) (h : Compares d (byteOrder a) (byteOrder b)) :
    Compares (if x ≠ y then (y.toNat : Int) - x.toNat else d) (byteOrder (x :: a)) (byteOrder (y :: b)) := by
  have hcons (u v : UInt8) (s t : List UInt8) : byteOrder (u :: s) < byteOrder (v :: t) ↔
      u.toNat < v.toNat ∨ u.toNat = v.toNat ∧ byteOrder s < byteOrder t := List.cons_lt_cons_iff
  unfold Compares
  rw [hcons, hcons]
  by_cases hxy : x = y
  · subst hxy
    simpa using And.intro h.1 h.2
  · have hne : x.toNat ≠ y.toNat := fun heq => hxy (UInt8.toNat_inj.mp heq)
    rw [if_pos hxy]
    constructor <;> omega

theorem compares_firstDifference (h : a.length = b.length) :
    Compares (firstDifference a b) (byteOrder a) (byteOrder b) := by
  induction a generalizing b with
  | nil =>
    rw [List.length_eq_zero_iff.mp h.symm]
    exact compares_self _
  | cons x a ih =>
    obtain ⟨y, b, rfl⟩ := List.exists_cons_of_length_eq_add_one h.symm
    exact (ih (Nat.succ.inj h)).cons_byte x y

/-- `strcmp`: it reads both strings with their NUL. Its value is not specified beyond its sign. -/
def strcmp (a b : List UInt8) : Int := firstDifference (b ++ [0]) (a ++ [0])

theorem compares_strcmp (ha : 0 ∉ a) (hb : 0 ∉ b) : Compares (strcmp a b) (byteOrder b) (byteOrder a) := by
  unfold strcmp
  induction b generalizing a with
  | nil =>
    cases a with
    | nil => exact compares_self _
    | cons x a =>
      have hx : 0 < x.toNat := Nat.pos_of_ne_zero fun h =>
        ha (by simp [UInt8.toNat_inj.mp (h.trans UInt8.toNat_zero.symm)])
      have hx0 : (0 : UInt8) ≠ x := fun h => ha (by simp [h])
      simp [firstDifference, Compares, byteOrder, hx0, hx]
  | cons y b ih =>
    cases a with
    | nil =>
      have hy : 0 < y.toNat := Nat.pos_of_ne_zero fun h =>
        hb (by simp [UInt8.toNat_inj.mp (h.trans UInt8.toNat_zero.symm)])
      have hy0 : y ≠ 0 := fun h => hb (by simp [h])
      simp [firstDifference, Compares, byteOrder, hy0, hy]
    | cons x a =>
      have ha' : 0 ∉ a := fun h => ha (List.mem_cons_of_mem _ h)
      have hb' : 0 ∉ b := fun h => hb (List.mem_cons_of_mem _ h)
      exact (ih ha' hb').cons_byte y x

end Bytes

end Libcp2p

import Mathlib.Tactic.Ring
import Mathlib.Data.List.Induction
import Mathlib.Data.Nat.Log

/-!
# Big-endian numbers

Fixed-width big-endian byte strings: `beBytes w n` writes the low `w` bytes of `n`, `beNat` reads a byte string of any
length. Reading what was written gives `n` back when it fits (`beNat_beBytes`), and a byte string is the writing of its
own value (`beBytes_beNat`), so for a fixed width the two are inverse to each other. Without a fixed width a number has
one shortest byte string that is not empty (`ShortestBytes`, `exists_shortestBytes`).
-/

namespace Libcp2p

/-- The number a byte string denotes, most significant byte first. -/
def beNat (bs : List UInt8) : Nat := bs.foldl (fun acc b => 256 * acc + b.toNat) 0

/-- The low `w` bytes of `n`, most significant byte first. -/
def beBytes : Nat → Nat → List UInt8
  | 0, _ => []
  | w + 1, n => beBytes w (n / 256) ++ [UInt8.ofNat n]

@[simp] theorem length_beBytes (w n : Nat) : (beBytes w n).length = w := by
  induction w generalizing n with
  | zero => rfl
  | succ w ih => simp [beBytes, ih]

theorem beBytes_ne_nil (w n : Nat) : beBytes (w + 1) n ≠ [] :=
  List.append_ne_nil_of_right_ne_nil _ (List.cons_ne_nil _ _)

/-- The low bytes come last. -/
theorem beBytes_add (v w n : Nat) : beBytes (v + w) n = beBytes v (n / 256 ^ w) ++ beBytes w n := by
  induction w generalizing n with
  | zero => simp [beBytes]
  | succ w ih =>
    rw [← Nat.add_assoc, beBytes, ih, beBytes, List.append_assoc, Nat.div_div_eq_div_mul, Nat.pow_succ, Nat.mul_comm]

@[simp] theorem beNat_nil : beNat [] = 0 := rfl

theorem beNat_snoc (bs : List UInt8) (b : UInt8) : beNat (bs ++ [b]) = 256 * beNat bs + b.toNat := by
  simp [beNat]

@[simp] theorem beNat_singleton (b : UInt8) : beNat [b] = b.toNat := by simp [beNat]

/-- A byte string denotes a number below `256 ^ length`. -/
theorem beNat_lt (bs : List UInt8) : beNat bs < 256 ^ bs.length := by
  induction bs using List.reverseRecOn with
  | nil => simp
  | append_singleton bs b ih =>
    have hb := b.toNat_lt
    rw [beNat_snoc, List.length_append, List.length_singleton, Nat.pow_succ]
    omega

/-- Reading the low `w` bytes of a number that fits in them. -/
theorem beNat_beBytes {w n : Nat} (h : n < 256 ^ w) : beNat (beBytes w n) = n := by
  induction w generalizing n with
  | zero => simp only [Nat.pow_zero, Nat.lt_one_iff] at h; simp [beBytes, h]
  | succ w ih =>
    have hd : n / 256 < 256 ^ w := by rw [Nat.pow_succ] at h; omega
    have hb : (UInt8.ofNat n).toNat = n % 256 := by simp
    rw [beBytes, beNat_snoc, ih hd, hb]
    omega

/-- A byte string is the writing of its own value. -/
theorem beBytes_beNat (bs : List UInt8) : beBytes bs.length (beNat bs) = bs := by
  induction bs using List.reverseRecOn with
  | nil => rfl
  | append_singleton bs b ih =>
    have hb := b.toNat_lt
    have hd : (256 * beNat bs + b.toNat) / 256 = beNat bs := by omega
    have hm : UInt8.ofNat (256 * beNat bs + b.toNat) = b := by
      apply UInt8.toNat_inj.mp
      simp
    rw [List.length_append, List.length_singleton, beBytes, beNat_snoc, hd, hm, ih]

/-! ## Shortest byte strings -/

/-- `bytes` denotes `v` and is shorter than every other byte string that does, the empty one apart. -/
structure ShortestBytes (v : Nat) (bytes : List UInt8) : Prop where
  ne_nil : bytes ≠ []
  value : beNat bytes = v
  lt_length : ∀ bs, bs ≠ [] → beNat bs = v → bs ≠ bytes → bytes.length < bs.length

section Shortest

variable {v k : Nat} {bytes : List UInt8}

/-- As many bytes as the number has digits in base 256. -/
theorem shortestBytes_beBytes (h : k = 0 ∨ 256 ^ k ≤ v) (hlt : v < 256 ^ (k + 1)) :
    ShortestBytes v (beBytes (k + 1) v) where
  ne_nil := beBytes_ne_nil k v
  value := beNat_beBytes hlt
  lt_length := by
    intro bs hne hvalue hother
    rw [length_beBytes]
    rcases Nat.lt_trichotomy bs.length (k + 1) with hshort | heq | hlong
    · have hpos := List.length_pos_iff.mpr hne
      have hle : 256 ^ k ≤ v := h.resolve_left (by omega)
      have hbound : 256 ^ bs.length ≤ 256 ^ k := Nat.pow_le_pow_right (by decide) (by omega)
      have hsmall := beNat_lt bs
      omega
    · exact absurd (by rw [← heq, ← hvalue, beBytes_beNat]) hother
    · exact hlong

/-- Every number has a shortest byte string. -/
theorem exists_shortestBytes (v : Nat) :
    ∃ k, (k = 0 ∨ 256 ^ k ≤ v) ∧ v < 256 ^ (k + 1) ∧ ShortestBytes v (beBytes (k + 1) v) := by
  have hlt : v < 256 ^ (Nat.log 256 v + 1) := Nat.lt_pow_succ_log_self (by decide) v
  have hle : Nat.log 256 v = 0 ∨ 256 ^ Nat.log 256 v ≤ v := by
    rcases Nat.eq_zero_or_pos v with rfl | hpos
    · exact .inl (Nat.log_zero_right 256)
    · exact .inr (Nat.pow_log_le_self 256 (by omega))
  exact ⟨_, hle, hlt, shortestBytes_beBytes hle hlt⟩

/-- It is no longer than any fixed width that the number fits in. -/
theorem ShortestBytes.length_le (h : ShortestBytes v bytes) (hlt : v < 256 ^ (k + 1)) : bytes.length ≤ k + 1 := by
  by_cases heq : beBytes (k + 1) v = bytes
  · rw [← heq, length_beBytes]
  · have hless := h.lt_length _ (beBytes_ne_nil k v) (beNat_beBytes hlt) heq
    rw [length_beBytes] at hless
    omega

end Shortest

end Libcp2p

import Mathlib.Algebra.Group.Int.Defs
import Mathlib.Algebra.Group.Nat.Defs
import Mathlib.Data.List.Basic

/-!
# Runs of C code: faults, objects and bounded accesses

A C function that can misbehave is an `Except Fault`: it returns a value, or a `Fault` stops it. An object is the list
of its bytes. An access that needs a byte outside its object is the fault `outOfBounds`, never a made-up value:

* `memcmpEq a b n` compares byte by byte up to the first difference, as `memcmp(a, b, n) == 0` does: over the length of
  the first object it tests for a prefix (`memcmpEq_prefix_iff`), and on objects of one length it decides equality
  (`memcmpEq_of_length`);
* `readBytes` is the source side of `memcpy`, `overlay` what the destination holds afterwards;
* `cString` reads a NUL-terminated string, `strcpy` and `strcat` write one into an array of given size.
-/

namespace Libcp2p

/-- What stops a run of C code before it returns. -/
inductive Fault
  /-- an access outside its object, or through a null pointer -/
  | outOfBounds
  /-- a failed `assert` -/
  | assertion
  /-- a variable-length array whose size is negative or more than the stack has -/
  | stackBuffer (size : Int)
  /-- a loop that never ends -/
  | diverge
  /-- a shift by the width of its type, or more -/
  | shift
  /-- a floating-point number converted to a type that does not have its value -/
  | conversion
  /-- a value that was never set -/
  | indeterminate
  /-- a `free` of memory that was not allocated -/
  | invalidFree
  /-- a signed integer counted past its type -/
  | overflow
  deriving DecidableEq, Repr

/-! ## Runs -/

section Runs

variable {ε α β : Type}

@[simp] theorem ok_bind (a : α) (f : α → Except ε β) : (Except.ok a >>= f) = f a := rfl

@[simp] theorem error_bind (e : ε) (f : α → Except ε β) : (Except.error e >>= f) = Except.error e := rfl

@[simp] theorem pure_eq_ok (a : α) : (pure a : Except ε α) = Except.ok a := rfl

/-- A sequence that returns went through a value of its first half. -/
theorem bind_eq_ok {x : Except ε α} {f : α → Except ε β} {b : β} :
    (x >>= f) = Except.ok b ↔ ∃ a, x = Except.ok a ∧ f a = Except.ok b := by
  cases x with
  | ok a => simp
  | error e => simp

end Runs

/-! ## Integers -/

/-- The value of a 32-bit pattern as an `int`. -/
def toInt32 (i : Int) : Int := (i + 2 ^ 31) % 2 ^ 32 - 2 ^ 31

theorem toInt32_natCast {n : Nat} (h : n < 2 ^ 31) : toInt32 n = n := by unfold toInt32; omega

/-- A count in an `int`. -/
def intCount (n : Nat) : Except Fault Nat := if n < 2 ^ 31 then .ok n else .error .overflow

theorem intCount_eq_ok {n m : Nat} : intCount n = .ok m ↔ n < 2 ^ 31 ∧ m = n := by
  unfold intCount
  split_ifs with h
  · exact ⟨fun heq => ⟨h, (Except.ok.inj heq).symm⟩, fun ⟨_, heq⟩ => (by rw [heq])⟩
  · exact ⟨fun heq => (by cases heq), fun ⟨hlt, _⟩ => absurd hlt h⟩

/-- The value of an 8-bit pattern as a `char`. -/
def toInt8 (i : Int) : Int := (i + 2 ^ 7) % 2 ^ 8 - 2 ^ 7

/-- The value of an `int` as an `unsigned long long`. -/
def toUInt64 (i : Int) : Nat := (i % 2 ^ 64).toNat

/-- A difference of lengths, taken as a `size_t` and returned as an `int`. -/
theorem toInt32_toUInt64_sub {m n : Nat} (hm : m < 2 ^ 31) (hn : n < 2 ^ 31) :
    toInt32 (toUInt64 ((n : Int) - m)) = n - m := by
  unfold toInt32 toUInt64
  omega

/-- A number with lower bits below it. -/
theorem or_shift (a b : Nat) {i : Nat} (h : b < 2 ^ i) : a <<< i ||| b = a * 2 ^ i + b := by
  rw [← Nat.shiftLeft_add_eq_or_of_lt h, Nat.shiftLeft_eq]

/-- What holds of the 256 byte values holds of every byte. -/
theorem forall_byte {P : UInt8 → Prop} (h : ∀ n < 256, P (UInt8.ofNat n)) (b : UInt8) : P b := by
  have hb := h b.toNat b.toNat_lt
  rwa [UInt8.ofNat_toNat] at hb

/-- The top bit of a byte. -/
theorem and_0x80_eq_zero (b : UInt8) : b &&& 0x80 = 0 ↔ b.toNat < 128 := by
  revert b
  exact forall_byte (by decide +kernel)

/-- The low seven bits of a number with the top bit of the byte set. -/
theorem toNat_marked (n : Nat) : (UInt8.ofNat (n &&& 0xFF ||| 0x80)).toNat = n % 128 + 128 := by
  have h : ∀ m < 256, (UInt8.ofNat (m ||| 0x80)).toNat = m % 128 + 128 := by decide +kernel
  rw [show n &&& 0xFF = n % 256 from Nat.and_two_pow_sub_one_eq_mod n 8, h _ (Nat.mod_lt _ (by decide)),
    Nat.mod_mod_of_dvd n (by decide)]

/-! ## Comparing and copying objects -/

/-- `memcmp(a, b, n) == 0`, reading both objects up to the first difference. -/
def memcmpEq : List UInt8 → List UInt8 → Nat → Except Fault Bool
  | _, _, 0 => .ok true
  | a :: as, b :: bs, n + 1 => if a = b then memcmpEq as bs n else .ok false
  | _, _, _ + 1 => .error .outOfBounds

@[simp] theorem memcmpEq_zero (a b : List UInt8) : memcmpEq a b 0 = .ok true := by unfold memcmpEq; rfl

/-- Two objects compare equal when both have `n` bytes and these agree. -/
theorem memcmpEq_eq_true {a b : List UInt8} {n : Nat} :
    memcmpEq a b n = .ok true ↔ n ≤ a.length ∧ n ≤ b.length ∧ a.take n = b.take n := by
  induction n generalizing a b with
  | zero => simp
  | succ n ih =>
    cases a with
    | nil => simp [memcmpEq]
    | cons x as =>
      cases b with
      | nil => simp [memcmpEq]
      | cons y bs =>
        by_cases h : x = y
        · simp [memcmpEq, h, ih]
        · simp [memcmpEq, h]

/-- Two objects of at least `n` bytes are compared without a fault. -/
theorem memcmpEq_of_le {a b : List UInt8} {n : Nat} (ha : n ≤ a.length) (hb : n ≤ b.length) :
    memcmpEq a b n = .ok (decide (a.take n = b.take n)) := by
  induction n generalizing a b with
  | zero => simp
  | succ n ih =>
    obtain ⟨x, as, rfl⟩ := List.exists_cons_of_length_pos (by omega : 0 < a.length)
    obtain ⟨y, bs, rfl⟩ := List.exists_cons_of_length_pos (by omega : 0 < b.length)
    simp only [List.length_cons, Nat.add_le_add_iff_right] at ha hb
    by_cases h : x = y
    · simp [memcmpEq, h, ih ha hb]
    · simp [memcmpEq, h]

/-- Comparing two objects of the compared size is comparing their bytes. -/
theorem memcmpEq_of_length {a b : List UInt8} {n : Nat} (ha : a.length = n) (hb : b.length = n) :
    memcmpEq a b n = .ok (decide (a = b)) := by
  rw [memcmpEq_of_le (Nat.le_of_eq ha.symm) (Nat.le_of_eq hb.symm), List.take_of_length_le (Nat.le_of_eq ha),
    List.take_of_length_le (Nat.le_of_eq hb)]

/-- Compared over its own length, an object is equal to its continuations. -/
theorem memcmpEq_prefix_iff {a b : List UInt8} : memcmpEq a b a.length = .ok true ↔ a <+: b := by
  rw [memcmpEq_eq_true, List.take_length, ← List.prefix_iff_eq_take]
  constructor
  · rintro ⟨-, -, h⟩
    exact h
  · intro h
    exact ⟨Nat.le_refl _, h.length_le, h⟩

/-- The `n` bytes a `memcpy` reads from its source. -/
def readBytes (src : List UInt8) (n : Nat) : Except Fault (List UInt8) :=
  if n ≤ src.length then .ok (src.take n) else .error .outOfBounds

@[simp] theorem readBytes_length (src : List UInt8) : readBytes src src.length = .ok src := by
  simp [readBytes]

theorem readBytes_eq_ok {src bs : List UInt8} {n : Nat} :
    readBytes src n = .ok bs ↔ n ≤ src.length ∧ src.take n = bs := by
  unfold readBytes
  split
  · simp_all
  · rename_i h; simp [h]

/-- The destination of a copy of `src` to its front. -/
def overlay (dst src : List UInt8) : List UInt8 := src ++ dst.drop src.length

/-- What an object holds after a copy to its front. -/
theorem take_overlay (dst src : List UInt8) : (overlay dst src).take src.length = src := List.take_left' rfl

/-! ## Strings -/

/-- The string in an object: its bytes up to the first NUL, which must be inside the object. -/
def cString (buf : List UInt8) : Except Fault (List UInt8) :=
  if 0 ∈ buf then .ok (buf.takeWhile (· ≠ 0)) else .error .outOfBounds

/-- A NUL-free text followed by a NUL is read back, whatever comes after it. -/
theorem cString_append {s : List UInt8} (h : 0 ∉ s) (rest : List UInt8) : cString (s ++ 0 :: rest) = .ok s := by
  have hs : ∀ b ∈ s, decide (b ≠ 0) = true := fun b hb => decide_eq_true (fun e => h (e ▸ hb))
  unfold cString
  rw [if_pos (by simp), List.takeWhile_append_of_pos hs]
  simp

/-- `strcpy` of the string `s` into an array of `size` bytes. -/
def strcpy (size : Nat) (s : List UInt8) : Except Fault (List UInt8) :=
  if s.length < size then .ok s else .error .outOfBounds

/-- `strcat` of `s` to the string `dst` in an array of `size` bytes. -/
def strcat (size : Nat) (dst s : List UInt8) : Except Fault (List UInt8) := strcpy size (dst ++ s)

theorem strcpy_ok {size : Nat} {s : List UInt8} (h : s.length < size) : strcpy size s = .ok s := if_pos h

theorem strcat_eq_ok {size : Nat} {dst s r : List UInt8} (h : strcat size dst s = .ok r) : r = dst ++ s := by
  rw [strcat, strcpy] at h
  split at h
  · exact (Except.ok.inj h).symm
  · cases h

/-- Two strings appended one after the other. -/
theorem strcat_strcat {β : Type} (size : Nat) (dst s t : List UInt8) (f : List UInt8 → Except Fault β) :
    (strcat size dst s >>= fun dst => strcat size dst t >>= f) = strcat size dst (s ++ t) >>= f := by
  by_cases h : (dst ++ s).length < size
  · rw [strcat, strcpy_ok h, ok_bind, strcat, strcat, List.append_assoc]
  · have hover : ¬ (dst ++ (s ++ t)).length < size := by
      rw [← List.append_assoc, List.length_append]
      omega
    rw [strcat, strcpy, if_neg h, error_bind, strcat, strcpy, if_neg hover, error_bind]

end Libcp2p

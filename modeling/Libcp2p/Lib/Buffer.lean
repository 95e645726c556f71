import Libcp2p.Lib.CMemory

/-!
# Arrays that text is written into

An array is the list of its bytes, and every access is at an index. `readByte` and `writeByte` access one byte,
`sprintf` writes a text with its NUL behind it, and `moveUp` moves the first bytes one place towards the end, the last
one first.

* `sprintf_zeros`: a text written at the end of another one in a cleared array.
* `moveUp_eq`: what an array holds after its first bytes were moved.
* `moveUp_zeros`: a text moved so that a byte can be put in front of it.
-/

namespace Libcp2p

/-- The byte at an index. -/
def readByte (buf : List UInt8) (i : Nat) : Except Fault UInt8 :=
  match buf[i]? with
  | some b => .ok b
  | none => .error .outOfBounds

/-- The array with another byte at an index. -/
def writeByte (buf : List UInt8) (i : Nat) (b : UInt8) : Except Fault (List UInt8) :=
  if i < buf.length then .ok (buf.set i b) else .error .outOfBounds

/-- `sprintf(&buf[pos], …)` of a text without NUL. -/
def sprintf (buf : List UInt8) (pos : Nat) (text : List UInt8) : Except Fault (List UInt8) :=
  if pos + text.length < buf.length then .ok (buf.take pos ++ (text ++ 0 :: buf.drop (pos + text.length + 1)))
  else .error .outOfBounds

/-- `for (i = n; i >= 0; --i) buf[i + 1] = buf[i]`. -/
def moveUp (buf : List UInt8) : (n : Nat) → Except Fault (List UInt8)
  | 0 => do
    let b ← readByte buf 0
    writeByte buf 1 b
  | n + 1 => do
    let b ← readByte buf (n + 1)
    let buf ← writeByte buf (n + 2) b
    moveUp buf n

section Arrays

variable {buf text : List UInt8} {i n k : Nat}

theorem readByte_ok (h : i < buf.length) : readByte buf i = .ok buf[i] := by
  rw [readByte, List.getElem?_eq_getElem h]

theorem writeByte_ok (h : i < buf.length) (b : UInt8) : writeByte buf i b = .ok (buf.set i b) := if_pos h

/-- A text written at the end of another one, in an array with zeros behind it. -/
theorem sprintf_zeros (front : List UInt8) (h : text.length < k) :
    sprintf (front ++ List.replicate k 0) front.length text =
      .ok (front ++ text ++ List.replicate (k - text.length) 0) := by
  have hzeros : List.replicate (k - text.length) (0 : UInt8) = 0 :: List.replicate (k - (text.length + 1)) 0 := by
    rw [← List.replicate_succ]
    congr 1
    omega
  rw [sprintf, if_pos (by rw [List.length_append, List.length_replicate]; omega), List.take_left, Nat.add_assoc,
    List.drop_length_add_append, List.drop_replicate, hzeros, List.append_assoc]

/-- The first `n + 1` bytes are moved one place, over the byte behind them; the first byte stays. -/
theorem moveUp_eq (h : n + 1 < buf.length) :
    moveUp buf n = .ok (buf.take 1 ++ (buf.take (n + 1) ++ buf.drop (n + 2))) := by
  induction n generalizing buf with
  | zero =>
    rw [moveUp, readByte_ok (by omega), ok_bind, writeByte_ok (by omega)]
    obtain ⟨a, b, rest, rfl⟩ : ∃ a b rest, buf = a :: b :: rest := by
      obtain ⟨a, tail, rfl⟩ := List.exists_cons_of_length_pos (by omega : 0 < buf.length)
      rw [List.length_cons] at h
      obtain ⟨b, rest, rfl⟩ := List.exists_cons_of_length_pos (by omega : 0 < tail.length)
      exact ⟨a, b, rest, rfl⟩
    rfl
  | succ n ih =>
    have hset : n + 1 < (buf.set (n + 2) buf[n + 1]).length := by
      rw [List.length_set]
      omega
    have hbehind : (buf.set (n + 2) buf[n + 1]).drop (n + 2) = buf[n + 1] :: buf.drop (n + 3) := by
      rw [List.drop_set, if_neg (Nat.lt_irrefl _), Nat.sub_self, List.drop_eq_getElem_cons h]
      rfl
    rw [moveUp, readByte_ok (by omega), ok_bind, writeByte_ok h, ok_bind, ih hset, hbehind,
      List.take_set_of_le (by omega), List.take_set_of_le (by omega),
      ← List.take_append_getElem (i := n + 1) (by omega), List.append_assoc]
    rfl

/-- A byte put in front of a text, in an array with zeros behind it. -/
theorem moveUp_zeros (hk : 2 ≤ k) (b : UInt8) :
    (moveUp (text ++ List.replicate k 0) text.length >>= fun buf => writeByte buf 0 b) =
      .ok (b :: text ++ List.replicate (k - 1) 0) := by
  obtain ⟨k, rfl⟩ : ∃ j, k = j + 2 := ⟨k - 2, by omega⟩
  have hlen : text.length + 1 < (text ++ List.replicate (k + 2) 0).length := by
    rw [List.length_append, List.length_replicate]
    omega
  have hmoved : (text ++ List.replicate (k + 2) 0).take (text.length + 1) = text ++ [0] := by
    rw [List.take_length_add_append]
    rfl
  have hbehind : (text ++ List.replicate (k + 2) 0).drop (text.length + 2) = List.replicate k (0 : UInt8) := by
    rw [List.drop_length_add_append]
    rfl
  obtain ⟨a, tail, ha⟩ := List.exists_cons_of_length_pos (Nat.zero_lt_of_lt hlen)
  rw [moveUp_eq hlen, ok_bind, hmoved, hbehind, ha, writeByte_ok (Nat.succ_pos _)]
  simp [List.replicate_succ]

end Arrays

end Libcp2p

import Libcp2p.Cid.SetRuns

/-!
# The keys of a set

The loop of `ipfs_cid_set_keys` is `for (i = 0; i < len; len++)`: it raises the bound and not the index, so it is never
left once it was entered. It writes every hash to `ret[0]`, walks off the end of the list and reads the next link of a
null pointer, unless the bound has left the range of an `int` before.

* `cidSetKeysLoop_error`: the loop does not return, whatever the list.
* `CidSet.Lists.keys_eq_error`: on a well-formed set that is not empty the function reads through a null pointer, or
  counts beyond the range of an `int`.
* `cid_set_keys_iff`: the keys are returned exactly for empty sets.
-/

namespace Libcp2p

/-! ## The function -/

/-- Which allocations succeed: that of the array, and that of the key in each round of the loop. -/
structure KeysAllocs where
  ret : Bool
  key : (round : Nat) → Bool

/-- Every allocation succeeds. -/
def KeysAllocs.success : KeysAllocs := ⟨true, fun _ => true⟩

/-- What a round writes to `ret[i]`: a copy of the hash with a NUL behind it, if the node has a hash. -/
def writeKey (alloc : Bool) (i : Nat) (value : CidPtr) (ret : List (Option (List UInt8))) :
    Except Fault (List (Option (List UInt8))) :=
  match value with
  | .null => .ok ret
  | .freed => .error .outOfBounds
  | .noHash _ _ _ => .ok ret
  | .cid cid => .ok (ret.set i (if alloc then some (cid.hash ++ [0]) else none))

/-- The loop of `ipfs_cid_set_keys`, with the link `set` and after `round` rounds. It leaves `i` as it is and raises
`len`. -/
def cidSetKeysLoop (allocs : KeysAllocs) (heap : Heap CidPtr) (i : Nat) :
    (fuel round len : Nat) → Option Nat → List (Option (List UInt8)) → Except Fault (List (Option (List UInt8)))
  | 0, _, _, _, _ => .error .diverge
  | fuel + 1, round, len, set, ret =>
    if i < len then
      match set with
      -- `set = set->next`
      | none => .error .outOfBounds
      | some p => do
        let cell ← node heap p
        let ret ← writeKey (allocs.key round) i cell.value ret
        let len ← intCount (len + 1)
        cidSetKeysLoop allocs heap i fuel (round + 1) len cell.next ret
    else .ok ret

/-- `ipfs_cid_set_keys`: the array, or nothing for NULL. A walk through a list without a cycle takes at most
`heap.fresh` rounds. -/
def ipfsCidSetKeys (allocs : KeysAllocs) (s : CidSet) : Except Fault (Option (List (Option (List UInt8)))) := do
  let len ← ipfsCidSetLen s
  let slots ← intCount (len + 1)
  if allocs.ret = false then .ok none
  else do
    let ret ← cidSetKeysLoop allocs s.heap 0 (s.heap.fresh + 2) 0 len (some s.set) (List.replicate slots none)
    .ok (some ret)

/-! ## What it should return -/

/-- The `Cid` of the node that is `i` links away. -/
def entryAt (heap : Heap CidPtr) : (i : Nat) → Option Nat → Option Cid
  | _, none => none
  | 0, some p =>
    match heap.read p with
    | some ⟨.cid cid, _⟩ => some cid
    | _ => none
  | i + 1, some p =>
    match heap.read p with
    | some cell => entryAt heap i cell.next
    | none => none

/-- As many keys as the set is long and a null pointer behind them; each key holds the hash of its entry. -/
def KeysWell (s : CidSet) : Prop :=
  ∃ keys : List (List UInt8), ipfsCidSetLen s = .ok keys.length ∧
    ipfsCidSetKeys .success s = .ok (some (keys.map some ++ [none])) ∧
    ∀ i key, keys[i]? = some key → ∃ cid, entryAt s.heap i (some s.set) = some cid ∧ key = cid.hash ++ [0]

/-- The set has no `Cid` in its first node. -/
def CidSet.Empty (s : CidSet) : Prop := ∃ next, s.heap.read s.set = some ⟨.null, next⟩

/-! ## The loop -/

section Loop

variable {allocs : KeysAllocs} {heap : Heap CidPtr} {fuel round len : Nat} {set : Option Nat}
  {ret : List (Option (List UInt8))}

/-- Once it was entered the loop does not return, with any fuel. -/
theorem cidSetKeysLoop_error (hlen : 0 < len) :
    ∃ fault, cidSetKeysLoop allocs heap 0 fuel round len set ret = .error fault := by
  induction fuel generalizing round len set ret with
  | zero => exact ⟨_, rfl⟩
  | succ fuel ih =>
    cases set with
    | none =>
      rw [cidSetKeysLoop, if_pos hlen]
      exact ⟨_, rfl⟩
    | some p =>
      rw [cidSetKeysLoop, if_pos hlen]
      cases node heap p with
      | error fault => exact ⟨fault, rfl⟩
      | ok cell =>
        rw [ok_bind]
        cases writeKey (allocs.key round) 0 cell.value ret with
        | error fault => exact ⟨fault, rfl⟩
        | ok ret =>
          rw [ok_bind]
          cases hnext : intCount (len + 1) with
          | error fault => exact ⟨fault, rfl⟩
          | ok next =>
            obtain ⟨-, rfl⟩ := intCount_eq_ok.mp hnext
            exact ih (Nat.succ_pos len)

/-- The fault on a list of `n` entries, with a bound of `len`. -/
def keysFault (len n : Nat) : Fault := if len + n < 2 ^ 31 then .outOfBounds else .overflow

/-- On readable entries it walks to the end of the list and reads through the null pointer there, unless the bound gets
too large on the way. -/
theorem cidSetKeysLoop_entries {l : List (Nat × CidPtr)} {cs : List Cid} (hs : Seg heap set l none)
    (hl : l.map Prod.snd = cs.map CidPtr.cid) (hpos : 0 < len) (hlen : len < 2 ^ 31) (hfuel : cs.length < fuel) :
    cidSetKeysLoop allocs heap 0 fuel round len set ret = .error (keysFault len cs.length) := by
  induction cs generalizing l fuel round len set ret with
  | nil =>
    cases seg_entries_nil hs hl
    obtain ⟨fuel, rfl⟩ := Nat.exists_eq_succ_of_ne_zero (Nat.ne_of_gt hfuel)
    rw [cidSetKeysLoop, if_pos hpos, keysFault, List.length_nil, Nat.add_zero, if_pos hlen]
  | cons c cs ih =>
    obtain ⟨p, next, l', rfl, -, hr, hs, hl⟩ := seg_entries_cons hs hl
    cases fuel with
    | zero => cases hfuel
    | succ fuel =>
      rw [cidSetKeysLoop, if_pos hpos, node_of_read hr, ok_bind, writeKey, ok_bind]
      by_cases hnext : len + 1 < 2 ^ 31
      · have hsum : len + 1 + cs.length = len + (c :: cs).length := by rw [List.length_cons]; omega
        rw [intCount, if_pos hnext, ok_bind, ih hs hl (Nat.succ_pos len) hnext (Nat.lt_of_succ_lt_succ hfuel),
          keysFault, hsum]
        rfl
      · have hover : ¬ len + (c :: cs).length < 2 ^ 31 := by rw [List.length_cons]; omega
        rw [intCount, if_neg hnext, error_bind, keysFault, if_neg hover]

/-- The nodes are counted upwards. -/
theorem cidSetLenLoop_le {p : Option Nat} {n : Nat} (h : cidSetLenLoop heap fuel len p = .ok n) : len ≤ n := by
  induction fuel generalizing len p with
  | zero =>
    cases p with
    | none =>
      rw [cidSetLenLoop] at h
      exact Nat.le_of_eq (Except.ok.inj h)
    | some p => cases h
  | succ fuel ih =>
    cases p with
    | none =>
      rw [cidSetLenLoop] at h
      exact Nat.le_of_eq (Except.ok.inj h)
    | some p =>
      rw [cidSetLenLoop] at h
      obtain ⟨next, hnext, h⟩ := bind_eq_ok.mp h
      obtain ⟨-, rfl⟩ := intCount_eq_ok.mp hnext
      obtain ⟨cell, -, h⟩ := bind_eq_ok.mp h
      exact Nat.le_of_succ_le (ih h)

/-- A list with a node has a positive length. -/
theorem cidSetLenLoop_pos {p n : Nat} (h : cidSetLenLoop heap fuel 0 (some p) = .ok n) : 0 < n := by
  cases fuel with
  | zero => cases h
  | succ fuel =>
    rw [cidSetLenLoop] at h
    obtain ⟨next, hnext, h⟩ := bind_eq_ok.mp h
    obtain ⟨-, rfl⟩ := intCount_eq_ok.mp hnext
    obtain ⟨cell, -, h⟩ := bind_eq_ok.mp h
    exact cidSetLenLoop_le h

end Loop

/-! ## Whole calls -/

namespace CidSet

variable {s : CidSet}

/-- The call on a set without a `Cid` in its first node: an array with the null pointer only. -/
theorem Empty.keys_eq (h : s.Empty) :
    ipfsCidSetLen s = .ok 0 ∧ ipfsCidSetKeys .success s = .ok (some [none]) := by
  obtain ⟨next, hr⟩ := h
  have hlen : ipfsCidSetLen s = .ok 0 := by
    rw [ipfsCidSetLen, node_of_read hr, ok_bind, if_pos rfl]
  refine ⟨hlen, ?_⟩
  have hslots : intCount (0 + 1) = .ok 1 := rfl
  unfold ipfsCidSetKeys
  rw [hlen, ok_bind, hslots, ok_bind, if_neg (by simp [KeysAllocs.success]), cidSetKeysLoop, if_neg (Nat.lt_irrefl 0),
    ok_bind]
  rfl

/-- The call on any other set does not return. -/
theorem keys_error (h : ¬ s.Empty) : ∃ fault, ipfsCidSetKeys .success s = .error fault := by
  unfold ipfsCidSetKeys
  cases hlen : ipfsCidSetLen s with
  | error fault => exact ⟨fault, rfl⟩
  | ok len =>
    have hpos : 0 < len := by
      unfold ipfsCidSetLen at hlen
      obtain ⟨⟨value, next⟩, hnode, hlen⟩ := bind_eq_ok.mp hlen
      have hvalue : value ≠ .null := by
        rintro rfl
        unfold node at hnode
        split at hnode
        · cases hnode
        · rename_i cell hread
          cases hnode
          exact h ⟨next, hread⟩
      rw [if_neg hvalue] at hlen
      exact cidSetLenLoop_pos hlen
    rw [ok_bind]
    cases intCount (len + 1) with
    | error fault => exact ⟨fault, rfl⟩
    | ok slots =>
      obtain ⟨fault, hloop⟩ : ∃ fault, cidSetKeysLoop .success s.heap 0 (s.heap.fresh + 2) 0 len (some s.set)
          (List.replicate slots none) = .error fault := cidSetKeysLoop_error hpos
      rw [ok_bind, if_neg (by simp [KeysAllocs.success]), hloop]
      exact ⟨fault, rfl⟩

/-- A well-formed set has no `Cid` in its first node exactly if it has no entries. -/
theorem Lists.empty_iff {entries : List Cid} (h : s.Lists entries) : s.Empty ↔ entries = [] := by
  constructor
  · rintro ⟨next, hr⟩
    cases entries with
    | nil => rfl
    | cons c cs =>
      obtain ⟨next', hr', -⟩ := h.read_cons
      rw [hr] at hr'
      cases hr'
  · rintro rfl
    exact ⟨none, h.read_nil⟩

/-- On a well-formed set that is not empty the call reads through a null pointer, or counts beyond the range of an
`int`. -/
theorem Lists.keys_eq_error {c : Cid} {cs : List Cid} (h : s.Lists (c :: cs)) :
    ipfsCidSetKeys .success s = .error (keysFault (c :: cs).length (c :: cs).length) := by
  obtain ⟨l, hs, hl, hlen⟩ := h.seg
  have hfuel : (c :: cs).length < s.heap.fresh + 2 := by
    have hle := hs.length_le
    rw [List.length_cons]
    omega
  have hpos : 0 < (c :: cs).length := Nat.succ_pos cs.length
  unfold ipfsCidSetKeys
  rw [h.len_eq]
  by_cases hcount : (c :: cs).length < 2 ^ 31
  · rw [intCount, if_pos hcount, ok_bind]
    by_cases hslots : (c :: cs).length + 1 < 2 ^ 31
    · rw [intCount, if_pos hslots, ok_bind, if_neg (by simp [KeysAllocs.success]),
        cidSetKeysLoop_entries hs hl hpos hcount hfuel, error_bind]
    · rw [intCount, if_neg hslots, error_bind, keysFault, if_neg (by omega)]
  · rw [intCount, if_neg hcount, error_bind, keysFault, if_neg (by omega)]

end CidSet

/-- **The keys of a set** are returned, one for each entry and a null pointer behind them, exactly for sets without a
`Cid` in their first node; for all others the function does not return. For well-formed sets these are the empty ones,
and on the others it reads through a null pointer, or counts beyond the range of an `int` if there are `2 ^ 30` entries
or more. -/
theorem cid_set_keys_iff (s : CidSet) :
    (KeysWell s ↔ s.Empty) ∧ (¬ s.Empty → ∃ fault, ipfsCidSetKeys .success s = .error fault) ∧
    ∀ entries, s.Lists entries → (s.Empty ↔ entries = []) ∧
      (entries ≠ [] → ipfsCidSetKeys .success s =
        .error (if entries.length < 2 ^ 30 then .outOfBounds else .overflow)) := by
  refine ⟨⟨?_, ?_⟩, CidSet.keys_error, ?_⟩
  · rintro ⟨keys, -, hkeys, -⟩
    by_contra h
    obtain ⟨fault, herror⟩ := CidSet.keys_error h
    rw [hkeys] at herror
    cases herror
  · intro h
    obtain ⟨hlen, hkeys⟩ := h.keys_eq
    refine ⟨[], hlen, hkeys, ?_⟩
    intro i key hkey
    cases hkey
  · intro entries h
    refine ⟨h.empty_iff, ?_⟩
    intro hne
    cases entries with
    | nil => exact absurd rfl hne
    | cons c cs =>
      have hdouble : (c :: cs).length + (c :: cs).length < 2 ^ 31 ↔ (c :: cs).length < 2 ^ 30 := by omega
      rw [h.keys_eq_error, keysFault]
      simp only [hdouble]

/-- The keys of a set with one entry. -/
theorem cid_set_keys_one :
    ∃ s, run cidSetStep ipfsCidSetNew [.add ⟨0, 112, [1]⟩ false true .success] = some s ∧
      ipfsCidSetKeys .success s = .error .outOfBounds :=
  ⟨_, rfl, rfl⟩

end Libcp2p

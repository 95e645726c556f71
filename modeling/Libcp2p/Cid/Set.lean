import Libcp2p.Cid.Cid
import Libcp2p.Lib.Heap

/-!
# Sets of content ids

A `CidSet` is a singly linked list whose first node stays where it is and has no `Cid` while the set is empty. The
functions of the source run on a heap of nodes, in which an access to a freed node is a fault. Which of its allocations
succeed is an argument of `ipfs_cid_set_add`; one that fails may leave a node whose `Cid` cannot be read. Another
argument says whether the `Cid` to add has its hash in common with an entry. `ipfs_cid_set_len` counts in an `int`.

* `CidSet.Lists s entries`: the list at `s` is well-formed and holds `entries`, in this order.
* `CidSet.Lists.has_eq`, `CidSet.Lists.len_eq` and `CidSet.Lists.foreach_eq`: what the functions that read a set answer.
-/

namespace Libcp2p

/-- What the `cid` of a node leads to. -/
inductive CidPtr
  | null
  | freed
  | noHash (version codec : Int) (hashLength : Nat)
  | cid (cid : Cid)
  deriving DecidableEq, Repr

/-- A set: the heap and the pointer to the first node. -/
structure CidSet where
  heap : Heap CidPtr
  set : Nat
  deriving DecidableEq, Repr

/-! ## The functions -/

/-- The node at an address. -/
def node (heap : Heap CidPtr) (p : Nat) : Except Fault (Cell CidPtr) :=
  match heap.read p with
  | none => .error .outOfBounds
  | some cell => .ok cell

/-- The comparison of lengths and bytes of two hashes, the first of them in a node. -/
def sameHash : CidPtr → Cid → Except Fault Bool
  | .null, _ => .error .outOfBounds
  | .freed, _ => .error .outOfBounds
  | .noHash _ _ hashLength, cid => if hashLength = cid.hash.length then .error .outOfBounds else .ok false
  | .cid stored, cid => .ok (decide (stored.hash = cid.hash))

/-- Which allocations of a call succeed: that of a node, of a `Cid` and of its hash. -/
structure SetAllocs where
  node : Bool
  cid : Bool
  hash : Bool
  deriving DecidableEq, Repr

/-- The copy of a `Cid` in a node; without memory for the hash there is none, unless it has no bytes. -/
def copyCid (cid : Cid) (hash : Bool) : CidPtr :=
  if hash = true ∨ cid.hash = [] then .cid cid else .noHash cid.version cid.codec cid.hash.length

/-- The value returned after the allocation of a hash. -/
def hashResult (hash : Bool) : Int := if hash then 0 else -1

/-- `ipfs_cid_set_new` in an empty heap. -/
def ipfsCidSetNew : CidSet := ⟨(Heap.empty : Heap CidPtr).alloc ⟨.null, none⟩, 0⟩

/-- The loop of `ipfs_cid_set_add`, at the node `set`; `shared` says that the hash of `cid` is one that the set stores:
`cid` is a copy of an entry, or the entry itself. -/
def cidSetAddLoop (cid : Cid) (shared visit : Bool) (allocs : SetAllocs) (heap : Heap CidPtr) :
    (fuel set : Nat) → Except Fault (Int × Heap CidPtr)
  | 0, _ => .error .diverge
  | fuel + 1, set => do
    let cell ← node heap set
    let same ← sameHash cell.value cid
    if same then
      -- already added: kept when visiting, otherwise updated with the new one
      if visit then .ok (0, heap)
      -- the hash is freed before it is copied, or, if `cid` is the entry itself, zeros are copied onto themselves
      else if shared = true ∧ allocs.hash = true ∧ cid.hash ≠ [] then .error .outOfBounds
      else .ok (hashResult allocs.hash, heap.write set ⟨copyCid cid allocs.hash, cell.next⟩)
    else match cell.next with
      | none =>
        if allocs.node = false then .ok (-1, heap)
        else
          let linked value := (heap.alloc ⟨value, none⟩).write set ⟨cell.value, some heap.fresh⟩
          if allocs.cid = false then .ok (-1, linked .null)
          else .ok (hashResult allocs.hash, linked (copyCid cid allocs.hash))
      | some next => cidSetAddLoop cid shared visit allocs heap fuel next

/-- `ipfs_cid_set_add`: the value returned and the set afterwards. -/
def ipfsCidSetAdd (s : CidSet) (cid : Cid) (shared visit : Bool) (allocs : SetAllocs) :
    Except Fault (Int × CidSet) := do
  let cell ← node s.heap s.set
  if cell.value = .null then
    if allocs.cid = false then .ok (-1, s)
    -- without memory for the hash the new `Cid` is freed, and stays in the node
    else .ok (hashResult allocs.hash,
      ⟨s.heap.write s.set ⟨if allocs.hash then .cid cid else .freed, cell.next⟩, s.set⟩)
  else do
    let (r, heap) ← cidSetAddLoop cid shared visit allocs s.heap s.heap.fresh s.set
    .ok (r, ⟨heap, s.set⟩)

/-- The loop of `ipfs_cid_set_has`. -/
def cidSetHasLoop (cid : Cid) (heap : Heap CidPtr) : (fuel set : Nat) → Except Fault Bool
  | 0, _ => .error .diverge
  | fuel + 1, set => do
    let cell ← node heap set
    let same ← sameHash cell.value cid
    if same then .ok true
    else match cell.next with
      | none => .ok false
      | some next => cidSetHasLoop cid heap fuel next

/-- `ipfs_cid_set_has`. -/
def ipfsCidSetHas (s : CidSet) (cid : Cid) : Except Fault Bool := do
  let cell ← node s.heap s.set
  if cell.value = .null then .ok false else cidSetHasLoop cid s.heap s.heap.fresh s.set

/-- The loop of `ipfs_cid_set_remove`, at the node `set` with `prev` before it. -/
def cidSetRemoveLoop (cid : Cid) (heap : Heap CidPtr) : (fuel prev set : Nat) → Except Fault (Bool × Heap CidPtr)
  | 0, _, _ => .error .diverge
  | fuel + 1, prev, set => do
    let cell ← node heap set
    let same ← sameHash cell.value cid
    if same then
      if prev = set then
        match cell.next with
        | none => .ok (true, heap.write prev ⟨.null, cell.next⟩)
        | some second => do
          -- the second entry moves into the first node and its node is freed
          let moved ← node heap second
          .ok (true, (heap.write prev ⟨moved.value, cell.next⟩).free second)
      else do
        let before ← node heap prev
        .ok (true, (heap.write prev ⟨before.value, cell.next⟩).free set)
    else match cell.next with
      | none => .ok (false, heap)
      | some next => cidSetRemoveLoop cid heap fuel set next

/-- `ipfs_cid_set_remove`: whether it returns 1, and the set afterwards. -/
def ipfsCidSetRemove (s : CidSet) (cid : Cid) : Except Fault (Bool × CidSet) := do
  let cell ← node s.heap s.set
  if cell.value = .null then .ok (false, s)
  else do
    let (r, heap) ← cidSetRemoveLoop cid s.heap s.heap.fresh s.set s.set
    .ok (r, ⟨heap, s.set⟩)

/-- The loop of `ipfs_cid_set_len`, from the link `set`. -/
def cidSetLenLoop (heap : Heap CidPtr) : (fuel len : Nat) → Option Nat → Except Fault Nat
  | _, len, none => .ok len
  | 0, _, some _ => .error .diverge
  | fuel + 1, len, some set => do
    let len ← intCount (len + 1)
    let cell ← node heap set
    cidSetLenLoop heap fuel len cell.next

/-- `ipfs_cid_set_len`. -/
def ipfsCidSetLen (s : CidSet) : Except Fault Nat := do
  let cell ← node s.heap s.set
  if cell.value = .null then .ok 0 else cidSetLenLoop s.heap s.heap.fresh 0 (some s.set)

/-- The loop of `ipfs_cid_set_foreach`, with a function that reads the `Cid` and has a state of type `σ`. -/
def cidSetForeachLoop {σ : Type} (func : σ → Cid → σ × Int) (heap : Heap CidPtr) :
    (fuel : Nat) → Option Nat → σ → Except Fault (σ × Int)
  | _, none, st => .ok (st, 0)
  | 0, some _, _ => .error .diverge
  | fuel + 1, some set, st => do
    let cell ← node heap set
    match cell.value with
    | .null => cidSetForeachLoop func heap fuel cell.next st
    | .freed => .error .outOfBounds
    | .noHash _ _ _ => .error .outOfBounds
    | .cid cid =>
      let (st, err) := func st cid
      if err ≠ 0 then .ok (st, err) else cidSetForeachLoop func heap fuel cell.next st

/-- `ipfs_cid_set_foreach`: the state of `func` afterwards and the value returned. -/
def ipfsCidSetForeach {σ : Type} (s : CidSet) (func : σ → Cid → σ × Int) (st : σ) : Except Fault (σ × Int) :=
  cidSetForeachLoop func s.heap s.heap.fresh (some s.set) st

/-! ## Well-formed sets -/

/-- The values of the nodes of a set: one node without a `Cid` for the empty set. -/
def nodeValues (entries : List Cid) : List CidPtr := if entries = [] then [.null] else entries.map .cid

namespace CidSet

/-- The list at `s` holds `entries`, no two of them with one hash. -/
structure Lists (s : CidSet) (entries : List Cid) : Prop where
  list : ∃ l, Seg s.heap (some s.set) l none ∧ l.map Prod.snd = nodeValues entries
  nodup : (entries.map Cid.hash).Nodup

/-- The nodes that are linked from the list. -/
inductive Linked (s : CidSet) : Nat → Prop
  | first : Linked s s.set
  | next {p q : Nat} {value : CidPtr} (hp : Linked s p) (hq : s.heap.read p = some ⟨value, some q⟩) : Linked s q

/-- No node that was freed is linked from the list. -/
def NoneFreed (s : CidSet) : Prop := ∀ p, Linked s p → (s.heap.read p).isSome

/-- An `int` counts the nodes of the list. -/
def CountFits (s : CidSet) : Prop := ∀ l, Seg s.heap (some s.set) l none → l.length < 2 ^ 31

end CidSet

section Read

variable {heap : Heap CidPtr} {s : CidSet} {entries cs : List Cid} {l : List (Nat × CidPtr)} {p : Option Nat}
  {fuel set : Nat} {cid c : Cid}

theorem node_of_read {cell : Cell CidPtr} (h : heap.read set = some cell) : node heap set = .ok cell := by
  simp only [node, h]

/-- The first of the nodes that hold `c :: cs`. -/
theorem seg_entries_cons (hs : Seg heap p l none) (hl : l.map Prod.snd = (c :: cs).map CidPtr.cid) :
    ∃ set next l', p = some set ∧ l = (set, .cid c) :: l' ∧ heap.read set = some ⟨.cid c, next⟩ ∧
      Seg heap next l' none ∧ l'.map Prod.snd = cs.map CidPtr.cid := by
  cases l with
  | nil => cases hl
  | cons x l' =>
    obtain ⟨set, v⟩ := x
    obtain ⟨rfl, next, hr, htail⟩ := hs
    obtain ⟨rfl, hvalues⟩ := List.cons.inj hl
    exact ⟨set, next, l', rfl, rfl, hr, htail, hvalues⟩

theorem seg_entries_nil (hs : Seg heap p l none) (hl : l.map Prod.snd = ([] : List Cid).map CidPtr.cid) : p = none := by
  cases List.map_eq_nil_iff.mp hl
  exact hs

/-- No entry follows a null link. -/
theorem seg_entries_none (hs : Seg heap none l none) (hl : l.map Prod.snd = cs.map CidPtr.cid) : cs = [] := by
  cases cs with
  | nil => rfl
  | cons c cs =>
    obtain ⟨_, _, _, hnone, -⟩ := seg_entries_cons hs hl
    cases hnone

theorem cidSetHasLoop_eq (hs : Seg heap (some set) l none) (hl : l.map Prod.snd = cs.map CidPtr.cid)
    (hfuel : cs.length ≤ fuel) : cidSetHasLoop cid heap fuel set = .ok (decide (cid.hash ∈ cs.map Cid.hash)) := by
  induction cs generalizing l fuel set with
  | nil => cases seg_entries_nil hs hl
  | cons c cs ih =>
    obtain ⟨_, next, l', hset, -, hr, hs, hl⟩ := seg_entries_cons hs hl
    cases hset
    cases fuel with
    | zero => cases hfuel
    | succ fuel =>
      have hfuel : cs.length ≤ fuel := Nat.le_of_succ_le_succ hfuel
      rw [cidSetHasLoop, node_of_read hr]
      simp only [ok_bind, sameHash, decide_eq_true_eq]
      by_cases hc : c.hash = cid.hash
      · simp [hc]
      · rw [if_neg hc]
        cases next with
        | none =>
          cases seg_entries_none hs hl
          simp [Ne.symm hc]
        | some next =>
          refine (ih hs hl hfuel).trans ?_
          simp [Ne.symm hc]

theorem cidSetLenLoop_eq {len : Nat} (hs : Seg heap p l none) (hfuel : l.length ≤ fuel) (hlen : len < 2 ^ 31) :
    cidSetLenLoop heap fuel len p = intCount (len + l.length) := by
  induction l generalizing p fuel len with
  | nil =>
    cases hs
    rw [cidSetLenLoop, List.length_nil, Nat.add_zero, intCount, if_pos hlen]
  | cons x l ih =>
    obtain ⟨rfl, next, hr, hs⟩ := hs
    cases fuel with
    | zero => cases hfuel
    | succ fuel =>
      rw [cidSetLenLoop, List.length_cons]
      by_cases hnext : len + 1 < 2 ^ 31
      · rw [intCount, if_pos hnext, ok_bind, node_of_read hr, ok_bind,
          ih hs (Nat.le_of_succ_le_succ hfuel) hnext, Nat.add_right_comm, Nat.add_assoc]
      · rw [intCount, if_neg hnext, error_bind, intCount, if_neg (by omega)]

/-- `func` on each entry in order, up to the first result that is not zero; this result is the one returned. -/
def foreachEntry {σ : Type} (func : σ → Cid → σ × Int) : σ → List Cid → σ × Int
  | st, [] => (st, 0)
  | st, cid :: cs => if (func st cid).2 ≠ 0 then func st cid else foreachEntry func (func st cid).1 cs

theorem cidSetForeachLoop_eq {σ : Type} {func : σ → Cid → σ × Int} {st : σ} (hs : Seg heap p l none)
    (hl : l.map Prod.snd = cs.map CidPtr.cid) (hfuel : cs.length ≤ fuel) :
    cidSetForeachLoop func heap fuel p st = .ok (foreachEntry func st cs) := by
  induction cs generalizing p l fuel st with
  | nil =>
    cases seg_entries_nil hs hl
    simp [cidSetForeachLoop, foreachEntry]
  | cons c cs ih =>
    obtain ⟨set, next, l', rfl, -, hr, hs, hl⟩ := seg_entries_cons hs hl
    cases fuel with
    | zero => cases hfuel
    | succ fuel =>
      rw [cidSetForeachLoop, node_of_read hr, foreachEntry]
      simp only [ok_bind]
      split
      · rfl
      · exact ih hs hl (Nat.le_of_succ_le_succ hfuel)

end Read

namespace CidSet

variable {s : CidSet} {entries : List Cid} {cid : Cid}

/-- The one node of an empty set. -/
theorem Lists.read_nil (h : s.Lists []) : s.heap.read s.set = some ⟨.null, none⟩ := by
  obtain ⟨l, hs, hl⟩ := h.list
  cases l with
  | nil => cases hs
  | cons x l =>
    obtain ⟨q, v⟩ := x
    obtain ⟨hq, next, hr, hs⟩ := hs
    obtain ⟨rfl, hvalues⟩ := List.cons.inj hl
    cases List.map_eq_nil_iff.mp hvalues
    cases hs
    cases hq
    exact hr

/-- The nodes of a set that is not empty. -/
theorem Lists.seg {c : Cid} {cs : List Cid} (h : s.Lists (c :: cs)) :
    ∃ l, Seg s.heap (some s.set) l none ∧ l.map Prod.snd = (c :: cs).map CidPtr.cid ∧ l.length = cs.length + 1 := by
  obtain ⟨l, hs, hl⟩ := h.list
  have hlen := congrArg List.length hl
  simp only [List.length_map, nodeValues, reduceCtorEq, if_false, List.length_cons] at hlen
  exact ⟨l, hs, hl, hlen⟩

/-- The first node of a set that is not empty. -/
theorem Lists.read_cons {c : Cid} {cs : List Cid} (h : s.Lists (c :: cs)) :
    ∃ next, s.heap.read s.set = some ⟨.cid c, next⟩ ∧ (next = none ↔ cs = []) := by
  obtain ⟨l, hs, hl, -⟩ := h.seg
  obtain ⟨_, next, l', hset, -, hr, hs, hl⟩ := seg_entries_cons hs hl
  cases hset
  refine ⟨next, hr, ?_, ?_⟩
  · rintro rfl
    exact seg_entries_none hs hl
  · rintro rfl
    exact seg_entries_nil hs hl

theorem Lists.has_eq (h : s.Lists entries) : ipfsCidSetHas s cid = .ok (decide (cid.hash ∈ entries.map Cid.hash)) := by
  cases entries with
  | nil =>
    rw [ipfsCidSetHas, node_of_read h.read_nil]
    rfl
  | cons c cs =>
    obtain ⟨l, hs, hl, hlen⟩ := h.seg
    obtain ⟨next, hr, -⟩ := h.read_cons
    rw [ipfsCidSetHas, node_of_read hr]
    exact cidSetHasLoop_eq hs hl (hlen.symm.le.trans hs.length_le)

theorem Lists.len_eq (h : s.Lists entries) : ipfsCidSetLen s = intCount entries.length := by
  cases entries with
  | nil =>
    rw [ipfsCidSetLen, node_of_read h.read_nil]
    rfl
  | cons c cs =>
    obtain ⟨l, hs, hl, hlen⟩ := h.seg
    obtain ⟨next, hr, -⟩ := h.read_cons
    rw [ipfsCidSetLen, node_of_read hr]
    simp only [ok_bind, reduceCtorEq, if_false]
    rw [cidSetLenLoop_eq hs hs.length_le (by decide), hlen, Nat.zero_add, List.length_cons]

/-- The length of a set is 0 exactly if it has no entries. -/
theorem Lists.len_eq_zero (h : s.Lists entries) : ipfsCidSetLen s = .ok 0 ↔ entries = [] := by
  rw [h.len_eq, intCount_eq_ok, eq_comm, List.length_eq_zero_iff]
  constructor
  · exact fun hnil => hnil.2
  · rintro rfl
    exact ⟨by decide, rfl⟩

/-- The nodes can be counted exactly if the entries can. -/
theorem Lists.countFits_iff (h : s.Lists entries) : s.CountFits ↔ entries.length < 2 ^ 31 := by
  obtain ⟨l, hs, hl⟩ := h.list
  have hcount : s.CountFits ↔ l.length < 2 ^ 31 := by
    constructor
    · exact fun hfits => hfits l hs
    · intro hlt l' hs'
      rwa [hs'.unique hs]
  have hlen := congrArg List.length hl
  rw [List.length_map] at hlen
  rw [hcount, hlen]
  cases entries with
  | nil => decide
  | cons c cs => rw [nodeValues, if_neg (List.cons_ne_nil c cs), List.length_map]

theorem Lists.foreach_eq {σ : Type} (h : s.Lists entries) (func : σ → Cid → σ × Int) (st : σ) :
    ipfsCidSetForeach s func st = .ok (foreachEntry func st entries) := by
  cases entries with
  | nil =>
    have hlt := Heap.lt_of_read h.read_nil
    obtain ⟨n, hn⟩ : ∃ n, s.heap.fresh = n + 1 := ⟨s.heap.fresh - 1, by omega⟩
    rw [ipfsCidSetForeach, hn, cidSetForeachLoop, node_of_read h.read_nil]
    simp [ok_bind, cidSetForeachLoop, foreachEntry]
  | cons c cs =>
    obtain ⟨l, hs, hl, hlen⟩ := h.seg
    exact cidSetForeachLoop_eq hs hl (hlen.symm.le.trans hs.length_le)

/-- The nodes of a well-formed set are those linked from it. -/
theorem Lists.noneFreed (h : s.Lists entries) : s.NoneFreed := by
  obtain ⟨l, hs, -⟩ := h.list
  -- every linked node starts a rest of the list
  have key : ∀ p, Linked s p → ∃ l', l' ≠ [] ∧ Seg s.heap (some p) l' none := by
    intro p hp
    induction hp with
    | first =>
      refine ⟨l, ?_, hs⟩
      rintro rfl
      cases hs
    | next hp hq ih =>
      obtain ⟨l', hne, hs'⟩ := ih
      cases l' with
      | nil => exact absurd rfl hne
      | cons x l' =>
        obtain ⟨hx, next, hr, hs'⟩ := hs'
        cases hx
        rw [hq] at hr
        cases hr
        refine ⟨l', ?_, hs'⟩
        rintro rfl
        cases hs'
  intro p hp
  obtain ⟨l', hne, hs'⟩ := key p hp
  cases l' with
  | nil => exact absurd rfl hne
  | cons x l' =>
    obtain ⟨hx, next, hr, -⟩ := hs'
    cases hx
    rw [hr]
    rfl

/-- A new set is empty. -/
theorem lists_new : ipfsCidSetNew.Lists [] :=
  ⟨⟨[(0, .null)], ⟨rfl, none, rfl, rfl⟩, rfl⟩, List.nodup_nil⟩

end CidSet

end Libcp2p

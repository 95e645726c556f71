import Mathlib.Data.List.Nodup
import Mathlib.Data.List.Range
import Mathlib.Data.List.Perm.Subperm

/-!
# Singly linked lists in a heap

A heap of cells that each hold a value and a link to the next cell. Addresses are never used twice, and a cell that was
freed cannot be read. `Seg h p l r` says that the links lead from `p` through the cells `l` (addresses and values) to
`r`; a list is a segment that ends in the null link.

* A segment only depends on its own cells (`Seg.congr`), goes through no cell twice (`Seg.nodup`) and has no more cells
  than the heap (`Seg.length_le`).
* From one link there is one list (`Seg.unique`).
-/

namespace Libcp2p

/-- A cell: a value and a link. -/
structure Cell (α : Type) where
  value : α
  next : Option Nat
  deriving DecidableEq, Repr

/-- A heap of cells, by address; nothing where a cell was freed. -/
structure Heap (α : Type) where
  cells : List (Option (Cell α))
  deriving DecidableEq, Repr

namespace Heap

variable {α : Type}

/-- No cell yet. -/
def empty : Heap α := ⟨[]⟩

/-- The cell at an address. -/
def read (h : Heap α) (p : Nat) : Option (Cell α) := h.cells[p]?.join

/-- The address of the next cell allocated. -/
def fresh (h : Heap α) : Nat := h.cells.length

/-- A new cell at the address `h.fresh`. -/
def alloc (h : Heap α) (c : Cell α) : Heap α := ⟨h.cells ++ [some c]⟩

/-- Overwrites a cell. -/
def write (h : Heap α) (p : Nat) (c : Cell α) : Heap α := ⟨h.cells.set p (some c)⟩

/-- Frees a cell. -/
def free (h : Heap α) (p : Nat) : Heap α := ⟨h.cells.set p none⟩

variable {h : Heap α} {p q : Nat} {c : Cell α}

theorem lt_of_read (hr : h.read p = some c) : p < h.fresh := by
  apply Nat.lt_of_not_le
  intro hle
  rw [read, List.getElem?_eq_none hle] at hr
  cases hr

theorem read_alloc_fresh : (h.alloc c).read h.fresh = some c := by
  simp [read, alloc, fresh]

theorem read_alloc_of_lt (hp : p < h.fresh) : (h.alloc c).read p = h.read p := by
  simp only [read, alloc]
  rw [List.getElem?_append_left hp]

theorem read_alloc_ne (hp : p ≠ h.fresh) : (h.alloc c).read p = h.read p := by
  rcases Nat.lt_or_gt_of_ne hp with hlt | hgt
  · exact read_alloc_of_lt hlt
  · simp only [fresh] at hgt
    simp only [read, alloc]
    rw [List.getElem?_eq_none (by simpa using Nat.succ_le_of_lt hgt), List.getElem?_eq_none (Nat.le_of_lt hgt)]

theorem read_write_self (hp : p < h.fresh) : (h.write p c).read p = some c := by
  simp only [read, write]
  rw [List.getElem?_set_self hp]
  rfl

theorem read_write_ne (hne : q ≠ p) : (h.write p c).read q = h.read q := by
  simp only [read, write]
  rw [List.getElem?_set_ne hne.symm]

theorem read_free_self : (h.free p).read p = none := by
  simp only [read, free, List.getElem?_set]
  split
  · split <;> rfl
  · contradiction

theorem read_free_ne (hne : q ≠ p) : (h.free p).read q = h.read q := by
  simp only [read, free]
  rw [List.getElem?_set_ne hne.symm]

theorem fresh_alloc : (h.alloc c).fresh = h.fresh + 1 := by simp [fresh, alloc]

end Heap

variable {α : Type} {h h' : Heap α} {p r : Option Nat} {q : Nat} {v : α} {l l₁ l₂ : List (Nat × α)}

/-- The links lead from `p` through the cells `l` to `r`. -/
def Seg (h : Heap α) : Option Nat → List (Nat × α) → Option Nat → Prop
  | p, [], r => p = r
  | p, (q, v) :: l, r => p = some q ∧ ∃ next, h.read q = some ⟨v, next⟩ ∧ Seg h next l r

/-- The addresses of cells. -/
def addrs (l : List (Nat × α)) : List Nat := l.map Prod.fst

theorem Seg.lt_fresh (hs : Seg h p l r) {a : Nat} (ha : a ∈ addrs l) : a < h.fresh := by
  induction l generalizing p with
  | nil => cases ha
  | cons x l ih =>
    obtain ⟨rfl, next, hr, hs⟩ := hs
    rcases List.mem_cons.mp ha with rfl | ha
    · exact Heap.lt_of_read hr
    · exact ih hs ha

/-- A segment depends on its own cells only. -/
theorem Seg.congr (hs : Seg h p l r) (heq : ∀ a ∈ addrs l, h'.read a = h.read a) : Seg h' p l r := by
  induction l generalizing p with
  | nil => exact hs
  | cons x l ih =>
    obtain ⟨rfl, next, hr, hs⟩ := hs
    refine ⟨rfl, next, ?_, ih hs fun a ha => heq a (List.mem_cons_of_mem _ ha)⟩
    rw [heq x.1 List.mem_cons_self]
    exact hr

theorem seg_append : Seg h p (l₁ ++ l₂) r ↔ ∃ m, Seg h p l₁ m ∧ Seg h m l₂ r := by
  induction l₁ generalizing p with
  | nil => simp [Seg]
  | cons x l ih =>
    simp only [List.cons_append, Seg, ih]
    constructor
    · rintro ⟨rfl, next, hr, m, h1, h2⟩
      exact ⟨m, ⟨rfl, next, hr, h1⟩, h2⟩
    · rintro ⟨m, ⟨rfl, next, hr, h1⟩, h2⟩
      exact ⟨rfl, next, hr, m, h1, h2⟩

/-- From one link there is one list. -/
theorem Seg.unique {l' : List (Nat × α)} (hs : Seg h p l none) (hs' : Seg h p l' none) : l = l' := by
  induction l generalizing p l' with
  | nil =>
    cases hs
    cases l' with
    | nil => rfl
    | cons x l' => cases hs'.1
  | cons x l ih =>
    obtain ⟨rfl, next, hr, hs⟩ := hs
    cases l' with
    | nil => cases hs'
    | cons x' l' =>
      obtain ⟨he, next', hr', hs'⟩ := hs'
      obtain ⟨q, v⟩ := x
      obtain ⟨q', v'⟩ := x'
      cases he
      rw [hr] at hr'
      cases hr'
      rw [ih hs hs']

/-- A list goes through no cell twice. -/
theorem Seg.nodup (hs : Seg h p l none) : (addrs l).Nodup := by
  induction l generalizing p with
  | nil => exact List.nodup_nil
  | cons x l ih =>
    have hs' := hs
    obtain ⟨rfl, next, hr, htail⟩ := hs'
    refine List.nodup_cons.mpr ⟨?_, ih htail⟩
    -- a second visit would start a proper part of the list that is the whole list
    intro hmem
    obtain ⟨y, hy, hyx⟩ := List.mem_map.mp hmem
    obtain ⟨l₁, l₂, rfl⟩ := List.append_of_mem hy
    obtain ⟨m, -, hm⟩ := seg_append.mp htail
    have hm' : m = some x.1 := by
      rw [hm.1, hyx]
    rw [hm'] at hm
    have hlen := congrArg List.length (hs.unique hm)
    simp only [List.length_cons, List.length_append] at hlen
    omega

/-- A new last cell: the link of the cell that was last leads to it. -/
theorem Seg.link {a b : Nat} {w : α} (hs : Seg h p (l ++ [(b, v)]) none) (ha : h.read a = some ⟨w, none⟩)
    (hnew : a ∉ addrs (l ++ [(b, v)])) : Seg (h.write b ⟨v, some a⟩) p (l ++ [(b, v)] ++ [(a, w)]) none := by
  have hnodup := hs.nodup
  simp only [addrs, List.map_append, List.map_cons, List.map_nil, List.mem_append, List.mem_singleton, not_or] at hnew
  rw [addrs, List.map_append, List.nodup_append] at hnodup
  obtain ⟨m, hl, rfl, next, hb, -⟩ := seg_append.mp hs
  have hl' : Seg (h.write b ⟨v, some a⟩) p l (some b) := by
    refine hl.congr fun c hc => Heap.read_write_ne ?_
    exact hnodup.2.2 c hc b (by simp)
  rw [List.append_assoc]
  refine seg_append.mpr ⟨some b, hl', rfl, some a, Heap.read_write_self (Heap.lt_of_read hb), rfl, none, ?_, rfl⟩
  rw [Heap.read_write_ne hnew.2]
  exact ha

/-- A list has no more cells than its heap. -/
theorem Seg.length_le (hs : Seg h p l none) : l.length ≤ h.fresh := by
  have hsub : addrs l ⊆ List.range h.fresh := fun a ha => List.mem_range.mpr (hs.lt_fresh ha)
  have hlen := (List.subperm_of_subset hs.nodup hsub).length_le
  rwa [addrs, List.length_map, List.length_range] at hlen

end Libcp2p

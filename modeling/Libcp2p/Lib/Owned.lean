import Libcp2p.Lib.Heap
import Mathlib.Data.Multiset.Basic
import Mathlib.Data.Multiset.MapFold

/-!
# Cells that belong to one owner

A program with several owners of cells: some are in a list, some are held by one thread or another. What is invariant is
that the cells allocated are those that somebody owns, each owned once, and that an address names one value for ever.
Allocation, deallocation by the owner and a new link in a cell keep this (`Owned.alloc`, `Owned.free`, `Owned.write`).
-/

namespace Libcp2p

variable {α : Type}

/-- The cells `live` are those that are allocated, each owned once; no address was given out twice, and `names` are the
values of all cells so far. -/
structure Owned (heap : Heap α) (live : Multiset Nat) (names : Multiset (Nat × α)) : Prop where
  nodup : live.Nodup
  mem_iff : ∀ a, a ∈ live ↔ ∃ cell, heap.read a = some cell
  names_nodup : (names.map Prod.fst).Nodup
  names_lt : ∀ x ∈ names, x.1 < heap.fresh
  values : ∀ x ∈ names, ∀ cell, heap.read x.1 = some cell → cell.value = x.2

namespace Owned

variable {heap : Heap α} {live : Multiset Nat} {names : Multiset (Nat × α)} {a : Nat} {cell : Cell α}

theorem empty : Owned (Heap.empty : Heap α) 0 0 where
  nodup := Multiset.nodup_zero
  mem_iff a := by simp [Heap.empty, Heap.read]
  names_nodup := Multiset.nodup_zero
  names_lt x hx := by cases hx
  values x hx := by cases hx

theorem alloc (h : Owned heap live names) (value : α) :
    Owned (heap.alloc ⟨value, none⟩) (heap.fresh ::ₘ live) ((heap.fresh, value) ::ₘ names) where
  nodup := by
    refine Multiset.nodup_cons.mpr ⟨fun hmem => ?_, h.nodup⟩
    obtain ⟨cell, hr⟩ := (h.mem_iff _).mp hmem
    exact absurd (Heap.lt_of_read hr) (Nat.lt_irrefl _)
  mem_iff a := by
    rw [Multiset.mem_cons]
    by_cases ha : a = heap.fresh
    · subst ha
      simp [Heap.read_alloc_fresh]
    · rw [Heap.read_alloc_ne ha, ← h.mem_iff]
      simp [ha]
  names_nodup := by
    rw [Multiset.map_cons, Multiset.nodup_cons]
    refine ⟨fun hmem => ?_, h.names_nodup⟩
    obtain ⟨x, hx, hxa⟩ := Multiset.mem_map.mp hmem
    have := h.names_lt x hx
    omega
  names_lt x hx := by
    rw [Heap.fresh_alloc]
    rcases Multiset.mem_cons.mp hx with rfl | hx
    · exact Nat.lt_succ_self _
    · exact Nat.lt_succ_of_lt (h.names_lt x hx)
  values x hx cell hr := by
    rcases Multiset.mem_cons.mp hx with rfl | hx
    · rw [Heap.read_alloc_fresh] at hr
      cases hr
      rfl
    · rw [Heap.read_alloc_of_lt (h.names_lt x hx)] at hr
      exact h.values x hx cell hr

theorem free (h : Owned heap (a ::ₘ live) names) : Owned (heap.free a) live names where
  nodup := (Multiset.nodup_cons.mp h.nodup).2
  mem_iff b := by
    by_cases hb : b = a
    · subst hb
      simp [Heap.read_free_self, (Multiset.nodup_cons.mp h.nodup).1]
    · rw [Heap.read_free_ne hb, ← h.mem_iff, Multiset.mem_cons]
      simp [hb]
  names_nodup := h.names_nodup
  names_lt x hx := by
    have := h.names_lt x hx
    simpa [Heap.fresh, Heap.free] using this
  values x hx cell hr := by
    by_cases hxa : x.1 = a
    · rw [hxa, Heap.read_free_self] at hr
      cases hr
    · rw [Heap.read_free_ne hxa] at hr
      exact h.values x hx cell hr

theorem write (h : Owned heap live names) (hr : heap.read a = some cell) (next : Option Nat) :
    Owned (heap.write a ⟨cell.value, next⟩) live names where
  nodup := h.nodup
  mem_iff b := by
    by_cases hb : b = a
    · subst hb
      rw [Heap.read_write_self (Heap.lt_of_read hr), h.mem_iff, hr]
      simp
    · rw [Heap.read_write_ne hb, h.mem_iff]
  names_nodup := h.names_nodup
  names_lt x hx := by
    have := h.names_lt x hx
    simpa [Heap.fresh, Heap.write] using this
  values x hx cell' hr' := by
    by_cases hxa : x.1 = a
    · rw [hxa, Heap.read_write_self (Heap.lt_of_read hr)] at hr'
      cases hr'
      exact h.values x hx cell (hxa ▸ hr)
    · rw [Heap.read_write_ne hxa] at hr'
      exact h.values x hx cell' hr'

end Owned

end Libcp2p

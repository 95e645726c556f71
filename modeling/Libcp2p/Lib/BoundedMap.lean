import Mathlib.Data.Finmap
import Mathlib.Data.Finset.Card

/-!
# Bounded finite maps

A `BoundedMap` is a finite map that carries the proof that it has at most `cap` keys. `insert` adds a new key while
there is room and otherwise refuses.

`Lists m es` says that the list `es` enumerates the entries of `m`, each once. It is how a list implements the map:
inserting is appending (`Lists.insert_append`), a refused insertion changes nothing (`insert_full`, `insert_known`), and
membership and lookup are read off the list (`Lists.mem_iff`, `Lists.lookup_eq_some`).
-/

namespace Libcp2p

/-- A finite map with at most `cap` keys. -/
structure BoundedMap (K V : Type) where
  /-- the bound on the number of keys -/
  cap : Nat
  /-- the map -/
  map : Finmap fun _ : K => V
  card_le : map.keys.card ≤ cap

namespace BoundedMap

variable {K V : Type}

/-- The map without a key. -/
def empty (cap : Nat) : BoundedMap K V := ⟨cap, ∅, by simp⟩

variable [DecidableEq K]

theorem keys_insert (m : Finmap fun _ : K => V) (k : K) (v : V) : (m.insert k v).keys = insert k m.keys := by
  ext x
  simp [Finmap.mem_keys]

theorem card_keys_insert {m : Finmap fun _ : K => V} {k : K} (hk : k ∉ m) (v : V) :
    (m.insert k v).keys.card = m.keys.card + 1 := by
  rw [keys_insert, Finset.card_insert_of_notMem (by rwa [Finmap.mem_keys])]

/-- Insertion of a new key while there is room, with whether it took place. -/
def insert (m : BoundedMap K V) (k : K) (v : V) : Bool × BoundedMap K V :=
  if h : m.map.keys.card < m.cap ∧ k ∉ m.map then
    (true, ⟨m.cap, m.map.insert k v, by rw [card_keys_insert h.2]; exact h.1⟩)
  else (false, m)

/-- The value of a key. -/
def lookup (m : BoundedMap K V) (k : K) : Option V := m.map.lookup k

/-- Is there a value for `k`? -/
def contains (m : BoundedMap K V) (k : K) : Bool := (m.lookup k).isSome

/-- A full map takes no key. -/
theorem insert_full {m : BoundedMap K V} (h : m.map.keys.card = m.cap) (k : K) (v : V) : m.insert k v = (false, m) :=
  dif_neg fun hc => Nat.lt_irrefl _ (h ▸ hc.1)

/-- A key is not inserted twice. -/
theorem insert_known {m : BoundedMap K V} {k : K} (h : k ∈ m.map) (v : V) : m.insert k v = (false, m) :=
  dif_neg fun hc => hc.2 h

/-- The list `es` has the entries of `m`, each once. -/
structure Lists (m : BoundedMap K V) (es : List (K × V)) : Prop where
  nodup : (es.map Prod.fst).Nodup
  card_eq : m.map.keys.card = es.length
  mem_entries : ∀ k v, m.map.lookup k = some v ↔ (k, v) ∈ es

theorem lists_empty (cap : Nat) : (empty cap : BoundedMap K V).Lists [] where
  nodup := List.nodup_nil
  card_eq := by simp [empty]
  mem_entries := by simp [empty]

namespace Lists

variable {m : BoundedMap K V} {es : List (K × V)}

theorem lookup_eq_some (h : m.Lists es) {k : K} {v : V} : m.lookup k = some v ↔ (k, v) ∈ es := h.mem_entries k v

theorem mem_iff (h : m.Lists es) {k : K} : k ∈ m.map ↔ k ∈ es.map Prod.fst := by
  rw [Finmap.mem_iff, List.mem_map]
  constructor
  · rintro ⟨v, hv⟩
    exact ⟨(k, v), (h.mem_entries k v).mp hv, rfl⟩
  · rintro ⟨⟨_, v⟩, he, rfl⟩
    exact ⟨v, (h.mem_entries _ v).mpr he⟩

theorem lookup_eq_none (h : m.Lists es) {k : K} (hk : k ∉ es.map Prod.fst) : m.lookup k = none :=
  Finmap.lookup_eq_none.mpr fun hm => hk (h.mem_iff.mp hm)

theorem contains_iff (h : m.Lists es) {k : K} : m.contains k = true ↔ k ∈ es.map Prod.fst := by
  rw [contains, lookup, Finmap.lookup_isSome, h.mem_iff]

/-- **Insertion is appending.** -/
theorem insert_append (h : m.Lists es) {k : K} (hroom : es.length < m.cap) (hk : k ∉ es.map Prod.fst) (v : V) :
    ∃ m', m.insert k v = (true, m') ∧ m'.cap = m.cap ∧ m'.Lists (es ++ [(k, v)]) := by
  have hkm : k ∉ m.map := fun hm => hk (h.mem_iff.mp hm)
  refine ⟨_, dif_pos ⟨by rw [h.card_eq]; exact hroom, hkm⟩, rfl, ?_, ?_, ?_⟩
  · simpa using List.Nodup.concat hk h.nodup
  · rw [card_keys_insert hkm, h.card_eq, List.length_append, List.length_singleton]
  · intro x w
    by_cases hx : x = k
    · subst hx
      have hne : (x, w) ∉ es := fun he => hk (List.mem_map.mpr ⟨(x, w), he, rfl⟩)
      rw [Finmap.lookup_insert]
      simp [hne, eq_comm]
    · rw [Finmap.lookup_insert_of_ne _ hx, h.mem_entries]
      simp [hx]

end Lists

end BoundedMap

end Libcp2p

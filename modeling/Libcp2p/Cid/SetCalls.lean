import Libcp2p.Cid.Set

/-!
# Adding to and removing from a set

What one call of `ipfs_cid_set_add` or `ipfs_cid_set_remove` does to a well-formed set. A call that updates an entry
with its own hash copies freed memory; an allocation that fails may leave a node whose `Cid` cannot be read; and the
first of several entries is freed while the set still leads to it.

* `CidSet.Lists.add`, `CidSet.Lists.addSpares`: a call of `ipfs_cid_set_add` leaves a well-formed set exactly when it
  spares the nodes (`CidSet.AddSpares`).
* `CidSet.Lists.remove`, `CidSet.Lists.remove_first`: a call of `ipfs_cid_set_remove` takes one entry from the set,
  unless it is for the first of several.
-/

namespace Libcp2p

/-! ## Adding -/

section Add

variable {heap : Heap CidPtr} {s : CidSet} {entries cs : List Cid} {l : List (Nat × CidPtr)}
  {fuel set : Nat} {cid : Cid} {shared visit : Bool}

/-- The arguments of a call of `ipfs_cid_set_add`. -/
structure AddArgs where
  cid : Cid
  /-- `cid` is the entry with this hash itself, or a copy of it with the same pointer to the hash -/
  shared : Bool
  visit : Bool
  deriving DecidableEq, Repr

/-- What adding a `Cid` does to the entries: the one with its hash stays or is replaced, or it is appended. -/
def addEntry (cid : Cid) (visit : Bool) : List Cid → List Cid
  | [] => [cid]
  | c :: cs => if c.hash = cid.hash then (if visit then c :: cs else cid :: cs) else c :: addEntry cid visit cs

theorem map_hash_addEntry : (addEntry cid visit entries).map Cid.hash =
    if cid.hash ∈ entries.map Cid.hash then entries.map Cid.hash else entries.map Cid.hash ++ [cid.hash] := by
  induction entries with
  | nil => rfl
  | cons c cs ih =>
    by_cases hc : c.hash = cid.hash
    · cases visit <;> simp [addEntry, hc]
    · simp only [addEntry, if_neg hc, List.map_cons, ih, List.mem_cons, Ne.symm hc, false_or]
      split <;> rfl

theorem nodup_addEntry (cid : Cid) (visit : Bool) (h : (entries.map Cid.hash).Nodup) :
    ((addEntry cid visit entries).map Cid.hash).Nodup := by
  rw [map_hash_addEntry]
  split
  · exact h
  · next hnew =>
    rw [← List.concat_eq_append]
    exact h.concat hnew

theorem addEntry_ne_nil : addEntry cid visit entries ≠ [] := by
  cases entries with
  | nil => exact List.cons_ne_nil _ _
  | cons c cs =>
    simp only [addEntry]
    split
    · split <;> exact List.cons_ne_nil _ _
    · exact List.cons_ne_nil _ _

/-- What a call of `ipfs_cid_set_add` returns and leaves in the nodes of a set that is not empty. -/
def addValues (cid : Cid) (visit : Bool) (allocs : SetAllocs) : List Cid → Int × List CidPtr
  | [] =>
    if allocs.node = false then (-1, [])
    else if allocs.cid = false then (-1, [.null])
    else (hashResult allocs.hash, [copyCid cid allocs.hash])
  | c :: cs =>
    if c.hash = cid.hash then
      if visit then (0, (c :: cs).map .cid)
      else (hashResult allocs.hash, copyCid cid allocs.hash :: cs.map .cid)
    else ((addValues cid visit allocs cs).1, .cid c :: (addValues cid visit allocs cs).2)

/-- The call updates an entry with the hash of this entry. -/
def SharedUpdate (cid : Cid) (shared visit : Bool) (allocs : SetAllocs) (entries : List Cid) : Prop :=
  visit = false ∧ shared = true ∧ allocs.hash = true ∧ cid.hash ≠ [] ∧ cid.hash ∈ entries.map Cid.hash

theorem sharedUpdate_cons {c : Cid} {allocs : SetAllocs} (hc : c.hash ≠ cid.hash) :
    SharedUpdate cid shared visit allocs (c :: cs) ↔ SharedUpdate cid shared visit allocs cs := by
  simp [SharedUpdate, Ne.symm hc]

/-- The loop of such a call copies freed memory. -/
theorem cidSetAddLoop_shared {allocs : SetAllocs} (hs : Seg heap (some set) l none)
    (hl : l.map Prod.snd = cs.map CidPtr.cid) (hfuel : cs.length ≤ fuel)
    (hshared : SharedUpdate cid shared visit allocs cs) :
    cidSetAddLoop cid shared visit allocs heap fuel set = .error .outOfBounds := by
  induction cs generalizing l fuel set with
  | nil => cases seg_entries_nil hs hl
  | cons c cs ih =>
    obtain ⟨_, next, l', hset, -, hr, htail, hvalues⟩ := seg_entries_cons hs hl
    cases hset
    cases fuel with
    | zero => cases hfuel
    | succ fuel =>
      rw [cidSetAddLoop, node_of_read hr]
      simp only [ok_bind, sameHash, decide_eq_true_eq]
      by_cases hc : c.hash = cid.hash
      · obtain ⟨rfl, hsh, hhash, hne, -⟩ := hshared
        rw [if_pos hc, if_neg Bool.false_ne_true, if_pos ⟨hsh, hhash, hne⟩]
      · rw [if_neg hc]
        rw [sharedUpdate_cons hc] at hshared
        cases next with
        | none =>
          cases seg_entries_none htail hvalues
          cases hshared.2.2.2.2
        | some next => exact ih htail hvalues (Nat.le_of_succ_le_succ hfuel) hshared

/-- The loop does so with the nodes it runs over, and leaves the other nodes alone. -/
theorem cidSetAddLoop_eq {allocs : SetAllocs} (hs : Seg heap (some set) l none)
    (hl : l.map Prod.snd = cs.map CidPtr.cid) (hfuel : cs.length ≤ fuel)
    (hown : ¬ SharedUpdate cid shared visit allocs cs) :
    ∃ r heap' l', cidSetAddLoop cid shared visit allocs heap fuel set = .ok (r, heap') ∧ Seg heap' (some set) l' none ∧
      (r, l'.map Prod.snd) = addValues cid visit allocs cs ∧
      ∀ a < heap.fresh, a ∉ addrs l → heap'.read a = heap.read a := by
  induction cs generalizing l fuel set with
  | nil => cases seg_entries_nil hs hl
  | cons c cs ih =>
    have hnodup := hs.nodup
    obtain ⟨_, next, l', hset, rfl, hr, htail, hvalues⟩ := seg_entries_cons hs hl
    cases hset
    have hlt := Heap.lt_of_read hr
    have hnot : set ∉ addrs l' := (List.nodup_cons.mp hnodup).1
    cases fuel with
    | zero => cases hfuel
    | succ fuel =>
      rw [cidSetAddLoop, node_of_read hr]
      simp only [ok_bind, sameHash, decide_eq_true_eq, addValues]
      by_cases hc : c.hash = cid.hash
      · rw [if_pos hc, if_pos hc]
        cases visit with
        | true => exact ⟨0, heap, _, rfl, hs, by rw [hl]; rfl, fun _ _ _ => rfl⟩
        | false =>
          have hcopy : ¬(shared = true ∧ allocs.hash = true ∧ cid.hash ≠ []) := by
            rintro ⟨hsh, hhash, hne⟩
            exact hown ⟨rfl, hsh, hhash, hne, by simp [hc]⟩
          rw [if_neg Bool.false_ne_true, if_neg hcopy]
          refine ⟨_, _, (set, copyCid cid allocs.hash) :: l', rfl, ⟨rfl, next, Heap.read_write_self hlt, ?_⟩,
            by rw [List.map_cons, hvalues]; rfl, ?_⟩
          · exact htail.congr fun a ha => Heap.read_write_ne (ne_of_mem_of_not_mem ha hnot)
          · intro a _ ha
            exact Heap.read_write_ne (List.ne_of_not_mem_cons ha)
      · rw [if_neg hc, if_neg hc]
        rw [sharedUpdate_cons hc] at hown
        cases next with
        | none =>
          cases seg_entries_none htail hvalues
          -- the end of the list: a new node is linked from the last one
          have hlink (value : CidPtr) :
              Seg ((heap.alloc ⟨value, none⟩).write set ⟨.cid c, some heap.fresh⟩) (some set)
                [(set, .cid c), (heap.fresh, value)] none := by
            refine ⟨rfl, some heap.fresh, ?_, rfl, none, ?_, rfl⟩
            · exact Heap.read_write_self (by rw [Heap.fresh_alloc]; omega)
            · rw [Heap.read_write_ne (by omega), Heap.read_alloc_fresh]
          have hframe (value : CidPtr) : ∀ a < heap.fresh, a ∉ addrs ((set, .cid c) :: l') →
              ((heap.alloc ⟨value, none⟩).write set ⟨.cid c, some heap.fresh⟩).read a = heap.read a := by
            intro a hlt ha
            rw [Heap.read_write_ne (List.ne_of_not_mem_cons ha), Heap.read_alloc_of_lt hlt]
          simp only [addValues]
          by_cases hnode : allocs.node = false
          · simp only [hnode, if_true]
            exact ⟨_, heap, _, rfl, hs, by rw [hl]; rfl, fun _ _ _ => rfl⟩
          · by_cases hcid : allocs.cid = false
            · simp only [if_neg hnode, if_pos hcid]
              exact ⟨_, _, _, rfl, hlink .null, rfl, hframe .null⟩
            · simp only [if_neg hnode, if_neg hcid]
              exact ⟨_, _, _, rfl, hlink _, rfl, hframe _⟩
        | some next =>
          obtain ⟨r, heap', l'', hadd, hs', hl', hframe⟩ := ih htail hvalues (Nat.le_of_succ_le_succ hfuel) hown
          refine ⟨r, heap', (set, .cid c) :: l'', hadd, ⟨rfl, some next, ?_, hs'⟩, ?_, ?_⟩
          · rw [hframe set hlt hnot, hr]
          · rw [List.map_cons, ← hl']
          · intro a halt ha
            exact hframe a halt (List.not_mem_of_not_mem_cons ha)

/-- What `ipfs_cid_set_add` leaves in the nodes of an empty set. -/
theorem CidSet.Lists.add_nil (h : s.Lists []) (cid : Cid) (shared visit : Bool) (allocs : SetAllocs) :
    ∃ r s' value, ipfsCidSetAdd s cid shared visit allocs = .ok (r, s') ∧
      Seg s'.heap (some s'.set) [(s.set, value)] none ∧
      (r, value) = if allocs.cid = false then (-1, .null)
        else if allocs.hash = false then (-1, .freed) else (0, .cid cid) := by
  have hr := h.read_nil
  rw [ipfsCidSetAdd, node_of_read hr]
  simp only [ok_bind, if_true]
  by_cases hcid : allocs.cid = false
  · simp only [if_pos hcid]
    exact ⟨_, s, _, rfl, ⟨rfl, none, hr, rfl⟩, rfl⟩
  · simp only [if_neg hcid]
    refine ⟨_, _, _, rfl, ⟨rfl, none, Heap.read_write_self (Heap.lt_of_read hr), rfl⟩, ?_⟩
    cases allocs.hash <;> rfl

/-- What `ipfs_cid_set_add` leaves in the nodes of a set that is not empty. -/
theorem CidSet.Lists.add_cons {c : Cid} {allocs : SetAllocs} (h : s.Lists (c :: cs))
    (hown : ¬ SharedUpdate cid shared visit allocs (c :: cs)) :
    ∃ r s' l', ipfsCidSetAdd s cid shared visit allocs = .ok (r, s') ∧ Seg s'.heap (some s'.set) l' none ∧
      (r, l'.map Prod.snd) = addValues cid visit allocs (c :: cs) := by
  obtain ⟨l, hs, hl, hlen⟩ := h.seg
  obtain ⟨next, hr, -⟩ := h.read_cons
  obtain ⟨r, heap', l', hadd, hs', hl', -⟩ :=
    cidSetAddLoop_eq hs hl (hlen.symm.le.trans hs.length_le) hown
  refine ⟨r, ⟨heap', s.set⟩, l', ?_, hs', hl'⟩
  rw [ipfsCidSetAdd, node_of_read hr]
  simp only [ok_bind, reduceCtorEq, if_false, hadd]

/-- A call that updates an entry with its own hash copies freed memory. -/
theorem CidSet.Lists.add_shared {allocs : SetAllocs} (h : s.Lists entries)
    (hshared : SharedUpdate cid shared visit allocs entries) :
    ipfsCidSetAdd s cid shared visit allocs = .error .outOfBounds := by
  cases entries with
  | nil => cases hshared.2.2.2.2
  | cons c cs =>
    obtain ⟨l, hs, hl, hlen⟩ := h.seg
    obtain ⟨next, hr, -⟩ := h.read_cons
    have hloop := cidSetAddLoop_shared hs hl (hlen.symm.le.trans hs.length_le) hshared
    rw [ipfsCidSetAdd, node_of_read hr]
    simp only [ok_bind, reduceCtorEq, if_false, hloop, error_bind]

/-- The call leaves no node that cannot be read. A failed allocation may leave a freed `Cid` in an empty set, or else
one without its hash or no `Cid` at all in the node updated or appended; an update must not have the hash of its
entry. -/
structure CidSet.AddSpares (s : CidSet) (cid : Cid) (shared visit : Bool) (allocs : SetAllocs) : Prop where
  first : ipfsCidSetLen s = .ok 0 → allocs.cid = true → allocs.hash = true
  update : ipfsCidSetHas s cid = .ok true → visit = false →
    (allocs.hash = true ∧ shared = false) ∨ cid.hash = []
  append : ipfsCidSetLen s ≠ .ok 0 → ipfsCidSetHas s cid = .ok false → allocs.node = true →
    allocs.cid = true ∧ (allocs.hash = true ∨ cid.hash = [])

theorem copyCid_eq_cid (cid : Cid) {hash : Bool} (h : hash = true ∨ cid.hash = []) : copyCid cid hash = .cid cid :=
  if_pos h

theorem copyCid_readable {hash : Bool} {c : Cid} (h : copyCid cid hash = .cid c) : hash = true ∨ cid.hash = [] := by
  by_cases hok : hash = true ∨ cid.hash = []
  · exact hok
  · rw [copyCid, if_neg hok] at h
    cases h

/-- The entries after a call that leaves no damaged node. -/
def addedEntries (cid : Cid) (visit : Bool) (allocs : SetAllocs) (entries : List Cid) : List Cid :=
  if cid.hash ∉ entries.map Cid.hash ∧ allocs.node = false then entries else addEntry cid visit entries

theorem addValues_eq {allocs : SetAllocs}
    (hupdate : cid.hash ∈ cs.map Cid.hash → visit = false → allocs.hash = true ∨ cid.hash = [])
    (happend : cid.hash ∉ cs.map Cid.hash → allocs.node = true →
      allocs.cid = true ∧ (allocs.hash = true ∨ cid.hash = [])) :
    (addValues cid visit allocs cs).2 = (addedEntries cid visit allocs cs).map CidPtr.cid := by
  induction cs with
  | nil =>
    cases hnode : allocs.node with
    | false => simp [addValues, addedEntries, hnode]
    | true =>
      obtain ⟨hcid, hhash⟩ := happend List.not_mem_nil hnode
      simp [addValues, addedEntries, hnode, hcid, copyCid_eq_cid cid hhash, addEntry]
  | cons c cs ih =>
    by_cases hc : c.hash = cid.hash
    · have hmem : cid.hash ∈ (c :: cs).map Cid.hash := by simp [hc]
      have hadded : addedEntries cid visit allocs (c :: cs) = addEntry cid visit (c :: cs) :=
        if_neg fun h => h.1 hmem
      rw [hadded, addValues, addEntry, if_pos hc, if_pos hc]
      cases visit with
      | true => rfl
      | false => simp [copyCid_eq_cid cid (hupdate hmem rfl)]
    · have hmem : cid.hash ∈ (c :: cs).map Cid.hash ↔ cid.hash ∈ cs.map Cid.hash := by simp [Ne.symm hc]
      rw [hmem] at hupdate happend
      have hadded : addedEntries cid visit allocs (c :: cs) = c :: addedEntries cid visit allocs cs := by
        simp only [addedEntries, hmem, addEntry, if_neg hc]
        split <;> rfl
      rw [hadded, addValues, if_neg hc, ih hupdate happend]
      rfl

theorem addValues_readable {allocs : SetAllocs} (h : ∀ v ∈ (addValues cid visit allocs cs).2, ∃ c, v = .cid c) :
    (cid.hash ∈ cs.map Cid.hash → visit = false → allocs.hash = true ∨ cid.hash = []) ∧
      (cid.hash ∉ cs.map Cid.hash → allocs.node = true → allocs.cid = true ∧ (allocs.hash = true ∨ cid.hash = [])) := by
  induction cs with
  | nil =>
    refine ⟨fun hmem => absurd hmem List.not_mem_nil, fun _ hnode => ?_⟩
    cases hcid : allocs.cid with
    | false =>
      obtain ⟨c, hc⟩ := h .null (by simp [addValues, hnode, hcid])
      cases hc
    | true =>
      obtain ⟨c, hc⟩ := h (copyCid cid allocs.hash) (by simp [addValues, hnode, hcid])
      exact ⟨rfl, copyCid_readable hc⟩
  | cons c cs ih =>
    by_cases hc : c.hash = cid.hash
    · have hmem : cid.hash ∈ (c :: cs).map Cid.hash := by simp [hc]
      refine ⟨fun _ hvisit => ?_, fun hnot => absurd hmem hnot⟩
      obtain ⟨d, hd⟩ := h (copyCid cid allocs.hash) (by simp [addValues, hc, hvisit])
      exact copyCid_readable hd
    · have hmem : cid.hash ∈ (c :: cs).map Cid.hash ↔ cid.hash ∈ cs.map Cid.hash := by simp [Ne.symm hc]
      rw [hmem]
      apply ih
      intro v hv
      exact h v (by rw [addValues, if_neg hc]; exact List.mem_cons_of_mem _ hv)

theorem addValues_head (c : Cid) (cs : List Cid) (cid : Cid) (visit : Bool) (allocs : SetAllocs) :
    ∃ v vs, (addValues cid visit allocs (c :: cs)).2 = v :: vs ∧ v ≠ .null := by
  rw [addValues]
  split
  · split
    · exact ⟨_, _, rfl, by simp⟩
    · refine ⟨_, _, rfl, ?_⟩
      rw [copyCid]
      split <;> simp
  · exact ⟨_, _, rfl, by simp⟩

/-- Where the nodes are those of a well-formed set, all their values can be read. -/
theorem readable_of_listed {c : Cid} {allocs : SetAllocs}
    (h : (addValues cid visit allocs (c :: cs)).2 = nodeValues entries) :
    ∀ v ∈ (addValues cid visit allocs (c :: cs)).2, ∃ c, v = .cid c := by
  intro v hv
  cases entries with
  | nil =>
    obtain ⟨w, ws, hhead, hne⟩ := addValues_head c cs cid visit allocs
    exact absurd (List.cons.inj (hhead.symm.trans h)).1 hne
  | cons d ds =>
    rw [h] at hv
    obtain ⟨e, -, rfl⟩ := List.mem_map.mp hv
    exact ⟨e, rfl⟩

theorem addedEntries_ne_nil {c : Cid} {allocs : SetAllocs} : addedEntries cid visit allocs (c :: cs) ≠ [] := by
  rw [addedEntries]
  split
  · exact List.cons_ne_nil _ _
  · exact addEntry_ne_nil

theorem nodup_addedEntries {allocs : SetAllocs} (h : (entries.map Cid.hash).Nodup) :
    ((addedEntries cid visit allocs entries).map Cid.hash).Nodup := by
  rw [addedEntries]
  split
  · exact h
  · exact nodup_addEntry cid visit h

/-- A call that spares the nodes does not update an entry with its own hash. -/
theorem CidSet.AddSpares.not_sharedUpdate {allocs : SetAllocs} (hspares : s.AddSpares cid shared visit allocs)
    (h : s.Lists entries) : ¬ SharedUpdate cid shared visit allocs entries := by
  rintro ⟨hvisit, hshared, -, hne, hmem⟩
  rcases hspares.update (by rw [h.has_eq, decide_eq_true hmem]) hvisit with ⟨-, hown⟩ | hnil
  · rw [hshared] at hown
    cases hown
  · exact hne hnil

/-- **`ipfs_cid_set_add` adds an entry**, or leaves the entries as they are, unless it damages a node. -/
theorem CidSet.Lists.add {allocs : SetAllocs} (h : s.Lists entries) (hspares : s.AddSpares cid shared visit allocs) :
    ∃ r s' entries', ipfsCidSetAdd s cid shared visit allocs = .ok (r, s') ∧ s'.Lists entries' := by
  have hown := hspares.not_sharedUpdate h
  cases entries with
  | nil =>
    obtain ⟨r, s', value, hadd, hs', hvalue⟩ := h.add_nil cid shared visit allocs
    by_cases hcid : allocs.cid = false
    · rw [if_pos hcid] at hvalue
      cases hvalue
      exact ⟨_, s', [], hadd, ⟨_, hs', rfl⟩, List.nodup_nil⟩
    · have hhash := hspares.first (h.len_eq_zero.mpr rfl) (Bool.not_eq_false _ ▸ hcid)
      rw [if_neg hcid, if_neg (by simp [hhash])] at hvalue
      cases hvalue
      exact ⟨_, s', [cid], hadd, ⟨_, hs', rfl⟩, List.nodup_singleton _⟩
  | cons c cs =>
    obtain ⟨r, s', l', hadd, hs', hvalues⟩ := h.add_cons hown
    refine ⟨r, s', addedEntries cid visit allocs (c :: cs), hadd, ⟨l', hs', ?_⟩, nodup_addedEntries h.nodup⟩
    rw [nodeValues, if_neg addedEntries_ne_nil, ← addValues_eq, ← hvalues]
    · intro hmem hvisit
      exact (hspares.update (by rw [h.has_eq, decide_eq_true hmem]) hvisit).imp_left And.left
    · intro hmem
      exact hspares.append (h.len_eq_zero.not.mpr (List.cons_ne_nil c cs)) (by rw [h.has_eq, decide_eq_false hmem])

/-- A call that leaves a well-formed set spared its nodes. -/
theorem CidSet.Lists.addSpares {s' : CidSet} {entries' : List Cid} {allocs : SetAllocs} {r : Int} (h : s.Lists entries)
    (hadd : ipfsCidSetAdd s cid shared visit allocs = .ok (r, s')) (h' : s'.Lists entries') :
    s.AddSpares cid shared visit allocs := by
  obtain ⟨k, hk, hkvalues⟩ := h'.list
  have hown : ¬ SharedUpdate cid shared visit allocs entries := by
    intro hshared
    rw [h.add_shared hshared] at hadd
    cases hadd
  cases entries with
  | nil =>
    refine ⟨fun _ hcid => ?_, fun hhas => ?_, fun hlen => absurd (h.len_eq_zero.mpr rfl) hlen⟩
    · obtain ⟨_, _, value, hadd', hs', hvalue⟩ := h.add_nil cid shared visit allocs
      cases hadd.symm.trans hadd'
      rw [if_neg (by simp [hcid])] at hvalue
      cases hhash : allocs.hash with
      | true => rfl
      | false =>
        -- a freed `Cid` is no value of a well-formed set
        rw [hk.unique hs', nodeValues] at hkvalues
        rw [if_pos hhash] at hvalue
        cases hvalue
        cases entries' with
        | nil => cases hkvalues
        | cons d ds => cases hkvalues
    · rw [h.has_eq] at hhas
      cases hhas
  | cons c cs =>
    obtain ⟨_, _, l', hadd', hs', hvalues⟩ := h.add_cons hown
    cases hadd.symm.trans hadd'
    rw [hk.unique hs'] at hkvalues
    have hlisted : (addValues cid visit allocs (c :: cs)).2 = nodeValues entries' := by
      rw [← hvalues]
      exact hkvalues
    obtain ⟨hupdate, happend⟩ := addValues_readable (readable_of_listed hlisted)
    refine ⟨fun hlen => absurd (h.len_eq_zero.mp hlen) (List.cons_ne_nil c cs), fun hhas hvisit => ?_, fun _ hhas => ?_⟩
    · rw [h.has_eq] at hhas
      have hmem := of_decide_eq_true (Except.ok.inj hhas)
      rcases hupdate hmem hvisit with hhash | hnil
      · by_cases hnil : cid.hash = []
        · exact .inr hnil
        · exact .inl ⟨hhash, Bool.not_eq_true _ ▸ fun hshared => hown ⟨hvisit, hshared, hhash, hnil, hmem⟩⟩
      · exact .inr hnil
    · rw [h.has_eq] at hhas
      exact happend (of_decide_eq_false (Except.ok.inj hhas))

/-- All allocations succeed. -/
def SetAllocs.success : SetAllocs := ⟨true, true, true⟩

theorem addValues_success : addValues cid visit .success cs = (0, (addEntry cid visit cs).map CidPtr.cid) := by
  induction cs with
  | nil => rfl
  | cons c cs ih =>
    by_cases hc : c.hash = cid.hash
    · cases visit <;> simp [addValues, addEntry, hc, hashResult, copyCid, SetAllocs.success]
    · simp [addValues, addEntry, hc, ih]

/-- With memory for its allocations, `ipfs_cid_set_add` returns 0 and adds the entry. -/
theorem CidSet.Lists.add_success (h : s.Lists entries) (hown : ¬ SharedUpdate cid shared visit .success entries) :
    ∃ s', ipfsCidSetAdd s cid shared visit .success = .ok (0, s') ∧ s'.Lists (addEntry cid visit entries) := by
  have hnodup := nodup_addEntry cid visit h.nodup
  cases entries with
  | nil =>
    obtain ⟨r, s', value, hadd, hs', hvalue⟩ := h.add_nil cid shared visit .success
    cases hvalue
    exact ⟨s', hadd, ⟨_, hs', rfl⟩, hnodup⟩
  | cons c cs =>
    obtain ⟨r, s', l', hadd, hs', hvalues⟩ := h.add_cons hown
    rw [addValues_success] at hvalues
    obtain ⟨hr, hl'⟩ := Prod.mk.inj hvalues
    refine ⟨s', hr ▸ hadd, ⟨l', hs', ?_⟩, hnodup⟩
    rw [nodeValues, if_neg addEntry_ne_nil, hl']

end Add

/-! ## Removing -/

section Remove

variable {heap : Heap CidPtr} {s : CidSet} {entries cs : List Cid} {l : List (Nat × CidPtr)}
  {fuel prev set : Nat} {cid : Cid} {value : CidPtr}

/-- The entries without those of one hash. -/
def removeEntry (cid : Cid) (entries : List Cid) : List Cid := entries.filter fun c => c.hash ≠ cid.hash

theorem removeEntry_cons_of_eq {c : Cid} (h : c.hash = cid.hash) : removeEntry cid (c :: cs) = removeEntry cid cs :=
  List.filter_cons_of_neg (by simp [h])

theorem removeEntry_cons_of_ne {c : Cid} (h : c.hash ≠ cid.hash) :
    removeEntry cid (c :: cs) = c :: removeEntry cid cs :=
  List.filter_cons_of_pos (by simp [h])

theorem removeEntry_of_not_mem (h : cid.hash ∉ entries.map Cid.hash) : removeEntry cid entries = entries := by
  apply List.filter_eq_self.mpr
  intro c hc
  have hne : c.hash ≠ cid.hash := by
    intro heq
    exact h (heq ▸ List.mem_map_of_mem hc)
  exact decide_eq_true hne

/-- Past the first node, the loop unlinks the node with the hash and frees it; the other nodes stay as they are. -/
theorem cidSetRemoveLoop_eq (cid : Cid) (hprev : heap.read prev = some ⟨value, some set⟩)
    (hs : Seg heap (some set) l none) (hnot : prev ∉ addrs l) (hl : l.map Prod.snd = cs.map CidPtr.cid)
    (hnodup : (cs.map Cid.hash).Nodup) (hfuel : cs.length ≤ fuel) :
    ∃ heap' next' l', cidSetRemoveLoop cid heap fuel prev set = .ok (decide (cid.hash ∈ cs.map Cid.hash), heap') ∧
      heap'.read prev = some ⟨value, next'⟩ ∧ Seg heap' next' l' none ∧
      l'.map Prod.snd = (removeEntry cid cs).map CidPtr.cid ∧
      ∀ a, a ≠ prev → a ∉ addrs l → heap'.read a = heap.read a := by
  induction cs generalizing l fuel prev set value with
  | nil => cases seg_entries_nil hs hl
  | cons c cs ih =>
    have haddrs := hs.nodup
    obtain ⟨_, next, l', hset, rfl, hr, htail, hvalues⟩ := seg_entries_cons hs hl
    cases hset
    have hset : set ∉ addrs l' := (List.nodup_cons.mp haddrs).1
    have hne : prev ≠ set := List.ne_of_not_mem_cons hnot
    have hprevTail : prev ∉ addrs l' := List.not_mem_of_not_mem_cons hnot
    obtain ⟨hfirst, hrest⟩ := List.nodup_cons.mp hnodup
    cases fuel with
    | zero => cases hfuel
    | succ fuel =>
      rw [cidSetRemoveLoop, node_of_read hr]
      simp only [ok_bind, sameHash, decide_eq_true_eq]
      by_cases hc : c.hash = cid.hash
      · rw [if_pos hc, if_neg hne, node_of_read hprev]
        refine ⟨(heap.write prev ⟨value, next⟩).free set, next, l', ?_, ?_, ?_, ?_, ?_⟩
        · simp only [ok_bind, List.map_cons, hc, List.mem_cons_self, decide_true]
        · rw [Heap.read_free_ne hne, Heap.read_write_self (Heap.lt_of_read hprev)]
        · apply htail.congr
          intro a ha
          rw [Heap.read_free_ne (ne_of_mem_of_not_mem ha hset),
            Heap.read_write_ne (ne_of_mem_of_not_mem ha hprevTail)]
        · rw [hvalues, removeEntry_cons_of_eq hc, removeEntry_of_not_mem (hc ▸ hfirst)]
        · intro a haprev ha
          rw [Heap.read_free_ne (List.ne_of_not_mem_cons ha), Heap.read_write_ne haprev]
      · rw [if_neg hc]
        have hmem : cid.hash ∈ (c :: cs).map Cid.hash ↔ cid.hash ∈ cs.map Cid.hash := by
          simp [Ne.symm hc]
        rw [removeEntry_cons_of_ne hc]
        simp only [hmem]
        cases next with
        | none =>
          cases seg_entries_none htail hvalues
          exact ⟨heap, some set, _, rfl, hprev, hs, hl, fun _ _ _ => rfl⟩
        | some next =>
          obtain ⟨heap', next', l'', hloop, hread, hs', hl', hframe⟩ :=
            ih hr htail hset hvalues hrest (Nat.le_of_succ_le_succ hfuel)
          refine ⟨heap', some set, (set, .cid c) :: l'', hloop, ?_, ⟨rfl, next', hread, hs'⟩, ?_, ?_⟩
          · rw [hframe prev hne hprevTail, hprev]
          · rw [List.map_cons, List.map_cons, hl']
          · intro a haprev ha
            exact hframe a (List.ne_of_not_mem_cons ha) (List.not_mem_of_not_mem_cons ha)

/-- The hash of `cid` is that of the first of several entries. -/
def CidSet.FirstOfSeveral (s : CidSet) (cid : Cid) : Prop :=
  ∃ c next, s.heap.read s.set = some ⟨.cid c, some next⟩ ∧ c.hash = cid.hash

/-- **`ipfs_cid_set_remove` removes an entry** that is not the first of several. -/
theorem CidSet.Lists.remove (h : s.Lists entries) (hfirst : ¬ s.FirstOfSeveral cid) :
    ∃ s', ipfsCidSetRemove s cid = .ok (decide (cid.hash ∈ entries.map Cid.hash), s') ∧
      s'.Lists (removeEntry cid entries) := by
  have hnodup : ((removeEntry cid entries).map Cid.hash).Nodup := h.nodup.sublist (List.filter_sublist.map _)
  cases entries with
  | nil =>
    refine ⟨s, ?_, h⟩
    rw [ipfsCidSetRemove, node_of_read h.read_nil]
    rfl
  | cons c cs =>
    obtain ⟨l, hs, hl, hlen⟩ := h.seg
    have haddrs := hs.nodup
    have hle := hs.length_le
    obtain ⟨_, next, l', hset, rfl, hr, htail, hvalues⟩ := seg_entries_cons hs hl
    cases hset
    obtain ⟨n, hn⟩ : ∃ n, s.heap.fresh = n + 1 := ⟨s.heap.fresh - 1, by have := Heap.lt_of_read hr; omega⟩
    rw [ipfsCidSetRemove, node_of_read hr, hn, cidSetRemoveLoop, node_of_read hr]
    simp only [ok_bind, sameHash, decide_eq_true_eq]
    by_cases hc : c.hash = cid.hash
    · -- the only entry: the first node stays and loses its `Cid`
      cases next with
      | some next => exact absurd ⟨c, next, hr, hc⟩ hfirst
      | none =>
        cases seg_entries_none htail hvalues
        refine ⟨⟨s.heap.write s.set ⟨.null, none⟩, s.set⟩, ?_, ⟨[(s.set, .null)], ?_, ?_⟩, hnodup⟩
        · simp [ok_bind, hc]
        · exact ⟨rfl, none, Heap.read_write_self (Heap.lt_of_read hr), rfl⟩
        · rw [removeEntry_cons_of_eq hc]
          rfl
    · rw [if_neg hc]
      have hmem : cid.hash ∈ (c :: cs).map Cid.hash ↔ cid.hash ∈ cs.map Cid.hash := by
        simp [Ne.symm hc]
      have hvalue : nodeValues (removeEntry cid (c :: cs)) = .cid c :: (removeEntry cid cs).map CidPtr.cid := by
        rw [removeEntry_cons_of_ne hc]
        rfl
      simp only [hmem]
      cases next with
      | none =>
        cases seg_entries_none htail hvalues
        exact ⟨s, rfl, ⟨_, hs, by rw [hvalue]; exact hl⟩, hnodup⟩
      | some next =>
        have hfuel : cs.length ≤ n := by
          have := congrArg List.length hvalues
          simp only [List.length_map, List.length_cons] at this hle
          omega
        obtain ⟨heap', next', l'', hloop, hread, hs', hl', -⟩ :=
          cidSetRemoveLoop_eq cid hr htail (List.nodup_cons.mp haddrs).1 hvalues (List.nodup_cons.mp h.nodup).2 hfuel
        refine ⟨⟨heap', s.set⟩, ?_, ⟨(s.set, .cid c) :: l'', ⟨rfl, next', hread, hs'⟩, ?_⟩, hnodup⟩
        · simp only [hloop, ok_bind, reduceCtorEq, if_false]
        · rw [hvalue, List.map_cons, hl']

/-- Removing the first of several entries leaves the first node linked to the node that was freed. -/
theorem CidSet.Lists.remove_first (h : s.Lists entries) (hfirst : s.FirstOfSeveral cid) :
    ∃ s', ipfsCidSetRemove s cid = .ok (true, s') ∧ ¬ s'.NoneFreed := by
  obtain ⟨c, next, hr, hc⟩ := hfirst
  have hlt := Heap.lt_of_read hr
  obtain ⟨cell, hcell⟩ : ∃ cell, s.heap.read next = some cell :=
    Option.isSome_iff_exists.mp (h.noneFreed next (.next .first hr))
  have hne : s.set ≠ next := by
    -- the list goes through no node twice
    obtain ⟨l, hs, -⟩ := h.list
    have hnodup := hs.nodup
    cases l with
    | nil => cases hs
    | cons x l =>
      obtain ⟨q, v⟩ := x
      obtain ⟨hq, next', hr', hs⟩ := hs
      cases hq
      rw [hr] at hr'
      cases hr'
      cases l with
      | nil => cases hs
      | cons y l =>
        obtain ⟨hy, -⟩ := hs
        cases hy
        exact List.ne_of_not_mem_cons (List.nodup_cons.mp hnodup).1
  obtain ⟨n, hn⟩ : ∃ n, s.heap.fresh = n + 1 := ⟨s.heap.fresh - 1, by omega⟩
  refine ⟨⟨(s.heap.write s.set ⟨cell.value, some next⟩).free next, s.set⟩, ?_, ?_⟩
  · rw [ipfsCidSetRemove, node_of_read hr, hn, cidSetRemoveLoop, node_of_read hr]
    simp [ok_bind, sameHash, hc, node_of_read hcell]
  · intro hnone
    have hlinked := hnone next (.next .first (by rw [Heap.read_free_ne hne, Heap.read_write_self hlt]))
    rw [Heap.read_free_self] at hlinked
    cases hlinked

end Remove

end Libcp2p

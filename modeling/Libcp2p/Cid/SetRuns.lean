import Libcp2p.Cid.SetCalls
import Libcp2p.Lib.BigEndian
import Libcp2p.Lib.Runs

/-!
# Sequences of calls on a set

A step is one call, so what one call does to a well-formed set carries over to every sequence of calls on a new set.

* `cid_set_adds_iff`: after calls of `ipfs_cid_set_add` on a new set it holds one entry per hash, in the order of first
  addition, each as last added or updated, and the other functions answer accordingly, exactly when there are fewer than
  `2 ^ 31` hashes and no entry is updated with its own hash.
* `cid_set_remove_iff`: over every sequence of calls, the set stays well-formed and every `ipfs_cid_set_remove` does
  what it should exactly when no call removes the first of several entries or one of `2 ^ 31`, and none damages a node.
-/

namespace Libcp2p

section Adds

variable {entries : List Cid} {adds : List AddArgs} {cid : Cid}

/-- `cid` was added by the latest call for its hash that was the first one or had `visit = 0`. -/
def LatestAdded (adds : List AddArgs) (cid : Cid) : Prop :=
  ∃ before a after, adds = before ++ a :: after ∧ a.cid = cid ∧
    (a.visit = false ∨ ∀ b ∈ before, b.cid.hash ≠ cid.hash) ∧ ∀ b ∈ after, b.cid.hash = cid.hash → b.visit = true

theorem mem_addEntry {a : AddArgs} (hnodup : (entries.map Cid.hash).Nodup) (h : cid ∈ addEntry a.cid a.visit entries) :
    (cid = a.cid ∧ (a.visit = false ∨ a.cid.hash ∉ entries.map Cid.hash)) ∨
      (cid ∈ entries ∧ (a.cid.hash = cid.hash → a.visit = true)) := by
  induction entries with
  | nil => exact .inl ⟨List.mem_singleton.mp h, .inr List.not_mem_nil⟩
  | cons c cs ih =>
    obtain ⟨hfirst, hrest⟩ := List.nodup_cons.mp hnodup
    by_cases hc : c.hash = a.cid.hash
    · have hother : ∀ d ∈ cs, a.cid.hash ≠ d.hash := by
        intro d hd heq
        exact hfirst (List.mem_map.mpr ⟨d, hd, by rw [hc, heq]⟩)
      cases hv : a.visit with
      | true =>
        simp only [addEntry, hc, hv, if_true] at h
        exact .inr ⟨h, fun _ => rfl⟩
      | false =>
        simp only [addEntry, hc, hv, if_true, Bool.false_eq_true, if_false] at h
        rcases List.mem_cons.mp h with rfl | h
        · exact .inl ⟨rfl, .inl rfl⟩
        · exact .inr ⟨List.mem_cons_of_mem _ h, fun heq => absurd heq (hother cid h)⟩
    · rw [addEntry, if_neg hc] at h
      rcases List.mem_cons.mp h with rfl | h
      · exact .inr ⟨List.mem_cons_self, fun heq => absurd heq.symm hc⟩
      · rcases ih hrest h with ⟨rfl, hnew⟩ | ⟨hmem, hkeep⟩
        · refine .inl ⟨rfl, hnew.imp_right fun hnew => ?_⟩
          intro hmem
          rcases List.mem_cons.mp hmem with heq | hmem
          · exact hc heq.symm
          · exact hnew hmem
        · exact .inr ⟨List.mem_cons_of_mem _ hmem, hkeep⟩

/-- The entries after the calls `adds` on a set with the given entries. -/
def addEntries (entries : List Cid) (adds : List AddArgs) : List Cid :=
  adds.foldl (fun entries a => addEntry a.cid a.visit entries) entries

theorem addEntries_concat (entries : List Cid) (adds : List AddArgs) (a : AddArgs) :
    addEntries entries (adds ++ [a]) = addEntry a.cid a.visit (addEntries entries adds) := by
  simp [addEntries]

theorem nodup_addEntries (adds : List AddArgs) : ((addEntries [] adds).map Cid.hash).Nodup := by
  induction adds using List.reverseRecOn with
  | nil => exact List.nodup_nil
  | append_singleton adds a ih =>
    rw [addEntries_concat]
    exact nodup_addEntry _ _ ih

/-- One entry for each hash, in the order of first addition. -/
theorem map_hash_addEntries (adds : List AddArgs) :
    (addEntries [] adds).map Cid.hash = (adds.map fun a => a.cid.hash).eraseDups := by
  induction adds using List.reverseRecOn with
  | nil => rfl
  | append_singleton adds a ih =>
    rw [addEntries_concat, map_hash_addEntry, ih, List.map_append, List.eraseDups_append]
    generalize (adds.map fun a => a.cid.hash) = hashes
    simp only [List.mem_eraseDups, List.map_cons, List.map_nil]
    split
    · next hmem => simp [List.removeAll, hmem]
    · next hmem => simp [List.removeAll, hmem, List.eraseDups_cons]

/-- Each entry is the one added or updated last. -/
theorem latestAdded_of_mem (h : cid ∈ addEntries [] adds) : LatestAdded adds cid := by
  induction adds using List.reverseRecOn with
  | nil => cases h
  | append_singleton adds a ih =>
    rw [addEntries_concat] at h
    rcases mem_addEntry (nodup_addEntries adds) h with ⟨rfl, hnew⟩ | ⟨hmem, hkeep⟩
    · refine ⟨adds, a, [], rfl, rfl, hnew.imp_right fun hnew b hb heq => hnew ?_, fun b hb => by cases hb⟩
      rw [map_hash_addEntries, List.mem_eraseDups, ← heq]
      exact List.mem_map_of_mem hb
    · obtain ⟨before, b, after, rfl, hb, hfirst, hafter⟩ := ih hmem
      refine ⟨before, b, after ++ [a], by simp, hb, hfirst, ?_⟩
      intro d hd heq
      rcases List.mem_append.mp hd with hd | hd
      · exact hafter d hd heq
      · cases List.mem_singleton.mp hd
        exact hkeep heq

/-- One call of `ipfs_cid_set_add`, with memory for its allocations. -/
def addCall (s : CidSet) (a : AddArgs) : Except Fault (Int × CidSet) :=
  ipfsCidSetAdd s a.cid a.shared a.visit .success

/-- The call with the arguments `a` updates no entry with the hash of this entry, on a set that has the hash of `b`. -/
def AddArgs.Apart (b a : AddArgs) : Prop :=
  b.cid.hash = a.cid.hash → a.visit = false → a.shared = false ∨ a.cid.hash = []

/-- Calls that return leave the entries they should. -/
theorem lists_of_addCall {s s' : CidSet} {r : Int} {a : AddArgs} (h : s.Lists entries)
    (hadd : addCall s a = .ok (r, s')) :
    ¬ SharedUpdate a.cid a.shared a.visit .success entries ∧ s'.Lists (addEntry a.cid a.visit entries) := by
  have hown : ¬ SharedUpdate a.cid a.shared a.visit .success entries := by
    intro hshared
    rw [addCall, h.add_shared hshared] at hadd
    cases hadd
  obtain ⟨t, hadd', ht⟩ := h.add_success hown
  cases hadd.symm.trans hadd'
  exact ⟨hown, ht⟩

/-- A call shares no hash with the set another call has left exactly if it shares none with the set before and none with
the `Cid` added. -/
theorem not_sharedUpdate_addEntry {a b : AddArgs} :
    ¬ SharedUpdate a.cid a.shared a.visit .success (addEntry b.cid b.visit entries) ↔
      ¬ SharedUpdate a.cid a.shared a.visit .success entries ∧ b.Apart a := by
  have hmem : a.cid.hash ∈ (addEntry b.cid b.visit entries).map Cid.hash ↔
      a.cid.hash ∈ entries.map Cid.hash ∨ b.cid.hash = a.cid.hash := by
    rw [map_hash_addEntry]
    split
    · next hb =>
      refine ⟨.inl, ?_⟩
      rintro (ha | heq)
      · exact ha
      · exact heq ▸ hb
    · rw [List.mem_append, List.mem_singleton, eq_comm (a := a.cid.hash)]
  unfold SharedUpdate AddArgs.Apart
  rw [hmem]
  cases a.visit <;> cases a.shared <;> by_cases hnil : a.cid.hash = [] <;> simp [hnil, SetAllocs.success]

/-- The calls return as long as no entry is updated with its own hash. -/
theorem outs_addCall {s : CidSet} (h : s.Lists entries)
    (hown : ∀ a ∈ adds, ¬ SharedUpdate a.cid a.shared a.visit .success entries) (hapart : adds.Pairwise AddArgs.Apart) :
    ∃ s', outs addCall s adds = .ok (List.replicate adds.length 0, s') ∧ s'.Lists (addEntries entries adds) := by
  induction adds generalizing s entries with
  | nil => exact ⟨s, rfl, h⟩
  | cons a adds ih =>
    obtain ⟨hfirst, hrest⟩ := List.pairwise_cons.mp hapart
    obtain ⟨s', hadd, hs'⟩ := h.add_success (hown a List.mem_cons_self)
    have hown' : ∀ b ∈ adds, ¬ SharedUpdate b.cid b.shared b.visit .success (addEntry a.cid a.visit entries) :=
      fun b hb => not_sharedUpdate_addEntry.mpr ⟨hown b (List.mem_cons_of_mem _ hb), hfirst b hb⟩
    obtain ⟨s'', hadds, hs''⟩ := ih hs' hown' hrest
    exact ⟨s'', outs_cons_eq_ok.mpr ⟨s', hadd, hadds⟩, hs''⟩

/-- Calls that return have updated no entry with its own hash. -/
theorem apart_of_outs {s s' : CidSet} (h : s.Lists entries)
    (hout : outs addCall s adds = .ok (List.replicate adds.length 0, s')) :
    (∀ a ∈ adds, ¬ SharedUpdate a.cid a.shared a.visit .success entries) ∧ adds.Pairwise AddArgs.Apart := by
  induction adds generalizing s entries with
  | nil => exact ⟨fun a ha => (by cases ha), .nil⟩
  | cons a adds ih =>
    obtain ⟨t, hadd, hadds⟩ := outs_cons_eq_ok.mp hout
    obtain ⟨hown, ht⟩ := lists_of_addCall h hadd
    obtain ⟨howns, hapart⟩ := ih ht hadds
    have hboth := fun b hb => not_sharedUpdate_addEntry.mp (howns b hb)
    refine ⟨?_, List.pairwise_cons.mpr ⟨fun b hb => (hboth b hb).2, hapart⟩⟩
    intro b hb
    rcases List.mem_cons.mp hb with rfl | hb
    · exact hown
    · exact (hboth b hb).1

/-- What calls of `ipfs_cid_set_add` on a new set should do: each returns 0, the set holds one entry for each hash in
the order of first addition, each the one of the latest call that added or updated it, and `ipfs_cid_set_has`,
`ipfs_cid_set_len` and `ipfs_cid_set_foreach` answer accordingly. -/
def AddsWell (adds : List AddArgs) : Prop :=
  ∃ s entries, outs addCall ipfsCidSetNew adds = .ok (List.replicate adds.length 0, s) ∧ s.Lists entries ∧
    entries.map Cid.hash = (adds.map fun a => a.cid.hash).eraseDups ∧
    (∀ cid ∈ entries, LatestAdded adds cid) ∧
    (∀ cid, ipfsCidSetHas s cid = .ok (decide (∃ a ∈ adds, a.cid.hash = cid.hash))) ∧
    ipfsCidSetLen s = .ok (adds.map fun a => a.cid.hash).eraseDups.length ∧
    ∀ (σ : Type) (func : σ → Cid → σ × Int) (st : σ),
      ipfsCidSetForeach s func st = .ok (foreachEntry func st entries)

/-- The calls on a new set, and how long the set is then. -/
theorem outs_addCall_new (hapart : adds.Pairwise AddArgs.Apart) :
    ∃ s, outs addCall ipfsCidSetNew adds = .ok (List.replicate adds.length 0, s) ∧ s.Lists (addEntries [] adds) ∧
      ipfsCidSetLen s = intCount (adds.map fun a => a.cid.hash).eraseDups.length := by
  obtain ⟨s, hadds, hs⟩ := outs_addCall CidSet.lists_new (fun a _ hshared => by cases hshared.2.2.2.2) hapart
  refine ⟨s, hadds, hs, ?_⟩
  rw [hs.len_eq, ← map_hash_addEntries, List.length_map]

/-- **Adding to a new set** works as it should exactly when there are fewer than `2 ^ 31` hashes, which an `int` counts,
and no call updates an entry with the hash of this entry. -/
theorem cid_set_adds_iff (adds : List AddArgs) :
    AddsWell adds ↔
      (adds.map fun a => a.cid.hash).eraseDups.length < 2 ^ 31 ∧ adds.Pairwise AddArgs.Apart := by
  constructor
  · rintro ⟨s, entries, hadds, -, -, -, -, hlen, -⟩
    have hapart := (apart_of_outs CidSet.lists_new hadds).2
    obtain ⟨t, hadds', -, hlen'⟩ := outs_addCall_new hapart
    cases hadds.symm.trans hadds'
    exact ⟨(intCount_eq_ok.mp (hlen'.symm.trans hlen)).1, hapart⟩
  · rintro ⟨hcount, hapart⟩
    obtain ⟨s, hadds, hs, hlen⟩ := outs_addCall_new hapart
    have hhashes := map_hash_addEntries adds
    refine ⟨s, addEntries [] adds, hadds, hs, hhashes, fun cid hcid => latestAdded_of_mem hcid, ?_, ?_, ?_⟩
    · intro cid
      rw [hs.has_eq, hhashes]
      simp only [List.mem_eraseDups, List.mem_map]
    · rw [hlen, intCount, if_pos hcount]
    · intro σ func st
      exact hs.foreach_eq func st

/-- Additions of `n` different hashes. -/
def numberedAdds (n : Nat) : List AddArgs := (List.range n).map fun i => ⟨⟨0, 112, beBytes 4 i⟩, false, true⟩

theorem eraseDups_of_nodup {l : List (List UInt8)} (h : l.Nodup) : l.eraseDups = l := by
  induction l with
  | nil => rfl
  | cons a l ih =>
    obtain ⟨ha, hl⟩ := List.nodup_cons.mp h
    have hfilter : l.filter (fun b => !b == a) = l := by
      rw [List.filter_eq_self]
      intro b hb
      simpa using ne_of_mem_of_not_mem hb ha
    rw [List.eraseDups_cons, hfilter, ih hl]

/-- There are `n` hashes among them. -/
theorem length_hashes_numberedAdds {n : Nat} (hn : n ≤ 2 ^ 32) :
    ((numberedAdds n).map fun a => a.cid.hash).eraseDups.length = n := by
  have hnodup : ((numberedAdds n).map fun a => a.cid.hash).Nodup := by
    rw [numberedAdds, List.map_map]
    refine List.Nodup.map_on ?_ List.nodup_range
    intro i hi j hj heq
    have hbound : ∀ k ∈ List.range n, k < 256 ^ 4 := fun k hk => by
      have := List.mem_range.mp hk
      omega
    rw [← beNat_beBytes (hbound i hi), ← beNat_beBytes (hbound j hj)]
    exact congrArg beNat heq
  rw [eraseDups_of_nodup hnodup, List.length_map, numberedAdds, List.length_map, List.length_range]

/-- After `2 ^ 31` additions of different hashes the length overflows; and a copy of the only entry, with its hash,
added with `visit = 0` has its hash freed before it is copied. -/
theorem cid_set_adds_overflow :
    (∃ s, outs addCall ipfsCidSetNew (numberedAdds (2 ^ 31)) =
        .ok (List.replicate (numberedAdds (2 ^ 31)).length 0, s) ∧ ipfsCidSetLen s = .error .overflow) ∧
    ¬ AddsWell (numberedAdds (2 ^ 31)) ∧
    outs addCall ipfsCidSetNew [⟨⟨0, 112, [1]⟩, false, true⟩, ⟨⟨0, 112, [1]⟩, true, false⟩] = .error .outOfBounds := by
  have hcount : ((numberedAdds (2 ^ 31)).map fun a => a.cid.hash).eraseDups.length = 2 ^ 31 :=
    length_hashes_numberedAdds (by decide)
  have hapart : (numberedAdds (2 ^ 31)).Pairwise AddArgs.Apart := by
    rw [numberedAdds, List.pairwise_map]
    exact List.pairwise_of_forall fun i j _ hvisit => (by cases hvisit)
  obtain ⟨s, hadds, -, hlen⟩ := outs_addCall_new hapart
  rw [hcount, intCount, if_neg (Nat.lt_irrefl _)] at hlen
  refine ⟨⟨s, hadds, hlen⟩, ?_, rfl⟩
  rintro ⟨t, entries, hadds', -, -, -, -, hlen', -⟩
  cases hadds.symm.trans hadds'
  cases hlen.symm.trans hlen'

end Adds

section Removes

variable {s s' : CidSet} {entries : List Cid} {cid : Cid}

/-- A call on a set. -/
inductive CidSetCall
  | add (cid : Cid) (shared visit : Bool) (allocs : SetAllocs)
  | remove (cid : Cid)
  deriving DecidableEq, Repr

/-- The set after a call that returns. -/
def cidSetStep (s : CidSet) : CidSetCall → Option CidSet
  | .add cid shared visit allocs => (ipfsCidSetAdd s cid shared visit allocs).toOption.map Prod.snd
  | .remove cid => (ipfsCidSetRemove s cid).toOption.map Prod.snd

/-- What removing `cid` from a set with the given entries should do: it tells whether the hash was there, the other
entries stay as they are and in their order, and no freed node stays linked. -/
structure Removes (s : CidSet) (cid : Cid) (entries : List Cid) (r : Bool) (s' : CidSet) : Prop where
  returns : r = true ↔ cid.hash ∈ entries.map Cid.hash
  lists : s'.Lists (removeEntry cid entries)
  has_self : ipfsCidSetHas s' cid = .ok false
  has_other : ∀ d, d.hash ≠ cid.hash → ipfsCidSetHas s' d = ipfsCidSetHas s d
  len : ∃ n, ipfsCidSetLen s' = .ok n ∧ ipfsCidSetLen s = .ok (if r then n + 1 else n)
  noneFreed : s'.NoneFreed

/-- The call does what it should: an addition leaves a well-formed set, a removal returns and removes. -/
def CallWell (s : CidSet) : CidSetCall → Prop
  | .add cid shared visit allocs =>
    ∃ r s' entries, ipfsCidSetAdd s cid shared visit allocs = .ok (r, s') ∧ s'.Lists entries
  | .remove cid => ∃ entries r s', s.Lists entries ∧ ipfsCidSetRemove s cid = .ok (r, s') ∧ Removes s cid entries r s'

/-- The call damages no node, and it does not remove the first of several entries, nor an entry of a set that is too
long for `ipfs_cid_set_len`. -/
def Spares (s : CidSet) : CidSetCall → Prop
  | .add cid shared visit allocs => s.AddSpares cid shared visit allocs
  | .remove cid => ¬ s.FirstOfSeveral cid ∧ s.CountFits

theorem mem_map_hash_removeEntry {d : Cid} :
    d.hash ∈ (removeEntry cid entries).map Cid.hash ↔ d.hash ≠ cid.hash ∧ d.hash ∈ entries.map Cid.hash := by
  simp only [removeEntry, List.mem_map, List.mem_filter, decide_eq_true_eq]
  constructor
  · rintro ⟨c, ⟨hc, hne⟩, heq⟩
    exact ⟨heq ▸ hne, c, hc, heq⟩
  · rintro ⟨hne, c, hc, heq⟩
    exact ⟨c, ⟨hc, heq ▸ hne⟩, heq⟩

theorem length_removeEntry (cid : Cid) (hnodup : (entries.map Cid.hash).Nodup) :
    entries.length = if cid.hash ∈ entries.map Cid.hash then (removeEntry cid entries).length + 1
      else (removeEntry cid entries).length := by
  induction entries with
  | nil => rfl
  | cons c cs ih =>
    obtain ⟨hfirst, hrest⟩ := List.nodup_cons.mp hnodup
    by_cases hc : c.hash = cid.hash
    · rw [removeEntry_cons_of_eq hc, removeEntry_of_not_mem (hc ▸ hfirst), if_pos (by simp [hc])]
      rfl
    · rw [removeEntry_cons_of_ne hc, List.length_cons, ih hrest]
      simp only [List.map_cons, List.mem_cons, Ne.symm hc, false_or, List.length_cons]
      split <;> rfl

/-- Removing an entry that is not the first of several does what it should, if the entries can be counted. -/
theorem removes_of_not_first (h : s.Lists entries) (hfirst : ¬ s.FirstOfSeveral cid) (hfits : s.CountFits) :
    ∃ r s', ipfsCidSetRemove s cid = .ok (r, s') ∧ Removes s cid entries r s' := by
  obtain ⟨s', hremove, hs'⟩ := h.remove hfirst
  have hlt := h.countFits_iff.mp hfits
  have hle : (removeEntry cid entries).length ≤ entries.length := List.length_filter_le _ _
  have hlen' : ipfsCidSetLen s' = .ok (removeEntry cid entries).length := by
    rw [hs'.len_eq, intCount, if_pos (Nat.lt_of_le_of_lt hle hlt)]
  refine ⟨_, s', hremove, decide_eq_true_iff, hs', ?_, ?_, ⟨_, hlen', ?_⟩, hs'.noneFreed⟩
  · rw [hs'.has_eq]
    simp [mem_map_hash_removeEntry]
  · intro d hne
    rw [hs'.has_eq, h.has_eq]
    simp only [mem_map_hash_removeEntry, hne, ne_eq, not_false_eq_true, true_and]
  · rw [h.len_eq, intCount, if_pos hlt, length_removeEntry cid h.nodup]
    simp only [decide_eq_true_eq]

theorem callWell_iff {a : CidSetCall} (h : s.Lists entries) : CallWell s a ↔ Spares s a := by
  cases a with
  | add cid shared visit allocs =>
    constructor
    · rintro ⟨r, s', entries', hadd, h'⟩
      exact h.addSpares hadd h'
    · intro hspares
      exact h.add hspares
  | remove cid =>
    constructor
    · rintro ⟨_, r, s', -, hremove, hr⟩
      constructor
      · intro hfirst
        obtain ⟨s'', hremove', hfreed⟩ := h.remove_first hfirst
        rw [hremove] at hremove'
        cases hremove'
        exact hfreed hr.noneFreed
      · obtain ⟨n, -, hlen⟩ := hr.len
        exact h.countFits_iff.mpr (intCount_eq_ok.mp (h.len_eq.symm.trans hlen)).1
    · rintro ⟨hfirst, hfits⟩
      obtain ⟨r, s', hremove, hr⟩ := removes_of_not_first h hfirst hfits
      exact ⟨entries, r, s', h, hremove, hr⟩

/-- Calls that spare the nodes keep the set well-formed. -/
theorem lists_cidSetStep {a : CidSetCall} (h : s.Lists entries) (ha : Spares s a)
    (hstep : cidSetStep s a = some s') : ∃ entries', s'.Lists entries' := by
  cases a with
  | add cid shared visit allocs =>
    obtain ⟨r, t, entries', hadd, ht⟩ := h.add ha
    simp only [cidSetStep, hadd, Except.toOption, Option.map_some, Option.some.injEq] at hstep
    exact ⟨_, hstep ▸ ht⟩
  | remove cid =>
    obtain ⟨t, hremove, ht⟩ := h.remove ha.1
    simp only [cidSetStep, hremove, Except.toOption, Option.map_some, Option.some.injEq] at hstep
    exact ⟨_, hstep ▸ ht⟩

/-- **Removing, over every sequence of calls.** The set stays well-formed and each removal does what it should exactly
when no call removes the first of several entries or one of `2 ^ 31` entries, and none damages a node. -/
theorem cid_set_remove_iff (calls : List CidSetCall) :
    EachStep cidSetStep CallWell ipfsCidSetNew calls ↔ EachStep cidSetStep Spares ipfsCidSetNew calls := by
  apply eachStep_congr (I := fun s => ∃ entries, s.Lists entries)
  · rintro s a ⟨entries, h⟩
    exact callWell_iff h
  · rintro s a s' ⟨entries, h⟩ ha hstep
    exact lists_cidSetStep h ha hstep
  · exact ⟨[], CidSet.lists_new⟩

/-- After two entries are added, removing the first leaves its node linked to the freed one, and asking for the removed
entry reads that node. -/
theorem cid_set_remove_first_freed :
    let first : Cid := ⟨0, 112, [1]⟩
    let second : Cid := ⟨0, 112, [2]⟩
    ∃ s s', run cidSetStep ipfsCidSetNew [.add first false true .success, .add second false true .success] = some s ∧
      ipfsCidSetRemove s first = .ok (true, s') ∧ ipfsCidSetHas s' first = .error .outOfBounds ∧
      ¬ CallWell s (.remove first) := by
  intro first second
  refine ⟨_, _, rfl, rfl, rfl, ?_⟩
  rintro ⟨entries, r, s', -, hremove, hr⟩
  cases hremove
  cases hr.has_self

end Removes

end Libcp2p

import Libcp2p.Lib.Runs
import Libcp2p.Peerstore.Store
import Mathlib.Logic.Function.Basic

/-!
# Concurrent insertions

Any number of threads insert peers into one store, each a key under its own id. A call of `peerstore_insert_peer` takes
four atomic steps: the capacity test, the lookup under the read lock, the validation, and the resize and append under
the write lock. Nothing holds between the checks and the append, so an append may come when the store has become full
or when the id has been stored.

`race_safe_iff`: over every interleaving, the store stays within its limits and keeps its ids distinct exactly when
every append finds room and a new id. `race_not_safe` is an interleaving of two calls where it does not; `run_alone`
says that the four steps of a thread in a row are the sequential call.
-/

namespace Libcp2p

/-- What a thread has done of its call. -/
inductive Pc
  | start
  | capacityOk
  | absent
  | validated
  | done (ok : Bool)
  deriving DecidableEq, Repr

/-- The store that the threads share, or the fault that stopped the process, and where each thread is. -/
structure Race (ι : Type) where
  store : Except Fault Peerstore
  pc : ι → Pc

section Step

variable {ι : Type} [DecidableEq ι] (sha : Sha256) (keys : ι → List UInt8)

/-- Thread `t` goes on to `pc`. -/
def Race.goto (s : Race ι) (t : ι) (pc : Pc) : Race ι := { s with pc := Function.update s.pc t pc }

/-- The threads before their calls on a new store. -/
def Race.init (maxPeers : Nat) : Race ι := ⟨.ok (peerstoreNewPeerstore maxPeers), fun _ => .start⟩

/-- The next step of thread `t` on the store `pst`. -/
def threadStep (s : Race ι) (pst : Peerstore) (t : ι) : Race ι :=
  match s.pc t with
  | .start => if pst.numPeers = pst.maxPeers then s.goto t (.done false) else s.goto t .capacityOk
  | .capacityOk =>
    match peerstoreHavePeer pst (PID sha (keys t)) with
    | .ok true => s.goto t (.done false)
    | .ok false => s.goto t .absent
    | .error fault => { s with store := .error fault }
  | .absent =>
    match peerstoreValidatePeerId sha .success (PID sha (keys t)) (keys t) with
    | .ok true => s.goto t .validated
    | .ok false => s.goto t (.done false)
    | .error fault => { s with store := .error fault }
  | .validated =>
    match appendPeer .success pst (PID sha (keys t)) (keys t) with
    | .ok (ok, pst') => { s.goto t (.done ok) with store := .ok pst' }
    | .error fault => { s with store := .error fault }
  | .done _ => s

/-- A step of thread `t`, unless a fault has stopped the process. -/
def raceStep (s : Race ι) (t : ι) : Option (Race ι) :=
  match s.store with
  | .ok pst => some (threadStep sha keys s pst t)
  | .error _ => none

end Step

/-! ## Safety -/

/-- The store is within its limits and its ids are distinct. -/
structure Peerstore.Safe (pst : Peerstore) : Prop where
  numPeers_le_maxPeers : pst.numPeers ≤ pst.maxPeers
  numPeers_le_peersSize : pst.numPeers ≤ pst.peersSize
  nodup_ids : (ids pst.entries).Nodup

/-- No fault has happened (an append past the end of the array is one), and the store is safe. -/
def Race.Safe {ι : Type} (s : Race ι) : Prop := ∃ pst, s.store = .ok pst ∧ pst.Safe

/-- If the thread is at its append, the store has room and not the id, and the size of a full array is doubled without
wrapping. The size in bytes, which would wrap before, is no matter here: that `realloc` succeeds means that it gives as
many slots as it was asked for. -/
def Race.AppendOk {ι : Type} (sha : Sha256) (keys : ι → List UInt8) (s : Race ι) (t : ι) : Prop :=
  ∀ pst, s.store = .ok pst → s.pc t = .validated →
    pst.numPeers ≠ pst.maxPeers ∧ PID sha (keys t) ∉ ids pst.entries ∧
      (pst.numPeers = pst.peersSize → pst.peersSize * 2 < 2 ^ 64)

/-- The invariant: the store holds genuine peers with distinct ids, no more than its limits allow. -/
structure RaceInv (sha : Sha256) (pst : Peerstore) (es : List Peer) : Prop extends HoldsGenuine sha pst es where
  size_lt : pst.peersSize < 2 ^ 64
  length_le_maxPeers : es.length ≤ pst.maxPeers
  nodup_ids : (ids es).Nodup

namespace RaceInv

variable {pst pst' : Peerstore} {es : List Peer} {sha : Sha256} {key : List UInt8}

theorem safe (h : RaceInv sha pst es) : pst.Safe where
  numPeers_le_maxPeers := h.numPeers_eq ▸ h.length_le_maxPeers
  numPeers_le_peersSize := h.numPeers_eq ▸ h.length_le
  nodup_ids := by rw [h.entries_eq]; exact h.nodup_ids

/-- Twice the size of a full array overflows to less than the peers it holds. -/
theorem newPeersSize_of_wrap (h : RaceInv sha pst es) (hwrap : 2 ^ 64 ≤ pst.peersSize * 2) :
    newPeersSize pst < pst.peersSize := by
  have hlt := h.size_lt
  have hmod : pst.peersSize * 2 % 2 ^ 64 = pst.peersSize * 2 - 2 ^ 64 := by omega
  unfold newPeersSize
  rw [hmod]
  dsimp only
  split <;> omega

/-- An append that finds room and a new id keeps the invariant. -/
theorem append_keeps (h : RaceInv sha pst es) (hmax : pst.numPeers ≠ pst.maxPeers) (hnew : PID sha key ∉ ids es)
    (hwrap : pst.numPeers = pst.peersSize → pst.peersSize * 2 < 2 ^ 64) :
    ∃ pst', appendPeer .success pst (PID sha key) key = .ok (true, pst') ∧
      RaceInv sha pst' (es ++ [⟨PID sha key, key⟩]) := by
  have hroom : es.length < pst.maxPeers := Nat.lt_of_le_of_ne h.length_le_maxPeers (h.numPeers_eq ▸ hmax)
  have hnodup : (ids (es ++ [⟨PID sha key, key⟩])).Nodup := nodup_ids_snoc.mpr ⟨h.nodup_ids, hnew⟩
  have hlen : (es ++ [(⟨PID sha key, key⟩ : Peer)]).length ≤ pst.maxPeers := by
    rw [List.length_append, List.length_singleton]
    exact hroom
  rcases Nat.lt_or_eq_of_le h.length_le with hlt | hfull
  · have hholds := h.snoc (holds_storePeer h.toHolds hlt ⟨PID sha key, key⟩)
    exact ⟨_, appendPeer_of_lt h.toHolds hlt _ _, hholds, h.size_lt, hlen, hnodup⟩
  · have hgrow : es.length < newPeersSize pst := by
      rw [hfull]
      apply lt_newPeersSize (hfull ▸ hroom) h.size_pos
      exact hwrap (h.numPeers_eq.trans hfull)
    have hrealloc := holds_reallocPeers h.toHolds hfull (Nat.le_of_lt hgrow)
    have hholds := h.snoc (holds_storePeer hrealloc hgrow ⟨PID sha key, key⟩)
    exact ⟨_, appendPeer_of_full h.toHolds hfull hgrow _ _, hholds, newPeersSize_lt pst, hlen, hnodup⟩

/-- An append that leaves a safe store found room and a new id. -/
theorem append_needs (h : RaceInv sha pst es) {ok : Bool}
    (happ : appendPeer .success pst (PID sha key) key = .ok (ok, pst')) (hsafe : pst'.Safe) :
    pst.numPeers ≠ pst.maxPeers ∧ PID sha key ∉ ids es ∧
      (pst.numPeers = pst.peersSize → pst.peersSize * 2 < 2 ^ 64) := by
  obtain ⟨-, hholds, hmaxPeers, hgrow⟩ := holds_of_appendPeer h.toHolds happ
  have hle := hsafe.numPeers_le_maxPeers
  have hnodup := hsafe.nodup_ids
  rw [hholds.numPeers_eq, hmaxPeers, List.length_append, List.length_singleton] at hle
  rw [hholds.entries_eq, nodup_ids_snoc] at hnodup
  refine ⟨?_, hnodup.2, ?_⟩
  · rw [h.numPeers_eq]
    omega
  · intro hfull
    rw [h.numPeers_eq] at hfull
    have := hgrow hfull
    by_contra hwrap
    have := h.newPeersSize_of_wrap (Nat.le_of_not_lt hwrap)
    omega

end RaceInv

/-! ## Runs -/

section Runs

variable {ι : Type} [DecidableEq ι] {sha : Sha256} {keys : ι → List UInt8} {s s' : Race ι} {t : ι} {pst : Peerstore}
  {es : List Peer}

/-- A step of a thread that is not at its append leaves the store as it is. -/
theorem threadStep_store (h : RaceInv sha pst es) (hpc : s.pc t ≠ .validated) :
    (threadStep sha keys s pst t).store = s.store := by
  unfold threadStep
  cases hp : s.pc t with
  | start =>
    dsimp only
    split <;> rfl
  | capacityOk =>
    dsimp only
    rw [h.havePeer_eq]
    cases decide (PID sha (keys t) ∈ ids es) <;> rfl
  | absent =>
    dsimp only
    rw [peerstoreValidatePeerId_eq_true.mpr ⟨rfl, List.prefix_rfl⟩]
    rfl
  | validated => exact absurd hp hpc
  | done ok => rfl

/-- **Concurrent insertions.** The store is safe in every state of an interleaving exactly when every append that a
thread comes to finds room for its peer and a new id. -/
theorem race_safe_iff (sha : Sha256) (keys : ι → List UInt8) (maxPeers : Nat) (schedule : List ι) :
    Always (raceStep sha keys) Race.Safe (Race.init maxPeers) schedule ↔
      StepsOk (raceStep sha keys) (Race.AppendOk sha keys) (Race.init maxPeers) schedule := by
  apply always_iff_stepsOk (J := fun s => ∃ pst es, s.store = .ok pst ∧ RaceInv sha pst es)
  · rintro s ⟨pst, es, hs, h⟩
    exact ⟨pst, hs, h.safe⟩
  · rintro s t s' ⟨pst, es, hs, h⟩ hok hstep
    rw [raceStep, hs] at hstep
    cases hstep
    by_cases hpc : s.pc t = .validated
    · obtain ⟨hmax, hnew, hwrap⟩ := hok pst hs hpc
      rw [h.entries_eq] at hnew
      obtain ⟨pst', happ, h'⟩ := h.append_keeps hmax hnew hwrap
      refine ⟨pst', _, ?_, h'⟩
      simp only [threadStep, hpc, happ]
    · exact ⟨pst, es, (threadStep_store h hpc).trans hs, h⟩
  · rintro s t s' ⟨pst, es, hs, h⟩ hstep ⟨pst', hs', hsafe⟩ pst₁ hs₁ hpc
    obtain rfl := Except.ok.inj (hs.symm.trans hs₁)
    rw [raceStep, hs] at hstep
    cases hstep
    rw [h.entries_eq]
    cases happ : appendPeer .success pst (PID sha (keys t)) (keys t) with
    | error fault =>
      simp only [threadStep, hpc, happ] at hs'
      cases hs'
    | ok r =>
      obtain ⟨ok, pst₂⟩ := r
      simp only [threadStep, hpc, happ, Except.ok.injEq] at hs'
      exact h.append_needs happ (hs' ▸ hsafe)
  · exact ⟨_, [], rfl, holdsGenuine_new sha maxPeers, (by decide : 2 < 2 ^ 64), Nat.zero_le _, List.nodup_nil⟩

/-- The four steps of a thread in a row are the sequential call. -/
theorem run_alone {ok : Bool} {pst' : Peerstore} (hs : s.store = .ok pst) (hpc : s.pc t = .start)
    (hins : peerstoreInsertPeer sha .success pst (PID sha (keys t)) (keys t) = .ok (ok, pst')) :
    ∃ s', run (raceStep sha keys) s [t, t, t, t] = some s' ∧ s'.store = .ok pst' ∧ s'.pc t = .done ok := by
  have hvalid : peerstoreValidatePeerId sha .success (PID sha (keys t)) (keys t) = .ok true :=
    peerstoreValidatePeerId_eq_true.mpr ⟨rfl, List.prefix_rfl⟩
  rcases peerstoreInsertPeer_cases hins with ⟨hmax, hhave, -, happ⟩ | ⟨rfl, rfl, hrefused⟩
  · simp [run, raceStep, threadStep, Race.goto, hs, hpc, hmax, hhave, hvalid, happ]
  · by_cases hmax : pst'.numPeers = pst'.maxPeers
    · simp [run, raceStep, threadStep, Race.goto, hs, hpc, hmax]
    · rcases hrefused with heq | hhave | hinvalid
      · exact absurd heq hmax
      · simp [run, raceStep, threadStep, Race.goto, hs, hpc, hmax, hhave]
      · cases hinvalid.symm.trans hvalid

end Runs

/-- Two threads insert the same new peer into a store for one: both find it empty, and both append. -/
theorem race_not_safe : ¬∃ sha : Sha256, Always (raceStep sha fun _ : Bool => [1]) Race.Safe (Race.init 1)
    [true, false, true, false, true, false, true, false] := by
  rintro ⟨sha, h⟩
  have hvalid : peerstoreValidatePeerId sha .success (PID sha [1]) [1] = .ok true :=
    peerstoreValidatePeerId_eq_true.mpr ⟨rfl, List.prefix_rfl⟩
  have hrun : ∃ s, run (raceStep sha fun _ : Bool => [1]) (Race.init 1)
      [true, false, true, false, true, false, true, false] = some s ∧
      s.store = .ok ⟨1, 2, 2, [some ⟨PID sha [1], [1]⟩, some ⟨PID sha [1], [1]⟩]⟩ := by
    simp [run, raceStep, threadStep, Race.goto, Race.init, peerstoreNewPeerstore, peerstoreHavePeer, havePeerLoop,
      hvalid, appendPeer, peerstoreResizeIfNeeded, storePeer, Alloc.success]
  obtain ⟨s, hs, hstore⟩ := hrun
  obtain ⟨pst, hpst, hsafe⟩ := h.last hs
  obtain rfl := Except.ok.inj (hstore.symm.trans hpst)
  have hle := hsafe.numPeers_le_maxPeers
  simp at hle

end Libcp2p

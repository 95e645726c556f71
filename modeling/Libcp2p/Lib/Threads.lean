import Libcp2p.Lib.CMemory
import Libcp2p.Lib.Runs
import Mathlib.Algebra.BigOperators.Group.Finset.Basic
import Mathlib.Algebra.Order.BigOperators.Group.Finset
import Mathlib.Algebra.Order.Group.Multiset
import Mathlib.Data.Fintype.Basic

/-!
# Threads with mutexes and condition variables

A thread is at a point `p` of a program, and `code p` is its next instruction: to take or release a mutex, to wait on a
condition variable, to signal or broadcast one, or to access what the threads share. A step of the machine is one
instruction of one thread, so that a list of steps is an interleaving; accesses are atomic, and what a thread may rely
on between two of them is what its mutexes give it. A signal wakes one sleeper if there is any, chosen by the schedule,
and a sleeper may also wake without a signal. A thread that wakes takes its mutex again before it goes on.

* `Threads.Steps` is what one step can do, `steps_of_step` the inversion of the step function.
* **Mutual exclusion** (`LockInv.step`): if the mutexes that a thread holds at each point are properly nested
  (`Nested`), then a mutex belongs to the thread that is where it is held, and to no other.
* **Invariants** (`Preserved.always`): of what is shared and where the threads are. An access may assume that no other
  thread is inside a section of a mutex that its thread holds.
* **Progress** (`LockInv.progress`): if mutexes are taken in increasing order, then a thread that is awake and has not
  stopped is enough for some thread to have a step. So when none has (`LockInv.stuck`), each has stopped or sleeps.
* `tally`: sums over the threads, and how they change when a thread goes on (`tally_update`).
-/

namespace Libcp2p

/-- The next instruction of a thread. -/
inductive Instr (M C P σ : Type)
  /-- take the mutex `m`, once no thread holds it -/
  | lock (m : M) (next : P)
  | unlock (m : M) (next : P)
  /-- release `m` and sleep on `c`; once woken, take `m` again -/
  | wait (c : C) (m : M) (next : P)
  | signal (c : C) (next : P)
  | broadcast (c : C) (next : P)
  /-- read and write what the threads share -/
  | access (f : σ → Except Fault (σ × P))
  | stop

/-- Where a thread is: before an instruction, asleep in a wait, or woken and about to take its mutex again. -/
inductive Place (P : Type)
  | ready (p : P)
  | asleep (p : P)
  | woken (p : P)
  deriving DecidableEq, Repr

/-- What the threads share, which thread holds each mutex, and where each thread is. -/
structure Threads (T M P σ : Type) where
  shared : σ
  owner : M → Option T
  place : T → Place P

/-- One step of an interleaving: the next instruction of `t`, which wakes the thread `wakes` if it is a signal; or `t`
wakes without a signal. -/
inductive Action (T : Type)
  | run (t : T) (wakes : Option T)
  | spurious (t : T)
  deriving DecidableEq, Repr

/-- The next `n` instructions of `t`, none of which wakes a thread. -/
def steps {T : Type} (n : Nat) (t : T) : List (Action T) := List.replicate n (.run t none)

section Machine

variable {T M C P σ : Type}

/-- The point of the program where a thread is. -/
def Place.pc : Place P → P
  | .ready p => p
  | .asleep p => p
  | .woken p => p

/-- A thread that sleeps wakes. -/
def Place.wake : Place P → Place P
  | .asleep p => .woken p
  | place => place

/-- The thread sleeps on `c`. -/
def Place.sleepsOn [DecidableEq C] (code : P → Instr M C P σ) (c : C) : Place P → Bool
  | .asleep p =>
    match code p with
    | .wait c' _ _ => decide (c' = c)
    | _ => false
  | _ => false

/-- Where an instruction that is not an access leads. -/
def Instr.goes : Instr M C P σ → Option P
  | .lock _ next => some next
  | .unlock _ next => some next
  | .wait _ _ next => some next
  | .signal _ next => some next
  | .broadcast _ next => some next
  | .access _ => none
  | .stop => none

namespace Threads

/-- The point of the program where `t` is. -/
def pc (s : Threads T M P σ) (t : T) : P := (s.place t).pc

/-- The threads `ok` wake. -/
def wakeThose (s : Threads T M P σ) (ok : T → Bool) : Threads T M P σ :=
  { s with place := fun u => if ok u then (s.place u).wake else s.place u }

variable [DecidableEq T]

/-- Thread `t` goes to `place`. -/
def goto (s : Threads T M P σ) (t : T) (place : Place P) : Threads T M P σ :=
  { s with place := Function.update s.place t place }

section Take

variable [DecidableEq M]

/-- Thread `t` takes `m` and goes to `next`, if no thread holds `m`. -/
def take (s : Threads T M P σ) (t : T) (m : M) (next : P) : Option (Threads T M P σ) :=
  match s.owner m with
  | none => some { s.goto t (.ready next) with owner := Function.update s.owner m (some t) }
  | some _ => none

/-- Thread `t` releases `m` and goes to `place`. -/
def release (s : Threads T M P σ) (t : T) (m : M) (place : Place P) : Threads T M P σ :=
  { s.goto t place with owner := Function.update s.owner m none }

theorem take_eq_some {s s' : Threads T M P σ} {t : T} {m : M} {next : P} : s.take t m next = some s' ↔
    s.owner m = none ∧
      s' = { s.goto t (.ready next) with owner := Function.update s.owner m (some t) } := by
  unfold take
  cases hm : s.owner m with
  | none => simp [eq_comm]
  | some u => simp

end Take

variable [DecidableEq C] [Fintype T]

/-- Thread `t` signals `c`: one sleeper wakes if there is any, the one that the schedule names. -/
def notify (code : P → Instr M C P σ) (s : Threads T M P σ) (c : C) : Option T → Option (Threads T M P σ)
  | some u => if (s.place u).sleepsOn code c then some (s.wakeThose fun v => decide (v = u)) else none
  | none => if ∃ u, (s.place u).sleepsOn code c then none else some s

/-- A signal wakes sleepers only, and some if there is any. -/
theorem notify_eq_some {code : P → Instr M C P σ} {s s' : Threads T M P σ} {c : C} {wakes : Option T}
    (h : s.notify code c wakes = some s') :
    ∃ ok : T → Bool, (∀ u, ok u = true → (s.place u).sleepsOn code c = true) ∧
      ((∃ u, (s.place u).sleepsOn code c = true) → ∃ u, ok u = true) ∧ s' = s.wakeThose ok := by
  cases wakes with
  | some u =>
    simp only [notify, Option.ite_none_right_eq_some, Option.some.injEq] at h
    obtain ⟨hu, rfl⟩ := h
    refine ⟨_, ?_, fun _ => ⟨u, by simp⟩, rfl⟩
    intro v hv
    rwa [of_decide_eq_true hv]
  | none =>
    simp only [notify, Option.ite_none_left_eq_some, Option.some.injEq] at h
    obtain ⟨hnone, rfl⟩ := h
    refine ⟨fun _ => false, ?_, fun hu => absurd hu hnone, by simp [wakeThose]⟩
    intro u hu
    cases hu

variable [DecidableEq M]

/-- A step. -/
def step (code : P → Instr M C P σ) (s : Threads T M P σ) : Action T → Option (Threads T M P σ)
  | .spurious t =>
    match s.place t with
    | .asleep p => some (s.goto t (.woken p))
    | _ => none
  | .run t wakes =>
    match s.place t with
    | .asleep _ => none
    | .woken p =>
      match code p with
      | .wait _ m next => s.take t m next
      | _ => none
    | .ready p =>
      match code p with
      | .lock m next => s.take t m next
      | .unlock m next => some (s.release t m (.ready next))
      | .wait _ m _ => some (s.release t m (.asleep p))
      | .signal c next => (s.notify code c wakes).map (·.goto t (.ready next))
      | .broadcast c next => some ((s.wakeThose fun u => (s.place u).sleepsOn code c).goto t (.ready next))
      | .access f =>
        match f s.shared with
        | .ok (shared, next) => some { s.goto t (.ready next) with shared := shared }
        | .error _ => none
      | .stop => none

/-- What one step can do. -/
inductive Steps (code : P → Instr M C P σ) (s : Threads T M P σ) : Action T → Threads T M P σ → Prop
  | spurious {t : T} {p : P} (ht : s.place t = .asleep p) : Steps code s (.spurious t) (s.goto t (.woken p))
  | relock {t : T} {wakes : Option T} {p next : P} {c : C} {m : M} (ht : s.place t = .woken p)
      (hcode : code p = .wait c m next) (hfree : s.owner m = none) : Steps code s (.run t wakes)
        { s.goto t (.ready next) with owner := Function.update s.owner m (some t) }
  | lock {t : T} {wakes : Option T} {p next : P} {m : M} (ht : s.place t = .ready p) (hcode : code p = .lock m next)
      (hfree : s.owner m = none) : Steps code s (.run t wakes)
        { s.goto t (.ready next) with owner := Function.update s.owner m (some t) }
  | unlock {t : T} {wakes : Option T} {p next : P} {m : M} (ht : s.place t = .ready p)
      (hcode : code p = .unlock m next) : Steps code s (.run t wakes) (s.release t m (.ready next))
  | sleep {t : T} {wakes : Option T} {p next : P} {c : C} {m : M} (ht : s.place t = .ready p)
      (hcode : code p = .wait c m next) : Steps code s (.run t wakes) (s.release t m (.asleep p))
  /-- a signal or a broadcast: the threads `ok` wake, some if any sleeps -/
  | notify {t : T} {wakes : Option T} {p next : P} {c : C} {ok : T → Bool} (ht : s.place t = .ready p)
      (hcode : code p = .signal c next ∨ code p = .broadcast c next)
      (hok : ∀ u, ok u = true → (s.place u).sleepsOn code c = true)
      (hsome : (∃ u, (s.place u).sleepsOn code c = true) → ∃ u, ok u = true) :
      Steps code s (.run t wakes) ((s.wakeThose ok).goto t (.ready next))
  | access {t : T} {wakes : Option T} {p next : P} {f : σ → Except Fault (σ × P)} {shared : σ}
      (ht : s.place t = .ready p) (hcode : code p = .access f) (hf : f s.shared = .ok (shared, next)) :
      Steps code s (.run t wakes) { s.goto t (.ready next) with shared := shared }

variable {code : P → Instr M C P σ} {s s' : Threads T M P σ}

/-- **Inversion.** -/
theorem steps_of_step {a : Action T} (h : s.step code a = some s') : Steps code s a s' := by
  cases a with
  | spurious t =>
    cases ht : s.place t with
    | asleep p =>
      simp only [step, ht, Option.some.injEq] at h
      exact h ▸ .spurious ht
    | ready p => simp [step, ht] at h
    | woken p => simp [step, ht] at h
  | run t wakes =>
    cases ht : s.place t with
    | asleep p => simp [step, ht] at h
    | woken p =>
      cases hcode : code p with
      | wait c m next =>
        simp only [step, ht, hcode, take_eq_some] at h
        exact h.2 ▸ .relock ht hcode h.1
      | _ => simp [step, ht, hcode] at h
    | ready p =>
      cases hcode : code p with
      | lock m next =>
        simp only [step, ht, hcode, take_eq_some] at h
        exact h.2 ▸ .lock ht hcode h.1
      | unlock m next =>
        simp only [step, ht, hcode, Option.some.injEq] at h
        exact h ▸ .unlock ht hcode
      | wait c m next =>
        simp only [step, ht, hcode, Option.some.injEq] at h
        exact h ▸ .sleep ht hcode
      | signal c next =>
        simp only [step, ht, hcode, Option.map_eq_some_iff] at h
        obtain ⟨s₁, hs₁, rfl⟩ := h
        obtain ⟨ok, hok, hsome, rfl⟩ := notify_eq_some hs₁
        exact .notify ht (.inl hcode) hok hsome
      | broadcast c next =>
        simp only [step, ht, hcode, Option.some.injEq] at h
        exact h ▸ .notify ht (.inr hcode) (fun _ hu => hu) fun hu => hu
      | access f =>
        cases hf : f s.shared with
        | ok r =>
          simp only [step, ht, hcode, hf, Option.some.injEq] at h
          exact h ▸ .access ht hcode hf
        | error e => simp [step, ht, hcode, hf] at h
      | stop => simp [step, ht, hcode] at h

end Threads

/-! ## Mutual exclusion -/

section Locks

variable {code : P → Instr M C P σ} {holds : P → List M} {s s' : Threads T M P σ} {t u : T} {m : M} {p : P}

/-- The instruction at `p` takes and releases mutexes like a stack, `holds` being the mutexes held at each point. -/
def Instr.Nests (holds : P → List M) (p : P) : Instr M C P σ → Prop
  | .lock m next => holds next = m :: holds p
  | .unlock m next => holds p = m :: holds next
  | .wait _ m next => holds p = [m] ∧ holds next = [m]
  | .signal _ next => holds next = holds p
  | .broadcast _ next => holds next = holds p
  | .access f => ∀ shared shared' next, f shared = .ok (shared', next) → holds next = holds p
  | .stop => holds p = []

/-- The mutexes are properly nested. -/
structure Nested (code : P → Instr M C P σ) (holds : P → List M) : Prop where
  nodup : ∀ p, (holds p).Nodup
  nests : ∀ p, (code p).Nests holds p

/-- The mutexes that a thread holds; in a wait, none. -/
def Place.held (holds : P → List M) : Place P → List M
  | .ready p => holds p
  | .asleep _ => []
  | .woken _ => []

/-- A mutex belongs to the thread that is where it is held, and a thread sleeps at a wait. -/
structure LockInv (code : P → Instr M C P σ) (holds : P → List M) (s : Threads T M P σ) : Prop where
  owner_iff : ∀ t m, s.owner m = some t ↔ m ∈ (s.place t).held holds
  waits : ∀ t p, s.place t = .asleep p ∨ s.place t = .woken p → ∃ c m next, code p = .wait c m next

theorem Place.held_wake (place : Place P) : place.wake.held holds = place.held holds := by
  cases place <;> rfl

namespace LockInv

/-- Threads that wake keep the invariant. -/
theorem wakeThose (h : LockInv code holds s) (ok : T → Bool) : LockInv code holds (s.wakeThose ok) where
  owner_iff u m := by
    rw [show (s.wakeThose ok).owner = s.owner from rfl, h.owner_iff]
    simp only [Threads.wakeThose]
    split
    · rw [Place.held_wake]
    · rfl
  waits u p hu := by
    simp only [Threads.wakeThose] at hu
    split at hu
    · cases hp : s.place u with
      | ready q => simp [hp, Place.wake] at hu
      | asleep q =>
        simp only [hp, Place.wake, reduceCtorEq, Place.woken.injEq, false_or] at hu
        exact h.waits u p (.inl (hu ▸ hp))
      | woken q =>
        simp only [hp, Place.wake, reduceCtorEq, Place.woken.injEq, false_or] at hu
        exact h.waits u p (.inr (hu ▸ hp))
    · exact h.waits u p hu

variable [DecidableEq T]

/-- A thread that goes on holding what it held leaves the owners as they are. -/
theorem owner_goto (h : LockInv code holds s) {place : Place P} (hheld : place.held holds = (s.place t).held holds)
    (u : T) (m : M) : s.owner m = some u ↔ m ∈ ((s.goto t place).place u).held holds := by
  rw [h.owner_iff]
  by_cases hut : u = t
  · subst hut
    simp only [Threads.goto, Function.update_self, hheld]
  · simp only [Threads.goto, Function.update_of_ne hut]

/-- A thread that is awake, or that sleeps at a wait, keeps the sleepers at waits. -/
theorem waits_goto (h : LockInv code holds s) {place : Place P}
    (hplace : ∀ p, place = .asleep p ∨ place = .woken p → ∃ c m next, code p = .wait c m next) (u : T) (p : P)
    (hu : (s.goto t place).place u = .asleep p ∨ (s.goto t place).place u = .woken p) :
    ∃ c m next, code p = .wait c m next := by
  by_cases hut : u = t
  · subst hut
    simp only [Threads.goto, Function.update_self] at hu
    exact hplace p hu
  · simp only [Threads.goto, Function.update_of_ne hut] at hu
    exact h.waits u p hu

theorem waits_ready (h : LockInv code holds s) {next : P} (u : T) (p : P)
    (hu : (s.goto t (.ready next)).place u = .asleep p ∨ (s.goto t (.ready next)).place u = .woken p) :
    ∃ c m next, code p = .wait c m next :=
  h.waits_goto (by rintro p (hp | hp) <;> cases hp) u p hu

variable [DecidableEq M]

/-- The owners after `t` has taken `m` and gone where it holds one mutex more. -/
theorem owner_take (h : LockInv code holds s) (hfree : s.owner m = none) {place : Place P}
    (hheld : place.held holds = m :: (s.place t).held holds) (u : T) (m' : M) :
    Function.update s.owner m (some t) m' = some u ↔ m' ∈ ((s.goto t place).place u).held holds := by
  have hu := h.owner_iff u m'
  by_cases hut : u = t
  · subst hut
    simp only [Threads.goto, Function.update_self, hheld, List.mem_cons]
    by_cases hm : m' = m
    · simp [hm]
    · rw [Function.update_of_ne hm, hu]
      simp [hm]
  · simp only [Threads.goto, Function.update_of_ne hut]
    by_cases hm : m' = m
    · subst hm
      rw [Function.update_self, ← hu, hfree]
      simp [Ne.symm hut]
    · rw [Function.update_of_ne hm, hu]

/-- The owners after `t` has released `m` and gone where it holds one mutex less. -/
theorem owner_release (h : LockInv code holds s) {place : Place P}
    (hheld : (s.place t).held holds = m :: place.held holds) (hnodup : ((s.place t).held holds).Nodup) (u : T)
    (m' : M) :
    (s.release t m place).owner m' = some u ↔ m' ∈ ((s.release t m place).place u).held holds := by
  have hu := h.owner_iff u m'
  rw [hheld, List.nodup_cons] at hnodup
  by_cases hut : u = t
  · subst hut
    simp only [Threads.release, Threads.goto, Function.update_self]
    by_cases hm : m' = m
    · subst hm
      simp [hnodup.1]
    · rw [Function.update_of_ne hm, hu, hheld]
      simp [hm]
  · simp only [Threads.release, Threads.goto, Function.update_of_ne hut]
    by_cases hm : m' = m
    · subst hm
      have ht := (h.owner_iff t m').mpr (hheld ▸ List.mem_cons_self)
      rw [Function.update_self, ← hu, ht]
      simp [Ne.symm hut]
    · rw [Function.update_of_ne hm, hu]

variable [DecidableEq C]

/-- **Mutual exclusion**: every step keeps the mutexes with the threads that are where they are held. -/
theorem step (hn : Nested code holds) (h : LockInv code holds s) {a : Action T}
    (hs : Threads.Steps code s a s') : LockInv code holds s' := by
  cases hs with
  | @spurious t p ht =>
    refine ⟨h.owner_goto (by rw [ht]; rfl), h.waits_goto ?_⟩
    rintro q (hq | hq)
    · cases hq
    · exact h.waits t q (.inl (by rw [ht]; cases hq; rfl))
  | @relock t wakes p next c m ht hcode hfree =>
    have hnests := hn.nests p
    rw [hcode] at hnests
    exact ⟨h.owner_take hfree (by rw [ht]; exact hnests.2), h.waits_ready⟩
  | @lock t wakes p next m ht hcode hfree =>
    have hnests := hn.nests p
    rw [hcode] at hnests
    exact ⟨h.owner_take hfree (by rw [ht]; exact hnests), h.waits_ready⟩
  | @unlock t wakes p next m ht hcode =>
    have hnests := hn.nests p
    rw [hcode] at hnests
    exact ⟨h.owner_release (by rw [ht]; exact hnests) (by rw [ht]; exact hn.nodup p), h.waits_ready⟩
  | @sleep t wakes p next c m ht hcode =>
    have hnests := hn.nests p
    rw [hcode] at hnests
    refine ⟨h.owner_release (by rw [ht]; exact hnests.1) (by rw [ht]; exact hn.nodup p), h.waits_goto ?_⟩
    rintro q (hq | hq)
    · cases hq
      exact ⟨c, m, next, hcode⟩
    · cases hq
  | @notify t wakes p next c ok ht hcode hok hsome =>
    have hnests : holds next = holds p := by
      have hnests := hn.nests p
      rcases hcode with hcode | hcode
      · rwa [hcode] at hnests
      · rwa [hcode] at hnests
    have h' := h.wakeThose ok
    have hheld : ((s.wakeThose ok).place t).held holds = holds p := by
      simp only [Threads.wakeThose, ht]
      split <;> rfl
    exact ⟨h'.owner_goto (hnests.trans hheld.symm), h'.waits_ready⟩
  | @access t wakes p next f shared ht hcode hf =>
    have hnests := hn.nests p
    rw [hcode] at hnests
    exact ⟨h.owner_goto (by rw [ht]; exact hnests _ _ _ hf), h.waits_ready⟩

end LockInv

/-- A thread that holds a mutex is awake. -/
theorem LockInv.awake_of_owner (hn : Nested code holds) (h : LockInv code holds s) (hm : s.owner m = some t) :
    ∃ p, s.place t = .ready p ∧ m ∈ holds p ∧ code p ≠ .stop := by
  have hmem := (h.owner_iff t m).mp hm
  cases ht : s.place t with
  | ready p =>
    rw [ht] at hmem
    refine ⟨p, rfl, hmem, ?_⟩
    intro hstop
    have hnests := hn.nests p
    rw [hstop] at hnests
    rw [show (Place.ready p).held holds = holds p from rfl, show holds p = [] from hnests] at hmem
    cases hmem
  | asleep p => rw [ht] at hmem; cases hmem
  | woken p => rw [ht] at hmem; cases hmem

/-! ## Invariants -/

/-- No other thread is inside a section of a mutex that `t` holds, unless it waits there. -/
def Excludes (code : P → Instr M C P σ) (holds : P → List M) (pcs : T → P) (t : T) : Prop :=
  ∀ u, u ≠ t → ∀ m ∈ holds (pcs t), m ∈ holds (pcs u) → ∃ c next, code (pcs u) = .wait c m next

/-- A thread that is awake excludes the others from the sections of its mutexes. -/
theorem LockInv.excludes (hn : Nested code holds) (h : LockInv code holds s) (ht : s.place t = .ready p) :
    Excludes code holds s.pc t := by
  intro u hne m hm hmu
  have hpc : s.pc t = p := congrArg Place.pc ht
  have howner : s.owner m = some t := (h.owner_iff t m).mpr (by rw [ht]; exact hpc ▸ hm)
  have hwaits : ∀ q, s.place u = .asleep q ∨ s.place u = .woken q → s.pc u = q → ∃ c next, code q = .wait c m next := by
    intro q hq hpc
    obtain ⟨c, m', next, hcode⟩ := h.waits u q hq
    have hnests := hn.nests q
    rw [hcode] at hnests
    rw [hpc, hnests.1, List.mem_singleton] at hmu
    exact ⟨c, next, hmu ▸ hcode⟩
  cases hu : s.place u with
  | ready q =>
    have hmq : m ∈ (s.place u).held holds := by
      rw [Threads.pc, hu] at hmu
      rw [hu]
      exact hmu
    exact absurd (Option.some.inj (howner.symm.trans ((h.owner_iff u m).mpr hmq))).symm hne
  | asleep q =>
    have hpc : s.pc u = q := congrArg Place.pc hu
    exact hpc ▸ hwaits q (.inl hu) hpc
  | woken q =>
    have hpc : s.pc u = q := congrArg Place.pc hu
    exact hpc ▸ hwaits q (.inr hu) hpc

variable [DecidableEq T]

/-- `I` is kept by every instruction of a thread that `ok` allows. A thread that has gone on, and one that accesses what
is shared, is alone in the sections of its mutexes. -/
structure Preserved (code : P → Instr M C P σ) (holds : P → List M) (ok : σ → (T → P) → T → Prop)
    (I : σ → (T → P) → Prop) : Prop where
  goes : ∀ d pcs t next, ok d pcs t → I d pcs → (code (pcs t)).goes = some next →
    Excludes code holds (Function.update pcs t next) t → I d (Function.update pcs t next)
  access : ∀ d pcs t f d' next, ok d pcs t → I d pcs → Excludes code holds pcs t → code (pcs t) = .access f →
    f d = .ok (d', next) → I d' (Function.update pcs t next)

/-- An invariant that is kept wherever another one holds. -/
theorem Preserved.and {ok : σ → (T → P) → T → Prop} {I J : σ → (T → P) → Prop} (hI : Preserved code holds ok I)
    (hJ : Preserved code holds (fun d pcs t => ok d pcs t ∧ I d pcs) J) :
    Preserved code holds ok fun d pcs => I d pcs ∧ J d pcs where
  goes d pcs t next hok h hnext hexcl :=
    ⟨hI.goes d pcs t next hok h.1 hnext hexcl, hJ.goes d pcs t next ⟨hok, h.1⟩ h.2 hnext hexcl⟩
  access d pcs t f d' next hok h hexcl hcode hf :=
    ⟨hI.access d pcs t f d' next hok h.1 hexcl hcode hf, hJ.access d pcs t f d' next ⟨hok, h.1⟩ h.2 hexcl hcode hf⟩

/-- An invariant that needs less of the threads. -/
theorem Preserved.mono {ok ok' : σ → (T → P) → T → Prop} {I : σ → (T → P) → Prop}
    (hok : ∀ d pcs t, ok' d pcs t → ok d pcs t) (hI : Preserved code holds ok I) : Preserved code holds ok' I where
  goes d pcs t next h := hI.goes d pcs t next (hok d pcs t h)
  access d pcs t f d' next h := hI.access d pcs t f d' next (hok d pcs t h)

/-- The condition on the thread of a step. -/
def Threads.Ok (ok : σ → (T → P) → T → Prop) (s : Threads T M P σ) : Action T → Prop
  | .run t _ => ok s.shared s.pc t
  | .spurious _ => True

theorem Threads.pc_goto (s : Threads T M P σ) (t : T) (place : Place P) :
    (s.goto t place).pc = Function.update s.pc t place.pc := by
  funext u
  by_cases hut : u = t
  · subst hut
    simp only [Threads.pc, Threads.goto, Function.update_self]
  · simp only [Threads.pc, Threads.goto, Function.update_of_ne hut]

omit [DecidableEq T] in
theorem Threads.pc_wakeThose (s : Threads T M P σ) (ok : T → Bool) : (s.wakeThose ok).pc = s.pc := by
  funext u
  simp only [Threads.pc, Threads.wakeThose]
  split
  · cases s.place u <;> rfl
  · rfl

/-- A thread that stays where it is. -/
theorem Threads.pc_goto_self (hpc : s.pc t = p) {place : Place P} (hplace : place.pc = p) :
    (s.goto t place).pc = s.pc := by
  rw [Threads.pc_goto, hplace, ← hpc, Function.update_eq_self]

variable [DecidableEq M] [DecidableEq C]

variable {ok : σ → (T → P) → T → Prop} {I : σ → (T → P) → Prop}

/-- What a step does to what is shared and to the points where the threads are. -/
theorem Threads.Steps.pc_cases {a : Action T} (h : Threads.Steps code s a s') :
    s'.shared = s.shared ∧ s'.pc = s.pc ∨ ∃ t next, s'.pc = Function.update s.pc t next ∧
      ((code (s.pc t)).goes = some next ∧ s'.shared = s.shared ∨
        ∃ f, code (s.pc t) = .access f ∧ f s.shared = .ok (s'.shared, next)) := by
  cases h with
  | spurious ht => exact .inl ⟨rfl, Threads.pc_goto_self (congrArg Place.pc ht) rfl⟩
  | sleep ht hcode => exact .inl ⟨rfl, Threads.pc_goto_self (congrArg Place.pc ht) rfl⟩
  | @relock t wakes p next c m ht hcode hfree =>
    refine .inr ⟨t, next, Threads.pc_goto .., .inl ⟨?_, rfl⟩⟩
    rw [show s.pc t = p from congrArg Place.pc ht, hcode]
    rfl
  | @lock t wakes p next m ht hcode hfree =>
    refine .inr ⟨t, next, Threads.pc_goto .., .inl ⟨?_, rfl⟩⟩
    rw [show s.pc t = p from congrArg Place.pc ht, hcode]
    rfl
  | @unlock t wakes p next m ht hcode =>
    refine .inr ⟨t, next, Threads.pc_goto .., .inl ⟨?_, rfl⟩⟩
    rw [show s.pc t = p from congrArg Place.pc ht, hcode]
    rfl
  | @notify t wakes p next c woken ht hcode hwoken hsome =>
    refine .inr ⟨t, next, ?_, .inl ⟨?_, rfl⟩⟩
    · rw [Threads.pc_goto, Threads.pc_wakeThose]
      rfl
    · rw [show s.pc t = p from congrArg Place.pc ht]
      rcases hcode with hcode | hcode <;> rw [hcode] <;> rfl
  | @access t wakes p next f shared ht hcode hf =>
    refine .inr ⟨t, next, Threads.pc_goto .., .inr ⟨f, ?_, hf⟩⟩
    rw [show s.pc t = p from congrArg Place.pc ht, hcode]

/-- A step keeps an invariant that every instruction keeps. -/
theorem Preserved.step (hn : Nested code holds) (hI : Preserved code holds ok I) {a : Action T}
    (hlock : LockInv code holds s) (h : I s.shared s.pc) (hok : s.Ok ok a) (hs : Threads.Steps code s a s') :
    I s'.shared s'.pc := by
  have hlock' := hlock.step hn hs
  -- where the instruction at `p` leads, if it is not an access
  have hgoes : ∀ t p next, ok s.shared s.pc t → s.pc t = p → (code p).goes = some next → s'.place t = .ready next →
      s'.pc = Function.update s.pc t next → I s.shared s'.pc := by
    intro t p next hok hpc hnext hplace hpc'
    have hexcl := hlock'.excludes hn hplace
    rw [hpc'] at hexcl ⊢
    exact hI.goes _ _ _ _ hok h (hpc ▸ hnext) hexcl
  cases hs with
  | @spurious t p ht =>
    have hpc : s.pc t = p := congrArg Place.pc ht
    rw [Threads.pc_goto_self hpc rfl]
    exact h
  | @relock t wakes p next c m ht hcode hfree =>
    exact hgoes t p next hok (congrArg Place.pc ht) (by rw [hcode]; rfl) (Function.update_self ..) (Threads.pc_goto ..)
  | @lock t wakes p next m ht hcode hfree =>
    exact hgoes t p next hok (congrArg Place.pc ht) (by rw [hcode]; rfl) (Function.update_self ..) (Threads.pc_goto ..)
  | @unlock t wakes p next m ht hcode =>
    exact hgoes t p next hok (congrArg Place.pc ht) (by rw [hcode]; rfl) (Function.update_self ..) (Threads.pc_goto ..)
  | @sleep t wakes p next c m ht hcode =>
    have hpc : s.pc t = p := congrArg Place.pc ht
    show I s.shared (s.goto t (.asleep p)).pc
    rw [Threads.pc_goto_self hpc rfl]
    exact h
  | @notify t wakes p next c ok ht hcode hok hsome =>
    refine hgoes t p next hok (congrArg Place.pc ht) ?_ (Function.update_self ..) ?_
    · rcases hcode with hcode | hcode <;> rw [hcode] <;> rfl
    · rw [Threads.pc_goto, Threads.pc_wakeThose]
      rfl
  | @access t wakes p next f shared ht hcode hf =>
    have hpc : s.pc t = p := congrArg Place.pc ht
    show I shared (s.goto t (.ready next)).pc
    rw [Threads.pc_goto]
    exact hI.access _ _ _ _ _ _ hok h (hlock.excludes hn ht) (hpc ▸ hcode) hf

variable [Fintype T]

/-- Nothing is asked of the threads. -/
theorem Threads.stepsOk_true (s : Threads T M P σ) (as : List (Action T)) :
    StepsOk (Threads.step code) (Threads.Ok fun _ _ _ => True) s as := by
  refine (always_of_step (I := fun _ => True) (fun _ _ _ _ _ => trivial) trivial as).stepsOk ?_
  intro s a _
  cases a <;> trivial

/-- **Invariants**, over every interleaving of steps that `ok` allows. -/
theorem Preserved.always (hn : Nested code holds) (hI : Preserved code holds ok I) (hlock : LockInv code holds s)
    (h : I s.shared s.pc) {as : List (Action T)} (hok : StepsOk (Threads.step code) (Threads.Ok ok) s as) :
    Always (Threads.step code) (fun s => LockInv code holds s ∧ I s.shared s.pc) s as :=
  always_of_stepsOk (fun _ _ _ ⟨hlock, h⟩ hok hs =>
    ⟨hlock.step hn (Threads.steps_of_step hs), hI.step hn hlock h hok (Threads.steps_of_step hs)⟩) ⟨hlock, h⟩ hok

/-! ## Progress -/

/-- The thread is awake and has an instruction. -/
def Threads.Awake (code : P → Instr M C P σ) (s : Threads T M P σ) (t : T) : Prop :=
  (∃ p, s.place t = .ready p ∧ code p ≠ .stop) ∨ ∃ p, s.place t = .woken p

/-- The next access of a thread does not fault. -/
def Threads.NoFault (code : P → Instr M C P σ) (s : Threads T M P σ) : Prop :=
  ∀ t p f, s.place t = .ready p → code p = .access f → ∃ r, f s.shared = .ok r

/-- A thread that does not wait for a mutex has a step. -/
theorem LockInv.step_of_not_blocked (h : LockInv code holds s) (hfault : s.NoFault code) (ht : s.Awake code t)
    (hfree : ∀ m, (∃ p next, s.place t = .ready p ∧ code p = .lock m next) ∨
      (∃ p c next, s.place t = .woken p ∧ code p = .wait c m next) → s.owner m = none) :
    ∃ wakes, (s.step code (.run t wakes)).isSome := by
  rcases ht with ⟨p, ht, hstop⟩ | ⟨p, ht⟩
  · cases hcode : code p with
    | lock m next =>
      have hm := hfree m (.inl ⟨p, next, ht, hcode⟩)
      exact ⟨none, by simp only [Threads.step, ht, hcode, Threads.take, hm, Option.isSome_some]⟩
    | unlock m next => exact ⟨none, by simp only [Threads.step, ht, hcode, Option.isSome_some]⟩
    | wait c m next => exact ⟨none, by simp only [Threads.step, ht, hcode, Option.isSome_some]⟩
    | signal c next =>
      by_cases hu : ∃ u, (s.place u).sleepsOn code c = true
      · obtain ⟨u, hu⟩ := hu
        exact ⟨some u, by simp [Threads.step, ht, hcode, Threads.notify, hu]⟩
      · exact ⟨none, by
          simp only [Threads.step, ht, hcode, Threads.notify, if_neg hu, Option.map_some, Option.isSome_some]⟩
    | broadcast c next => exact ⟨none, by simp only [Threads.step, ht, hcode, Option.isSome_some]⟩
    | access f =>
      obtain ⟨r, hr⟩ := hfault t p f ht hcode
      exact ⟨none, by simp only [Threads.step, ht, hcode, hr, Option.isSome_some]⟩
    | stop => exact absurd hcode hstop
  · obtain ⟨c, m, next, hcode⟩ := h.waits t p (.inr ht)
    have hm := hfree m (.inr ⟨p, c, next, ht, hcode⟩)
    exact ⟨none, by simp only [Threads.step, ht, hcode, Threads.take, hm, Option.isSome_some]⟩

/-- **Progress.** Mutexes are taken in increasing order and no access faults: if some thread is awake and has not
stopped, then some thread has a step. -/
theorem LockInv.progress (hn : Nested code holds) {rank : M → Nat} {bound : Nat} (hbound : ∀ m, rank m < bound)
    (horder : ∀ p m next, code p = .lock m next → ∀ m' ∈ holds p, rank m' < rank m) (h : LockInv code holds s)
    (hfault : s.NoFault code) (hawake : s.Awake code t) : ∃ u wakes, (s.step code (.run u wakes)).isSome := by
  -- the owner of a mutex waits for none or for a later one
  have howner : ∀ n m t, bound - rank m ≤ n → s.owner m = some t →
      ∃ u wakes, (s.step code (.run u wakes)).isSome := by
    intro n
    induction n with
    | zero =>
      intro m t hle
      have := hbound m
      omega
    | succ n ih =>
      intro m t hle hm
      obtain ⟨p, hp, hmem, hstop⟩ := h.awake_of_owner hn hm
      by_cases hfree : ∃ m' next u, code p = .lock m' next ∧ s.owner m' = some u
      · obtain ⟨m', next, u, hcode, hu⟩ := hfree
        have hlt := horder p m' next hcode m hmem
        have := hbound m'
        exact ih m' u (by omega) hu
      · have hfree' : ∀ m', (∃ p next, s.place t = .ready p ∧ code p = .lock m' next) ∨
            (∃ p c next, s.place t = .woken p ∧ code p = .wait c m' next) → s.owner m' = none := by
          rintro m' (⟨p', next, hp', hcode⟩ | ⟨p', c, next, hp', hcode⟩)
          · cases hp.symm.trans hp'
            cases hm' : s.owner m' with
            | none => rfl
            | some u => exact absurd ⟨m', next, u, hcode, hm'⟩ hfree
          · cases hp.symm.trans hp'
        obtain ⟨wakes, hs'⟩ := h.step_of_not_blocked hfault (.inl ⟨p, hp, hstop⟩) hfree'
        exact ⟨t, wakes, hs'⟩
  by_cases hfree : ∃ m u, s.owner m = some u
  · obtain ⟨m, u, hu⟩ := hfree
    exact howner _ m u le_rfl hu
  · have hnone : ∀ m, s.owner m = none := by
      intro m
      cases hm : s.owner m with
      | none => rfl
      | some u => exact absurd ⟨m, u, hm⟩ hfree
    obtain ⟨wakes, hs'⟩ := h.step_of_not_blocked hfault hawake fun m _ => hnone m
    exact ⟨t, wakes, hs'⟩

/-- No thread has a step, unless a sleeper wakes without a signal. -/
def Threads.Stuck (code : P → Instr M C P σ) (s : Threads T M P σ) : Prop :=
  ∀ t wakes, s.step code (.run t wakes) = none

/-- **When no thread has a step**, each has stopped or sleeps. -/
theorem LockInv.stuck (hn : Nested code holds) {rank : M → Nat} {bound : Nat} (hbound : ∀ m, rank m < bound)
    (horder : ∀ p m next, code p = .lock m next → ∀ m' ∈ holds p, rank m' < rank m) (h : LockInv code holds s)
    (hfault : s.NoFault code) (hs : s.Stuck code) (t : T) :
    (∃ p, s.place t = .ready p ∧ code p = .stop) ∨
      ∃ p, s.place t = .asleep p ∧ ∃ c m next, code p = .wait c m next := by
  have hasleep : ¬s.Awake code t := by
    intro hawake
    obtain ⟨u, wakes, hu⟩ := h.progress hn hbound horder hfault hawake
    rw [hs u wakes] at hu
    cases hu
  cases ht : s.place t with
  | ready p =>
    by_cases hstop : code p = .stop
    · exact .inl ⟨p, rfl, hstop⟩
    · exact absurd (.inl ⟨p, ht, hstop⟩) hasleep
  | asleep p => exact .inr ⟨p, rfl, h.waits t p (.inl ht)⟩
  | woken p => exact absurd (.inr ⟨p, ht⟩) hasleep

end Locks

/-! ## Sums over the threads -/

section Tally

variable [Fintype T] {A : Type} [AddCommMonoid A]

/-- The sum of `f` over the points where the threads are. -/
def tally (f : P → A) (pcs : T → P) : A := ∑ t, f (pcs t)

theorem tally_eq_zero {f : P → A} {pcs : T → P} (h : ∀ t, f (pcs t) = 0) : tally f pcs = 0 :=
  Finset.sum_eq_zero fun t _ => h t

variable [DecidableEq T]

/-- The sum after `t` has gone to `next`. -/
theorem tally_update (f : P → A) (pcs : T → P) (t : T) (next : P) :
    tally f (Function.update pcs t next) + f (pcs t) = tally f pcs + f next := by
  have hsum : ∀ pcs : T → P, tally f pcs = f (pcs t) + ∑ u ∈ Finset.univ.erase t, f (pcs u) := fun pcs =>
    (Finset.add_sum_erase _ (fun u => f (pcs u)) (Finset.mem_univ t)).symm
  have hrest : ∑ u ∈ Finset.univ.erase t, f (Function.update pcs t next u) =
      ∑ u ∈ Finset.univ.erase t, f (pcs u) := by
    apply Finset.sum_congr rfl
    intro u hu
    rw [Function.update_of_ne (Finset.ne_of_mem_erase hu)]
  rw [hsum (Function.update pcs t next), hsum pcs, hrest, Function.update_self]
  ac_rfl

/-- A thread that goes where it counts the same leaves the sum as it is. -/
theorem tally_update_of_eq [IsRightCancelAdd A] {f : P → A} {pcs : T → P} {t : T} {next : P}
    (h : f next = f (pcs t)) : tally f (Function.update pcs t next) = tally f pcs := by
  have hsum := tally_update f pcs t next
  rw [h] at hsum
  exact add_right_cancel hsum

/-- A thread that gets `b` as it goes on adds it to the sum. -/
theorem tally_update_add [IsRightCancelAdd A] {f : P → A} {pcs : T → P} {t : T} {next : P} {b : A}
    (h : f next = f (pcs t) + b) : tally f (Function.update pcs t next) = tally f pcs + b := by
  have hsum := tally_update f pcs t next
  rw [h, add_comm (f (pcs t)), ← add_assoc] at hsum
  exact add_right_cancel hsum

/-- What a thread gives away or gets as it goes on, the sum gives away or gets. -/
theorem tally_exchange [IsCancelAdd A] {f : P → A} {pcs : T → P} {t : T} {next : P} {b b' : A}
    (h : f next + b' = f (pcs t) + b) : tally f (Function.update pcs t next) + b' = tally f pcs + b := by
  apply add_right_cancel (b := f (pcs t))
  calc tally f (Function.update pcs t next) + b' + f (pcs t)
      = (tally f (Function.update pcs t next) + f (pcs t)) + b' := by ac_rfl
    _ = tally f pcs + (f next + b') := by rw [tally_update]; ac_rfl
    _ = tally f pcs + b + f (pcs t) := by rw [h]; ac_rfl

end Tally

/-! ## How many threads -/

section Count

variable [Fintype T] {f : P → Bool} {pcs : T → P}

theorem toInt_nonneg (b : Bool) : 0 ≤ b.toInt := by cases b <;> decide

theorem tally_toInt_nonneg : 0 ≤ tally (fun p => (f p).toInt) pcs :=
  Finset.sum_nonneg fun t _ => toInt_nonneg (f (pcs t))

theorem tally_toInt_eq_zero : tally (fun p => (f p).toInt) pcs = 0 ↔ ∀ t, f (pcs t) = false := by
  have hzero : ∀ b : Bool, b.toInt = 0 ↔ b = false := by decide
  rw [tally, Finset.sum_eq_zero_iff_of_nonneg fun t _ => toInt_nonneg (f (pcs t))]
  simp [hzero]

end Count

/-! ## What the threads own -/

section Owners

variable [Fintype T] {A : Type} {f : P → Multiset A} {pcs : T → P} {t u : T} {a : A}

theorem mem_tally (ha : a ∈ f (pcs t)) : a ∈ tally f pcs :=
  Multiset.mem_sum.mpr ⟨t, Finset.mem_univ t, ha⟩

/-- What one thread owns, no other does. -/
theorem not_mem_of_tally_nodup [DecidableEq T] (h : (tally f pcs).Nodup) (hne : u ≠ t) (ha : a ∈ f (pcs t)) :
    a ∉ f (pcs u) := by
  intro hau
  rw [tally, ← Finset.add_sum_erase _ (fun u => f (pcs u)) (Finset.mem_univ t), Multiset.nodup_add] at h
  refine Multiset.disjoint_left.mp h.2.2 ha (Multiset.mem_sum.mpr ⟨u, ?_, hau⟩)
  exact Finset.mem_erase.mpr ⟨hne, Finset.mem_univ u⟩

end Owners

end Machine

end Libcp2p

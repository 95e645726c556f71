import Libcp2p.Lib.Threads

/-!
# Condition variables and lost wake-ups

Threads of a group sleep on a condition variable `c` while what they wait for has not happened (`busy`). They find that
it has not under a mutex, and whoever makes it happen does so under that mutex and signals `c` next (`Monitor`). Then
no wake-up is lost (`Monitor.always`): when all of the group sleep, it has not happened or somebody is about to signal.
-/

namespace Libcp2p

section Monitor

variable {T M C P σ : Type}

/-- The instruction wakes threads that sleep on `c`. -/
def Instr.Notifies (c : C) : Instr M C P σ → Prop
  | .signal c' _ => c' = c
  | .broadcast c' _ => c' = c
  | _ => False

/-- The instruction waits on `c`. -/
def Instr.WaitsOn (c : C) : Instr M C P σ → Prop
  | .wait c' _ _ => c' = c
  | _ => False

section Places

variable [DecidableEq C] {code : P → Instr M C P σ} {c : C} {p : P}

theorem Place.sleepsOn_eq_true {place : Place P} :
    place.sleepsOn code c = true ↔ ∃ p, place = .asleep p ∧ (code p).WaitsOn c := by
  cases place with
  | ready p => simp [Place.sleepsOn]
  | woken p => simp [Place.sleepsOn]
  | asleep p =>
    cases hcode : code p <;> simp [Place.sleepsOn, hcode, Instr.WaitsOn]

end Places

variable [DecidableEq T]

/-- Threads sleep on `c` while `busy`: they come to the wait only when it is so, and whoever ends it holds the mutex
`m` of the wait and signals `c` next. -/
structure Monitor (code : P → Instr M C P σ) (holds : P → List M) (ok : σ → (T → P) → T → Prop) (c : C) (m : M)
    (busy : σ → (T → P) → Prop) : Prop where
  holds_wait : ∀ p, (code p).WaitsOn c → m ∈ holds p
  goes : ∀ d pcs t next, ok d pcs t → busy d pcs → (code (pcs t)).goes = some next → busy d (Function.update pcs t next)
  access : ∀ d pcs t f d' next, ok d pcs t → busy d pcs → code (pcs t) = .access f → f d = .ok (d', next) →
    busy d' (Function.update pcs t next) ∨ m ∈ holds (pcs t) ∧ (code next).Notifies c
  not_goes : ∀ p next, (code p).goes = some next → ¬(code next).WaitsOn c
  enters : ∀ d pcs t f d' next, ok d pcs t → code (pcs t) = .access f → f d = .ok (d', next) → (code next).WaitsOn c →
    busy d' (Function.update pcs t next)

variable [DecidableEq C]

/-- No wake-up is lost: threads at the wait have not gone to sleep in vain, and when all of the group sleep, somebody is
about to signal unless `busy`. -/
structure Wakes (code : P → Instr M C P σ) (c : C) (group : T → Prop) (busy : σ → (T → P) → Prop)
    (s : Threads T M P σ) :
    Prop where
  ready : ∀ t p, s.place t = .ready p → (code p).WaitsOn c → busy s.shared s.pc
  asleep : (∀ t, group t → (s.place t).sleepsOn code c = true) →
    busy s.shared s.pc ∨ ∃ t p, s.place t = .ready p ∧ (code p).Notifies c

section Step

variable {code : P → Instr M C P σ} {holds : P → List M} {ok : σ → (T → P) → T → Prop} {c : C} {m : M}
  {busy : σ → (T → P) → Prop} {group : T → Prop} {s s' : Threads T M P σ} {t : T} {p next : P}

/-- If all of the group sleep after `t` has gone to a place where it does not, then `t` is not one of them. -/
theorem asleep_of_update {place : Place P} (hplace : s'.place = Function.update s.place t place)
    (hawake : place.sleepsOn code c = false) (h : ∀ u, group u → (s'.place u).sleepsOn code c = true) :
    ∀ u, group u → (s.place u).sleepsOn code c = true := by
  intro u hu
  have hs := h u hu
  by_cases hut : u = t
  · rw [hplace, hut, Function.update_self, hawake] at hs
    cases hs
  · rwa [hplace, Function.update_of_ne hut] at hs

/-- A thread that goes on and does not signal. -/
theorem Wakes.advance (h : Wakes code c group busy s) (hplace : s'.place = Function.update s.place t (.ready next))
    (hnot : ∀ p, s.place t = .ready p → ¬(code p).Notifies c)
    (hbusy : busy s.shared s.pc → busy s'.shared s'.pc ∨
      (code next).Notifies c ∧ ∀ u p, u ≠ t → s.place u = .ready p → ¬(code p).WaitsOn c)
    (henters : (code next).WaitsOn c → busy s'.shared s'.pc) : Wakes code c group busy s' where
  ready u p hu hp := by
    by_cases hut : u = t
    · rw [hplace, hut, Function.update_self] at hu
      cases hu
      exact henters hp
    · rw [hplace, Function.update_of_ne hut] at hu
      rcases hbusy (h.ready u p hu hp) with hb | ⟨-, hnone⟩
      · exact hb
      · exact absurd hp (hnone u p hut hu)
  asleep hall := by
    rcases h.asleep (asleep_of_update hplace rfl hall) with hb | ⟨u, p, hu, hp⟩
    · rcases hbusy hb with hb | ⟨hn, -⟩
      · exact .inl hb
      · exact .inr ⟨t, next, by rw [hplace, Function.update_self], hn⟩
    · refine .inr ⟨u, p, ?_, hp⟩
      have hut : u ≠ t := by
        rintro rfl
        exact hnot p hu hp
      rw [hplace, Function.update_of_ne hut]
      exact hu

/-- A thread goes to sleep, or wakes, where it does not signal. -/
theorem Wakes.settle (h : Wakes code c group busy s) {place : Place P} (hshared : s'.shared = s.shared)
    (hpc : s'.pc = s.pc) (hplace : s'.place = Function.update s.place t place) (hready : ∀ p, place ≠ .ready p)
    (hnot : ∀ p, s.place t = .ready p → ¬(code p).Notifies c)
    (hsleep : place.sleepsOn code c = true → busy s.shared s.pc) : Wakes code c group busy s' where
  ready u p hu hp := by
    rw [hshared, hpc]
    by_cases hut : u = t
    · rw [hplace, hut, Function.update_self] at hu
      exact absurd hu (hready p)
    · rw [hplace, Function.update_of_ne hut] at hu
      exact h.ready u p hu hp
  asleep hall := by
    rw [hshared, hpc]
    cases hawake : place.sleepsOn code c with
    | true => exact .inl (hsleep hawake)
    | false =>
      rcases h.asleep (asleep_of_update hplace hawake hall) with hb | ⟨u, p, hu, hp⟩
      · exact .inl hb
      · refine .inr ⟨u, p, ?_, hp⟩
        have hut : u ≠ t := by
          rintro rfl
          exact hnot p hu hp
        rw [hplace, Function.update_of_ne hut]
        exact hu

omit [DecidableEq T] in
theorem Threads.place_wakeThose_ready {wakes : T → Bool} :
    (s.wakeThose wakes).place t = .ready p ↔ s.place t = .ready p := by
  simp only [Threads.wakeThose]
  split
  · cases s.place t <;> simp [Place.wake]
  · rfl

omit [DecidableEq T] in
theorem Threads.sleepsOn_wakeThose {wakes : T → Bool} :
    ((s.wakeThose wakes).place t).sleepsOn code c = true ↔ (s.place t).sleepsOn code c = true ∧ wakes t = false := by
  simp only [Threads.wakeThose]
  cases wakes t with
  | false => simp
  | true => cases s.place t <;> simp [Place.wake, Place.sleepsOn]

/-- A signal. -/
theorem Wakes.notify (h : Wakes code c group busy s) (hgroup : ∃ u, group u)
    (hsleeps : ∀ u, (s.place u).sleepsOn code c = true → group u) {c' : C} {wakes : T → Bool}
    (ht : s.place t = .ready p) (hcode : code p = .signal c' next ∨ code p = .broadcast c' next)
    (hok : ∀ u, wakes u = true → (s.place u).sleepsOn code c' = true)
    (hsome : (∃ u, (s.place u).sleepsOn code c' = true) → ∃ u, wakes u = true)
    (hbusy : busy s.shared s.pc → busy s.shared (Function.update s.pc t next)) (hnext : ¬(code next).WaitsOn c) :
    Wakes code c group busy ((s.wakeThose wakes).goto t (.ready next)) := by
  have hpc : ((s.wakeThose wakes).goto t (.ready next)).pc = Function.update s.pc t next := by
    rw [Threads.pc_goto, Threads.pc_wakeThose]
    rfl
  have hplace : ((s.wakeThose wakes).goto t (.ready next)).place =
      Function.update (s.wakeThose wakes).place t (.ready next) := rfl
  constructor
  · intro u q hu hq
    rw [hpc]
    by_cases hut : u = t
    · rw [hplace, hut, Function.update_self] at hu
      cases hu
      exact absurd hq hnext
    · rw [hplace, Function.update_of_ne hut, Threads.place_wakeThose_ready] at hu
      exact hbusy (h.ready u q hu hq)
  · intro hall
    rw [hpc]
    have hwoken := asleep_of_update hplace rfl hall
    have hbefore : ∀ u, group u → (s.place u).sleepsOn code c = true := fun u hu =>
      (Threads.sleepsOn_wakeThose.mp (hwoken u hu)).1
    by_cases hc : c' = c
    · -- a signal on `c` wakes one of the group
      subst hc
      obtain ⟨u, hu⟩ := hgroup
      obtain ⟨v, hv⟩ := hsome ⟨u, hbefore u hu⟩
      have hstill := (Threads.sleepsOn_wakeThose.mp (hwoken v (hsleeps v (hok v hv)))).2
      exact absurd (hv.symm.trans hstill) Bool.noConfusion
    · rcases h.asleep hbefore with hb | ⟨u, q, hu, hq⟩
      · exact .inl (hbusy hb)
      · refine .inr ⟨u, q, ?_, hq⟩
        have hut : u ≠ t := by
          rintro rfl
          cases hu.symm.trans ht
          rcases hcode with hcode | hcode
          · rw [hcode] at hq
            exact hc hq
          · rw [hcode] at hq
            exact hc hq
        rw [hplace, Function.update_of_ne hut, Threads.place_wakeThose_ready]
        exact hu

variable [DecidableEq M]

/-- **A step loses no wake-up.** -/
theorem Monitor.step (hM : Monitor code holds ok c m busy) (hgroup : ∃ u, group u)
    (hsleeps : ∀ u, (s.place u).sleepsOn code c = true → group u) (hlock : LockInv code holds s)
    (h : Wakes code c group busy s) {a : Action T} (hok : s.Ok ok a) (hs : Threads.Steps code s a s') :
    Wakes code c group busy s' := by
  -- a thread that goes on without an access
  have hgoes : ∀ t p next, ok s.shared s.pc t → s.pc t = p → (code p).goes = some next →
      busy s.shared s.pc → busy s.shared (Function.update s.pc t next) := fun t p next hok hpc hnext hb =>
    hM.goes s.shared s.pc t next hok hb (hpc ▸ hnext)
  cases hs with
  | @spurious t p ht =>
    refine h.settle rfl (Threads.pc_goto_self (congrArg Place.pc ht) rfl) rfl (fun _ => nofun) ?_
      fun hsl => by cases hsl
    intro q hq
    cases ht.symm.trans hq
  | @relock t wakes p next c' m' ht hcode hfree =>
    have hnext : (code p).goes = some next := by rw [hcode]; rfl
    refine h.advance rfl ?_ (fun hb => .inl ?_) fun hw => absurd hw (hM.not_goes p next hnext)
    · intro q hq
      cases ht.symm.trans hq
    · exact (Threads.pc_goto s t (.ready next)) ▸ hgoes t p next hok (congrArg Place.pc ht) hnext hb
  | @lock t wakes p next m' ht hcode hfree =>
    have hnext : (code p).goes = some next := by rw [hcode]; rfl
    refine h.advance rfl ?_ (fun hb => .inl ?_) fun hw => absurd hw (hM.not_goes p next hnext)
    · intro q hq
      cases ht.symm.trans hq
      rw [hcode]
      exact id
    · exact (Threads.pc_goto s t (.ready next)) ▸ hgoes t p next hok (congrArg Place.pc ht) hnext hb
  | @unlock t wakes p next m' ht hcode =>
    have hnext : (code p).goes = some next := by rw [hcode]; rfl
    refine h.advance rfl ?_ (fun hb => .inl ?_) fun hw => absurd hw (hM.not_goes p next hnext)
    · intro q hq
      cases ht.symm.trans hq
      rw [hcode]
      exact id
    · exact (Threads.pc_goto s t (.ready next)) ▸ hgoes t p next hok (congrArg Place.pc ht) hnext hb
  | @sleep t wakes p next c' m' ht hcode =>
    refine h.settle rfl (Threads.pc_goto_self (congrArg Place.pc ht) rfl) rfl (fun _ => nofun) ?_ ?_
    · intro q hq
      cases ht.symm.trans hq
      rw [hcode]
      exact id
    · intro hsl
      obtain ⟨q, hq, hw⟩ := Place.sleepsOn_eq_true.mp hsl
      cases hq
      exact h.ready t p ht hw
  | @notify t wakes p next c' woken ht hcode hwoken hsome =>
    have hnext : (code p).goes = some next := by rcases hcode with hcode | hcode <;> rw [hcode] <;> rfl
    exact h.notify hgroup hsleeps ht hcode hwoken hsome (hgoes t p next hok (congrArg Place.pc ht) hnext)
      (hM.not_goes p next hnext)
  | @access t wakes p next f shared ht hcode hf =>
    have hpc : s.pc t = p := congrArg Place.pc ht
    refine h.advance rfl ?_ (fun hb => ?_) fun hw => ?_
    · intro q hq
      cases ht.symm.trans hq
      rw [hcode]
      exact id
    · show busy shared (s.goto t (.ready next)).pc ∨ _
      rw [Threads.pc_goto]
      rcases hM.access s.shared s.pc t f shared next hok hb (hpc ▸ hcode) hf with hb | ⟨hm, hnext⟩
      · exact .inl hb
      · refine .inr ⟨hnext, fun u q hut hu hq => hut ?_⟩
        -- both would hold the mutex
        have ht' : s.owner m = some t := (hlock.owner_iff t m).mpr (by rw [ht]; exact hpc ▸ hm)
        have hu' : s.owner m = some u := (hlock.owner_iff u m).mpr (by rw [hu]; exact hM.holds_wait q hq)
        exact Option.some.inj (hu'.symm.trans ht')
    · show busy shared (s.goto t (.ready next)).pc
      rw [Threads.pc_goto]
      exact hM.enters s.shared s.pc t f shared next hok (hpc ▸ hcode) hf hw

variable [Fintype T] {I : σ → (T → P) → Prop}

/-- **No wake-up is lost**, over every interleaving. Only threads of the group wait on `c`. -/
theorem Monitor.always (hn : Nested code holds) (hI : Preserved code holds ok I)
    (hM : Monitor code holds (fun d pcs t => ok d pcs t ∧ I d pcs) c m busy) (hgroup : ∃ u, group u)
    (hwaits : ∀ d pcs, I d pcs → ∀ t, (code (pcs t)).WaitsOn c → group t) (hlock : LockInv code holds s)
    (h : I s.shared s.pc) (hw : Wakes code c group busy s) {as : List (Action T)}
    (hok : StepsOk (Threads.step code) (Threads.Ok ok) s as) :
    Always (Threads.step code) (fun s => LockInv code holds s ∧ I s.shared s.pc ∧ Wakes code c group busy s) s as := by
  refine always_of_stepsOk ?_ ⟨hlock, h, hw⟩ hok
  rintro s a s' ⟨hlock, h, hw⟩ hok hs
  have hs := Threads.steps_of_step hs
  have hsleeps : ∀ u, (s.place u).sleepsOn code c = true → group u := by
    intro u hu
    obtain ⟨p, hp, hc⟩ := Place.sleepsOn_eq_true.mp hu
    have hpc : s.pc u = p := congrArg Place.pc hp
    exact hwaits _ _ h u (hpc ▸ hc)
  have hok' : s.Ok (fun d pcs t => ok d pcs t ∧ I d pcs) a := by
    cases a with
    | spurious t => trivial
    | run t wakes => exact ⟨hok, h⟩
  exact ⟨hlock.step hn hs, hI.step hn hlock h hok hs, hM.step hgroup hsleeps hlock hw hok' hs⟩

end Step

end Monitor

end Libcp2p

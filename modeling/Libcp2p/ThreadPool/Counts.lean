import Libcp2p.ThreadPool.Pool
import Mathlib.Algebra.Order.BigOperators.Group.Finset
import Mathlib.Data.Fintype.BigOperators
import Mathlib.Data.Fintype.Sum

/-!
# The threads of a pool and their counts

What is true of the places of the threads and callers of a pool in every interleaving: the two counters are the numbers
of threads that are between their increments and decrements, a pool that was handed out has all its threads, and a
caller that destroys the pool is alone (this is what `DestroysAlone` asks of callers) and clears the queue only once
every thread has left its loop.

`pool_init_returns`: `thpool_init` returns only with all of the threads asked for. If one of them could not be created,
it never returns.
-/

namespace Libcp2p

variable {J : Type}

/-! ## Places -/

/-- Who makes the calls: a thread that runs a job, or a caller. -/
def PoolEnd.who : PoolEnd J → Puller
  | .job _ _ => .thread
  | _ => .clear

namespace PoolPc

/-- What a caller, or the job that a thread runs, has still to do with the pool. -/
def program : PoolPc J → PoolProgram J
  | .calls program | .pushLock _ _ program | .pushPrev _ _ program | .pushSwitch _ _ program | .pushFront _ _ program
  | .pushLink _ _ program | .pushRear _ _ program | .pushInc _ _ program | .pushPostLock program | .pushPost program
  | .pushPostSignal program | .pushPostUnlock program | .pushUnlock program | .waitLock program _ | .waitLen program _
  | .waitWorking program _ | .waitSleep program _ | .waitUnlock program _ => program
  | .initWait caller => caller.program
  | _ => .done

/-- A place of a thread of the pool, or of a caller. -/
def who : PoolPc J → Puller
  | .pullLock who | .pullFront who | .pullSwitch who _ | .pullFrontNull who _ | .pullRearNull who _ | .pullLenZero who _
  | .pullNext who _ | .pullDec who _ | .pullPostLock who _ | .pullPost who _ | .pullPostSignal who _
  | .pullPostUnlock who _ | .pullUnlock who _ => who
  | .start | .register | .registered | .whileKeepalive | .bsemWaitLock | .bsemWaitTest | .bsemWaitSleep | .bsemWaitTake
  | .bsemWaitUnlock | .ifKeepalive | .countLock | .count | .countUnlock | .pulled _ | .freeJob _ | .uncountLock
  | .uncount | .signalIdle | .uncountUnlock | .exitLock | .exitCount | .exitUnlock | .exited => .thread
  | p => p.program.last.who

/-- The thread is counted in `num_threads_alive`. -/
def alive : PoolPc J → Bool
  | .start | .register | .exitUnlock | .exited => false
  | p => decide (p.who = .thread)

/-- The thread is counted in `num_threads_working`. -/
def working : PoolPc J → Bool
  | .countUnlock | .pulled _ | .freeJob _ | .uncountLock | .uncount => true
  | .pullLock who | .pullFront who | .pullSwitch who _ | .pullFrontNull who _ | .pullRearNull who _ | .pullLenZero who _
  | .pullNext who _ | .pullDec who _ | .pullPostLock who _ | .pullPost who _ | .pullPostSignal who _
  | .pullPostUnlock who _ | .pullUnlock who _ => decide (who = .thread)
  | p => decide (p.program.last.who = .thread)

/-- The thread has been counted. -/
def started : PoolPc J → Bool
  | .start | .register => false
  | _ => true

/-- The thread has left its loop, and been uncounted. -/
def left : PoolPc J → Bool
  | .exitUnlock | .exited => true
  | _ => false

/-- The caller has the pool and a call on it. -/
def calling : PoolPc J → Bool
  | .initWait _ | .calls _ => false
  | p => decide (p.who = .clear)

/-- The caller is past the last thread and clears the queue. -/
def clearing : PoolPc J → Bool
  | .clearWhile | .clearFree _ | .clearFront | .clearRear | .clearReset | .clearLen | .freeHasJobs | .freeThread _
  | .freeThreads | .freePool | .destroyed => true
  | .pullLock who | .pullFront who | .pullSwitch who _ | .pullFrontNull who _ | .pullRearNull who _ | .pullLenZero who _
  | .pullNext who _ | .pullDec who _ | .pullPostLock who _ | .pullPost who _ | .pullPostSignal who _
  | .pullPostUnlock who _ | .pullUnlock who _ => decide (who = .clear)
  | _ => false

/-- The caller destroys the pool. -/
def destroying : PoolPc J → Bool
  | .destroyTotal | .destroyFlag | .destroyPoll | .postAllLock | .postAll | .postAllBroadcast | .postAllUnlock => true
  | p => p.clearing

end PoolPc

section Places

variable {body : J → List (PoolCall J)} {p next : PoolPc J} {d d' : PoolData J}

theorem PoolGoes.who_eq (h : PoolGoes p next) : next.who = p.who := by cases h <;> rfl

theorem PoolAccess.who_eq (h : PoolAccess body p d next d') : next.who = p.who := by
  cases h with
  | queue h => cases h <;> rfl
  | free h => cases h <;> rfl
  | _ => rfl

theorem PoolGoes.alive_eq (h : PoolGoes p next) : next.alive = p.alive := by cases h <;> rfl

theorem PoolAccess.alive_add (h : PoolAccess body p d next d') :
    d'.numThreadsAlive + p.alive.toInt = d.numThreadsAlive + next.alive.toInt := by
  cases h with
  | register => simp [PoolPc.alive, PoolPc.who]
  | exitCount => simp [PoolPc.alive, PoolPc.who]
  | queue h => cases h <;> rfl
  | free h => cases h <;> rfl
  | _ => rfl

theorem PoolGoes.working_eq (h : PoolGoes p next) : next.working = p.working := by cases h <;> rfl

theorem PoolAccess.working_add (h : PoolAccess body p d next d') :
    d'.numThreadsWorking + p.working.toInt = d.numThreadsWorking + next.working.toInt := by
  cases h with
  | count => simp [PoolPc.working, PoolPc.program, PoolEnd.who]
  | uncount => simp [PoolPc.working, PoolPc.program, PoolEnd.who]
  | uncountLast => simp [PoolPc.working, PoolPc.program, PoolEnd.who]
  | queue h => cases h <;> rfl
  | free h => cases h <;> rfl
  | _ => rfl

theorem PoolGoes.started_of (h : PoolGoes p next) (hp : p.started = true) : next.started = true := by
  cases h <;> first | rfl | cases hp

theorem PoolAccess.started_eq (h : PoolAccess body p d next d') : next.started = true := by
  cases h with
  | queue h => cases h <;> rfl
  | free h => cases h <;> rfl
  | _ => rfl

theorem PoolGoes.left_of (h : PoolGoes p next) (hp : p.left = true) : next.left = true := by
  cases h <;> first | rfl | cases hp

/-- A thread that has left its loop accesses nothing. -/
theorem PoolAccess.not_left (h : PoolAccess body p d next d') : p.left = false := by
  cases h with
  | queue h => cases h <;> rfl
  | free h => cases h <;> rfl
  | _ => rfl

theorem PoolAccess.numThreads_eq (h : PoolAccess body p d next d') : d'.numThreads = d.numThreads := by cases h <;> rfl

/-- `thpool_init` returns when the threads alive are as many as were asked for. -/
theorem PoolAccess.initialised_cases (h : PoolAccess body p d next d') : d'.initialised = d.initialised ∨
    d.numThreadsAlive = d.numThreads ∧ d'.initialised = true := by
  cases h with
  | initDone h => exact .inr ⟨h, rfl⟩
  | _ => exact .inl rfl

theorem PoolGoes.calling_of (h : PoolGoes p next) (hn : next.calling = true) : p.calling = true := by
  cases h <;> first | rfl | exact hn | cases hn

theorem PoolAccess.calling_of (h : PoolAccess body p d next d') (hn : next.calling = true) :
    p.calling = true ∨ d.initialised = true := by
  cases h with
  | addWork h => exact .inr h
  | wait h => exact .inr h
  | destroy h => exact .inr h
  | queue h => cases h <;> exact .inl hn
  | free h => cases h <;> exact .inl hn
  | _ => exact .inl hn

theorem PoolGoes.destroying_eq (h : PoolGoes p next) : next.destroying = p.destroying := by cases h <;> rfl

theorem PoolAccess.destroying_cases (h : PoolAccess body p d next d') : next.destroying = p.destroying ∨
    p = .calls .destroy ∧ next = .destroyTotal ∧ d.initialised = true := by
  cases h with
  | destroy h => exact .inr ⟨rfl, rfl, h⟩
  | queue h => cases h <;> exact .inl rfl
  | free h => cases h <;> exact .inl rfl
  | _ => exact .inl rfl

theorem PoolGoes.clearing_eq (h : PoolGoes p next) : next.clearing = p.clearing := by cases h <;> rfl

theorem PoolAccess.clearing_cases (h : PoolAccess body p d next d') : next.clearing = p.clearing ∨
    p = .destroyPoll ∧ d.numThreadsAlive = 0 := by
  cases h with
  | noThreads h => exact .inr ⟨rfl, h⟩
  | queue h => cases h <;> exact .inl rfl
  | free h => cases h <;> exact .inl rfl
  | _ => exact .inl rfl

theorem PoolPc.clearing_destroying (h : p.clearing = true) : p.destroying = true := by
  cases p <;> first | rfl | exact h

theorem PoolPc.who_of_destroying (h : p.destroying = true) : p.who = .clear := by
  cases p <;> first | rfl | exact of_decide_eq_true h | cases h

theorem PoolPc.started_of_alive (h : p.alive = true) : p.started = true := by
  cases p <;> first | rfl | exact h

/-- A caller is not counted. -/
theorem PoolPc.not_alive (hwho : p.who = .clear) : p.alive = false := by
  cases p <;> first | rfl | exact decide_eq_false (hwho ▸ Puller.noConfusion) | cases hwho

/-- A thread that has been counted is alive until it is uncounted. -/
theorem PoolPc.alive_of_started (hwho : p.who = .thread) (hp : p.started = true) : p.alive = !p.left := by
  cases p <;> first | rfl | exact absurd hp Bool.false_ne_true | exact decide_eq_true hwho

end Places

/-! ## The invariant -/

section Inv

variable {ι κ : Type} [Fintype ι] [Fintype κ]

/-- A thread of the pool, or a caller. -/
def poolRole : ι ⊕ κ → Puller
  | .inl _ => .thread
  | .inr _ => .clear

/-- The threads and callers of a pool, `failed` threads of which were not created. -/
structure CountInv (failed : Nat) (d : PoolData J) (pcs : ι ⊕ κ → PoolPc J) : Prop where
  who_eq : ∀ t, (pcs t).who = poolRole t
  alive_eq : d.numThreadsAlive = tally (fun p => p.alive.toInt) pcs
  working_eq : d.numThreadsWorking = tally (fun p => p.working.toInt) pcs
  numThreads_eq : d.numThreads = Fintype.card ι + failed
  started : d.initialised = true → failed = 0 ∧ ∀ i, (pcs (.inl i)).started = true
  called : ∀ t, (pcs t).calling = true → d.initialised = true

/-- What is asked of callers: one that destroys the pool is alone with it. -/
def DestroysAlone (d : PoolData J) (pcs : ι ⊕ κ → PoolPc J) (t : ι ⊕ κ) : Prop :=
  d.initialised = true → pcs t = .calls .destroy → ∀ k, .inr k ≠ t → pcs (.inr k) = .calls .done

/-- A caller that destroys the pool is alone, and the threads have left once it clears the queue. -/
structure DestroyInv (pcs : ι ⊕ κ → PoolPc J) : Prop where
  alone : ∀ t, (pcs t).destroying = true → ∀ k, .inr k ≠ t → pcs (.inr k) = .calls .done
  left : ∀ t, (pcs t).clearing = true → ∀ i, (pcs (.inl i)).left = true

variable {body : J → List (PoolCall J)} {failed : Nat} {d d' : PoolData J} {pcs : ι ⊕ κ → PoolPc J} {t : ι ⊕ κ}
  {next : PoolPc J}

/-- Without the last thread counted, every thread has left its loop or not begun. -/
theorem CountInv.left_of_alive (h : CountInv failed d pcs) (halive : d.numThreadsAlive = 0)
    (hinit : d.initialised = true) (i : ι) : (pcs (.inl i)).left = true := by
  have hi := tally_toInt_eq_zero.mp (h.alive_eq.symm.trans halive) (.inl i)
  rw [PoolPc.alive_of_started (h.who_eq (.inl i)) ((h.started hinit).2 i)] at hi
  simpa using hi

/-- As many threads are alive as were asked for only if none was not created and all have been counted. -/
theorem CountInv.started_of_alive (h : CountInv failed d pcs) (halive : d.numThreadsAlive = d.numThreads) :
    failed = 0 ∧ ∀ i, (pcs (.inl i)).started = true := by
  have hcallers : ∀ k, (pcs (.inr k)).alive.toInt = 0 := by
    intro k
    rw [PoolPc.not_alive (h.who_eq (.inr k))]
    rfl
  have hsum : ∑ i, (1 - (pcs (.inl i)).alive.toInt) = -(failed : Int) := by
    have halive' := h.alive_eq
    rw [halive, h.numThreads_eq, tally, Fintype.sum_sum_type, Finset.sum_eq_zero fun k _ => hcallers k] at halive'
    rw [Finset.sum_sub_distrib, Finset.sum_const, Finset.card_univ, Int.nsmul_eq_mul, Int.mul_one]
    omega
  have hnonneg : ∀ i ∈ Finset.univ, 0 ≤ 1 - (pcs (.inl i)).alive.toInt := by
    intro i _
    cases (pcs (.inl i)).alive <;> decide
  have hfailed : failed = 0 := by
    have := Finset.sum_nonneg hnonneg
    omega
  refine ⟨hfailed, fun i => PoolPc.started_of_alive ?_⟩
  rw [hfailed] at hsum
  have hi := (Finset.sum_eq_zero_iff_of_nonneg hnonneg).mp hsum i (Finset.mem_univ i)
  cases halive : (pcs (.inl i)).alive with
  | true => rfl
  | false => rw [halive] at hi; cases hi

variable [DecidableEq ι] [DecidableEq κ]

/-- A thread or caller that goes on keeps the counts. -/
theorem CountInv.update (h : CountInv failed d pcs) (hwho : next.who = (pcs t).who)
    (halive : d'.numThreadsAlive + (pcs t).alive.toInt = d.numThreadsAlive + next.alive.toInt)
    (hworking : d'.numThreadsWorking + (pcs t).working.toInt = d.numThreadsWorking + next.working.toInt)
    (hnum : d'.numThreads = d.numThreads) (hstarted : (pcs t).started = true → next.started = true)
    (hinit : d'.initialised = d.initialised ∨ d'.initialised = true ∧ failed = 0 ∧ ∀ i, (pcs (.inl i)).started = true)
    (hcalling : next.calling = true → (pcs t).calling = true ∨ d.initialised = true) :
    CountInv failed d' (Function.update pcs t next) where
  who_eq := (Function.forall_update_iff pcs fun u p => p.who = poolRole u).mpr
    ⟨hwho.trans (h.who_eq t), fun u _ => h.who_eq u⟩
  alive_eq := by
    have hsum := tally_update (fun p => p.alive.toInt) pcs t next
    have := h.alive_eq
    omega
  working_eq := by
    have hsum := tally_update (fun p => p.working.toInt) pcs t next
    have := h.working_eq
    omega
  numThreads_eq := hnum.trans h.numThreads_eq
  started hi := by
    have hall : failed = 0 ∧ ∀ i, (pcs (.inl i)).started = true := by
      rcases hinit with hinit | ⟨-, hfailed, hall⟩
      · exact h.started (hinit ▸ hi)
      · exact ⟨hfailed, hall⟩
    refine ⟨hall.1, fun i => ?_⟩
    by_cases hit : .inl i = t
    · rw [hit, Function.update_self]
      exact hstarted (hit ▸ hall.2 i)
    · rw [Function.update_of_ne hit]
      exact hall.2 i
  called := by
    have hkeep : d.initialised = true → d'.initialised = true := by
      rcases hinit with hinit | ⟨hinit, -, -⟩
      · exact hinit.trans
      · exact fun _ => hinit
    refine (Function.forall_update_iff pcs fun _ p => p.calling = true → d'.initialised = true).mpr ⟨?_, ?_⟩
    · intro hn
      rcases hcalling hn with hp | hi
      · exact hkeep (h.called t hp)
      · exact hkeep hi
    · exact fun u _ hu => hkeep (h.called u hu)

/-- The threads and callers keep the counts. -/
theorem countInv_preserved {ok : PoolData J → (ι ⊕ κ → PoolPc J) → ι ⊕ κ → Prop} :
    Preserved (poolCode body) poolHolds ok (CountInv failed) where
  goes d pcs t next _ h hnext _ := by
    have hg := poolGoes_of_code hnext
    exact h.update hg.who_eq (by rw [hg.alive_eq]) (by rw [hg.working_eq]) rfl hg.started_of (.inl rfl)
      fun hn => .inl (hg.calling_of hn)
  access d pcs t f d' next _ h _ hcode hf := by
    have ha := poolAccess_of_code hcode hf
    refine h.update ha.who_eq ha.alive_add ha.working_add ha.numThreads_eq (fun _ => ha.started_eq) ?_ ha.calling_of
    rcases ha.initialised_cases with hi | ⟨halive, hi⟩
    · exact .inl hi
    · obtain ⟨hfailed, hall⟩ := h.started_of_alive halive
      exact .inr ⟨hi, hfailed, hall⟩

omit [Fintype ι] [Fintype κ] in
/-- A thread or caller that goes on leaves the caller that destroys the pool alone. -/
theorem DestroyInv.update (h : DestroyInv pcs) (hwho : next.who = poolRole t) (hidle : pcs t ≠ .calls .done)
    (hdestroying : next.destroying = true → ∀ k, .inr k ≠ t → pcs (.inr k) = .calls .done)
    (hleft : (pcs t).left = true → next.left = true)
    (hclearing : next.clearing = true → ∀ i, (pcs (.inl i)).left = true) :
    DestroyInv (Function.update pcs t next) where
  alone u hu k hk := by
    by_cases hut : u = t
    · subst hut
      rw [Function.update_self] at hu
      rw [Function.update_of_ne hk]
      exact hdestroying hu k hk
    · rw [Function.update_of_ne hut] at hu
      have hidle' := h.alone u hu k hk
      have hkt : Sum.inr k ≠ t := fun hkt => hidle (hkt ▸ hidle')
      rw [Function.update_of_ne hkt]
      exact hidle'
  left u hu i := by
    by_cases hut : u = t
    · subst hut
      rw [Function.update_self] at hu
      have hiu : .inl i ≠ u := by
        rintro rfl
        cases (PoolPc.who_of_destroying (PoolPc.clearing_destroying hu)).symm.trans hwho
      rw [Function.update_of_ne hiu]
      exact hclearing hu i
    · rw [Function.update_of_ne hut] at hu
      by_cases hit : .inl i = t
      · rw [hit, Function.update_self]
        exact hleft (hit ▸ h.left u hu i)
      · rw [Function.update_of_ne hit]
        exact h.left u hu i

/-- If callers destroy the pool only when they are alone with it, they stay so. -/
theorem destroyInv_preserved : Preserved (T := ι ⊕ κ) (poolCode body) poolHolds
    (fun d pcs t => DestroysAlone d pcs t ∧ CountInv failed d pcs) fun _ pcs => DestroyInv pcs where
  goes d pcs t next hok h hnext _ := by
    have hg := poolGoes_of_code hnext
    exact h.update (hg.who_eq.trans (hok.2.who_eq t)) (fun hidle => by rw [hidle] at hnext; cases hnext)
      (fun hn => h.alone t (hg.destroying_eq ▸ hn)) hg.left_of fun hn => h.left t (hg.clearing_eq ▸ hn)
  access d pcs t f d' next hok h _ hcode hf := by
    have ha := poolAccess_of_code hcode hf
    refine h.update (ha.who_eq.trans (hok.2.who_eq t)) ?_ ?_
      (fun hl => absurd (ha.not_left.symm.trans hl) Bool.false_ne_true) ?_
    · intro hidle
      rw [hidle] at hcode
      cases hcode
    · intro hn
      rcases ha.destroying_cases with heq | ⟨hp, -, hi⟩
      · exact h.alone t (heq ▸ hn)
      · exact hok.1 hi hp
    · intro hn i
      rcases ha.clearing_cases with heq | ⟨hp, halive⟩
      · exact h.left t (heq ▸ hn) i
      · exact hok.2.left_of_alive halive (hok.2.called t (by rw [hp]; rfl)) i

/-! ## Runs -/

section Runs

omit [Fintype κ] [DecidableEq ι]

variable (failed) (creator : κ) (callers : κ → PoolCaller J)

/-- Where the threads and callers of a new pool are. -/
theorem poolInit_places (Q : ι ⊕ κ → PoolPc J → Prop) (hstart : ∀ i, Q (.inl i) .start)
    (hinit : ∀ k, Q (.inr k) (.initWait (callers k))) (hcalls : ∀ k, Q (.inr k) (.calls (callers k).program))
    (t : ι ⊕ κ) : Q t ((poolInit ι κ failed creator callers).pc t) := by
  cases t with
  | inl i => exact hstart i
  | inr k =>
    show Q (.inr k) (Place.ready (if k = creator then .initWait (callers k) else .calls (callers k).program)).pc
    split
    · exact hinit k
    · exact hcalls k

theorem lockInv_poolInit : LockInv (poolCode body) poolHolds (poolInit ι κ failed creator callers) where
  owner_iff t m := by
    cases t with
    | inl i => simp [poolInit, Place.held, poolHolds]
    | inr k =>
      simp only [poolInit, Place.held, reduceCtorEq, false_iff]
      split <;> exact List.not_mem_nil
  waits t p hp := by
    cases t <;> simp [poolInit] at hp

variable [Fintype κ]

theorem countInv_poolInit :
    CountInv failed (poolInit ι κ failed creator callers).shared (poolInit ι κ failed creator callers).pc where
  who_eq := poolInit_places failed creator callers (fun t p => p.who = poolRole t) (fun _ => rfl) (fun _ => rfl)
    fun _ => rfl
  alive_eq := (tally_eq_zero (poolInit_places failed creator callers (fun _ p => p.alive.toInt = 0) (fun _ => rfl)
    (fun _ => rfl) fun _ => rfl)).symm
  working_eq := (tally_eq_zero (poolInit_places failed creator callers (fun _ p => p.working.toInt = 0) (fun _ => rfl)
    (fun _ => rfl) fun _ => rfl)).symm
  numThreads_eq := rfl
  started hi := by cases hi
  called := poolInit_places failed creator callers (fun _ p => p.calling = true → _) nofun nofun nofun

omit [Fintype κ] in
theorem destroyInv_poolInit : DestroyInv (poolInit ι κ failed creator callers).pc where
  alone t ht := absurd ht (poolInit_places failed creator callers (fun _ p => ¬p.destroying = true) nofun nofun nofun t)
  left := poolInit_places failed creator callers (fun _ p => p.clearing = true → _) nofun nofun nofun

variable [DecidableEq ι]

/-- **A pool that was handed out has its threads.** In every interleaving, `thpool_init` returns only after all the
threads asked for have been created and counted, and so never if `thread_init` failed for one. -/
theorem pool_init_returns (as : List (Action (ι ⊕ κ))) :
    Always (Threads.step (poolCode body)) (fun s => s.shared.initialised = true → failed = 0 ∧
      ∀ i, (s.pc (.inl i)).started = true) (poolInit ι κ failed creator callers) as := by
  have hkeep : Preserved (T := ι ⊕ κ) (poolCode body) poolHolds (fun _ _ _ => True) (CountInv failed) :=
    countInv_preserved
  have h := hkeep.always poolNested (lockInv_poolInit failed creator callers)
    (countInv_poolInit failed creator callers) (Threads.stepsOk_true _ as)
  exact h.mono fun s h => h.2.started

end Runs

end Inv

end Libcp2p

import Libcp2p.Lib.Monitor
import Libcp2p.ThreadPool.Wait

/-!
# Progress of a pool

The semaphore `has_jobs` is posted once for each job that is added, and again by a thread that leaves jobs behind in the
queue; being binary, it does not count. `thpool_wait` sleeps until a thread finds that it was the last one at work, and
that thread signals one sleeper only. In a pool with a thread that is called well, while `threads_keepalive` stays set
(`KeepsAlive`) and no job waits for its own pool, which would never return:

* `pool_quiescent`: no post is lost. The pool comes to rest only when every job has been run, its threads asleep.
* `pool_waiter_wakes`: if only one caller waits, it is not left asleep. Two may be, as the run after the theorem shows.
-/

namespace Libcp2p

variable {J : Type}

/-! ## Places -/

/-- The pool is destroyed after the calls. -/
def PoolEnd.destroys : PoolEnd J → Bool
  | .caller destroys => destroys
  | .job _ _ => false

namespace PoolPc

/-- The calls that a caller or a job has before it, the one it is in included if it waits. -/
def todo : PoolPc J → List (PoolCall J)
  | .waitLock program _ | .waitLen program _ | .waitWorking program _ | .waitSleep program _
  | .waitUnlock program _ => .wait :: program.calls
  | p => p.program.calls

/-- The caller destroys the pool, or will. -/
def destroys (p : PoolPc J) : Bool := p.destroying || p.program.last.destroys

/-- The thread leaves its loop. -/
def leaving : PoolPc J → Bool
  | .exitLock | .exitCount | .exitUnlock | .exited => true
  | _ => false

/-- The thread has taken the semaphore and not yet come to the queue, or somebody is about to post it. -/
def pulls : PoolPc J → Bool
  | .bsemWaitUnlock | .ifKeepalive | .countLock | .count | .countUnlock | .pullLock _ | .pullFront _ | .pullSwitch _ _
  | .pullFrontNull _ _ | .pullNext _ _ | .pullDec _ _ | .pullPostLock _ _ | .pullPost _ _ | .pushPostLock _
  | .pushPost _ => true
  | _ => false

end PoolPc

section Places

variable {body : J → List (PoolCall J)} {p next : PoolPc J} {q : JobQueue J} {d d' : PoolData J}

theorem PoolGoes.todo_subset (h : PoolGoes p next) : next.todo ⊆ p.todo := by
  cases h with
  | waitUnlock => exact List.subset_cons_self ..
  | _ => exact List.Subset.refl _

/-- A thread that reads a job has its calls before it. -/
theorem PoolAccess.todo_cases (h : PoolAccess body p d next d') :
    next.todo ⊆ p.todo ∨ p.who = .thread ∧ ∃ work, next.todo = body work := by
  cases h with
  | queue h => cases h <;> exact .inl (List.Subset.refl _)
  | free h => cases h <;> exact .inl (List.Subset.refl _)
  | readJob => exact .inr ⟨rfl, _, rfl⟩
  | addWork => exact .inl (List.subset_cons_self ..)
  | addWorkFails => exact .inl (List.subset_cons_self ..)
  | otherPool => exact .inl (List.subset_cons_self ..)
  | _ => exact .inl (List.Subset.refl _)

theorem PoolGoes.destroys_eq (h : PoolGoes p next) : next.destroys = p.destroys := by cases h <;> rfl

theorem PoolAccess.destroys_of (h : PoolAccess body p d next d') (hp : p.destroys = false) : next.destroys = false := by
  cases h with
  | queue h => cases h <;> exact hp
  | free h => cases h <;> cases hp
  | readJob => rfl
  | destroy => cases hp
  | _ => exact hp

theorem PoolGoes.leaving_eq (h : PoolGoes p next) : next.leaving = p.leaving := by cases h <;> rfl

theorem PoolAccess.leaving_cases (h : PoolAccess body p d next d') :
    next.leaving = p.leaving ∨ d.threadsKeepalive = false := by
  cases h with
  | leave h => exact .inr h
  | queue h => cases h <;> exact .inl rfl
  | free h => cases h <;> exact .inl rfl
  | _ => exact .inl rfl

/-- `threads_keepalive` is cleared only by `thpool_destroy`, of this pool or of another. -/
theorem PoolAccess.keepalive_cases (h : PoolAccess body p d next d') : d'.threadsKeepalive = d.threadsKeepalive ∨
    d'.threadsKeepalive = true ∨ .otherPool false ∈ p.todo ∨ p.destroys = true := by
  cases h with
  | @otherPool d keepalive calls last h =>
    cases keepalive with
    | true => exact .inr (.inl rfl)
    | false => exact .inr (.inr (.inl List.mem_cons_self))
  | destroyFlag => exact .inr (.inr (.inr rfl))
  | _ => exact .inl rfl

/-! ## The semaphore -/

theorem PoolGoes.pulls_of (h : PoolGoes p next) (hp : p.pulls = true) : next.pulls = true := by
  cases h <;> first | rfl | cases hp

/-- What an access does with a job in the queue that nobody has come for. -/
theorem PoolAccess.pulls_cases (h : PoolAccess body p d next d') (hview : .rwmutex ∈ poolHolds p → d.jobqueue.View p)
    (hview' : .rwmutex ∈ poolHolds next → d'.jobqueue.View next) (hkeep : d.threadsKeepalive = true)
    (hclear : p.clearing = false) :
    next.pulls = true ∨ d'.v = true ∨ d'.jobqueue.jobs = [] ∨
      p.pulls = false ∧ d'.v = d.v ∧ d'.jobqueue.jobs = d.jobqueue.jobs := by
  have hsame : ∀ {p : PoolPc J} {d d' : PoolData J}, p.pulls = false ∧ d'.v = d.v ∧ d'.jobqueue.jobs = d.jobqueue.jobs →
      next.pulls = true ∨ d'.v = true ∨ d'.jobqueue.jobs = [] ∨
        p.pulls = false ∧ d'.v = d.v ∧ d'.jobqueue.jobs = d.jobqueue.jobs := fun h => .inr (.inr (.inr h))
  cases h with
  | queue h =>
    cases h with
    | pullFrontNull => exact .inr (.inr (.inl (hview' (by simp [poolHolds])).1))
    | pullNext => exact .inl rfl
    | pullDec => exact .inl rfl
    | pushInc => exact .inl rfl
    | _ => exact hsame ⟨rfl, rfl, rfl⟩
  | free h => cases h <;> exact hsame ⟨rfl, rfl, rfl⟩
  | bsemWaitTake => exact .inl rfl
  | alive => exact .inl rfl
  | notAlive h => exact absurd (h.symm.trans hkeep) Bool.false_ne_true
  | count => exact .inl rfl
  | pullFront => exact .inl rfl
  | pullEmpty hlen => exact .inr (.inr (.inl (JobQueue.jobs_eq_nil (hview (by simp [poolHolds])).1 hlen)))
  | pullOne => exact .inl rfl
  | pullMore => exact .inl rfl
  | pullPost => exact .inr (.inl rfl)
  | pushPost => exact .inr (.inl rfl)
  | postAll => exact .inr (.inl rfl)
  | clearReset => cases hclear
  | _ => exact hsame ⟨rfl, rfl, rfl⟩

/-! ## The condition variables -/

theorem waitsOn_hasJobs (h : (poolCode body p).WaitsOn .hasJobs) : p = .bsemWaitSleep := by
  cases p with
  | bsemWaitSleep => rfl
  | calls program => rcases poolCode_calls body program with ⟨-, hcode⟩ | ⟨f, hcode⟩ <;> rw [hcode] at h <;> cases h
  | _ => cases h

theorem waitsOn_threadsAllIdle (h : (poolCode body p).WaitsOn .threadsAllIdle) :
    ∃ program n, p = .waitSleep program n := by
  cases p with
  | waitSleep program n => exact ⟨program, n, rfl⟩
  | calls program => rcases poolCode_calls body program with ⟨-, hcode⟩ | ⟨f, hcode⟩ <;> rw [hcode] at h <;> cases h
  | _ => cases h

/-- A thread or caller comes to a wait by a test only. -/
theorem PoolGoes.not_wait (h : PoolGoes p next) : next ≠ .bsemWaitSleep ∧
    ∀ program n, next ≠ .waitSleep program n := by
  cases h <;> exact ⟨nofun, nofun⟩

/-- Whoever posts the semaphore holds its mutex and signals next. -/
theorem PoolAccess.posts_cases (h : PoolAccess body p d next d') (hv : d.v = false) :
    d'.v = false ∨ .bsemMutex ∈ poolHolds p ∧ (poolCode body next).Notifies .hasJobs := by
  cases h with
  | pullPost => exact .inr ⟨List.mem_cons_self, rfl⟩
  | pushPost => exact .inr ⟨List.mem_cons_self, rfl⟩
  | postAll => exact .inr ⟨List.mem_cons_self, rfl⟩
  | bsemWaitTake => exact .inl rfl
  | clearReset => exact .inl rfl
  | _ => exact .inl hv

theorem PoolAccess.sleep_v (h : PoolAccess body p d .bsemWaitSleep d') : d'.v = false := by
  cases h with
  | notPosted h => exact h
  | queue h => cases h
  | free h => cases h

/-- Whoever is the last at work holds `thcount_lock` and signals next. -/
theorem PoolAccess.working_cases (h : PoolAccess body p d next d') (hnonneg : 0 ≤ d.numThreadsWorking)
    (hworking : d.numThreadsWorking ≠ 0) :
    d'.numThreadsWorking ≠ 0 ∨ .thcountLock ∈ poolHolds p ∧ (poolCode body next).Notifies .threadsAllIdle := by
  cases h with
  | count =>
    refine .inl ?_
    show d.numThreadsWorking + 1 ≠ 0
    omega
  | uncountLast => exact .inr ⟨List.mem_singleton_self _, rfl⟩
  | uncount h => exact .inl h
  | _ => exact .inl hworking

theorem PoolAccess.sleep_cases {program : PoolProgram J} {n : Nat}
    (h : PoolAccess body p d (.waitSleep program n) d') :
    d' = d ∧ (d.jobqueue.len ≠ 0 ∨ d.numThreadsWorking ≠ 0) := by
  cases h with
  | waitJobs h => exact ⟨rfl, .inl h⟩
  | waitWorkers h => exact ⟨rfl, .inr h⟩
  | queue h => cases h
  | free h => cases h

/-- Whoever takes the last job from the queue is a thread at work. -/
theorem PoolAccess.empties (h : PoolAccess body p d next d') (hview : .rwmutex ∈ poolHolds p → d.jobqueue.View p)
    (hclear : p.clearing = false) (hjobs : d.jobqueue.jobs ≠ []) (hjobs' : d'.jobqueue.jobs = []) :
    p.working = true ∧ d'.numThreadsWorking = d.numThreadsWorking := by
  have hsub := h.submitted_mono.length_le
  cases h with
  | queue h =>
    rcases h.taken_cases hview with ⟨htaken, -⟩ | ⟨a, work, l, -, -, -, -, hworking, hclearing⟩
    · refine absurd (List.drop_eq_nil_iff.mpr ?_) hjobs
      have hle := List.drop_eq_nil_iff.mp hjobs'
      rw [htaken] at hle
      exact hsub.trans hle
    · refine ⟨?_, rfl⟩
      rw [hclear] at hclearing
      rw [hworking]
      cases hwho : p.who with
      | thread => rfl
      | clear => rw [hwho] at hclearing; cases hclearing
  | _ => exact absurd hjobs' hjobs

/-- The length of an empty queue is 0, unless it is to be set so. -/
theorem JobQueue.View.len_cases (h : q.View p) (hjobs : q.jobs = []) :
    q.len = 0 ∨ p.working = true ∨ p.clearing = true := by
  have hpull : ∀ who : Puller, decide (who = .thread) = true ∨ decide (who = .clear) = true := by
    intro who
    cases who with
    | thread => exact .inl rfl
    | clear => exact .inr rfl
  have hset : q.Settled → q.len = 0 := by
    intro h
    have := h.len_eq
    rwa [hjobs] at this
  cases p with
  | pullSwitch who job => exact .inl (hset h.1)
  | pullFrontNull who job => exact .inr (hpull who)
  | pullNext who job => exact .inr (hpull who)
  | pullRearNull who job => exact .inr (hpull who)
  | pullLenZero who job => exact .inr (hpull who)
  | pullDec who job => exact .inr (hpull who)
  | pushSwitch a work program => exact .inl (hset h.1)
  | pushFront a work program => exact .inl h.2.2
  | pushLink a work program => exact .inl (hset h.1)
  | pushRear a work program => exact .inl (by rw [h.2, hjobs]; rfl)
  | pushInc a work program => exact .inl (by rw [h.2, hjobs]; rfl)
  | _ => exact .inl (hset h)

end Places

section Inv

variable {ι κ : Type} [Fintype ι] [Fintype κ]

/-- No caller destroys this pool, and no caller or job another one. -/
structure KeepsAlive (body : J → List (PoolCall J)) (callers : κ → PoolCaller J) : Prop where
  callers : ∀ k, (callers k).destroys = false ∧ .otherPool false ∉ (callers k).calls
  jobs : ∀ work, .otherPool false ∉ body work

/-- The callers and the jobs make their calls, and the threads stay in their loop. -/
structure KeepInv (body : J → List (PoolCall J)) (callers : κ → PoolCaller J) (d : PoolData J)
    (pcs : ι ⊕ κ → PoolPc J) : Prop where
  keepalive : d.threadsKeepalive = true
  leaving : ∀ t, (pcs t).leaving = false
  stays : ∀ t, (pcs t).destroys = false
  callers : ∀ k, (pcs (.inr k)).todo ⊆ (callers k).calls
  jobs : ∀ i, ∀ call ∈ (pcs (.inl i)).todo, ∃ work, call ∈ body work

/-- Somebody comes for the jobs in the queue, or will. -/
def PullInv (d : PoolData J) (pcs : ι ⊕ κ → PoolPc J) : Prop :=
  d.jobqueue.jobs ≠ [] → d.v = true ∨ ∃ t, (pcs t).pulls = true

variable {body : J → List (PoolCall J)} {failed : Nat} {callers : κ → PoolCaller J} {q : JobQueue J}
  {d d' : PoolData J} {pcs : ι ⊕ κ → PoolPc J} {t : ι ⊕ κ} {next : PoolPc J}

omit [Fintype ι] [Fintype κ] in
theorem KeepInv.not_destroying (h : KeepInv body callers d pcs) (t : ι ⊕ κ) : (pcs t).destroying = false :=
  (Bool.or_eq_false_iff.mp (h.stays t)).1

omit [Fintype ι] [Fintype κ] in
theorem KeepInv.not_clearing (h : KeepInv body callers d pcs) (t : ι ⊕ κ) : (pcs t).clearing = false := by
  cases ht : (pcs t).clearing with
  | false => rfl
  | true => exact absurd ((h.not_destroying t).symm.trans (PoolPc.clearing_destroying ht)) Bool.false_ne_true

omit [Fintype ι] [Fintype κ] in
theorem KeepInv.not_otherPool (h : KeepInv body callers d pcs) (halive : KeepsAlive body callers) (t : ι ⊕ κ) :
    .otherPool false ∉ (pcs t).todo := by
  intro hcall
  cases t with
  | inl i =>
    obtain ⟨work, hwork⟩ := h.jobs i _ hcall
    exact halive.jobs work hwork
  | inr k => exact (halive.callers k).2 (h.callers k hcall)

theorem CountInv.working_pos (h : CountInv failed d pcs) (ht : (pcs t).working = true) : d.numThreadsWorking ≠ 0 := by
  intro hzero
  have hfalse := tally_toInt_eq_zero.mp (h.working_eq.symm.trans hzero) t
  exact Bool.false_ne_true (hfalse.symm.trans ht)

/-- What callers that wait sleep for: a job is in the queue, or a thread at work. -/
def PoolBusy (d : PoolData J) (_ : ι ⊕ κ → PoolPc J) : Prop := d.jobqueue.jobs ≠ [] ∨ d.numThreadsWorking ≠ 0

/-- While a job is in the queue or about to leave it, the pool is busy. -/
theorem PoolInv.busy_of_len (h : PoolInv failed d pcs) (hclear : ∀ t, (pcs t).clearing = false)
    (hlen : d.jobqueue.len ≠ 0) : PoolBusy d pcs := by
  by_cases hjobs : d.jobqueue.jobs = []
  · by_cases hall : ∀ t, .rwmutex ∉ poolHolds (pcs t)
    · have hlen' := (h.queue.settled hall).len_eq
      rw [hjobs] at hlen'
      exact absurd hlen' hlen
    · obtain ⟨t, ht⟩ := not_forall_not.mp hall
      rcases (h.queue.view t ht).len_cases hjobs with hlen' | hworking | hclearing
      · exact absurd hlen' hlen
      · exact .inr (h.counts.working_pos hworking)
      · exact absurd ((hclear t).symm.trans hclearing) Bool.false_ne_true
  · exact .inl hjobs

/-- A thread that takes the last job is at work. -/
theorem PoolInv.busy_access (h : PoolInv failed d pcs) (hclear : ∀ t, (pcs t).clearing = false)
    (ha : PoolAccess body (pcs t) d next d') (hb : PoolBusy d pcs) (pcs' : ι ⊕ κ → PoolPc J) :
    PoolBusy d' pcs' ∨ .thcountLock ∈ poolHolds (pcs t) ∧ (poolCode body next).Notifies .threadsAllIdle := by
  rcases hb with hjobs | hworking
  · by_cases hjobs' : d'.jobqueue.jobs = []
    · have hworking := ha.empties (h.queue.view t) (hclear t) hjobs hjobs'
      exact .inl (.inr (hworking.2 ▸ h.counts.working_pos hworking.1))
    · exact .inl (.inl hjobs')
  · rcases ha.working_cases (h.counts.working_eq ▸ tally_toInt_nonneg) hworking with hworking | hsignal
    · exact .inl (.inr hworking)
    · exact .inr hsignal

variable [DecidableEq ι] [DecidableEq κ]

omit [Fintype ι] [Fintype κ] in
theorem KeepInv.update (h : KeepInv body callers d pcs) (hkeep : d'.threadsKeepalive = true)
    (hleaving : next.leaving = false) (hstays : next.destroys = false)
    (htodo : next.todo ⊆ (pcs t).todo ∨ poolRole t = .thread ∧ ∃ work, next.todo = body work) :
    KeepInv body callers d' (Function.update pcs t next) where
  keepalive := hkeep
  leaving := (Function.forall_update_iff pcs fun _ p => p.leaving = false).mpr ⟨hleaving, fun u _ => h.leaving u⟩
  stays := (Function.forall_update_iff pcs fun _ p => p.destroys = false).mpr ⟨hstays, fun u _ => h.stays u⟩
  callers k := by
    by_cases hkt : .inr k = t
    · subst hkt
      rw [Function.update_self]
      rcases htodo with htodo | ⟨hrole, -⟩
      · exact List.Subset.trans htodo (h.callers k)
      · cases hrole
    · rw [Function.update_of_ne hkt]
      exact h.callers k
  jobs i := by
    by_cases hit : .inl i = t
    · subst hit
      rw [Function.update_self]
      intro call hcall
      rcases htodo with htodo | ⟨-, work, htodo⟩
      · exact h.jobs i call (htodo hcall)
      · exact ⟨work, htodo ▸ hcall⟩
    · rw [Function.update_of_ne hit]
      exact h.jobs i

/-- `threads_keepalive` stays set. -/
theorem keepInv_preserved (halive : KeepsAlive body callers) : Preserved (T := ι ⊕ κ) (poolCode body) poolHolds
    (fun d pcs _ => CountInv failed d pcs) (KeepInv body callers) where
  goes d pcs t next hc h hnext _ := by
    have hg := poolGoes_of_code hnext
    exact h.update h.keepalive (hg.leaving_eq.trans (h.leaving t)) (hg.destroys_eq.trans (h.stays t))
      (.inl hg.todo_subset)
  access d pcs t f d' next hc h _ hcode hf := by
    have ha := poolAccess_of_code hcode hf
    refine h.update ?_ ?_ (ha.destroys_of (h.stays t)) (hc.who_eq t ▸ ha.todo_cases)
    · rcases ha.keepalive_cases with hkeep | hkeep | hcall | hdestroys
      · exact hkeep.trans h.keepalive
      · exact hkeep
      · exact absurd hcall (h.not_otherPool halive t)
      · exact absurd ((h.stays t).symm.trans hdestroys) Bool.false_ne_true
    · rcases ha.leaving_cases with hleaving | hkeep
      · exact hleaving.trans (h.leaving t)
      · exact absurd (hkeep.symm.trans h.keepalive) Bool.false_ne_true

/-- Somebody comes for each job. -/
theorem pullInv_preserved : Preserved (T := ι ⊕ κ) (poolCode body) poolHolds
    (fun d pcs t => CallsWell d pcs t ∧ PoolInv failed d pcs ∧ KeepInv body callers d pcs) PullInv where
  goes d pcs t next hok h hnext _ hjobs := by
    have hg := poolGoes_of_code hnext
    rcases h hjobs with hv | ⟨u, hu⟩
    · exact .inl hv
    · by_cases hut : u = t
      · exact .inr ⟨t, by rw [Function.update_self]; exact hg.pulls_of (hut ▸ hu)⟩
      · exact .inr ⟨u, by rwa [Function.update_of_ne hut]⟩
  access d pcs t f d' next hok h hexcl hcode hf hjobs := by
    obtain ⟨-, hpool, hkeep⟩ := hok
    have ha := poolAccess_of_code hcode hf
    have hview' : .rwmutex ∈ poolHolds next → d'.jobqueue.View next := by
      have hv := (hpool.queue.access hpool.destroy hexcl ha).view t
      rwa [Function.update_self] at hv
    have hclear := hkeep.not_clearing t
    rcases ha.pulls_cases (hpool.queue.view t) hview' hkeep.keepalive hclear with hn | hv | hnil | ⟨hp, hv, heq⟩
    · exact .inr ⟨t, by rwa [Function.update_self]⟩
    · exact .inl hv
    · exact absurd hnil hjobs
    · rcases h (heq ▸ hjobs) with hv' | ⟨u, hu⟩
      · exact .inl (hv.trans hv')
      · have hut : u ≠ t := by
          rintro rfl
          exact Bool.false_ne_true (hp.symm.trans hu)
        exact .inr ⟨u, by rwa [Function.update_of_ne hut]⟩

omit [Fintype ι] [Fintype κ] in
/-- The semaphore: threads sleep on `has_jobs` while it is not posted. -/
theorem hasJobs_monitor {ok : PoolData J → (ι ⊕ κ → PoolPc J) → ι ⊕ κ → Prop} :
    Monitor (poolCode body) poolHolds ok .hasJobs .bsemMutex fun d _ => d.v = false where
  holds_wait p hp := by
    rw [waitsOn_hasJobs hp]
    exact List.mem_singleton_self _
  goes _ _ _ _ _ hb _ := hb
  access _ _ _ _ _ _ _ hb hcode hf := (poolAccess_of_code hcode hf).posts_cases hb
  not_goes p next hnext hw := (poolGoes_of_code hnext).not_wait.1 (waitsOn_hasJobs hw)
  enters _ _ _ _ _ _ _ hcode hf hw := by
    have ha := poolAccess_of_code hcode hf
    rw [waitsOn_hasJobs hw] at ha
    exact ha.sleep_v

/-- Callers sleep on `threads_all_idle` while the pool is busy. -/
theorem threadsAllIdle_monitor {ok : PoolData J → (ι ⊕ κ → PoolPc J) → ι ⊕ κ → Prop}
    (hok : ∀ d pcs t, ok d pcs t → PoolInv failed d pcs ∧ KeepInv body callers d pcs) :
    Monitor (poolCode body) poolHolds ok .threadsAllIdle .thcountLock PoolBusy where
  holds_wait p hp := by
    obtain ⟨cs, n, rfl⟩ := waitsOn_threadsAllIdle hp
    exact List.mem_singleton_self _
  goes _ _ _ _ _ hb _ := hb
  access d pcs t f d' next h hb hcode hf := by
    obtain ⟨hpool, hkeep⟩ := hok d pcs t h
    exact hpool.busy_access hkeep.not_clearing (poolAccess_of_code hcode hf) hb _
  not_goes p next hnext hw := by
    obtain ⟨cs, n, hw⟩ := waitsOn_threadsAllIdle hw
    exact (poolGoes_of_code hnext).not_wait.2 cs n hw
  enters d pcs t f d' next h hcode hf hw := by
    obtain ⟨hpool, hkeep⟩ := hok d pcs t h
    have ha := poolAccess_of_code hcode hf
    obtain ⟨cs, n, rfl⟩ := waitsOn_threadsAllIdle hw
    obtain ⟨rfl, hlen | hworking⟩ := ha.sleep_cases
    · exact hpool.busy_of_len hkeep.not_clearing hlen
    · exact .inr hworking

/-! ## A pool at rest -/

section Rest

variable {s : Threads (ι ⊕ κ) PoolMutex (PoolPc J) (PoolData J)}

theorem poolCode_stop {p : PoolPc J} (h : poolCode body p = .stop) :
    p = .exited ∨ p = .calls .done ∨ p = .destroyed := by
  cases p with
  | exited => exact .inl rfl
  | destroyed => exact .inr (.inr rfl)
  | calls program =>
    rcases poolCode_calls body program with ⟨rfl, -⟩ | ⟨f, hcode⟩
    · exact .inr (.inl rfl)
    · rw [hcode] at h
      cases h
  | _ => cases h

theorem poolCode_wait {p next : PoolPc J} {c : PoolCond} {m : PoolMutex} (h : poolCode body p = .wait c m next) :
    p = .bsemWaitSleep ∨ ∃ program n, p = .waitSleep program n := by
  cases c with
  | hasJobs => exact .inl (waitsOn_hasJobs (by rw [h]; rfl))
  | threadsAllIdle => exact .inr (waitsOn_threadsAllIdle (by rw [h]; rfl))

/-- The order in which mutexes are taken: `rwmutex` before that of the semaphore. -/
def PoolMutex.rank : PoolMutex → Nat
  | .bsemMutex => 1
  | _ => 0

theorem poolCode_lock {p next : PoolPc J} {m : PoolMutex} (h : poolCode body p = .lock m next) (m' : PoolMutex)
    (hm : m' ∈ poolHolds p) : m'.rank < m.rank := by
  cases p with
  | calls program => rcases poolCode_calls body program with ⟨-, hcode⟩ | ⟨f, hcode⟩ <;> rw [hcode] at h <;> cases h
  | pullPostLock who job => cases h; rw [List.mem_singleton.mp hm]; decide
  | pushPostLock program => cases h; rw [List.mem_singleton.mp hm]; decide
  | _ => cases h <;> cases hm

/-- Where the threads and callers are when none has a step. -/
theorem PoolInv.at_rest (h : PoolInv failed s.shared s.pc) (hkeep : KeepInv body callers s.shared s.pc)
    (hjobs : ∀ work, .wait ∉ body work) (hlock : LockInv (poolCode body) poolHolds s) (hs : s.Stuck (poolCode body)) :
    (∀ i, s.place (.inl i) = .asleep .bsemWaitSleep) ∧ ∀ k, s.place (.inr k) = .ready (.calls .done) ∨
      ∃ program n, s.place (.inr k) = .asleep (.waitSleep program n) := by
  have hfault : s.NoFault (poolCode body) := fun t p f ht hcode =>
    h.access_ok (t := t) (by rw [show s.pc t = p from congrArg Place.pc ht]; exact hcode)
  have hrest := hlock.stuck poolNested (fun m => show m.rank < 2 by cases m <;> decide)
    (fun p m next hcode => poolCode_lock hcode) hfault hs
  constructor
  · intro i
    have hwho := h.counts.who_eq (.inl i)
    have hleaving := hkeep.leaving (.inl i)
    have htodo := hkeep.jobs i .wait
    rcases hrest (.inl i) with ⟨p, hp, hcode⟩ | ⟨p, hp, c, m, next, hcode⟩
    · rw [show s.pc (.inl i) = p from congrArg Place.pc hp] at hwho hleaving
      rcases poolCode_stop hcode with rfl | rfl | rfl
      · cases hleaving
      · cases hwho
      · cases hwho
    · rw [show s.pc (.inl i) = p from congrArg Place.pc hp] at htodo
      rcases poolCode_wait hcode with rfl | ⟨program, n, rfl⟩
      · exact hp
      · obtain ⟨work, hwork⟩ := htodo List.mem_cons_self
        exact absurd hwork (hjobs work)
  · intro k
    have hwho := h.counts.who_eq (.inr k)
    have hdestroying := hkeep.not_destroying (.inr k)
    rcases hrest (.inr k) with ⟨p, hp, hcode⟩ | ⟨p, hp, c, m, next, hcode⟩
    · rw [show s.pc (.inr k) = p from congrArg Place.pc hp] at hwho hdestroying
      rcases poolCode_stop hcode with rfl | rfl | rfl
      · cases hwho
      · exact .inl hp
      · cases hdestroying
    · rw [show s.pc (.inr k) = p from congrArg Place.pc hp] at hwho
      rcases poolCode_wait hcode with rfl | ⟨program, n, rfl⟩
      · cases hwho
      · exact .inr ⟨program, n, hp⟩

omit [Fintype ι] [Fintype κ] [DecidableEq ι] [DecidableEq κ] in
/-- Nobody is about to wake a sleeper. -/
theorem not_notifies_at_rest (hinl : ∀ i, s.place (.inl i) = .asleep .bsemWaitSleep)
    (hinr : ∀ k, s.place (.inr k) = .ready (.calls .done) ∨
      ∃ program n, s.place (.inr k) = .asleep (.waitSleep program n))
    (c : PoolCond) : ¬∃ t p, s.place t = .ready p ∧ (poolCode body p).Notifies c := by
  rintro ⟨t, p, hp, hn⟩
  cases t with
  | inl i => cases (hinl i).symm.trans hp
  | inr k =>
    rcases hinr k with hk | ⟨program, n, hk⟩
    · cases hk.symm.trans hp
      cases hn
    · cases hk.symm.trans hp

omit [DecidableEq ι] [DecidableEq κ] in
/-- **A pool at rest has run its jobs.** -/
theorem PoolInv.done_at_rest (h : PoolInv failed s.shared s.pc) (hkeep : KeepInv body callers s.shared s.pc)
    (hpull : PullInv s.shared s.pc)
    (hwakes : Wakes (poolCode body) .hasJobs (fun t : ι ⊕ κ => poolRole t = .thread) (fun d _ => d.v = false) s)
    (hinl : ∀ i, s.place (.inl i) = .asleep .bsemWaitSleep)
    (hinr : ∀ k, s.place (.inr k) = .ready (.calls .done) ∨
      ∃ program n, s.place (.inr k) = .asleep (.waitSleep program n)) :
    ¬PoolBusy s.shared s.pc ∧ s.shared.finished.Perm s.shared.jobqueue.submitted := by
  have hrests : ∀ t, (s.pc t).pulls = false ∧ (s.pc t).working = false := by
    intro t
    cases t with
    | inl i =>
      rw [show s.pc (.inl i) = _ from congrArg Place.pc (hinl i)]
      exact ⟨rfl, rfl⟩
    | inr k =>
      rcases hinr k with hk | ⟨program, n, hk⟩
      · rw [show s.pc (.inr k) = _ from congrArg Place.pc hk]
        exact ⟨rfl, rfl⟩
      · have hwho := h.counts.who_eq (.inr k)
        rw [show s.pc (.inr k) = _ from congrArg Place.pc hk] at hwho ⊢
        exact ⟨rfl, decide_eq_false fun hthread => Puller.noConfusion (hthread.symm.trans hwho)⟩
  have hv : s.shared.v = false := by
    refine (hwakes.asleep fun t ht => ?_).resolve_right (not_notifies_at_rest hinl hinr _)
    cases t with
    | inl i => rw [hinl]; rfl
    | inr k => cases ht
  have hjobs : s.shared.jobqueue.jobs = [] := by
    by_contra hne
    rcases hpull hne with hv' | ⟨t, ht⟩
    · exact Bool.false_ne_true (hv.symm.trans hv')
    · exact Bool.false_ne_true ((hrests t).1.symm.trans ht)
  refine ⟨?_, ?_⟩
  · rintro (hne | hne)
    · exact hne hjobs
    · exact hne (h.counts.working_eq.trans (tally_toInt_eq_zero.mpr fun t => (hrests t).2))
  · have hperm := h.jobs.perm h.queue hjobs (tally_eq_zero fun t => PoolPc.carries_of_not_working (hrests t).2)
    have hdropped : s.shared.jobqueue.takenBy .clear = [] := by
      rw [List.eq_nil_iff_forall_not_mem]
      intro x hx
      obtain ⟨t, ht⟩ := h.jobs.dropped x (JobQueue.mem_takenBy.mp hx)
      exact Bool.false_ne_true ((hkeep.not_clearing t).symm.trans ht)
    rwa [hdropped, List.append_nil] at hperm

end Rest

/-! ## Runs -/

section Runs

variable {creator : κ} {as : List (Action (ι ⊕ κ))}

omit [Fintype κ] [DecidableEq ι] in
theorem keepInv_poolInit (halive : KeepsAlive body callers) (failed : Nat) (creator : κ) :
    KeepInv body callers (poolInit ι κ failed creator callers).shared (poolInit ι κ failed creator callers).pc where
  keepalive := rfl
  leaving := poolInit_places failed creator callers (fun _ p => p.leaving = false) (fun _ => rfl) (fun _ => rfl)
    fun _ => rfl
  stays := poolInit_places failed creator callers (fun _ p => p.destroys = false) (fun _ => rfl)
    (fun k => (halive.callers k).1) fun k => (halive.callers k).1
  callers k := poolInit_places failed creator callers (fun t p => ∀ k, t = .inr k → p.todo ⊆ (callers k).calls)
    (fun _ _ hk => by cases hk) (fun _ _ hk => by cases hk; exact List.Subset.refl _)
    (fun _ _ hk => by cases hk; exact List.Subset.refl _) (.inr k) k rfl
  jobs i call hcall := absurd hcall List.not_mem_nil

omit [Fintype κ] [DecidableEq ι] in
theorem poolInit_place (failed : Nat) (creator : κ) (callers : κ → PoolCaller J) (t : ι ⊕ κ) :
    (poolInit ι κ failed creator callers).place t = .ready ((poolInit ι κ failed creator callers).pc t) := by
  cases t <;> rfl

omit [Fintype κ] [DecidableEq ι] in
/-- Nobody sleeps in a new pool. -/
theorem wakes_poolInit {c : PoolCond} {group : ι ⊕ κ → Prop} {busy : PoolData J → (ι ⊕ κ → PoolPc J) → Prop}
    (hgroup : ∃ t, group t) (failed : Nat) (creator : κ) (callers : κ → PoolCaller J) :
    Wakes (poolCode body) c group busy (poolInit ι κ failed creator callers) where
  ready t p ht hw := by
    cases (poolInit_place failed creator callers t).symm.trans ht
    refine absurd hw (poolInit_places failed creator callers (fun _ p => ¬(poolCode body p).WaitsOn c) (fun _ => id)
      (fun _ => id) (fun k => ?_) t)
    rcases poolCode_calls body (callers k).program with ⟨-, hcode⟩ | ⟨f, hcode⟩ <;> rw [hcode] <;> exact id
  asleep hall := by
    obtain ⟨t, ht⟩ := hgroup
    have hsleeps := hall t ht
    rw [poolInit_place] at hsleeps
    cases hsleeps

/-- Without a caller that destroys the pool, a short run calls it well. -/
theorem poolContract_of_keepsAlive (halive : KeepsAlive body callers) (has : as.length < 2 ^ 31) :
    PoolContract body ι failed creator callers as := by
  have hI : Preserved (poolCode body) poolHolds (fun _ _ _ => True) fun d (pcs : ι ⊕ κ → PoolPc J) =>
      CountInv failed d pcs ∧ KeepInv body callers d pcs :=
    countInv_preserved.and ((keepInv_preserved halive).mono fun _ _ _ h => h.2)
  refine poolContract_of_short hI
    ⟨countInv_poolInit failed creator callers, keepInv_poolInit halive failed creator⟩ ?_ has
  rintro d pcs t ⟨-, hkeep⟩ _ hp
  have hstays := hkeep.stays t
  rw [hp] at hstays
  cases hstays

/-- What holds of a pool whose threads stay in their loop. -/
theorem progress_preserved (halive : KeepsAlive body callers) :
    Preserved (T := ι ⊕ κ) (poolCode body) poolHolds CallsWell
      fun d pcs => (PoolInv failed d pcs ∧ KeepInv body callers d pcs) ∧ PullInv d pcs :=
  (poolInv_preserved.and ((keepInv_preserved halive).mono fun _ _ _ h => h.2.counts)).and pullInv_preserved

omit [DecidableEq ι] in
theorem progress_poolInit (halive : KeepsAlive body callers) (failed : Nat) (creator : κ) :
    (PoolInv failed (poolInit ι κ failed creator callers).shared (poolInit ι κ failed creator callers).pc ∧
      KeepInv body callers (poolInit ι κ failed creator callers).shared (poolInit ι κ failed creator callers).pc) ∧
    PullInv (poolInit ι κ failed creator callers).shared (poolInit ι κ failed creator callers).pc :=
  ⟨⟨poolInv_poolInit failed creator callers, keepInv_poolInit halive failed creator⟩, fun h => absurd rfl h⟩

/-- No post of the semaphore is lost. -/
theorem hasJobs_always [Nonempty ι] (hok : PoolContract body ι failed creator callers as)
    (halive : KeepsAlive body callers) :
    Always (Threads.step (poolCode body)) (fun s => LockInv (poolCode body) poolHolds s ∧
      ((PoolInv failed s.shared s.pc ∧ KeepInv body callers s.shared s.pc) ∧ PullInv s.shared s.pc) ∧
      Wakes (poolCode body) .hasJobs (fun t : ι ⊕ κ => poolRole t = .thread) (fun d _ => d.v = false) s)
    (poolInit ι κ failed creator callers) as := by
  have hgroup : ∃ t : ι ⊕ κ, poolRole t = .thread := ⟨.inl (Classical.arbitrary ι), rfl⟩
  refine hasJobs_monitor.always poolNested (progress_preserved halive) hgroup ?_
    (lockInv_poolInit failed creator callers) (progress_poolInit halive failed creator)
    (wakes_poolInit hgroup failed creator callers) hok
  rintro d pcs ⟨⟨h, -⟩, -⟩ t hw
  rw [← h.counts.who_eq t, waitsOn_hasJobs hw]
  rfl

/-- **No job is left behind.** The semaphore is binary and each signal wakes one thread, and yet: in every interleaving
of a pool with a thread that is called well, in which `threads_keepalive` stays set and no job waits for its own pool,
the pool comes to rest only when each job has been run once, its threads wait for more, and the callers have made their
calls or sleep in `thpool_wait`. -/
theorem pool_quiescent [Nonempty ι] (hok : PoolContract body ι failed creator callers as)
    (halive : KeepsAlive body callers) (hjobs : ∀ work, .wait ∉ body work) :
    Always (Threads.step (poolCode body))
      (fun s => s.Stuck (poolCode body) → (∀ i, s.place (.inl i) = .asleep .bsemWaitSleep) ∧
        (∀ k, s.place (.inr k) = .ready (.calls .done) ∨
          ∃ program n, s.place (.inr k) = .asleep (.waitSleep program n)) ∧
        s.shared.finished.Perm s.shared.jobqueue.submitted)
      (poolInit ι κ failed creator callers) as := by
  refine (hasJobs_always hok halive).mono ?_
  rintro s ⟨hlock, ⟨⟨h, hkeep⟩, hpull⟩, hwakes⟩ hs
  obtain ⟨hinl, hinr⟩ := h.at_rest hkeep hjobs hlock hs
  exact ⟨hinl, hinr, (h.done_at_rest hkeep hpull hwakes hinl hinr).2⟩

/-- A thread and a caller that adds a job, which adds another: after them the thread sleeps. -/
theorem pool_quiescent_run :
    (run (Threads.step (poolCode addsEight)) (poolInit Unit Unit 0 () fun _ => ⟨[.addWork 7 true], false⟩)
      (byTurns [(3, 13), (62, 0)])).map (fun s => (s.place (.inl ()), s.place (.inr ()), s.shared.finished)) =
      some (.asleep .bsemWaitSleep, .ready (.calls .done), [(0, 7), (1, 8)]) ∧
    Always (Threads.step (poolCode addsEight))
      (fun s => s.Stuck (poolCode addsEight) → (∀ i, s.place (.inl i) = .asleep .bsemWaitSleep) ∧
        (∀ k, s.place (.inr k) = .ready (.calls .done) ∨
          ∃ program n, s.place (.inr k) = .asleep (.waitSleep program n)) ∧
        s.shared.finished.Perm s.shared.jobqueue.submitted)
      (poolInit Unit Unit 0 () fun _ => ⟨[.addWork 7 true], false⟩) (byTurns [(3, 13), (62, 0)]) :=
  ⟨by decide +kernel, pool_quiescent (poolContract_of_subsingleton (by decide))
    ⟨fun _ => ⟨rfl, by decide⟩, fun n => by unfold addsEight; split <;> simp⟩
    fun n => by unfold addsEight; split <;> simp⟩

/-- A job that waits for its own pool: the thread sleeps in it, with nobody to wake it. -/
example :
    (run (Threads.step (poolCode fun _ => [.wait])) (poolInit Unit Unit 0 () fun _ => ⟨[.addWork 7 true], false⟩)
      (byTurns [(3, 13), (22, 0)])).map (fun s => (s.place (.inl ()), s.place (.inr ()))) =
      some (.asleep (.waitSleep ⟨[], .job 0 7⟩ 1), .ready (.calls .done)) := by
  decide +kernel

/-- **One caller that waits is woken.** If in such a pool no other caller calls `thpool_wait`, it comes to rest only
when all calls have returned and each job has been run once. -/
theorem pool_waiter_wakes [Nonempty ι] (hok : PoolContract body ι failed creator callers as)
    (halive : KeepsAlive body callers) (hjobs : ∀ work, .wait ∉ body work) (w : κ)
    (hw : ∀ k, k ≠ w → .wait ∉ (callers k).calls) :
    Always (Threads.step (poolCode body))
      (fun s => s.Stuck (poolCode body) → (∀ k, s.place (.inr k) = .ready (.calls .done)) ∧
        s.shared.finished.Perm s.shared.jobqueue.submitted)
      (poolInit ι κ failed creator callers) as := by
  have hwaits : ∀ d (pcs : ι ⊕ κ → PoolPc J),
      (PoolInv failed d pcs ∧ KeepInv body callers d pcs) ∧ PullInv d pcs → ∀ t,
      (poolCode body (pcs t)).WaitsOn .threadsAllIdle → t = .inr w := by
    rintro d pcs ⟨⟨-, hkeep⟩, -⟩ t ht
    obtain ⟨program, n, hp⟩ := waitsOn_threadsAllIdle ht
    have hmem : .wait ∈ (pcs t).todo := by
      rw [hp]
      exact List.mem_cons_self
    cases t with
    | inl i =>
      obtain ⟨work, hwork⟩ := hkeep.jobs i _ hmem
      exact absurd hwork (hjobs work)
    | inr k =>
      by_contra hne
      exact hw k (fun heq => hne (congrArg Sum.inr heq)) (hkeep.callers k hmem)
  have hgroup : ∃ t : ι ⊕ κ, t = .inr w := ⟨_, rfl⟩
  have hidle := (threadsAllIdle_monitor fun _ _ _ h => h.2.1).always poolNested (progress_preserved halive) hgroup
    hwaits (lockInv_poolInit failed creator callers) (progress_poolInit halive failed creator)
    (wakes_poolInit hgroup failed creator callers) hok
  refine ((hasJobs_always hok halive).and hidle).mono ?_
  rintro s ⟨⟨hlock, ⟨⟨h, hkeep⟩, hpull⟩, hwakes⟩, -, -, hidle⟩ hs
  obtain ⟨hinl, hinr⟩ := h.at_rest hkeep hjobs hlock hs
  obtain ⟨hbusy, hdone⟩ := h.done_at_rest hkeep hpull hwakes hinl hinr
  refine ⟨fun k => (hinr k).resolve_right ?_, hdone⟩
  rintro ⟨program, n, hk⟩
  -- the caller that sleeps is `w`, and nobody is about to wake it
  obtain rfl := Sum.inr.inj (hwaits _ _ ⟨⟨h, hkeep⟩, hpull⟩ (.inr k) (by rw [Threads.pc, hk]; rfl))
  rcases hidle.asleep (by rintro t rfl; rw [hk]; rfl) with hb | hn
  · exact hbusy hb
  · exact not_notifies_at_rest hinl hinr _ hn

/-- One thread runs one job and wakes `waiter`, which goes on; the callers have `n` and 4 steps before. -/
def wakeSchedule (n : Nat) (waiter : Bool) : List (Action (Unit ⊕ Bool)) :=
  List.flatten [steps 3 (.inl ()), steps n (.inr true), steps 4 (.inr false), steps 21 (.inl ()),
    [.run (.inl ()) (some (.inr waiter))], steps 5 (.inl ()), steps 4 (.inr waiter)]

/-- A caller that waits while another adds a job: it sleeps, and is woken. -/
theorem pool_waiter_wakes_run :
    (run (Threads.step (poolCode addsEight))
      (poolInit Unit Bool 0 true fun k => ⟨if k then [.addWork 9 true] else [.wait], false⟩)
      (wakeSchedule 13 false)).map (fun s => (s.place (.inr true), s.place (.inr false))) =
      some (.ready (.calls .done), .ready (.calls .done)) ∧
    Always (Threads.step (poolCode addsEight))
      (fun s => s.Stuck (poolCode addsEight) → (∀ k, s.place (.inr k) = .ready (.calls .done)) ∧
        s.shared.finished.Perm s.shared.jobqueue.submitted)
      (poolInit Unit Bool 0 true fun k => ⟨if k then [.addWork 9 true] else [.wait], false⟩)
      (wakeSchedule 13 false) := by
  have halive : KeepsAlive addsEight fun k : Bool => ⟨if k then [.addWork 9 true] else [.wait], false⟩ :=
    ⟨fun k => ⟨rfl, by cases k <;> decide⟩, fun n => by unfold addsEight; split <;> simp⟩
  exact ⟨by decide +kernel, pool_waiter_wakes (poolContract_of_keepsAlive halive (by decide)) halive
    (fun n => by unfold addsEight; split <;> simp) false (fun k => by cases k <;> decide)⟩

/-- Two callers that wait: the last thread at work wakes one of them, and the other sleeps on. -/
example :
    (run (Threads.step (poolCode addsEight))
      (poolInit Unit Bool 0 true fun k => ⟨if k then [.addWork 9 true, .wait] else [.wait], false⟩)
      (wakeSchedule 17 true)).map (fun s => (s.place (.inl ()), s.place (.inr true), s.place (.inr false))) =
      some (.asleep .bsemWaitSleep, .ready (.calls .done), .asleep (.waitSleep .done 1)) := by
  decide +kernel

end Runs

end Inv

end Libcp2p

import Libcp2p.ThreadPool.Safety

/-!
# Waiting for the jobs of a pool

`thpool_wait` reads the length of the queue and the number of threads at work under `thcount_lock`, which guards the
second but not the first. A thread is counted before it takes a job and uncounted after it has run it, so that the two
readings together are still enough.

`pool_wait`: when `thpool_wait` is about to return, every job that was in the queue before the call has been run. A job
that calls it on its own pool never gets there, being at work itself.
-/

namespace Libcp2p

variable {J : Type}

/-- The number of jobs submitted before the call of `thpool_wait` that a caller is in. -/
def PoolPc.waitsFor : PoolPc J → Option Nat
  | .waitLock _ n | .waitLen _ n | .waitWorking _ n | .waitSleep _ n | .waitUnlock _ n => some n
  | _ => none

section Places

variable {body : J → List (PoolCall J)} {p next : PoolPc J} {q : JobQueue J} {d d' : PoolData J}

/-- Whoever waits does not clear the queue, and has not left. -/
theorem PoolPc.of_waitsFor {n : Nat} (h : p.waitsFor = some n) :
    p.clearing = false ∧ p.left = false ∧ p ≠ .calls .done := by
  cases p with
  | calls program => cases h
  | _ => first | exact ⟨rfl, rfl, nofun⟩ | cases h

theorem PoolGoes.waitsFor_of (h : PoolGoes p next) {n : Nat} (hn : next.waitsFor = some n) : p.waitsFor = some n := by
  cases h <;> first | exact hn | cases hn

theorem PoolGoes.not_found (h : PoolGoes p next) (program : PoolProgram J) (n : Nat) :
    next ≠ .waitWorking program n ∧ next ≠ .waitUnlock program n := by
  cases h <;> exact ⟨nofun, nofun⟩

/-- Whoever waits has begun to when so many jobs were submitted. -/
theorem PoolAccess.waitsFor_of (h : PoolAccess body p d next d') {n : Nat} (hn : next.waitsFor = some n) :
    p.waitsFor = some n ∨ n = d.jobqueue.submitted.length := by
  cases h with
  | wait h => exact .inr (Option.some.inj hn).symm
  | queue h => cases h <;> cases hn
  | free h => cases h <;> cases hn
  | _ => exact .inl hn

theorem PoolAccess.waitWorking_cases {program : PoolProgram J} {n : Nat}
    (h : PoolAccess body p d (.waitWorking program n) d') :
    p.waitsFor = some n ∧ d' = d ∧ d.jobqueue.len = 0 := by
  cases h with
  | waitNoJobs h => exact ⟨rfl, rfl, h⟩
  | queue h => cases h
  | free h => cases h

theorem PoolAccess.waitUnlock_cases {program : PoolProgram J} {n : Nat}
    (h : PoolAccess body p d (.waitUnlock program n) d') :
    p = .waitWorking program n ∧ d' = d ∧ d.numThreadsWorking = 0 := by
  cases h with
  | waitDone h => exact ⟨rfl, rfl, h⟩
  | queue h => cases h
  | free h => cases h

theorem PoolAccess.finished_mono (h : PoolAccess body p d next d') : d.finished <+: d'.finished := by
  cases h with
  | returns => exact List.prefix_append ..
  | _ => exact List.prefix_rfl

/-- A thread that is not counted as working carries no job. -/
theorem PoolPc.carries_of_not_working (h : p.working = false) : p.carries = 0 := by
  have hpull : ∀ {who : Puller}, decide (who = .thread) = false → ∀ job, who.carries job = 0 := by
    intro who hwho job
    cases who with
    | thread => cases hwho
    | clear => rfl
  have hlast : ∀ {last : PoolEnd J}, decide (last.who = .thread) = false → last.held = 0 := by
    intro last hwho
    cases last with
    | caller destroys => rfl
    | job a work => cases hwho
  cases p <;> first | rfl | exact hpull h _ | exact hlast h | cases h

/-- A queue of length 0 is empty, also in the middle of an operation. -/
theorem JobQueue.View.jobs_eq_nil (h : q.View p) (hlen : q.len = 0) : q.jobs = [] := by
  have hlength : ∀ {n : Nat}, q.len = q.jobs.length + n → q.jobs = [] := fun hn =>
    List.length_eq_zero_iff.mp (by omega)
  cases p with
  | pullSwitch who job => exact JobQueue.jobs_eq_nil h.1 hlen
  | pullFrontNull who job => exact JobQueue.jobs_eq_nil h.1 hlen
  | pullNext who job => exact JobQueue.jobs_eq_nil h.1 hlen
  | pullRearNull who job => exact h.1
  | pullLenZero who job => exact h.1
  | pullDec who job => exact hlength (n := 1) h.2
  | pushSwitch a work program => exact JobQueue.jobs_eq_nil h.1 hlen
  | pushFront a work program => exact JobQueue.jobs_eq_nil h.1 hlen
  | pushLink a work program => exact JobQueue.jobs_eq_nil h.1 hlen
  | pushRear a work program => exact hlength (n := 0) h.2
  | pushInc a work program => exact hlength (n := 0) h.2
  | _ => exact JobQueue.jobs_eq_nil h hlen

end Places

section Inv

variable {ι κ : Type} [Fintype ι] [Fintype κ]

/-- What the callers that wait have found out. -/
structure WaitInv (d : PoolData J) (pcs : ι ⊕ κ → PoolPc J) : Prop where
  before : ∀ t n, (pcs t).waitsFor = some n → n ≤ d.jobqueue.submitted.length
  taken : ∀ t program n, pcs t = .waitWorking program n → n ≤ d.jobqueue.taken.length
  done : ∀ t program n, pcs t = .waitUnlock program n → ∀ x ∈ d.jobqueue.submitted.take n, x ∈ d.finished

variable {body : J → List (PoolCall J)} {failed : Nat} {q : JobQueue J} {d d' : PoolData J} {pcs : ι ⊕ κ → PoolPc J}
  {t : ι ⊕ κ} {next : PoolPc J}

theorem QueueInv.jobs_eq_nil (h : QueueInv q pcs) (hlen : q.len = 0) : q.jobs = [] := by
  by_cases hall : ∀ t, .rwmutex ∉ poolHolds (pcs t)
  · exact JobQueue.jobs_eq_nil (h.settled hall) hlen
  · obtain ⟨t, ht⟩ := not_forall_not.mp hall
    exact (h.view t ht).jobs_eq_nil hlen

/-- Without threads at work, no thread carries a job. -/
theorem CountInv.carries_eq_zero (h : CountInv failed d pcs) (hworking : d.numThreadsWorking = 0) :
    tally PoolPc.carries pcs = 0 :=
  tally_eq_zero fun t =>
    PoolPc.carries_of_not_working (tally_toInt_eq_zero.mp (h.working_eq.symm.trans hworking) t)

/-- While somebody waits, no job has been dropped. -/
theorem PoolInv.not_dropped (h : PoolInv failed d pcs) {n : Nat} (hn : (pcs t).waitsFor = some n) (x : Nat × J) :
    (.clear, x) ∉ d.jobqueue.taken := by
  intro hx
  obtain ⟨u, hu⟩ := h.jobs.dropped x hx
  obtain ⟨hclearing, hleft, hdone⟩ := PoolPc.of_waitsFor hn
  have hut : u ≠ t := by
    rintro rfl
    exact Bool.false_ne_true (hclearing.symm.trans hu)
  cases t with
  | inl i => exact Bool.false_ne_true (hleft.symm.trans (h.destroy.left u hu i))
  | inr k => exact hdone (h.destroy.alone u (PoolPc.clearing_destroying hu) k hut.symm)

variable [DecidableEq ι] [DecidableEq κ]

omit [Fintype ι] [Fintype κ] in
/-- A thread or caller that goes on leaves the others with what they have found out. -/
theorem WaitInv.update (h : WaitInv d pcs) (hsub : d.jobqueue.submitted <+: d'.jobqueue.submitted)
    (htaken : d.jobqueue.taken <+: d'.jobqueue.taken) (hfinished : d.finished <+: d'.finished)
    (hbefore : ∀ n, next.waitsFor = some n → n ≤ d'.jobqueue.submitted.length)
    (hworking : ∀ program n, next = .waitWorking program n → n ≤ d'.jobqueue.taken.length)
    (hdone : ∀ program n, next = .waitUnlock program n → ∀ x ∈ d'.jobqueue.submitted.take n, x ∈ d'.finished) :
    WaitInv d' (Function.update pcs t next) where
  before := (Function.forall_update_iff pcs fun _ p => ∀ n, p.waitsFor = some n →
    n ≤ d'.jobqueue.submitted.length).mpr ⟨hbefore, fun u _ n hn => (h.before u n hn).trans hsub.length_le⟩
  taken := (Function.forall_update_iff pcs fun _ p => ∀ program n, p = .waitWorking program n →
    n ≤ d'.jobqueue.taken.length).mpr
    ⟨hworking, fun u _ program n hu => (h.taken u program n hu).trans htaken.length_le⟩
  done := by
    refine (Function.forall_update_iff pcs fun _ p => ∀ program n, p = .waitUnlock program n →
      ∀ x ∈ d'.jobqueue.submitted.take n, x ∈ d'.finished).mpr ⟨hdone, fun u _ program n hu x hx => ?_⟩
    have hle := h.before u n (by rw [hu]; rfl)
    obtain ⟨l, hl⟩ := hsub
    rw [← hl, List.take_append_of_le_length hle] at hx
    exact hfinished.subset (h.done u program n hu x hx)

/-- What a caller that waits has found out is so. -/
theorem waitInv_preserved : Preserved (T := ι ⊕ κ) (poolCode body) poolHolds
    (fun d pcs t => CallsWell d pcs t ∧ PoolInv failed d pcs) WaitInv where
  goes d pcs t next hok h hnext _ := by
    have hg := poolGoes_of_code hnext
    refine h.update List.prefix_rfl List.prefix_rfl List.prefix_rfl (fun n hn => h.before t n (hg.waitsFor_of hn)) ?_ ?_
    · exact fun program n hn => absurd hn (hg.not_found program n).1
    · exact fun program n hn => absurd hn (hg.not_found program n).2
  access d pcs t f d' next hok h _ hcode hf := by
    have ha := poolAccess_of_code hcode hf
    have hpool := hok.2
    refine h.update ha.submitted_mono (ha.taken_mono (hpool.queue.view t)) ha.finished_mono ?_ ?_ ?_
    · intro n hn
      rcases ha.waitsFor_of hn with hp | rfl
      · exact (h.before t n hp).trans ha.submitted_mono.length_le
      · exact ha.submitted_mono.length_le
    · rintro program n rfl
      obtain ⟨hp, rfl, hlen⟩ := ha.waitWorking_cases
      have hsplit := congrArg List.length hpool.queue.split
      rw [hpool.queue.jobs_eq_nil hlen, List.append_nil, List.length_map] at hsplit
      exact hsplit ▸ h.before t n hp
    · rintro program n rfl x hx
      obtain ⟨hp, rfl, hworking⟩ := ha.waitUnlock_cases
      have htaken : n ≤ (d'.jobqueue.taken.map Prod.snd).length := by
        rw [List.length_map]
        exact h.taken t program n hp
      rw [hpool.queue.split, List.take_append_of_le_length htaken] at hx
      obtain ⟨⟨who, y⟩, hy, rfl⟩ := List.mem_map.mp (List.mem_of_mem_take hx)
      cases who with
      | clear => exact absurd hy (hpool.not_dropped (t := t) (n := n) (by rw [hp]; rfl) y)
      | thread =>
        refine hpool.jobs.mem_finished hpool.queue hy ?_
        rw [hpool.counts.carries_eq_zero hworking]
        exact Multiset.notMem_zero _

section Runs

variable {creator : κ} {callers : κ → PoolCaller J} {as : List (Action (ι ⊕ κ))}

omit [Fintype κ] [DecidableEq ι] in
theorem waitInv_poolInit (failed : Nat) (creator : κ) (callers : κ → PoolCaller J) :
    WaitInv (poolInit ι κ failed creator callers).shared (poolInit ι κ failed creator callers).pc where
  before := poolInit_places failed creator callers (fun _ p => ∀ n, p.waitsFor = some n → n ≤ 0) nofun nofun nofun
  taken := poolInit_places failed creator callers (fun _ p => ∀ program n, p = .waitWorking program n → n ≤ 0) nofun
    nofun nofun
  done t program n ht := absurd ht (poolInit_places failed creator callers (fun _ p => p ≠ .waitUnlock program n) nofun
    nofun nofun t)

/-- **`thpool_wait` waits for the jobs.** In every interleaving of a pool that is called well, whoever is about to
return from it finds that every job that was in the queue when it called has been run. -/
theorem pool_wait (hok : PoolContract body ι failed creator callers as) : Always (Threads.step (poolCode body))
    (fun s => ∀ t program n, s.pc t = .waitUnlock program n → n ≤ s.shared.jobqueue.submitted.length ∧
      ∀ x ∈ s.shared.jobqueue.submitted.take n, x ∈ s.shared.finished)
    (poolInit ι κ failed creator callers) as := by
  have h := (poolInv_preserved.and waitInv_preserved).always poolNested (lockInv_poolInit failed creator callers)
    ⟨poolInv_poolInit failed creator callers, waitInv_poolInit failed creator callers⟩ hok
  refine h.mono ?_
  rintro s ⟨-, -, h⟩ t program n ht
  exact ⟨h.before t n (by rw [ht]; rfl), h.done t program n ht⟩

/-- A thread and a caller that adds a job, which adds another, and waits for both. -/
theorem pool_wait_run :
    (run (Threads.step (poolCode addsEight)) (poolInit Unit Unit 0 () fun _ => ⟨[.addWork 7 true, .wait], false⟩)
      (byTurns [(3, 13), (58, 4)])).map (·.pc (.inr ())) = some (.waitUnlock .done 2) ∧
    Always (Threads.step (poolCode addsEight))
      (fun s => ∀ t program n, s.pc t = .waitUnlock program n → n ≤ s.shared.jobqueue.submitted.length ∧
        ∀ x ∈ s.shared.jobqueue.submitted.take n, x ∈ s.shared.finished)
      (poolInit Unit Unit 0 () fun _ => ⟨[.addWork 7 true, .wait], false⟩) (byTurns [(3, 13), (58, 4)]) :=
  ⟨by decide +kernel, pool_wait (poolContract_of_subsingleton (by decide))⟩

end Runs

end Inv

end Libcp2p

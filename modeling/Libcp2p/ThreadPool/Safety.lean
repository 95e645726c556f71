import Libcp2p.ThreadPool.Frees
import Libcp2p.ThreadPool.Jobs

/-!
# Safety of a pool

The counts, the queue, the jobs and the frees together are what holds of a pool (`PoolInv`), whatever the interleaving
and whatever its jobs call. Two things are asked of those who call it (`PoolContract`): a caller destroys the pool only
when every other caller has made its calls, and a job is added only while fewer than `INT_MAX` are in the queue or being
added, since `len` is an `int`.

An access faults if it reads, writes or frees a job that is not allocated, frees a block twice or overflows `len`. To
take or release a mutex is no access: the last unlock of a thread, after it has counted itself out, may come when the
pool has been freed.

* `pool_jobs_once`: no access faults, the queue is first in first out, and no job is run twice.
* `pool_destroyed`: after `thpool_destroy` no job is allocated, each was run or dropped, and the pool is freed.
-/

namespace Libcp2p

variable {J : Type}

section Inv

variable {ι κ : Type} [Fintype ι] [Fintype κ]

/-! ## Room in the queue -/

/-- The number of jobs in the queue or being added to it: those made and not yet taken. -/
def pendingJobs (q : JobQueue J) (pcs : ι ⊕ κ → PoolPc J) : Nat := Multiset.card (madeJobs q pcs) - q.taken.length

/-- What is asked of whoever adds a job: that there is room for it, `len` being an `int`. -/
def AddsInRoom (d : PoolData J) (pcs : ι ⊕ κ → PoolPc J) (t : ι ⊕ κ) : Prop :=
  d.initialised = true → ∀ work calls last, pcs t = .calls ⟨.addWork work true :: calls, last⟩ →
    pendingJobs d.jobqueue pcs + 1 < 2 ^ 31

/-- What is asked of callers and jobs. -/
structure CallsWell (d : PoolData J) (pcs : ι ⊕ κ → PoolPc J) (t : ι ⊕ κ) : Prop where
  alone : DestroysAlone d pcs t
  room : AddsInRoom d pcs t

variable {body : J → List (PoolCall J)} {failed : Nat} {q : JobQueue J} {d d' : PoolData J} {pcs : ι ⊕ κ → PoolPc J}
  {t : ι ⊕ κ} {next : PoolPc J}

/-- A job that is about to be counted finds room. -/
theorem pendingJobs_pushInc (h : QueueInv q pcs) {a : Nat} {work : J} {program : PoolProgram J}
    (hp : pcs t = .pushInc a work program) : q.len + 1 ≤ pendingJobs q pcs := by
  have hview := h.view t (by rw [hp]; exact List.mem_singleton_self _)
  rw [hp] at hview
  have hlen : q.len = q.jobs.length := hview.2
  have hpushing : 0 < Multiset.card (tally PoolPc.pushing pcs) := by
    refine Multiset.card_pos_iff_exists_mem.mpr ⟨(a, work), mem_tally (t := t) ?_⟩
    rw [hp]
    exact Multiset.mem_singleton_self _
  have hsplit := congrArg List.length h.split
  rw [List.length_append, List.length_map] at hsplit
  rw [pendingJobs, madeJobs, Multiset.card_add, Multiset.coe_card]
  omega

variable [DecidableEq ι] [DecidableEq κ]

/-- What an access does to the jobs that were made: it makes at most one. -/
theorem PoolAccess.madeJobs_cases (h : PoolAccess body (pcs t) d next d') :
    madeJobs d'.jobqueue (Function.update pcs t next) = madeJobs d.jobqueue pcs ∨
    (∃ x, madeJobs d'.jobqueue (Function.update pcs t next) = x ::ₘ madeJobs d.jobqueue pcs) ∧
      d.initialised = true ∧ ∃ work calls last, pcs t = .calls ⟨.addWork work true :: calls, last⟩ := by
  rcases h.queue_cases with ⟨q, hq, heq⟩ | ⟨work, calls, last, hi, hp, rfl, heq⟩ | hs
  · rw [heq]
    exact .inl (tally_exchange hq.made_eq)
  · rw [heq]
    exact .inr ⟨⟨_, madeJobs_alloc hp⟩, hi, work, calls, last, hp⟩
  · rw [hs.queue_eq, madeJobs, tally_update_of_eq hs.pushing_eq]
    exact .inl rfl

theorem PoolGoes.madeJobs_eq (h : PoolGoes (pcs t) next) :
    madeJobs q (Function.update pcs t next) = madeJobs q pcs := by
  rw [madeJobs, tally_update_of_eq h.pushing_eq]
  rfl

/-- Whoever adds a job in room keeps the room. -/
theorem AddsInRoom.access (hok : AddsInRoom d pcs t) (h : pendingJobs d.jobqueue pcs < 2 ^ 31)
    (hq : QueueInv d.jobqueue pcs) (ha : PoolAccess body (pcs t) d next d') :
    pendingJobs d'.jobqueue (Function.update pcs t next) < 2 ^ 31 := by
  have htaken := (ha.taken_mono (hq.view t)).length_le
  rw [pendingJobs] at h ⊢
  rcases ha.madeJobs_cases with hmade | ⟨⟨x, hmade⟩, hi, work, calls, last, hp⟩
  · rw [hmade]
    omega
  · have hroom := hok hi work calls last hp
    rw [pendingJobs] at hroom
    rw [hmade, Multiset.card_cons]
    omega

/-! ## The invariant -/

omit [DecidableEq ι] [DecidableEq κ] in
/-- What holds of a pool in every interleaving in which it is called well. -/
structure PoolInv (failed : Nat) (d : PoolData J) (pcs : ι ⊕ κ → PoolPc J) : Prop where
  counts : CountInv failed d pcs
  destroy : DestroyInv pcs
  frees : FreeInv d pcs
  queue : QueueInv d.jobqueue pcs
  jobs : JobInv d pcs
  room : pendingJobs d.jobqueue pcs < 2 ^ 31

theorem poolInv_preserved : Preserved (T := ι ⊕ κ) (poolCode body) poolHolds CallsWell (PoolInv failed) where
  goes d pcs t next hok h hnext hexcl := by
    have hg := poolGoes_of_code hnext
    refine ⟨countInv_preserved.goes d pcs t next hok h.counts hnext hexcl,
      destroyInv_preserved.goes d pcs t next ⟨hok.alone, h.counts⟩ h.destroy hnext hexcl,
      freeInv_preserved.goes d pcs t next ⟨h.destroy, h.counts⟩ h.frees hnext hexcl,
      queueInv_preserved.goes d pcs t next h.destroy h.queue hnext hexcl, h.jobs.goes hg, ?_⟩
    rw [pendingJobs, hg.madeJobs_eq]
    exact h.room
  access d pcs t f d' next hok h hexcl hcode hf :=
    ⟨countInv_preserved.access d pcs t f d' next hok h.counts hexcl hcode hf,
      destroyInv_preserved.access d pcs t f d' next ⟨hok.alone, h.counts⟩ h.destroy hexcl hcode hf,
      freeInv_preserved.access d pcs t f d' next ⟨h.destroy, h.counts⟩ h.frees hexcl hcode hf,
      queueInv_preserved.access d pcs t f d' next h.destroy h.queue hexcl hcode hf,
      h.jobs.access h.queue (poolAccess_of_code hcode hf),
      hok.room.access h.room h.queue (poolAccess_of_code hcode hf)⟩

omit [DecidableEq ι] [DecidableEq κ] in
/-- The cells that are allocated can be read. -/
theorem QueueInv.readable (h : QueueInv q pcs) {a : Nat} (ha : a ∈ (pcs t).owns ∨ a ∈ addrs q.jobs) :
    ∃ cell, q.heap.read a = some cell := by
  refine (h.owned.mem_iff a).mp (Multiset.mem_add.mpr ?_)
  rcases ha with ha | ha
  · exact .inl (mem_tally ha)
  · exact .inr ha

omit [DecidableEq ι] [DecidableEq κ] in
/-- No access faults. -/
theorem PoolInv.access_ok (h : PoolInv failed d pcs) {f : PoolData J → Except Fault (PoolData J × PoolPc J)}
    (hcode : poolCode body (pcs t) = .access f) : ∃ r, f d = .ok r := by
  have howns : ∀ {a}, a ∈ (pcs t).owns → ∃ cell, d.jobqueue.heap.read a = some cell := fun ha =>
    h.queue.readable (.inl ha)
  have hview := h.queue.view t
  have hfree : ∀ {block next}, FreeAccess d.threadsTotal (pcs t) block next →
      d.free block = .ok { d with freed := d.freed ++ [block] } := fun hb => h.frees.free_ok hb
  cases hp : pcs t with
  | pulled job =>
    rw [hp] at hcode howns
    cases hcode
    cases job with
    | none => exact ⟨_, rfl⟩
    | some a =>
      obtain ⟨cell, hr⟩ := howns (a := a) (by simp [PoolPc.owns, PoolPc.held])
      exact ⟨_, by rw [readJob, hr]⟩
  | freeJob a =>
    rw [hp] at hcode howns
    cases hcode
    obtain ⟨cell, hr⟩ := howns (a := a) (by simp [PoolPc.owns, PoolPc.held])
    exact queue_ok (JobQueue.freeJob_ok hr) _ _
  | clearFree job =>
    rw [hp] at hcode howns
    cases hcode
    cases job with
    | none => exact ⟨_, rfl⟩
    | some a =>
      obtain ⟨cell, hr⟩ := howns (a := a) (by simp [PoolPc.owns, PoolPc.held])
      exact queue_ok (JobQueue.freeJob_ok hr) _ _
  | pullNext who job =>
    rw [hp] at hcode hview
    cases hcode
    obtain ⟨hset, rfl, hlen, -⟩ := hview (by simp [poolHolds])
    obtain ⟨a, work, link, l, -, hfront, hr, -⟩ := hset.first hlen
    rw [hfront]
    exact queue_ok (JobQueue.advance_ok hr) _ _
  | pushPrev a work program =>
    rw [hp] at hcode howns
    cases hcode
    obtain ⟨cell, hr⟩ := howns (a := a) (by simp [PoolPc.owns, PoolPc.pushing])
    exact queue_ok (JobQueue.setPrev_ok hr) _ _
  | pushLink a work program =>
    rw [hp] at hcode hview
    cases hcode
    obtain ⟨hset, -, hlen⟩ := hview (by simp [poolHolds])
    obtain ⟨b, hrear, hb⟩ := hset.rear_mem hlen
    obtain ⟨cell, hr⟩ := h.queue.readable (t := t) (.inr hb)
    refine queue_ok ?_ _ _
    show ∃ q, JobQueue.setPrev d.jobqueue.rear (some a) d.jobqueue = .ok q
    rw [hrear]
    exact JobQueue.setPrev_ok hr
  | pushInc a work program =>
    have hroom := pendingJobs_pushInc h.queue hp
    have := h.room
    rw [hp] at hcode
    cases hcode
    exact queue_ok (JobQueue.inc_ok (by omega) work) _ _
  | freeHasJobs =>
    rw [hp] at hcode hfree
    cases hcode
    exact data_ok ⟨_, hfree .hasJobs⟩ _
  | freeThread n =>
    have htotal := (h.frees.frees t).total (by rw [hp]; rfl)
    rw [hp] at hcode hfree htotal
    cases hcode
    obtain ⟨-, hle⟩ := htotal.resolve_left fun heq => by cases heq
    by_cases hn : n < d.threadsTotal
    · obtain ⟨r, hr⟩ := data_ok ⟨_, (if_pos (hn.trans_le hle)).trans (hfree (.thread hn))⟩ (.freeThread (n + 1))
      exact ⟨r, (if_pos hn).trans hr⟩
    · exact ⟨_, if_neg hn⟩
  | freeThreads =>
    rw [hp] at hcode hfree
    cases hcode
    exact data_ok ⟨_, hfree .threads⟩ _
  | freePool =>
    rw [hp] at hcode hfree
    cases hcode
    exact data_ok ⟨_, hfree .pool⟩ _
  | initWait caller =>
    rw [hp] at hcode
    cases hcode
    by_cases halive : d.numThreadsAlive = d.numThreads
    · exact ⟨_, if_pos halive⟩
    · exact ⟨_, if_neg halive⟩
  | calls program =>
    rw [hp] at hcode
    obtain ⟨calls, last⟩ := program
    cases calls with
    | nil =>
      cases last with
      | caller destroys =>
        cases destroys with
        | false => cases hcode
        | true => cases hcode; exact ⟨_, rfl⟩
      | job a work => cases hcode; exact ⟨_, rfl⟩
    | cons call calls =>
      cases hcode
      by_cases hi : d.initialised = true
      · exact ⟨_, if_pos hi⟩
      · exact ⟨_, if_neg hi⟩
  | _ =>
    rw [hp] at hcode
    cases hcode <;> exact ⟨_, rfl⟩

/-! ## Runs -/

section Runs

variable {creator : κ} {callers : κ → PoolCaller J} {as : List (Action (ι ⊕ κ))}

/-- The pool is called well: a caller destroys it only when every other caller has made its calls, and a job is added
only while fewer than `INT_MAX` are in the queue or being added. -/
abbrev PoolContract (body : J → List (PoolCall J)) (ι : Type) [Fintype ι] [DecidableEq ι] (failed : Nat) (creator : κ)
    (callers : κ → PoolCaller J) (as : List (Action (ι ⊕ κ))) : Prop :=
  StepsOk (Threads.step (poolCode body)) (Threads.Ok CallsWell) (poolInit ι κ failed creator callers) as

omit [DecidableEq ι] in
theorem madeJobs_poolInit (failed : Nat) (creator : κ) (callers : κ → PoolCaller J) :
    madeJobs (poolInit ι κ failed creator callers).shared.jobqueue (poolInit ι κ failed creator callers).pc = 0 :=
  (add_zero _).trans (tally_eq_zero (poolInit_places failed creator callers (fun _ p => p.pushing = 0) (fun _ => rfl)
    (fun _ => rfl) fun _ => rfl))

omit [DecidableEq ι] in
theorem poolInv_poolInit (failed : Nat) (creator : κ) (callers : κ → PoolCaller J) :
    PoolInv failed (poolInit ι κ failed creator callers).shared (poolInit ι κ failed creator callers).pc where
  counts := countInv_poolInit failed creator callers
  destroy := destroyInv_poolInit failed creator callers
  frees := freeInv_poolInit failed creator callers
  queue := queueInv_poolInit failed creator callers
  jobs :=
    { accounted := ((add_zero _).trans (tally_eq_zero (poolInit_places failed creator callers (fun _ p => p.carries = 0)
        (fun _ => rfl) (fun _ => rfl) fun _ => rfl))).symm
      running := fun t a work hlast => absurd hlast (poolInit_places failed creator callers
        (fun _ p => p.program.last ≠ .job a work) nofun nofun nofun t)
      finished := nofun
      dropped := nofun }
  room := by
    rw [pendingJobs, madeJobs_poolInit]
    exact Nat.two_pow_pos 31

/-- What holds of a pool holds throughout. -/
theorem poolInv_always (hok : PoolContract body ι failed creator callers as) : Always (Threads.step (poolCode body))
    (fun s => LockInv (poolCode body) poolHolds s ∧ PoolInv failed s.shared s.pc)
    (poolInit ι κ failed creator callers) as :=
  poolInv_preserved.always poolNested (lockInv_poolInit failed creator callers)
    (poolInv_poolInit failed creator callers) hok

/-- A run of fewer than `INT_MAX` steps always finds room in the queue, for each step makes at most one job. -/
theorem poolContract_of_short {I : PoolData J → (ι ⊕ κ → PoolPc J) → Prop}
    (hI : Preserved (poolCode body) poolHolds (fun _ _ _ => True) I)
    (hinit : I (poolInit ι κ failed creator callers).shared (poolInit ι κ failed creator callers).pc)
    (halone : ∀ d pcs t, I d pcs → DestroysAlone d pcs t) (has : as.length < 2 ^ 31) :
    PoolContract body ι failed creator callers as := by
  refine stepsOk_of_count (I := fun s => LockInv (poolCode body) poolHolds s ∧ I s.shared s.pc)
    (m := fun s => Multiset.card (madeJobs s.shared.jobqueue s.pc)) (n := 2 ^ 31 - 1) ?_ ?_
    ⟨lockInv_poolInit failed creator callers, hinit⟩ ?_
  · rintro s a s' ⟨hlock, h⟩ hs
    have hs := Threads.steps_of_step hs
    have hok : s.Ok (fun _ _ _ => True) a := by cases a <;> trivial
    refine ⟨⟨hlock.step poolNested hs, hI.step poolNested hlock h hok hs⟩, ?_⟩
    rcases hs.pc_cases with ⟨hshared, hpc⟩ | ⟨t, next, hpc, ⟨hnext, hshared⟩ | ⟨f, hcode, hf⟩⟩
    · rw [hshared, hpc]
      omega
    · rw [hshared, hpc, (poolGoes_of_code hnext).madeJobs_eq]
      omega
    · rw [hpc]
      rcases (poolAccess_of_code hcode hf).madeJobs_cases with hmade | ⟨⟨x, hmade⟩, -⟩
      · rw [hmade]
        omega
      · rw [hmade, Multiset.card_cons]
  · rintro s a ⟨-, h⟩ hm
    cases a with
    | spurious t => trivial
    | run t wakes =>
      refine ⟨halone _ _ t h, fun _ _ _ _ _ => ?_⟩
      rw [pendingJobs]
      omega
  · rw [madeJobs_poolInit, Multiset.card_zero]
    omega

/-- A single caller is alone with the pool. -/
theorem poolContract_of_subsingleton [Subsingleton κ] (has : as.length < 2 ^ 31) :
    PoolContract body ι failed creator callers as := by
  refine poolContract_of_short countInv_preserved (countInv_poolInit failed creator callers) ?_ has
  intro d pcs t h _ hp k hk
  cases t with
  | inl i =>
    have hwho := h.who_eq (.inl i)
    rw [hp] at hwho
    cases hwho
  | inr k' => exact absurd (congrArg Sum.inr (Subsingleton.elim k k')) hk

/-- **Each job once, in order.** In every interleaving of the threads and callers of a pool that is called well, no
access faults, jobs leave the queue in the order in which they entered it, and no job is run twice or without having
been taken from the queue. -/
theorem pool_jobs_once (hok : PoolContract body ι failed creator callers as) : Always (Threads.step (poolCode body))
    (fun s => s.NoFault (poolCode body) ∧ s.shared.jobqueue.taken.map Prod.snd <+: s.shared.jobqueue.submitted ∧
      (s.shared.finished.map Prod.fst).Nodup ∧ ∀ x ∈ s.shared.finished, (.thread, x) ∈ s.shared.jobqueue.taken)
    (poolInit ι κ failed creator callers) as := by
  refine (poolInv_always hok).mono ?_
  rintro s ⟨-, h⟩
  refine ⟨?_, ?_, h.jobs.finished_nodup h.queue, fun x => h.jobs.mem_taken h.queue⟩
  · intro t p f ht hcode
    have hpc : s.pc t = p := congrArg Place.pc ht
    exact h.access_ok (hpc ▸ hcode)
  · conv_rhs => rw [h.queue.split]
    exact List.prefix_append ..

/-- One thread and one caller by turns, so many steps of each. -/
def byTurns : List (Nat × Nat) → List (Action (Unit ⊕ Unit))
  | [] => []
  | (n, m) :: turns => steps n (.inl ()) ++ steps m (.inr ()) ++ byTurns turns

/-- Jobs that are numbers: the function of job 7 adds job 8, the others call nothing. -/
def addsEight (n : Nat) : List (PoolCall Nat) := if n = 7 then [.addWork 8 true] else []

/-- A thread and a caller that adds a job, which adds another: to the end of both. -/
theorem pool_jobs_once_run :
    (run (Threads.step (poolCode addsEight)) (poolInit Unit Unit 0 () fun _ => ⟨[.addWork 7 true, .wait], true⟩)
      (byTurns [(3, 13), (53, 0)])).map (·.shared.finished) = some [(0, 7), (1, 8)] ∧
    Always (Threads.step (poolCode addsEight))
      (fun s => s.NoFault (poolCode addsEight) ∧
        s.shared.jobqueue.taken.map Prod.snd <+: s.shared.jobqueue.submitted ∧
        (s.shared.finished.map Prod.fst).Nodup ∧ ∀ x ∈ s.shared.finished, (.thread, x) ∈ s.shared.jobqueue.taken)
      (poolInit Unit Unit 0 () fun _ => ⟨[.addWork 7 true, .wait], true⟩) (byTurns [(3, 13), (53, 0)]) :=
  ⟨by decide +kernel, pool_jobs_once (poolContract_of_subsingleton (by decide))⟩

/-- A thread that has left its loop has no job. -/
theorem PoolPc.owns_of_left {p : PoolPc J} (h : p.left = true) : p.owns = 0 ∧ p.carries = 0 := by
  cases p with
  | exitUnlock => exact ⟨rfl, rfl⟩
  | exited => exact ⟨rfl, rfl⟩
  | _ => cases h

/-- **The end of a pool.** When `thpool_destroy` is done in some interleaving of a pool that is called well, every
thread has left its loop, the other callers have no call left, no job is allocated any more, each job that entered the
queue was run or dropped, once, and the blocks of the pool have been freed, each once, with the records of as many
threads as were alive when `thpool_destroy` began. -/
theorem pool_destroyed (hok : PoolContract body ι failed creator callers as) : Always (Threads.step (poolCode body))
    (fun s => ∀ k, s.pc (.inr k) = .destroyed → (∀ i, (s.pc (.inl i)).left = true) ∧
      (∀ k', k' ≠ k → s.pc (.inr k') = .calls .done) ∧ (∀ a, s.shared.jobqueue.heap.read a = none) ∧
      (s.shared.finished ++ s.shared.jobqueue.takenBy .clear).Perm s.shared.jobqueue.submitted ∧
      s.shared.freed = poolBlocks s.shared.threadsTotal.toNat ∧ s.shared.threadsTotal ≤ s.shared.numThreads)
    (poolInit ι κ failed creator callers) as := by
  refine (poolInv_always hok).mono ?_
  rintro s ⟨-, h⟩ k hk
  have hleft := h.destroy.left (.inr k) (by rw [hk]; rfl)
  have halone := h.destroy.alone (.inr k) (by rw [hk]; rfl)
  have hjobs : s.shared.jobqueue.jobs = [] := h.queue.cleared (.inr k) (by rw [hk]; rfl)
  have hnone : ∀ t, (s.pc t).owns = 0 ∧ (s.pc t).carries = 0 := by
    intro t
    cases t with
    | inl i => exact PoolPc.owns_of_left (hleft i)
    | inr k' =>
      by_cases hkk : k' = k
      · rw [hkk, hk]
        exact ⟨rfl, rfl⟩
      · rw [halone k' fun heq => hkk (Sum.inr.inj heq)]
        exact ⟨rfl, rfl⟩
  have hfrees := h.frees.frees (.inr k)
  rw [hk] at hfrees
  refine ⟨hleft, fun k' hne => halone k' fun heq => hne (Sum.inr.inj heq), fun a => ?_, ?_, ?_, ?_⟩
  · have hlive : liveJobs s.shared.jobqueue s.pc = 0 := by
      rw [liveJobs, tally_eq_zero fun t => (hnone t).1, hjobs]
      rfl
    cases hr : s.shared.jobqueue.heap.read a with
    | none => rfl
    | some cell =>
      have hmem := (h.queue.owned.mem_iff a).mpr ⟨cell, hr⟩
      rw [hlive] at hmem
      cases hmem
  · exact h.jobs.perm h.queue hjobs (tally_eq_zero fun t => (hnone t).2)
  · rw [hfrees.freed rfl]
    exact List.take_of_length_le (length_poolBlocks _).le
  · exact ((hfrees.total rfl).resolve_left fun heq => by cases heq).2

/-- A pool that is destroyed before its thread has come to the job: the job is dropped. The thread, which is no longer
counted, has still to unlock `thcount_lock`, a mutex of the pool that has been freed. -/
theorem pool_destroyed_run :
    (run (Threads.step (poolCode addsEight)) (poolInit Unit Unit 0 () fun _ => ⟨[.addWork 7 true], true⟩)
      (byTurns [(3, 16), (3, 20)])).map
        (fun s => (s.pc (.inl ()), s.pc (.inr ()), s.shared.finished, s.shared.freed)) =
      some (.exitUnlock, .destroyed, [], [.hasJobs, .thread 0, .threads, .pool]) ∧
    Always (Threads.step (poolCode addsEight))
      (fun s => ∀ k, s.pc (.inr k) = .destroyed → (∀ i, (s.pc (.inl i)).left = true) ∧
        (∀ k', k' ≠ k → s.pc (.inr k') = .calls .done) ∧ (∀ a, s.shared.jobqueue.heap.read a = none) ∧
        (s.shared.finished ++ s.shared.jobqueue.takenBy .clear).Perm s.shared.jobqueue.submitted ∧
        s.shared.freed = poolBlocks s.shared.threadsTotal.toNat ∧ s.shared.threadsTotal ≤ s.shared.numThreads)
      (poolInit Unit Unit 0 () fun _ => ⟨[.addWork 7 true], true⟩) (byTurns [(3, 16), (3, 20)]) :=
  ⟨by decide +kernel, pool_destroyed (poolContract_of_subsingleton (by decide))⟩

end Runs

end Inv

end Libcp2p

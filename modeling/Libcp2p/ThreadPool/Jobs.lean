import Libcp2p.ThreadPool.Queue

/-!
# The jobs of a pool

A job that a thread took from the queue is with that thread until its function has returned, and was run once otherwise;
`jobqueue_clear` drops the jobs that it takes (`JobInv`). So a job that a thread took and does not carry was run
(`JobInv.mem_finished`), none was run twice (`JobInv.finished_nodup`), and when the queue is empty and no thread carries
a job, each was run or dropped (`JobInv.perm`).
-/

namespace Libcp2p

variable {J : Type}

/-- The jobs that left the queue for a thread, or for `jobqueue_clear`. -/
def JobQueue.takenBy (q : JobQueue J) (who : Puller) : List (Nat × J) :=
  (q.taken.filter (·.1 = who)).map Prod.snd

/-- The job that a thread has to run; what `jobqueue_clear` takes is not run. -/
def Puller.carries (job : Option Nat) : Puller → Multiset Nat
  | .thread => ↑job.toList
  | .clear => 0

/-- The job that a thread has taken from the queue and not yet run to its end. -/
def PoolPc.carries : PoolPc J → Multiset Nat
  | .pullRearNull who job | .pullLenZero who job | .pullDec who job | .pullPostLock who job | .pullPost who job
  | .pullPostSignal who job | .pullPostUnlock who job | .pullUnlock who job => who.carries job
  | .pulled job => ↑job.toList
  | p => p.program.last.held

section Places

variable {body : J → List (PoolCall J)} {p next : PoolPc J} {q q' : JobQueue J} {d d' : PoolData J}

theorem JobQueue.mem_takenBy {who : Puller} {x : Nat × J} : x ∈ q.takenBy who ↔ (who, x) ∈ q.taken := by
  simp [takenBy]

/-- One more job has left the queue. -/
theorem JobQueue.takenBy_append {who : Puller} {a : Nat} {work : J} (h : q'.taken = q.taken ++ [(who, a, work)]) :
    (addrs (q'.takenBy .thread) : Multiset Nat) = who.carries (some a) + addrs (q.takenBy .thread) := by
  cases who with
  | thread => simp [takenBy, addrs, h, Puller.carries, ← Multiset.coe_add, add_comm]
  | clear => simp [takenBy, addrs, h, Puller.carries]

theorem PoolGoes.carries_eq (h : PoolGoes p next) : next.carries = p.carries := by cases h <;> rfl

theorem PoolGoes.last_eq (h : PoolGoes p next) : next.program.last = p.program.last := by cases h <;> rfl

/-- An access to the queue takes no job from it, or the first one. -/
theorem QueueAccess.taken_cases (h : QueueAccess p q next q') (hview : .rwmutex ∈ poolHolds p → q.View p) :
    q'.taken = q.taken ∧ next.carries = p.carries ∨
    ∃ a work l, q.jobs = (a, work) :: l ∧ q'.taken = q.taken ++ [(p.who, a, work)] ∧ p.carries = 0 ∧
      next.carries = p.who.carries (some a) ∧ p.working = decide (p.who = .thread) ∧
      p.clearing = decide (p.who = .clear) := by
  have hrw : ∀ {p : PoolPc J}, poolHolds p = [.rwmutex] → .rwmutex ∈ poolHolds p := fun hp =>
    hp ▸ List.mem_singleton_self _
  cases h with
  | @pullFrontNull q who job taken htake =>
    obtain ⟨hset, rfl, hlen⟩ := hview (hrw rfl)
    obtain ⟨a, work, link, l, hjobs, hfront, hr, -⟩ := hset.first (by omega)
    simp only [JobQueue.take, hfront, hr] at htake
    refine .inr ⟨a, work, l, hjobs, (congrArg JobQueue.taken htake).symm, rfl, ?_, rfl, rfl⟩
    rw [hfront]
    rfl
  | @pullNext q who a cell hr =>
    obtain ⟨hset, hfront', hlen, -⟩ := hview (hrw rfl)
    obtain ⟨a', work, link, l, hjobs, hfront, hr', -⟩ := hset.first hlen
    obtain rfl : a = a' := Option.some.inj (hfront'.trans hfront)
    obtain rfl : cell = ⟨work, link⟩ := Option.some.inj (hr.symm.trans hr')
    exact .inr ⟨a, work, l, hjobs, rfl, rfl, rfl, rfl, rfl⟩
  | _ => exact .inl ⟨rfl, rfl⟩

/-- What an access does with the jobs that threads have taken. -/
theorem PoolAccess.carries_add (h : PoolAccess body p d next d') (hview : .rwmutex ∈ poolHolds p → d.jobqueue.View p) :
    next.carries + ((addrs d'.finished : Multiset Nat) + addrs (d.jobqueue.takenBy .thread)) =
      p.carries + (addrs d.finished + addrs (d'.jobqueue.takenBy .thread)) := by
  cases h with
  | @queue p d next q h =>
    rcases h.taken_cases hview with ⟨htaken, hcarries⟩ | ⟨a, work, l, -, htaken, hp, hnext, -⟩
    · rw [hcarries, JobQueue.takenBy, JobQueue.takenBy, htaken]
    · rw [JobQueue.takenBy_append htaken, hp, hnext]
      ac_rfl
  | free h => cases h <;> rfl
  | @returns d a work =>
    simp only [PoolPc.carries, PoolPc.program, PoolEnd.held, addrs, List.map_append, List.map_cons, List.map_nil,
      ← Multiset.coe_add, Multiset.coe_singleton, zero_add]
    ac_rfl
  | @pullEmpty d who job hlen =>
    obtain ⟨hset, rfl⟩ := hview (by simp [poolHolds])
    rw [hset.front_eq_none (JobQueue.jobs_eq_nil hset hlen)]
    cases who <;> rfl
  | _ => rfl

/-- An access by `jobqueue_clear` is the only one that drops a job. -/
theorem PoolAccess.dropped_cases (h : PoolAccess body p d next d') (hview : .rwmutex ∈ poolHolds p → d.jobqueue.View p)
    {x : Nat × J} (hx : (.clear, x) ∈ d'.jobqueue.taken) : (.clear, x) ∈ d.jobqueue.taken ∨ p.clearing = true := by
  cases h with
  | @queue p d next q h =>
    rcases h.taken_cases hview with ⟨htaken, -⟩ | ⟨a, work, l, -, htaken, -, -, -, hclearing⟩
    · exact .inl (htaken ▸ hx)
    · rw [htaken, List.mem_append, List.mem_singleton] at hx
      rcases hx with hx | hx
      · exact .inl hx
      · have hwho : .clear = p.who := congrArg Prod.fst hx
        rw [hclearing, ← hwho]
        exact .inr rfl
  | _ => exact .inl hx

theorem PoolAccess.taken_mono (h : PoolAccess body p d next d') (hview : .rwmutex ∈ poolHolds p → d.jobqueue.View p) :
    d.jobqueue.taken <+: d'.jobqueue.taken := by
  cases h with
  | queue h =>
    rcases h.taken_cases hview with ⟨htaken, -⟩ | ⟨a, work, l, -, htaken, -⟩
    · exact htaken ▸ List.prefix_rfl
    · exact htaken ▸ List.prefix_append ..
  | _ => exact List.prefix_rfl

theorem PoolAccess.submitted_mono (h : PoolAccess body p d next d') :
    d.jobqueue.submitted <+: d'.jobqueue.submitted := by
  cases h with
  | queue h =>
    cases h with
    | pushInc => exact List.prefix_append ..
    | _ => exact List.prefix_rfl
  | _ => exact List.prefix_rfl

theorem PoolAccess.finished_cases (h : PoolAccess body p d next d') {x : Nat × J} (hx : x ∈ d'.finished) :
    x ∈ d.finished ∨ p.program.last = .job x.1 x.2 := by
  cases h with
  | returns =>
    rw [List.mem_append, List.mem_singleton] at hx
    exact hx.imp id fun hx => by rw [hx]; rfl
  | _ => exact .inl hx

/-- A thread runs the job that it has read from its cell. -/
theorem PoolAccess.last_cases (h : PoolAccess body p d next d') {a : Nat} {work : J}
    (hlast : next.program.last = .job a work) : p.program.last = .job a work ∨
    a ∈ p.carries ∧ d'.jobqueue = d.jobqueue ∧ ∃ cell, d.jobqueue.heap.read a = some cell ∧ cell.value = work := by
  cases h with
  | readJob hr =>
    cases hlast
    exact .inr ⟨by simp [PoolPc.carries], rfl, _, hr, rfl⟩
  | queue h => cases h <;> exact .inl hlast
  | free h => cases h <;> cases hlast
  | returns => cases hlast
  | destroy => cases hlast
  | _ => exact .inl hlast

theorem PoolAccess.clearing_of (h : PoolAccess body p d next d') (hp : p.clearing = true) : next.clearing = true := by
  rcases h.clearing_cases with heq | ⟨rfl, -⟩
  · rw [heq, hp]
  · cases hp

end Places

section Inv

variable {ι κ : Type} [Fintype ι] [Fintype κ]

/-- Each job that a thread took is still to be run or was run once, and those that `jobqueue_clear` took were not. -/
structure JobInv (d : PoolData J) (pcs : ι ⊕ κ → PoolPc J) : Prop where
  accounted : (addrs (d.jobqueue.takenBy .thread) : Multiset Nat) = tally PoolPc.carries pcs + addrs d.finished
  running : ∀ t a work, (pcs t).program.last = .job a work → (a, work) ∈ d.jobqueue.submitted
  finished : ∀ x ∈ d.finished, x ∈ d.jobqueue.submitted
  dropped : ∀ x, (.clear, x) ∈ d.jobqueue.taken → ∃ t, (pcs t).clearing = true

variable {body : J → List (PoolCall J)} {q : JobQueue J} {d d' : PoolData J} {pcs : ι ⊕ κ → PoolPc J} {t : ι ⊕ κ}
  {next : PoolPc J} {x : Nat × J}

theorem QueueInv.mem_submitted (h : QueueInv q pcs) {who : Puller} (hx : (who, x) ∈ q.taken) : x ∈ q.submitted := by
  rw [h.split]
  exact List.mem_append_left _ (List.mem_map_of_mem hx)

/-- No two jobs have one address. -/
theorem QueueInv.submitted_nodup (h : QueueInv q pcs) : (q.submitted.map Prod.fst).Nodup := by
  have hnodup := h.owned.names_nodup
  rw [madeJobs, Multiset.map_add, Multiset.nodup_add] at hnodup
  exact hnodup.2.1

/-- A job that a thread took and does not carry was run. -/
theorem JobInv.mem_finished (h : JobInv d pcs) (hq : QueueInv d.jobqueue pcs) (hx : (.thread, x) ∈ d.jobqueue.taken)
    (hcarries : x.1 ∉ tally PoolPc.carries pcs) : x ∈ d.finished := by
  have hmem : x.1 ∈ (addrs (d.jobqueue.takenBy .thread) : Multiset Nat) :=
    List.mem_map_of_mem (JobQueue.mem_takenBy.mpr hx)
  rw [h.accounted, Multiset.mem_add] at hmem
  obtain ⟨y, hy, hyx⟩ := List.mem_map.mp (hmem.resolve_left hcarries)
  rwa [← List.inj_on_of_nodup_map hq.submitted_nodup (h.finished y hy) (hq.mem_submitted hx) hyx]

/-- A job that was run, a thread took. -/
theorem JobInv.mem_taken (h : JobInv d pcs) (hq : QueueInv d.jobqueue pcs) (hx : x ∈ d.finished) :
    (.thread, x) ∈ d.jobqueue.taken := by
  have hmem : x.1 ∈ (addrs (d.jobqueue.takenBy .thread) : Multiset Nat) := by
    rw [h.accounted, Multiset.mem_add]
    exact .inr (List.mem_map_of_mem hx)
  obtain ⟨y, hy, hyx⟩ := List.mem_map.mp hmem
  have hy := JobQueue.mem_takenBy.mp hy
  rwa [← List.inj_on_of_nodup_map hq.submitted_nodup (hq.mem_submitted hy) (h.finished x hx) hyx]

/-- No job was run twice. -/
theorem JobInv.finished_nodup (h : JobInv d pcs) (hq : QueueInv d.jobqueue pcs) : (d.finished.map Prod.fst).Nodup := by
  have hsplit : d.jobqueue.submitted.map Prod.fst =
      addrs (d.jobqueue.taken.map Prod.snd) ++ addrs d.jobqueue.jobs := by
    conv_lhs => rw [hq.split]
    exact List.map_append
  have htaken : (addrs (d.jobqueue.taken.map Prod.snd)).Nodup :=
    (List.nodup_append.mp (hsplit ▸ hq.submitted_nodup)).1
  have hthread : (addrs (d.jobqueue.takenBy .thread)).Nodup :=
    htaken.sublist ((List.filter_sublist.map _).map _)
  have hsum : (tally PoolPc.carries pcs + addrs d.finished).Nodup := h.accounted ▸ Multiset.coe_nodup.mpr hthread
  exact (Multiset.nodup_add.mp hsum).2.1

/-- Every job has left the queue and no thread carries one: each was run or dropped. -/
theorem JobInv.perm (h : JobInv d pcs) (hq : QueueInv d.jobqueue pcs) (hjobs : d.jobqueue.jobs = [])
    (hcarries : tally PoolPc.carries pcs = 0) :
    (d.finished ++ d.jobqueue.takenBy .clear).Perm d.jobqueue.submitted := by
  have hsub : d.jobqueue.submitted = d.jobqueue.taken.map Prod.snd := by
    conv_lhs => rw [hq.split]
    rw [hjobs, List.append_nil]
  have htaken : (d.jobqueue.takenBy .thread ++ d.jobqueue.takenBy .clear).Perm d.jobqueue.submitted := by
    rw [hsub, JobQueue.takenBy, JobQueue.takenBy, ← List.map_append]
    refine List.Perm.map _ ?_
    have hclear : (fun x : Puller × Nat × J => decide (x.1 = .clear)) = fun x => !decide (x.1 = .thread) := by
      funext x
      cases x.1 <;> rfl
    rw [hclear]
    exact List.filter_append_perm _ _
  have hnodup : (d.jobqueue.takenBy .thread).Nodup :=
    (List.nodup_append.mp (htaken.nodup_iff.mpr (List.Nodup.of_map _ hq.submitted_nodup))).1
  have hfinished : d.finished.Perm (d.jobqueue.takenBy .thread) := by
    refine (List.perm_ext_iff_of_nodup (List.Nodup.of_map _ (h.finished_nodup hq)) hnodup).mpr fun x => ?_
    rw [JobQueue.mem_takenBy]
    exact ⟨h.mem_taken hq, fun hx => h.mem_finished hq hx (by rw [hcarries]; exact Multiset.notMem_zero _)⟩
  exact (hfinished.append_right _).trans htaken

variable [DecidableEq ι] [DecidableEq κ]

/-- A thread or caller that goes on keeps account of the jobs. -/
theorem JobInv.update (h : JobInv d pcs)
    (haccount : next.carries + ((addrs d'.finished : Multiset Nat) + addrs (d.jobqueue.takenBy .thread)) =
      (pcs t).carries + (addrs d.finished + addrs (d'.jobqueue.takenBy .thread)))
    (hsub : d.jobqueue.submitted <+: d'.jobqueue.submitted)
    (hrunning : ∀ a work, next.program.last = .job a work → (a, work) ∈ d'.jobqueue.submitted)
    (hfinished : ∀ x ∈ d'.finished, x ∈ d.finished ∨ (pcs t).program.last = .job x.1 x.2)
    (hdropped : ∀ x, (.clear, x) ∈ d'.jobqueue.taken → (.clear, x) ∈ d.jobqueue.taken ∨ (pcs t).clearing = true)
    (hclearing : (pcs t).clearing = true → next.clearing = true) : JobInv d' (Function.update pcs t next) where
  accounted := by
    have hsum := tally_exchange haccount
    rw [← add_assoc, ← add_assoc, ← h.accounted,
      add_comm (Multiset.ofList (addrs (d.jobqueue.takenBy .thread)))] at hsum
    exact (add_right_cancel hsum).symm
  running := (Function.forall_update_iff pcs fun _ p => ∀ a work, p.program.last = .job a work →
    (a, work) ∈ d'.jobqueue.submitted).mpr
    ⟨hrunning, fun u _ a work hu => hsub.subset (h.running u a work hu)⟩
  finished x hx := by
    rcases hfinished x hx with hx | hp
    · exact hsub.subset (h.finished x hx)
    · exact hsub.subset (h.running t x.1 x.2 hp)
  dropped x hx := by
    have hkeep : ∀ u, (pcs u).clearing = true → ∃ u, (Function.update pcs t next u).clearing = true := by
      intro u hu
      by_cases hut : u = t
      · exact ⟨t, by rw [Function.update_self]; exact hclearing (hut ▸ hu)⟩
      · exact ⟨u, by rw [Function.update_of_ne hut]; exact hu⟩
    rcases hdropped x hx with hx | hp
    · obtain ⟨u, hu⟩ := h.dropped x hx
      exact hkeep u hu
    · exact hkeep t hp

theorem JobInv.goes (h : JobInv d pcs) (hg : PoolGoes (pcs t) next) : JobInv d (Function.update pcs t next) :=
  h.update (by rw [hg.carries_eq]) List.prefix_rfl (fun a work hn => h.running t a work (hg.last_eq ▸ hn))
    (fun _ => .inl) (fun _ => .inl) fun hp => hg.clearing_eq.trans hp

theorem JobInv.access (h : JobInv d pcs) (hq : QueueInv d.jobqueue pcs) (ha : PoolAccess body (pcs t) d next d') :
    JobInv d' (Function.update pcs t next) := by
  refine h.update (ha.carries_add (hq.view t)) ha.submitted_mono ?_ (fun _ => ha.finished_cases)
    (fun _ => ha.dropped_cases (hq.view t)) ha.clearing_of
  intro a work hlast
  rcases ha.last_cases hlast with hp | ⟨hcarries, hqueue, cell, hr, rfl⟩
  · exact ha.submitted_mono.subset (h.running t a work hp)
  have hmem : a ∈ (addrs (d.jobqueue.takenBy .thread) : Multiset Nat) := by
    rw [h.accounted]
    exact Multiset.mem_add.mpr (.inl (mem_tally hcarries))
  obtain ⟨x, hx, rfl⟩ := List.mem_map.mp hmem
  have hsub := hq.mem_submitted (JobQueue.mem_takenBy.mp hx)
  rw [hqueue, hq.owned.values x (Multiset.mem_add.mpr (.inr hsub)) cell hr]
  exact hsub

end Inv

end Libcp2p

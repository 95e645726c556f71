import Libcp2p.Lib.Owned
import Libcp2p.ThreadPool.Counts
import Mathlib.Algebra.Order.Group.Multiset

/-!
# The queue of a pool

The queue is a linked list that is changed in several steps under `rwmutex`, and a job is in one place at a time: with
the caller that adds it, in the queue, or with whoever took it. `QueueInv` says so for every moment of an interleaving:

* the jobs that left the queue are the first of those that entered it (`split`);
* the list in memory is `JobQueue.jobs`, apart from what the operation under way has still to do (`view`, `settled`);
* the cells allocated are those of the queue and of the threads and callers, each of one owner (`owned`);
* when `jobqueue_clear` has found the queue empty, it stays so (`cleared`).

The steps that are not accesses keep it (`QueueInv.goes`), the accesses do (`QueueInv.access`), and so
`queueInv_preserved`.
-/

namespace Libcp2p

variable {J : Type}

/-! ## The jobs in the queue -/

namespace JobQueue

variable {q : JobQueue J} {l : List (Nat × J)}

/-- The jobs in the queue: those that entered it and have not left it. -/
def jobs (q : JobQueue J) : List (Nat × J) := q.submitted.drop q.taken.length

/-- The links lead from `front` through the jobs `l`, and `rear` is the last of them. -/
structure Linked (q : JobQueue J) (l : List (Nat × J)) : Prop where
  seg : Seg q.heap q.front l none
  rear_eq : q.rear = l.getLast?.map Prod.fst

/-- No operation on the queue is under way. -/
structure Settled (q : JobQueue J) : Prop extends q.Linked q.jobs where
  len_eq : q.len = q.jobs.length

theorem Linked.front_eq_none (h : q.Linked l) (hl : l = []) : q.front = none := by
  subst hl
  exact h.seg

/-- What is true in the middle of an operation, at a place where `rwmutex` is held. -/
def View (q : JobQueue J) : PoolPc J → Prop
  | .pullSwitch _ job => q.Settled ∧ job = q.front
  | .pullFrontNull _ job => q.Settled ∧ job = q.front ∧ q.len = 1
  | .pullNext _ job => q.Settled ∧ job = q.front ∧ q.len ≠ 0 ∧ q.len ≠ 1
  | .pullRearNull _ _ => q.jobs = [] ∧ q.front = none ∧ q.len = 1
  | .pullLenZero _ _ => q.jobs = [] ∧ q.front = none ∧ q.rear = none ∧ q.len = 1
  | .pullDec _ _ => q.Linked q.jobs ∧ q.len = q.jobs.length + 1
  | .pushSwitch a work _ => q.Settled ∧ q.heap.read a = some ⟨work, none⟩
  | .pushFront a work _ => q.Settled ∧ q.heap.read a = some ⟨work, none⟩ ∧ q.len = 0
  | .pushLink a work _ => q.Settled ∧ q.heap.read a = some ⟨work, none⟩ ∧ q.len ≠ 0
  | .pushRear a work _ => Seg q.heap q.front (q.jobs ++ [(a, work)]) none ∧ q.len = q.jobs.length
  | .pushInc a work _ => q.Linked (q.jobs ++ [(a, work)]) ∧ q.len = q.jobs.length
  | _ => q.Settled

end JobQueue

/-! ## Places -/

/-- The job whose function makes the calls. -/
def PoolEnd.held : PoolEnd J → Multiset Nat
  | .job a _ => {a}
  | _ => 0

namespace PoolPc

/-- The job that a caller has made and not yet counted in the queue. -/
def pushing : PoolPc J → Multiset (Nat × J)
  | .pushLock a work _ | .pushPrev a work _ | .pushSwitch a work _ | .pushFront a work _ | .pushLink a work _
  | .pushRear a work _ | .pushInc a work _ => {(a, work)}
  | _ => 0

/-- The job that was taken from the queue and not yet freed. -/
def held : PoolPc J → Multiset Nat
  | .pullRearNull _ job | .pullLenZero _ job | .pullDec _ job | .pullPostLock _ job | .pullPost _ job
  | .pullPostSignal _ job | .pullPostUnlock _ job | .pullUnlock _ job | .pulled job | .clearFree job =>
    ↑job.toList
  | .freeJob a => {a}
  | p => p.program.last.held

/-- The cells that a thread or caller owns. -/
def owns (p : PoolPc J) : Multiset Nat := p.pushing.map Prod.fst + p.held

/-- The caller has found the queue empty after the last thread left. -/
def cleared : PoolPc J → Bool
  | .clearFront | .clearRear | .clearReset | .clearLen | .freeHasJobs | .freeThread _ | .freeThreads | .freePool
  | .destroyed => true
  | _ => false

end PoolPc

section Inv

variable {ι κ : Type} [Fintype ι] [Fintype κ]

/-- The cells that are allocated: jobs being added, jobs being handled, jobs in the queue. -/
def liveJobs (q : JobQueue J) (pcs : ι ⊕ κ → PoolPc J) : Multiset Nat := tally PoolPc.owns pcs + ↑(addrs q.jobs)

/-- The jobs that were made. -/
def madeJobs (q : JobQueue J) (pcs : ι ⊕ κ → PoolPc J) : Multiset (Nat × J) :=
  tally PoolPc.pushing pcs + ↑q.submitted

/-- The queue of a pool, at any moment. -/
structure QueueInv (q : JobQueue J) (pcs : ι ⊕ κ → PoolPc J) : Prop where
  split : q.submitted = q.taken.map Prod.snd ++ q.jobs
  view : ∀ t, .rwmutex ∈ poolHolds (pcs t) → q.View (pcs t)
  settled : (∀ t, .rwmutex ∉ poolHolds (pcs t)) → q.Settled
  owned : Owned q.heap (liveJobs q pcs) (madeJobs q pcs)
  cleared : ∀ t, (pcs t).cleared = true → q.jobs = []

section Places

variable {body : J → List (PoolCall J)} {p next : PoolPc J} {q q' : JobQueue J} {d d' : PoolData J}

theorem PoolGoes.pushing_eq (h : PoolGoes p next) : next.pushing = p.pushing := by cases h <;> rfl

theorem PoolGoes.owns_eq (h : PoolGoes p next) : next.owns = p.owns := by cases h <;> rfl

theorem PoolGoes.cleared_eq (h : PoolGoes p next) : next.cleared = p.cleared := by cases h <;> rfl

/-- Between the operations on the queue, nothing is under way. -/
theorem PoolGoes.view_iff (h : PoolGoes p next) : (q.View p ↔ q.Settled) ∧ (q.View next ↔ q.Settled) := by
  cases h <;> exact ⟨Iff.rfl, Iff.rfl⟩

theorem JobQueue.jobs_eq_nil (h : q.Settled) (hlen : q.len = 0) : q.jobs = [] := by
  have := h.len_eq
  exact List.length_eq_zero_iff.mp (by omega)

/-- An access that is not to the queue, and not the allocation of a job. -/
structure Stays (p : PoolPc J) (d : PoolData J) (next : PoolPc J) (d' : PoolData J) : Prop where
  queue_eq : d'.jobqueue = d.jobqueue
  pushing_eq : next.pushing = p.pushing
  owns_eq : (.rwmutex ∈ poolHolds p → d.jobqueue.View p) → next.owns = p.owns
  view : .rwmutex ∈ poolHolds p → d.jobqueue.View p → d.jobqueue.View next
  cleared : next.cleared = true → p.cleared = true ∨ p = .clearWhile ∧ d.jobqueue.len = 0

/-- What an access can do to the queue. -/
theorem PoolAccess.queue_cases (h : PoolAccess body p d next d') :
    (∃ q, QueueAccess p d.jobqueue next q ∧ d'.jobqueue = q) ∨
    (∃ work calls last, d.initialised = true ∧ p = .calls ⟨.addWork work true :: calls, last⟩ ∧
      next = .pushLock d.jobqueue.heap.fresh work ⟨calls, last⟩ ∧
      d'.jobqueue = { d.jobqueue with heap := d.jobqueue.heap.alloc ⟨work, none⟩ }) ∨
    Stays p d next d' := by
  cases h with
  | queue h => exact .inl ⟨_, h, rfl⟩
  | addWork h => exact .inr (.inl ⟨_, _, _, h, rfl, rfl, rfl⟩)
  | free h => cases h <;> exact .inr (.inr ⟨rfl, rfl, fun _ => rfl, fun _ hv => hv, .inl⟩)
  | pullFront => exact .inr (.inr ⟨rfl, rfl, fun _ => rfl, fun _ hv => ⟨hv, rfl⟩, .inl⟩)
  | @pullEmpty d who job hlen =>
    refine .inr (.inr ⟨rfl, rfl, fun hv => ?_, fun _ hv => hv.1, .inl⟩)
    obtain ⟨hset, rfl⟩ := hv (by simp [poolHolds])
    rw [hset.front_eq_none (JobQueue.jobs_eq_nil hset hlen)]
    rfl
  | pullOne hlen => exact .inr (.inr ⟨rfl, rfl, fun _ => rfl, fun _ hv => ⟨hv.1, hv.2, hlen⟩, .inl⟩)
  | pullMore h0 h1 => exact .inr (.inr ⟨rfl, rfl, fun _ => rfl, fun _ hv => ⟨hv.1, hv.2, h0, h1⟩, .inl⟩)
  | pushFirst hlen => exact .inr (.inr ⟨rfl, rfl, fun _ => rfl, fun _ hv => ⟨hv.1, hv.2, hlen⟩, .inl⟩)
  | pushMore hlen => exact .inr (.inr ⟨rfl, rfl, fun _ => rfl, fun _ hv => ⟨hv.1, hv.2, hlen⟩, .inl⟩)
  | clearDone hlen =>
    exact .inr (.inr ⟨rfl, rfl, fun _ => rfl, fun _ hv => hv, fun _ => .inr ⟨rfl, hlen⟩⟩)
  | _ => exact .inr (.inr ⟨rfl, rfl, fun _ => rfl, fun _ hv => hv, .inl⟩)

theorem QueueAccess.made_eq (h : QueueAccess p q next q') :
    next.pushing + (q'.submitted : Multiset (Nat × J)) = p.pushing + q.submitted := by
  cases h with
  | @pushInc q a work program =>
    simp only [PoolPc.pushing, zero_add]
    rw [← Multiset.coe_add, add_comm]
    rfl
  | _ => rfl

/-- The queue after one more job. -/
theorem JobQueue.jobs_push (hsplit : q.submitted = q.taken.map Prod.snd ++ q.jobs) (x : Nat × J) :
    (q.submitted ++ [x]).drop q.taken.length = q.jobs ++ [x] := by
  have hlen := congrArg List.length hsplit
  simp only [List.length_append, List.length_map] at hlen
  exact List.drop_append_of_le_length (by omega)

/-- The queue after its first job has left. -/
theorem JobQueue.jobs_take {a : Nat} {work : J} {l : List (Nat × J)} (hjobs : q.jobs = (a, work) :: l) (who : Puller) :
    q.submitted.drop (q.taken ++ [(who, a, work)]).length = l := by
  rw [List.length_append, List.length_singleton, ← List.tail_drop, show q.submitted.drop q.taken.length = _ from hjobs]
  rfl

theorem JobQueue.split_take {a : Nat} {work : J} {l : List (Nat × J)}
    (hsplit : q.submitted = q.taken.map Prod.snd ++ q.jobs) (hjobs : q.jobs = (a, work) :: l) (who : Puller) :
    q.submitted = (q.taken ++ [(who, a, work)]).map Prod.snd ++ l := by
  rw [hsplit, hjobs]
  simp

/-- The first job of a queue that is not empty. -/
theorem JobQueue.Settled.first (h : q.Settled) (hlen : q.len ≠ 0) : ∃ a work next l, q.jobs = (a, work) :: l ∧
    q.front = some a ∧ q.heap.read a = some ⟨work, next⟩ ∧ Seg q.heap next l none := by
  cases hjobs : q.jobs with
  | nil =>
    have := h.len_eq
    rw [hjobs] at this
    exact absurd this hlen
  | cons x l =>
    have hseg := h.seg
    rw [hjobs] at hseg
    obtain ⟨hfront, next, hr, hseg⟩ := hseg
    exact ⟨x.1, x.2, next, l, rfl, hfront, hr, hseg⟩

/-- The last job of a queue. -/
theorem JobQueue.Settled.last (h : q.Settled) {b : Nat} (hrear : q.rear = some b) :
    ∃ l work, q.jobs = l ++ [(b, work)] := by
  have hb := h.rear_eq.symm.trans hrear
  rcases List.eq_nil_or_concat q.jobs with hjobs | ⟨l, x, hjobs⟩
  · rw [hjobs] at hb
    cases hb
  · rw [hjobs, List.concat_eq_append, List.getLast?_concat] at hb
    cases hb
    exact ⟨l, x.2, by rw [hjobs, List.concat_eq_append]⟩

theorem JobQueue.Settled.rear_mem (h : q.Settled) (hlen : q.len ≠ 0) : ∃ b, q.rear = some b ∧ b ∈ addrs q.jobs := by
  have hrear := h.rear_eq
  rcases List.eq_nil_or_concat q.jobs with hjobs | ⟨l, x, hjobs⟩
  · have := h.len_eq
    rw [hjobs] at this
    exact absurd this hlen
  · rw [hjobs, List.concat_eq_append, List.getLast?_concat] at hrear
    exact ⟨x.1, hrear, by simp [hjobs, addrs]⟩

/-- An operation on the queue by the thread or caller that holds `rwmutex`. -/
theorem QueueAccess.view_next (h : QueueAccess p q next q') (hp : .rwmutex ∈ poolHolds p)
    (hsplit : q.submitted = q.taken.map Prod.snd ++ q.jobs) (hview : q.View p)
    (hnew : ∀ a ∈ p.owns, a ∉ addrs q.jobs)
    (hvalue : ∀ x ∈ p.pushing, ∀ cell, q.heap.read x.1 = some cell → cell.value = x.2) :
    q'.submitted = q'.taken.map Prod.snd ++ q'.jobs ∧ q'.View next := by
  cases h with
  | @pullFrontNull q who job taken htake =>
    obtain ⟨hset, rfl, hlen⟩ := hview
    obtain ⟨a, work, link, l, hjobs, hfront, hr, -⟩ := hset.first (by omega)
    have hl : l = [] := by
      have := hset.len_eq
      rw [hjobs, hlen] at this
      simpa using this
    subst hl
    simp only [JobQueue.take, hfront, hr] at htake
    obtain rfl : taken = q.taken ++ [(who, a, work)] := (congrArg JobQueue.taken htake).symm
    have hjobs' := JobQueue.jobs_take hjobs who
    refine ⟨?_, hjobs', rfl, hlen⟩
    rw [JobQueue.jobs, hjobs']
    exact JobQueue.split_take hsplit hjobs who
  | pullRearNull => exact ⟨hsplit, hview.1, hview.2.1, rfl, hview.2.2⟩
  | @pullLenZero q who job =>
    obtain ⟨hjobs, hfront, hrear, -⟩ := hview
    have hjobs' : JobQueue.jobs { q with len := 0 } = [] := hjobs
    refine ⟨hsplit, ⟨?_, ?_⟩, ?_⟩ <;> rw [hjobs']
    · exact hfront
    · exact hrear
    · rfl
  | @pullNext q who a cell hr =>
    obtain ⟨hset, hfront', hlen0, hlen1⟩ := hview
    obtain ⟨a', work, link, l, hjobs, hfront, hr', hseg⟩ := hset.first hlen0
    obtain rfl : a = a' := Option.some.inj (hfront'.trans hfront)
    obtain rfl : cell = ⟨work, link⟩ := Option.some.inj (hr.symm.trans hr')
    have hjobs' := JobQueue.jobs_take hjobs who
    have hlen := hset.len_eq
    have hrear := hset.rear_eq
    rw [hjobs] at hlen hrear
    refine ⟨?_, ⟨?_, ?_⟩, ?_⟩ <;> rw [JobQueue.jobs, hjobs']
    · exact JobQueue.split_take hsplit hjobs who
    · exact hseg
    · cases l with
      | nil => exact absurd hlen hlen1
      | cons x l => rwa [List.getLast?_cons_cons] at hrear
    · exact hlen
  | @pullDec q who job =>
    obtain ⟨hlinked, hlen⟩ := hview
    refine ⟨hsplit, ⟨hlinked.seg, hlinked.rear_eq⟩, ?_⟩
    show q.len - 1 = q.jobs.length
    omega
  | @pushPrev q a work program cell hr =>
    have hset : q.Settled := hview
    obtain rfl : cell.value = work := hvalue (a, work) (Multiset.mem_singleton_self _) cell hr
    have ha : a ∉ addrs q.jobs := hnew a (by simp [PoolPc.owns, PoolPc.pushing])
    refine ⟨hsplit, ⟨⟨?_, hset.rear_eq⟩, hset.len_eq⟩, Heap.read_write_self (Heap.lt_of_read hr)⟩
    exact hset.seg.congr fun b hb => Heap.read_write_ne fun hba => ha (hba ▸ hb)
  | @pushFront q a work program =>
    obtain ⟨hset, hr, hlen⟩ := hview
    have hjobs := JobQueue.jobs_eq_nil hset hlen
    have hjobs' : JobQueue.jobs { q with front := some a } = [] := hjobs
    refine ⟨hsplit, ?_, ?_⟩ <;> rw [hjobs']
    · exact ⟨rfl, none, hr, rfl⟩
    · exact hlen
  | @pushLink q a work program b cell hrear hr =>
    obtain ⟨hset, ha, hlen⟩ := hview
    have hnew' : a ∉ addrs q.jobs := hnew a (by simp [PoolPc.owns, PoolPc.pushing])
    obtain ⟨l, w, hjobs⟩ := hset.last hrear
    refine ⟨hsplit, ?_, hset.len_eq⟩
    have hseg := hset.seg
    rw [hjobs] at hseg hnew'
    obtain ⟨m, -, rfl, link, hr', -⟩ := seg_append.mp hseg
    obtain rfl : cell = ⟨w, link⟩ := Option.some.inj (hr.symm.trans hr')
    have hjobs' : JobQueue.jobs { q with heap := q.heap.write b ⟨w, some a⟩ } = l ++ [(b, w)] := hjobs
    rw [hjobs']
    exact hseg.link ha hnew'
  | pushRear =>
    obtain ⟨hseg, hlen⟩ := hview
    exact ⟨hsplit, ⟨hseg, by simp⟩, hlen⟩
  | @pushInc q a work program =>
    obtain ⟨hlinked, hlen⟩ := hview
    have hjobs' := JobQueue.jobs_push hsplit (a, work)
    refine ⟨?_, ⟨?_, ?_⟩, ?_⟩ <;> rw [JobQueue.jobs, hjobs']
    · rw [← List.append_assoc, ← hsplit]
    · exact hlinked.seg
    · exact hlinked.rear_eq
    · rw [List.length_append]
      exact congrArg (· + 1) hlen
  | _ => simp [poolHolds] at hp

/-- What an access to the queue does with the cells: it moves them, links one of them or frees one. -/
theorem QueueAccess.live_cases (h : QueueAccess p q next q') (hsplit : q.submitted = q.taken.map Prod.snd ++ q.jobs)
    (hview : .rwmutex ∈ poolHolds p → q.View p) :
    (next.owns + (addrs q'.jobs : Multiset Nat) = p.owns + addrs q.jobs ∧
      (q'.heap = q.heap ∨ ∃ a cell link, q.heap.read a = some cell ∧ q'.heap = q.heap.write a ⟨cell.value, link⟩)) ∨
    ∃ a, next.owns + (addrs q'.jobs : Multiset Nat) + {a} = p.owns + addrs q.jobs ∧ q'.heap = q.heap.free a := by
  have hrw : ∀ {p : PoolPc J}, poolHolds p = [.rwmutex] → .rwmutex ∈ poolHolds p := fun hp =>
    hp ▸ List.mem_singleton_self _
  cases h with
  | @freeJob q a cell hr => exact .inr ⟨a, by rw [add_comm]; rfl, rfl⟩
  | @clearFree q a cell hr => exact .inr ⟨a, by rw [add_comm]; rfl, rfl⟩
  | @pullFrontNull q who job taken htake =>
    obtain ⟨hset, rfl, hlen⟩ := hview (hrw rfl)
    obtain ⟨a, work, link, l, hjobs, hfront, hr, -⟩ := hset.first (by omega)
    simp only [JobQueue.take, hfront, hr] at htake
    obtain rfl : taken = q.taken ++ [(who, a, work)] := (congrArg JobQueue.taken htake).symm
    refine .inl ⟨?_, .inl rfl⟩
    rw [JobQueue.jobs, JobQueue.jobs_take hjobs who, hjobs, hfront]
    rfl
  | @pullNext q who a cell hr =>
    obtain ⟨hset, hfront', hlen, -⟩ := hview (hrw rfl)
    obtain ⟨a', work, link, l, hjobs, hfront, hr', -⟩ := hset.first hlen
    obtain rfl : a = a' := Option.some.inj (hfront'.trans hfront)
    obtain rfl : cell = ⟨work, link⟩ := Option.some.inj (hr.symm.trans hr')
    refine .inl ⟨?_, .inl rfl⟩
    rw [JobQueue.jobs, JobQueue.jobs_take hjobs who, hjobs]
    rfl
  | @pushPrev q a work program cell hr => exact .inl ⟨rfl, .inr ⟨a, cell, _, hr, rfl⟩⟩
  | @pushLink q a work program b cell hrear hr => exact .inl ⟨rfl, .inr ⟨b, cell, _, hr, rfl⟩⟩
  | @pushInc q a work program =>
    refine .inl ⟨?_, .inl rfl⟩
    rw [JobQueue.jobs, JobQueue.jobs_push hsplit]
    simp only [PoolPc.owns, PoolPc.pushing, PoolPc.held, addrs, List.map_append, List.map_cons, List.map_nil,
      ← Multiset.coe_add, Multiset.coe_singleton, Multiset.map_zero, Multiset.map_singleton, zero_add]
    ac_rfl
  | _ => exact .inl ⟨rfl, .inl rfl⟩

/-- A queue does not depend on the other cells of the heap. -/
theorem JobQueue.Linked.congr {heap : Heap J} {l : List (Nat × J)} (h : q.Linked l)
    (hl : ∀ a ∈ addrs l, heap.read a = q.heap.read a) : JobQueue.Linked { q with heap := heap } l :=
  ⟨h.seg.congr hl, h.rear_eq⟩

theorem JobQueue.Settled.congr {heap : Heap J} (h : q.Settled)
    (hjobs : ∀ a ∈ addrs q.jobs, heap.read a = q.heap.read a) :
    JobQueue.Settled { q with heap := heap } :=
  ⟨h.toLinked.congr hjobs, h.len_eq⟩

theorem JobQueue.View.congr {heap : Heap J} (h : q.View p) (hjobs : ∀ a ∈ addrs q.jobs, heap.read a = q.heap.read a)
    (hpush : ∀ x ∈ p.pushing, heap.read x.1 = q.heap.read x.1) : JobQueue.View { q with heap := heap } p := by
  have hsnoc : ∀ a work, (a, work) ∈ p.pushing → ∀ b ∈ addrs (q.jobs ++ [(a, work)]), heap.read b = q.heap.read b := by
    intro a work hx b hb
    simp only [addrs, List.map_append, List.map_cons, List.map_nil, List.mem_append, List.mem_singleton] at hb
    rcases hb with hb | rfl
    · exact hjobs b hb
    · exact hpush (b, work) hx
  cases p with
  | pullSwitch who job => exact ⟨h.1.congr hjobs, h.2⟩
  | pullFrontNull who job => exact ⟨h.1.congr hjobs, h.2⟩
  | pullNext who job => exact ⟨h.1.congr hjobs, h.2⟩
  | pullRearNull who job => exact h
  | pullLenZero who job => exact h
  | pullDec who job => exact ⟨h.1.congr hjobs, h.2⟩
  | pushSwitch a work program =>
    exact ⟨h.1.congr hjobs, (hpush (a, work) (Multiset.mem_singleton_self _)).trans h.2⟩
  | pushFront a work program =>
    exact ⟨h.1.congr hjobs, (hpush (a, work) (Multiset.mem_singleton_self _)).trans h.2.1, h.2.2⟩
  | pushLink a work program =>
    exact ⟨h.1.congr hjobs, (hpush (a, work) (Multiset.mem_singleton_self _)).trans h.2.1, h.2.2⟩
  | pushRear a work program => exact ⟨h.1.congr (hsnoc a work (Multiset.mem_singleton_self _)), h.2⟩
  | pushInc a work program => exact ⟨h.1.congr (hsnoc a work (Multiset.mem_singleton_self _)), h.2⟩
  | _ => exact JobQueue.Settled.congr h hjobs

/-- A caller that has done all its calls accesses nothing. -/
theorem PoolAccess.not_stopped (h : PoolAccess body (.calls .done) d next d') : False := by
  cases h with
  | queue h => cases h
  | free h => cases h
  | noPool h hp => exact hp rfl

/-- No instruction waits with `rwmutex`. -/
theorem no_wait_rwmutex {c : PoolCond} : poolCode body p ≠ .wait c .rwmutex next := by
  intro h
  cases p with
  | calls program => rcases poolCode_calls body program with ⟨-, hcode⟩ | ⟨f, hcode⟩ <;> rw [hcode] at h <;> cases h
  | _ => cases h

theorem PoolPc.clearing_of_cleared (h : p.cleared = true) : p.clearing = true := by
  cases p <;> first | rfl | cases h

theorem PoolPc.not_holds_of_cleared (h : p.cleared = true) : .rwmutex ∉ poolHolds p := by
  cases p <;> first | exact List.not_mem_nil | cases h

theorem PoolPc.not_holds_of_left (h : p.left = true) : .rwmutex ∉ poolHolds p := by
  cases p with
  | exitUnlock => simp [poolHolds]
  | exited => exact List.not_mem_nil
  | _ => cases h

/-- An access to the queue without `rwmutex`: the job that the thread or caller owns is freed, or the queue is cleared
after the last thread has left. -/
theorem QueueAccess.not_holder (h : QueueAccess p q next q') (hp : .rwmutex ∉ poolHolds p) :
    (∃ a ∈ p.owns, q' = { q with heap := q.heap.free a } ∧ next.cleared = false) ∨
    q' = q ∧ next.cleared = false ∨
    p.clearing = true ∧ p.cleared = true ∧ (q.jobs = [] → q.Settled → q' = q) := by
  cases h with
  | @freeJob q a cell hr => exact .inl ⟨a, by simp [PoolPc.owns, PoolPc.held, PoolPc.pushing], rfl, rfl⟩
  | @clearFree q a cell hr => exact .inl ⟨a, by simp [PoolPc.owns, PoolPc.held, PoolPc.pushing], rfl, rfl⟩
  | clearNull => exact .inr (.inl ⟨rfl, rfl⟩)
  | @clearFront q =>
    refine .inr (.inr ⟨rfl, rfl, fun hjobs hset => ?_⟩)
    rw [← hset.front_eq_none hjobs]
  | @clearRear q =>
    refine .inr (.inr ⟨rfl, rfl, fun hjobs hset => ?_⟩)
    have hrear := hset.rear_eq
    rw [hjobs] at hrear
    rw [show none = q.rear from hrear.symm]
  | @clearLen q =>
    refine .inr (.inr ⟨rfl, rfl, fun hjobs hset => ?_⟩)
    have hlen := hset.len_eq
    rw [hjobs] at hlen
    rw [show (0 : Int) = q.len from hlen.symm]
  | _ => exact absurd (by simp [poolHolds]) hp

end Places

variable [DecidableEq ι] [DecidableEq κ] {body : J → List (PoolCall J)} {q q' : JobQueue J} {d d' : PoolData J}
  {pcs : ι ⊕ κ → PoolPc J} {t u : ι ⊕ κ} {next : PoolPc J}

omit [Fintype ι] [Fintype κ] [DecidableEq ι] [DecidableEq κ] in
/-- One thread or caller at a time holds `rwmutex`. -/
theorem rwmutex_unique (hexcl : Excludes (poolCode body) poolHolds pcs t) (ht : .rwmutex ∈ poolHolds (pcs t))
    (hne : u ≠ t) :
    .rwmutex ∉ poolHolds (pcs u) := by
  intro hu
  obtain ⟨c, next, hcode⟩ := hexcl u hne .rwmutex ht hu
  exact no_wait_rwmutex hcode

omit [Fintype ι] [Fintype κ] [DecidableEq ι] [DecidableEq κ] in
/-- While the queue is cleared, no other thread or caller accesses anything. -/
theorem DestroyInv.not_clearing (h : DestroyInv pcs) (ha : PoolAccess body (pcs t) d next d') (hne : u ≠ t) :
    (pcs u).clearing = false := by
  cases hu : (pcs u).clearing with
  | false => rfl
  | true =>
    exfalso
    cases t with
    | inl i => exact Bool.false_ne_true (ha.not_left.symm.trans (h.left u hu i))
    | inr k =>
      rw [h.alone u (PoolPc.clearing_destroying hu) k hne.symm] at ha
      exact ha.not_stopped

omit [Fintype ι] [Fintype κ] [DecidableEq ι] [DecidableEq κ] in
/-- While the queue is cleared, no other thread or caller holds `rwmutex`. -/
theorem DestroyInv.not_holds (h : DestroyInv pcs) (ht : (pcs t).clearing = true) (hne : u ≠ t) :
    .rwmutex ∉ poolHolds (pcs u) := by
  cases u with
  | inl i => exact PoolPc.not_holds_of_left (h.left t ht i)
  | inr k =>
    rw [h.alone t (PoolPc.clearing_destroying ht) k hne]
    exact List.not_mem_nil

/-- A step that is not an access keeps the queue. -/
theorem QueueInv.goes (h : QueueInv q pcs) (hg : PoolGoes (pcs t) next)
    (hexcl : Excludes (poolCode body) poolHolds (Function.update pcs t next) t) :
    QueueInv q (Function.update pcs t next) where
  split := h.split
  view := by
    refine (Function.forall_update_iff pcs fun _ p => .rwmutex ∈ poolHolds p → q.View p).mpr ⟨?_, fun u _ => h.view u⟩
    intro hn
    refine hg.view_iff.2.mpr ?_
    by_cases hp : .rwmutex ∈ poolHolds (pcs t)
    · exact hg.view_iff.1.mp (h.view t hp)
    · refine h.settled fun u => ?_
      by_cases hut : u = t
      · exact hut ▸ hp
      · have hu := rwmutex_unique hexcl (by rwa [Function.update_self]) hut
        rwa [Function.update_of_ne hut] at hu
  settled hall := by
    by_cases hp : .rwmutex ∈ poolHolds (pcs t)
    · exact hg.view_iff.1.mp (h.view t hp)
    · refine h.settled fun u => ?_
      by_cases hut : u = t
      · exact hut ▸ hp
      · have hu := hall u
        rwa [Function.update_of_ne hut] at hu
  owned := by
    rw [liveJobs, madeJobs, tally_update_of_eq hg.owns_eq, tally_update_of_eq hg.pushing_eq]
    exact h.owned
  cleared := (Function.forall_update_iff pcs fun _ p => p.cleared = true → q.jobs = []).mpr
    ⟨fun hn => h.cleared t (hg.cleared_eq ▸ hn), fun u _ => h.cleared u⟩

/-- The cells after an access to the queue. -/
theorem QueueInv.owned_queue (h : QueueInv q pcs) (hq : QueueAccess (pcs t) q next q') :
    Owned q'.heap (liveJobs q' (Function.update pcs t next)) (madeJobs q' (Function.update pcs t next)) := by
  have hmade : madeJobs q' (Function.update pcs t next) = madeJobs q pcs := tally_exchange hq.made_eq
  rcases hq.live_cases h.split (h.view t) with ⟨hlive, hheap⟩ | ⟨a, hlive, hheap⟩
  · have hlive' : liveJobs q' (Function.update pcs t next) = liveJobs q pcs := tally_exchange hlive
    rw [hmade, hlive']
    rcases hheap with hheap | ⟨a, cell, link, hr, hheap⟩
    · rw [hheap]
      exact h.owned
    · rw [hheap]
      exact h.owned.write hr link
  · have hlive' : liveJobs q' (Function.update pcs t next) + {a} = liveJobs q pcs := by
      rw [add_assoc] at hlive
      rw [liveJobs, add_assoc]
      exact tally_exchange hlive
    rw [hmade, hheap]
    apply Owned.free
    rw [← Multiset.singleton_add, add_comm, hlive']
    exact h.owned

omit [DecidableEq ι] [DecidableEq κ] in
/-- What a thread or caller owns is not in the queue. -/
theorem QueueInv.not_mem_jobs (h : QueueInv q pcs) {a : Nat} (ha : a ∈ (pcs t).owns) : a ∉ addrs q.jobs := by
  have hnodup := h.owned.nodup
  rw [liveJobs, Multiset.nodup_add] at hnodup
  exact fun hmem => Multiset.disjoint_left.mp hnodup.2.2 (mem_tally ha) hmem

/-- What a thread or caller owns is not a job that another adds. -/
theorem QueueInv.not_mem_pushing (h : QueueInv q pcs) {a : Nat} (ha : a ∈ (pcs t).owns) (hne : u ≠ t) {x : Nat × J}
    (hx : x ∈ (pcs u).pushing) : x.1 ≠ a := by
  have hnodup := h.owned.nodup
  rw [liveJobs, Multiset.nodup_add] at hnodup
  rintro rfl
  exact not_mem_of_tally_nodup hnodup.1 hne ha (Multiset.mem_add.mpr (.inl (Multiset.mem_map_of_mem _ hx)))

/-- An access that leaves the cells of the queue and of the other callers as they are, made without `rwmutex`. -/
theorem QueueInv.outside {heap : Heap J} (h : QueueInv q pcs) (hp : .rwmutex ∉ poolHolds next)
    (hp' : .rwmutex ∉ poolHolds (pcs t)) (hjobs : ∀ a ∈ addrs q.jobs, heap.read a = q.heap.read a)
    (hpush : ∀ u, u ≠ t → ∀ x ∈ (pcs u).pushing, heap.read x.1 = q.heap.read x.1)
    (howned : Owned heap (liveJobs q (Function.update pcs t next)) (madeJobs q (Function.update pcs t next)))
    (hcleared : next.cleared = true → q.jobs = []) :
    QueueInv { q with heap := heap } (Function.update pcs t next) where
  split := h.split
  view := (Function.forall_update_iff pcs
      fun _ p => .rwmutex ∈ poolHolds p → JobQueue.View { q with heap := heap } p).mpr
    ⟨fun hn => absurd hn hp, fun u hut hu => (h.view u hu).congr hjobs (hpush u hut)⟩
  settled hall := by
    refine (h.settled fun u => ?_).congr hjobs
    by_cases hut : u = t
    · exact hut ▸ hp'
    · have hu := hall u
      rwa [Function.update_of_ne hut] at hu
  owned := howned
  cleared := (Function.forall_update_iff pcs fun _ p => p.cleared = true → q.jobs = []).mpr
    ⟨hcleared, fun u _ => h.cleared u⟩

/-- An access under `rwmutex`. -/
theorem QueueInv.inside (hexcl : Excludes (poolCode body) poolHolds pcs t) (hp : .rwmutex ∈ poolHolds (pcs t))
    (hp' : .rwmutex ∈ poolHolds next) (hsplit : q'.submitted = q'.taken.map Prod.snd ++ q'.jobs) (hview : q'.View next)
    (howned : Owned q'.heap (liveJobs q' (Function.update pcs t next)) (madeJobs q' (Function.update pcs t next)))
    (hcleared : ∀ u, u ≠ t → (pcs u).cleared = false) : QueueInv q' (Function.update pcs t next) where
  split := hsplit
  view := (Function.forall_update_iff pcs fun _ p => .rwmutex ∈ poolHolds p → q'.View p).mpr
    ⟨fun _ => hview, fun u hut hu => absurd hu (rwmutex_unique hexcl hp hut)⟩
  settled hall := by
    have ht := hall t
    rw [Function.update_self] at ht
    exact absurd hp' ht
  owned := howned
  cleared := (Function.forall_update_iff pcs fun _ p => p.cleared = true → q'.jobs = []).mpr
    ⟨fun hn => absurd hp' (PoolPc.not_holds_of_cleared hn),
      fun u hut hu => absurd ((hcleared u hut).symm.trans hu) Bool.false_ne_true⟩

/-- An access to the queue keeps it. -/
theorem QueueInv.queueAccess (h : QueueInv q pcs) (hd : DestroyInv pcs)
    (hexcl : Excludes (poolCode body) poolHolds pcs t)
    (hcleared : ∀ u, u ≠ t → (pcs u).cleared = false) (hholds : poolHolds next = poolHolds (pcs t))
    (hq : QueueAccess (pcs t) q next q') : QueueInv q' (Function.update pcs t next) := by
  have howned := h.owned_queue hq
  by_cases hp : .rwmutex ∈ poolHolds (pcs t)
  · have hvalue : ∀ x ∈ (pcs t).pushing, ∀ cell, q.heap.read x.1 = some cell → cell.value = x.2 := fun x hx =>
      h.owned.values x (Multiset.mem_add.mpr (.inl (mem_tally hx)))
    obtain ⟨hsplit, hview⟩ := hq.view_next hp h.split (h.view t hp) (fun a => h.not_mem_jobs) hvalue
    exact .inside hexcl hp (hholds ▸ hp) hsplit hview howned hcleared
  · rcases hq.not_holder hp with ⟨a, ha, rfl, hn⟩ | ⟨rfl, hn⟩ | ⟨hclearing, hc, heq⟩
    · refine h.outside (hholds ▸ hp) hp ?_ ?_ howned fun hn' => absurd (hn.symm.trans hn') Bool.false_ne_true
      · exact fun b hb => Heap.read_free_ne fun hba => h.not_mem_jobs ha (hba ▸ hb)
      · exact fun u hut x hx => Heap.read_free_ne (h.not_mem_pushing ha hut hx)
    · exact h.outside (hholds ▸ hp) hp (fun _ _ => rfl) (fun _ _ _ _ => rfl) howned
        fun hn' => absurd (hn.symm.trans hn') Bool.false_ne_true
    · have hjobs := h.cleared t hc
      obtain rfl := heq hjobs <| h.settled fun u => by
        by_cases hut : u = t
        · exact hut ▸ hp
        · exact hd.not_holds hclearing hut
      exact h.outside (hholds ▸ hp) hp (fun _ _ => rfl) (fun _ _ _ _ => rfl) howned fun _ => hjobs

theorem madeJobs_alloc {a : Nat} {work : J} {calls : List (PoolCall J)} {last : PoolEnd J}
    (hp : pcs t = .calls ⟨.addWork work true :: calls, last⟩) :
    madeJobs q (Function.update pcs t (.pushLock a work ⟨calls, last⟩)) = (a, work) ::ₘ madeJobs q pcs := by
  rw [madeJobs, madeJobs, ← Multiset.cons_add]
  congr 1
  rw [← Multiset.singleton_add, add_comm]
  refine tally_update_add ?_
  rw [hp, add_comm]
  rfl

/-- The allocation of a job keeps the queue. -/
theorem QueueInv.alloc (h : QueueInv q pcs) {work : J} {calls : List (PoolCall J)} {last : PoolEnd J}
    (hp : pcs t = .calls ⟨.addWork work true :: calls, last⟩) :
    QueueInv { q with heap := q.heap.alloc ⟨work, none⟩ }
      (Function.update pcs t (.pushLock q.heap.fresh work ⟨calls, last⟩)) := by
  have hread : ∀ a ∈ liveJobs q pcs, (q.heap.alloc ⟨work, none⟩).read a = q.heap.read a := by
    intro a ha
    obtain ⟨cell, hr⟩ := (h.owned.mem_iff a).mp ha
    exact Heap.read_alloc_of_lt (Heap.lt_of_read hr)
  have howned := h.owned.alloc work
  refine h.outside (by simp [poolHolds]) (by simp [hp, poolHolds]) ?_ ?_ ?_ fun hn => by cases hn
  · exact fun a ha => hread a (Multiset.mem_add.mpr (.inr ha))
  · intro u _ x hx
    refine hread x.1 (Multiset.mem_add.mpr (.inl (mem_tally (t := u) ?_)))
    exact Multiset.mem_add.mpr (.inl (Multiset.mem_map_of_mem _ hx))
  · have howns : tally PoolPc.owns (Function.update pcs t (.pushLock q.heap.fresh work ⟨calls, last⟩)) =
        q.heap.fresh ::ₘ tally PoolPc.owns pcs := by
      rw [← Multiset.singleton_add, add_comm]
      refine tally_update_add ?_
      rw [hp, add_comm]
      simp [PoolPc.owns, PoolPc.pushing, PoolPc.held, PoolPc.program]
    rw [liveJobs, madeJobs_alloc hp, howns, Multiset.cons_add]
    exact howned

/-- An access keeps the queue. -/
theorem QueueInv.access (h : QueueInv d.jobqueue pcs) (hd : DestroyInv pcs)
    (hexcl : Excludes (poolCode body) poolHolds pcs t)
    (ha : PoolAccess body (pcs t) d next d') : QueueInv d'.jobqueue (Function.update pcs t next) := by
  have hcleared : ∀ u, u ≠ t → (pcs u).cleared = false := by
    intro u hut
    have hc := hd.not_clearing ha hut
    cases hu : (pcs u).cleared with
    | false => rfl
    | true => exact absurd (hc.symm.trans (PoolPc.clearing_of_cleared hu)) Bool.false_ne_true
  rcases ha.queue_cases with ⟨q, hq, rfl⟩ | ⟨work, calls, last, -, hp, rfl, hq⟩ | hs
  · exact h.queueAccess hd hexcl hcleared ha.holds hq
  · rw [hq]
    exact h.alloc hp
  · have howned : Owned d.jobqueue.heap (liveJobs d.jobqueue (Function.update pcs t next))
        (madeJobs d.jobqueue (Function.update pcs t next)) := by
      rw [liveJobs, madeJobs, tally_update_of_eq (hs.owns_eq (h.view t)), tally_update_of_eq hs.pushing_eq]
      exact h.owned
    rw [hs.queue_eq]
    by_cases hp : .rwmutex ∈ poolHolds (pcs t)
    · exact .inside hexcl hp (ha.holds ▸ hp) h.split (hs.view hp (h.view t hp)) howned hcleared
    · refine h.outside (ha.holds ▸ hp) hp (fun _ _ => rfl) (fun _ _ _ _ => rfl) howned fun hn => ?_
      rcases hs.cleared hn with hc | ⟨hc, hlen⟩
      · exact h.cleared t hc
      · refine JobQueue.jobs_eq_nil (h.settled fun u => ?_) hlen
        by_cases hut : u = t
        · exact hut ▸ hp
        · exact hd.not_holds (by rw [hc]; rfl) hut

/-- Every interleaving keeps the queue. -/
theorem queueInv_preserved : Preserved (T := ι ⊕ κ) (poolCode body) poolHolds
    (fun (_ : PoolData J) pcs _ => DestroyInv pcs)
    fun d pcs => QueueInv d.jobqueue pcs where
  goes _ _ _ _ _ h hnext hexcl := h.goes (poolGoes_of_code hnext) hexcl
  access _ _ _ _ _ _ hd h hexcl hcode hf := h.access hd hexcl (poolAccess_of_code hcode hf)

omit [DecidableEq ι] in
theorem queueInv_poolInit (failed : Nat) (creator : κ) (callers : κ → PoolCaller J) :
    QueueInv (poolInit ι κ failed creator callers).shared.jobqueue (poolInit ι κ failed creator callers).pc where
  split := rfl
  view := poolInit_places failed creator callers (fun _ p => .rwmutex ∈ poolHolds p → _) nofun nofun nofun
  settled _ := ⟨⟨rfl, rfl⟩, rfl⟩
  owned := by
    have howns := poolInit_places failed creator callers (fun _ : ι ⊕ κ => fun p => p.owns = 0 ∧ p.pushing = 0)
      (fun _ => ⟨rfl, rfl⟩) (fun _ => ⟨rfl, rfl⟩) fun _ => ⟨rfl, rfl⟩
    rw [liveJobs, madeJobs, tally_eq_zero fun t => (howns t).1, tally_eq_zero fun t => (howns t).2]
    exact .empty
  cleared := poolInit_places failed creator callers (fun _ p => p.cleared = true → _) nofun nofun nofun

end Inv

end Libcp2p

import Libcp2p.Lib.Heap
import Libcp2p.Lib.Threads
import Mathlib.Data.Fintype.Card

/-!
# The thread pool

The threads of a pool (`thread_do`) and its callers (`thpool_add_work`, `thpool_wait`, `thpool_destroy`) run
concurrently, each statement of the source that reads or writes shared memory being one step. The queue of jobs is a
linked list in a heap of `job` records, guarded by `rwmutex`; the counts of threads are guarded by `thcount_lock`; and
`has_jobs` is a binary semaphore made of a flag, a mutex and a condition variable. The waits of `thpool_wait` and
`thpool_destroy` read the length of the queue and the number of threads alive without a lock, as `thpool_init` does.

A job is a function that a thread calls, and may itself call the pool: `body` says which calls it makes. What else it
does is not modelled, and it returns when it has made them; how long that takes is up to the interleaving. A job does
not destroy the pool that runs it.

`threads_keepalive` is a static variable that every pool of the process shares: another pool that is created sets it,
and one that is destroyed clears it.

The machine also records what no thread reads: the jobs in the order in which they entered the queue (`submitted`) and
left it (`taken`), those that were run (`finished`), and what `thpool_destroy` has freed (`freed`).
-/

namespace Libcp2p

/-- The mutexes of a pool. -/
inductive PoolMutex
  | thcountLock
  | rwmutex
  | bsemMutex
  deriving DecidableEq, Repr

/-- The condition variables of a pool; `hasJobs` is that of the semaphore. -/
inductive PoolCond
  | threadsAllIdle
  | hasJobs
  deriving DecidableEq, Repr

/-- Who takes a job from the queue: a thread of the pool to run it, or `jobqueue_clear` to free it. -/
inductive Puller
  | thread
  | clear
  deriving DecidableEq, Repr

/-- The blocks of a pool apart from its jobs: the semaphore, the records of its threads, their array, and the pool. -/
inductive PoolBlock
  | hasJobs
  | thread (n : Nat)
  | threads
  | pool
  deriving DecidableEq, Repr

/-- The queue of jobs. A `job` is a cell of the heap, its value the function and the argument, its link `prev`. -/
structure JobQueue (J : Type) where
  front : Option Nat
  rear : Option Nat
  /-- an `int` -/
  len : Int
  heap : Heap J
  submitted : List (Nat × J)
  taken : List (Puller × Nat × J)
  deriving DecidableEq, Repr

/-- What the threads and the callers of a pool share. -/
structure PoolData (J : Type) where
  threadsKeepalive : Bool
  /-- `thpool_init` has returned -/
  initialised : Bool
  numThreads : Int
  numThreadsAlive : Int
  numThreadsWorking : Int
  /-- the value of the semaphore -/
  v : Bool
  jobqueue : JobQueue J
  /-- the `threads_total` of the caller that destroys the pool -/
  threadsTotal : Int
  finished : List (Nat × J)
  freed : List PoolBlock
  deriving DecidableEq, Repr

/-- A call on the pool; or another pool is created or destroyed. -/
inductive PoolCall (J : Type)
  | addWork (job : J) (malloc : Bool)
  | wait
  | otherPool (keepalive : Bool)
  deriving DecidableEq, Repr

/-- What follows the calls: a caller is done with the pool or destroys it, and a thread has run its job. -/
inductive PoolEnd (J : Type)
  | caller (destroys : Bool)
  | job (job : Nat) (work : J)
  deriving DecidableEq, Repr

/-- The calls that a caller, or the job that a thread runs, has still to make. -/
structure PoolProgram (J : Type) where
  calls : List (PoolCall J)
  last : PoolEnd J
  deriving DecidableEq, Repr

/-- What a caller does with the pool: its calls, and whether it destroys the pool after them. -/
structure PoolCaller (J : Type) where
  calls : List (PoolCall J)
  destroys : Bool
  deriving DecidableEq, Repr

/-- Where a thread of the pool or a caller is; outside its own loop it has the calls still to make with it. -/
inductive PoolPc (J : Type)
  -- `thread_do`
  | start
  | register
  | registered
  | whileKeepalive
  | bsemWaitLock
  | bsemWaitTest
  | bsemWaitSleep
  | bsemWaitTake
  | bsemWaitUnlock
  | ifKeepalive
  | countLock
  | count
  | countUnlock
  | pulled (job : Option Nat)
  | freeJob (job : Nat)
  | uncountLock
  | uncount
  | signalIdle
  | uncountUnlock
  | exitLock
  | exitCount
  | exitUnlock
  | exited
  -- `jobqueue_pull`
  | pullLock (who : Puller)
  | pullFront (who : Puller)
  | pullSwitch (who : Puller) (job : Option Nat)
  | pullFrontNull (who : Puller) (job : Option Nat)
  | pullRearNull (who : Puller) (job : Option Nat)
  | pullLenZero (who : Puller) (job : Option Nat)
  | pullNext (who : Puller) (job : Option Nat)
  | pullDec (who : Puller) (job : Option Nat)
  | pullPostLock (who : Puller) (job : Option Nat)
  | pullPost (who : Puller) (job : Option Nat)
  | pullPostSignal (who : Puller) (job : Option Nat)
  | pullPostUnlock (who : Puller) (job : Option Nat)
  | pullUnlock (who : Puller) (job : Option Nat)
  -- `thpool_init`, and between the calls on the pool
  | initWait (caller : PoolCaller J)
  | calls (program : PoolProgram J)
  -- `thpool_add_work` and `jobqueue_push`
  | pushLock (job : Nat) (work : J) (program : PoolProgram J)
  | pushPrev (job : Nat) (work : J) (program : PoolProgram J)
  | pushSwitch (job : Nat) (work : J) (program : PoolProgram J)
  | pushFront (job : Nat) (work : J) (program : PoolProgram J)
  | pushLink (job : Nat) (work : J) (program : PoolProgram J)
  | pushRear (job : Nat) (work : J) (program : PoolProgram J)
  | pushInc (job : Nat) (work : J) (program : PoolProgram J)
  | pushPostLock (program : PoolProgram J)
  | pushPost (program : PoolProgram J)
  | pushPostSignal (program : PoolProgram J)
  | pushPostUnlock (program : PoolProgram J)
  | pushUnlock (program : PoolProgram J)
  -- `thpool_wait`, with the number of jobs submitted before the call
  | waitLock (program : PoolProgram J) (before : Nat)
  | waitLen (program : PoolProgram J) (before : Nat)
  | waitWorking (program : PoolProgram J) (before : Nat)
  | waitSleep (program : PoolProgram J) (before : Nat)
  | waitUnlock (program : PoolProgram J) (before : Nat)
  -- `thpool_destroy`, `jobqueue_clear` and `jobqueue_destroy`
  | destroyTotal
  | destroyFlag
  | destroyPoll
  | postAllLock
  | postAll
  | postAllBroadcast
  | postAllUnlock
  | clearWhile
  | clearFree (job : Option Nat)
  | clearFront
  | clearRear
  | clearReset
  | clearLen
  | freeHasJobs
  | freeThread (n : Nat)
  | freeThreads
  | freePool
  | destroyed
  deriving DecidableEq, Repr

/-- A write that leads to one place. -/
def Instr.set {M C P σ : Type} (f : σ → σ) (next : P) : Instr M C P σ := .access fun d => .ok (f d, next)

/-- A test of what the threads share. -/
def Instr.test {M C P σ : Type} (cond : σ → Bool) (yes no : P) : Instr M C P σ :=
  .access fun d => .ok (d, if cond d then yes else no)

variable {J : Type}

/-- Nothing is left to do with the pool. -/
abbrev PoolProgram.done : PoolProgram J := ⟨[], .caller false⟩

/-- The pool is to be destroyed next. -/
abbrev PoolProgram.destroy : PoolProgram J := ⟨[], .caller true⟩

/-- A caller's program. -/
def PoolCaller.program (caller : PoolCaller J) : PoolProgram J := ⟨caller.calls, .caller caller.destroys⟩

namespace JobQueue

/-- A job leaves the queue. -/
def take (who : Puller) (job : Option Nat) (q : JobQueue J) : JobQueue J :=
  match job with
  | none => q
  | some a =>
    match q.heap.read a with
    | none => q
    | some cell => { q with taken := q.taken ++ [(who, a, cell.value)] }

/-- `front = job_p->prev`. -/
def advance (who : Puller) (job : Option Nat) (q : JobQueue J) : Except Fault (JobQueue J) :=
  match job with
  | none => .error .outOfBounds
  | some a =>
    match q.heap.read a with
    | none => .error .outOfBounds
    | some cell => .ok { q.take who job with front := cell.next }

/-- `free(job_p)`; a null pointer may be freed. -/
def freeJob (job : Option Nat) (q : JobQueue J) : Except Fault (JobQueue J) :=
  match job with
  | none => .ok q
  | some a =>
    match q.heap.read a with
    | none => .error .invalidFree
    | some _ => .ok { q with heap := q.heap.free a }

/-- `job_p->prev = prev`. -/
def setPrev (job prev : Option Nat) (q : JobQueue J) : Except Fault (JobQueue J) :=
  match job with
  | none => .error .outOfBounds
  | some a =>
    match q.heap.read a with
    | none => .error .outOfBounds
    | some cell => .ok { q with heap := q.heap.write a ⟨cell.value, prev⟩ }

/-- `len++`, with which the job is in the queue. -/
def inc (job : Nat) (work : J) (q : JobQueue J) : Except Fault (JobQueue J) :=
  if q.len + 1 < 2 ^ 31 then .ok { q with len := q.len + 1, submitted := q.submitted ++ [(job, work)] }
  else .error .overflow

end JobQueue

/-- `free` of a block of the pool. -/
def PoolData.free (block : PoolBlock) (d : PoolData J) : Except Fault (PoolData J) :=
  if block ∈ d.freed then .error .invalidFree else .ok { d with freed := d.freed ++ [block] }

/-- `thread_destroy(thpool_p->threads[n])`. -/
def PoolData.threadDestroy (n : Nat) (d : PoolData J) : Except Fault (PoolData J) :=
  if n < d.numThreads then d.free (.thread n) else .error .outOfBounds

/-- An access that leads to one place. -/
def Instr.data {M C P : Type} (f : PoolData J → Except Fault (PoolData J)) (next : P) : Instr M C P (PoolData J) :=
  .access fun d => (f d).map fun d => (d, next)

/-- An access to the queue that leads to one place. -/
def Instr.queue {M C P : Type} (f : JobQueue J → Except Fault (JobQueue J)) (next : P) : Instr M C P (PoolData J) :=
  .access fun d => (f d.jobqueue).map fun q => ({ d with jobqueue := q }, next)

/-- Where `jobqueue_pull` returns to. -/
def pullReturn (job : Option Nat) : Puller → PoolPc J
  | .thread => .pulled job
  | .clear => .clearFree job

/-- The `switch` of `jobqueue_pull`. -/
def pullCase (who : Puller) (job : Option Nat) (len : Int) : PoolPc J :=
  if len = 0 then .pullUnlock who job
  else if len = 1 then .pullFrontNull who job
  else .pullNext who job

/-- The next call of a caller that has the pool, or of a job. -/
def beginCall (call : PoolCall J) (program : PoolProgram J) (d : PoolData J) : PoolData J × PoolPc J :=
  match call with
  | .addWork job true =>
    ({ d with jobqueue.heap := d.jobqueue.heap.alloc ⟨job, none⟩ }, .pushLock d.jobqueue.heap.fresh job program)
  | .addWork _ false => (d, .calls program)
  | .wait => (d, .waitLock program d.jobqueue.submitted.length)
  | .otherPool keepalive => ({ d with threadsKeepalive := keepalive }, .calls program)

section Code

variable (body : J → List (PoolCall J))

/-- Where a thread goes with the job it was given, if any: it reads `function` and `arg` and calls the function. -/
def readJob (job : Option Nat) (d : PoolData J) : Except Fault (PoolData J × PoolPc J) :=
  match job with
  | none => .ok (d, .uncountLock)
  | some a =>
    match d.jobqueue.heap.read a with
    | none => .error .outOfBounds
    | some cell => .ok (d, .calls ⟨body cell.value, .job a cell.value⟩)

/-- The code of the threads and the callers. -/
def poolCode : PoolPc J → Instr PoolMutex PoolCond (PoolPc J) (PoolData J)
  | .start => .lock .thcountLock .register
  | .register => .set (fun d => { d with numThreadsAlive := d.numThreadsAlive + 1 }) .registered
  | .registered => .unlock .thcountLock .whileKeepalive
  | .whileKeepalive => .test (·.threadsKeepalive) .bsemWaitLock .exitLock
  | .bsemWaitLock => .lock .bsemMutex .bsemWaitTest
  | .bsemWaitTest => .test (·.v) .bsemWaitTake .bsemWaitSleep
  | .bsemWaitSleep => .wait .hasJobs .bsemMutex .bsemWaitTest
  | .bsemWaitTake => .set (fun d => { d with v := false }) .bsemWaitUnlock
  | .bsemWaitUnlock => .unlock .bsemMutex .ifKeepalive
  | .ifKeepalive => .test (·.threadsKeepalive) .countLock .whileKeepalive
  | .countLock => .lock .thcountLock .count
  | .count => .set (fun d => { d with numThreadsWorking := d.numThreadsWorking + 1 }) .countUnlock
  | .countUnlock => .unlock .thcountLock (.pullLock .thread)
  | .pulled job => .access (readJob body job)
  | .freeJob job => .queue (·.freeJob (some job)) .uncountLock
  | .uncountLock => .lock .thcountLock .uncount
  | .uncount => .access fun d =>
      let d := { d with numThreadsWorking := d.numThreadsWorking - 1 }
      .ok (d, if d.numThreadsWorking = 0 then .signalIdle else .uncountUnlock)
  | .signalIdle => .signal .threadsAllIdle .uncountUnlock
  | .uncountUnlock => .unlock .thcountLock .whileKeepalive
  | .exitLock => .lock .thcountLock .exitCount
  | .exitCount => .set (fun d => { d with numThreadsAlive := d.numThreadsAlive - 1 }) .exitUnlock
  | .exitUnlock => .unlock .thcountLock .exited
  | .exited => .stop
  | .pullLock who => .lock .rwmutex (.pullFront who)
  | .pullFront who => .access fun d => .ok (d, .pullSwitch who d.jobqueue.front)
  | .pullSwitch who job => .access fun d => .ok (d, pullCase who job d.jobqueue.len)
  | .pullFrontNull who job => .queue (fun q => .ok { q.take who job with front := none }) (.pullRearNull who job)
  | .pullRearNull who job => .queue (fun q => .ok { q with rear := none }) (.pullLenZero who job)
  | .pullLenZero who job => .queue (fun q => .ok { q with len := 0 }) (.pullUnlock who job)
  | .pullNext who job => .queue (·.advance who job) (.pullDec who job)
  | .pullDec who job => .queue (fun q => .ok { q with len := q.len - 1 }) (.pullPostLock who job)
  | .pullPostLock who job => .lock .bsemMutex (.pullPost who job)
  | .pullPost who job => .set (fun d => { d with v := true }) (.pullPostSignal who job)
  | .pullPostSignal who job => .signal .hasJobs (.pullPostUnlock who job)
  | .pullPostUnlock who job => .unlock .bsemMutex (.pullUnlock who job)
  | .pullUnlock who job => .unlock .rwmutex (pullReturn job who)
  | .initWait caller => .access fun d =>
      if d.numThreadsAlive = d.numThreads then .ok ({ d with initialised := true }, .calls caller.program)
      else .ok (d, .initWait caller)
  | .calls ⟨call :: calls, last⟩ => .access fun d =>
      if d.initialised then .ok (beginCall call ⟨calls, last⟩ d) else .ok (d, .calls ⟨call :: calls, last⟩)
  -- the job's function has returned
  | .calls ⟨[], .job job work⟩ => .set (fun d => { d with finished := d.finished ++ [(job, work)] }) (.freeJob job)
  | .calls ⟨[], .caller true⟩ => .test (·.initialised) .destroyTotal (.calls .destroy)
  | .calls ⟨[], .caller false⟩ => .stop
  | .pushLock job work program => .lock .rwmutex (.pushPrev job work program)
  | .pushPrev job work program => .queue (·.setPrev (some job) none) (.pushSwitch job work program)
  | .pushSwitch job work program =>
      .test (decide <| ·.jobqueue.len = 0) (.pushFront job work program) (.pushLink job work program)
  | .pushFront job work program => .queue (fun q => .ok { q with front := some job }) (.pushRear job work program)
  | .pushLink job work program => .queue (fun q => q.setPrev q.rear (some job)) (.pushRear job work program)
  | .pushRear job work program => .queue (fun q => .ok { q with rear := some job }) (.pushInc job work program)
  | .pushInc job work program => .queue (·.inc job work) (.pushPostLock program)
  | .pushPostLock program => .lock .bsemMutex (.pushPost program)
  | .pushPost program => .set (fun d => { d with v := true }) (.pushPostSignal program)
  | .pushPostSignal program => .signal .hasJobs (.pushPostUnlock program)
  | .pushPostUnlock program => .unlock .bsemMutex (.pushUnlock program)
  | .pushUnlock program => .unlock .rwmutex (.calls program)
  | .waitLock program before => .lock .thcountLock (.waitLen program before)
  | .waitLen program before =>
      .test (decide <| ·.jobqueue.len ≠ 0) (.waitSleep program before) (.waitWorking program before)
  | .waitWorking program before =>
      .test (decide <| ·.numThreadsWorking ≠ 0) (.waitSleep program before) (.waitUnlock program before)
  | .waitSleep program before => .wait .threadsAllIdle .thcountLock (.waitLen program before)
  | .waitUnlock program _ => .unlock .thcountLock (.calls program)
  | .destroyTotal => .set (fun d => { d with threadsTotal := d.numThreadsAlive }) .destroyFlag
  | .destroyFlag => .set (fun d => { d with threadsKeepalive := false }) .destroyPoll
  -- the two loops, with and without a time limit, are one
  | .destroyPoll => .test (decide <| ·.numThreadsAlive ≠ 0) .postAllLock .clearWhile
  | .postAllLock => .lock .bsemMutex .postAll
  | .postAll => .set (fun d => { d with v := true }) .postAllBroadcast
  | .postAllBroadcast => .broadcast .hasJobs .postAllUnlock
  | .postAllUnlock => .unlock .bsemMutex .destroyPoll
  | .clearWhile => .test (decide <| ·.jobqueue.len ≠ 0) (.pullLock .clear) .clearFront
  | .clearFree job => .queue (·.freeJob job) .clearWhile
  | .clearFront => .queue (fun q => .ok { q with front := none }) .clearRear
  | .clearRear => .queue (fun q => .ok { q with rear := none }) .clearReset
  | .clearReset => .set (fun d => { d with v := false }) .clearLen
  | .clearLen => .queue (fun q => .ok { q with len := 0 }) .freeHasJobs
  | .freeHasJobs => .data (·.free .hasJobs) (.freeThread 0)
  | .freeThread n => .access fun d =>
      if n < d.threadsTotal then (d.threadDestroy n).map fun d => (d, .freeThread (n + 1)) else .ok (d, .freeThreads)
  | .freeThreads => .data (·.free .threads) .freePool
  | .freePool => .data (·.free .pool) .destroyed
  | .destroyed => .stop

end Code

/-- The mutexes that a thread or a caller holds. -/
def poolHolds : PoolPc J → List PoolMutex
  | .register | .registered | .count | .countUnlock | .uncount | .signalIdle | .uncountUnlock | .exitCount
  | .exitUnlock | .waitLen _ _ | .waitWorking _ _ | .waitSleep _ _ | .waitUnlock _ _ => [.thcountLock]
  | .bsemWaitTest | .bsemWaitSleep | .bsemWaitTake | .bsemWaitUnlock | .postAll | .postAllBroadcast
  | .postAllUnlock => [.bsemMutex]
  | .pullFront _ | .pullSwitch _ _ | .pullFrontNull _ _ | .pullRearNull _ _ | .pullLenZero _ _ | .pullNext _ _
  | .pullDec _ _ | .pullPostLock _ _ | .pullUnlock _ _ | .pushPrev _ _ _ | .pushSwitch _ _ _ | .pushFront _ _ _
  | .pushLink _ _ _ | .pushRear _ _ _ | .pushInc _ _ _ | .pushPostLock _ | .pushUnlock _ => [.rwmutex]
  | .pullPost _ _ | .pullPostSignal _ _ | .pullPostUnlock _ _ | .pushPost _ | .pushPostSignal _ | .pushPostUnlock _ =>
    [.bsemMutex, .rwmutex]
  | _ => []

section Init

variable (ι κ : Type) [Fintype ι] [DecidableEq κ]

/-- A pool for which the threads `ι` were created, `failed` others not (`thread_init` returned -1): `thpool_init` is at
its last loop, in the caller `creator`, and the callers `κ` have their calls before them. -/
def poolInit (failed : Nat) (creator : κ) (callers : κ → PoolCaller J) :
    Threads (ι ⊕ κ) PoolMutex (PoolPc J) (PoolData J) where
  shared := ⟨true, false, Fintype.card ι + failed, 0, 0, false, ⟨none, none, 0, Heap.empty, [], []⟩, 0, [], []⟩
  owner _ := none
  place
    | .inl _ => .ready .start
    | .inr k => .ready (if k = creator then .initWait (callers k) else .calls (callers k).program)

end Init

/-! ## What the code can do -/

/-- The accesses to the queue: from a place and the queue before, the place and the queue after. -/
inductive QueueAccess : PoolPc J → JobQueue J → PoolPc J → JobQueue J → Prop
  | freeJob {q a cell} (h : q.heap.read a = some cell) :
      QueueAccess (.freeJob a) q .uncountLock { q with heap := q.heap.free a }
  | pullFrontNull {q who job taken} (h : q.take who job = { q with taken := taken }) :
      QueueAccess (.pullFrontNull who job) q (.pullRearNull who job) { q with taken := taken, front := none }
  | pullRearNull {q who job} : QueueAccess (.pullRearNull who job) q (.pullLenZero who job) { q with rear := none }
  | pullLenZero {q who job} : QueueAccess (.pullLenZero who job) q (.pullUnlock who job) { q with len := 0 }
  | pullNext {q who a cell} (h : q.heap.read a = some cell) : QueueAccess (.pullNext who (some a)) q
      (.pullDec who (some a)) { q with taken := q.taken ++ [(who, a, cell.value)], front := cell.next }
  | pullDec {q who job} : QueueAccess (.pullDec who job) q (.pullPostLock who job) { q with len := q.len - 1 }
  | pushPrev {q a work program cell} (h : q.heap.read a = some cell) : QueueAccess (.pushPrev a work program) q
      (.pushSwitch a work program) { q with heap := q.heap.write a ⟨cell.value, none⟩ }
  | pushFront {q a work program} :
      QueueAccess (.pushFront a work program) q (.pushRear a work program) { q with front := some a }
  | pushLink {q a work program b cell} (hrear : q.rear = some b) (h : q.heap.read b = some cell) :
      QueueAccess (.pushLink a work program) q (.pushRear a work program)
        { q with heap := q.heap.write b ⟨cell.value, some a⟩ }
  | pushRear {q a work program} :
      QueueAccess (.pushRear a work program) q (.pushInc a work program) { q with rear := some a }
  | pushInc {q a work program} : QueueAccess (.pushInc a work program) q (.pushPostLock program)
      { q with len := q.len + 1, submitted := q.submitted ++ [(a, work)] }
  | clearNull {q} : QueueAccess (.clearFree none) q .clearWhile q
  | clearFree {q a cell} (h : q.heap.read a = some cell) :
      QueueAccess (.clearFree (some a)) q .clearWhile { q with heap := q.heap.free a }
  | clearFront {q} : QueueAccess .clearFront q .clearRear { q with front := none }
  | clearRear {q} : QueueAccess .clearRear q .clearReset { q with rear := none }
  | clearLen {q} : QueueAccess .clearLen q .freeHasJobs { q with len := 0 }

/-- The blocks that are freed: at a place, the next one and the place after it. -/
inductive FreeAccess (total : Int) : PoolPc J → PoolBlock → PoolPc J → Prop
  | hasJobs : FreeAccess total .freeHasJobs .hasJobs (.freeThread 0)
  | thread {n : Nat} (h : n < total) : FreeAccess total (.freeThread n) (.thread n) (.freeThread (n + 1))
  | threads : FreeAccess total .freeThreads .threads .freePool
  | pool : FreeAccess total .freePool .pool .destroyed

/-- The accesses of the code: from a place and what is shared before, the place and what is shared after. -/
inductive PoolAccess (body : J → List (PoolCall J)) : PoolPc J → PoolData J → PoolPc J → PoolData J → Prop
  | queue {p d next q} (h : QueueAccess p d.jobqueue next q) : PoolAccess body p d next { d with jobqueue := q }
  | free {p d next block} (h : FreeAccess d.threadsTotal p block next) :
      PoolAccess body p d next { d with freed := d.freed ++ [block] }
  | register {d} : PoolAccess body .register d .registered { d with numThreadsAlive := d.numThreadsAlive + 1 }
  | goOn {d} (h : d.threadsKeepalive = true) : PoolAccess body .whileKeepalive d .bsemWaitLock d
  | leave {d} (h : d.threadsKeepalive = false) : PoolAccess body .whileKeepalive d .exitLock d
  | posted {d} (h : d.v = true) : PoolAccess body .bsemWaitTest d .bsemWaitTake d
  | notPosted {d} (h : d.v = false) : PoolAccess body .bsemWaitTest d .bsemWaitSleep d
  | bsemWaitTake {d} : PoolAccess body .bsemWaitTake d .bsemWaitUnlock { d with v := false }
  | alive {d} (h : d.threadsKeepalive = true) : PoolAccess body .ifKeepalive d .countLock d
  | notAlive {d} (h : d.threadsKeepalive = false) : PoolAccess body .ifKeepalive d .whileKeepalive d
  | count {d} : PoolAccess body .count d .countUnlock { d with numThreadsWorking := d.numThreadsWorking + 1 }
  | noJob {d} : PoolAccess body (.pulled none) d .uncountLock d
  | readJob {d a cell} (h : d.jobqueue.heap.read a = some cell) :
      PoolAccess body (.pulled (some a)) d (.calls ⟨body cell.value, .job a cell.value⟩) d
  | returns {d a work} : PoolAccess body (.calls ⟨[], .job a work⟩) d (.freeJob a)
      { d with finished := d.finished ++ [(a, work)] }
  | uncountLast {d} (h : d.numThreadsWorking - 1 = 0) :
      PoolAccess body .uncount d .signalIdle { d with numThreadsWorking := d.numThreadsWorking - 1 }
  | uncount {d} (h : d.numThreadsWorking - 1 ≠ 0) :
      PoolAccess body .uncount d .uncountUnlock { d with numThreadsWorking := d.numThreadsWorking - 1 }
  | exitCount {d} : PoolAccess body .exitCount d .exitUnlock { d with numThreadsAlive := d.numThreadsAlive - 1 }
  | pullFront {d who} : PoolAccess body (.pullFront who) d (.pullSwitch who d.jobqueue.front) d
  | pullEmpty {d who job} (h : d.jobqueue.len = 0) : PoolAccess body (.pullSwitch who job) d (.pullUnlock who job) d
  | pullOne {d who job} (h : d.jobqueue.len = 1) : PoolAccess body (.pullSwitch who job) d (.pullFrontNull who job) d
  | pullMore {d who job} (h0 : d.jobqueue.len ≠ 0) (h1 : d.jobqueue.len ≠ 1) :
      PoolAccess body (.pullSwitch who job) d (.pullNext who job) d
  | pullPost {d who job} : PoolAccess body (.pullPost who job) d (.pullPostSignal who job) { d with v := true }
  | initDone {d caller} (h : d.numThreadsAlive = d.numThreads) :
      PoolAccess body (.initWait caller) d (.calls caller.program) { d with initialised := true }
  | initWait {d caller} (h : d.numThreadsAlive ≠ d.numThreads) :
      PoolAccess body (.initWait caller) d (.initWait caller) d
  | noPool {d program} (h : d.initialised = false) (hp : program ≠ .done) :
      PoolAccess body (.calls program) d (.calls program) d
  | addWork {d work calls last} (h : d.initialised = true) :
      PoolAccess body (.calls ⟨.addWork work true :: calls, last⟩) d
        (.pushLock d.jobqueue.heap.fresh work ⟨calls, last⟩)
        { d with jobqueue.heap := d.jobqueue.heap.alloc ⟨work, none⟩ }
  | addWorkFails {d work calls last} (h : d.initialised = true) :
      PoolAccess body (.calls ⟨.addWork work false :: calls, last⟩) d (.calls ⟨calls, last⟩) d
  | wait {d calls last} (h : d.initialised = true) :
      PoolAccess body (.calls ⟨.wait :: calls, last⟩) d (.waitLock ⟨calls, last⟩ d.jobqueue.submitted.length) d
  | otherPool {d keepalive calls last} (h : d.initialised = true) :
      PoolAccess body (.calls ⟨.otherPool keepalive :: calls, last⟩) d (.calls ⟨calls, last⟩)
        { d with threadsKeepalive := keepalive }
  | destroy {d} (h : d.initialised = true) : PoolAccess body (.calls .destroy) d .destroyTotal d
  | pushFirst {d a work program} (h : d.jobqueue.len = 0) :
      PoolAccess body (.pushSwitch a work program) d (.pushFront a work program) d
  | pushMore {d a work program} (h : d.jobqueue.len ≠ 0) :
      PoolAccess body (.pushSwitch a work program) d (.pushLink a work program) d
  | pushPost {d program} : PoolAccess body (.pushPost program) d (.pushPostSignal program) { d with v := true }
  | waitJobs {d program n} (h : d.jobqueue.len ≠ 0) :
      PoolAccess body (.waitLen program n) d (.waitSleep program n) d
  | waitNoJobs {d program n} (h : d.jobqueue.len = 0) :
      PoolAccess body (.waitLen program n) d (.waitWorking program n) d
  | waitWorkers {d program n} (h : d.numThreadsWorking ≠ 0) :
      PoolAccess body (.waitWorking program n) d (.waitSleep program n) d
  | waitDone {d program n} (h : d.numThreadsWorking = 0) :
      PoolAccess body (.waitWorking program n) d (.waitUnlock program n) d
  | destroyTotal {d} : PoolAccess body .destroyTotal d .destroyFlag { d with threadsTotal := d.numThreadsAlive }
  | destroyFlag {d} : PoolAccess body .destroyFlag d .destroyPoll { d with threadsKeepalive := false }
  | threadsLeft {d} (h : d.numThreadsAlive ≠ 0) : PoolAccess body .destroyPoll d .postAllLock d
  | noThreads {d} (h : d.numThreadsAlive = 0) : PoolAccess body .destroyPoll d .clearWhile d
  | postAll {d} : PoolAccess body .postAll d .postAllBroadcast { d with v := true }
  | clearMore {d} (h : d.jobqueue.len ≠ 0) : PoolAccess body .clearWhile d (.pullLock .clear) d
  | clearDone {d} (h : d.jobqueue.len = 0) : PoolAccess body .clearWhile d .clearFront d
  | clearReset {d} : PoolAccess body .clearReset d .clearLen { d with v := false }
  | threadsFreed {d : PoolData J} {n : Nat} (h : d.threadsTotal ≤ n) :
      PoolAccess body (.freeThread n) d .freeThreads d

/-- An access to the queue that returns. -/
theorem queue_eq_ok {e : Except Fault (JobQueue J)} {d d' : PoolData J} {next next' : PoolPc J}
    (h : (e.map fun q => ({ d with jobqueue := q }, next)) = .ok (d', next')) :
    ∃ q, e = .ok q ∧ d' = { d with jobqueue := q } ∧ next' = next := by
  cases e with
  | error e => cases h
  | ok q => cases h; exact ⟨q, rfl, rfl, rfl⟩

theorem queue_ok {e : Except Fault (JobQueue J)} (h : ∃ q, e = .ok q) (d : PoolData J) (next : PoolPc J) :
    ∃ r, (e.map fun q => ({ d with jobqueue := q }, next)) = .ok r := by
  obtain ⟨q, rfl⟩ := h
  exact ⟨_, rfl⟩

theorem data_eq_ok {e : Except Fault (PoolData J)} {d' : PoolData J} {next next' : PoolPc J}
    (h : (e.map fun d => (d, next)) = .ok (d', next')) : e = .ok d' ∧ next' = next := by
  cases e with
  | error e => cases h
  | ok d => cases h; exact ⟨rfl, rfl⟩

theorem data_ok {e : Except Fault (PoolData J)} (h : ∃ d, e = .ok d) (next : PoolPc J) :
    ∃ r, (e.map fun d => (d, next)) = .ok r := by
  obtain ⟨d, rfl⟩ := h
  exact ⟨_, rfl⟩

theorem PoolData.free_eq_ok {block : PoolBlock} {d d' : PoolData J} :
    d.free block = .ok d' ↔ block ∉ d.freed ∧ d' = { d with freed := d.freed ++ [block] } := by
  unfold free
  split_ifs with h
  · exact ⟨fun heq => (by cases heq), fun ⟨hnot, _⟩ => absurd h hnot⟩
  · exact ⟨fun heq => ⟨h, (Except.ok.inj heq).symm⟩, fun ⟨_, heq⟩ => (by rw [heq])⟩

/-- The two ways out of a test. -/
theorem test_eq_ok {σ P : Type} {cond : Bool} {d d' : σ} {yes no next : P}
    (h : (Except.ok (d, if cond then yes else no) : Except Fault (σ × P)) = .ok (d', next)) :
    d' = d ∧ (cond = true ∧ next = yes ∨ cond = false ∧ next = no) := by
  cases cond with
  | true => cases h; exact ⟨rfl, .inl ⟨rfl, rfl⟩⟩
  | false => cases h; exact ⟨rfl, .inr ⟨rfl, rfl⟩⟩

namespace JobQueue

variable {q q' : JobQueue J} {who : Puller} {job prev : Option Nat} {a : Nat}

theorem take_eq (q : JobQueue J) (who : Puller) (job : Option Nat) :
    ∃ taken, q.take who job = { q with taken := taken } := by
  unfold take
  split
  · exact ⟨q.taken, rfl⟩
  · split
    · exact ⟨q.taken, rfl⟩
    · exact ⟨_, rfl⟩

theorem freeJob_eq_ok (h : q.freeJob (some a) = .ok q') :
    ∃ cell, q.heap.read a = some cell ∧ q' = { q with heap := q.heap.free a } := by
  unfold freeJob at h
  cases hr : q.heap.read a with
  | none => simp [hr] at h
  | some cell =>
    simp only [hr, Except.ok.injEq] at h
    exact ⟨cell, rfl, h.symm⟩

theorem setPrev_eq_ok (h : q.setPrev job prev = .ok q') : ∃ a cell, job = some a ∧ q.heap.read a = some cell ∧
    q' = { q with heap := q.heap.write a ⟨cell.value, prev⟩ } := by
  unfold setPrev at h
  cases job with
  | none => cases h
  | some a =>
    cases hr : q.heap.read a with
    | none => simp [hr] at h
    | some cell =>
      simp only [hr, Except.ok.injEq] at h
      exact ⟨a, cell, rfl, hr, h.symm⟩

theorem advance_eq_ok (h : q.advance who job = .ok q') : ∃ a cell, job = some a ∧ q.heap.read a = some cell ∧
    q' = { q with taken := q.taken ++ [(who, a, cell.value)], front := cell.next } := by
  unfold advance at h
  cases job with
  | none => cases h
  | some a =>
    cases hr : q.heap.read a with
    | none => simp [hr] at h
    | some cell =>
      simp only [hr, Except.ok.injEq, take] at h
      exact ⟨a, cell, rfl, hr, h.symm⟩

theorem inc_eq_ok {work : J} (h : q.inc a work = .ok q') :
    q' = { q with len := q.len + 1, submitted := q.submitted ++ [(a, work)] } := by
  unfold inc at h
  split_ifs at h
  exact (Except.ok.inj h).symm

theorem freeJob_ok {cell : Cell J} (hr : q.heap.read a = some cell) : ∃ q', q.freeJob (some a) = .ok q' :=
  ⟨_, by simp only [freeJob, hr]; rfl⟩

theorem setPrev_ok {cell : Cell J} (hr : q.heap.read a = some cell) : ∃ q', q.setPrev (some a) prev = .ok q' :=
  ⟨_, by simp only [setPrev, hr]; rfl⟩

theorem advance_ok {cell : Cell J} (hr : q.heap.read a = some cell) : ∃ q', q.advance who (some a) = .ok q' :=
  ⟨_, by simp only [advance, hr]; rfl⟩

theorem inc_ok (h : q.len + 1 < 2 ^ 31) (work : J) : ∃ q', q.inc a work = .ok q' :=
  ⟨_, by rw [inc, if_pos h]⟩

end JobQueue

variable {body : J → List (PoolCall J)}

/-- An access that frees a block. -/
theorem poolAccess_of_free {p next next' : PoolPc J} {d d' : PoolData J} {block : PoolBlock}
    (hb : FreeAccess d.threadsTotal p block next) (hf : ((d.free block).map fun d => (d, next)) = .ok (d', next')) :
    PoolAccess body p d next' d' := by
  obtain ⟨hok, rfl⟩ := data_eq_ok hf
  obtain ⟨-, rfl⟩ := PoolData.free_eq_ok.mp hok
  exact .free hb

/-- **Inversion** of the accesses. -/
theorem poolAccess_of_code {p next : PoolPc J} {d d' : PoolData J}
    {f : PoolData J → Except Fault (PoolData J × PoolPc J)} (hcode : poolCode body p = .access f)
    (hf : f d = .ok (d', next)) : PoolAccess body p d next d' := by
  cases p with
  | register => cases hcode; cases hf; exact .register
  | bsemWaitTake => cases hcode; cases hf; exact .bsemWaitTake
  | count => cases hcode; cases hf; exact .count
  | exitCount => cases hcode; cases hf; exact .exitCount
  | pullFront who => cases hcode; cases hf; exact .pullFront
  | pullFrontNull who job =>
    cases hcode
    cases hf
    obtain ⟨taken, htaken⟩ := d.jobqueue.take_eq who job
    rw [htaken]
    exact .queue (.pullFrontNull htaken)
  | pullRearNull who job => cases hcode; cases hf; exact .queue .pullRearNull
  | pullLenZero who job => cases hcode; cases hf; exact .queue .pullLenZero
  | pullDec who job => cases hcode; cases hf; exact .queue .pullDec
  | pullPost who job => cases hcode; cases hf; exact .pullPost
  | pushFront job work program => cases hcode; cases hf; exact .queue .pushFront
  | pushRear job work program => cases hcode; cases hf; exact .queue .pushRear
  | pushInc job work program =>
    cases hcode
    obtain ⟨q, hok, rfl, rfl⟩ := queue_eq_ok hf
    rw [JobQueue.inc_eq_ok hok]
    exact .queue .pushInc
  | pushPost program => cases hcode; cases hf; exact .pushPost
  | destroyTotal => cases hcode; cases hf; exact .destroyTotal
  | destroyFlag => cases hcode; cases hf; exact .destroyFlag
  | postAll => cases hcode; cases hf; exact .postAll
  | clearFront => cases hcode; cases hf; exact .queue .clearFront
  | clearRear => cases hcode; cases hf; exact .queue .clearRear
  | clearReset => cases hcode; cases hf; exact .clearReset
  | clearLen => cases hcode; cases hf; exact .queue .clearLen
  | whileKeepalive =>
    cases hcode
    obtain ⟨rfl, ⟨h, rfl⟩ | ⟨h, rfl⟩⟩ := test_eq_ok hf
    · exact .goOn h
    · exact .leave h
  | bsemWaitTest =>
    cases hcode
    obtain ⟨rfl, ⟨h, rfl⟩ | ⟨h, rfl⟩⟩ := test_eq_ok hf
    · exact .posted h
    · exact .notPosted h
  | ifKeepalive =>
    cases hcode
    obtain ⟨rfl, ⟨h, rfl⟩ | ⟨h, rfl⟩⟩ := test_eq_ok hf
    · exact .alive h
    · exact .notAlive h
  | pushSwitch job work program =>
    cases hcode
    obtain ⟨rfl, ⟨h, rfl⟩ | ⟨h, rfl⟩⟩ := test_eq_ok hf
    · exact .pushFirst (of_decide_eq_true h)
    · exact .pushMore (of_decide_eq_false h)
  | waitLen program before =>
    cases hcode
    obtain ⟨rfl, ⟨h, rfl⟩ | ⟨h, rfl⟩⟩ := test_eq_ok hf
    · exact .waitJobs (of_decide_eq_true h)
    · exact .waitNoJobs (not_not.mp (of_decide_eq_false h))
  | waitWorking program before =>
    cases hcode
    obtain ⟨rfl, ⟨h, rfl⟩ | ⟨h, rfl⟩⟩ := test_eq_ok hf
    · exact .waitWorkers (of_decide_eq_true h)
    · exact .waitDone (not_not.mp (of_decide_eq_false h))
  | destroyPoll =>
    cases hcode
    obtain ⟨rfl, ⟨h, rfl⟩ | ⟨h, rfl⟩⟩ := test_eq_ok hf
    · exact .threadsLeft (of_decide_eq_true h)
    · exact .noThreads (not_not.mp (of_decide_eq_false h))
  | clearWhile =>
    cases hcode
    obtain ⟨rfl, ⟨h, rfl⟩ | ⟨h, rfl⟩⟩ := test_eq_ok hf
    · exact .clearMore (of_decide_eq_true h)
    · exact .clearDone (not_not.mp (of_decide_eq_false h))
  | pulled job =>
    cases hcode
    cases job with
    | none => cases hf; exact .noJob
    | some a =>
      cases hr : d.jobqueue.heap.read a with
      | none => simp [readJob, hr] at hf
      | some cell =>
        simp only [readJob, hr, Except.ok.injEq, Prod.mk.injEq] at hf
        obtain ⟨rfl, rfl⟩ := hf
        exact .readJob hr
  | freeJob job =>
    cases hcode
    obtain ⟨q, hok, rfl, rfl⟩ := queue_eq_ok hf
    obtain ⟨cell, hr, rfl⟩ := JobQueue.freeJob_eq_ok hok
    exact .queue (.freeJob hr)
  | clearFree job =>
    cases hcode
    obtain ⟨q, hok, rfl, rfl⟩ := queue_eq_ok hf
    cases job with
    | none => cases hok; exact .queue .clearNull
    | some a =>
      obtain ⟨cell, hr, rfl⟩ := JobQueue.freeJob_eq_ok hok
      exact .queue (.clearFree hr)
  | uncount =>
    cases hcode
    by_cases h : d.numThreadsWorking - 1 = 0
    · simp only [h, if_true, Except.ok.injEq, Prod.mk.injEq] at hf
      obtain ⟨rfl, rfl⟩ := hf
      exact h ▸ .uncountLast h
    · simp only [h, if_false, Except.ok.injEq, Prod.mk.injEq] at hf
      obtain ⟨rfl, rfl⟩ := hf
      exact .uncount h
  | pullSwitch who job =>
    cases hcode
    by_cases h0 : d.jobqueue.len = 0
    · simp only [pullCase, h0, if_true, Except.ok.injEq, Prod.mk.injEq] at hf
      obtain ⟨rfl, rfl⟩ := hf
      exact .pullEmpty h0
    · by_cases h1 : d.jobqueue.len = 1
      · simp only [pullCase, h1, if_true, Except.ok.injEq, Prod.mk.injEq] at hf
        obtain ⟨rfl, rfl⟩ := hf
        exact .pullOne h1
      · simp only [pullCase, h0, h1, if_false, Except.ok.injEq, Prod.mk.injEq] at hf
        obtain ⟨rfl, rfl⟩ := hf
        exact .pullMore h0 h1
  | pullNext who job =>
    cases hcode
    obtain ⟨q, hok, rfl, rfl⟩ := queue_eq_ok hf
    obtain ⟨a, cell, rfl, hr, rfl⟩ := JobQueue.advance_eq_ok hok
    exact .queue (.pullNext hr)
  | initWait caller =>
    cases hcode
    by_cases h : d.numThreadsAlive = d.numThreads
    · cases (if_pos h).symm.trans hf
      exact .initDone h
    · cases (if_neg h).symm.trans hf
      exact .initWait h
  | calls program =>
    obtain ⟨calls, last⟩ := program
    cases calls with
    | nil =>
      cases last with
      | caller destroys =>
        cases destroys with
        | false => cases hcode
        | true =>
          cases hcode
          obtain ⟨rfl, ⟨h, rfl⟩ | ⟨h, rfl⟩⟩ := test_eq_ok hf
          · exact .destroy h
          · exact .noPool h nofun
      | job job work => cases hcode; cases hf; exact .returns
    | cons call calls =>
      cases hcode
      cases hi : d.initialised with
      | false =>
        simp only [hi, Bool.false_eq_true, if_false, Except.ok.injEq, Prod.mk.injEq] at hf
        obtain ⟨rfl, rfl⟩ := hf
        exact .noPool hi nofun
      | true =>
        simp only [hi, if_true, Except.ok.injEq] at hf
        cases call with
        | addWork work malloc =>
          cases malloc with
          | true => cases hf; exact .addWork hi
          | false => cases hf; exact .addWorkFails hi
        | wait => cases hf; exact .wait hi
        | otherPool keepalive => cases hf; exact .otherPool hi
  | pushPrev job work program =>
    cases hcode
    obtain ⟨q, hok, rfl, rfl⟩ := queue_eq_ok hf
    obtain ⟨a, cell, h, hr, rfl⟩ := JobQueue.setPrev_eq_ok hok
    cases h
    exact .queue (.pushPrev hr)
  | pushLink job work program =>
    cases hcode
    obtain ⟨q, hok, rfl, rfl⟩ := queue_eq_ok hf
    obtain ⟨b, cell, h, hr, rfl⟩ := JobQueue.setPrev_eq_ok hok
    exact .queue (.pushLink h hr)
  | freeHasJobs => cases hcode; exact poolAccess_of_free .hasJobs hf
  | freeThread n =>
    cases hcode
    by_cases h : n < d.threadsTotal
    · replace hf := (if_pos h).symm.trans hf
      unfold PoolData.threadDestroy at hf
      split_ifs at hf
      · exact poolAccess_of_free (.thread h) hf
      · cases hf
    · cases (if_neg h).symm.trans hf
      exact .threadsFreed (not_lt.mp h)
  | freeThreads => cases hcode; exact poolAccess_of_free .threads hf
  | freePool => cases hcode; exact poolAccess_of_free .pool hf
  | _ => cases hcode

theorem PoolAccess.holds {p next : PoolPc J} {d d' : PoolData J} (h : PoolAccess body p d next d') :
    poolHolds next = poolHolds p := by
  cases h with
  | queue h => cases h <;> rfl
  | free h => cases h <;> rfl
  | _ => rfl

/-- Between its calls a caller or a job has an access before it, or is done. -/
theorem poolCode_calls (body : J → List (PoolCall J)) (program : PoolProgram J) :
    program = .done ∧ poolCode body (.calls program) = .stop ∨ ∃ f, poolCode body (.calls program) = .access f := by
  obtain ⟨calls, last⟩ := program
  cases calls with
  | nil =>
    cases last with
    | caller destroys =>
      cases destroys with
      | false => exact .inl ⟨rfl, rfl⟩
      | true => exact .inr ⟨_, rfl⟩
    | job a work => exact .inr ⟨_, rfl⟩
  | cons call calls => exact .inr ⟨_, rfl⟩

/-- The mutexes of a pool are properly nested. -/
theorem poolNested : Nested (poolCode body) poolHolds where
  nodup p := by
    cases p <;> first | exact List.nodup_nil | exact List.nodup_singleton _ | simp [poolHolds]
  nests p := by
    have haccess : ∀ {f : PoolData J → Except Fault (PoolData J × PoolPc J)}, poolCode body p = .access f →
        ∀ d d' next, f d = .ok (d', next) → poolHolds next = poolHolds p := fun hcode _ _ _ hf =>
      (poolAccess_of_code hcode hf).holds
    cases p with
    | calls program =>
      rcases poolCode_calls body program with ⟨-, hcode⟩ | ⟨f, hcode⟩
      · rw [hcode]
        rfl
      · have h := haccess hcode
        rw [hcode]
        exact h
    | pullUnlock who job => cases who <;> rfl
    | _ => first | rfl | exact ⟨rfl, rfl⟩ | exact haccess rfl

/-- The instructions that are not accesses: from a place to the next. -/
inductive PoolGoes : PoolPc J → PoolPc J → Prop
  | start : PoolGoes .start .register
  | registered : PoolGoes .registered .whileKeepalive
  | bsemWaitLock : PoolGoes .bsemWaitLock .bsemWaitTest
  | bsemWaitSleep : PoolGoes .bsemWaitSleep .bsemWaitTest
  | bsemWaitUnlock : PoolGoes .bsemWaitUnlock .ifKeepalive
  | countLock : PoolGoes .countLock .count
  | countUnlock : PoolGoes .countUnlock (.pullLock .thread)
  | uncountLock : PoolGoes .uncountLock .uncount
  | signalIdle : PoolGoes .signalIdle .uncountUnlock
  | uncountUnlock : PoolGoes .uncountUnlock .whileKeepalive
  | exitLock : PoolGoes .exitLock .exitCount
  | exitUnlock : PoolGoes .exitUnlock .exited
  | pullLock {who} : PoolGoes (.pullLock who) (.pullFront who)
  | pullPostLock {who job} : PoolGoes (.pullPostLock who job) (.pullPost who job)
  | pullPostSignal {who job} : PoolGoes (.pullPostSignal who job) (.pullPostUnlock who job)
  | pullPostUnlock {who job} : PoolGoes (.pullPostUnlock who job) (.pullUnlock who job)
  | pullUnlockThread {job} : PoolGoes (.pullUnlock .thread job) (.pulled job)
  | pullUnlockClear {job} : PoolGoes (.pullUnlock .clear job) (.clearFree job)
  | pushLock {a work program} : PoolGoes (.pushLock a work program) (.pushPrev a work program)
  | pushPostLock {program} : PoolGoes (.pushPostLock program) (.pushPost program)
  | pushPostSignal {program} : PoolGoes (.pushPostSignal program) (.pushPostUnlock program)
  | pushPostUnlock {program} : PoolGoes (.pushPostUnlock program) (.pushUnlock program)
  | pushUnlock {program} : PoolGoes (.pushUnlock program) (.calls program)
  | waitLock {program n} : PoolGoes (.waitLock program n) (.waitLen program n)
  | waitSleep {program n} : PoolGoes (.waitSleep program n) (.waitLen program n)
  | waitUnlock {program n} : PoolGoes (.waitUnlock program n) (.calls program)
  | postAllLock : PoolGoes .postAllLock .postAll
  | postAllBroadcast : PoolGoes .postAllBroadcast .postAllUnlock
  | postAllUnlock : PoolGoes .postAllUnlock .destroyPoll

theorem poolGoes_of_code {p next : PoolPc J} (h : (poolCode body p).goes = some next) : PoolGoes p next := by
  cases p with
  | calls program => rcases poolCode_calls body program with ⟨-, hcode⟩ | ⟨f, hcode⟩ <;> rw [hcode] at h <;> cases h
  | pullUnlock who job =>
    cases who with
    | thread => cases h; exact .pullUnlockThread
    | clear => cases h; exact .pullUnlockClear
  | _ => cases h <;> constructor

end Libcp2p

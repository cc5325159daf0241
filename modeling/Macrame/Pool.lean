import Macrame.MachineInt
import Macrame.PoolStores

namespace Macrame
open Machines

inductive IdlePolicy where
  | spin
  | spinThenBlock
  | handoff
deriving DecidableEq, Repr

structure SchedulerConfig where
  numWorkers : Nat := 0
  idlePolicy : IdlePolicy := .spinThenBlock
  spinCycles : Nat := 64
  singleThreaded : Bool := false

-- What a `Scheduler` keeps of its config. Threads below `workers` are its
-- workers; all the others are outside.
structure Scheduler where
  idlePolicy : IdlePolicy
  spinCycles : Nat
  singleThreaded : Bool
  workers : Nat
  staffed : singleThreaded = false ↔ 0 < workers

-- The constructor: only the worker-less mode has no workers.
def SchedulerConfig.scheduler (config : SchedulerConfig) (hardwareConcurrency : Nat) : Scheduler where
  idlePolicy := config.idlePolicy
  spinCycles := config.spinCycles
  singleThreaded := config.singleThreaded
  workers :=
    let numWorkers := if config.numWorkers = 0 then hardwareConcurrency else config.numWorkers
    let numWorkers := if numWorkers = 0 then 1 else numWorkers
    if config.singleThreaded then 0 else numWorkers
  staffed := by
    cases config.singleThreaded <;> simp only [if_true,if_false,Bool.false_eq_true] <;> grind

def lowValveThreshold : Int := 64

def globalValveThreshold : Int := 61

-- `since_low` and `since_global` of one worker, which are `int`s.
structure Aging where
  sinceLow : Int
  sinceGlobal : Int
deriving DecidableEq

-- Who has called `find_work`: the main loop, a scan of `spin_scan` or of
-- `handoff_wait`, or the re-check of `park`, which holds the epoch it has read.
inductive Search where
  | loop
  | spin (c : Nat)
  | park (key : Nat)
  | handoff (c : Nat)
deriving DecidableEq

-- Where `find_work` stands.
inductive Scan where
  | high
  | lowValve
  | globalValve
  | own
  | normal
  | steal (start k : Nat)
  | low
deriving DecidableEq

inductive ScanResult where
  | scan (next : Scan)
  | found (n : Nat)
  | nothing
deriving DecidableEq

-- Who runs a task: the worker loop, a yield point of the task below it, or a
-- `drain_serial` loop, which `run_serial` may have started.
inductive Dispatch where
  | worker
  | yield
  | serial (started : Bool)
deriving DecidableEq

structure RunningTask where
  task : Nat
  dispatch : Dispatch
deriving DecidableEq

-- Why a spinner of `handoff_wait` stops.
inductive SpinEnd where
  | found (n : Nat)
  | quit
  | spent
deriving DecidableEq

-- The next load of `all_empty`; `deq` and `b` are what the load before has read.
inductive Probe where
  | count (priority : Priority)
  | head (priority : Priority)
  | tail (priority : Priority) (deq : Nat)
  | bottom (v : ThreadId)
  | top (v : ThreadId) (b : Int)
deriving DecidableEq

-- Where a thread stands. `tasks` are the bodies on its stack, innermost first;
-- `running` is the innermost one's own code, or, without any, the code of an
-- outside thread between its calls.
inductive PoolAt where
  | running (tasks : List RunningTask)
  | putting (tasks : List RunningTask) (n : Nat)
  | pushing (tasks : List RunningTask) (priority : Priority) (n : Nat)
  | advancing (tasks : List RunningTask)
  | deciding (tasks : List RunningTask)
  | waking (tasks : List RunningTask)
  | yielding (tasks : List RunningTask) (own priority : Priority)
  | looping (tasks : List RunningTask) (started : Bool)
  | finding (search : Search) (scan : Scan)
  | checking (search : Search)
  | emptying (probe : Probe)
  | spinning
  | unspinning (stop : SpinEnd)
  | promoting (n : Nat)
  | preparing
  | committing (key : Nat)
  | blocked (key : Nat)
  | exited
deriving DecidableEq

def PoolAt.top : PoolAt := .finding .loop .high

-- How far the destructor has come.
inductive Closing where
  | opened
  | notifying
  | waking
  | closed
deriving DecidableEq

-- The shared state of one scheduler and its threads. `epoch` counts the moves of
-- `Event_count`, which keeps it modulo `2^32`. `ran` is history: the tasks
-- whose bodies have returned.
structure Pool where
  stores : Stores
  thread : ThreadId → PoolAt
  aging : ThreadId → Aging
  epoch : Nat
  numSpinning : Int
  closing : Closing
  submitted : Nat
  ran : List Nat

def epochModulus : Nat := 4294967296

-- `quit_` is the first store of the destructor.
def Pool.quit (s : Pool) : Bool := s.closing != .opened

def Pool.goes (s : Pool) (i : ThreadId) (next : PoolAt) : Pool :=
  { s with thread := Function.update s.thread i next }

def Pool.withSerial (s : Pool) (i : ThreadId) (t : Trampoline) : Pool :=
  { s with stores := { s.stores with serial := Function.update s.stores.serial i t } }

-- The victim of the `k`-th steal of a scan that begins at `start`.
def victim (workers start k : Nat) : ThreadId :=
  let v := start+k
  if workers ≤ v then v-workers else v

def Scan.call (c : Scheduler) (worker : ThreadId) : Scan → Option StoreCall
  | .high => some (.pop .high)
  | .lowValve => some (.pop .low)
  | .globalValve => some (.pop .normal)
  | .own => some .take
  | .normal => some (.pop .normal)
  | .steal start k =>
    if k < c.workers ∧ victim c.workers start k ≠ worker then some (.steal (victim c.workers start k)) else none
  | .low => some (.pop .low)

def Aging.valve (a : Aging) : Aging×ScanResult :=
  if globalValveThreshold ≤ a.sinceGlobal then ({ a with sinceGlobal := 0 },.scan .globalValve) else (a,.scan .own)

-- What `find_work` does with the answer of the call it has made. `pick` is what
-- `next_rand` gives.
def Scan.answered (c : Scheduler) (pick : Nat) (a : Aging) : Scan → Option Nat → Aging×ScanResult
  | .high,some n => ({ a with sinceLow := int32 (a.sinceLow+1) },.found n)
  | .high,none => if lowValveThreshold ≤ a.sinceLow then (a,.scan .lowValve) else a.valve
  | .lowValve,some n => ({ a with sinceLow := 0 },.found n)
  | .lowValve,none => { a with sinceLow := 0 }.valve
  | .globalValve,some n => ({ a with sinceLow := int32 (a.sinceLow+1) },.found n)
  | .globalValve,none => (a,.scan .own)
  | .own,some n => (⟨int32 (a.sinceLow+1),int32 (a.sinceGlobal+1)⟩,.found n)
  | .own,none => (a,.scan .normal)
  | .normal,some n => (⟨int32 (a.sinceLow+1),0⟩,.found n)
  | .normal,none => (a,.scan (if 1 < c.workers then .steal (pick % c.workers) 0 else .low))
  | .steal _ _,some n => ({ a with sinceLow := int32 (a.sinceLow+1) },.found n)
  | .steal start k,none => (a,.scan (.steal start (k+1)))
  | .low,some n => ({ a with sinceLow := 0 },.found n)
  | .low,none => (a,.nothing)

def PoolAt.call (c : Scheduler) (i : ThreadId) : PoolAt → Option StoreCall
  | .putting _ n => some (.put n)
  | .pushing _ p n => some (.push p n)
  | .yielding _ _ p => some (.pop p)
  | .finding _ scan => scan.call c i
  | _ => none

def Scheduler.signalSubmit (c : Scheduler) (tasks : List RunningTask) : PoolAt :=
  match c.idlePolicy with
  | .spin => .running tasks
  | .spinThenBlock => .advancing tasks
  | .handoff => .advancing tasks

def Search.found (search : Search) (n : Nat) : PoolAt :=
  match search with
  | .handoff _ => .unspinning (.found n)
  | _ => .running [⟨n,.worker⟩]

-- Where a thread goes on when its call has returned.
def PoolAt.answered (c : Scheduler) (pick : Nat) (a : Aging) (out : Option Nat) : PoolAt → Aging×PoolAt
  | .putting tasks n => (a,if out = none then c.signalSubmit tasks else .pushing tasks .normal n)
  | .pushing tasks _ _ => (a,c.signalSubmit tasks)
  | .yielding tasks own p =>
    match out with
    | some n => (a,.running (⟨n,.yield⟩ :: tasks))
    | none => (a,if p = .high ∧ own = .low then .yielding tasks own .normal else .running tasks)
  | .finding search scan =>
    match scan.answered c pick a out with
    | (a,.scan next) => (a,.finding search next)
    | (a,.found n) => (a,search.found n)
    | (a,.nothing) => (a,.checking search)
  | at_ => (a,at_)

def Pool.callStep (c : Scheduler) (s : Pool) (i : ThreadId) (fails : Bool) (pick : Nat) (call : StoreCall) : Pool :=
  let stores := s.stores.access i fails call
  match s.stores.answer stores i call with
  | none => { s with stores }
  | some out =>
    let next := (s.thread i).answered c pick (s.aging i) out
    { s with stores, aging := Function.update s.aging i next.1 }.goes i next.2

-- `wait_for_work` up to its first shared access.
def Scheduler.waitForWork (c : Scheduler) : PoolAt :=
  match c.idlePolicy with
  | .spin => .top
  | .spinThenBlock => if 0 < c.spinCycles then .finding (.spin 0) .high else .preparing
  | .handoff => .spinning

-- After the load of `quit_` that follows a scan without an entry.
def Search.checked (c : Scheduler) (quit : Bool) : Search → PoolAt
  | .loop => if quit then .emptying (.count .high) else c.waitForWork
  | .spin n => if quit then .preparing else if n+1 < c.spinCycles then .finding (.spin (n+1)) .high else .preparing
  | .park key => if quit then .top else .committing key
  | .handoff n =>
    if quit then .unspinning .quit
    else if n+1 < c.spinCycles then .finding (.handoff (n+1)) .high else .unspinning .spent

-- After the decrement of `num_spinning_`, which was `before`.
def SpinEnd.left (before : Int) : SpinEnd → PoolAt
  | .found n => if before = 1 then .promoting n else .running [⟨n,.worker⟩]
  | .quit => .top
  | .spent => .preparing

-- One load of `all_empty`. A container that is not empty sends the worker to
-- `wait_for_work`; with all of them empty it leaves its loop.
def Probe.step (c : Scheduler) (s : Stores) : Probe → PoolAt
  | .count p => if (s.queues p).overflowCount = 0 then .emptying (.head p) else c.waitForWork
  | .head p => .emptying (.tail p (s.queues p).dequeuePos)
  | .tail p deq =>
    if deq = (s.queues p).enqueuePos then
      match p with
      | .high => .emptying (.count .normal)
      | .normal => .emptying (.count .low)
      | .low => if 0 < c.workers then .emptying (.bottom 0) else .exited
    else c.waitForWork
  | .bottom v => .emptying (.top v (s.deques v).bottom)
  | .top v b =>
    if b ≤ (s.deques v).top then if v+1 < c.workers then .emptying (.bottom (v+1)) else .exited else c.waitForWork

-- A waiter that is woken compares again.
def PoolAt.roused : PoolAt → PoolAt
  | .blocked key => .committing key
  | at_ => at_

def Pool.rouse (s : Pool) (w : ThreadId) : Pool := s.goes w (s.thread w).roused

-- The accesses outside the containers. `pick` is the waiter `wake_one` wakes.
def Pool.ownStep (c : Scheduler) (s : Pool) (i : ThreadId) (pick : Nat) : Pool :=
  match s.thread i with
  | .advancing tasks =>
    { s with epoch := s.epoch+1 }.goes i (if c.idlePolicy = IdlePolicy.handoff then .deciding tasks else .waking tasks)
  | .deciding tasks => s.goes i (if s.numSpinning = 0 then .waking tasks else .running tasks)
  | .waking tasks => (s.rouse pick).goes i (.running tasks)
  | .promoting n => { s with epoch := s.epoch+1 }.goes i (.waking [⟨n,.worker⟩])
  | .looping tasks started =>
    let t := s.stores.serial i
    match t.pending[t.head]? with
    | some n =>
      (s.withSerial i { t with head := t.head+1, popped := t.popped++[n] }).goes i
        (.running (⟨n,.serial started⟩ :: tasks))
    | none =>
      if started then (s.withSerial i { t with pending := [], head := 0, draining := false }).goes i (.running tasks)
      else s.goes i (.running tasks)
  | .finding search (.steal start k) =>
    s.goes i (.finding search (if k < c.workers then .steal start (k+1) else .low))
  | .checking search => s.goes i (search.checked c s.quit)
  | .emptying probe => s.goes i (probe.step c s.stores)
  | .spinning =>
    { s with numSpinning := s.numSpinning+1 }.goes i
      (if 0 < c.spinCycles then .finding (.handoff 0) .high else .unspinning .spent)
  | .unspinning stop => { s with numSpinning := s.numSpinning-1 }.goes i (stop.left s.numSpinning)
  | .preparing => s.goes i (.finding (.park s.epoch) .high)
  | .committing key => s.goes i (if s.epoch % epochModulus = key % epochModulus then .blocked key else .top)
  | _ => s

-- `submit` up to its first shared access. In worker-less mode it is `run_serial`.
def Pool.submit (c : Scheduler) (s : Pool) (i : ThreadId) (tasks : List RunningTask) (priority : Priority) : Pool :=
  let n := s.submitted
  let s := { s with submitted := n+1 }
  if c.singleThreaded then
    let t := s.stores.serial i
    if t.draining then s.withSerial i (t.push n)
    else (s.withSerial i { t.push n with draining := true }).goes i (.looping tasks true)
  else if priority = .normal ∧ i < c.workers then s.goes i (.putting tasks n)
  else s.goes i (.pushing tasks priority n)

-- Where a thread goes on when the body on top of its stack has returned.
def Dispatch.back (tasks : List RunningTask) : Dispatch → PoolAt
  | .worker => .top
  | .yield => .running tasks
  | .serial started => .looping tasks started

inductive PoolAction where
  | submit (i : ThreadId) (priority : Priority)
  | yield (i : ThreadId) (own : Priority)
  | drain (i : ThreadId)
  | finish (i : ThreadId)
  | step (i : ThreadId) (fails : Bool) (pick : Nat)
  | rouse (w : ThreadId)
  | quit
  | close
deriving DecidableEq

def Pool.step (c : Scheduler) (s : Pool) (i : ThreadId) (fails : Bool) (pick : Nat) : Pool :=
  match (s.thread i).call c i with
  | some call => s.callStep c i fails pick call
  | none => s.ownStep c i pick

-- `yield_to_higher` returns at once for high code, inside a task run at a yield
-- point, and outside the workers. `drain` is `drain_serial_pending`.
def Pool.apply (c : Scheduler) (s : Pool) : PoolAction → Pool
  | .submit i priority =>
    match s.thread i with
    | .running tasks => s.submit c i tasks priority
    | _ => s
  | .yield i own =>
    match s.thread i with
    | .running tasks =>
      if own = .high ∨ tasks.any (fun t => t.dispatch = .yield) ∨ c.workers ≤ i then s
      else s.goes i (.yielding tasks own .high)
    | _ => s
  | .drain i =>
    match s.thread i with
    | .running tasks => s.goes i (.looping tasks false)
    | _ => s
  | .finish i =>
    match s.thread i with
    | .running (t :: rest) => { s with ran := s.ran++[t.task] }.goes i (t.dispatch.back rest)
    | _ => s
  | .step i fails pick => s.step c i fails pick
  | .rouse w => s.rouse w
  | .quit => { s with closing := .notifying }
  | .close =>
    match s.closing with
    | .notifying =>
      if c.idlePolicy = .spin then { s with closing := .closed } else { s with epoch := s.epoch+1, closing := .waking }
    | .waking => { s with closing := .closed, thread := fun w => (s.thread w).roused }
    | _ => s

def PoolAt.runs : PoolAt → Bool
  | .running _ => true
  | _ => false

def PoolAt.isBlocked : PoolAt → Bool
  | .blocked _ => true
  | _ => false

-- `wake_one` wakes a waiter if there is any.
def Pool.Steps (c : Scheduler) (s : Pool) (i : ThreadId) (pick : Nat) : Prop :=
  match s.thread i with
  | .running _ => False
  | .blocked _ => False
  | .exited => False
  | .waking _ => (∃ w, w < c.workers ∧ (s.thread w).isBlocked = true) → (s.thread pick).isBlocked = true
  | at_ => ∀ call ∈ at_.call c i, s.stores.Ready i call

def Pool.Allowed (c : Scheduler) (s : Pool) : PoolAction → Prop
  | .submit i _ => (s.thread i).runs = true
  | .yield i _ => (s.thread i).runs = true
  | .drain i => (s.thread i).runs = true
  | .finish i => (s.thread i).runs = true ∧ s.thread i ≠ .running []
  | .step i _ pick => s.Steps c i pick
  | .rouse w => (s.thread w).isBlocked = true
  | .quit => s.closing = .opened
  | .close => s.closing ≠ .opened ∧ s.closing ≠ .closed

instance Stores.decideReady (s : Stores) (i : ThreadId) : (call : StoreCall) → Decidable (s.Ready i call)
  | .pop p => inferInstanceAs (Decidable (((s.queues p).thread i).locking = true → (s.queues p).overflowMutex = none))
  | .push p _ => inferInstanceAs (Decidable (((s.queues p).thread i).locking = true → (s.queues p).overflowMutex = none))
  | .take => inferInstanceAs (Decidable True)
  | .put _ => inferInstanceAs (Decidable True)
  | .steal _ => inferInstanceAs (Decidable True)

instance Pool.decideSteps (c : Scheduler) (s : Pool) (i : ThreadId) (pick : Nat) : Decidable (s.Steps c i pick) := by
  unfold Pool.Steps
  split <;> infer_instance

instance Pool.decideAllowed (c : Scheduler) (s : Pool) : (action : PoolAction) → Decidable (s.Allowed c action)
  | .submit i _ => inferInstanceAs (Decidable ((s.thread i).runs = true))
  | .yield i _ => inferInstanceAs (Decidable ((s.thread i).runs = true))
  | .drain i => inferInstanceAs (Decidable ((s.thread i).runs = true))
  | .finish i => inferInstanceAs (Decidable ((s.thread i).runs = true ∧ s.thread i ≠ .running []))
  | .step i _ pick => inferInstanceAs (Decidable (s.Steps c i pick))
  | .rouse w => inferInstanceAs (Decidable ((s.thread w).isBlocked = true))
  | .quit => inferInstanceAs (Decidable (s.closing = .opened))
  | .close => inferInstanceAs (Decidable (s.closing ≠ .opened ∧ s.closing ≠ .closed))

-- Every worker begins at the top of its loop.
def Pool.fresh (c : Scheduler) : Pool where
  stores := .fresh
  thread := fun i => if i < c.workers then .top else .running []
  aging := fun _ => ⟨0,0⟩
  epoch := 0
  numSpinning := 0
  closing := .opened
  submitted := 0
  ran := []

def poolSystem (c : Scheduler) : Machine Pool PoolAction where
  start := fun s => s = Pool.fresh c
  allowed := Pool.Allowed c
  apply := Pool.apply c

instance Pool.decidePoolSystem (c : Scheduler) (s : Pool) (action : PoolAction) :
    Decidable ((poolSystem c).allowed s action) :=
  inferInstanceAs (Decidable (s.Allowed c action))

end Macrame

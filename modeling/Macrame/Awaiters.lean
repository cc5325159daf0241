import Macrame.Tenure

namespace Macrame

-- An object that a guard is awaited on: its pipe, and the identity of the hold.
structure AwaitTarget where
  hold : HoldId
  pipe : PipeId
  deriving DecidableEq, Repr

-- What `Task_awaiter`, `Access_awaiter` and `Multi_access_awaiter` wait for.
inductive Awaited where
  | task (c : BlockId)
  | access (mode : Access) (target : AwaitTarget)
  | multi (mode : Access) (targets : List AwaitTarget)
  deriving DecidableEq, Repr

namespace Awaited

def targets : Awaited → List AwaitTarget
  | .task _ => []
  | .access _ target => [target]
  | .multi _ targets => targets

def mode : Awaited → Access
  | .task _ => .readOnly
  | .access mode _ => mode
  | .multi mode _ => mode

-- The awaited task has settled; a guard awaits none.
def completed (s : State) : Awaited → Bool
  | .task c => (s.blocks c).completed
  | _ => true

end Awaited

-- One `co_await`. The pipes of a set are in ascending address and each once, as
-- the constructor sorts them; each acquire has a hold of its own. A promise of
-- another library has no segment to bracket.
structure Awaiter where
  awaited : Awaited
  owner : Option BlockId
  ours : Bool
  canonical : awaited.targets.Pairwise (fun a b => a.pipe < b.pipe)
  apart : (awaited.targets.map AwaitTarget.hold).Nodup

-- The values 0, 1 and 2 of `state_`.
inductive Handshake where
  | open_
  | fired
  | suspended
  deriving DecidableEq, Repr

-- Where `await_suspend` stands. `calling` is the callback that `attach` calls
-- itself; `driving k` has the first `k` pipes and is about to acquire the next.
-- It returns false at `continued` and true at `suspended`.
inductive Suspender where
  | recording
  | exiting
  | capturing
  | attaching
  | calling
  | driving (k : Nat)
  | noting (k : Nat)
  | publishing
  | reentering
  | returning
  | continued
  | suspended
  deriving DecidableEq, Repr

-- Where the callback stands: not registered, in the block's `continuations`,
-- moved out by the settle, the node of the hold of pipe `k`, at work with the
-- first `k` pipes acquired, past an exchange that found the frame suspended.
inductive Callback where
  | unattached
  | attached
  | moved
  | queued (k : Nat)
  | driving (k : Nat)
  | winning
  | finished
  deriving DecidableEq, Repr

inductive SegmentStep where
  | exit
  | enter
  deriving DecidableEq, Repr

-- `leaving` counts calls of the callback that have done their work and are on
-- their way out, `items` and `thunks` the resumes in a `Resume_queue` and in
-- `resume_with_access`. History: the calls of `schedule_resume` and of
-- `h.resume()`, the segment steps, whether the awaited task has ever settled.
structure Awaiting where
  base : State
  suspender : Suspender
  word : Handshake := .open_
  callback : Callback := .unattached
  leaving : Nat := 0
  items : Nat := 0
  thunks : Nat := 0
  scheduled : Nat := 0
  resumed : Nat := 0
  segments : List SegmentStep := []
  settled : Bool

inductive AwaitAction where
  | base (a : Action)
  | suspend
  | call
  | callback
  | leave
  | take
  | resume
  deriving DecidableEq, Repr

-- Past the pipe that `await_suspend` has acquired itself: the single-object
-- awaiter has what it wants, and skips the handshake.
def Awaited.acquired (k : Nat) : Awaited → Suspender
  | .access _ _ => .reentering
  | _ => .driving (k+1)

namespace Awaiter

variable (c : Awaiter)

-- `Task_awaiter` records its wait before it leaves the segment.
def entry : Suspender := match c.awaited with
  | .task _ => .recording
  | _ => .exiting

def bracket (step : SegmentStep) : List SegmentStep := if c.ours then [step] else []

-- The task behind a handle: made, and no node of a graph. The handle keeps its
-- block from other use, but a caller-owned one may be fired anew once it settled.
def Made (s : State) : Prop :=
  ∀ b, c.awaited = .task b →
    (s.blocks b).kind ≠ .graphNode ∧ ((s.blocks b).completed = true ∨ (s.progress b).status.resting = false)

def pins (s : State) (a : Action) : Bool := match c.awaited,a with
  | .task b,.arm b' kind _ _ => b != b' || kind == .callerOwned && (s.blocks b).kind == .callerOwned
  | .task b,.createFrame b' => b != b'
  | _,_ => true

end Awaiter

namespace Awaiting

variable (c : Awaiter)

-- A section of the tasks. The one that settles the awaited block moves its
-- continuations out; a node's completion skips them.
def step (w : Awaiting) (base : State) : Awaiting :=
  let settles := c.awaited.completed base
  {w with
    base := base
    settled := w.settled || settles
    callback := match c.awaited with
      | .task b => if w.callback = .attached ∧ settles = true ∧ (base.blocks b).kind ≠ .graphNode then .moved else w.callback
      | _ => w.callback}

def acquire (w : Awaiting) (t : AwaitTarget) : Awaiting :=
  w.step c (w.base.apply (.acquire t.hold t.pipe c.awaited.mode c.owner))

def scheduleResume (w : Awaiting) : Awaiting := {w with scheduled := w.scheduled+1,items := w.items+1}

-- `if (state_.exchange(1) == 2) schedule_resume(h)` on the awaiting thread itself.
def fire (w : Awaiting) : Awaiting :=
  let exchanged := {w with word := .fired}
  if w.word = .suspended then exchanged.scheduleResume else exchanged

def goTo (w : Awaiting) (next : Suspender) : Awaiting := {w with suspender := next}

def segment (w : Awaiting) (step : SegmentStep) : Awaiting := {w with segments := w.segments++c.bracket step}

-- `await_suspend`, from one access to shared state to the next.
def suspend (w : Awaiting) : Awaiting :=
  match w.suspender with
  | .recording => w.goTo .exiting
  | .exiting => (w.segment c .exit).goTo (match c.awaited with
    | .task _ => .attaching
    | .access _ _ => .driving 0
    | .multi _ _ => .capturing)
  | .capturing => w.goTo (.driving 0)
  | .attaching =>
    if c.awaited.completed w.base = true then w.goTo .calling
    else {w with callback := .attached}.goTo .publishing
  | .calling => w.fire.goTo .publishing
  | .driving k =>
    match c.awaited.targets[k]? with
    | none => w.fire.goTo .publishing
    | some t =>
      let asked := w.acquire c t
      if (asked.base.holds t.hold).taken = true then asked.goTo (c.awaited.acquired k)
      else {asked with callback := .queued k}.goTo (.noting k)
  | .noting _ => w.goTo .publishing
  | .publishing => {w with word := .suspended}.goTo (if w.word = Handshake.fired then .reentering else .suspended)
  | .reentering => (w.segment c .enter).goTo .returning
  | .returning => w.goTo .continued
  | .continued => w
  | .suspended => w

-- The settling thread comes to this continuation, or a worker to the closure of
-- a hold that was granted.
def call (w : Awaiting) : Awaiting :=
  match w.callback with
  | .moved => {w with callback := .driving 0}
  | .queued k =>
    match c.awaited.targets[k]? with
    | none => w
    | some t => {w.step c (w.base.apply (.resume (.fireHold t.hold))) with callback := .driving (k+1)}
  | _ => w

def leaves (w : Awaiting) : Awaiting := {w with leaving := w.leaving+1}

-- The callback at work: it drives the rest of the chain, then exchanges.
def callbackStep (w : Awaiting) : Awaiting :=
  match w.callback with
  | .driving k =>
    match c.awaited.targets[k]? with
    | none =>
      if w.word = .suspended then {w with word := .fired,callback := .winning}
      else {w with word := .fired,callback := .finished}.leaves
    | some t =>
      let asked := w.acquire c t
      if (asked.base.holds t.hold).taken = true then {asked with callback := .driving (k+1)}
      else {asked with callback := .queued k}.leaves
  | .winning => {w.scheduleResume with callback := .finished}.leaves
  | _ => w

-- The callback is due to be called; it is at work.
def callable (w : Awaiting) : Bool :=
  match w.callback with
  | .moved => true
  | .queued k => c.awaited.targets[k]?.any (fun t => decide (.fireHold t.hold ∈ w.base.pending))
  | _ => false

def working (w : Awaiting) : Bool :=
  match w.callback with
  | .driving _ => true
  | .winning => true
  | _ => false

-- The times the frame has gone on: `await_suspend` returned false, or it was resumed.
def continues (w : Awaiting) : Nat := (if w.suspender = .continued then 1 else 0)+w.resumed

def Allowed (w : Awaiting) : AwaitAction → Prop
  | .base a => w.base.Allowed a ∧
      (w.continues = 0 → c.pins w.base a = true ∧ ∀ t ∈ c.awaited.targets, a.handles ≠ some t.hold)
  | .suspend => w.suspender ≠ .continued ∧ w.suspender ≠ .suspended
  | .call => w.callable c = true
  | .callback => w.working = true
  | .leave => 0 < w.leaving
  | .take => 0 < w.items
  | .resume => 0 < w.thunks

def apply (w : Awaiting) : AwaitAction → Awaiting
  | .base a => w.step c (w.base.apply a)
  | .suspend => w.suspend c
  | .call => w.call c
  | .callback => w.callbackStep c
  | .leave => {w with leaving := w.leaving-1}
  | .take => {w with items := w.items-1,thunks := w.thunks+1}.segment c .enter
  | .resume => {w with thunks := w.thunks-1,resumed := w.resumed+1}

-- Which steps read or write the awaiter itself, and which the frame's promise.
def reads (w : Awaiting) : AwaitAction → Bool
  | .suspend => match w.suspender with
    | .exiting => false
    | .reentering => false
    | .returning => false
    | .continued => false
    | .suspended => false
    | _ => true
  | .callback => match w.callback with
    | .driving _ => true
    | _ => false
  | _ => false

def brackets (w : Awaiting) : AwaitAction → Bool
  | .suspend => w.suspender == .exiting || w.suspender == .reentering
  | .take => true
  | _ => false

end Awaiting

def awaitSystem (c : Awaiter) : Machines.Machine Awaiting AwaitAction where
  start w := Machines.Reached system w.base ∧ (∀ t ∈ c.awaited.targets, w.base.holds t.hold = .idle) ∧ c.Made w.base ∧
    w = {base := w.base,suspender := c.entry,settled := c.awaited.completed w.base}
  allowed := Awaiting.Allowed c
  apply := Awaiting.apply c

instance Awaiting.decideStep (c : Awaiter) (w : Awaiting) : (a : AwaitAction) → Decidable ((awaitSystem c).allowed w a)
  | .base _ => inferInstanceAs (Decidable (_ ∧ (_ → _ ∧ _)))
  | .suspend => inferInstanceAs (Decidable (_ ∧ _))
  | .call => inferInstanceAs (Decidable (_ = _))
  | .callback => inferInstanceAs (Decidable (_ = _))
  | .leave => inferInstanceAs (Decidable (_ < _))
  | .take => inferInstanceAs (Decidable (_ < _))
  | .resume => inferInstanceAs (Decidable (_ < _))

end Macrame

import Mathlib.Logic.Function.Basic
import Mathlib.Tactic.Simps.Basic
import Macrame.Lib.Machine
import Macrame.PipeLedger
import Macrame.TaskBlock

namespace Macrame

-- What a thread still has to do for a block between two atomic sections. The
-- frames of all threads form one bag: any pending frame may go next, so every
-- interleaving of the threads is among the runs.
inductive LocalFrame where
  | fireTurn (index : Nat)
  | turnRelease
  | childRelease (cancelled : Bool)
  | enterFirst
  | execute
  | complete (cancel : Bool)
  | advance (index : Nat) (cancel : Bool)
  | nodeComplete
  deriving DecidableEq, Repr

inductive Frame where
  | own (owner : BlockId) (frame : LocalFrame)
  | fireHold (node : HoldId)
  deriving DecidableEq, Repr

inductive Hold where
  | idle
  | queued (pipe : PipeId) (mode : Access) (owner : Option BlockId)
  | granted (pipe : PipeId) (mode : Access) (owner : Option BlockId)
  | held (pipe : PipeId) (mode : Access) (owner : Option BlockId)
  deriving DecidableEq, Repr

def Hold.taken : Hold → Bool
  | .held _ _ _ => true
  | _ => false

-- Where a block stands in its cycle. The code keeps no such field: it is
-- written beside the code's own state and steers nothing but the contracts of
-- the calls from outside.
inductive Status where
  | idle
  | armed
  | waiting (index : Nat)
  | admitted (index : Nat)
  | turned
  | ready
  | running
  | draining
  | finishing (cancel : Bool)
  | advancing (index : Nat) (cancel : Bool)
  | concluding
  | retired
  deriving DecidableEq, Repr

-- Not in a cycle: never used, or settled with every link given back.
def Status.resting (status : Status) : Bool := status == .idle || status == .retired

inductive Starter where
  | creator
  | dispatch
  deriving DecidableEq, Repr

-- The history of one cycle of a block.
structure Progress where
  status : Status := .idle
  attached : List BlockId := []
  startedBy : List Starter := []
  inlined : Bool := false
  foundCancelled : Bool := false
  bodies : Nat := 0
  settles : Nat := 0
  zeroCrossings : Nat := 0
  flagCrossings : Nat := 0
  thresholds : Nat := 0
  deriving DecidableEq, Repr

structure State where
  pipes : PipeId → Tracked := fun _ => {}
  blocks : BlockId → Block := fun _ => {}
  holds : HoldId → Hold := fun _ => .idle
  tokens : TokenId → Bool := fun _ => false
  pending : List Frame := []
  progress : BlockId → Progress := fun _ => {}

namespace State

def initial : State := {}

@[simps] def push (s : State) (f : Frame) : State := {s with pending := f :: s.pending}
@[simps] def drop (s : State) (f : Frame) : State := {s with pending := s.pending.erase f}
@[simps] def setPipe (s : State) (p : PipeId) (t : Tracked) : State := {s with pipes := Function.update s.pipes p t}
@[simps] def setBlock (s : State) (b : BlockId) (blk : Block) : State := {s with blocks := Function.update s.blocks b blk}
@[simps] def setHold (s : State) (h : HoldId) (hold : Hold) : State := {s with holds := Function.update s.holds h hold}
@[simps] def setProgress (s : State) (b : BlockId) (pr : Progress) : State :=
  {s with progress := Function.update s.progress b pr}
def setStatus (s : State) (b : BlockId) (status : Status) : State :=
  s.setProgress b {s.progress b with status := status}

-- `pipe_enter_link` for link `i` of `b`.
def enterLink (s : State) (b : BlockId) (i : Nat) : State :=
  match (s.blocks b).links.entries[i]? with
  | none => s
  | some link =>
    let locked := (s.pipes link.pipe).enter ⟨.link b i,link.mode⟩
    let entered := (s.setPipe link.pipe locked.1).setBlock b {s.blocks b with pipesEntered := i+1}
    if locked.2 then (entered.setStatus b (.admitted i)).push (.own b (.fireTurn i))
    else entered.setStatus b (.waiting i)

-- One entry of the granted list: its turn, or its callback, is now to be fired.
def grant (s : State) (l : PipeLink) : State :=
  match l.party with
  | .link b i => (s.setStatus b (.admitted i)).push (.own b (.fireTurn i))
  | .hold h _ =>
    match s.holds h with
    | .queued p mode owner => (s.setHold h (.granted p mode owner)).push (.fireHold h)
    | _ => s.push (.fireHold h)

-- `release_and_redispatch` on behalf of the admission of `l`.
def releasePipe (s : State) (p : PipeId) (l : PipeLink) : State :=
  let locked := (s.pipes p).release l
  locked.2.foldl grant (s.setPipe p locked.1)

-- `fire_task_turn`: enter the next link, then release. The release is its own
-- atomic step.
def fireTurn (s : State) (b : BlockId) (i : Nat) : State :=
  let releasing := s.push (.own b .turnRelease)
  if i+1 < (s.blocks b).links.count then releasing.enterLink b (i+1) else releasing.setStatus b .turned

def releaseBlock (s : State) (b : BlockId) (cancelled : Bool) : State :=
  let released := (s.blocks b).release cancelled
  let pr := s.progress b
  let after := s.setBlock b released.1
  match released.2 with
  | .waiting => after
  | .dispatch =>
    (after.setProgress b {pr with
      status := .ready,startedBy := pr.startedBy++[.dispatch],zeroCrossings := pr.zeroCrossings+1}).push
      (.own b .execute)
  | .complete =>
    (after.setProgress b {pr with status := .finishing false,flagCrossings := pr.flagCrossings+1}).push
      (.own b (.complete false))
  | .enterFirst => (after.setProgress b {pr with thresholds := pr.thresholds+1}).push (.own b .enterFirst)

-- `Executable::run`, `run_graph_node` and `Access_op::State::run` up to the body.
def execute (s : State) (b : BlockId) : State :=
  let blk := s.blocks b
  let pr := s.progress b
  if blk.bodyClaimed then s
  else if blk.foundCancelled s.tokens then
    ((s.setBlock b {blk with bodyClaimed := true}).setProgress b
      {pr with status := .finishing true,foundCancelled := true}).push (.own b (.complete true))
  else
    (s.setBlock b {blk.beginBody with bodyClaimed := true}).setProgress b
      {pr with status := .running,bodies := pr.bodies+1}

-- The generic `settle` under its lock, with the advance its `on_complete` will make.
def settle (s : State) (b : BlockId) (cancel : Bool) : State :=
  ((s.setBlock b {(s.blocks b).settled cancel with nestedParent := none}).setProgress b {s.progress b with
    status := .advancing 0 cancel,settles := (s.progress b).settles+1}).push (.own b (.advance 0 cancel))

-- A settled child no longer gates its parent and owes it one release.
def releaseParent (s : State) (parent b : BlockId) (cancel : Bool) : State :=
  (s.setProgress parent {s.progress parent with attached := (s.progress parent).attached.erase b}).push
    (.own parent (.childRelease cancel))

-- Completion, by kind: a caller-owned block advances its links and settles
-- last, the others settle first. A node is never a child: its slim path skips the parent.
def complete (s : State) (b : BlockId) (cancel : Bool) : State :=
  let blk := s.blocks b
  let pr := s.progress b
  match blk.kind with
  | .callerOwned => (s.setStatus b (.advancing 0 cancel)).push (.own b (.advance 0 cancel))
  | .graphNode =>
    ((s.setBlock b (blk.settled cancel)).setProgress b
      {pr with status := .advancing 0 cancel,settles := pr.settles+1}).push (.own b (.advance 0 cancel))
  | _ =>
    if blk.completed then s
    else match blk.nestedParent with
      | none => s.settle b cancel
      | some parent => (s.settle b cancel).releaseParent parent b cancel

-- One turn of the loop of `advance_pipe_links`, and what follows the loop.
def advance (s : State) (b : BlockId) (i : Nat) (cancel : Bool) : State :=
  let blk := s.blocks b
  let pr := s.progress b
  if i < blk.pipesEntered then
    let moved := (s.setStatus b (.advancing (i+1) cancel)).push (.own b (.advance (i+1) cancel))
    match blk.links.entries[i]? with
    | none => moved
    | some link => moved.releasePipe link.pipe ⟨.link b i,link.mode⟩
  else match blk.kind with
    | .callerOwned =>
      (s.setBlock b (blk.settled cancel)).setProgress b {pr with status := .retired,settles := pr.settles+1}
    | .graphNode => (s.setStatus b .concluding).push (.own b .nodeComplete)
    | _ => s.setStatus b .retired

def runOwn (s : State) (b : BlockId) : LocalFrame → State
  | .fireTurn i => s.fireTurn b i
  | .turnRelease => s.releaseBlock b false
  | .childRelease cancelled => s.releaseBlock b cancelled
  | .enterFirst => s.enterLink b 0
  | .execute => s.execute b
  | .complete cancel => s.complete b cancel
  | .advance i cancel => s.advance b i cancel
  | .nodeComplete => s.setStatus b .retired

def fireHold (s : State) (h : HoldId) : State :=
  match s.holds h with
  | .granted p mode owner => s.setHold h (.held p mode owner)
  | _ => s

def runFrame (s : State) : Frame → State
  | .own b f => (s.drop (.own b f)).runOwn b f
  | .fireHold h => (s.drop (.fireHold h)).fireHold h

def admitInline (s : State) (b : BlockId) (entry : Link × Nat) : State :=
  s.setPipe entry.1.pipe ((s.pipes entry.1.pipe).admitInline ⟨.link b entry.2,entry.1.mode⟩)

-- `pipe_try_inline`: probe every link, then admit every link, or nothing.
def tryInline (s : State) (b : BlockId) : State :=
  let blk := s.blocks b
  let pr := s.progress b
  if blk.links.entries.all (fun link => (s.pipes link.pipe).pipe.free link.mode) then
    let admitted := blk.links.entries.zipIdx.foldl (admitInline · b) s
    ((admitted.setBlock b {blk with pipesEntered := blk.links.count}).setProgress b
      {pr with status := .ready,startedBy := pr.startedBy++[.creator],inlined := true}).push (.own b .execute)
  else s

-- What the creating call does past the probe, and `on_data_ready` for a graph
-- node: dispatch directly when there is no link, else enter the first one.
def launch (s : State) (b : BlockId) : State :=
  let pr := s.progress b
  if (s.blocks b).links.count = 0 then
    (s.setProgress b {pr with status := .ready,startedBy := pr.startedBy++[.creator]}).push (.own b .execute)
  else s.enterLink b 0

def acquire (s : State) (h : HoldId) (p : PipeId) (mode : Access) (owner : Option BlockId) : State :=
  let locked := (s.pipes p).enter ⟨.hold h owner,mode⟩
  (s.setPipe p locked.1).setHold h (if locked.2 then .held p mode owner else .queued p mode owner)

def releaseHold (s : State) (h : HoldId) : State :=
  match s.holds h with
  | .held p mode owner => (s.setHold h .idle).releasePipe p ⟨.hold h owner,mode⟩
  | _ => s

-- The self-lock drop that ends a body.
def bodyEnd (s : State) (b : BlockId) : State :=
  let blk := s.blocks b
  let pr := s.progress b
  let unlocked := s.setBlock b {blk with numLocks := blk.numLocks-1}
  if blk.numLocks = executionFlag+1 then
    (unlocked.setProgress b {pr with status := .finishing false,flagCrossings := pr.flagCrossings+1}).push
      (.own b (.complete false))
  else unlocked.setStatus b .draining

-- `add_nested`, called by the body of `b`. A child that has settled already
-- gives its lock back through a release of its own.
def addNested (s : State) (b c : BlockId) : State :=
  let locked := s.setBlock b {s.blocks b with numLocks := (s.blocks b).numLocks+1}
  if (s.blocks c).completed then locked.push (.own b (.childRelease false))
  else (locked.setBlock c {locked.blocks c with nestedParent := some b}).setProgress b
    {s.progress b with attached := (s.progress b).attached++[c]}

end State

inductive Action where
  | arm (b : BlockId) (kind : Kind) (links : LinkTable) (token : Option TokenId)
  | rebind (b : BlockId) (links : LinkTable)
  | launch (b : BlockId)
  | tryInline (b : BlockId)
  | createFrame (b : BlockId)
  | settleBare (b : BlockId) (cancel : Bool)
  | acquire (h : HoldId) (p : PipeId) (mode : Access) (owner : Option BlockId)
  | releaseHold (h : HoldId)
  | requestCancel (token : TokenId)
  | bodyEnd (b : BlockId)
  | addNested (b c : BlockId)
  | resume (f : Frame)
  deriving DecidableEq, Repr

namespace State

-- Contracts of the calls that come from outside. A pending frame needs none:
-- whatever the code has left to do may happen.
def Allowed (s : State) : Action → Prop
  | .arm b kind links _ =>
    (s.progress b).status.resting = true ∧ kind ≠ .coroutine ∧ (kind = .bare → links.count = 0)
  | .rebind b _ => (s.progress b).status = .armed ∧ (s.blocks b).kind = .callerOwned
  | .launch b => (s.progress b).status = .armed ∧ (s.blocks b).kind ≠ .bare
  | .tryInline b => (s.progress b).status = .armed ∧ (s.blocks b).kind = .callerOwned
  | .createFrame b => (s.progress b).status.resting = true
  | .settleBare b _ => (s.progress b).status = .armed ∧ (s.blocks b).kind = .bare
  | .acquire h _ _ _ => s.holds h = .idle
  | .releaseHold h => (s.holds h).taken = true
  | .requestCancel _ => True
  | .bodyEnd b => (s.progress b).status = .running
  | .addNested b c =>
    (s.progress b).status = .running ∧ b ≠ c ∧ (s.blocks c).nestedParent = none ∧
      (s.blocks c).kind ≠ .graphNode ∧ (s.blocks c).kind ≠ .callerOwned ∧
      ((s.blocks c).completed = true ∨ (s.progress c).status.resting = false)
  | .resume f => f ∈ s.pending

def apply (s : State) : Action → State
  | .arm b kind links token =>
    (s.setBlock b {kind := kind,links := links,numLocks := links.count,token := token}).setProgress b
      {status := .armed}
  | .rebind b links =>
    -- a second `bind_links` of the same fire; with no link left the counter keeps its value
    s.setBlock b {s.blocks b with
      links := links,numLocks := if links.count = 0 then (s.blocks b).numLocks else links.count}
  | .launch b => s.launch b
  | .tryInline b => s.tryInline b
  | .createFrame b =>
    (s.setBlock b {kind := .coroutine,numLocks := executionFlag+1}).setProgress b
      {status := .running,startedBy := [.creator],bodies := 1}
  | .settleBare b cancel => (s.setStatus b (.finishing cancel)).push (.own b (.complete cancel))
  | .acquire h p mode owner => s.acquire h p mode owner
  | .releaseHold h => s.releaseHold h
  | .requestCancel token => {s with tokens := Function.update s.tokens token true}
  | .bodyEnd b => s.bodyEnd b
  | .addNested b c => s.addNested b c
  | .resume f => s.runFrame f

end State

instance (s : State) : (a : Action) → Decidable (s.Allowed a)
  | .arm _ _ _ _ => inferInstanceAs (Decidable (_ ∧ _ ∧ (_ → _)))
  | .rebind _ _ => inferInstanceAs (Decidable (_ ∧ _))
  | .launch _ => inferInstanceAs (Decidable (_ ∧ _))
  | .tryInline _ => inferInstanceAs (Decidable (_ ∧ _))
  | .createFrame _ => inferInstanceAs (Decidable (_ = _))
  | .settleBare _ _ => inferInstanceAs (Decidable (_ ∧ _))
  | .acquire _ _ _ _ => inferInstanceAs (Decidable (_ = _))
  | .releaseHold _ => inferInstanceAs (Decidable (_ = _))
  | .requestCancel _ => inferInstanceAs (Decidable True)
  | .bodyEnd _ => inferInstanceAs (Decidable (_ = _))
  | .addNested _ _ => inferInstanceAs (Decidable (_ ∧ _ ∧ _ ∧ _ ∧ _ ∧ (_ ∨ _)))
  | .resume f => inferInstanceAs (Decidable (f ∈ s.pending))

def system : Machines.Machine State Action := ⟨(· = State.initial),State.Allowed,State.apply⟩

instance (s : State) (a : Action) : Decidable (system.allowed s a) := inferInstanceAs (Decidable (s.Allowed a))

end Macrame

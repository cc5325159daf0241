import Macrame.System

namespace Macrame

-- Everything the system knows of one block: its own fields, how often its
-- links stand in each queue and among the admissions, and what is pending for it.
structure Footprint where
  block : Block
  progress : Progress
  queued : PipeId → Nat → Access → Nat
  held : PipeId → Nat → Access → Nat
  frames : LocalFrame → Nat

structure Holdprint where
  hold : Hold
  queued : PipeId → Option BlockId → Access → Nat
  held : PipeId → Option BlockId → Access → Nat
  fired : Nat

namespace State

def footprint (s : State) (b : BlockId) : Footprint where
  block := s.blocks b
  progress := s.progress b
  queued p i m := (s.pipes p).pipe.queue.count ⟨.link b i,m⟩
  held p i m := (s.pipes p).held.count ⟨.link b i,m⟩
  frames f := s.pending.count (.own b f)

def holdprint (s : State) (h : HoldId) : Holdprint where
  hold := s.holds h
  queued p o m := (s.pipes p).pipe.queue.count ⟨.hold h o,m⟩
  held p o m := (s.pipes p).held.count ⟨.hold h o,m⟩
  fired := s.pending.count (.fireHold h)

end State

namespace Footprint

@[simps] def setBlock (fp : Footprint) (blk : Block) : Footprint := {fp with block := blk}
@[simps] def setProgress (fp : Footprint) (pr : Progress) : Footprint := {fp with progress := pr}
def setStatus (fp : Footprint) (status : Status) : Footprint :=
  fp.setProgress {fp.progress with status := status}
@[simps] def push (fp : Footprint) (f : LocalFrame) : Footprint :=
  {fp with frames := Function.update fp.frames f (fp.frames f+1)}
@[simps] def drop (fp : Footprint) (f : LocalFrame) : Footprint :=
  {fp with frames := Function.update fp.frames f (fp.frames f-1)}
@[simps] def enqueue (fp : Footprint) (p : PipeId) (i : Nat) (m : Access) : Footprint :=
  {fp with queued := fun q j n => fp.queued q j n+if q = p ∧ j = i ∧ n = m then 1 else 0}
@[simps] def dequeue (fp : Footprint) (p : PipeId) (i : Nat) (m : Access) : Footprint :=
  {fp with queued := fun q j n => fp.queued q j n-if q = p ∧ j = i ∧ n = m then 1 else 0}
@[simps] def receive (fp : Footprint) (p : PipeId) (i : Nat) (m : Access) : Footprint :=
  {fp with held := fun q j n => fp.held q j n+if q = p ∧ j = i ∧ n = m then 1 else 0}
@[simps] def leave (fp : Footprint) (p : PipeId) (i : Nat) (m : Access) : Footprint :=
  {fp with held := fun q j n => fp.held q j n-if q = p ∧ j = i ∧ n = m then 1 else 0}

def turns (fp : Footprint) : Nat := fp.frames .turnRelease
def children (fp : Footprint) : Nat := fp.frames (.childRelease false)+fp.frames (.childRelease true)

end Footprint

-- The one frame that carries a block from a status to the next, where the code
-- and not a caller moves it on.
def Status.expects : Status → Option LocalFrame
  | .admitted i => some (.fireTurn i)
  | .ready => some .execute
  | .finishing cancel => some (.complete cancel)
  | .advancing i cancel => some (.advance i cancel)
  | .concluding => some .nodeComplete
  | _ => none

def LocalFrame.control : LocalFrame → Bool
  | .turnRelease => false
  | .childRelease _ => false
  | _ => true

-- Whether link `i` of a block in this status is an admission not yet given back.
def Status.holds : Status → Nat → Bool
  | .idle,_ => false
  | .armed,_ => false
  | .waiting k,i => i < k
  | .admitted k,i => i ≤ k
  | .advancing k _,i => k ≤ i
  | .concluding,_ => false
  | .retired,_ => false
  | _,_ => true

def Status.entered : Status → Nat → Nat
  | .armed,_ => 0
  | .waiting k,_ => k+1
  | .admitted k,_ => k+1
  | _,n => n

-- Past the dispatch that starts it, past the body, past the settle.
def Status.started : Status → Bool
  | .idle => false
  | .armed => false
  | .waiting _ => false
  | .admitted _ => false
  | .turned => false
  | _ => true

def Status.ended : Status → Bool
  | .finishing _ => true
  | .advancing _ _ => true
  | .concluding => true
  | .retired => true
  | _ => false

def Status.settled (kind : Kind) : Status → Bool
  | .advancing _ _ => kind != .callerOwned
  | .concluding => true
  | .retired => true
  | _ => false

def Status.fits : Kind → Status → Bool
  | .bare,.armed => true
  | .bare,status => status == .idle || status.ended && status != .concluding
  | .coroutine,.running => true
  | .coroutine,.draining => true
  | .coroutine,status => status.ended && status != .concluding
  | .graphNode,status => status != .idle
  | _,status => status != .idle && status != .concluding

-- What the lock counter amounts to: the turns not yet released before the body,
-- the self-lock and the children after its start.
def LocksSound (blk : Block) (pr : Progress) (turns children : Nat) : Prop :=
  let n := blk.links.count
  match pr.status with
  | .armed => turns = 0 ∧ children = 0 ∧ pr.attached = [] ∧ 0 ≤ blk.numLocks ∧ (n ≠ 0 → blk.numLocks = n)
  | .waiting k => k < n ∧ blk.numLocks = n-k+turns ∧ turns ≤ k ∧ children = 0 ∧ pr.attached = []
  | .admitted k => k < n ∧ blk.numLocks = n-k+turns ∧ turns ≤ k ∧ children = 0 ∧ pr.attached = []
  | .turned => blk.numLocks = turns ∧ 1 ≤ turns ∧ turns ≤ n ∧ children = 0 ∧ pr.attached = []
  | .running => turns = 0 ∧ blk.numLocks = executionFlag+1+pr.attached.length+children
  | .draining => turns = 0 ∧ blk.numLocks = executionFlag+pr.attached.length+children ∧
      1 ≤ pr.attached.length+children
  | _ => turns = 0 ∧ children = 0 ∧ pr.attached = [] ∧ 0 ≤ blk.numLocks

-- Who has to start the block: the creating call when there is nothing to wait
-- for, else the drop of the last pre-execution lock.
def starter (blk : Block) (pr : Progress) : Starter :=
  if blk.kind = .coroutine ∨ blk.links.count = 0 ∨ pr.inlined = true then .creator else .dispatch

example : Status.fits .graphNode .ready = true ∧ Status.fits .bare .armed = true ∧ Status.fits .coroutine .armed = false := by
  simp [Status.fits,Status.ended]

example : (Status.finishing true).started = true ∧ (Status.finishing true).ended = true ∧
    (Status.finishing true).settled .executable = false ∧ starter {} {} = .creator := by
  simp [Status.started,Status.ended,Status.settled,starter,LinkTable.count,LinkTable.empty]

structure CycleSound (blk : Block) (pr : Progress) : Prop where
  fits : pr.status.fits blk.kind = true
  linkless : blk.kind = .bare ∨ blk.kind = .coroutine → blk.links.count = 0
  unclaimed : pr.status.started = false ∨ pr.status = .ready → blk.bodyClaimed = false
  startedBy : pr.startedBy = if pr.status.started = true ∧ blk.kind ≠ .bare then [starter blk pr] else []
  inlined : pr.inlined = true → pr.status.started = true
  cancelled : pr.foundCancelled = true → pr.status.ended = true
  bodies : pr.bodies =
    if pr.status.started = true ∧ pr.status ≠ .ready ∧ blk.kind ≠ .bare ∧ pr.foundCancelled = false then 1 else 0
  zeroCrossings : pr.zeroCrossings =
    if pr.status.started = true ∧ blk.kind ≠ .bare ∧ starter blk pr = .dispatch then 1 else 0
  flagCrossings : pr.flagCrossings =
    if pr.status.ended = true ∧ blk.kind ≠ .bare ∧ pr.foundCancelled = false then 1 else 0
  thresholds : pr.thresholds = 0
  settles : pr.settles = if pr.status.settled blk.kind = true then 1 else 0
  completed : blk.completed = pr.status.settled blk.kind
  parent : blk.nestedParent ≠ none →
    pr.status.resting = false ∧ blk.completed = false ∧ blk.kind ≠ .graphNode ∧ blk.kind ≠ .callerOwned

namespace Footprint

structure Sound (fp : Footprint) : Prop where
  queued : ∀ p i m, fp.queued p i m =
    if fp.progress.status = .waiting i ∧ fp.block.links.entries[i]? = some ⟨p,m⟩ then 1 else 0
  held : ∀ p i m, fp.held p i m =
    if fp.progress.status.holds i = true ∧ fp.block.links.entries[i]? = some ⟨p,m⟩ then 1 else 0
  control : ∀ f, f.control = true → fp.frames f = if fp.progress.status.expects = some f then 1 else 0
  locks : LocksSound fp.block fp.progress fp.turns fp.children
  entered : fp.block.pipesEntered = fp.progress.status.entered fp.block.links.count
  cycle : CycleSound fp.block fp.progress

end Footprint

structure Holdprint.Sound (hp : Holdprint) : Prop where
  queued : ∀ p o m, hp.queued p o m = if hp.hold = .queued p m o then 1 else 0
  held : ∀ p o m, hp.held p o m = if hp.hold = .granted p m o ∨ hp.hold = .held p m o then 1 else 0
  fired : hp.fired = match hp.hold with | .granted _ _ _ => 1 | _ => 0

structure Accounts (s : State) : Prop where
  blocks : ∀ b, (s.footprint b).Sound
  holds : ∀ h, (s.holdprint h).Sound
  nested : ∀ b c, (s.progress b).attached.count c = if (s.blocks c).nestedParent = some b then 1 else 0

namespace State

@[simp] theorem footprint_block (s : State) (b : BlockId) : (s.footprint b).block = s.blocks b := rfl
@[simp] theorem footprint_progress (s : State) (b : BlockId) : (s.footprint b).progress = s.progress b := rfl
@[simp] theorem holdprint_hold (s : State) (h : HoldId) : (s.holdprint h).hold = s.holds h := rfl

@[simp] theorem setBlock_own (s : State) (b : BlockId) (blk : Block) :
    (s.setBlock b blk).footprint b = (s.footprint b).setBlock blk := by
  simp [footprint,setBlock,Footprint.setBlock]
@[simp] theorem setProgress_own (s : State) (b : BlockId) (pr : Progress) :
    (s.setProgress b pr).footprint b = (s.footprint b).setProgress pr := by
  simp [footprint,setProgress,Footprint.setProgress]
@[simp] theorem setStatus_own (s : State) (b : BlockId) (status : Status) :
    (s.setStatus b status).footprint b = (s.footprint b).setStatus status := setProgress_own s b _
@[simp] theorem push_own (s : State) (b : BlockId) (f : LocalFrame) :
    (s.push (.own b f)).footprint b = (s.footprint b).push f := by
  simp only [footprint,push,Footprint.push,Footprint.mk.injEq,true_and]
  funext g
  by_cases same : g = f
  · simp [same]
  · simp [same,Ne.symm same]
@[simp] theorem drop_own (s : State) (b : BlockId) (f : LocalFrame) :
    (s.drop (.own b f)).footprint b = (s.footprint b).drop f := by
  simp only [footprint,drop,Footprint.drop,Footprint.mk.injEq,true_and]
  funext g
  by_cases same : g = f
  · simp [same]
  · simp [same,List.count_erase_of_ne]

section Apart

variable {s : State} {b c : BlockId} (apart : c ≠ b)
include apart

@[simp] theorem setBlock_other (blk : Block) : (s.setBlock b blk).footprint c = s.footprint c := by
  simp [footprint,setBlock,apart]
@[simp] theorem setProgress_other (pr : Progress) : (s.setProgress b pr).footprint c = s.footprint c := by
  simp [footprint,setProgress,apart]
@[simp] theorem setStatus_other (status : Status) : (s.setStatus b status).footprint c = s.footprint c :=
  setProgress_other apart _
@[simp] theorem push_other (f : LocalFrame) : (s.push (.own b f)).footprint c = s.footprint c := by
  simp [footprint,push,Ne.symm apart]
@[simp] theorem drop_other (f : LocalFrame) : (s.drop (.own b f)).footprint c = s.footprint c := by
  simp [footprint,drop,List.count_erase_of_ne,apart]

end Apart

@[simp] theorem setHold_footprint (s : State) (h : HoldId) (hold : Hold) (b : BlockId) :
    (s.setHold h hold).footprint b = s.footprint b := rfl
@[simp] theorem push_hold_footprint (s : State) (h : HoldId) (b : BlockId) :
    (s.push (.fireHold h)).footprint b = s.footprint b := by simp [footprint,push]
@[simp] theorem drop_hold_footprint (s : State) (h : HoldId) (b : BlockId) :
    (s.drop (.fireHold h)).footprint b = s.footprint b := by
  simp [footprint,drop,List.count_erase_of_ne]

@[simp] theorem setBlock_holdprint (s : State) (b : BlockId) (blk : Block) (h : HoldId) :
    (s.setBlock b blk).holdprint h = s.holdprint h := rfl
@[simp] theorem setProgress_holdprint (s : State) (b : BlockId) (pr : Progress) (h : HoldId) :
    (s.setProgress b pr).holdprint h = s.holdprint h := rfl
@[simp] theorem setStatus_holdprint (s : State) (b : BlockId) (status : Status) (h : HoldId) :
    (s.setStatus b status).holdprint h = s.holdprint h := rfl
@[simp] theorem push_holdprint (s : State) (b : BlockId) (f : LocalFrame) (h : HoldId) :
    (s.push (.own b f)).holdprint h = s.holdprint h := by simp [holdprint,push]
@[simp] theorem drop_holdprint (s : State) (b : BlockId) (f : LocalFrame) (h : HoldId) :
    (s.drop (.own b f)).holdprint h = s.holdprint h := by
  simp [holdprint,drop,List.count_erase_of_ne]

@[simp] theorem setStatus_pipes (s : State) (b : BlockId) (status : Status) :
    (s.setStatus b status).pipes = s.pipes := rfl
@[simp] theorem setStatus_blocks (s : State) (b : BlockId) (status : Status) :
    (s.setStatus b status).blocks = s.blocks := rfl
-- A pipe's section changes the counts of the parties it moves and no others.
theorem setPipe_footprint (s : State) (p : PipeId) (t : Tracked) (b : BlockId)
    (queue : ∀ i m, t.pipe.queue.count ⟨.link b i,m⟩ = (s.pipes p).pipe.queue.count ⟨.link b i,m⟩)
    (held : ∀ i m, t.held.count ⟨.link b i,m⟩ = (s.pipes p).held.count ⟨.link b i,m⟩) :
    (s.setPipe p t).footprint b = s.footprint b := by
  simp only [footprint,setPipe,Footprint.mk.injEq,true_and,and_true]
  refine ⟨?_,?_⟩
  · funext q i m
    by_cases same : q = p
    · subst same; simpa using queue i m
    · simp [same]
  · funext q i m
    by_cases same : q = p
    · subst same; simpa using held i m
    · simp [same]

theorem setPipe_holdprint (s : State) (p : PipeId) (t : Tracked) (h : HoldId)
    (queue : ∀ o m, t.pipe.queue.count ⟨.hold h o,m⟩ = (s.pipes p).pipe.queue.count ⟨.hold h o,m⟩)
    (held : ∀ o m, t.held.count ⟨.hold h o,m⟩ = (s.pipes p).held.count ⟨.hold h o,m⟩) :
    (s.setPipe p t).holdprint h = s.holdprint h := by
  simp only [holdprint,setPipe,Holdprint.mk.injEq,true_and,and_true]
  refine ⟨?_,?_⟩
  · funext q o m
    by_cases same : q = p
    · subst same; simpa using queue o m
    · simp [same]
  · funext q o m
    by_cases same : q = p
    · subst same; simpa using held o m
    · simp [same]

end State
end Macrame

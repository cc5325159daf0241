import Macrame.Access

namespace Macrame

-- Who stands behind a queue entry: link `index` of a task block, or the
-- `Hold_node` of a `pipe_acquire` (null `owner`) with the block it publishes.
inductive Party where
  | link (owner : BlockId) (index : Nat)
  | hold (node : HoldId) (grantOwner : Option BlockId)
  deriving DecidableEq, Repr

structure PipeLink where
  party : Party
  mode : Access
  deriving DecidableEq, Repr

def PipeLink.grantee (l : PipeLink) : Option BlockId :=
  match l.party with
  | .link owner _ => some owner
  | .hold _ grantOwner => grantOwner

structure Pipe where
  queue : List PipeLink := []
  activeReaders : Int := 0
  writerActive : Bool := false
  writerOwner : Option BlockId := none
  writeEpoch : Nat := 0
  deriving DecidableEq, Repr

namespace Pipe

def queuePush (pipe : Pipe) (l : PipeLink) : Pipe := {pipe with queue := pipe.queue++[l]}

def admissible (pipe : Pipe) : Access → Bool
  | .readOnly => !pipe.writerActive
  | .readWrite => !pipe.writerActive && pipe.activeReaders == 0

def admitLocked (pipe : Pipe) (l : PipeLink) : Pipe :=
  match l.mode with
  | .readOnly => {pipe with activeReaders := pipe.activeReaders+1}
  | .readWrite => {pipe with writerActive := true,writerOwner := l.grantee,writeEpoch := pipe.writeEpoch+1}

-- The loop of `collect_admissions`, on the queue that is left.
def collectFrom : List PipeLink → Pipe → Pipe × List PipeLink
  | [],pipe => (pipe,[])
  | l :: rest,pipe =>
    if pipe.admissible l.mode then
      let after := collectFrom rest (({pipe with queue := rest} : Pipe).admitLocked l)
      (after.1,l :: after.2)
    else (pipe,[])

def collectAdmissions (pipe : Pipe) : Pipe × List PipeLink := collectFrom pipe.queue pipe

-- The mutex section of `pipe_enter_link`; the flag is `now`.
def enterLocked (pipe : Pipe) (l : PipeLink) : Pipe × Bool :=
  if pipe.queue.isEmpty && pipe.admissible l.mode then (pipe.admitLocked l,true)
  else (pipe.queuePush l,false)

-- The mutex section of `pipe_acquire`. Deferred, it runs no admission pass.
def acquireLocked (pipe : Pipe) (mode : Access) (node : HoldId) (owner : Option BlockId) : Pipe × Bool :=
  if pipe.queue.isEmpty && pipe.admissible mode then
    match mode with
    | .readOnly => ({pipe with activeReaders := pipe.activeReaders+1},true)
    | .readWrite =>
      ({pipe with writerActive := true,writerOwner := owner,writeEpoch := pipe.writeEpoch+1},true)
  else (pipe.queuePush ⟨.hold node owner,mode⟩,false)

-- What `release_and_redispatch` does to the counters before its admission pass.
def releaseMode (pipe : Pipe) : Access → Pipe
  | .readOnly => {pipe with activeReaders := pipe.activeReaders-1}
  | .readWrite => {pipe with writerActive := false,writerOwner := none,writeEpoch := pipe.writeEpoch+1}

def releaseLocked (pipe : Pipe) (mode : Access) : Pipe × List PipeLink :=
  (pipe.releaseMode mode).collectAdmissions

-- The predicate of `wait_until_idle`.
def idle (pipe : Pipe) : Bool :=
  pipe.queue.isEmpty && pipe.activeReaders == 0 && !pipe.writerActive

-- One probe of `pipe_try_inline`.
def free (pipe : Pipe) (mode : Access) : Bool := pipe.queue.isEmpty && pipe.admissible mode

@[simp] theorem admitLocked_queue (pipe : Pipe) (l : PipeLink) : (pipe.admitLocked l).queue = pipe.queue := by
  cases mode : l.mode <;> simp [admitLocked,mode]

@[simp] theorem releaseMode_queue (pipe : Pipe) (mode : Access) : (pipe.releaseMode mode).queue = pipe.queue := by
  cases mode <;> rfl

@[simp] theorem admissible_queue (pipe : Pipe) (queue : List PipeLink) (mode : Access) :
    ({pipe with queue := queue} : Pipe).admissible mode = pipe.admissible mode := by cases mode <;> rfl

@[simp] theorem queuePush_admissible (pipe : Pipe) (l : PipeLink) (mode : Access) :
    (pipe.queuePush l).admissible mode = pipe.admissible mode := by cases mode <;> rfl

theorem admitLocked_set_queue (pipe : Pipe) (queue : List PipeLink) (l : PipeLink) :
    ({pipe with queue := queue} : Pipe).admitLocked l = {pipe.admitLocked l with queue := queue} := by
  cases mode : l.mode <;> simp [admitLocked,mode]

@[simp] theorem admitLocked_same_queue (pipe : Pipe) (l : PipeLink) :
    ({pipe.admitLocked l with queue := pipe.queue} : Pipe) = pipe.admitLocked l := by
  cases mode : l.mode <;> simp [admitLocked,mode]

-- A hold takes the pipe exactly as a link of the same mode would.
theorem acquire_enters (pipe : Pipe) (mode : Access) (node : HoldId) (owner : Option BlockId) :
    pipe.acquireLocked mode node owner = pipe.enterLocked ⟨.hold node owner,mode⟩ := by
  unfold acquireLocked enterLocked
  split
  · cases mode <;> rfl
  · rfl

theorem admissible_inactive (admitted : admissible pipe mode = true) : pipe.writerActive = false := by
  cases mode <;> simp_all [admissible]

theorem admissible_write (admitted : admissible pipe .readWrite = true) : pipe.activeReaders = 0 := by
  simp_all [admissible]

end Pipe
end Macrame

import Macrame.JournalLaws
import Macrame.Ownership

namespace Macrame

-- Where a task stands with `apply_under_grant`. `due` is an inline commit past
-- its token check, or an enqueued commit whose body is still to run; `locking`
-- has cleared `commit_batch_` and waits for the register mutex.
inductive Phase where
  | idle
  | due
  | locking
  | cutting
  | applying (next : Nat)
  deriving DecidableEq, Repr

-- Inside the shared batch buffer.
def Phase.working : Phase → Bool
  | .idle => false
  | .due => false
  | _ => true

-- One application of a command to the target: the cut that took it, and the
-- write admission that was out on the target.
structure Applied where
  command : Command
  batch : Nat
  admission : Option Ticket
  deriving DecidableEq, Repr

-- A `Deferred` over the guarded object of one pipe, in a world of tasks.
-- `applied`, `done` (how much of the batch has been applied) and `admission`
-- (the one under which the batch was cut) are history.
structure Deferred where
  base : State := .initial
  journal : Journal := {}
  commitBatch : List Command := []
  phases : BlockId → Phase := fun _ => .idle
  applied : List Applied := []
  done : Nat := 0
  admission : Option Ticket := none

namespace Deferred

@[simps] def setPhase (s : Deferred) (b : BlockId) (phase : Phase) : Deferred :=
  {s with phases := Function.update s.phases b phase}

def pending (s : Deferred) : List Command := s.commitBatch.drop s.done

-- `commit`. A task that finds itself in `writer_owner` applies inline, unless
-- its token is cancelled; any other caller enqueues a write access, which is
-- launched by the caller and carries the token.
def commit (p : PipeId) (s : Deferred) (caller : Option BlockId) (fresh : BlockId) (token : Option TokenId) : Deferred :=
  if caller.isSome = true ∧ (s.base.pipes p).pipe.writerOwner = caller then
    match caller with
    | some b => if token.any s.base.tokens = true then s else s.setPhase b .due
    | none => s
  else
    {s with base := s.base.apply (.arm fresh .executable (.single ⟨p,.readWrite⟩) token)}.setPhase fresh .due

-- `apply_under_grant` in its steps: `out.clear()`, the register mutex, a slot
-- at a time, the loop over the batch, `commit_batch_.clear()`.
def clearBatch (s : Deferred) (b : BlockId) : Deferred := {s with commitBatch := [],done := 0}.setPhase b .locking

def cutBegin (p : PipeId) (s : Deferred) (b : BlockId) : Deferred :=
  {s with journal := s.journal.cutBegin b,admission := (s.base.pipes p).writer}.setPhase b .cutting

def cutNext (s : Deferred) (b : BlockId) : Deferred :=
  match s.journal.nextCut b with
  | some slot => {s with
      journal := s.journal.cutSlot b slot,commitBatch := s.commitBatch++s.journal.slots.getD slot []}
  | none => s

def cutEnd (s : Deferred) (b : BlockId) : Deferred := {s with journal := s.journal.unlock}.setPhase b (.applying 0)

def applyNext (p : PipeId) (s : Deferred) (b : BlockId) : Deferred :=
  match s.phases b with
  | .applying next =>
    match s.commitBatch[next]? with
    | some c => {s with
        applied := s.applied++[Applied.mk c s.journal.batch (s.base.pipes p).writer]
        done := s.done+1}.setPhase b (.applying (next+1))
    | none => s
  | _ => s

def applyEnd (s : Deferred) (b : BlockId) : Deferred := {s with commitBatch := [],done := 0}.setPhase b .idle

end Deferred

inductive DeferredAction where
  | base (a : Action)
  | journal (a : JournalAction)
  | commit (caller : Option BlockId) (fresh : BlockId) (token : Option TokenId)
  | clearBatch (b : BlockId)
  | cutBegin (b : BlockId)
  | cutNext (b : BlockId)
  | cutEnd (b : BlockId)
  | applyNext (b : BlockId)
  | applyEnd (b : BlockId)
  deriving DecidableEq, Repr

-- A block's identity is used anew.
def Action.renews : Action → Option BlockId
  | .arm b _ _ _ => some b
  | .createFrame b => some b
  | _ => none

namespace Deferred

-- A task inside `commit`, or a commit's body, neither ends nor gives back a
-- grant of its own before `apply_under_grant` has returned.
def busy (s : Deferred) (b : BlockId) : Bool := (s.base.progress b).status == .running && s.phases b != .idle

def hinders (s : Deferred) : Action → Bool
  | .bodyEnd b => s.busy b
  | .releaseHold h => match s.base.holds h with
    | .held _ _ (some b) => s.busy b
    | _ => false
  | _ => false

def Allowed (checked : Bool) (s : Deferred) : DeferredAction → Prop
  | .base a => s.base.Allowed a ∧ s.hinders a = false
  | .journal a => s.journal.Allowed checked a ∧ a.outer = true
  | .commit caller fresh _ =>
    caller.all (fun b => (s.base.progress b).status == .running && s.phases b == .idle) = true ∧
      (s.base.progress fresh).status.resting = true
  | .clearBatch b => s.phases b = .due ∧ (s.base.progress b).status = .running
  | .cutBegin b => s.phases b = .locking ∧ s.journal.Allowed checked (.cutBegin b)
  | .cutNext b => s.phases b = .cutting ∧ s.journal.Allowed checked (.cutNext b)
  | .cutEnd b => s.phases b = .cutting ∧ s.journal.Allowed checked (.cutEnd b)
  | .applyNext b => ∃ next, next < s.commitBatch.length ∧ s.phases b = .applying next
  | .applyEnd b => s.phases b = .applying s.commitBatch.length

def apply (p : PipeId) (checked : Bool) (workers : Nat) (s : Deferred) : DeferredAction → Deferred
  | .base a =>
    let stepped := {s with base := s.base.apply a}
    match a.renews with
    | some b => stepped.setPhase b .idle
    | none => stepped
  | .journal a => {s with journal := s.journal.apply checked workers a}
  | .commit caller fresh token => s.commit p caller fresh token
  | .clearBatch b => s.clearBatch b
  | .cutBegin b => s.cutBegin p b
  | .cutNext b => s.cutNext b
  | .cutEnd b => s.cutEnd b
  | .applyNext b => s.applyNext p b
  | .applyEnd b => s.applyEnd b

end Deferred

def deferredSystem (p : PipeId) (checked : Bool) (workers : Nat) : Machines.Machine Deferred DeferredAction :=
  ⟨(· = {}),Deferred.Allowed checked,Deferred.apply p checked workers⟩

instance Deferred.decideAllowed (checked : Bool) (s : Deferred) :
    (a : DeferredAction) → Decidable (s.Allowed checked a)
  | .base _ => inferInstanceAs (Decidable (_ ∧ _))
  | .journal _ => inferInstanceAs (Decidable (_ ∧ _))
  | .commit _ _ _ => inferInstanceAs (Decidable (_ ∧ _))
  | .clearBatch _ => inferInstanceAs (Decidable (_ ∧ _))
  | .cutBegin _ => inferInstanceAs (Decidable (_ ∧ _))
  | .cutNext _ => inferInstanceAs (Decidable (_ ∧ _))
  | .cutEnd _ => inferInstanceAs (Decidable (_ ∧ _))
  | .applyNext _ => inferInstanceAs (Decidable (∃ next, next < _ ∧ _))
  | .applyEnd _ => inferInstanceAs (Decidable (_ = _))

instance Deferred.decideStep (p : PipeId) (checked : Bool) (workers : Nat) (s : Deferred) (a : DeferredAction) :
    Decidable ((deferredSystem p checked workers).allowed s a) :=
  inferInstanceAs (Decidable (s.Allowed checked a))

end Macrame

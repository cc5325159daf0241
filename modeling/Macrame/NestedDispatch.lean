import Macrame.Colored
import Mathlib.Logic.Function.Iterate

namespace Macrame.NestedDispatch

-- The two trampolines of a thread: `Resume_queue` and `Inline_queue`.
inductive DrainQueue where
  | resume
  | inline
  deriving DecidableEq, Repr

-- What running code does that concerns the trampolines: it pushes an item, whose
-- code is given with it, or comes to a yield point, with the class it runs at and
-- the entries that lie in the global high and normal queues at that moment.
inductive Op where
  | push (queue : DrainQueue) (body : List Op)
  | yieldPoint (own : Priority) (high normal : Option (List Op))

-- History: the queue of an item, the drain that is to run it, named by the number
-- of its first item, and the item's own number.
structure Entry where
  queue : DrainQueue
  drain : Nat
  number : Nat
  deriving DecidableEq, Repr

structure Item where
  entry : Entry
  body : List Op

-- `pending_`, `spare_` and `draining_`. An entry is `none` once it is moved from;
-- `drain` is history.
structure Slots where
  pending : List (Option Item)
  spare : List (Option Item)
  draining : Bool
  drain : Nat

structure DrainState where
  pending : List (Option Item)
  draining : Bool
  drain : Nat

-- `std::move(spare_)` leaves an empty vector here; the clear makes what was in
-- it, and so what a move leaves, irrelevant.
def Slots.detach (s : Slots) : DrainState×Slots := (⟨s.pending,s.draining,s.drain⟩,⟨[],[],false,s.drain⟩)

-- None where the check fails.
def Slots.reattach (checks : Bool) (s : Slots) (state : DrainState) : Option Slots :=
  if checks && (s.draining || !s.pending.isEmpty) then none
  else some ⟨state.pending,s.pending,state.draining,state.drain⟩

-- The call stack, innermost first: code with what it has left to do, the loop of
-- a `push_and_drain` at its index, and a `Nested_dispatch_scope`.
inductive StackFrame where
  | code (ops : List Op)
  | drain (queue : DrainQueue) (head : Nat)
  | scope (resume inline : DrainState)

inductive Stop where
  | unfinishedDrain (queue : DrainQueue)
  | nullItem
  deriving DecidableEq, Repr

-- `TS_SAFETY_CHECKS`, and whether the thread is a worker.
structure Setting where
  safetyChecks : Bool
  worker : Bool

-- `pushed` and `ran` are history: the items as they were pushed, and those whose
-- code has begun.
structure Thread where
  frames : List StackFrame
  queues : DrainQueue → Slots
  nesting : Bool
  stopped : Option Stop
  pushed : List Item
  ran : List Item

-- The entry that `yield_to_higher` pops, if the call gets that far.
def popped (c : Setting) (nested : Bool) (own : Priority) (high normal : Option (List Op)) : Option (List Op) :=
  if own == .high || nested || !c.worker then none
  else high.orElse fun _ => if own == .low then normal else none

namespace Thread

def setSlots (s : Thread) (queue : DrainQueue) (slots : Slots) : Thread :=
  { s with queues := Function.update s.queues queue slots }

-- `push_and_drain` up to its loop. A new drain is named by its first item.
def pushAndDrain (s : Thread) (queue : DrainQueue) (body : List Op) (caller : List StackFrame) : Thread :=
  let slots := s.queues queue
  let drain := if slots.draining then slots.drain else s.pushed.length
  let item : Item := ⟨⟨queue,drain,s.pushed.length⟩,body⟩
  let next := s.setSlots queue { slots with pending := slots.pending++[some item], draining := true, drain }
  { next with
    frames := if slots.draining then caller else .drain queue 0 :: caller
    pushed := s.pushed++[item] }

-- What `next` leaves at its index: a resume is copied, a task moved.
def leaves : DrainQueue → Item → Option Item
  | .resume,item => some item
  | .inline,_ => none

-- One turn of the loop.
def loop (s : Thread) (queue : DrainQueue) (head : Nat) (caller : List StackFrame) : Thread :=
  let slots := s.queues queue
  match slots.pending[head]? with
  | some (some item) =>
    let next := s.setSlots queue { slots with pending := slots.pending.set head (leaves queue item) }
    { next with
      frames := .code item.body :: .drain queue (head+1) :: caller
      ran := s.ran++[item] }
  | some none => { s with stopped := some .nullItem }
  | none =>
    let next := s.setSlots queue { slots with pending := [], draining := false }
    { next with frames := caller }

def enterScope (s : Thread) (task : List Op) (caller : List StackFrame) : Thread :=
  let resume := (s.queues .resume).detach
  let inline := (s.queues .inline).detach
  let next := (s.setSlots .resume resume.2).setSlots .inline inline.2
  { next with
    frames := .code task :: .scope resume.1 inline.1 :: caller
    nesting := true }

-- The destructor: the inline drain first, then the resume drain.
def leaveScope (c : Setting) (s : Thread) (resume inline : DrainState) (caller : List StackFrame) : Thread :=
  match (s.queues .inline).reattach c.safetyChecks inline with
  | none => { s with stopped := some (.unfinishedDrain .inline) }
  | some inlineSlots =>
    match (s.queues .resume).reattach c.safetyChecks resume with
    | none => { s.setSlots .inline inlineSlots with stopped := some (.unfinishedDrain .resume) }
    | some resumeSlots =>
      let next := (s.setSlots .inline inlineSlots).setSlots .resume resumeSlots
      { next with
        frames := caller
        nesting := false }

def step (c : Setting) (s : Thread) : Thread :=
  if s.stopped.isSome then s
  else match s.frames with
    | [] => s
    | .code [] :: caller => { s with frames := caller }
    | .code (.push queue body :: ops) :: caller => s.pushAndDrain queue body (.code ops :: caller)
    | .code (.yieldPoint own high normal :: ops) :: caller =>
      match popped c s.nesting own high normal with
      | none => { s with frames := .code ops :: caller }
      | some task => s.enterScope task (.code ops :: caller)
    | .drain queue head :: caller => s.loop queue head caller
    | .scope resume inline :: caller => s.leaveScope c resume inline caller

end Thread

-- A task at the top of a worker loop, or code outside any task: no drain runs.
def start (program : List Op) : Thread where
  frames := [.code program]
  queues := fun _ => ⟨[],[],false,0⟩
  nesting := false
  stopped := none
  pushed := []
  ran := []

def run (c : Setting) (program : List Op) (n : Nat) : Thread := (Thread.step c)^[n] (start program)

-- Apart from any queue, by its text alone: what code is to push, itself and in all
-- that runs because of it, an item's code where the item is pushed and an entry's
-- where it is taken.
mutual

def Op.pushes (c : Setting) (nested : Bool) : Op → List (DrainQueue×List Op)
  | .push queue body => (queue,body) :: pushesOf c nested body
  | .yieldPoint own high normal =>
    if own == .high || nested || !c.worker then []
    else match high with
      | some task => pushesOf c true task
      | none =>
        if own == .low then
          match normal with
          | some task => pushesOf c true task
          | none => []
        else []
termination_by structural op => op

def pushesOf (c : Setting) (nested : Bool) : List Op → List (DrainQueue×List Op)
  | [] => []
  | op :: ops => op.pushes c nested++pushesOf c nested ops
termination_by structural ops => ops

end

end Macrame.NestedDispatch

import Mathlib.Algebra.GroupWithZero.Nat
import Mathlib.Logic.Function.Basic
import Macrame.Lib.Machine
import Macrame.AccessContext
import Macrame.TaskBlock

namespace Macrame.Segments
open Machines

-- The four thread-locals a coroutine segment is run under: `Current_task`, the
-- access context, the scope-children pointer (named by the frame it belongs
-- to) and the relaxed-rule bits.
@[ext] structure Ambient where
  task : Option BlockId
  access : Option AccessContext
  scope : Option BlockId
  relaxed : Nat
deriving DecidableEq

def Ambient.clear : Ambient := ⟨none,none,none,0⟩

-- Where one call into a coroutine stands: in its body; past `exit_segment` in
-- `await_suspend`; suspended and about to return; or past `exit_segment` in
-- the final awaiter, completing the task.
inductive Stage where
  | inside
  | leaving
  | left
  | completing
deriving DecidableEq

-- What is on a thread's stack. `before` is history: the thread's ambient state
-- when the call into the coroutine was made.
inductive Frame where
  | body (prev : Option BlockId)
  | accessScope (prev : Option AccessContext)
  | relaxedScope (prev : Nat)
  | drain
  | eager (c : BlockId) (stage : Stage) (before : Ambient)
  | segment (c : BlockId) (stage : Stage) (active : Bool) (prev : Option AccessContext) (before : Ambient)
  | nested (saved : Ambient) (pending : List BlockId) (draining : Bool)
deriving DecidableEq

-- Which thread has a coroutine. History: the code tells it from where the frame
-- pointer is.
inductive Phase where
  | unborn
  | running (i : Nat)
  | leaving (i : Nat)
  | suspended
  | queued (i : Nat)
  | finished
deriving DecidableEq

-- `Promise_base`, and of the awaiter in the frame its `state_` and whether the
-- callback given to `attach` has still to fire.
structure Promise where
  accessCtx : Option AccessContext
  prevTask : Option BlockId
  prevScope : Option BlockId
  relaxedBits : Nat
  relaxedPrev : Nat
  handshake : Nat
  attached : Bool
  phase : Phase
deriving DecidableEq

def Promise.unborn : Promise := ⟨none,none,none,0,0,0,false,.unborn⟩

-- Each thread has its ambient state, its stack (innermost first) and its
-- `Resume_queue`.
structure State where
  ambient : Nat → Ambient
  stack : Nat → List Frame
  pending : Nat → List BlockId
  draining : Nat → Bool
  promise : BlockId → Promise

def State.idle : State where
  ambient := fun _ => .clear
  stack := fun _ => []
  pending := fun _ => []
  draining := fun _ => false
  promise := fun _ => .unborn

inductive Action where
  | begin (i : Nat) (task : BlockId)
  | grant (i : Nat) (ctx : AccessContext)
  | relaxFor (i : Nat) (bits : Nat)
  | close (i : Nat)
  | create (i : Nat) (c : BlockId)
  | relax (i : Nat) (bits : Nat)
  | suspend (i : Nat)
  | fire (i : Nat) (c : BlockId)
  | tail (i : Nat)
  | finish (i : Nat)
  | drain (i : Nat)
  | ret (i : Nat)
  | yield (i : Nat)
  | unyield (i : Nat)
deriving DecidableEq

def State.setAmbient (s : State) (i : Nat) (a : Ambient) : State :=
  { s with ambient := Function.update s.ambient i a }

def State.setStack (s : State) (i : Nat) (stack : List Frame) : State :=
  { s with stack := Function.update s.stack i stack }

def State.setQueue (s : State) (i : Nat) (pending : List BlockId) (draining : Bool) : State :=
  { s with pending := Function.update s.pending i pending, draining := Function.update s.draining i draining }

def State.setPromise (s : State) (c : BlockId) (p : Promise) : State :=
  { s with promise := Function.update s.promise c p }

-- `enter_segment`: save the thread's task, scope and relaxation in the promise
-- and install the coroutine's.
def Promise.enter (p : Promise) (i : Nat) (a : Ambient) : Promise :=
  { p with prevTask := a.task, prevScope := a.scope, relaxedPrev := a.relaxed, phase := .running i }

def Ambient.enter (a : Ambient) (c : BlockId) (p : Promise) : Ambient :=
  { a with task := some c, scope := some c, relaxed := p.relaxedBits }

-- `exit_segment`: keep the relaxation the segment ended with, and put the saved
-- values back. The access context is not among them.
def Promise.exit (p : Promise) (a : Ambient) (phase : Phase) : Promise :=
  { p with relaxedBits := a.relaxed, phase := phase }

def Ambient.exit (a : Ambient) (p : Promise) : Ambient :=
  { a with task := p.prevTask, scope := p.prevScope, relaxed := p.relaxedPrev }

def Frame.toStage (next : Stage) : Frame → Frame
  | .eager c _ before => .eager c next before
  | .segment c _ active prev before => .segment c next active prev before
  | f => f

def Frame.coroutine : Frame → Option (BlockId×Stage)
  | .eager c stage _ => some (c,stage)
  | .segment c stage _ _ _ => some (c,stage)
  | _ => none

-- The top frame's coroutine, when it stands at the given stage.
def State.top (s : State) (i : Nat) (stage : Stage) : Option BlockId :=
  match s.stack i with
  | f :: _ =>
    match f.coroutine with
    | some (c,at_) => if at_ = stage then some c else none
    | none => none
  | [] => none

def State.restage (s : State) (i : Nat) (next : Stage) : State :=
  match s.stack i with
  | f :: rest => s.setStack i (f.toStage next :: rest)
  | [] => s

-- The promise's constructor: snapshot the access context and the relaxation,
-- then enter the first segment on the caller's thread.
def State.create (s : State) (i : Nat) (c : BlockId) : State :=
  let a := s.ambient i
  let p : Promise := { Promise.unborn with accessCtx := a.access, relaxedBits := a.relaxed }
  ((s.setPromise c (p.enter i a)).setAmbient i (a.enter c p)).setStack i (.eager c .inside a :: s.stack i)

-- `await_suspend` up to and with `attach`.
def State.suspend (s : State) (i : Nat) : State :=
  match s.top i .inside with
  | some c =>
    let a := s.ambient i
    let p := s.promise c
    ((s.setPromise c { p.exit a (.leaving i) with handshake := 0, attached := true }).setAmbient i (a.exit p)).restage i
      .leaving
  | none => s

-- `schedule_resume`, up to the drain's first look at the queue.
def State.scheduleResume (s : State) (i : Nat) (c : BlockId) : State :=
  if s.draining i then s.setQueue i (s.pending i++[c]) true
  else (s.setQueue i (s.pending i++[c]) true).setStack i (.drain :: s.stack i)

-- The callback: whoever comes second to `state_` resumes.
def State.fire (s : State) (i : Nat) (c : BlockId) : State :=
  let p := s.promise c
  if p.handshake = 2 then
    (s.setPromise c { p with handshake := 1, attached := false, phase := .queued i }).scheduleResume i c
  else s.setPromise c { p with handshake := 1, attached := false }

-- The tail of `await_suspend`: with the callback already in, the segment is
-- entered again and the body goes on.
def State.tail (s : State) (i : Nat) : State :=
  match s.top i .leaving with
  | some c =>
    let a := s.ambient i
    let p := s.promise c
    if p.handshake = 1 then
      ((s.setPromise c { p.enter i a with handshake := 2 }).setAmbient i (a.enter c p)).restage i .inside
    else (s.setPromise c { p with handshake := 2, phase := .suspended }).restage i .left
  | none => s

-- The final awaiter: the segment ends before the task completes.
def State.finish (s : State) (i : Nat) : State :=
  match s.top i .inside with
  | some c =>
    let a := s.ambient i
    let p := s.promise c
    ((s.setPromise c (p.exit a .finished)).setAmbient i (a.exit p)).restage i .completing
  | none => s

-- One turn of the loop in `push_and_drain`, with `resume_with_access` up to the
-- body: the inherited scope does nothing for an empty snapshot.
def State.drain (s : State) (i : Nat) : State :=
  match s.pending i with
  | [] => (s.setQueue i [] false).setStack i (s.stack i).tail
  | c :: rest =>
    let a := s.ambient i
    let p := s.promise c
    let entered := a.enter c p
    let active := p.accessCtx.isSome
    let prev := if active then entered.access else none
    let installed := if active then { entered with access := p.accessCtx } else entered
    (((s.setQueue i rest true).setPromise c (p.enter i a)).setAmbient i installed).setStack i
      (.segment c .inside active prev a :: s.stack i)

-- The call into the coroutine returns; the inherited scope's destructor runs.
def State.ret (s : State) (i : Nat) : State :=
  match s.stack i with
  | .segment _ _ true prev _ :: rest => (s.setAmbient i { s.ambient i with access := prev }).setStack i rest
  | _ :: rest => s.setStack i rest
  | [] => s

-- The destructor of a body's own scope.
def State.close (s : State) (i : Nat) : State :=
  match s.stack i with
  | .body prev :: rest => (s.setAmbient i { s.ambient i with task := prev }).setStack i rest
  | .accessScope prev :: rest => (s.setAmbient i { s.ambient i with access := prev }).setStack i rest
  | .relaxedScope prev :: rest => (s.setAmbient i { s.ambient i with relaxed := prev }).setStack i rest
  | _ => s

-- `Nested_dispatch_scope`.
def State.yield (s : State) (i : Nat) : State :=
  ((s.setQueue i [] false).setAmbient i .clear).setStack i
    (.nested (s.ambient i) (s.pending i) (s.draining i) :: s.stack i)

def State.unyield (s : State) (i : Nat) : State :=
  match s.stack i with
  | .nested saved pending draining :: rest => ((s.setQueue i pending draining).setAmbient i saved).setStack i rest
  | _ => s

def State.apply (s : State) : Action → State
  | .begin i task =>
    (s.setAmbient i { s.ambient i with task := some task }).setStack i (.body (s.ambient i).task :: s.stack i)
  | .grant i ctx =>
    (s.setAmbient i { s.ambient i with access := some ctx }).setStack i (.accessScope (s.ambient i).access :: s.stack i)
  | .relaxFor i bits =>
    (s.setAmbient i { s.ambient i with relaxed := bits }).setStack i (.relaxedScope (s.ambient i).relaxed :: s.stack i)
  | .close i => s.close i
  | .create i c => s.create i c
  | .relax i bits => s.setAmbient i { s.ambient i with relaxed := bits }
  | .suspend i => s.suspend i
  | .fire i c => s.fire i c
  | .tail i => s.tail i
  | .finish i => s.finish i
  | .drain i => s.drain i
  | .ret i => s.ret i
  | .yield i => s.yield i
  | .unyield i => s.unyield i

-- Whether code of the top frame may be running: not while the drain's loop has
-- control, nor on the way out of a suspended coroutine.
def Frame.runs : Frame → Bool
  | .drain => false
  | f => f.coroutine.map Prod.snd != some .left

def State.runs (s : State) (i : Nat) : Bool := (s.stack i).head?.all Frame.runs

def Frame.isNested : Frame → Bool
  | .nested _ _ _ => true
  | _ => false

def Frame.isScope : Frame → Bool
  | .body _ => true
  | .accessScope _ => true
  | .relaxedScope _ => true
  | _ => false

-- A coroutine suspends with its own guards closed, which the await-under-guard
-- rule enforces; an awaited thing fires its callback once; yield points do
-- not nest.
def State.Allowed (s : State) : Action → Prop
  | .begin i _ => s.runs i = true
  | .grant i _ => s.runs i = true
  | .relaxFor i _ => s.runs i = true
  | .close i => (s.stack i).head?.any Frame.isScope = true
  | .create i c => s.runs i = true ∧ (s.promise c).phase = .unborn
  | .relax i _ => (s.top i .inside).isSome = true
  | .suspend i => (s.top i .inside).isSome = true
  | .fire i c => s.runs i = true ∧ (s.promise c).attached = true
  | .tail i => (s.top i .leaving).isSome = true
  | .finish i => (s.top i .inside).isSome = true
  | .drain i => (s.stack i).head? = some .drain
  | .ret i => (s.top i .left).isSome = true ∨ (s.top i .completing).isSome = true
  | .yield i => s.runs i = true ∧ (s.stack i).all (!·.isNested) = true
  | .unyield i => (s.stack i).head?.any Frame.isNested = true ∧ s.pending i = [] ∧ s.draining i = false

def segmentSystem : Machine State Action where
  start := fun s => s = .idle
  allowed := State.Allowed
  apply := State.apply

end Macrame.Segments

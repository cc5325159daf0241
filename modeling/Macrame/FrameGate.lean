import Mathlib.Data.List.Nodup
import Mathlib.Data.List.Perm.Basic
import Mathlib.Logic.Function.Basic
import Macrame.Lib.Machine
import Macrame.Colored

namespace Macrame.FrameGate

open Machines

abbrev SignalId := Nat
abbrev WaiterId := Nat

-- The block behind a `Signal`; a waiter is a continuation given to it.
structure Signal where
  completed : Bool := false
  continuations : List WaiterId := []
  deriving DecidableEq, Repr

-- The section of `settle`, with the continuations it has taken out and is about
-- to run. Only the first settle takes any.
def Signal.settle (b : Signal) : Signal × List WaiterId :=
  if b.completed then (b,[]) else ({completed := true},b.continuations)

-- The section of `attach`: on a settled block the caller runs it itself.
def Signal.attach (b : Signal) (w : WaiterId) : Signal × List WaiterId :=
  if b.completed then (b,[w]) else ({b with continuations := b.continuations++[w]},[])

-- What `next` gave out; `frame` counts the openings before it.
structure Handle where
  frame : Nat
  signal : SignalId
  deriving DecidableEq, Repr

-- A call of `open` past its section: the signal it has taken out, and which
-- opening it is.
structure Opening where
  frame : Nat
  signal : SignalId
  deriving DecidableEq, Repr

-- The gate, the blocks, and what is under way: `opening` are the calls of `open`
-- that have yet to launch their release, `launched` the release tasks in the
-- queues, `resuming` the continuations taken out of a block and not yet run.
-- `others` are the registrations of the rest of the process in `externalWaits`.
-- History: the openings counted, the handles, the attached waiters with the
-- handle each awaits, the openings whose release has run, the waiters resumed.
structure World where
  current : SignalId := 0
  pending : Bool := false
  priority : Priority := .low
  signals : SignalId → Signal := fun _ => {}
  minted : Nat := 1
  opening : List Opening := []
  launched : List (Opening × Priority) := []
  resuming : List WaiterId := []
  externalWaits : Int
  others : Int
  opened : Nat := 0
  handles : List Handle := []
  waits : List (Handle × WaiterId) := []
  released : List Opening := []
  resumed : List WaiterId := []

namespace World

def next (s : World) : World :=
  let armed := if s.pending then s else {s with pending := true, externalWaits := s.externalWaits+1}
  {armed with handles := s.handles++[⟨s.opened,s.current⟩]}

-- The section of `open`. The signal it overwrites in `opening` was never shared.
def exchange (s : World) : World :=
  let taken :=
    {s with
      opening := s.opening++[⟨s.opened,s.current⟩], current := s.minted, minted := s.minted+1, opened := s.opened+1}
  if s.pending then {taken with pending := false, externalWaits := s.externalWaits-1} else taken

def launch (s : World) (o : Opening) : World :=
  {s with opening := s.opening.erase o, launched := s.launched++[(o,s.priority)]}

-- The release task: `Signal::trigger` up to the end of the block's section.
def trigger (s : World) (task : Opening × Priority) : World :=
  let settled := (s.signals task.1.signal).settle
  {s with
    launched := s.launched.erase task, signals := Function.update s.signals task.1.signal settled.1
    resuming := s.resuming++settled.2, released := s.released++[task.1]}

def attach (s : World) (h : Handle) (w : WaiterId) : World :=
  let attached := (s.signals h.signal).attach w
  {s with
    signals := Function.update s.signals h.signal attached.1, resuming := s.resuming++attached.2
    waits := s.waits++[(h,w)]}

def resume (s : World) (w : WaiterId) : World :=
  {s with resuming := s.resuming.erase w, resumed := s.resumed++[w]}

end World

-- `external` is any other registration, or the end of one.
inductive GateAction where
  | next
  | exchange
  | launch (o : Opening)
  | trigger (task : Opening × Priority)
  | attach (h : Handle) (w : WaiterId)
  | resume (w : WaiterId)
  | setReleasePriority (priority : Priority)
  | external (change : Int)

-- A handle is awaited by waiters of their own. Anything else may come at any
-- time: the queues give the release tasks back in any order.
def Allowed (s : World) : GateAction → Prop
  | .launch o => o ∈ s.opening
  | .trigger task => task ∈ s.launched
  | .attach h w => h ∈ s.handles ∧ w ∉ s.waits.map Prod.snd
  | .resume w => w ∈ s.resuming
  | _ => True

instance (s : World) (a : GateAction) : Decidable (Allowed s a) := by
  cases a <;> simp only [Allowed] <;> infer_instance

def apply (s : World) : GateAction → World
  | .next => s.next
  | .exchange => s.exchange
  | .launch o => s.launch o
  | .trigger task => s.trigger task
  | .attach h w => s.attach h w
  | .resume w => s.resume w
  | .setReleasePriority priority => {s with priority := priority}
  | .external change => {s with externalWaits := s.externalWaits+change, others := s.others+change}

def gateSystem : Machine World GateAction where
  start := fun s => ∃ others, s = {externalWaits := others,others := others}
  allowed := Allowed
  apply := apply

instance (s : World) (a : GateAction) : Decidable (gateSystem.allowed s a) := inferInstanceAs (Decidable (Allowed s a))

end Macrame.FrameGate

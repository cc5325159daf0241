import Macrame.Lib.Grid
import Macrame.Lib.Machine
import Macrame.MachineInt

namespace Macrame

-- Clock readings and durations are counts of ticks; `requested` is what the token
-- says.
structure Periodic where
  period : Int
  nextDeadline : Int
  requested : Bool := false
  deriving DecidableEq, Repr

namespace Periodic

-- A period that is not positive is fatal.
def make (period now : Int) : Option Periodic :=
  if period ≤ 0 then none else some {period := period,nextDeadline := now+period}

-- The count of `advance`: the quotient of the durations truncates and is converted
-- to `int` before one is added.
def due (p : Periodic) (now : Int) : Int := int32 (1+int32 ((now-p.nextDeadline).tdiv p.period))

def advance (p : Periodic) (now : Int) : Periodic × Int :=
  if p.requested then (p,0) else ({p with nextDeadline := p.nextDeadline+p.period*p.due now},p.due now)

def reset (p : Periodic) (now : Int) : Periodic := {p with nextDeadline := now+p.period}

-- `next` settles in the call, or it is armed.
def settles (p : Periodic) (now : Int) : Bool := p.requested || decide (p.nextDeadline ≤ now)

end Periodic

-- One tick: the deadline it was for, the reading of its `advance`, the value and
-- the next deadline.
structure PeriodicTick where
  deadline : Int
  now : Int
  value : Int
  next : Int
  deriving DecidableEq, Repr

-- A `Periodic`, its consumer's outstanding `next` and the last clock reading.
-- History: the origin of the grid and the ticks.
structure PeriodicRun where
  periodic : Periodic
  outstanding : Bool := false
  clock : Int
  origin : Int
  ticks : List PeriodicTick := []
  deriving DecidableEq, Repr

inductive PeriodicAction where
  | next (first now : Int)
  | deliver (now : Int)
  | reset (now : Int)
  | request
  deriving DecidableEq, Repr

namespace PeriodicRun

def settle (s : PeriodicRun) (now : Int) : PeriodicRun :=
  {s with
    periodic := (s.periodic.advance now).1, outstanding := false, clock := now
    ticks := s.ticks++[⟨s.periodic.nextDeadline,now,(s.periodic.advance now).2,(s.periodic.advance now).1.nextDeadline⟩]}

-- The timer delivers at the deadline or later, or once the token is requested; a
-- `next` that settles in the call reads the clock again.
def Allowed (s : PeriodicRun) : PeriodicAction → Prop
  | .next first now => s.outstanding = false ∧ s.clock ≤ first ∧ first ≤ now
  | .deliver now => s.outstanding = true ∧ s.clock ≤ now ∧ s.periodic.settles now = true
  | .reset now => s.outstanding = false ∧ s.clock ≤ now
  | .request => True

def apply (s : PeriodicRun) : PeriodicAction → PeriodicRun
  | .next first now => if s.periodic.settles first then s.settle now else {s with outstanding := true, clock := first}
  | .deliver now => s.settle now
  | .reset now => {s with periodic := s.periodic.reset now, clock := now, origin := now}
  | .request => {s with periodic := {s.periodic with requested := true}}

instance decideAllowed (s : PeriodicRun) : (a : PeriodicAction) → Decidable (s.Allowed a)
  | .next _ _ => inferInstanceAs (Decidable (_ ∧ _))
  | .deliver _ => inferInstanceAs (Decidable (_ ∧ _))
  | .reset _ => inferInstanceAs (Decidable (_ ∧ _))
  | .request => inferInstanceAs (Decidable True)

end PeriodicRun

def PeriodicAction.ticks : PeriodicAction → Bool
  | .next _ _ => true
  | .deliver _ => true
  | _ => false

def periodicSystem : Machines.Machine PeriodicRun PeriodicAction :=
  ⟨fun s => ∃ period now p, Periodic.make period now = some p ∧ s = {periodic := p,clock := now,origin := now},
    PeriodicRun.Allowed,fun s a => s.apply a⟩

-- Neither a reset nor a request.
def tickSystem : Machines.Machine PeriodicRun PeriodicAction := periodicSystem.under (fun _ a => a.ticks = true)

instance decideTick (s : PeriodicRun) (a : PeriodicAction) : Decidable (tickSystem.allowed s a) :=
  @instDecidableAnd _ _ (PeriodicRun.decideAllowed s a) (inferInstanceAs (Decidable (_ = _)))

end Macrame

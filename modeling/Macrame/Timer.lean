import Mathlib.Data.List.Sort
import Mathlib.Logic.Function.Basic
import Macrame.Lib.Machine
import Macrame.Lib.Tally

namespace Macrame

-- A timed wait, by the order of the arms.
abbrev TimedId := Nat

-- `Timed_fields`, with the deadline; `dropped` is history.
structure TimedFields where
  deadline : Int := 0
  live : Bool := false
  delivered : Bool := false
  dropped : Bool := false
  deriving DecidableEq, Repr

structure TimerEntry where
  deadline : Int
  serial : Nat
  wait : TimedId
  deriving DecidableEq, Repr

-- The order of `std::push_heap` and `std::pop_heap`.
def TimerEntry.later (a b : TimerEntry) : Bool :=
  if a.deadline ≠ b.deadline then decide (a.deadline > b.deadline) else decide (a.serial > b.serial)

-- The timer thread: not started or joined, at the head of its loop or parked, with
-- the blocks it is about to deliver, between a delivery and the release of its
-- registration, over.
inductive TimerThread where
  | absent
  | looking
  | firing (fire : List TimedId)
  | releasing (fire : List TimedId)
  | exited
  deriving DecidableEq, Repr

-- A delivery: by a cancel, or by a pass of the timer thread.
structure TimedDelivery where
  wait : TimedId
  pass : Option Nat
  deriving DecidableEq, Repr

-- The `Timer_service`, its waits and `outstanding_external_waits`. The heap is
-- listed in the order in which `pop_heap` takes it apart. `cancelling` are the
-- waits that cancel calls have taken and not yet submitted, `releasing` the calls
-- that have submitted theirs and not yet released its registration; a shutdown is
-- `joining` until the thread is over. History: the deliveries, the clock reading of
-- each pass, and the cancel calls.
structure Timer where
  fields : TimedId → TimedFields := fun _ => {}
  heap : List TimerEntry := []
  nextSerial : Nat := 0
  live : Int := 0
  stopping : Bool := false
  thread : TimerThread := .absent
  joining : Bool := false
  outstanding : Int
  clock : Int := 0
  cancelling : List TimedId := []
  releasing : Nat := 0
  handed : List TimedDelivery := []
  passes : List Int := []
  cancels : List TimedId := []
  fatal : Bool := false

namespace Timer

def modifyFields (s : Timer) (w : TimedId) (change : TimedFields → TimedFields) : Timer :=
  {s with fields := Function.update s.fields w (change (s.fields w))}

def externalWaitAdd (s : Timer) (delta : Int) : Timer := {s with outstanding := s.outstanding+delta}

def pushHeap (heap : List TimerEntry) (e : TimerEntry) : List TimerEntry :=
  heap.orderedInsert (fun a b => b.later a = true) e

def arm (s : Timer) (deadline : Int) : Timer :=
  let w := s.nextSerial
  let started := if s.thread = .absent then {s with stopping := false, thread := .looking} else s
  {(started.modifyFields w (fun _ => {deadline := deadline,live := true})).externalWaitAdd 1 with
    live := s.live+1, heap := pushHeap s.heap ⟨deadline,s.nextSerial,w⟩, nextSerial := s.nextSerial+1}

-- A wait is taken from the heap's hands, to be delivered.
def deliver (s : Timer) (w : TimedId) : Timer :=
  {s.modifyFields w (fun x => {x with live := false,delivered := true}) with live := s.live-1}

-- The section of `cancel`, and then the two halves of its `deliver`.
def cancel (s : Timer) (w : TimedId) : Timer :=
  let called := {s with cancels := s.cancels++[w]}
  if (s.fields w).live then {called.deliver w with cancelling := s.cancelling++[w]} else called

def submit (s : Timer) (w : TimedId) : Timer :=
  {s with cancelling := s.cancelling.erase w, handed := s.handed++[⟨w,none⟩], releasing := s.releasing+1}

def release (s : Timer) : Timer := {s.externalWaitAdd (-1) with releasing := s.releasing-1}

-- One turn of the loop over `due`.
def take (s : Timer) (e : TimerEntry) : Timer :=
  if (s.fields e.wait).live then
    {s.deliver e.wait with
      thread := match s.thread with
        | .firing fire => .firing (fire++[e.wait])
        | other => other}
  else s

-- The section of the timer thread from the head of its loop; it reads the clock
-- twice when an entry is due.
def look (s : Timer) (first now : Int) : Timer :=
  if s.stopping then {s with thread := .exited}
  else match s.heap with
    | [] => s
    | head :: _ =>
      if first < head.deadline then {s with clock := first}
      else
        (s.heap.takeWhile (fun e => decide (e.deadline ≤ now))).foldl take
          {s with
            clock := now, heap := s.heap.dropWhile (fun e => decide (e.deadline ≤ now)), passes := s.passes++[now]
            thread := .firing []}

-- The loop over `fire`, outside the lock.
def fire (s : Timer) : Timer :=
  match s.thread with
  | .firing (w :: rest) => {s with handed := s.handed++[⟨w,some (s.passes.length-1)⟩], thread := .releasing rest}
  | .firing [] => {s with thread := .looking}
  | .releasing rest => {s.externalWaitAdd (-1) with thread := .firing rest}
  | _ => s

-- One turn of the loop of `shutdown` over the heap.
def drop (s : Timer) (e : TimerEntry) : Timer :=
  if (s.fields e.wait).live then
    (s.modifyFields e.wait (fun x => {x with live := false,dropped := true})).externalWaitAdd (-1)
  else s

def shutdown (checks : Bool) (s : Timer) (checkArmed : Bool) : Timer :=
  if s.thread = .absent then s
  else if checks = true ∧ checkArmed = true ∧ s.live ≠ 0 then {s with fatal := true}
  else {s.heap.foldl drop {s with stopping := true} with heap := [], live := 0, joining := true}

def joined (s : Timer) : Timer := {s with thread := .absent, joining := false}

def fires (s : Timer) : Bool :=
  match s.thread with
  | .firing _ => true
  | .releasing _ => true
  | _ => false

end Timer

inductive TimerAction where
  | arm (deadline : Int)
  | cancel (w : TimedId)
  | submit (w : TimedId)
  | release
  | look (first now : Int)
  | fire
  | shutdown (checkArmed : Bool)
  | joined
  deriving DecidableEq, Repr

namespace Timer

-- The clock does not go back, and neither an arm nor another shutdown overlaps a
-- shutdown.
def Allowed (s : Timer) : TimerAction → Prop
  | .arm _ => s.fatal = false ∧ s.joining = false
  | .cancel w => s.fatal = false ∧ w < s.nextSerial
  | .submit w => s.fatal = false ∧ w ∈ s.cancelling
  | .release => s.fatal = false ∧ 0 < s.releasing
  | .look first now => s.fatal = false ∧ s.thread = .looking ∧ s.clock ≤ first ∧ first ≤ now
  | .fire => s.fatal = false ∧ s.fires = true
  | .shutdown _ => s.fatal = false ∧ s.joining = false
  | .joined => s.fatal = false ∧ s.joining = true ∧ s.thread = .exited

def apply (checks : Bool) (s : Timer) : TimerAction → Timer
  | .arm deadline => s.arm deadline
  | .cancel w => s.cancel w
  | .submit w => s.submit w
  | .release => s.release
  | .look first now => s.look first now
  | .fire => s.fire
  | .shutdown checkArmed => s.shutdown checks checkArmed
  | .joined => s.joined

instance decideAllowed (s : Timer) : (a : TimerAction) → Decidable (s.Allowed a)
  | .arm _ => inferInstanceAs (Decidable (_ ∧ _))
  | .cancel _ => inferInstanceAs (Decidable (_ ∧ _))
  | .submit _ => inferInstanceAs (Decidable (_ ∧ _))
  | .release => inferInstanceAs (Decidable (_ ∧ _))
  | .look _ _ => inferInstanceAs (Decidable (_ ∧ _))
  | .fire => inferInstanceAs (Decidable (_ ∧ _))
  | .shutdown _ => inferInstanceAs (Decidable (_ ∧ _))
  | .joined => inferInstanceAs (Decidable (_ ∧ _))

end Timer

-- `others` is what else `outstanding_external_waits` counts; the clock may start
-- anywhere.
def timerSystem (checks : Bool) (others : Int) : Machines.Machine Timer TimerAction :=
  ⟨fun s => ∃ now, s = {outstanding := others,clock := now},Timer.Allowed,fun s a => s.apply checks a⟩

instance decideTimer (checks : Bool) (others : Int) (s : Timer) (a : TimerAction) :
    Decidable ((timerSystem checks others).allowed s a) :=
  Timer.decideAllowed s a

end Macrame

import Mathlib.Logic.Function.Basic
import Mathlib.Data.Nat.Basic
import Macrame.Lib.Machine
import Macrame.Lib.Tally
import Macrame.MachineInt

namespace Macrame

abbrev ThreadId := Nat

inductive Priority where
  | high
  | normal
  | low
  deriving DecidableEq, Repr

inductive Balance where
  | balanced
  | guided
  | unbalanced
  deriving DecidableEq, Repr

def claimGrain (balance : Balance) (size claimed workers : Nat) : Nat :=
  match balance with
  | .unbalanced => 1
  | .balanced => max 1 ((size+workers-1)/workers)
  | .guided => max 1 ((size-claimed)/(2*workers))

-- `claim_grain` as `int` arithmetic has it, with division towards zero.
def claimGrainInt (balance : Balance) (size claimed workers : Int) : Int :=
  match balance with
  | .unbalanced => 1
  | .balanced => let g := (size+workers-1).tdiv workers; if g < 1 then 1 else g
  | .guided => let g := (size-claimed).tdiv (2*workers); if g < 1 then 1 else g

def effectiveWorkers (maxWorkers workerCount items : Int) : Int :=
  min (max 1 (if 0 < maxWorkers then maxWorkers else workerCount)) items

-- `running` is the priority of the calling task, if a task is running.
def resolvedPriority (requested running : Option Priority) : Priority := requested.getD (running.getD .normal)

-- Where a submitted entry lies. `serial` is the trampoline of worker-less mode.
inductive Place where
  | high
  | normalGlobal
  | low
  | ownDeque (worker : ThreadId)
  | serial
  deriving DecidableEq, Repr

-- Whether `yield_to_higher` for code of this class may pop there.
def Priority.yieldsTo : Priority → Place → Bool
  | own,.high => own != .high
  | .low,.normalGlobal => true
  | _,_ => false

-- One call of `parallel_for_colored`: its arguments, and who makes it. Threads
-- below `workers` are the scheduler's; without any, an entry submitted while
-- this thread drains the trampoline (`draining`) waits its turn there.
structure Coloring where
  bands : List (List Int)
  rounds : Int
  maxWorkers : Int
  balance : Balance
  priority : Option Priority
  workers : Nat
  caller : ThreadId
  calling : Option Priority
  draining : Bool

namespace Coloring

-- `bands` of the state holds the non-empty ones only.
def full (c : Coloring) : List (List Int) := c.bands.filter (!·.isEmpty)

-- How many phases there are to run and how many items one has, of any number.
def totalPhases (c : Coloring) : Nat := c.rounds.toNat*c.full.length

def bandSize (c : Coloring) (phase : Nat) : Nat := (c.full.getD (phase % c.full.length) []).length

-- What the code has in their place: `static_cast<int>(band.size())`, and what
-- `parallel_for_colored` makes of it.
def bandInt (c : Coloring) (phase : Nat) : Int := int32 (c.bandSize phase)

def widestInt (c : Coloring) : Int := c.bands.foldl (fun widest band => max widest (int32 band.length)) 0

def idle (c : Coloring) : Bool := c.rounds ≤ 0 || c.widestInt == 0

def workersInt (c : Coloring) : Int := effectiveWorkers c.maxWorkers c.workers c.widestInt

def phasesInt (c : Coloring) : Int := int32 (c.rounds*int32 c.full.length)

def executors (c : Coloring) : Nat := c.workersInt.toNat

-- The helpers' dispatch priority.
def helperClass (c : Coloring) : Priority := resolvedPriority c.priority c.calling

-- What a yield in the body resolves: a helper is a raw entry with no task of its own.
def bodyClass (c : Coloring) (executor : Nat) : Priority :=
  if executor = 0 then resolvedPriority none c.calling else resolvedPriority none none

-- `Scheduler::submit`; an own deque may be full.
def accepts (c : Coloring) (place : Place) : Bool :=
  if c.workers = 0 then place == .serial && c.draining
  else match c.helperClass with
    | .high => place == .high
    | .normal => place == .normalGlobal || place == .ownDeque c.caller && c.caller < c.workers
    | .low => place == .low

end Coloring

-- `phase_next`, by its two halves.
structure PhaseWord where
  phase : Nat := 0
  next : Nat := 0
  deriving DecidableEq, Repr

-- Where an executor stands; 0 is the caller, the others are helpers. `entering`
-- is about to load the word and go to the top of the loop, `looping` there;
-- `pausing` is inside `yield_to_higher`, before its pop, `reloading` past it;
-- `judging` looks at the word it has, `claiming` is at its CAS. `resetting`,
-- `advancing` and `ending` have found the band done; `leaving` has left the loop.
inductive LoopStage where
  | unborn
  | submitting (submitted : Nat)
  | queued (place : Place)
  | entering
  | looping (cur : PhaseWord)
  | pausing
  | reloading
  | judging (cur : PhaseWord)
  | waiting (cur : PhaseWord)
  | claiming (cur : PhaseWord)
  | running (phase start stop next : Nat)
  | accounting (phase start stop : Nat)
  | resetting (phase : Nat)
  | advancing (phase : Nat)
  | ending (phase : Nat)
  | completing
  | leaving
  | returned
  deriving DecidableEq, Repr

-- One entry of a thread's stack: an executor of the loop, or other work.
-- `nested` is one that was taken at a yield point.
structure Layer where
  executor : Option Nat
  nested : Bool
  deriving DecidableEq, Repr

-- `Colored_state` and the threads, the top of each stack first. `threads` is
-- where an executor runs and `ran` which items have been given to the body, by
-- phase and place in the band: both are history.
structure ColoredState where
  called : Bool := false
  phaseNext : PhaseWord := {}
  bandDone : Int := 0
  settles : Nat := 0
  stages : Nat → LoopStage := fun _ => .unborn
  stack : ThreadId → List Layer := fun _ => []
  threads : Nat → ThreadId := fun _ => 0
  ran : List (Nat × Nat) := []

namespace ColoredState

def setStage (s : ColoredState) (e : Nat) (stage : LoopStage) : ColoredState :=
  {s with stages := Function.update s.stages e stage}

def push (s : ColoredState) (t : ThreadId) (layer : Layer) : ColoredState :=
  {s with stack := Function.update s.stack t (layer :: s.stack t)}

def pop (s : ColoredState) (t : ThreadId) : ColoredState :=
  {s with stack := Function.update s.stack t (s.stack t).tail}

-- An executor starts on a thread.
def start (s : ColoredState) (t : ThreadId) (e : Nat) (nested : Bool) (stage : LoopStage) : ColoredState :=
  {(s.push t ⟨some e,nested⟩).setStage e stage with threads := Function.update s.threads e t}

-- `parallel_for_colored`, up to the fan-out of `run_participants`.
def call (c : Coloring) (s : ColoredState) : ColoredState :=
  if c.idle = true then {s with called := true}.setStage 0 .returned
  else {s with called := true}.start c.caller 0 false (.submitting 0)

-- The next step of an executor's `run_loop`. `choice` is the answer of
-- `yield_work_queued`, and of a weak CAS that fails though the word is as expected.
def step (c : Coloring) (s : ColoredState) (t : ThreadId) (e : Nat) (choice : Bool) : ColoredState :=
  match s.stages e with
  | .submitting _ => s.setStage e .entering
  | .entering => s.setStage e (.looping s.phaseNext)
  | .looping cur => s.setStage e (if choice then .pausing else .judging cur)
  | .pausing => s.setStage e (.judging s.phaseNext)
  | .reloading => s.setStage e (.judging s.phaseNext)
  | .judging cur =>
    s.setStage e
      (if c.phasesInt ≤ cur.phase then .leaving
      else if c.bandInt cur.phase ≤ cur.next then .waiting cur
      else .claiming cur)
  | .waiting _ => s.setStage e (.looping s.phaseNext)
  | .claiming cur =>
    if s.phaseNext = cur ∧ choice = false then
      let size := c.bandInt cur.phase
      let stop := min (int32 (cur.next+claimGrainInt c.balance size cur.next c.workersInt)) size
      {s with phaseNext := ⟨cur.phase,stop.toNat⟩}.setStage e (.running cur.phase cur.next stop.toNat cur.next)
    else s.setStage e (.looping s.phaseNext)
  | .running phase start stop next =>
    if next < stop then {s with ran := s.ran++[(phase,next)]}.setStage e (.running phase start stop (next+1))
    else s.setStage e (.accounting phase start stop)
  | .accounting phase start stop =>
    let done := int32 (s.bandDone+((stop : Int)-start))
    {s with bandDone := done}.setStage e
      (if done = c.bandInt phase then
        if c.phasesInt ≤ (phase : Int)+1 then .ending phase else .resetting phase
      else .entering)
  | .resetting phase => {s with bandDone := 0}.setStage e (.advancing phase)
  | .advancing phase => {s with phaseNext := ⟨phase+1,0⟩}.setStage e (.looping ⟨phase+1,0⟩)
  | .ending _ => {s with phaseNext := ⟨c.phasesInt.toNat,0⟩}.setStage e .completing
  | .completing => {s with settles := s.settles+1}.setStage e .leaving
  | .leaving => (s.pop t).setStage e .returned
  | _ => s

-- What the top of a thread's stack yields for: anything, where it is other
-- work; the loop between chunks, and its body, for their own class.
def yieldsAs (c : Coloring) (s : ColoredState) (own : Priority) : Layer → Bool
  | ⟨none,_⟩ => true
  | ⟨some e,_⟩ => match s.stages e with
    | .pausing => own == c.helperClass
    | .running _ _ _ _ => own == c.bodyClass e
    | _ => false

-- The yielding code goes on past its yield point once the entry has run.
def yielded (s : ColoredState) : Option Layer → ColoredState
  | some ⟨some e,_⟩ => if s.stages e = .pausing then s.setStage e .reloading else s
  | _ => s

end ColoredState

inductive ColoredAction where
  | arrive (t : ThreadId)
  | depart (t : ThreadId)
  | call
  | submit (place : Place)
  | submitInline
  | take (t : ThreadId) (e : Nat)
  | yieldOther (t : ThreadId) (own : Priority)
  | yieldHelper (t : ThreadId) (own : Priority) (e : Nat)
  | step (t : ThreadId) (e : Nat) (choice : Bool)
  deriving DecidableEq, Repr

namespace ColoredState

-- `yield_to_higher` gets to its pops: on a worker, not inside an entry that is
-- itself run at a yield point, and below the class `high`.
def yields (c : Coloring) (s : ColoredState) (t : ThreadId) (own : Priority) : Bool :=
  t < c.workers && (s.stack t).all (!·.nested) && own != .high && (s.stack t).head?.any (s.yieldsAs c own)

def place (s : ColoredState) (e : Nat) : Option Place :=
  match s.stages e with
  | .queued place => some place
  | _ => none

def fanning (s : ColoredState) : Option Nat :=
  match s.stages 0 with
  | .submitting submitted => some submitted
  | _ => none

-- Who may go on: a wait ends when the word has changed, the caller's join when
-- the block has settled.
def ready (c : Coloring) (s : ColoredState) (e : Nat) : Bool :=
  match s.stages e with
  | .submitting submitted => c.executors ≤ submitted+1
  | .waiting cur => s.phaseNext != cur
  | .leaving => e != 0 || 0 < s.settles
  | .unborn => false
  | .queued _ => false
  | .returned => false
  | _ => true

def tops (s : ColoredState) (t : ThreadId) (executor : Option Nat) : Prop :=
  ((s.stack t).head?.map Layer.executor) = some executor

-- A free worker takes from any queue but the trampoline, which the thread in
-- worker-less mode drains itself.
def Allowed (c : Coloring) (s : ColoredState) : ColoredAction → Prop
  | .arrive t => s.stack t = []
  | .depart t => s.tops t none
  | .call => s.called = false ∧ s.tops c.caller none
  | .submit place =>
    s.tops c.caller (some 0) ∧ s.fanning.any (·+1 < c.executors) = true ∧ c.accepts place = true
  | .submitInline =>
    s.tops c.caller (some 0) ∧ s.fanning.any (·+1 < c.executors) = true ∧ c.workers = 0 ∧ c.draining = false
  | .take t e =>
    s.stack t = [] ∧ s.place e ≠ none ∧ (t < c.workers ∧ s.place e ≠ some .serial ∨ c.workers = 0 ∧ t = c.caller)
  | .yieldOther t own => s.yields c t own = true
  | .yieldHelper t own e => s.yields c t own = true ∧ (s.place e).any own.yieldsTo = true
  | .step t e _ => s.tops t (some e) ∧ s.ready c e = true

def apply (c : Coloring) (s : ColoredState) : ColoredAction → ColoredState
  | .arrive t => s.push t ⟨none,false⟩
  | .depart t => s.pop t
  | .call => s.call c
  | .submit place =>
    match s.fanning with
    | some submitted => (s.setStage (submitted+1) (.queued place)).setStage 0 (.submitting (submitted+1))
    | none => s
  | .submitInline =>
    match s.fanning with
    | some submitted => (s.start c.caller (submitted+1) false .entering).setStage 0 (.submitting (submitted+1))
    | none => s
  | .take t e => s.start t e false .entering
  | .yieldOther t _ => (s.yielded (s.stack t).head?).push t ⟨none,true⟩
  | .yieldHelper t _ e => (s.yielded (s.stack t).head?).start t e true .entering
  | .step t e choice => s.step c t e choice

instance decideAllowed (c : Coloring) (s : ColoredState) : (a : ColoredAction) → Decidable (s.Allowed c a)
  | .arrive _ => inferInstanceAs (Decidable (_ = _))
  | .depart _ => inferInstanceAs (Decidable (_ = _))
  | .call => inferInstanceAs (Decidable (_ ∧ (_ = _)))
  | .submit _ => inferInstanceAs (Decidable ((_ = _) ∧ _ ∧ _))
  | .submitInline => inferInstanceAs (Decidable ((_ = _) ∧ _ ∧ _ ∧ _))
  | .take _ _ => inferInstanceAs (Decidable (_ ∧ _ ∧ (_ ∨ _)))
  | .yieldOther _ _ => inferInstanceAs (Decidable (_ = _))
  | .yieldHelper _ _ _ => inferInstanceAs (Decidable (_ ∧ _))
  | .step _ _ _ => inferInstanceAs (Decidable ((_ = _) ∧ _))

end ColoredState

def coloredSystem (c : Coloring) : Machines.Machine ColoredState ColoredAction :=
  ⟨(· = {}),ColoredState.Allowed c,ColoredState.apply c⟩

instance (c : Coloring) (s : ColoredState) (a : ColoredAction) : Decidable ((coloredSystem c).allowed s a) :=
  ColoredState.decideAllowed c s a

end Macrame

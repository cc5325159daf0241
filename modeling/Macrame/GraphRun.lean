import Macrame.Lib.Tally
import Macrame.GraphDeterminism
import Macrame.System

namespace Macrame

-- What a thread still has to do for a run of a graph between two atomic steps:
-- the root loop of `execute`, and the three parts of `node_complete`.
inductive Tail where
  | kick (roots : List Nat)
  | lower (node : Nat) (left ready : List Nat)
  | fire (node : Nat) (ready : List Nat)
  | conclude
  deriving DecidableEq, Repr

-- Where a node stands in the run, beside the code's own counters.
inductive Stage where
  | blocked
  | readied
  | launched
  | lowering (left ready : List Nat)
  | firing (ready : List Nat)
  | counted
  deriving DecidableEq, Repr

namespace Stage

-- `node_complete` has been called for it.
def completed : Stage → Bool
  | lowering _ _ => true
  | firing _ => true
  | counted => true
  | _ => false

-- `on_data_ready` has been called for it.
def started (stage : Stage) : Bool := stage == .launched || stage.completed

-- The successors it has collected and not yet triggered.
def collected : Stage → List Nat
  | lowering _ ready => ready
  | firing ready => ready
  | _ => []

end Stage

-- `Run_state`, with the history of the run: the stages, the roots that the
-- kickoff loop has still to trigger, the calls of `on_data_ready` and of
-- `node_complete` in order, and what the token read when `done` was settled.
structure Run where
  remainingDeps : Nat → Int := fun _ => 0
  remainingNodes : Int := 0
  token : Option TokenId := none
  done : Option BlockId := none
  tails : List Tail := []
  stage : Nat → Stage := fun _ => .blocked
  kicked : List Nat := []
  launches : List Nat := []
  completions : List Nat := []
  verdict : Option Bool := none

namespace Run

def push (run : Run) (t : Tail) : Run := {run with tails := t :: run.tails}
def drop (run : Run) (t : Tail) : Run := {run with tails := run.tails.erase t}
def setStage (run : Run) (i : Nat) (stage : Stage) : Run := {run with stage := Function.update run.stage i stage}

def kickTail (roots : List Nat) (run : Run) : Run :=
  {run with tails := if roots = [] then run.tails else .kick roots :: run.tails}

def roots (g : Graph) : List Nat := (List.range g.size).filter (fun i => g.indegree i == 0)

def firstStage (g : Graph) (i : Nat) : Stage := if g.indegree i = 0 then .readied else .blocked

-- The per-run reset of `execute`. An empty graph settles `done` at once.
def rearm (g : Graph) (token : Option TokenId) (done : BlockId) : Run :=
  kickTail (roots g) {
    remainingDeps := fun i => g.indegree i
    remainingNodes := g.size
    token := token
    done := some done
    stage := firstStage g
    kicked := roots g
    verdict := if g.size = 0 then some false else none}

-- `on_data_ready`, on the run's side.
def launch (run : Run) (j : Nat) : Run := {run.setStage j .launched with launches := run.launches++[j]}

-- `node_complete` up to its first atomic step.
def nodeComplete (g : Graph) (run : Run) (i : Nat) : Run :=
  {(run.setStage i (.lowering (g.successors i) [])).push (.lower i (g.successors i) []) with
    completions := run.completions++[i]}

-- One `remaining_deps[j].fetch_sub` made by node `i`.
def lowerDep (run : Run) (i j : Nat) (left ready : List Nat) : Run :=
  let last := run.remainingDeps j = 1
  let ready := if last then ready++[j] else ready
  {run with
    remainingDeps := Function.update run.remainingDeps j (run.remainingDeps j-1)
    stage := Function.update (if last then Function.update run.stage j .readied else run.stage) i (.lowering left ready)
    tails := .lower i left ready :: run.tails}

-- The `remaining_nodes.fetch_sub` that ends node `i`.
def countNode (run : Run) (i : Nat) : Run :=
  {run.setStage i .counted with
    remainingNodes := run.remainingNodes-1
    tails := if run.remainingNodes = 1 then .conclude :: run.tails else run.tails}

-- What resuming a tail does to the run; the node it triggers, if any, is
-- launched in the same step.
def advance (run : Run) (cancel : Bool) : Tail → Run
  | .kick [] => run
  | .kick (i :: rest) => kickTail rest ({run with kicked := rest}.launch i)
  | .lower i (j :: left) ready => run.lowerDep i j left ready
  | .lower i [] ready => (run.setStage i (.firing ready)).push (.fire i ready)
  | .fire i (j :: rest) => ((run.launch j).setStage i (.firing rest)).push (.fire i rest)
  | .fire i [] => run.countNode i
  | .conclude => {run with verdict := some cancel}

def resume (run : Run) (cancel : Bool) (t : Tail) : Run := (run.drop t).advance cancel t

end Run

-- A node's share of a successor's count, and of the nodes still to count.
def owes (g : Graph) (j i : Nat) (stage : Stage) : Nat :=
  match stage with
  | .lowering left _ => if j ∈ left then 1 else 0
  | .firing _ => 0
  | .counted => 0
  | _ => if g.edge i j = true then 1 else 0

def uncounted (_ : Nat) (stage : Stage) : Nat := if stage = .counted then 0 else 1

def carries (j : Nat) (_ : Nat) (stage : Stage) : Nat := stage.collected.count j

namespace Run

-- The tail that a run must have pending, by stage.
def expects (g : Graph) (run : Run) : Tail → Prop
  | .kick roots => run.kicked = roots ∧ roots ≠ []
  | .lower i left ready => i < g.size ∧ run.stage i = .lowering left ready
  | .fire i ready => i < g.size ∧ run.stage i = .firing ready
  | .conclude => run.remainingNodes = 0 ∧ run.verdict = none

instance (g : Graph) (run : Run) : (t : Tail) → Decidable (run.expects g t)
  | .kick _ => inferInstanceAs (Decidable (_ ∧ _))
  | .lower _ _ _ => inferInstanceAs (Decidable (_ ∧ _))
  | .fire _ _ => inferInstanceAs (Decidable (_ ∧ _))
  | .conclude => inferInstanceAs (Decidable (_ ∧ _))

-- The books of a run: one pending tail for what the stages call for, and
-- counters that are what the nodes still owe.
structure Sound (g : Graph) (run : Run) : Prop where
  pending : ∀ t, run.tails.count t = if run.expects g t then 1 else 0
  deps : ∀ j, j < g.size → run.remainingDeps j = Tally.tally g.size (owes g j) run.stage
  nodes : run.remainingNodes = Tally.tally g.size uncounted run.stage
  blocked : ∀ j, j < g.size → (run.stage j = .blocked ↔ run.remainingDeps j ≠ 0)
  readied : ∀ j, j < g.size →
    Tally.tally g.size (carries j) run.stage+run.kicked.count j = if run.stage j = .readied then 1 else 0
  inner : ∀ j, j ∈ run.kicked ∨ (∃ i, i < g.size ∧ j ∈ (run.stage i).collected) → j < g.size
  lowering : ∀ i left ready, i < g.size → run.stage i = .lowering left ready → left.Nodup ∧ ∀ j ∈ left, g.edge i j = true
  launched : ∀ j, run.launches.count j = if j < g.size ∧ (run.stage j).started = true then 1 else 0
  begun : Kahn.Begun g.size g.edge run.completions
  ended : ∀ i, i ∈ run.completions ↔ i < g.size ∧ (run.stage i).completed = true
  last : run.verdict ≠ none → run.remainingNodes = 0

end Run
end Macrame

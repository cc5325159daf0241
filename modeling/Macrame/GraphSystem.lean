import Mathlib.Data.Fintype.Basic
import Macrame.GraphRun
import Macrame.BlockSteps

namespace Macrame

-- The compiled graphs of a program, with the blocks `compile` made for their nodes.
structure Deployment where
  count : Nat
  graphs : Fin count → Compiled
  block : Fin count → Nat → BlockId
  distinct : ∀ g h i j, i < (graphs g).graph.size → j < (graphs h).graph.size → block g i = block h j → g = h ∧ i = j

namespace Deployment

variable (d : Deployment)

abbrev GraphId := Fin d.count

def graph (g : d.GraphId) : Graph := (d.graphs g).graph

def isNode (b : BlockId) : Bool := decide (∃ g : d.GraphId, ∃ i : Fin (d.graph g).size, d.block g i = b)

end Deployment

-- The task system and one `Run_state` for each graph.
structure World (d : Deployment) where
  base : State := .initial
  runs : d.GraphId → Run := fun _ => {}

inductive WorldAction (d : Deployment) where
  | base (a : Action)
  | execute (g : d.GraphId) (done : BlockId) (token : Option TokenId) (lent : List PipeId) (parent : Option BlockId)
  | nodeComplete (g : d.GraphId) (i : Nat)
  | tail (g : d.GraphId) (t : Tail)

namespace World

variable {d : Deployment}

-- Blocks that the graphs keep: node blocks, and the handle of each graph's last run.
def owned (w : World d) (b : BlockId) : Bool := d.isNode b || decide (∃ g : d.GraphId, (w.runs g).done = some b)

-- A system action as the rest of the program may take it.
def outside (w : World d) : Action → Bool
  | .arm b kind _ _ => !w.owned b && kind != .graphNode
  | .rebind b _ => !w.owned b
  | .launch b => !w.owned b
  | .tryInline b => !w.owned b
  | .createFrame b => !w.owned b
  | .settleBare b _ => !w.owned b
  | .resume (.own b .nodeComplete) => !d.isNode b
  | _ => true

-- `run.token.is_cancel_requested()`.
def cancelRequested (w : World d) (g : d.GraphId) : Bool :=
  match (w.runs g).token with
  | none => false
  | some token => w.base.tokens token

-- `on_data_ready`.
def onDataReady (w : World d) (g : d.GraphId) (j : Nat) : State := w.base.apply (.launch (d.block g j))

def tailBase (w : World d) (g : d.GraphId) : Tail → State
  | .kick (i :: _) => w.onDataReady g i
  | .fire _ (j :: _) => w.onDataReady g j
  | .conclude =>
    match (w.runs g).done with
    | none => w.base
    | some done => w.base.apply (.settleBare done (w.cancelRequested g))
  | _ => w.base

-- The re-arm of the node blocks, with the links that are not lent.
def rearmNode (g : d.GraphId) (token : Option TokenId) (lent : List PipeId) (s : State) (i : Nat) : State :=
  s.apply (.arm (d.block g i) .graphNode (((d.graph g).nodeLinks i).keep (fun link => !lent.contains link.pipe)) token)

def rearmNodes (g : d.GraphId) (token : Option TokenId) (lent : List PipeId) (s : State) (nodes : List Nat) : State :=
  nodes.foldl (rearmNode g token lent) s

def join (s : State) (done : BlockId) : Option BlockId → State
  | none => s
  | some parent => s.apply (.addNested parent done)

-- `execute` up to its kickoff loop; an empty graph completes its handle here.
def executeBase (w : World d) (g : d.GraphId) (done : BlockId) (token : Option TokenId) (lent : List PipeId)
    (parent : Option BlockId) : State :=
  let armed := (rearmNodes g token lent w.base (List.range (d.graph g).size)).apply (.arm done .bare .empty none)
  let joined := join armed done parent
  if (d.graph g).size = 0 then joined.apply (.settleBare done false) else joined

def setRun (w : World d) (g : d.GraphId) (run : Run) (base : State) : World d := ⟨base,Function.update w.runs g run⟩

-- A run starts after the handle of the last one has settled, with a fresh one.
def Allowed (w : World d) : WorldAction d → Prop
  | .base a => w.base.Allowed a ∧ w.outside a = true
  | .execute g done _ _ parent =>
    (∀ b ∈ (w.runs g).done, (w.base.blocks b).completed = true) ∧
      (w.base.progress done).status.resting = true ∧ w.owned done = false ∧
      ∀ b ∈ parent, (w.base.progress b).status = .running
  | .nodeComplete g i => i < (d.graph g).size ∧ .own (d.block g i) .nodeComplete ∈ w.base.pending
  | .tail g t => t ∈ (w.runs g).tails

def apply (w : World d) : WorldAction d → World d
  | .base a => {w with base := w.base.apply a}
  | .execute g done token lent parent =>
    w.setRun g (.rearm (d.graph g) token done) (w.executeBase g done token lent parent)
  | .nodeComplete g i =>
    w.setRun g ((w.runs g).nodeComplete (d.graph g) i) (w.base.apply (.resume (.own (d.block g i) .nodeComplete)))
  | .tail g t => w.setRun g ((w.runs g).resume (w.cancelRequested g) t) (w.tailBase g t)

end World

instance (d : Deployment) (w : World d) : (a : WorldAction d) → Decidable (w.Allowed a)
  | .base _ => inferInstanceAs (Decidable (_ ∧ _))
  | .execute _ _ _ _ _ => inferInstanceAs (Decidable (_ ∧ _ ∧ _ ∧ _))
  | .nodeComplete _ _ => inferInstanceAs (Decidable (_ ∧ _))
  | .tail _ _ => inferInstanceAs (Decidable (_ ∈ _))

def graphSystem (d : Deployment) : Machines.Machine (World d) (WorldAction d) := ⟨(· = {}),World.Allowed,World.apply⟩

instance (d : Deployment) (w : World d) (a : WorldAction d) : Decidable ((graphSystem d).allowed w a) :=
  inferInstanceAs (Decidable (w.Allowed a))

end Macrame

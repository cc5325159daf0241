import Macrame.RankVerdict

namespace Macrame

-- Where `fire` stands between two of its sections: before the probe over every
-- object, before it asks for lends, before the probe over what is left, before
-- it dispatches an all-lent body or enters the first pipe; then the machinery
-- has the block.
inductive FireStep where
  | probing
  | lending
  | reprobing
  | entering
  | fired
  deriving DecidableEq, Repr

-- One fire of an `Access_op`. `lent` is what `bind_links` has left out. History:
-- how many admissions each pipe had seen when it began, and the links given back.
structure Fire where
  op : AccessOp
  step : FireStep
  lent : List Link := []
  mark : PipeId → Nat
  gaveBack : List Link := []

-- The task system with the last fire of every block that is an `Access_op`.
structure OpWorld where
  base : State := .initial
  fires : BlockId → Option Fire := fun _ => none

inductive OpAction where
  | base (a : Action)
  | start (b : BlockId) (op : AccessOp) (token : Option TokenId)
  | probe (b : BlockId)
  | lend (b : BlockId) (ctx : Option AccessContext)
  | reprobe (b : BlockId)
  | enter (b : BlockId)
  deriving DecidableEq, Repr

-- What only `fire` does to a caller-owned block.
def Action.firing (s : State) : Action → Bool
  | .arm _ kind _ _ => kind == .callerOwned
  | .rebind _ _ => true
  | .launch b => (s.blocks b).kind == .callerOwned
  | .tryInline _ => true
  | _ => false

namespace State

-- The probe of `pipe_try_inline`, as `tryInline` asks it.
def passes (s : State) (b : BlockId) : Bool :=
  (s.blocks b).links.entries.all (fun link => (s.pipes link.pipe).pipe.free link.mode)

-- The link that the next turn of `advance_pipe_links` gives back.
def returns (s : State) (b : BlockId) : Action → Option Link
  | .resume (.own c (.advance i _)) =>
    if c = b ∧ i < (s.blocks b).pipesEntered then (s.blocks b).links.entries[i]? else none
  | _ => none

end State

def Fire.note (f : Fire) (s : State) (b : BlockId) (a : Action) : Fire :=
  {f with gaveBack := f.gaveBack++(s.returns b a).toList}

namespace OpWorld

variable (build : Build)

def at_ (w : OpWorld) (b : BlockId) (step : FireStep) : Bool := (w.fires b).any (·.step == step)

-- A block that starts another cycle by itself is an `Access_op` no more.
def others (w : OpWorld) (a : Action) : OpWorld :=
  {base := w.base.apply a
   fires := fun b => if a.claims = some b then none else (w.fires b).map (·.note w.base b a)}

def goTo (w : OpWorld) (b : BlockId) (step : FireStep) : OpWorld :=
  {w with fires := Function.update w.fires b ((w.fires b).map (fun f => {f with step := step}))}

-- The constructor and `start`: the counters are reset, and without `.queued`
-- every object is bound for the probe.
def start (w : OpWorld) (b : BlockId) (op : AccessOp) (token : Option TokenId) : OpWorld :=
  {base := w.base.apply (.arm b .callerOwned (if op.queued then .empty else op.targets) token)
   fires := Function.update w.fires b (some {
     op := op
     step := if op.queued then .lending else .probing
     mark := fun p => (w.base.pipes p).admitted.length})}

def probe (w : OpWorld) (b : BlockId) (failed : FireStep) : OpWorld :=
  {w with base := w.base.apply (.tryInline b)}.goTo b (if w.base.passes b then .fired else failed)

-- The step that a lend leads to.
def afterLend (op : AccessOp) (bound : LinkTable) : FireStep :=
  if !op.queued && bound.count != 0 && decide (bound.count < op.targets.count) then .reprobing else .entering

def lend (w : OpWorld) (b : BlockId) (ctx : Option AccessContext) : OpWorld :=
  match w.fires b with
  | none => w
  | some f =>
    match bindLinks build w.base.epochs ctx true f.op.targets with
    | .error _ => w
    | .ok bound =>
      {base := w.base.apply (.rebind b bound)
       fires := Function.update w.fires b (some {f with
         step := afterLend f.op bound
         lent := f.op.targets.entries.filter (lends build w.base.epochs ctx)})}

-- The fatal of a read grant that would be lent to a writer stops the program.
def Lendable (w : OpWorld) (b : BlockId) (ctx : Option AccessContext) : Bool :=
  (w.fires b).any (fun f => (bindLinks build w.base.epochs ctx true f.op.targets).toOption.isSome)

def Allowed (w : OpWorld) : OpAction → Prop
  | .base a => w.base.Allowed a ∧ a.firing w.base = false
  | .start b _ _ => (w.base.progress b).status.resting = true
  | .probe b => w.at_ b .probing = true
  | .lend b ctx => w.at_ b .lending = true ∧ w.Lendable build b ctx = true
  | .reprobe b => w.at_ b .reprobing = true
  | .enter b => w.at_ b .entering = true

def apply (w : OpWorld) : OpAction → OpWorld
  | .base a => w.others a
  | .start b op token => w.start b op token
  | .probe b => w.probe b .lending
  | .lend b ctx => w.lend build b ctx
  | .reprobe b => w.probe b .entering
  | .enter b => {w with base := w.base.apply (.launch b)}.goTo b .fired

end OpWorld

def opSystem (build : Build) : Machines.Machine OpWorld OpAction :=
  ⟨(· = {}),OpWorld.Allowed build,OpWorld.apply build⟩

instance OpWorld.decideAllowed (build : Build) (w : OpWorld) : (a : OpAction) → Decidable (w.Allowed build a)
  | .base _ => inferInstanceAs (Decidable (_ ∧ _))
  | .start _ _ _ => inferInstanceAs (Decidable (_ = _))
  | .probe _ => inferInstanceAs (Decidable (_ = _))
  | .lend _ _ => inferInstanceAs (Decidable (_ ∧ _))
  | .reprobe _ => inferInstanceAs (Decidable (_ = _))
  | .enter _ => inferInstanceAs (Decidable (_ = _))

instance OpWorld.decideStep (build : Build) (w : OpWorld) (a : OpAction) : Decidable ((opSystem build).allowed w a) :=
  inferInstanceAs (Decidable (w.Allowed build a))

end Macrame

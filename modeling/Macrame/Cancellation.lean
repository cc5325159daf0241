import Mathlib.Logic.Function.Basic
import Macrame.Lib.Machine

namespace Macrame

abbrev CallbackAddress := Nat
abbrev CallbackId := Nat
abbrev CancelThread := Nat

-- A `Cancel_callback`: in its constructor, between the two, waiting in its
-- destructor, gone.
inductive CallbackPhase where
  | constructing
  | live
  | destroying
  | destroyed
  deriving DecidableEq, Repr

-- Its address is its identity while it lives, and another may be constructed there
-- afterwards. `asked` is what its constructor has read of the request, `destroyer`
-- the thread of its destructor.
structure CallbackObject where
  address : CallbackAddress
  asked : Bool
  phase : CallbackPhase
  destroyer : Option CancelThread := none
  deriving DecidableEq, Repr

-- What a thread is in: a callback invoked by its constructor, one invoked by the
-- loop of `request_cancel`, that loop about to take the mutex again, the wait of a
-- destructor.
inductive CancelFrame where
  | invoking (o : CallbackId)
  | firing (o : CallbackId)
  | relocking
  | waiting (o : CallbackId)
  deriving DecidableEq, Repr

-- A `Cancel_state` with the callbacks ever constructed on it, by their numbers,
-- what is at the addresses, and the threads. History: the invocations in order,
-- what was registered as cancellation was requested, what of it the loop took and
-- what was deregistered first, and whether the loop has called through an address
-- with no callback at it.
structure CancelState where
  requested : Bool := false
  callbacks : List CallbackAddress := []
  firing : Option CallbackAddress := none
  firingThread : Option CancelThread := none
  objects : List CallbackObject := []
  memory : CallbackAddress → Option CallbackId := fun _ => none
  callStacks : CancelThread → List CancelFrame := fun _ => []
  fired : List CallbackId := []
  slate : List CallbackId := []
  popped : List CallbackId := []
  erased : List CallbackId := []
  wild : Bool := false

namespace CancelState

def registered (s : CancelState) : List CallbackId := s.callbacks.filterMap s.memory

def phase (s : CancelState) (o : CallbackId) : Option CallbackPhase := (s.objects[o]?).map CallbackObject.phase

def setStack (s : CancelState) (t : CancelThread) (frames : List CancelFrame) : CancelState :=
  {s with callStacks := Function.update s.callStacks t frames}

def modifyObject (s : CancelState) (o : CallbackId) (change : CallbackObject → CallbackObject) : CancelState :=
  {s with objects := s.objects.modify o change}

-- The constructor: one section of the mutex.
def construct (s : CancelState) (t : CancelThread) (a : CallbackAddress) : CancelState :=
  let o := s.objects.length
  let placed := {s with memory := Function.update s.memory a (some o)}
  if s.requested then
    {placed.setStack t (.invoking o :: s.callStacks t) with
      objects := s.objects++[⟨a,true,.constructing,none⟩], fired := s.fired++[o]}
  else {placed with objects := s.objects++[⟨a,false,.live,none⟩], callbacks := s.callbacks++[a]}

-- A callback's function returns, to its constructor or to the loop.
def finish (s : CancelState) (t : CancelThread) : CancelState :=
  match s.callStacks t with
  | .invoking o :: rest => (s.modifyObject o (fun x => {x with phase := .live})).setStack t rest
  | .firing _ :: rest => s.setStack t (.relocking :: rest)
  | _ => s

-- The head of the loop of `request_cancel`, with the mutex held; `rest` is what
-- the caller was in.
def turn (s : CancelState) (t : CancelThread) (rest : List CancelFrame) : CancelState :=
  match s.callbacks.getLast? with
  | none => s.setStack t rest
  | some a =>
    match s.memory a with
    | some o =>
      {s.setStack t (.firing o :: rest) with
        callbacks := s.callbacks.dropLast, firing := some a, firingThread := some t
        fired := s.fired++[o], popped := s.popped++[o]}
    | none => {s with wild := true}

def requestCancel (s : CancelState) (t : CancelThread) : CancelState :=
  if s.requested then s else {s with requested := true, slate := s.registered}.turn t (s.callStacks t)

def relock (s : CancelState) (t : CancelThread) : CancelState :=
  match s.callStacks t with
  | .relocking :: rest => {s with firing := none}.turn t rest
  | _ => s

-- The end of a destructor.
def release (s : CancelState) (t : CancelThread) (o : CallbackId) (a : CallbackAddress) : CancelState :=
  {s.modifyObject o (fun x => {x with phase := .destroyed, destroyer := some t}) with
    memory := Function.update s.memory a none}

def destroy (s : CancelState) (t : CancelThread) (o : CallbackId) : CancelState :=
  match s.objects[o]? with
  | none => s
  | some x =>
    if x.address ∈ s.callbacks then
      {s.release t o x.address with
        callbacks := s.callbacks.erase x.address
        erased := if s.requested then s.erased++[o] else s.erased}
    else if s.firing = some x.address then
      if s.firingThread = some t then s.release t o x.address
      else
        (s.modifyObject o (fun x => {x with phase := .destroying, destroyer := some t})).setStack t
          (.waiting o :: s.callStacks t)
    else s.release t o x.address

-- The wait's predicate, and its end.
def wakes (s : CancelState) (t : CancelThread) : Bool :=
  match s.callStacks t with
  | .waiting o :: _ => (s.objects[o]?).any (fun x => s.firing ≠ some x.address)
  | _ => false

def wake (s : CancelState) (t : CancelThread) : CancelState :=
  match s.callStacks t with
  | .waiting o :: rest =>
    match s.objects[o]? with
    | some x => (s.release t o x.address).setStack t rest
    | none => s
  | _ => s

-- In code of the user's: outside all callbacks, or in one.
def free (s : CancelState) (t : CancelThread) : Bool :=
  match s.callStacks t with
  | .relocking :: _ => false
  | .waiting _ :: _ => false
  | _ => true

def returns (s : CancelState) (t : CancelThread) : Bool :=
  match s.callStacks t with
  | .invoking _ :: _ => true
  | .firing _ :: _ => true
  | _ => false

end CancelState

inductive CancelAction where
  | construct (t : CancelThread) (a : CallbackAddress)
  | finish (t : CancelThread)
  | requestCancel (t : CancelThread)
  | relock (t : CancelThread)
  | destroy (t : CancelThread) (o : CallbackId)
  | wake (t : CancelThread)
  deriving DecidableEq, Repr

namespace CancelState

-- An object is constructed where none is, and destroyed once, after its
-- constructor.
def Allowed (s : CancelState) : CancelAction → Prop
  | .construct t a => s.free t = true ∧ s.memory a = none
  | .finish t => s.returns t = true
  | .requestCancel t => s.free t = true
  | .relock t => (s.callStacks t).head? = some .relocking
  | .destroy t o => s.free t = true ∧ s.phase o = some .live
  | .wake t => s.wakes t = true

def apply (s : CancelState) : CancelAction → CancelState
  | .construct t a => s.construct t a
  | .finish t => s.finish t
  | .requestCancel t => s.requestCancel t
  | .relock t => s.relock t
  | .destroy t o => s.destroy t o
  | .wake t => s.wake t

instance decideAllowed (s : CancelState) : (a : CancelAction) → Decidable (s.Allowed a)
  | .construct _ _ => inferInstanceAs (Decidable (_ ∧ _))
  | .finish _ => inferInstanceAs (Decidable (_ = _))
  | .requestCancel _ => inferInstanceAs (Decidable (_ = _))
  | .relock _ => inferInstanceAs (Decidable (_ = _))
  | .destroy _ _ => inferInstanceAs (Decidable (_ ∧ _))
  | .wake _ => inferInstanceAs (Decidable (_ = _))

end CancelState

def cancelSystem : Machines.Machine CancelState CancelAction :=
  ⟨(· = {}),CancelState.Allowed,fun s a => s.apply a⟩

instance decideCancel (s : CancelState) (a : CancelAction) : Decidable (cancelSystem.allowed s a) :=
  CancelState.decideAllowed s a

end Macrame

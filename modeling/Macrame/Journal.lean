import Mathlib.Data.List.Count
import Mathlib.Logic.Function.Basic
import Mathlib.Tactic.Simps.Basic
import Macrame.Lib.Machine
import Macrame.Lib.Bins
import Macrame.Access

namespace Macrame

abbrev SlotId := Nat
abbrev RecorderId := Nat
abbrev HandleId := Nat

-- A staged closure, known by its place in the sequence of all stages. `slot`
-- is where it was staged; the code keeps none of this with the closure.
structure Command where
  stamp : Nat
  recorder : RecorderId
  lane : Nat
  slot : SlotId
  deriving DecidableEq, Repr

-- A `Recorder` or `Parallel_recorder` object. `mint` tells whose commands it
-- stages and moves with the slots; the constructor of a parallel recorder and
-- every destructor go through the slots one by one.
inductive Handle where
  | empty
  | recorder (mint : RecorderId) (slot : SlotId)
  | minting (mint : RecorderId) (slots : List SlotId)
  | parallel (mint : RecorderId) (slots : List SlotId)
  | releasing (slots : List SlotId)
  deriving DecidableEq, Repr

namespace Handle

-- `Parallel_recorder::lane` for `current_worker_index()`.
def lane (slots : List SlotId) (worker : Int) : Nat :=
  if worker < 0 ∨ (slots.length : Int) ≤ worker+1 then 0 else (worker+1).toNat

-- The slot a `stage` of this handle locks, and whose command it adds there.
def target (worker : Int) : Handle → Option (RecorderId × Nat × SlotId)
  | .recorder mint slot => some (mint,0,slot)
  | .parallel mint slots => slots[lane slots worker]?.map (fun slot => (mint,lane slots worker,slot))
  | _ => none

-- The slots a handle stages into, or will when its constructor is through.
def bound : Handle → Option (RecorderId × List SlotId)
  | .recorder mint slot => some (mint,[slot])
  | .minting mint slots => some (mint,slots)
  | .parallel mint slots => some (mint,slots)
  | _ => none

def slots : Handle → List SlotId
  | .empty => []
  | .recorder _ slot => [slot]
  | .minting _ slots => slots
  | .parallel _ slots => slots
  | .releasing slots => slots

-- Neither its constructor nor its destructor is at work.
def settled : Handle → Bool
  | .minting _ _ => false
  | .releasing _ => false
  | _ => true

def releases : Handle → Bool
  | .releasing (_ :: _) => true
  | _ => false

def mints : Handle → Bool
  | .minting _ _ => true
  | _ => false

end Handle

-- Who is inside `register_mutex_` between two sections of slot mutexes, and
-- the next slot it will lock.
inductive Register where
  | free
  | cutting (holder : Nat) (next : SlotId)
  | clearing (next : SlotId)
  deriving DecidableEq, Repr

-- `slots_` with what each slot holds, `free_` with its back last. The rest is
-- history: what was staged, what cuts took and clears dropped, how much had
-- been staged when each cut began, and the sections of the cuts.
structure Journal where
  slots : List (List Command) := []
  free : List SlotId := []
  register : Register := .free
  handles : HandleId → Handle := fun _ => .empty
  mints : RecorderId := 0
  issued : List Command := []
  taken : List (Command × Nat) := []
  discarded : List Command := []
  begun : List Nat := []
  cuts : List Bins.Pass := []

namespace Journal

def maxSlots : Nat := 4096

@[simps] def setHandle (j : Journal) (h : HandleId) (handle : Handle) : Journal :=
  {j with handles := Function.update j.handles h handle}

-- `add_slot`; with the safety checks it is fatal past `max_slots`.
def addSlot (checked : Bool) (j : Journal) : Option (Journal × SlotId) :=
  match j.free.getLast? with
  | some slot => some ({j with free := j.free.dropLast},slot)
  | none =>
    if checked = true ∧ maxSlots ≤ j.slots.length then none
    else some ({j with slots := j.slots++[[]]},j.slots.length)

def releaseSlot (j : Journal) (slot : SlotId) : Journal := {j with free := j.free++[slot]}

-- `Deferred::recorder`, and `Parallel_recorder`'s constructor lane by lane.
def recorder (checked : Bool) (j : Journal) (h : HandleId) : Journal :=
  match j.addSlot checked with
  | some (minted,slot) => {minted with mints := j.mints+1}.setHandle h (.recorder j.mints slot)
  | none => j

def parallelRecorder (j : Journal) (h : HandleId) : Journal :=
  {j with mints := j.mints+1}.setHandle h (.minting j.mints [])

def mintLane (checked : Bool) (workers : Nat) (j : Journal) (h : HandleId) : Journal :=
  match j.handles h,j.addSlot checked with
  | .minting mint slots,some (minted,slot) =>
    minted.setHandle h
      (if slots.length = workers then .parallel mint (slots++[slot]) else .minting mint (slots++[slot]))
  | _,_ => j

-- The destructor, and the first half of a move assignment.
def release (j : Journal) (h : HandleId) : Journal :=
  if (j.handles h).slots = [] then j.setHandle h .empty else j.setHandle h (.releasing (j.handles h).slots)

def releaseNext (j : Journal) (h : HandleId) : Journal :=
  match j.handles h with
  | .releasing (slot :: rest) =>
    (j.releaseSlot slot).setHandle h (if rest = [] then .empty else .releasing rest)
  | _ => j

-- The move constructor, and the second half of a move assignment.
def move (j : Journal) (source target : HandleId) : Journal :=
  (j.setHandle target (j.handles source)).setHandle source .empty

-- `stage`: one section of the slot's mutex.
def stage (j : Journal) (h : HandleId) (worker : Int) : Journal :=
  match (j.handles h).target worker with
  | some (mint,lane,slot) =>
    let staged : Command := ⟨j.issued.length,mint,lane,slot⟩
    {j with slots := j.slots.modify slot (·++[staged]),issued := j.issued++[staged]}
  | none => j

-- The number of the cut under way, or of the last one.
def batch (j : Journal) : Nat := j.begun.length-1

def cutBegin (j : Journal) (holder : Nat) : Journal :=
  {j with register := .cutting holder 0,begun := j.begun++[j.issued.length]}

-- One turn of the loop of `cut`: the slot's commands go to `out`.
def cutSlot (j : Journal) (holder : Nat) (slot : SlotId) : Journal :=
  {j with
    slots := j.slots.set slot [],register := .cutting holder (slot+1)
    taken := j.taken++(j.slots.getD slot []).map (fun c => (c,j.batch))
    cuts := j.cuts++[⟨slot,j.batch,j.issued.length⟩]}

-- One turn of the loop of `clear_staged`.
def clearSlot (j : Journal) (slot : SlotId) : Journal :=
  {j with
    slots := j.slots.set slot [],register := .clearing (slot+1)
    discarded := j.discarded++j.slots.getD slot []}

def unlock (j : Journal) : Journal := {j with register := .free}

-- What is staged, in the order of the slots.
def staged (j : Journal) : List Command := j.slots.flatten

end Journal

inductive JournalAction where
  | recorder (h : HandleId)
  | parallelRecorder (h : HandleId)
  | mintLane (h : HandleId)
  | move (source target : HandleId)
  | release (h : HandleId)
  | releaseNext (h : HandleId)
  | stage (h : HandleId) (worker : Int)
  | clearBegin
  | clearNext
  | clearEnd
  | cutBegin (holder : Nat)
  | cutNext (holder : Nat)
  | cutEnd (holder : Nat)
  deriving DecidableEq, Repr

-- The steps of recorders and of `discard`; the owner of the journal makes the cuts.
def JournalAction.outer : JournalAction → Bool
  | .cutBegin _ => false
  | .cutNext _ => false
  | .cutEnd _ => false
  | _ => true

-- What recorders do; neither a cut nor a `discard`.
def JournalAction.records : JournalAction → Bool
  | .clearBegin => false
  | .clearNext => false
  | .clearEnd => false
  | .cutBegin _ => false
  | .cutNext _ => false
  | .cutEnd _ => false
  | _ => true

namespace Journal

def nextClear (j : Journal) : Option SlotId :=
  match j.register with
  | .clearing next => some next
  | _ => none

def nextCut (j : Journal) (holder : Nat) : Option SlotId :=
  match j.register with
  | .cutting owner next => if owner = holder then some next else none
  | _ => none

-- A handle is used by one thread at a time: it is minted into an empty object,
-- and neither moved nor staged on while its constructor or destructor is at
-- work. Staging on an empty handle is fatal.
def Allowed (checked : Bool) (j : Journal) : JournalAction → Prop
  | .recorder h => j.handles h = .empty ∧ j.register = .free ∧ (j.addSlot checked).isSome = true
  | .parallelRecorder h => j.handles h = .empty
  | .mintLane h => (j.handles h).mints = true ∧ j.register = .free ∧ (j.addSlot checked).isSome = true
  | .move source target => source ≠ target ∧ j.handles target = .empty ∧ (j.handles source).settled = true
  | .release h => (j.handles h).settled = true
  | .releaseNext h => (j.handles h).releases = true ∧ j.register = .free
  | .stage h worker => ((j.handles h).target worker).isSome = true
  | .clearBegin => j.register = .free
  | .clearNext => j.nextClear.any (· < j.slots.length) = true
  | .clearEnd => j.nextClear = some j.slots.length
  | .cutBegin _ => j.register = .free
  | .cutNext holder => (j.nextCut holder).any (· < j.slots.length) = true
  | .cutEnd holder => j.nextCut holder = some j.slots.length

def apply (checked : Bool) (workers : Nat) (j : Journal) : JournalAction → Journal
  | .recorder h => j.recorder checked h
  | .parallelRecorder h => j.parallelRecorder h
  | .mintLane h => j.mintLane checked workers h
  | .move source target => j.move source target
  | .release h => j.release h
  | .releaseNext h => j.releaseNext h
  | .stage h worker => j.stage h worker
  | .clearBegin => {j with register := .clearing 0}
  | .clearNext => match j.nextClear with
    | some next => j.clearSlot next
    | none => j
  | .clearEnd => j.unlock
  | .cutBegin holder => j.cutBegin holder
  | .cutNext holder => match j.nextCut holder with
    | some next => j.cutSlot holder next
    | none => j
  | .cutEnd _ => j.unlock

instance decideAllowed (checked : Bool) (j : Journal) : (a : JournalAction) → Decidable (j.Allowed checked a)
  | .recorder _ => inferInstanceAs (Decidable (_ ∧ _ ∧ _))
  | .parallelRecorder _ => inferInstanceAs (Decidable (_ = _))
  | .mintLane _ => inferInstanceAs (Decidable (_ ∧ _ ∧ _))
  | .move _ _ => inferInstanceAs (Decidable (_ ∧ _ ∧ _))
  | .release _ => inferInstanceAs (Decidable (_ = _))
  | .releaseNext _ => inferInstanceAs (Decidable (_ ∧ _))
  | .stage _ _ => inferInstanceAs (Decidable (_ = _))
  | .clearBegin => inferInstanceAs (Decidable (_ = _))
  | .clearNext => inferInstanceAs (Decidable (_ = _))
  | .clearEnd => inferInstanceAs (Decidable (_ = _))
  | .cutBegin _ => inferInstanceAs (Decidable (_ = _))
  | .cutNext _ => inferInstanceAs (Decidable (_ = _))
  | .cutEnd _ => inferInstanceAs (Decidable (_ = _))

end Journal
end Macrame

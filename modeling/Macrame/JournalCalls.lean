import Macrame.JournalOwners

namespace Macrame
namespace Journal

-- `~Journal` reports that a recorder is still about.
def outstanding (j : Journal) : Bool := decide (j.free.length < j.slots.length)

-- The loop of `Parallel_recorder`'s constructor; `add_slot` may be fatal.
def mintLanes (checked : Bool) (workers : Nat) : Nat → Journal → HandleId → Option Journal
  | 0,j,_ => some j
  | n+1,j,h => if (j.addSlot checked).isSome then mintLanes checked workers n (j.mintLane checked workers h) h else none

def releaseSlots : Nat → Journal → HandleId → Journal
  | 0,j,_ => j
  | n+1,j,h => releaseSlots n (j.releaseNext h) h

-- A whole destructor, and the first half of a move assignment.
def destroy (j : Journal) (h : HandleId) : Journal := releaseSlots (j.handles h).slots.length (j.release h) h

def assign (j : Journal) (source target : HandleId) : Journal :=
  if source = target then j else (j.destroy target).move source target

-- A whole `cut`, and a whole `clear_staged`.
def cut (j : Journal) : Journal :=
  ((List.range j.slots.length).foldl (fun k slot => k.cutSlot 0 slot) (j.cutBegin 0)).unlock

def clearStaged (j : Journal) : Journal :=
  ((List.range j.slots.length).foldl clearSlot {j with register := .clearing 0}).unlock

-- What the last cut has put into its `out`.
def cutBatch (j : Journal) : List Command := (j.cut.taken.drop j.taken.length).map Prod.fst

end Journal

-- The calls on handles, each from its beginning to its end.
inductive RecorderCall where
  | mint (h : HandleId)
  | mintParallel (h : HandleId)
  | construct (source target : HandleId)
  | assign (source target : HandleId)
  | destroy (h : HandleId)
  | stage (h : HandleId) (worker : Int)
  | cut
  | clear
  deriving DecidableEq, Repr

-- What happens to recorders, whichever handles they are in.
inductive RecorderEvent where
  | mint (lanes : Nat)
  | destroy (mint : RecorderId)
  | stage (mint : RecorderId) (worker : Int)
  | cut
  | clear
  deriving DecidableEq, Repr

def Handle.destroyed (handle : Handle) : List RecorderEvent :=
  match handle.bound with
  | some (mint,_) => [.destroy mint]
  | none => []

-- A fatal `add_slot` ends the program.
def Journal.call (checked : Bool) (workers : Nat) (j : Journal) : RecorderCall → Option Journal
  | .mint h => if (j.addSlot checked).isSome then some (j.recorder checked h) else none
  | .mintParallel h => Journal.mintLanes checked workers (workers+1) (j.parallelRecorder h) h
  | .construct source target => some (j.move source target)
  | .assign source target => some (j.assign source target)
  | .destroy h => some (j.destroy h)
  | .stage h worker => some (j.stage h worker)
  | .cut => some j.cut
  | .clear => some j.clearStaged

def Journal.events (workers : Nat) (j : Journal) : RecorderCall → List RecorderEvent
  | .mint _ => [.mint 1]
  | .mintParallel _ => [.mint (workers+1)]
  | .construct _ _ => []
  | .assign source target => if source = target then [] else (j.handles target).destroyed
  | .destroy h => (j.handles h).destroyed
  | .stage h worker =>
    match (j.handles h).bound with
    | some (mint,_) => [.stage mint worker]
    | none => []
  | .cut => [.cut]
  | .clear => [.clear]

-- A journal between its calls. History: the events, and the batches of the cuts.
structure JournalRun where
  journal : Journal := {}
  events : List RecorderEvent := []
  batches : List (List Command) := []

namespace JournalRun

-- A recorder is constructed where there is none, and staging on an empty one is
-- fatal.
def Allowed (checked : Bool) (workers : Nat) (s : JournalRun) (c : RecorderCall) : Prop :=
  (s.journal.call checked workers c).isSome = true ∧
    match c with
    | .mint h => s.journal.handles h = .empty
    | .mintParallel h => s.journal.handles h = .empty
    | .construct source target => source ≠ target ∧ s.journal.handles target = .empty
    | .stage h worker => ((s.journal.handles h).target worker).isSome = true
    | _ => True

def apply (checked : Bool) (workers : Nat) (s : JournalRun) (c : RecorderCall) : JournalRun where
  journal := (s.journal.call checked workers c).getD s.journal
  events := s.events++s.journal.events workers c
  batches := if c = .cut then s.batches++[s.journal.cutBatch] else s.batches

instance decideAllowed (checked : Bool) (workers : Nat) (s : JournalRun) :
    (c : RecorderCall) → Decidable (s.Allowed checked workers c)
  | .mint _ => inferInstanceAs (Decidable (_ ∧ _))
  | .mintParallel _ => inferInstanceAs (Decidable (_ ∧ _))
  | .construct _ _ => inferInstanceAs (Decidable (_ ∧ _ ∧ _))
  | .assign _ _ => inferInstanceAs (Decidable (_ ∧ _))
  | .destroy _ => inferInstanceAs (Decidable (_ ∧ _))
  | .stage _ _ => inferInstanceAs (Decidable (_ ∧ _))
  | .cut => inferInstanceAs (Decidable (_ ∧ _))
  | .clear => inferInstanceAs (Decidable (_ ∧ _))

end JournalRun

def journalSystem (checked : Bool) (workers : Nat) : Machines.Machine JournalRun RecorderCall :=
  ⟨fun s => s = {},JournalRun.Allowed checked workers,JournalRun.apply checked workers⟩

instance decideJournalSystem (checked : Bool) (workers : Nat) (s : JournalRun) (c : RecorderCall) :
    Decidable ((journalSystem checked workers).allowed s c) :=
  inferInstanceAs (Decidable (s.Allowed checked workers c))

-- The journal as its recorders alone make it: no handles, and nothing moves.
structure MintLedger where
  slots : List (List Command) := []
  free : List SlotId := []
  owned : RecorderId → List SlotId := fun _ => []
  mints : RecorderId := 0
  staged : Nat := 0
  batches : List (List Command) := []

namespace MintLedger

def give (l : MintLedger) : MintLedger :=
  match l.free.getLast? with
  | some slot => {l with free := l.free.dropLast,owned := Function.update l.owned l.mints (l.owned l.mints++[slot])}
  | none =>
    {l with
      slots := l.slots++[[]],owned := Function.update l.owned l.mints (l.owned l.mints++[l.slots.length])}

def lanes : Nat → MintLedger → MintLedger
  | 0,l => l
  | n+1,l => lanes n l.give

def step (l : MintLedger) : RecorderEvent → MintLedger
  | .mint n => {lanes n l with mints := l.mints+1}
  | .destroy m => {l with free := l.free++l.owned m,owned := Function.update l.owned m []}
  | .stage m worker =>
    match (l.owned m)[Handle.lane (l.owned m) worker]? with
    | some slot =>
      {l with
        slots := l.slots.modify slot (·++[⟨l.staged,m,Handle.lane (l.owned m) worker,slot⟩]),staged := l.staged+1}
    | none => l
  | .cut => {l with slots := l.slots.map (fun _ => []),batches := l.batches++[l.slots.flatten]}
  | .clear => {l with slots := l.slots.map (fun _ => [])}

def replay (events : List RecorderEvent) : MintLedger := events.foldl step {}

end MintLedger

-- How two commands of one batch stand: by slot, and in a slot by the order of the
-- mints and of the stages.
def Command.Before (x y : Command) : Prop :=
  x.slot < y.slot ∨ x.slot = y.slot ∧ x.stamp < y.stamp ∧ x.recorder ≤ y.recorder

end Macrame

import Macrame.JournalLaws
import Macrame.Ownership

namespace Macrame

inductive Resync where
  | replay
  | copy
  | overwrite
  deriving DecidableEq, Repr

inductive History where
  | current
  | currentAndPrevious
  deriving DecidableEq, Repr

-- What a `Versioned<T, history>` is built over: the value every replica starts
-- with, what a staged command does to a replica, the copy of the resync (its
-- target first), and the two policies.
structure Versioning (T : Type) where
  initial : T
  effect : Command → T → T
  copy : T → T → T
  policy : Resync
  history : History

namespace Versioning

def run (d : Versioning T) (commands : List Command) (t : T) : T := commands.foldl (fun t c => d.effect c t) t

end Versioning

-- Who runs the first two phases of a publish: a task made for them, or a flip,
-- by the write admission its caller holds the front under.
inductive Runner where
  | task (b : BlockId)
  | flip (grant : Ticket)
  deriving DecidableEq, Repr

-- Where one publish stands. `quitting` and `skipping` are the early out of an
-- empty or cancelled one, before its first and its second trigger; `entering`
-- is about to cut, `locking` has cleared `batch_`; `queued` has submitted the
-- swap, `resyncing` the read job.
inductive PublishStage where
  | waiting
  | submitted (c : BlockId)
  | quitting (c : BlockId)
  | skipping (r : Runner)
  | entering (r : Runner)
  | locking (r : Runner)
  | cutting (r : Runner)
  | building (r : Runner) (next : Nat)
  | queued (c : BlockId)
  | swapping (r : Runner)
  | swapped (r : Runner)
  | resyncing (c : BlockId) (next : Nat)
  | resynced (c : BlockId)
  | settled
  deriving DecidableEq, Repr

def Runner.block : Runner → Option BlockId
  | .task b => some b
  | .flip _ => none

def Runner.grant : Runner → Option Ticket
  | .task _ => none
  | .flip k => some k

-- With an empty batch: a flip has no gate to trigger.
def Runner.emptyHanded : Runner → PublishStage
  | .task c => .quitting c
  | .flip k => .skipping (.flip k)

namespace PublishStage

-- The task in whose body the publish stands, or whose body will take it on.
def holder : PublishStage → Option BlockId
  | .submitted c => some c
  | .quitting c => some c
  | .skipping r => r.block
  | .entering r => r.block
  | .locking r => r.block
  | .cutting r => r.block
  | .building r _ => r.block
  | .queued c => some c
  | .swapping r => r.block
  | .swapped r => r.block
  | .resyncing c _ => some c
  | .resynced c => some c
  | _ => none

-- The admission a flip is under.
def grant : PublishStage → Option Ticket
  | .skipping r => r.grant
  | .entering r => r.grant
  | .locking r => r.grant
  | .cutting r => r.grant
  | .building r _ => r.grant
  | .swapping r => r.grant
  | .swapped r => r.grant
  | _ => none

end PublishStage

-- One published version: the publish that made it, the cut that took its batch,
-- and the batch.
structure Version where
  publish : Nat
  cut : Nat
  commands : List Command
  deriving DecidableEq, Repr

-- A `Versioned` on the front of one pipe, in a world of tasks. Publishes are
-- numbered in the order in which they pass `seq_mutex_`, so `chain_` is the
-- `shadow_ready` of the last; number 0 is the signal `init` puts there. A gate
-- is the `swapped` a dynamic publish returned, with how many entries the
-- front's queue had seen when it was triggered; `gating` is the swap's body
-- that still has to trigger it. `versions` and `unpublished` are history.
structure Versioned (T : Type) where
  base : State := .initial
  journal : Journal := {}
  batch : List Command := []
  front : T
  shadow : T
  previous : T
  serial : Nat := 0
  publishes : Nat := 0
  dynamic : Nat → Bool := fun _ => false
  tokens : Nat → Option TokenId := fun _ => none
  stages : Nat → PublishStage := fun _ => .waiting
  ready : Nat → Bool := fun n => n == 0
  gates : Nat → Option Nat := fun _ => none
  gating : Nat → Option BlockId := fun _ => none
  versions : List Version := []
  unpublished : List Command := []

namespace Versioned

variable {T : Type}

def setStage (s : Versioned T) (n : Nat) (stage : PublishStage) : Versioned T :=
  {s with stages := Function.update s.stages n stage}

def submit (s : Versioned T) (b : BlockId) (links : LinkTable) : Versioned T := {s with base := s.base.submit b links}

-- `publish`, up to the hand-over of the chain.
def publish (s : Versioned T) (token : Option TokenId) : Versioned T :=
  {s with
    publishes := s.publishes+1
    dynamic := Function.update s.dynamic (s.publishes+1) true
    tokens := Function.update s.tokens (s.publishes+1) token}

-- `publish_into`, past its check of the chain.
def flip (s : Versioned T) (grant : Ticket) : Versioned T :=
  {s with publishes := s.publishes+1}.setStage (s.publishes+1) (.entering (.flip grant))

-- The first line of phase 1.
def begin (s : Versioned T) (n : Nat) (c : BlockId) : Versioned T :=
  s.setStage n (if (s.tokens n).any s.base.tokens = true then .quitting c else .entering (.task c))

def trigger (p : PipeId) (s : Versioned T) (n : Nat) : Versioned T :=
  {s with gates := Function.update s.gates n (some (s.base.pipes p).entered.length)}

def settle (s : Versioned T) (n : Nat) : Versioned T :=
  {s with ready := Function.update s.ready n true}.setStage n .settled

-- `journal_.cut(batch_)`.
def clearBatch (s : Versioned T) (n : Nat) (r : Runner) : Versioned T := {s with batch := []}.setStage n (.locking r)

def cutBegin (s : Versioned T) (n : Nat) (r : Runner) : Versioned T :=
  {s with journal := s.journal.cutBegin n}.setStage n (.cutting r)

def cutNext (s : Versioned T) (n : Nat) : Versioned T :=
  match s.journal.nextCut n with
  | some slot =>
    {s with
      journal := s.journal.cutSlot n slot
      batch := s.batch++s.journal.slots.getD slot []
      unpublished := s.unpublished++s.journal.slots.getD slot []}
  | none => s

def cutEnd (s : Versioned T) (n : Nat) (r : Runner) : Versioned T :=
  {s with journal := s.journal.unlock}.setStage n
    (if s.batch = [] then r.emptyHanded else .building r 0)

-- One turn of the loop of `apply_to_shadow`.
def buildNext (d : Versioning T) (s : Versioned T) (n : Nat) (r : Runner) (next : Nat) : Versioned T :=
  match s.batch[next]? with
  | some c => {s with shadow := d.effect c s.shadow}.setStage n (.building r (next+1))
  | none => s

-- Phase 2 is a write access of its own, or the flip goes on to it.
def buildEnd (p : PipeId) (s : Versioned T) (n : Nat) (r : Runner) (c : BlockId) : Versioned T :=
  match r with
  | .task _ => (s.submit c (.single ⟨p,.readWrite⟩)).setStage n (.queued c)
  | .flip k => s.setStage n (.swapping (.flip k))

-- `swap_replicas`; a two-version history rotates.
def swapReplicas (d : Versioning T) (s : Versioned T) : Versioned T :=
  match d.history with
  | .current => {s with front := s.shadow,shadow := s.front}
  | .currentAndPrevious =>
    {s with front := s.shadow,shadow := s.previous,previous := s.front,serial := s.serial+1}

def swapEnd (d : Versioning T) (s : Versioned T) (n : Nat) (r : Runner) : Versioned T :=
  {swapReplicas d s with
    versions := s.versions++[Version.mk n s.journal.batch s.unpublished]
    unpublished := []}.setStage n (.swapped r)

-- `start_resync`. The body of a phase 2 then goes on to its `swapped.trigger()`.
def startResync (d : Versioning T) (p : PipeId) (s : Versioned T) (n : Nat) (r : Runner) (c : BlockId) : Versioned T :=
  let noted := {s with gating := Function.update s.gating n r.block}
  match d.policy with
  | .overwrite => {noted with batch := []}.settle n
  | _ => (noted.submit c (.single ⟨p,.readOnly⟩)).setStage n (.resyncing c 0)

def resyncNext (d : Versioning T) (s : Versioned T) (n : Nat) (c : BlockId) (next : Nat) : Versioned T :=
  match s.batch[next]? with
  | some command => {s with shadow := d.effect command s.shadow}.setStage n (.resyncing c (next+1))
  | none => s

-- The copy, or the end of the replay, and `batch_.clear()`.
def resyncEnd (d : Versioning T) (s : Versioned T) (n : Nat) (c : BlockId) : Versioned T :=
  {s with
    shadow := if d.policy = Resync.copy then d.copy s.shadow s.front else s.shadow
    batch := []}.setStage n (.resynced c)

end Versioned

inductive VersionedAction where
  | base (a : Action)
  | journal (a : JournalAction)
  | publish (token : Option TokenId)
  | flip (grant : Ticket)
  | submit (n : Nat) (c : BlockId)
  | begin (n : Nat) (c : BlockId)
  | quit (n : Nat) (c : BlockId)
  | skip (n : Nat) (r : Runner)
  | clearBatch (n : Nat) (r : Runner)
  | cutBegin (n : Nat) (r : Runner)
  | cutNext (n : Nat) (r : Runner)
  | cutEnd (n : Nat) (r : Runner)
  | buildNext (n : Nat) (r : Runner) (next : Nat)
  | buildEnd (n : Nat) (r : Runner) (c : BlockId)
  | swapBegin (n : Nat) (c : BlockId)
  | swapEnd (n : Nat) (r : Runner)
  | startResync (n : Nat) (r : Runner) (c : BlockId)
  | gate (n : Nat) (c : BlockId)
  | resyncNext (n : Nat) (c : BlockId) (next : Nat)
  | resyncEnd (n : Nat) (c : BlockId) (next : Nat)
  | settle (n : Nat) (c : BlockId)
  deriving DecidableEq, Repr

namespace Versioned

variable {T : Type}

-- The task is in the middle of a phase of some publish.
def engaged (s : Versioned T) (b : BlockId) : Prop :=
  ∃ n, n < s.publishes+1 ∧ ((s.stages n).holder = some b ∨ s.gating n = some b)

-- A phase's task does not end before the phase has, and whoever calls
-- `publish_into` keeps the grant it calls it under.
def Free (p : PipeId) (s : Versioned T) (a : Action) : Prop :=
  (match a with
    | .bodyEnd b => ¬s.engaged b
    | _ => True) ∧
  ∀ n, n < s.publishes+1 → (s.stages n).grant.all (fun k => k ∈ ((s.base.apply a).pipes p).outstanding) = true

def runs (s : Versioned T) (b : BlockId) : Prop := (s.base.progress b).status = .running
def rests (s : Versioned T) (b : BlockId) : Prop := (s.base.progress b).status.resting = true

-- The chain's check is a guard of `flip`: past it the process is dead.
def Allowed (d : Versioning T) (p : PipeId) (checked : Bool) (s : Versioned T) : VersionedAction → Prop
  | .base a => s.base.Allowed a ∧ s.Free p a
  | .journal a => s.journal.Allowed checked a ∧ a.records = true
  | .publish _ => True
  | .flip k => k ∈ (s.base.pipes p).outstanding ∧ k.link.mode = .readWrite ∧ s.ready s.publishes = true
  | .submit n c => n < s.publishes ∧ s.dynamic (n+1) = true ∧ s.stages (n+1) = .waiting ∧ s.ready n = true ∧ s.rests c
  | .begin n c => s.stages n = .submitted c ∧ s.runs c
  | .quit n c => s.stages n = .quitting c
  | .skip n r => s.stages n = .skipping r
  | .clearBatch n r => s.stages n = .entering r
  | .cutBegin n r => s.stages n = .locking r ∧ s.journal.Allowed checked (.cutBegin n)
  | .cutNext n r => s.stages n = .cutting r ∧ s.journal.Allowed checked (.cutNext n)
  | .cutEnd n r => s.stages n = .cutting r ∧ s.journal.Allowed checked (.cutEnd n)
  | .buildNext n r next => s.stages n = .building r next ∧ next < s.batch.length
  | .buildEnd n r c => s.stages n = .building r s.batch.length ∧ s.rests c
  | .swapBegin n c => s.stages n = .queued c ∧ s.runs c
  | .swapEnd n r => s.stages n = .swapping r
  | .startResync n r c => s.stages n = .swapped r ∧ s.rests c
  | .gate n c => s.gating n = some c
  | .resyncNext n c next =>
    s.stages n = .resyncing c next ∧ s.runs c ∧ d.policy = .replay ∧ next < s.batch.length
  | .resyncEnd n c next =>
    s.stages n = .resyncing c next ∧ s.runs c ∧ (d.policy = .replay → next = s.batch.length)
  | .settle n c => s.stages n = .resynced c

def apply (d : Versioning T) (p : PipeId) (checked : Bool) (workers : Nat) (s : Versioned T) :
    VersionedAction → Versioned T
  | .base a => {s with base := s.base.apply a}
  | .journal a => {s with journal := s.journal.apply checked workers a}
  | .publish token => s.publish token
  | .flip k => s.flip k
  | .submit n c => (s.submit c .empty).setStage (n+1) (.submitted c)
  | .begin n c => s.begin n c
  | .quit n c => (s.trigger p n).setStage n (.skipping (.task c))
  | .skip n _ => s.settle n
  | .clearBatch n r => s.clearBatch n r
  | .cutBegin n r => s.cutBegin n r
  | .cutNext n _ => s.cutNext n
  | .cutEnd n r => s.cutEnd n r
  | .buildNext n r next => s.buildNext d n r next
  | .buildEnd n r c => s.buildEnd p n r c
  | .swapBegin n c => s.setStage n (.swapping (.task c))
  | .swapEnd n r => s.swapEnd d n r
  | .startResync n r c => s.startResync d p n r c
  | .gate n _ => {s.trigger p n with gating := Function.update s.gating n none}
  | .resyncNext n c next => s.resyncNext d n c next
  | .resyncEnd n c _ => s.resyncEnd d n c
  | .settle n _ => s.settle n

def initial (d : Versioning T) : Versioned T := {front := d.initial,shadow := d.initial,previous := d.initial}

end Versioned

def versionedSystem (d : Versioning T) (p : PipeId) (checked : Bool) (workers : Nat) :
    Machines.Machine (Versioned T) VersionedAction :=
  ⟨(· = Versioned.initial d),Versioned.Allowed d p checked,Versioned.apply d p checked workers⟩

instance Versioned.decideFree (p : PipeId) (s : Versioned T) : (a : Action) → Decidable (s.Free p a)
  | .bodyEnd _ => inferInstanceAs (Decidable ((¬∃ n, n < _ ∧ _) ∧ ∀ n, n < _ → _ = true))
  | .arm _ _ _ _ | .rebind _ _ | .launch _ | .tryInline _ | .createFrame _ | .settleBare _ _ | .acquire _ _ _ _
  | .releaseHold _ | .requestCancel _ | .addNested _ _ | .resume _ =>
    inferInstanceAs (Decidable (True ∧ ∀ n, n < _ → _ = true))

instance Versioned.decideAllowed (d : Versioning T) (p : PipeId) (checked : Bool) (s : Versioned T) :
    (a : VersionedAction) → Decidable ((versionedSystem d p checked workers).allowed s a)
  | .base _ => inferInstanceAs (Decidable (_ ∧ _))
  | .journal _ => inferInstanceAs (Decidable (_ ∧ _))
  | .publish _ => inferInstanceAs (Decidable True)
  | .flip _ => inferInstanceAs (Decidable (_ ∧ _ ∧ _))
  | .submit _ _ => inferInstanceAs (Decidable (_ ∧ _ ∧ _ ∧ _ ∧ (_ = _)))
  | .begin _ _ => inferInstanceAs (Decidable (_ ∧ (_ = _)))
  | .quit _ _ => inferInstanceAs (Decidable (_ = _))
  | .skip _ _ => inferInstanceAs (Decidable (_ = _))
  | .clearBatch _ _ => inferInstanceAs (Decidable (_ = _))
  | .cutBegin _ _ => inferInstanceAs (Decidable (_ ∧ _))
  | .cutNext _ _ => inferInstanceAs (Decidable (_ ∧ _))
  | .cutEnd _ _ => inferInstanceAs (Decidable (_ ∧ _))
  | .buildNext _ _ _ => inferInstanceAs (Decidable (_ ∧ _))
  | .buildEnd _ _ _ => inferInstanceAs (Decidable (_ ∧ (_ = _)))
  | .swapBegin _ _ => inferInstanceAs (Decidable (_ ∧ (_ = _)))
  | .swapEnd _ _ => inferInstanceAs (Decidable (_ = _))
  | .startResync _ _ _ => inferInstanceAs (Decidable (_ ∧ (_ = _)))
  | .gate _ _ => inferInstanceAs (Decidable (_ = _))
  | .resyncNext _ _ _ => inferInstanceAs (Decidable (_ ∧ (_ = _) ∧ _ ∧ _))
  | .resyncEnd _ _ _ => inferInstanceAs (Decidable (_ ∧ (_ = _) ∧ (_ → _)))
  | .settle _ _ => inferInstanceAs (Decidable (_ = _))

end Macrame

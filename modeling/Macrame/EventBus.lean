import Macrame.JournalLaws

namespace Macrame

abbrev EventType := Nat
abbrev SubscriptionId := Nat
abbrev OwnerId := Nat

-- What a closure staged on a bus does when it is applied: append an event to the
-- lane of its type, or install a subscription there. The event itself is known by
-- the stamp of its closure.
inductive BusClosure where
  | publish (type : EventType)
  | install (id : SubscriptionId) (type : EventType) (owner : Option OwnerId)
  deriving DecidableEq, Repr

-- `owner` is `none` where the subscription is not pinned.
structure Subscription where
  id : SubscriptionId
  owner : Option OwnerId
  deriving DecidableEq, Repr

structure EventLane where
  type : EventType
  events : List Nat := []
  subs : List Subscription := []
  deriving DecidableEq, Repr

def EventLane.without (id : SubscriptionId) (lane : EventLane) : EventLane :=
  {lane with subs := lane.subs.filter (·.id != id)}

-- Where a dispatch is, from its commit to the end of `dispatch_all`: `lane` and
-- `sub` are the loops' positions. `locking` has found the subscription not dead
-- and is about to lock its owner; `reaping` is in `erase_if`.
inductive BusStage where
  | idle
  | cutting
  | applying (next : Nat)
  | checking (lane sub : Nat)
  | locking (lane sub : Nat)
  | calling (lane sub event : Nat)
  | reaping (lane sub : Nat)
  deriving DecidableEq, Repr

-- A `Connection`, from the number its subscription gets to the return of
-- `disconnect`.
inductive ConnectionPhase where
  | unborn
  | numbered
  | connected
  | tombstoned
  | removed
  | disconnected
  deriving DecidableEq, Repr

-- A dispatch at a subscription: the cut it has made, and what it has found of the
-- tombstone and of the owner.
structure Reach where
  cut : Nat
  sub : SubscriptionId
  type : EventType
  dead : Bool
  expired : Bool
  deriving DecidableEq, Repr

structure Delivery where
  cut : Nat
  sub : SubscriptionId
  event : Nat
  deriving DecidableEq, Repr

-- An `Event_bus`, its board and its connections with their types. `closures` are
-- what the commands of the journal stand for, by stamp; `dead` are the tombstones
-- and `alive` the owners not yet expired. History: `applied` is what has been
-- applied, each with its cut; `gone` what was dead and which owners had expired
-- when the handlers of a cut began to run; `left` how many calls had been made as
-- a `disconnect` returned.
structure Bus where
  journal : Journal
  closures : List BusClosure := []
  nextId : SubscriptionId := 1
  phases : SubscriptionId → ConnectionPhase := fun _ => .unborn
  types : SubscriptionId → EventType := fun _ => 0
  dead : SubscriptionId → Bool := fun _ => false
  alive : OwnerId → Bool := fun _ => true
  lanes : List EventLane := []
  batch : List Command := []
  stage : BusStage := .idle
  applied : List (Command × Nat) := []
  gone : Nat → SubscriptionId → Option OwnerId → Bool := fun _ _ _ => false
  reaches : List Reach := []
  calls : List Delivery := []
  left : List (SubscriptionId × Nat) := []

namespace Bus

def publisher : HandleId := 0

-- The constructor's `parallel_recorder`.
def minted (checked : Bool) (workers : Nat) : Journal :=
  (List.range (workers+1)).foldl (fun j _ => j.mintLane checked workers publisher) (({} : Journal).parallelRecorder publisher)

def closure (s : Bus) (c : Command) : Option BusClosure := s.closures[c.stamp]?

-- `publisher_.stage`.
def put (s : Bus) (worker : Int) (closure : BusClosure) : Bus :=
  {s with journal := s.journal.stage publisher worker, closures := s.closures++[closure]}

def setPhase (s : Bus) (id : SubscriptionId) (phase : ConnectionPhase) : Bus :=
  {s with phases := Function.update s.phases id phase}

-- `Board::lane`, and what is done with it.
def modifyLane (lanes : List EventLane) (type : EventType) (change : EventLane → EventLane) : List EventLane :=
  if lanes.any (·.type == type) then lanes.map (fun lane => if lane.type = type then change lane else lane)
  else lanes++[change {type := type}]

def expired (s : Bus) (owner : Option OwnerId) : Bool := owner.any (!s.alive ·)

def applyClosure (s : Bus) (c : Command) : List EventLane :=
  match s.closure c with
  | some (.publish type) => modifyLane s.lanes type (fun lane => {lane with events := lane.events++[c.stamp]})
  | some (.install id type owner) =>
    if s.dead id then s.lanes else modifyLane s.lanes type (fun lane => {lane with subs := lane.subs++[⟨id,owner⟩]})
  | none => s.lanes

-- `Board::remove`.
def without (s : Bus) (id : SubscriptionId) : List EventLane :=
  s.lanes.map (fun lane => if lane.type = s.types id then lane.without id else lane)

def cut (s : Bus) : Nat := s.journal.batch

def setLane (s : Bus) (k : Nat) (lane : EventLane) : Bus := {s with lanes := s.lanes.set k lane}

def reach (s : Bus) (sub : Subscription) (type : EventType) (dead : Bool) : Bus :=
  {s with reaches := s.reaches++[⟨s.cut,sub.id,type,dead,s.expired sub.owner⟩]}

-- The next step of the dispatch; from `idle` it is the first of a new one, which
-- has been granted the board.
def dispatch (s : Bus) : Bus :=
  match s.stage with
  | .idle => {s with journal := s.journal.cutBegin 0, batch := [], stage := .cutting}
  | .cutting =>
    match s.journal.nextCut 0 with
    | some slot =>
      if slot < s.journal.slots.length then
        {s with journal := s.journal.cutSlot 0 slot, batch := s.batch++s.journal.slots.getD slot []}
      else {s with journal := s.journal.unlock, stage := .applying 0}
    | none => s
  | .applying next =>
    match s.batch[next]? with
    | some c => {s with lanes := s.applyClosure c, applied := s.applied++[(c,s.cut)], stage := .applying (next+1)}
    | none =>
      {s with
        batch := [], stage := .checking 0 0
        gone := Function.update s.gone s.cut (fun id owner => s.dead id || s.expired owner)}
  | .checking k i =>
    match s.lanes[k]? with
    | none => {s with stage := .idle}
    | some lane =>
      match lane.subs[i]? with
      | none => {s with stage := .reaping k 0}
      | some sub =>
        if s.dead sub.id then {s.reach sub lane.type true with stage := .checking k (i+1)}
        else match sub.owner with
          | none => {s.reach sub lane.type false with stage := .calling k i 0}
          | some _ => {s with stage := .locking k i}
  | .locking k i =>
    match s.lanes[k]? with
    | none => s
    | some lane =>
      match lane.subs[i]? with
      | none => s
      | some sub =>
        if s.expired sub.owner then {s.reach sub lane.type false with stage := .checking k (i+1)}
        else {s.reach sub lane.type false with stage := .calling k i 0}
  | .calling k i e =>
    match s.lanes[k]? with
    | none => s
    | some lane =>
      match lane.subs[i]? with
      | none => s
      | some sub =>
        match lane.events[e]? with
        | some event => {s with calls := s.calls++[⟨s.cut,sub.id,event⟩], stage := .calling k i (e+1)}
        | none => {s with stage := .checking k (i+1)}
  | .reaping k i =>
    match s.lanes[k]? with
    | none => s
    | some lane =>
      match lane.subs[i]? with
      | some sub =>
        if s.dead sub.id || s.expired sub.owner then s.setLane k {lane with subs := lane.subs.eraseIdx i}
        else {s with stage := .reaping k (i+1)}
      | none => {s.setLane k {lane with events := []} with stage := .checking (k+1) 0}

end Bus

-- `worker` is the staging thread's `current_worker_index()`. `subscribe` is the
-- number first, then the staging; `disconnect` is the tombstone, the removal under
-- a write grant of its own, the return.
inductive BusAction where
  | publish (worker : Int) (type : EventType)
  | number
  | install (worker : Int) (id : SubscriptionId) (type : EventType) (owner : Option OwnerId)
  | expire (owner : OwnerId)
  | tombstone (id : SubscriptionId)
  | remove (id : SubscriptionId)
  | disconnected (id : SubscriptionId)
  | dispatch
  deriving DecidableEq, Repr

namespace Bus

-- The owner `lock` has pinned for the calls under way.
def pinned (s : Bus) : Option OwnerId :=
  match s.stage with
  | .calling k i _ => ((s.lanes[k]?).bind (·.subs[i]?)).bind Subscription.owner
  | _ => none

def stages (s : Bus) (worker : Int) : Bool := ((s.journal.handles publisher).target worker).isSome

def Allowed (s : Bus) : BusAction → Prop
  | .publish worker _ => s.stages worker = true
  | .number => True
  | .install worker id _ _ => s.phases id = .numbered ∧ s.stages worker = true
  | .expire owner => s.pinned ≠ some owner
  | .tombstone id => s.phases id = .connected
  | .remove id => s.phases id = .tombstoned ∧ s.stage = .idle
  | .disconnected id => s.phases id = .removed
  | .dispatch => True

def apply (s : Bus) : BusAction → Bus
  | .publish worker type => s.put worker (.publish type)
  | .number => {s with nextId := s.nextId+1}.setPhase s.nextId .numbered
  | .install worker id type owner =>
    {s.put worker (.install id type owner) with types := Function.update s.types id type}.setPhase id .connected
  | .expire owner => {s with alive := Function.update s.alive owner false}
  | .tombstone id => {s with dead := Function.update s.dead id true}.setPhase id .tombstoned
  | .remove id => {s with lanes := s.without id}.setPhase id .removed
  | .disconnected id => {s with left := s.left++[(id,s.calls.length)]}.setPhase id .disconnected
  | .dispatch => s.dispatch

instance decideAllowed (s : Bus) : (a : BusAction) → Decidable (s.Allowed a)
  | .publish _ _ => inferInstanceAs (Decidable (_ = _))
  | .number => inferInstanceAs (Decidable True)
  | .install _ _ _ _ => inferInstanceAs (Decidable (_ ∧ _))
  | .expire _ => inferInstanceAs (Decidable (_ ≠ _))
  | .tombstone _ => inferInstanceAs (Decidable (_ = _))
  | .remove _ => inferInstanceAs (Decidable (_ ∧ _))
  | .disconnected _ => inferInstanceAs (Decidable (_ = _))
  | .dispatch => inferInstanceAs (Decidable True)

end Bus

def busSystem (checked : Bool) (workers : Nat) : Machines.Machine Bus BusAction :=
  ⟨(· = {journal := Bus.minted checked workers}),Bus.Allowed,fun s a => s.apply a⟩

instance decideBus (checked : Bool) (workers : Nat) (s : Bus) (a : BusAction) :
    Decidable ((busSystem checked workers).allowed s a) :=
  Bus.decideAllowed s a

end Macrame

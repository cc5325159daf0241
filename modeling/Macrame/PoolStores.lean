import Macrame.Colored
import Macrame.MpmcLaws
import Macrame.WorkStealingDeque

namespace Macrame
open Machines Rings Custodies TwoEnded

-- The default arguments of the two constructors: the scheduler gives none.
def queueCapacity : Nat := 8192

def dequeCapacity : Nat := 1024

theorem queueCapacity_wide : 2 ≤ roundPow2 queueCapacity :=
  Nat.le_trans (by decide : 2 ≤ queueCapacity) (le_roundPow2 queueCapacity)

-- `serial_pending`, `serial_head` and `serial_draining` of one thread. The last
-- two fields are history only.
structure Trampoline where
  pending : List Nat
  head : Nat
  draining : Bool
  pushed : List Nat
  popped : List Nat
deriving DecidableEq

def Trampoline.fresh : Trampoline := ⟨[],0,false,[],[]⟩

def Trampoline.push (t : Trampoline) (n : Nat) : Trampoline :=
  { t with pending := t.pending++[n], pushed := t.pushed++[n] }

-- Every container of one scheduler. An entry is known by the number of its
-- submit, which no step of the code reads.
structure Stores where
  queues : Priority → Mpmc Nat
  deques : ThreadId → Deque Nat
  serial : ThreadId → Trampoline

def Stores.fresh : Stores := ⟨fun _ => .fresh,fun _ => .fresh,fun _ => .fresh⟩

-- The calls that take several shared accesses. A worker takes from and puts
-- into its own deque only.
inductive StoreCall where
  | pop (priority : Priority)
  | push (priority : Priority) (n : Nat)
  | take
  | put (n : Nat)
  | steal (victim : ThreadId)
deriving DecidableEq

-- The next access of a thread's call: the first one if the call has not begun.
def Mpmc.next (q : Mpmc T) (i : Nat) (first : MpmcAction T) (fails : Bool) : MpmcAction T :=
  match q.thread i with
  | .idle => first
  | _ => .step i fails

def Deque.nextOwner (d : Deque T) (first : DequeAction T) : DequeAction T :=
  match d.owner with
  | .idle => first
  | _ => .owner

def Deque.nextThief (d : Deque T) (i : Nat) : DequeAction T :=
  match d.thief i with
  | .idle => .steal i
  | _ => .thief i

def Stores.access (s : Stores) (i : ThreadId) (fails : Bool) : StoreCall → Stores
  | .pop p =>
    let q := s.queues p
    { s with queues := Function.update s.queues p (q.apply queueCapacity (q.next i (.pop i) fails)) }
  | .push p n =>
    let q := s.queues p
    { s with queues := Function.update s.queues p (q.apply queueCapacity (q.next i (.push i n) fails)) }
  | .take =>
    let d := s.deques i
    { s with deques := Function.update s.deques i (d.apply dequeCapacity (d.nextOwner .take)) }
  | .put n =>
    let d := s.deques i
    { s with deques := Function.update s.deques i (d.apply dequeCapacity (d.nextOwner (.push n))) }
  | .steal v =>
    let d := s.deques v
    { s with deques := Function.update s.deques v (d.apply dequeCapacity (d.nextThief i)) }

def MpmcAt.isIdle : MpmcAt T → Bool
  | .idle => true
  | _ => false

def OwnerAt.isIdle : OwnerAt T → Bool
  | .idle => true
  | _ => false

def ThiefAt.isIdle : ThiefAt T → Bool
  | .idle => true
  | _ => false

-- A push that returns from its check for room hands its item back.
def OwnerAt.refused : OwnerAt T → Option T
  | .pushing item _ => some item
  | _ => none

-- Whether the call has returned, and if so with which entry: the one a pop, a
-- take or a steal has got, or the one a put could not keep.
def Stores.answer (s t : Stores) (i : ThreadId) : StoreCall → Option (Option Nat)
  | .pop p =>
    if ((t.queues p).thread i).isIdle then
      some ((t.queues p).popped[(s.queues p).popped.length]?.map Prod.snd)
    else none
  | .push p _ => if ((t.queues p).thread i).isIdle then some none else none
  | .take =>
    if (t.deques i).owner.isIdle then some ((t.deques i).answered[(s.deques i).answered.length]?) else none
  | .put _ => if (t.deques i).owner.isIdle then some ((s.deques i).owner.refused) else none
  | .steal v =>
    if ((t.deques v).thief i).isIdle then some ((t.deques v).answered[(s.deques v).answered.length]?) else none

-- The overflow mutex is the only access of these calls that waits.
def Stores.Ready (s : Stores) (i : ThreadId) : StoreCall → Prop
  | .pop p => ((s.queues p).thread i).locking = true → (s.queues p).overflowMutex = none
  | .push p _ => ((s.queues p).thread i).locking = true → (s.queues p).overflowMutex = none
  | _ => True

inductive Lane where
  | queue (priority : Priority)
  | deque (worker : ThreadId)
  | serial (thread : ThreadId)
deriving DecidableEq

def StoreCall.lane (i : ThreadId) : StoreCall → Lane
  | .pop p => .queue p
  | .push p _ => .queue p
  | .take => .deque i
  | .put _ => .deque i
  | .steal v => .deque v

def Stores.along (onQueue : Mpmc Nat → β) (onDeque : Deque Nat → β) (onSerial : Trampoline → β) (s : Stores) : Lane → β
  | .queue p => onQueue (s.queues p)
  | .deque v => onDeque (s.deques v)
  | .serial i => onSerial (s.serial i)

-- What has come into each container and what its callers have got out of it.
def Stores.entered (s : Stores) : Lane → List Nat :=
  s.along (fun q => q.pushed.map Prod.snd) (fun d => d.ledger.pushed) (fun t => t.pushed)

def Stores.handed (s : Stores) : Lane → List Nat :=
  s.along (fun q => q.popped.map Prod.snd) (fun d => d.answered) (fun t => t.popped)

-- A spill is in the overflow before its push has returned.
def MpmcAt.spilled : MpmcAt T → Bool
  | .spillCounting => true
  | .spillLeaving => true
  | _ => false

def Stores.unsent (s : Stores) (i : ThreadId) : StoreCall → Option Nat
  | .push p n => if ((s.queues p).thread i).spilled then none else some n
  | .put n => some n
  | _ => none

structure Stores.Inv (s : Stores) : Prop where
  queues : ∀ p, (s.queues p).Inv queueCapacity
  deques : ∀ v, (s.deques v).Inv dequeCapacity

def MpmcAt.item : MpmcAt T → Option T
  | .enqueueLoading item => some item
  | .enqueueProbing item _ => some item
  | .enqueueClaiming item _ => some item
  | .enqueueWriting item _ => some item
  | .enqueuePublishing item _ => some item
  | .spillLocking item => some item
  | .spillStoring item => some item
  | _ => none

def OwnerAt.item : OwnerAt T → Option T
  | .pushing item _ => some item
  | .filling item _ => some item
  | .publishing item _ => some item
  | _ => none

-- Where a thread stands in a container fits the call it is in.
def MpmcAt.Serves (m : MpmcAt Nat) (p : Priority) (call : Option StoreCall) : Prop :=
  m = .idle ∨ (call = some (.pop p) ∧ m.pushing = false) ∨
    ∃ n, call = some (.push p n) ∧ m.pushing = true ∧ (m.spilled = false → m.item = some n)

def OwnerAt.Serves (o : OwnerAt Nat) (call : Option StoreCall) : Prop :=
  o = .idle ∨ (call = some .take ∧ o.item = none) ∨ ∃ n, call = some (.put n) ∧ o.item = some n

structure Stores.Serves (s : Stores) (i : ThreadId) (call : Option StoreCall) : Prop where
  queues : ∀ p, ((s.queues p).thread i).Serves p call
  owner : (s.deques i).owner.Serves call
  thieves : ∀ v, (s.deques v).thief i = .idle ∨ call = some (.steal v)

end Macrame

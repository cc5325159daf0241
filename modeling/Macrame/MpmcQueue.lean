import Macrame.Lib.Machine
import Macrame.Lib.PowerRing
import Macrame.Lib.Custody

namespace Macrame
open Machines Rings Custodies

-- Where a value went in: at a ring position, or as the n-th to spill over.
inductive Source where
  | ring (position : Nat)
  | overflow (number : Nat)
deriving DecidableEq

-- Where a thread stands between two shared accesses of `push` or `pop`. `pos` is
-- the loop's own local. The number beside an overflow value is history: it
-- says which spill the value came from.
inductive MpmcAt (T : Type) where
  | idle
  | enqueueLoading (item : T)
  | enqueueProbing (item : T) (pos : Nat)
  | enqueueClaiming (item : T) (pos : Nat)
  | enqueueWriting (item : T) (pos : Nat)
  | enqueuePublishing (item : T) (pos : Nat)
  | spillLocking (item : T)
  | spillStoring (item : T)
  | spillCounting
  | spillLeaving
  | dequeueLoading
  | dequeueProbing (pos : Nat)
  | dequeueClaiming (pos : Nat)
  | dequeueReading (pos : Nat)
  | dequeueReleasing (pos : Nat) (out : T)
  | overflowChecking
  | overflowLocking
  | overflowTaking
  | overflowDiscounting (number : Nat) (out : T)
  | overflowLeaving (out : Option (Nat×T))
deriving DecidableEq

-- `Mpmc_queue`: the ring with its two positions, the overflow with its mutex and
-- its count, and the threads that use it. Positions are unbounded here. The
-- last five fields are history only: no step of the code reads them.
structure Mpmc (T : Type) where
  enqueuePos : Nat
  dequeuePos : Nat
  seq : Nat → Nat
  data : Nat → T
  overflow : List T
  overflowCount : Nat
  overflowMutex : Option Nat
  thread : Nat → MpmcAt T
  pushed : List (Source×T)
  popped : List (Source×T)
  drawn : List Nat
  spilled : Nat
  fished : Nat

inductive MpmcAction (T : Type) where
  | push (i : Nat) (item : T)
  | pop (i : Nat)
  | step (i : Nat) (fails : Bool)
deriving DecidableEq

def Mpmc.mask (capacity : Nat) : Nat := roundPow2 capacity-1

def Mpmc.cell (capacity pos : Nat) : Nat := slot (mask capacity) pos

def Mpmc.fresh [Inhabited T] : Mpmc T where
  enqueuePos := 0
  dequeuePos := 0
  seq := fun i => i
  data := fun _ => default
  overflow := []
  overflowCount := 0
  overflowMutex := none
  thread := fun _ => .idle
  pushed := []
  popped := []
  drawn := []
  spilled := 0
  fished := 0

def Mpmc.goes (s : Mpmc T) (i : Nat) (next : MpmcAt T) : Mpmc T :=
  { s with thread := Function.update s.thread i next }

-- The shared accesses of `ring_enqueue` and of the spill in `push`. `fails` is a
-- weak exchange giving up for no reason; like any failed exchange it leaves
-- the position it found in `pos`.
def Mpmc.pushStep (capacity : Nat) (s : Mpmc T) (i : Nat) (fails : Bool) : Mpmc T :=
  match s.thread i with
  | .enqueueLoading item => s.goes i (.enqueueProbing item s.enqueuePos)
  | .enqueueProbing item pos =>
    let seq := s.seq (cell capacity pos)
    if seq = pos then s.goes i (.enqueueClaiming item pos)
    else if seq < pos then s.goes i (.spillLocking item)
    else s.goes i (.enqueueLoading item)
  | .enqueueClaiming item pos =>
    if s.enqueuePos = pos ∧ fails = false then { s with enqueuePos := pos+1 }.goes i (.enqueueWriting item pos)
    else s.goes i (.enqueueProbing item s.enqueuePos)
  | .enqueueWriting item pos =>
    { s with data := Function.update s.data (cell capacity pos) item }.goes i (.enqueuePublishing item pos)
  | .enqueuePublishing item pos =>
    { s with seq := Function.update s.seq (cell capacity pos) (pos+1),
             pushed := s.pushed++[(Source.ring pos,item)] }.goes i .idle
  | .spillLocking item => { s with overflowMutex := some i }.goes i (.spillStoring item)
  | .spillStoring item =>
    { s with overflow := s.overflow++[item], pushed := s.pushed++[(Source.overflow s.spilled,item)],
             spilled := s.spilled+1 }.goes i .spillCounting
  | .spillCounting => { s with overflowCount := s.overflowCount+1 }.goes i .spillLeaving
  | .spillLeaving => { s with overflowMutex := none }.goes i .idle
  | _ => s

-- The shared accesses of `ring_dequeue` and of the overflow branch of `pop`.
def Mpmc.popStep (capacity : Nat) (s : Mpmc T) (i : Nat) (fails : Bool) : Mpmc T :=
  match s.thread i with
  | .dequeueLoading => s.goes i (.dequeueProbing s.dequeuePos)
  | .dequeueProbing pos =>
    let seq := s.seq (cell capacity pos)
    if seq = pos+1 then s.goes i (.dequeueClaiming pos)
    else if seq < pos+1 then s.goes i .overflowChecking
    else s.goes i .dequeueLoading
  | .dequeueClaiming pos =>
    if s.dequeuePos = pos ∧ fails = false then
      { s with dequeuePos := pos+1, drawn := s.drawn++[pos] }.goes i (.dequeueReading pos)
    else s.goes i (.dequeueProbing s.dequeuePos)
  | .dequeueReading pos => s.goes i (.dequeueReleasing pos (s.data (cell capacity pos)))
  | .dequeueReleasing pos out =>
    { s with seq := Function.update s.seq (cell capacity pos) (pos+mask capacity+1),
             popped := s.popped++[(Source.ring pos,out)] }.goes i .idle
  | .overflowChecking => if s.overflowCount = 0 then s.goes i .idle else s.goes i .overflowLocking
  | .overflowLocking => { s with overflowMutex := some i }.goes i .overflowTaking
  | .overflowTaking =>
    match s.overflow with
    | [] => s.goes i (.overflowLeaving none)
    | out :: rest => { s with overflow := rest, fished := s.fished+1 }.goes i (.overflowDiscounting s.fished out)
  | .overflowDiscounting n out =>
    { s with overflowCount := s.overflowCount-1 }.goes i (.overflowLeaving (some (n,out)))
  | .overflowLeaving none => { s with overflowMutex := none }.goes i .idle
  | .overflowLeaving (some (n,out)) =>
    { s with overflowMutex := none, popped := s.popped++[(Source.overflow n,out)] }.goes i .idle
  | _ => s

def MpmcAt.pushing : MpmcAt T → Bool
  | .enqueueLoading _ => true
  | .enqueueProbing _ _ => true
  | .enqueueClaiming _ _ => true
  | .enqueueWriting _ _ => true
  | .enqueuePublishing _ _ => true
  | .spillLocking _ => true
  | .spillStoring _ => true
  | .spillCounting => true
  | .spillLeaving => true
  | _ => false

-- Each call's first access is the load of its position.
def Mpmc.apply (capacity : Nat) (s : Mpmc T) : MpmcAction T → Mpmc T
  | .push i item => s.goes i (.enqueueProbing item s.enqueuePos)
  | .pop i => s.goes i (.dequeueProbing s.dequeuePos)
  | .step i fails => if (s.thread i).pushing then s.pushStep capacity i fails else s.popStep capacity i fails

-- The overflow mutex is the only access that waits.
def MpmcAt.locking : MpmcAt T → Bool
  | .spillLocking _ => true
  | .overflowLocking => true
  | _ => false

def Mpmc.Allowed (s : Mpmc T) : MpmcAction T → Prop
  | .push i _ => s.thread i = .idle
  | .pop i => s.thread i = .idle
  | .step i _ => s.thread i ≠ .idle ∧ ((s.thread i).locking = true → s.overflowMutex = none)

def mpmcSystem (T : Type) [Inhabited T] (capacity : Nat) : Machine (Mpmc T) (MpmcAction T) where
  start := fun s => s = Mpmc.fresh
  allowed := Mpmc.Allowed
  apply := Mpmc.apply capacity

-- The position a producer has claimed and not published yet.
def MpmcAt.writes : MpmcAt T → Option Nat
  | .enqueueWriting _ pos => some pos
  | .enqueuePublishing _ pos => some pos
  | _ => none

-- What a consumer has drawn and not returned yet.
def MpmcAt.owes : MpmcAt T → Option Source
  | .dequeueReading pos => some (.ring pos)
  | .dequeueReleasing pos _ => some (.ring pos)
  | .overflowDiscounting n _ => some (.overflow n)
  | .overflowLeaving (some (n,_)) => some (.overflow n)
  | _ => none

def MpmcAt.locked : MpmcAt T → Bool
  | .spillStoring _ => true
  | .spillCounting => true
  | .spillLeaving => true
  | .overflowTaking => true
  | .overflowDiscounting _ _ => true
  | .overflowLeaving _ => true
  | _ => false

-- What a thread on the ring knows: a claim that can still succeed stands in
-- front of a cell in the right state, and a claimed cell is nobody else's.
def Mpmc.RingHolds (capacity : Nat) (s : Mpmc T) : MpmcAt T → Prop
  | .enqueueProbing _ pos => pos ≤ s.enqueuePos
  | .enqueueClaiming _ pos => pos ≤ s.enqueuePos ∧ (pos = s.enqueuePos →
      pos < s.dequeuePos+roundPow2 capacity ∧ s.seq (cell capacity pos) = pos)
  | .enqueueWriting _ pos => s.dequeuePos ≤ pos ∧ pos < s.enqueuePos ∧ s.seq (cell capacity pos) = pos
  | .enqueuePublishing item pos => s.dequeuePos ≤ pos ∧ pos < s.enqueuePos ∧ s.seq (cell capacity pos) = pos ∧
      s.data (cell capacity pos) = item
  | .dequeueProbing pos => pos ≤ s.dequeuePos
  | .dequeueClaiming pos => pos ≤ s.dequeuePos ∧ (pos = s.dequeuePos →
      pos < s.enqueuePos ∧ s.seq (cell capacity pos) = pos+1)
  | .dequeueReading pos => pos < s.dequeuePos ∧ s.enqueuePos ≤ pos+roundPow2 capacity ∧
      s.seq (cell capacity pos) = pos+1 ∧ (Source.ring pos,s.data (cell capacity pos)) ∈ s.pushed
  | .dequeueReleasing pos out => pos < s.dequeuePos ∧ s.enqueuePos ≤ pos+roundPow2 capacity ∧
      s.seq (cell capacity pos) = pos+1 ∧ (Source.ring pos,out) ∈ s.pushed
  | _ => True

-- The positions from `dequeue_pos_` on cover every cell once. Below
-- `enqueue_pos_` a cell is published or still being written; from there on it
-- is free or still being emptied from the lap before.
structure Mpmc.RingInv (capacity : Nat) (s : Mpmc T) : Prop where
  order : s.dequeuePos ≤ s.enqueuePos
  room : s.enqueuePos ≤ s.dequeuePos+roundPow2 capacity
  filled : ∀ p, s.dequeuePos ≤ p → p < s.enqueuePos →
    (s.seq (cell capacity p) = p+1 ∧ (Source.ring p,s.data (cell capacity p)) ∈ s.pushed) ∨
      ∃ i, (s.thread i).writes = some p
  spare : ∀ p, s.enqueuePos ≤ p → p < s.dequeuePos+roundPow2 capacity →
    s.seq (cell capacity p) = p ∨ ∃ i q, (s.thread i).owes = some (.ring q) ∧ p = q+roundPow2 capacity
  threads : ∀ i, s.RingHolds capacity (s.thread i)
  writers : ∀ i j p, (s.thread i).writes = some p → (s.thread j).writes = some p → i = j
  published : ∀ p v, (Source.ring p,v) ∈ s.pushed → p < s.enqueuePos ∧ ∀ i, (s.thread i).writes ≠ some p
  drawn : s.drawn = List.range s.dequeuePos

-- How far the count is from the length while the mutex holder stands between
-- the two updates.
def MpmcAt.uncounted : MpmcAt T → Nat
  | .spillCounting => 1
  | _ => 0

def MpmcAt.overcounted : MpmcAt T → Nat
  | .overflowDiscounting _ _ => 1
  | _ => 0

structure Mpmc.SpillInv (s : Mpmc T) : Prop where
  numbered : ∀ (j : Nat) v, s.overflow[j]? = some v → (Source.overflow (s.fished+j),v) ∈ s.pushed
  total : s.spilled = s.fished+s.overflow.length
  bounded : ∀ n v, (Source.overflow n,v) ∈ s.pushed → n < s.spilled
  mutex : ∀ i, (s.thread i).locked = true ↔ s.overflowMutex = some i
  counted : s.overflowMutex = none → s.overflowCount = s.overflow.length
  counting : ∀ i, s.overflowMutex = some i →
    s.overflowCount+(s.thread i).uncounted = s.overflow.length+(s.thread i).overcounted
  carried : ∀ i n out, s.thread i = .overflowDiscounting n out ∨ s.thread i = .overflowLeaving (some (n,out)) →
    (Source.overflow n,out) ∈ s.pushed

def Mpmc.Drawn (s : Mpmc T) : Source → Prop
  | .ring p => p < s.dequeuePos
  | .overflow n => n < s.fished

structure Mpmc.Inv (capacity : Nat) (s : Mpmc T) : Prop where
  ring : s.RingInv capacity
  spill : s.SpillInv
  custody : Custody s.pushed s.popped s.Drawn (fun i => (s.thread i).owes)

end Macrame

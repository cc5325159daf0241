import Macrame.Lib.Gaps
import Macrame.Lib.Machine
import Macrame.Pool

namespace Macrame

-- What lies in the queues and in the deques at one moment.
structure Stock where
  queues : Priority → List Nat
  deques : ThreadId → List Nat

namespace Stock

def setQueue (s : Stock) (p : Priority) (ns : List Nat) : Stock := {s with queues := Function.update s.queues p ns}

def setDeque (s : Stock) (i : ThreadId) (ns : List Nat) : Stock := {s with deques := Function.update s.deques i ns}

-- A pop or a steal takes the oldest entry, a take the youngest.
def answer (s : Stock) (worker : ThreadId) : StoreCall → Option Nat
  | .pop p => (s.queues p).head?
  | .steal v => (s.deques v).head?
  | .take => (s.deques worker).getLast?
  | _ => none

def removed (s : Stock) (worker : ThreadId) : StoreCall → Stock
  | .pop p => s.setQueue p (s.queues p).tail
  | .steal v => s.setDeque v (s.deques v).tail
  | .take => s.setDeque worker (s.deques worker).dropLast
  | _ => s

end Stock

-- Where a successful `find_work` got its entry.
inductive TakenFrom where
  | high
  | low
  | normal
  | own
  | stolen
deriving DecidableEq, Repr

def Scan.source : Scan → TakenFrom
  | .high => .high
  | .lowValve => .low
  | .globalValve => .normal
  | .own => .own
  | .normal => .normal
  | .steal _ _ => .stolen
  | .low => .low

-- A step of the steal scan without a call passes over the worker's own deque or
-- ends the scan.
def Scan.passed (c : Scheduler) : Scan → Scan
  | .steal start k => if k < c.workers then .steal start (k+1) else .low
  | scan => scan

-- One worker's calls of `find_work`, one after the other. `scan` is where the
-- call stands; `takes` is history: the calls that have found an entry.
structure FindRun where
  stock : Stock
  aging : Aging
  scan : Scan
  takes : List TakenFrom

inductive FindAction where
  | others (stock : Stock)
  | scan (pick : Nat)

namespace FindRun

def left (s : FindRun) (c : Scheduler) (worker : ThreadId) : Stock :=
  match s.scan.call c worker with
  | some call => s.stock.removed worker call
  | none => s.stock

def answered (s : FindRun) (c : Scheduler) (worker : ThreadId) (pick : Nat) : Aging×ScanResult :=
  match s.scan.call c worker with
  | some call => s.scan.answered c pick s.aging (s.stock.answer worker call)
  | none => (s.aging,.scan (s.scan.passed c))

def scanned (s : FindRun) (c : Scheduler) (worker : ThreadId) (pick : Nat) : FindRun :=
  match s.answered c worker pick with
  | (aging,.scan next) => {s with aging, scan := next}
  | (aging,.found _) => ⟨s.left c worker,aging,.high,s.takes++[s.scan.source]⟩
  | (aging,.nothing) => {s with aging, scan := .high}

def apply (c : Scheduler) (worker : ThreadId) (s : FindRun) : FindAction → FindRun
  | .others stock => {s with stock}
  | .scan pick => s.scanned c worker pick

end FindRun

-- The others push, pop and steal as they like.
def findSystem (c : Scheduler) (worker : ThreadId) : Machines.Machine FindRun FindAction :=
  ⟨fun s => s.aging = ⟨0,0⟩ ∧ s.scan = .high ∧ s.takes = [],fun _ _ => True,FindRun.apply c worker⟩

-- The counters that some run leaves behind between two calls.
def LeftBehind (c : Scheduler) (worker : ThreadId) (a : Aging) : Prop :=
  ∃ s, Machines.Reached (findSystem c worker) s ∧ s.scan = .high ∧ s.aging = a

-- The high queue is empty when a call begins.
def FindRun.Quiet (s : FindRun) : FindAction → Prop
  | .others _ => True
  | .scan _ => s.scan = .high → s.stock.queues .high = []

def ServesLow (takes : List TakenFrom) : Prop :=
  ∀ window, window <:+: takes → window.length = 65 → .low ∈ window

def ServesNormal (takes : List TakenFrom) : Prop :=
  ∀ window, window <:+: takes → .normal ∉ window → window.count .own ≤ 61

end Macrame

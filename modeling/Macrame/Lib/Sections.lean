import Macrame.Lib.Machine
import Macrame.Lib.Turns
import Mathlib.Algebra.GroupWithZero.Nat
import Mathlib.Algebra.Order.Group.Nat
import Mathlib.Algebra.Order.BigOperators.Group.List
import Mathlib.Data.Finset.Max
import Mathlib.Data.List.Infix

namespace Sections
open Machines Turns

variable {ι σ κ ν ℓ μ : Type}

-- A critical section: the cells whose mutexes it takes, in that order, and the turns
-- it then takes on them until it returns.
structure Section (κ ν ℓ : Type) where
  keys : List κ
  first : ℓ
  body : Turn ℓ (κ → ν)

inductive Stage (σ κ ℓ : Type) where
  | idle
  | locking (c : σ) (left : List κ)
  | running (c : σ) (place : ℓ)
  | unlocking (c : σ) (left : List κ)

-- Threads in sections over cells with a mutex each. `log` are the sections that have
-- returned, with who ran them and what they ended with: history.
structure Locks (ι σ κ ν ℓ : Type) where
  memory : κ → ν
  mutex : κ → Option ι := fun _ => none
  stages : ι → Stage σ κ ℓ := fun _ => .idle
  log : List (ι × σ × ℓ) := []

inductive LockAction (ι σ : Type) where
  | begin (t : ι) (c : σ)
  | lock (t : ι)
  | turn (t : ι)
  | unlock (t : ι)
  deriving DecidableEq, Repr

-- Turns of one section by itself.
inductive Plays (body : Turn ℓ μ) : ℓ → μ → ℓ → μ → Prop where
  | nil : Plays body a m a m
  | turn : Plays body a m b n → body b n = some (c,o) → Plays body a m c o

def Atomic (code : Section κ ν ℓ) (m : κ → ν) (last : ℓ) (n : κ → ν) : Prop :=
  Plays code.body code.first m last n ∧ code.body last n = none

-- The sections of a log, each at once.
inductive Serial (code : σ → Section κ ν ℓ) (start : κ → ν) : List (ι × σ × ℓ) → (κ → ν) → Prop where
  | nil : Serial code start [] start
  | snoc : Serial code start log m → Atomic (code c) m last n → Serial code start (log++[(t,c,last)]) n

-- What each section does to the whole memory at once, and what it ends with.
def Exact (code : σ → Section κ ν ℓ) (atOnce : σ → (κ → ν) → (κ → ν) × ℓ) : Prop :=
  ∀ c m, Atomic (code c) m (atOnce c m).2 (atOnce c m).1

def replay (atOnce : σ → μ → μ × ℓ) (start : μ) (log : List (ι × σ × ℓ)) : μ :=
  log.foldl (fun m entry => (atOnce entry.2.1 m).1) start

-- Every entry has ended with what its section ends with where it stands.
def Answers (atOnce : σ → μ → μ × ℓ) (start : μ) (log : List (ι × σ × ℓ)) : Prop :=
  ∀ before t c last after, log = before++(t,c,last) :: after → last = (atOnce c (replay atOnce start before)).2

section Plays

variable {body : Turn ℓ μ}

theorem Plays.append (one : Plays body a m b n) (two : Plays body b n c o) : Plays body a m c o := by
  induction two with
  | nil => exact one
  | turn _ moved ih => exact .turn ih moved

theorem Plays.next (moved : body a m = some (b,n)) (plays : Plays body b n c o) : Plays body a m c o :=
  (Plays.turn .nil moved).append plays

theorem Plays.split (plays : Plays body a m c o) : c = a ∧ o = m ∨ ∃ b n, body a m = some (b,n) ∧ Plays body b n c o := by
  induction plays with
  | nil => exact .inl ⟨rfl,rfl⟩
  | @turn b n d o _ moved ih =>
    rcases ih with ⟨rfl,rfl⟩ | ⟨e,q,first,rest⟩
    · exact .inr ⟨d,o,moved,.nil⟩
    · exact .inr ⟨e,q,first,.turn rest moved⟩

-- A section that returns goes through every place that it can come to.
theorem Plays.rest (one : Plays body a m b n) (two : Plays body a m last o) (returned : body last o = none) :
    Plays body b n last o := by
  induction one with
  | nil => exact two
  | turn _ moved ih =>
    rcases ih.split with ⟨rfl,rfl⟩ | ⟨d,q,first,rest⟩
    · rw [returned] at moved
      cases moved
    · rw [first] at moved
      cases moved
      exact rest

theorem Plays.unique (one : Plays body a m b n) (returned : body b n = none) (two : Plays body a m c o)
    (returned' : body c o = none) : c = b ∧ o = n := by
  rcases (one.rest two returned').split with same | ⟨d,q,moved,-⟩
  · exact same
  · rw [returned] at moved
    cases moved

end Plays

-- The sections of a log one after another are their replay.
theorem Serial.replays {code : σ → Section κ ν ℓ} (exact_ : Exact code atOnce) (serial : Serial code start log m) :
    m = replay atOnce start log ∧ Answers atOnce start log := by
  induction serial with
  | nil =>
    refine ⟨rfl,?_⟩
    intro before t c last after split
    cases before <;> cases split
  | @snoc log m c last n t prior atomic ih =>
    obtain ⟨same,answered⟩ := ih
    obtain ⟨plays,returned⟩ := atomic
    obtain ⟨plays',returned'⟩ := exact_ c m
    obtain ⟨ends,memory⟩ := plays.unique returned plays' returned'
    refine ⟨?_,?_⟩
    · unfold replay
      rw [List.foldl_append,← memory]
      exact congrArg (fun m => (atOnce c m).1) same
    · intro before u d stop after split
      rcases List.eq_nil_or_concat after with rfl | ⟨rest,entry,rfl⟩
      · obtain ⟨rfl,entry⟩ := List.append_inj' split rfl
        cases entry
        rw [← ends,← same]
      · rw [List.concat_eq_append,← List.cons_append,← List.append_assoc] at split
        obtain ⟨rfl,-⟩ := List.append_inj' split rfl
        exact answered before u d stop rest rfl

-- The cells a thread holds the mutexes of, and those it is at work on.
def Stage.holds (code : σ → Section κ ν ℓ) : Stage σ κ ℓ → κ → Prop
  | .idle,_ => False
  | .locking c left,k => k ∈ (code c).keys ∧ k ∉ left
  | .running c _,k => k ∈ (code c).keys
  | .unlocking _ left,k => k ∈ left

def Stage.runs (code : σ → Section κ ν ℓ) : Stage σ κ ℓ → κ → Prop
  | .running c _,k => k ∈ (code c).keys
  | _,_ => False

-- What is left to lock is the end of the list, what is left to unlock its front.
def Stage.Fits (code : σ → Section κ ν ℓ) : Stage σ κ ℓ → Prop
  | .locking c left => left <:+ (code c).keys
  | .unlocking c left => left.reverse <+: (code c).keys
  | _ => True

-- `serial` is the memory with the returned sections done at once. A running section
-- has come from it to where it is, as far as its own cells go.
structure Held (code : σ → Section κ ν ℓ) (start : κ → ν) (s : Locks ι σ κ ν ℓ) (serial : κ → ν) : Prop where
  log : Serial code start s.log serial
  fits : ∀ t, (s.stages t).Fits code
  owner : ∀ t k, (s.stages t).holds code k ↔ s.mutex k = some t
  quiet : ∀ k, (∀ t, ¬ (s.stages t).runs code k) → s.memory k = serial k
  played : ∀ t c place, s.stages t = .running c place →
    ∃ m, Plays (code c).body (code c).first serial place m ∧ ∀ k ∈ (code c).keys, m k = s.memory k

-- What is asked of the sections: each keeps to its cells, and locks them in order.
structure Ordered [LT κ] (code : σ → Section κ ν ℓ) : Prop where
  within : ∀ c, Within (· ∈ (code c).keys) (code c).body
  ascending : ∀ c, (code c).keys.Pairwise (· < ·)

section Cells

variable [DecidableEq κ] {access : ℓ → Option (κ × (ν → ℓ × ν))}

-- Turns that go to one cell each: which, and what they find and leave there.
def visits (access : ℓ → Option (κ × (ν → ℓ × ν))) : Turn ℓ (κ → ν) :=
  fun a m => (access a).map (fun visit => ((visit.2 (m visit.1)).1,Function.update m visit.1 (visit.2 (m visit.1)).2))

theorem visits_some {act : ν → ℓ × ν} (here : access a = some (k,act)) (m : κ → ν) :
    visits access a m = some ((act (m k)).1,Function.update m k (act (m k)).2) := by
  unfold visits
  rw [here]
  rfl

theorem visits_none (here : access a = none) (m : κ → ν) : visits access a m = none := by
  unfold visits
  rw [here]
  rfl

theorem within_visits {cells : κ → Prop} (mine : ∀ a k act, access a = some (k,act) → cells k) : Within cells (visits access) := by
  refine ⟨?_,?_⟩
  · intro a m a' m' moved k foreign
    cases here : access a with
    | none =>
      rw [visits_none here] at moved
      cases moved
    | some visit =>
      rw [visits_some here] at moved
      cases moved
      refine Function.update_of_ne ?_ ..
      intro same
      exact foreign (same ▸ mine a visit.1 visit.2 here)
  · intro a m n agree
    cases here : access a with
    | none => exact ⟨iff_of_true (visits_none here m) (visits_none here n),fun _ _ moved => by rw [visits_none here] at moved; cases moved⟩
    | some visit =>
      have seen := agree visit.1 (mine a visit.1 visit.2 here)
      rw [visits_some here,visits_some here,← seen]
      refine ⟨iff_of_false nofun nofun,?_⟩
      intro a' m' moved
      cases moved
      refine ⟨_,rfl,?_⟩
      intro k member
      by_cases same : k = visit.1
      · rw [same,Function.update_self,Function.update_self]
      · rw [Function.update_of_ne same,Function.update_of_ne same]
        exact (agree k member).symm

theorem Plays.visit {act : ν → ℓ × ν} (here : access a = some (k,act))
    (rest : Plays (visits access) (act (m k)).1 (Function.update m k (act (m k)).2) c o) : Plays (visits access) a m c o :=
  rest.next (visits_some here m)

-- A visit that leaves the cell as it is.
theorem Plays.look {act : ν → ℓ × ν} (here : access a = some (k,act)) (kept : (act (m k)).2 = m k)
    (rest : Plays (visits access) (act (m k)).1 m c o) : Plays (visits access) a m c o := by
  refine .visit here ?_
  rw [kept,Function.update_eq_self]
  exact rest

end Cells

section Footprint

variable {cells : κ → Prop} {body : Turn ℓ (κ → ν)}

theorem plays_keeps (within : Within cells body) (plays : Plays body a m b n) : ∀ k, ¬ cells k → n k = m k := by
  induction plays with
  | nil => exact fun _ _ => rfl
  | turn _ moved ih => exact fun k foreign => (within.keeps _ _ _ _ moved k foreign).trans (ih k foreign)

-- The same turns over memory that is the same on the footprint.
theorem plays_same (within : Within cells body) (plays : Plays body a m b n) (same : ∀ k, cells k → m k = m' k) :
    ∃ n', Plays body a m' b n' ∧ ∀ k, cells k → n k = n' k := by
  induction plays with
  | nil => exact ⟨m',.nil,same⟩
  | turn _ moved ih =>
    obtain ⟨n',again,equal⟩ := ih
    obtain ⟨o',later,agree⟩ := (within.reads _ _ n' equal).2 _ _ moved
    exact ⟨o',.turn again later,fun k mine => (agree k mine).symm⟩

theorem Stage.runs_holds {stage : Stage σ κ ℓ} {code : σ → Section κ ν ℓ} (runs : stage.runs code k) : stage.holds code k := by
  cases stage with
  | running => exact runs
  | _ => cases runs

theorem Held.alone {code : σ → Section κ ν ℓ} {s : Locks ι σ κ ν ℓ} (held : Held code start s serial)
    (one : (s.stages t).holds code k) (two : (s.stages u).holds code k) : t = u :=
  Option.some.inj (((held.owner t k).mp one).symm.trans ((held.owner u k).mp two))

end Footprint

section Steps

variable [DecidableEq ι] [DecidableEq κ]
variable {code : σ → Section κ ν ℓ} {start serial : κ → ν} {s : Locks ι σ κ ν ℓ} {t u : ι} {c : σ} {place : ℓ} {left : List κ} {k : κ}

def Locks.setStage (s : Locks ι σ κ ν ℓ) (t : ι) (stage : Stage σ κ ℓ) : Locks ι σ κ ν ℓ :=
  {s with stages := Function.update s.stages t stage}

-- A mutex is waited for; it is given back in the order opposite to that it was
-- taken in.
def Allowed (s : Locks ι σ κ ν ℓ) : LockAction ι σ → Prop
  | .begin t _ => match s.stages t with | .idle => True | _ => False
  | .lock t => match s.stages t with | .locking _ left => ∀ k ∈ left.head?, s.mutex k = none | _ => False
  | .turn t => match s.stages t with | .running _ _ => True | _ => False
  | .unlock t => match s.stages t with | .unlocking _ _ => True | _ => False

def apply (code : σ → Section κ ν ℓ) (s : Locks ι σ κ ν ℓ) : LockAction ι σ → Locks ι σ κ ν ℓ
  | .begin t c => s.setStage t (.locking c (code c).keys)
  | .lock t =>
    match s.stages t with
    | .locking c (k :: left) => {s with mutex := Function.update s.mutex k (some t)}.setStage t (.locking c left)
    | .locking c [] => s.setStage t (.running c (code c).first)
    | _ => s
  | .turn t =>
    match s.stages t with
    | .running c place =>
      match (code c).body place s.memory with
      | some (place,memory) => {s with memory := memory}.setStage t (.running c place)
      | none => {s with log := s.log++[(t,c,place)]}.setStage t (.unlocking c (code c).keys.reverse)
    | _ => s
  | .unlock t =>
    match s.stages t with
    | .unlocking c (k :: left) => {s with mutex := Function.update s.mutex k none}.setStage t (.unlocking c left)
    | .unlocking _ [] => s.setStage t .idle
    | _ => s

def lockSystem (code : σ → Section κ ν ℓ) (memory : κ → ν) : Machine (Locks ι σ κ ν ℓ) (LockAction ι σ) :=
  ⟨(· = {memory := memory}),Allowed,apply code⟩

def able (s : Locks ι σ κ ν ℓ) : LockAction ι σ → Bool
  | .begin t _ => match s.stages t with | .idle => true | _ => false
  | .lock t => match s.stages t with | .locking _ left => left.head?.all (fun k => (s.mutex k).isNone) | _ => false
  | .turn t => match s.stages t with | .running _ _ => true | _ => false
  | .unlock t => match s.stages t with | .unlocking _ _ => true | _ => false

omit [DecidableEq ι] [DecidableEq κ] in
theorem able_iff (a : LockAction ι σ) : able s a = true ↔ Allowed s a := by
  cases a with
  | lock t => cases here : s.stages t <;> simp [able,Allowed,here,Option.all_eq_true]
  | _ t => cases here : s.stages t <;> simp [able,Allowed,here]

instance decideAllowed (s : Locks ι σ κ ν ℓ) (a : LockAction ι σ) : Decidable (Allowed s a) := decidable_of_iff _ (able_iff a)

instance decideLocks (code : σ → Section κ ν ℓ) (memory : κ → ν) (s : Locks ι σ κ ν ℓ) (a : LockAction ι σ) :
    Decidable ((lockSystem code memory).allowed s a) := decideAllowed s a

theorem apply_lock_next (here : s.stages t = .locking c (k :: left)) :
    apply code s (.lock t) = {s with mutex := Function.update s.mutex k (some t)}.setStage t (.locking c left) := by
  simp only [apply,here]

theorem apply_lock_last (here : s.stages t = .locking c []) : apply code s (.lock t) = s.setStage t (.running c (code c).first) := by
  simp only [apply,here]

theorem apply_turn_next (here : s.stages t = .running c place) (moved : (code c).body place s.memory = some (place',memory)) :
    apply code s (.turn t) = {s with memory := memory}.setStage t (.running c place') := by
  simp only [apply,here,moved]

theorem apply_turn_last (here : s.stages t = .running c place) (returned : (code c).body place s.memory = none) :
    apply code s (.turn t) = {s with log := s.log++[(t,c,place)]}.setStage t (.unlocking c (code c).keys.reverse) := by
  simp only [apply,here,returned]

theorem apply_unlock_next (here : s.stages t = .unlocking c (k :: left)) :
    apply code s (.unlock t) = {s with mutex := Function.update s.mutex k none}.setStage t (.unlocking c left) := by
  simp only [apply,here]

theorem apply_unlock_last (here : s.stages t = .unlocking c []) : apply code s (.unlock t) = s.setStage t .idle := by
  simp only [apply,here]

def LockAction.who : LockAction ι σ → ι
  | .begin t _ => t
  | .lock t => t
  | .turn t => t
  | .unlock t => t

theorem apply_elsewhere {a : LockAction ι σ} (other : u ≠ a.who) : (apply code s a).stages u = s.stages u := by
  cases a <;> dsimp only [apply] <;> (try split) <;> (try split) <;> first | rfl | exact Function.update_of_ne other ..

omit [DecidableEq κ]

theorem setStage_self (s : Locks ι σ κ ν ℓ) (t : ι) (stage : Stage σ κ ℓ) : (s.setStage t stage).stages t = stage :=
  Function.update_self ..

theorem setStage_other (other : u ≠ t) (stage : Stage σ κ ℓ) : (s.setStage t stage).stages u = s.stages u :=
  Function.update_of_ne other ..

-- What every step keeps, for a thread's own new stage and for the others.
theorem Held.moves (held : Held code start s serial) (mutex : κ → Option ι) (stage : Stage σ κ ℓ) (fits : stage.Fits code)
    (mine : ∀ k, stage.holds code k ↔ mutex k = some t) (theirs : ∀ u, u ≠ t → ∀ k, mutex k = some u ↔ s.mutex k = some u)
    (before : ∀ k, (s.stages t).runs code k ↔ stage.runs code k)
    (played : ∀ c place, stage = .running c place →
      ∃ m, Plays (code c).body (code c).first serial place m ∧ ∀ k ∈ (code c).keys, m k = s.memory k) :
    Held code start ({s with mutex := mutex}.setStage t stage) serial := by
  have runs : ∀ u k, (({s with mutex := mutex}.setStage t stage).stages u).runs code k ↔ (s.stages u).runs code k := by
    intro u k
    by_cases here : u = t
    · rw [here,setStage_self]
      exact (before k).symm
    · rw [setStage_other here]
  refine ⟨held.log,?_,?_,?_,?_⟩
  · intro u
    by_cases here : u = t
    · rw [here,setStage_self]
      exact fits
    · rw [setStage_other here]
      exact held.fits u
  · intro u k
    by_cases here : u = t
    · rw [here,setStage_self]
      exact mine k
    · rw [setStage_other here]
      exact (held.owner u k).trans (theirs u here k).symm
  · intro k none_
    exact held.quiet k (fun u running => none_ u ((runs u k).mpr running))
  · intro u c place running
    by_cases here : u = t
    · rw [here,setStage_self] at running
      exact played c place running
    · rw [setStage_other here] at running
      exact held.played u c place running

-- When all its cells are locked nobody else is at work on them.
theorem Held.starts (held : Held code start s serial) (here : s.stages t = .locking c []) :
    Held code start (s.setStage t (.running c (code c).first)) serial := by
  have mine : ∀ k ∈ (code c).keys, (s.stages t).holds code k := by
    intro k member
    rw [here]
    exact ⟨member,List.not_mem_nil⟩
  have idle : ∀ k, ¬ (s.stages t).runs code k := by
    intro k running
    rw [here] at running
    exact running
  have fresh : ∀ k ∈ (code c).keys, s.memory k = serial k := by
    intro k member
    refine held.quiet k ?_
    intro u running
    have same := held.alone (mine k member) (Stage.runs_holds running)
    exact idle k (same ▸ running)
  refine ⟨held.log,?_,?_,?_,?_⟩
  · intro u
    by_cases same : u = t
    · rw [same,setStage_self]
      trivial
    · rw [setStage_other same]
      exact held.fits u
  · intro u k
    by_cases same : u = t
    · have before := held.owner t k
      rw [here] at before
      rw [same,setStage_self]
      exact Iff.trans ⟨fun member => ⟨member,List.not_mem_nil⟩,fun both => both.1⟩ before
    · rw [setStage_other same]
      exact held.owner u k
  · intro k none_
    refine held.quiet k ?_
    intro u running
    by_cases same : u = t
    · exact idle k (same ▸ running)
    · have still := none_ u
      rw [setStage_other same] at still
      exact still running
  · intro u d place running
    by_cases same : u = t
    · rw [same,setStage_self] at running
      cases running
      exact ⟨serial,.nil,fun k member => (fresh k member).symm⟩
    · rw [setStage_other same] at running
      exact held.played u d place running

theorem Held.turns [LT κ] (ordered : Ordered code) (held : Held code start s serial) (here : s.stages t = .running c place)
    (moved : (code c).body place s.memory = some (place',memory)) :
    Held code start ({s with memory := memory}.setStage t (.running c place')) serial := by
  have within := ordered.within c
  have mine : ∀ k ∈ (code c).keys, (s.stages t).holds code k := by
    intro k member
    rw [here]
    exact member
  -- nobody else's cells are touched
  have untouched : ∀ u, u ≠ t → ∀ k, (s.stages u).holds code k → memory k = s.memory k := by
    intro u other k holds
    refine within.keeps _ _ _ _ moved k ?_
    intro member
    exact other (held.alone holds (mine k member))
  refine ⟨held.log,?_,?_,?_,?_⟩
  · intro u
    by_cases same : u = t
    · rw [same,setStage_self]
      trivial
    · rw [setStage_other same]
      exact held.fits u
  · intro u k
    by_cases same : u = t
    · rw [same,setStage_self]
      have before := held.owner t k
      rw [here] at before
      exact before
    · rw [setStage_other same]
      exact held.owner u k
  · intro k none_
    have outside : k ∉ (code c).keys := by
      have idle := none_ t
      rw [setStage_self] at idle
      exact idle
    refine (within.keeps _ _ _ _ moved k outside).trans (held.quiet k ?_)
    intro u running
    by_cases same : u = t
    · rw [same,here] at running
      exact outside running
    · have still := none_ u
      rw [setStage_other same] at still
      exact still running
  · intro u d at_ running
    by_cases same : u = t
    · rw [same,setStage_self] at running
      cases running
      obtain ⟨m,plays,agree⟩ := held.played t c place here
      obtain ⟨n,again,equal⟩ := (within.reads _ _ m (fun k member => (agree k member).symm)).2 _ _ moved
      exact ⟨n,.turn plays again,equal⟩
    · rw [setStage_other same] at running
      obtain ⟨m,plays,agree⟩ := held.played u d at_ running
      refine ⟨m,plays,?_⟩
      intro k member
      refine (agree k member).trans (untouched u same k ?_).symm
      rw [running]
      exact member

-- A section that returns takes effect, at once, after those that have returned.
theorem Held.returns [LT κ] (ordered : Ordered code) (held : Held code start s serial) (here : s.stages t = .running c place)
    (done : (code c).body place s.memory = none) :
    ∃ serial', Held code start ({s with log := s.log++[(t,c,place)]}.setStage t (.unlocking c (code c).keys.reverse)) serial' := by
  have within := ordered.within c
  obtain ⟨m,plays,agree⟩ := held.played t c place here
  have ended : (code c).body place m = none := (within.reads _ _ _ agree).1.mpr done
  have mine : ∀ k ∈ (code c).keys, (s.stages t).holds code k := by
    intro k member
    rw [here]
    exact member
  have off := plays_keeps within plays
  refine ⟨m,.snoc held.log ⟨plays,ended⟩,?_,?_,?_,?_⟩
  · intro u
    by_cases same : u = t
    · rw [same,setStage_self]
      change (code c).keys.reverse.reverse <+: _
      rewrite [List.reverse_reverse]
      exact List.prefix_refl _
    · rw [setStage_other same]
      exact held.fits u
  · intro u k
    by_cases same : u = t
    · rw [same,setStage_self]
      have before := held.owner t k
      rw [here] at before
      exact List.mem_reverse.trans before
    · rw [setStage_other same]
      exact held.owner u k
  · intro k none_
    change s.memory k = m k
    by_cases member : k ∈ (code c).keys
    · exact (agree k member).symm
    · rw [off k member]
      refine held.quiet k ?_
      intro u running
      by_cases same : u = t
      · rw [same,here] at running
        exact member running
      · have still := none_ u
        rw [setStage_other same] at still
        exact still running
  · intro u d at_ running
    by_cases same : u = t
    · rw [same,setStage_self] at running
      cases running
    · rw [setStage_other same] at running
      obtain ⟨n,plays',agree'⟩ := held.played u d at_ running
      have apart : ∀ k, k ∈ (code d).keys → serial k = m k := by
        intro k member
        refine (off k ?_).symm
        intro shared
        refine same (held.alone (k := k) ?_ (mine k shared))
        rw [running]
        exact member
      obtain ⟨n',again,equal⟩ := plays_same (ordered.within d) plays' apart
      exact ⟨n',again,fun k member => (equal k member).symm.trans (agree' k member)⟩

end Steps

section Runs

variable [DecidableEq ι] [LinearOrder κ]
variable {code : σ → Section κ ν ℓ} {start serial : κ → ν} {s : Locks ι σ κ ν ℓ} {t u : ι} {c : σ} {k : κ}

theorem Ordered.distinct (ordered : Ordered code) (c : σ) : (code c).keys.Nodup :=
  (ordered.ascending c).imp (fun less => ne_of_lt less)

omit [LinearOrder κ] in
theorem Held.begins (held : Held code start s serial) (here : s.stages t = .idle) :
    Held code start (s.setStage t (.locking c (code c).keys)) serial := by
  refine held.moves s.mutex _ (List.suffix_refl _) ?_ (fun _ _ _ => .rfl) ?_ nofun
  · intro k
    rw [← held.owner t k,here]
    exact iff_of_false (fun both => both.2 both.1) id
  · intro k
    rw [here]
    rfl

theorem Held.locks (ordered : Ordered code) (held : Held code start s serial) (here : s.stages t = .locking c (k :: left))
    (free : s.mutex k = none) : Held code start ({s with mutex := Function.update s.mutex k (some t)}.setStage t (.locking c left)) serial := by
  have fits := held.fits t
  rw [here] at fits
  have suffix : k :: left <:+ (code c).keys := fits
  have member : k ∈ (code c).keys := suffix.subset List.mem_cons_self
  have fresh : k ∉ left := (List.nodup_cons.mp ((ordered.distinct c).sublist suffix.sublist)).1
  refine held.moves _ _ ((List.suffix_cons k left).trans suffix) ?_ ?_ ?_ nofun
  · intro a
    have before := held.owner t a
    rw [here] at before
    by_cases same : a = k
    · rw [same,Function.update_self]
      exact iff_of_true ⟨member,fresh⟩ rfl
    · rw [Function.update_of_ne same]
      refine Iff.trans (and_congr_right (fun _ => not_congr ?_)) before
      exact ⟨List.mem_cons_of_mem _,fun either => (List.mem_cons.mp either).resolve_left same⟩
  · intro u other a
    by_cases same : a = k
    · rw [same,Function.update_self,free]
      exact iff_of_false (fun mine => other (Option.some.inj mine).symm) nofun
    · rw [Function.update_of_ne same]
  · intro a
    rw [here]
    rfl

theorem Held.unlocks (ordered : Ordered code) (held : Held code start s serial) (here : s.stages t = .unlocking c (k :: left)) :
    Held code start ({s with mutex := Function.update s.mutex k none}.setStage t (.unlocking c left)) serial := by
  have fits := held.fits t
  rw [here] at fits
  have front : (k :: left).reverse <+: (code c).keys := fits
  have fresh : k ∉ left := by
    have distinct := (ordered.distinct c).sublist front.sublist
    rw [List.nodup_reverse] at distinct
    exact (List.nodup_cons.mp distinct).1
  have mine : s.mutex k = some t := by
    refine (held.owner t k).mp ?_
    rw [here]
    exact List.mem_cons_self
  refine held.moves _ _ ?_ ?_ ?_ ?_ nofun
  · rw [List.reverse_cons] at front
    exact (List.prefix_append _ _).trans front
  · intro a
    have before := held.owner t a
    rw [here] at before
    by_cases same : a = k
    · rw [same,Function.update_self]
      exact iff_of_false fresh nofun
    · rw [Function.update_of_ne same]
      exact Iff.trans ⟨List.mem_cons_of_mem _,fun either => (List.mem_cons.mp either).resolve_left same⟩ before
  · intro u other a
    by_cases same : a = k
    · rw [same,Function.update_self,mine]
      exact iff_of_false nofun (fun theirs => other (Option.some.inj theirs).symm)
    · rw [Function.update_of_ne same]
  · intro a
    rw [here]
    rfl

omit [LinearOrder κ] in
theorem Held.ends (held : Held code start s serial) (here : s.stages t = .unlocking c []) :
    Held code start (s.setStage t .idle) serial := by
  refine held.moves s.mutex _ trivial ?_ (fun _ _ _ => .rfl) ?_ nofun
  · intro k
    rw [← held.owner t k,here]
    exact iff_of_false id List.not_mem_nil
  · intro k
    rw [here]
    rfl

theorem apply_held (ordered : Ordered code) (held : Held code start s serial) (allowed : Allowed s a) :
    ∃ serial', Held code start (apply code s a) serial' := by
  cases a with
  | begin t c =>
    cases here : s.stages t with
    | idle => exact ⟨serial,held.begins here⟩
    | _ => simp only [Allowed,here] at allowed
  | lock t =>
    cases here : s.stages t with
    | locking c left =>
      cases left with
      | nil =>
        rw [apply_lock_last here]
        exact ⟨serial,held.starts here⟩
      | cons k left =>
        simp only [Allowed,here] at allowed
        rw [apply_lock_next here]
        exact ⟨serial,held.locks ordered here (allowed k rfl)⟩
    | _ => simp only [Allowed,here] at allowed
  | turn t =>
    cases here : s.stages t with
    | running c place =>
      cases moved : (code c).body place s.memory with
      | none =>
        rw [apply_turn_last here moved]
        exact held.returns ordered here moved
      | some result =>
        rw [apply_turn_next here moved]
        exact ⟨serial,held.turns ordered here moved⟩
    | _ => simp only [Allowed,here] at allowed
  | unlock t =>
    cases here : s.stages t with
    | unlocking c left =>
      cases left with
      | nil =>
        rw [apply_unlock_last here]
        exact ⟨serial,held.ends here⟩
      | cons k left =>
        rw [apply_unlock_next here]
        exact ⟨serial,held.unlocks ordered here⟩
    | _ => simp only [Allowed,here] at allowed

-- Whatever the interleaving of locks, accesses and unlocks, it comes to the returned
-- sections one after another, each at once, on every cell that no section is at.
theorem reached_held (ordered : Ordered code) (path : Reached (lockSystem code start) s) : ∃ serial, Held code start s serial := by
  refine reached_invariant (fun s => ∃ serial, Held code start s serial) ?_ ?_ path
  · intro s begun
    rw [show s = {memory := start} from begun]
    exact ⟨start,.nil,fun _ => trivial,fun _ _ => iff_of_false id nofun,fun _ _ => rfl,nofun⟩
  · rintro s a ⟨serial,held⟩ allowed
    exact apply_held ordered held allowed

-- Only so many threads have begun anything.
theorem reached_crew (path : Reached (lockSystem code start) s) : ∃ crew : List ι, ∀ t, s.stages t ≠ .idle → t ∈ crew := by
  refine reached_invariant (fun s => ∃ crew : List ι, ∀ t, s.stages t ≠ .idle → t ∈ crew) ?_ ?_ path
  · intro s begun
    rw [show s = {memory := start} from begun]
    exact ⟨[],fun t busy => absurd rfl busy⟩
  · rintro s a ⟨crew,known⟩ -
    refine ⟨a.who :: crew,?_⟩
    intro t busy
    by_cases same : t = a.who
    · exact List.mem_cons.mpr (.inl same)
    · have still : (apply code s a).stages t ≠ .idle := busy
      rw [apply_elsewhere same] at still
      exact List.mem_cons_of_mem _ (known t still)

-- The mutex a thread is about to take.
def Stage.wants : Stage σ κ ℓ → Option κ
  | .locking _ (k :: _) => some k
  | _ => none

-- Of the threads in a section one can always go on.
omit [DecidableEq ι] in
theorem Held.progress (ordered : Ordered code) (held : Held code start s serial) (crew : List ι)
    (known : ∀ t, s.stages t ≠ .idle → t ∈ crew) (busy : s.stages t ≠ .idle) :
    ∃ u, Allowed s (.lock u) ∨ Allowed s (.turn u) ∨ Allowed s (.unlock u) := by
  by_contra stuck
  push Not at stuck
  -- everyone waits for a mutex that somebody has
  have waits : ∀ u, s.stages u ≠ .idle → ∃ c k left, s.stages u = .locking c (k :: left) ∧ s.mutex k ≠ none := by
    intro u active
    obtain ⟨noLock,noTurn,noUnlock⟩ := stuck u
    unfold Allowed at noLock noTurn noUnlock
    dsimp only at noLock noTurn noUnlock
    cases here : s.stages u with
    | idle => exact absurd here active
    | running => rw [here] at noTurn; exact absurd trivial noTurn
    | unlocking => rw [here] at noUnlock; exact absurd trivial noUnlock
    | locking c left =>
      rw [here] at noLock
      cases left with
      | nil => exact absurd (fun _ none_ => by cases none_) noLock
      | cons k left =>
        refine ⟨c,k,left,rfl,?_⟩
        intro free
        refine noLock ?_
        intro a same
        cases same
        exact free
  let wanted := (crew.filterMap (fun u => (s.stages u).wants)).toFinset
  have wants : ∀ u c k left, s.stages u = .locking c (k :: left) → k ∈ wanted := by
    intro u c k left here
    refine List.mem_toFinset.mpr (List.mem_filterMap.mpr ⟨u,known u (by rw [here]; nofun),?_⟩)
    rw [here]
    rfl
  obtain ⟨c,k,left,here,-⟩ := waits t busy
  obtain ⟨top,member,most⟩ := Finset.exists_max_image wanted id ⟨k,wants t c k left here⟩
  obtain ⟨u,-,mine⟩ := List.mem_filterMap.mp (List.mem_toFinset.mp member)
  have active : s.stages u ≠ .idle := by
    intro idle
    rw [idle] at mine
    cases mine
  obtain ⟨d,k',left',there,taken⟩ := waits u active
  rw [there] at mine
  cases mine
  obtain ⟨v,owner⟩ := Option.ne_none_iff_exists'.mp taken
  have holds := (held.owner v top).mpr owner
  have active' : s.stages v ≠ .idle := by
    intro idle
    rw [idle] at holds
    exact holds
  obtain ⟨e,k'',left'',where_,-⟩ := waits v active'
  rw [where_] at holds
  have fits := held.fits v
  rw [where_] at fits
  obtain ⟨front,split⟩ := fits
  obtain ⟨member',unleft⟩ := holds
  have ascending := ordered.ascending e
  rw [← split] at ascending member'
  have before : top ∈ front := (List.mem_append.mp member').resolve_right unleft
  have less : top < k'' := (List.pairwise_append.mp ascending).2.2 top before k'' List.mem_cons_self
  exact absurd (most k'' (wants v e k'' left'' where_)) (not_le_of_gt less)

section Unwinding

variable {place : ℓ} {b : ℓ} {n : κ → ν}

theorem runs_held (ordered : Ordered code) (held : Held code start s serial) (run : Runs (lockSystem code start) s actions v) :
    ∃ serial', Held code start v serial' := by
  induction run with
  | nil => exact ⟨serial,held⟩
  | step _ allowed ih =>
    obtain ⟨_,kept⟩ := ih
    exact apply_held ordered kept allowed

-- A section at work goes on by itself as it would alone.
theorem runs_plays (here : s.stages t = .running c place) (plays : Plays (code c).body place s.memory b n) :
    ∃ k, Runs (lockSystem code start) s (List.replicate k (.turn t)) ({s with memory := n}.setStage t (.running c b)) := by
  induction plays with
  | nil =>
    refine ⟨0,?_⟩
    have same : {s with memory := s.memory}.setStage t (.running c place) = s := by
      unfold Locks.setStage
      rw [Function.update_eq_self_iff.mpr here.symm]
    rw [same]
    exact .nil
  | @turn b n d o _ moved ih =>
    obtain ⟨k,run⟩ := ih
    have mine : ({s with memory := n}.setStage t (.running c b)).stages t = .running c b := setStage_self ..
    refine ⟨k+1,?_⟩
    rw [List.replicate_succ']
    have free : Allowed ({s with memory := n}.setStage t (.running c b)) (.turn t) := by simp only [Allowed,mine]
    have next : apply code ({s with memory := n}.setStage t (.running c b)) (.turn t) = {s with memory := o}.setStage t (.running c d) := by
      rw [apply_turn_next mine moved]
      exact congrArg (fun stages => Locks.mk o s.mutex stages s.log) (Function.update_idem ..)
    rw [← next]
    exact .step run free

-- Steps a thread has yet to take, a section's own turns as one.
def Stage.left (code : σ → Section κ ν ℓ) : Stage σ κ ℓ → Nat
  | .idle => 0
  | .unlocking _ left => left.length+1
  | .running c _ => (code c).keys.length+2
  | .locking c left => left.length+(code c).keys.length+3

def Locks.left (code : σ → Section κ ν ℓ) (s : Locks ι σ κ ν ℓ) (crew : List ι) : Nat :=
  (crew.map (fun t => (s.stages t).left code)).sum

-- Nobody in a section begins another meanwhile.
def LockAction.within : LockAction ι σ → Bool
  | .begin _ _ => false
  | _ => true

omit [LinearOrder κ] in
theorem left_setStage (member : t ∈ crew) (less : stage.left code < (s.stages t).left code) :
    (s.setStage t stage).left code crew < s.left code crew := by
  refine List.sum_lt_sum _ _ ?_ ⟨t,member,?_⟩
  · intro u _
    by_cases same : u = t
    · rw [same,setStage_self]
      exact Nat.le_of_lt less
    · rw [setStage_other same]
  · rw [setStage_self]
    exact less

-- A thread that can go on gets nearer to its end, alone.
theorem Held.advances (ordered : Ordered code) (returns : ∀ c m, ∃ last n, Atomic (code c) m last n) (held : Held code start s serial)
    (member : t ∈ crew) (able : Allowed s (.lock t) ∨ Allowed s (.turn t) ∨ Allowed s (.unlock t)) :
    ∃ actions v, Runs (lockSystem code start) s actions v ∧ actions.all LockAction.within ∧ v.left code crew < s.left code crew ∧
      ∀ u, u ≠ t → v.stages u = s.stages u := by
  cases here : s.stages t with
  | idle => simp only [Allowed,here,or_self] at able
  | locking c left =>
    have free : Allowed s (.lock t) := by simpa only [Allowed,here,or_false] using able
    have run : Runs (lockSystem code start) s [.lock t] (apply code s (.lock t)) := .step .nil free
    cases left with
    | nil =>
      have next : apply code s (.lock t) = s.setStage t (.running c (code c).first) := apply_lock_last here
      refine ⟨_,_,run,rfl,?_,fun u other => apply_elsewhere other⟩
      rw [next]
      refine left_setStage member ?_
      rw [here]
      exact Nat.lt_succ_of_le (Nat.le_add_left ..)
    | cons k left =>
      have next : apply code s (.lock t) = {s with mutex := Function.update s.mutex k (some t)}.setStage t (.locking c left) :=
        apply_lock_next here
      refine ⟨_,_,run,rfl,?_,fun u other => apply_elsewhere other⟩
      rw [next]
      refine left_setStage (s := {s with mutex := _}) member ?_
      dsimp only
      rw [here]
      dsimp only [Stage.left,List.length_cons]
      omega
  | unlocking c left =>
    have free : Allowed s (.unlock t) := by simp only [Allowed,here]
    have run : Runs (lockSystem code start) s [.unlock t] (apply code s (.unlock t)) := .step .nil free
    cases left with
    | nil =>
      have next : apply code s (.unlock t) = s.setStage t .idle := apply_unlock_last here
      refine ⟨_,_,run,rfl,?_,fun u other => apply_elsewhere other⟩
      rw [next]
      refine left_setStage member ?_
      rw [here]
      exact Nat.succ_pos _
    | cons k left =>
      have next : apply code s (.unlock t) = {s with mutex := Function.update s.mutex k none}.setStage t (.unlocking c left) :=
        apply_unlock_next here
      refine ⟨_,_,run,rfl,?_,fun u other => apply_elsewhere other⟩
      rw [next]
      refine left_setStage (s := {s with mutex := _}) member ?_
      dsimp only
      rw [here]
      exact Nat.lt_succ_self _
  | running c place =>
    -- its turns to the last, as it would take them from `serial`
    have within := ordered.within c
    obtain ⟨m,plays,agree⟩ := held.played t c place here
    obtain ⟨last,n,whole,returned⟩ := returns c serial
    obtain ⟨n',own,equal⟩ := plays_same within (plays.rest whole returned) agree
    have ended : (code c).body last n' = none := (within.reads _ _ _ equal).1.mp returned
    have turns : ∃ k, Runs (lockSystem code start) s (List.replicate k (.turn t)) ({s with memory := n'}.setStage t (.running c last)) :=
      runs_plays here own
    obtain ⟨k,run⟩ := turns
    have mine : ({s with memory := n'}.setStage t (.running c last)).stages t = .running c last := setStage_self ..
    have free : Allowed ({s with memory := n'}.setStage t (.running c last)) (.turn t) := by simp only [Allowed,mine]
    have next : apply code ({s with memory := n'}.setStage t (.running c last)) (.turn t) =
        {s with memory := n',log := s.log++[(t,c,last)]}.setStage t (.unlocking c (code c).keys.reverse) := by
      rw [apply_turn_last mine ended]
      exact congrArg (fun stages => Locks.mk n' s.mutex stages (s.log++[(t,c,last)])) (Function.update_idem ..)
    have through : Runs (lockSystem code start) s (List.replicate k (.turn t)++[.turn t]) (apply code _ (.turn t)) := .step run free
    refine ⟨_,_,through,?_,?_,fun u other => (apply_elsewhere other).trans (setStage_other other ..)⟩
    · rw [List.all_append,List.all_replicate]
      split <;> rfl
    · refine lt_of_eq_of_lt (congrArg (Locks.left code · crew) next) ?_
      refine left_setStage (s := {s with memory := _,log := _}) member ?_
      dsimp only
      rw [here]
      dsimp only [Stage.left]
      rw [List.length_reverse]
      exact Nat.lt_succ_self _

-- Whatever they hold and wait for, the threads in sections can all come out.
theorem Held.unwinds (ordered : Ordered code) (returns : ∀ c m, ∃ last n, Atomic (code c) m last n) (held : Held code start s serial)
    (crew : List ι) (known : ∀ t, s.stages t ≠ .idle → t ∈ crew) :
    ∃ actions v, Runs (lockSystem code start) s actions v ∧ actions.all LockAction.within ∧ ∀ t, v.stages t = .idle := by
  induction size : s.left code crew using Nat.strong_induction_on generalizing s serial with
  | h size_ ih =>
    by_cases rest : ∀ t, s.stages t = .idle
    · exact ⟨[],s,.nil,rfl,rest⟩
    · obtain ⟨t,busy⟩ := not_forall.mp rest
      obtain ⟨u,able⟩ := held.progress ordered crew known busy
      have member : u ∈ crew := by
        refine known u ?_
        intro idle
        simp only [Allowed,idle,or_self] at able
      obtain ⟨first,v,run,inside,less,others⟩ := held.advances ordered returns member able
      obtain ⟨_,kept⟩ := runs_held ordered held run
      have still : ∀ t, v.stages t ≠ .idle → t ∈ crew := by
        intro w active
        by_cases same : w = u
        · rw [same]
          exact member
        · rw [others w same] at active
          exact known w active
      obtain ⟨later,x,run',inside',idle⟩ := ih _ (by omega) kept still rfl
      refine ⟨first++later,x,run.append run',?_,idle⟩
      rw [List.all_append,inside,inside']
      rfl

end Unwinding

end Runs

end Sections

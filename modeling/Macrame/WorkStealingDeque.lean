import Mathlib.Logic.Function.Basic
import Macrame.Lib.Machine
import Macrame.Lib.PowerRing
import Macrame.Lib.TwoEnded

namespace Macrame
open Machines Rings TwoEnded

-- Where the owner stands between two shared accesses of `push` or `take`.
-- `b` and `t` are the call's own locals, `out` the value read from a cell; a
-- `take` that still has to restore `bottom_` knows what it will return.
inductive OwnerAt (T : Type) where
  | idle
  | pushing (item : T) (b : Int)
  | filling (item : T) (b : Int)
  | publishing (item : T) (b : Int)
  | taking (b : Int)
  | checking (b : Int)
  | reading (b t : Int)
  | racing (b : Int) (out : T)
  | restoring (b : Int) (out : Option T)
deriving DecidableEq

-- Where a thief stands inside `steal`.
inductive ThiefAt (T : Type) where
  | idle
  | topped (t : Int)
  | reading (t : Int)
  | swapping (t : Int) (out : T)
deriving DecidableEq

-- `Work_stealing_deque`: `top_`, `bottom_`, `buffer_`, the owner and any number
-- of thieves. Positions are 64-bit in the source and never wrap there within
-- a process's lifetime. The ledger and the values handed to the callers are
-- history only: no step of the code reads them.
structure Deque (T : Type) where
  top : Int
  bottom : Int
  cells : Nat → T
  owner : OwnerAt T
  thief : Nat → ThiefAt T
  ledger : Ledger T
  answered : List T

inductive DequeAction (T : Type) where
  | push (item : T)
  | take
  | owner
  | steal (i : Nat)
  | thief (i : Nat)
deriving DecidableEq

def Deque.fresh [Inhabited T] : Deque T where
  top := 0
  bottom := 0
  cells := fun _ => default
  owner := .idle
  thief := fun _ => .idle
  ledger := .empty
  answered := []

def Deque.mask (capacity : Nat) : Nat := roundPow2 capacity-1

def Deque.cell (capacity : Nat) (p : Int) : Nat := slot (mask capacity) p.toNat

-- One shared access of the owner and the local work up to the next one. A push
-- takes effect at its store of `bottom_`; a take of one of several at its
-- cell read, which the check has already secured; a take of the last at its
-- exchange of `top_`.
def Deque.ownerStep (capacity : Nat) (s : Deque T) : Deque T :=
  match s.owner with
  | .idle => s
  | .pushing item b =>
    let t := s.top
    if b-t > mask capacity then { s with owner := .idle }
    else { s with owner := .filling item b }
  | .filling item b =>
    { s with cells := Function.update s.cells (cell capacity b) item, owner := .publishing item b }
  | .publishing item b => { s with bottom := b+1, owner := .idle, ledger := s.ledger.push item }
  | .taking b => { s with bottom := b, owner := .checking b }
  | .checking b =>
    let t := s.top
    if t ≤ b then { s with owner := .reading b t } else { s with owner := .restoring b none }
  | .reading b t =>
    let out := s.cells (cell capacity b)
    if t = b then { s with owner := .racing b out }
    else { s with owner := .idle, ledger := s.ledger.giveLatest out, answered := s.answered++[out] }
  | .racing b out =>
    if s.top = b then { s with top := b+1, owner := .restoring b (some out), ledger := s.ledger.giveLatest out }
    else { s with owner := .restoring b none }
  | .restoring b out => { s with bottom := b+1, owner := .idle, answered := s.answered++out.toList }

def Deque.thiefStep (capacity : Nat) (s : Deque T) (i : Nat) : Deque T :=
  match s.thief i with
  | .idle => s
  | .topped t =>
    if t < s.bottom then { s with thief := Function.update s.thief i (.reading t) }
    else { s with thief := Function.update s.thief i .idle }
  | .reading t =>
    { s with thief := Function.update s.thief i (.swapping t (s.cells (cell capacity t))) }
  | .swapping t out =>
    if s.top = t then
      { s with top := t+1, thief := Function.update s.thief i .idle, ledger := s.ledger.giveOldest out,
               answered := s.answered++[out] }
    else { s with thief := Function.update s.thief i .idle }

-- The first shared access of each call is the call's own step.
def Deque.apply (capacity : Nat) (s : Deque T) : DequeAction T → Deque T
  | .push item => { s with owner := .pushing item s.bottom }
  | .take => { s with owner := .taking (s.bottom-1) }
  | .owner => s.ownerStep capacity
  | .steal i => { s with thief := Function.update s.thief i (.topped s.top) }
  | .thief i => s.thiefStep capacity i

-- The owner is one thread and so is each thief: a call starts when the last
-- one is over.
def Deque.Allowed (s : Deque T) : DequeAction T → Prop
  | .push _ => s.owner = .idle
  | .take => s.owner = .idle
  | .owner => s.owner ≠ .idle
  | .steal i => s.thief i = .idle
  | .thief i => s.thief i ≠ .idle

def dequeSystem (T : Type) [Inhabited T] (capacity : Nat) : Machine (Deque T) (DequeAction T) where
  start := fun s => s = Deque.fresh
  allowed := Deque.Allowed
  apply := Deque.apply capacity

-- The cells from `top_` up to `bottom_`, in order: what an idle deque stores.
def Deque.stored (capacity : Nat) (s : Deque T) : List T :=
  (List.range (s.bottom-s.top).toNat).map (fun i : Nat => s.cells (cell capacity (s.top+(i : Int))))

-- What a call has won but not handed over yet.
def OwnerAt.owed : OwnerAt T → List T
  | .restoring _ out => out.toList
  | _ => []

def Deque.Quiet (s : Deque T) : Prop := s.owner = .idle ∧ ∀ i, s.thief i = .idle

-- While a take stands between its decrement and its end, one item more than
-- `bottom_` shows is still in the deque.
def OwnerAt.lead : OwnerAt T → Int
  | .checking _ => 1
  | .reading _ _ => 1
  | .racing _ _ => 1
  | .restoring _ _ => 1
  | _ => 0

-- How far thieves may still bring `top_`: a take that has seen more than one
-- item keeps the last of them for itself.
def Deque.reach (s : Deque T) : Int :=
  match s.owner with
  | .reading b t => if t < b then s.bottom else s.bottom+1
  | owner => s.bottom+owner.lead

def Deque.OwnerHolds (capacity : Nat) (s : Deque T) : Prop :=
  match s.owner with
  | .idle => True
  | .pushing _ b => b = s.bottom
  | .filling _ b => b = s.bottom ∧ b-s.top < roundPow2 capacity
  | .publishing item b => b = s.bottom ∧ b-s.top < roundPow2 capacity ∧ s.cells (cell capacity b) = item
  | .taking b => b = s.bottom-1
  | .checking b => b = s.bottom
  | .reading b t => b = s.bottom ∧ t ≤ b ∧ t ≤ s.top
  | .racing b out => b = s.bottom ∧ b ≤ s.top ∧ (s.top = b → s.cells (cell capacity b) = out)
  | .restoring b _ => b = s.bottom ∧ s.top = b+1

-- A thief whose `t` is still current stands on an item within reach, and once
-- it has read the cell it holds that item's value.
def Deque.ThiefHolds (capacity : Nat) (s : Deque T) : ThiefAt T → Prop
  | .idle => True
  | .topped t => t ≤ s.top
  | .reading t => t ≤ s.top ∧ (t = s.top → s.top < s.reach)
  | .swapping t out => t ≤ s.top ∧ (t = s.top → s.top < s.reach ∧ s.cells (cell capacity s.top) = out)

structure Deque.Inv (capacity : Nat) (s : Deque T) : Prop where
  start : 0 ≤ s.top
  below : s.top ≤ s.reach
  room : s.bottom+s.owner.lead-s.top ≤ roundPow2 capacity
  length : (s.ledger.present.length : Int) = s.bottom+s.owner.lead-s.top
  values : ∀ (i n : Nat), s.ledger.present[i]? = some n → s.ledger.pushed[n]? = some (s.cells (cell capacity (s.top+i)))
  owner : s.OwnerHolds capacity
  thieves : ∀ i, s.ThiefHolds capacity (s.thief i)
  ledger : s.ledger.Exact
  answers : (s.answered++s.owner.owed).Perm (s.ledger.returned.map (·.value))

theorem Deque.cell_ne {p q : Int} (start : 0 ≤ p) (after : p < q) (lap : q < p+roundPow2 capacity) :
    cell capacity p ≠ cell capacity q :=
  slot_ne (by omega) (by omega)

theorem Deque.mask_eq (capacity : Nat) : (mask capacity : Int) = roundPow2 capacity-1 := by
  have positive := roundPow2_pos capacity
  unfold mask
  omega

-- A thief's facts outlast every step that does not take the item it stands on
-- out of reach or write over it.
theorem Deque.thief_kept {s u : Deque T} (holds : s.ThiefHolds capacity at_) (later : s.top ≤ u.top)
    (steady : u.top = s.top → s.top < s.reach → s.top < u.reach ∧
      u.cells (cell capacity s.top) = s.cells (cell capacity s.top)) : u.ThiefHolds capacity at_ := by
  cases at_ with
  | idle => trivial
  | topped t => exact Int.le_trans holds later
  | reading t =>
    obtain ⟨behind,inside⟩ := holds
    refine ⟨Int.le_trans behind later,?_⟩
    intro current
    have same : u.top = s.top := by omega
    rw [same]
    exact (steady same (inside (by omega))).1
  | swapping t out =>
    obtain ⟨behind,inside⟩ := holds
    refine ⟨Int.le_trans behind later,?_⟩
    intro current
    have same : u.top = s.top := by omega
    have held := inside (by omega)
    have kept := steady same held.1
    rw [same]
    exact ⟨kept.1,kept.2.trans held.2⟩

theorem fresh_inv [Inhabited T] (capacity : Nat) : (Deque.fresh : Deque T).Inv capacity where
  start := Int.le_refl 0
  below := Int.le_refl 0
  room := by simp [Deque.fresh,OwnerAt.lead]
  length := by simp [Deque.fresh,Ledger.empty,OwnerAt.lead]
  values := by simp [Deque.fresh,Ledger.empty]
  owner := trivial
  thieves := fun _ => trivial
  ledger := empty_exact
  answers := by simp [Deque.fresh,Ledger.empty,OwnerAt.owed]

-- The owner moves on without touching a cell, `top_` or the ledger.
theorem Deque.Inv.owner_moves {s : Deque T} (inv : s.Inv capacity) (bottom : Int) (next : OwnerAt T)
    (lead : bottom+next.lead = s.bottom+s.owner.lead) (below : s.top ≤ { s with bottom, owner := next }.reach)
    (steady : s.top < s.reach → s.top < { s with bottom, owner := next }.reach)
    (owed : next.owed = s.owner.owed)
    (holds : { s with bottom, owner := next }.OwnerHolds capacity) :
    { s with bottom, owner := next }.Inv capacity where
  start := inv.start
  below := below
  room := by
    have room := inv.room
    change bottom+next.lead-s.top ≤ _
    omega
  length := by
    have length := inv.length
    change (s.ledger.present.length : Int) = bottom+next.lead-s.top
    omega
  values := inv.values
  owner := holds
  thieves := fun i => thief_kept (inv.thieves i) (Int.le_refl _) (fun _ inside => ⟨steady inside,rfl⟩)
  ledger := inv.ledger
  answers := by
    change (s.answered++next.owed).Perm _
    rw [owed]
    exact inv.answers

-- The cell written lies past every item held: the check left room for it and
-- `top_` has only grown since.
theorem Deque.Inv.fill {s : Deque T} (inv : s.Inv capacity) (here : s.owner = .filling item b) :
    { s with cells := Function.update s.cells (cell capacity b) item, owner := .publishing item b }.Inv
      capacity := by
  have holds := inv.owner
  have below := inv.below
  have room := inv.room
  have length := inv.length
  have start := inv.start
  simp only [OwnerHolds,here,reach,OwnerAt.lead] at holds below room length
  obtain ⟨atBottom,fits⟩ := holds
  refine ⟨inv.start,?_,?_,?_,?_,?_,?_,inv.ledger,?_⟩
  · simpa [reach,OwnerAt.lead] using below
  · simpa [OwnerAt.lead] using room
  · simpa [OwnerAt.lead] using length
  · intro i n found
    have within : i < s.ledger.present.length := (List.getElem?_eq_some_iff.mp found).1
    have other : cell capacity (s.top+i) ≠ cell capacity b := cell_ne (by omega) (by omega) (by omega)
    change s.ledger.pushed[n]? = some (Function.update s.cells (cell capacity b) item (cell capacity (s.top+i)))
    rw [Function.update_of_ne other]
    exact inv.values i n found
  · exact ⟨atBottom,fits,Function.update_self ..⟩
  · refine fun i => thief_kept (inv.thieves i) (Int.le_refl _) (fun _ inside => ?_)
    simp only [reach,here,OwnerAt.lead] at inside
    have other : cell capacity s.top ≠ cell capacity b := cell_ne (by omega) (by omega) (by omega)
    exact ⟨by simpa [reach,OwnerAt.lead] using inside,Function.update_of_ne other ..⟩
  · simpa [here,OwnerAt.owed] using inv.answers

theorem Deque.Inv.publish {s : Deque T} (inv : s.Inv capacity) (here : s.owner = .publishing item b) :
    { s with bottom := b+1, owner := .idle, ledger := s.ledger.push item }.Inv capacity := by
  have holds := inv.owner
  have below := inv.below
  have length := inv.length
  simp only [OwnerHolds,here,reach,OwnerAt.lead] at holds below length
  obtain ⟨atBottom,fits,stored⟩ := holds
  refine ⟨inv.start,?_,?_,?_,?_,trivial,?_,push_exact inv.ledger item,?_⟩
  · simp only [reach,OwnerAt.lead]
    omega
  · simp only [OwnerAt.lead]
    omega
  · simp only [Ledger.push,OwnerAt.lead,List.length_append,List.length_singleton]
    omega
  · intro i n found
    simp only [Ledger.push] at found
    change (s.ledger.pushed++[item])[n]? = some (s.cells (cell capacity (s.top+i)))
    by_cases before : i < s.ledger.present.length
    · rw [List.getElem?_append_left before] at found
      have value := inv.values i n found
      rw [List.getElem?_append_left (List.getElem?_eq_some_iff.mp value).1]
      exact value
    · have within := (List.getElem?_eq_some_iff.mp found).1
      rw [List.length_append,List.length_singleton] at within
      have last : i = s.ledger.present.length := by omega
      subst last
      rw [List.getElem?_concat_length] at found
      cases found
      have position : s.top+(s.ledger.present.length : Int) = b := by omega
      rw [List.getElem?_concat_length,position,stored]
  · refine fun i => thief_kept (inv.thieves i) (Int.le_refl _) (fun _ inside => ⟨?_,rfl⟩)
    simp only [reach,here,OwnerAt.lead] at inside ⊢
    omega
  · simpa [here,OwnerAt.owed,Ledger.push] using inv.answers

-- The item at `bottom_` is the last one held when a take has the one before it
-- in its sights.
theorem Deque.Inv.last_held {s : Deque T} (inv : s.Inv capacity) (lead : s.owner.lead = 1) (below : s.top ≤ s.bottom) :
    ∃ rest n, s.ledger.present = rest++[n] ∧ (rest.length : Int) = s.bottom-s.top ∧
      s.ledger.pushed[n]? = some (s.cells (cell capacity s.bottom)) := by
  have length := inv.length
  rw [lead] at length
  obtain ⟨rest,n,split⟩ : ∃ rest n, s.ledger.present = rest++[n] := by
    refine (List.eq_nil_or_concat' s.ledger.present).resolve_left ?_
    intro none
    rw [none,List.length_nil] at length
    omega
  rw [split,List.length_append,List.length_singleton] at length
  have found : s.ledger.present[rest.length]? = some n := by rw [split,List.getElem?_concat_length]
  have value := inv.values rest.length n found
  have position : s.top+(rest.length : Int) = s.bottom := by omega
  rw [position] at value
  exact ⟨rest,n,split,by omega,value⟩

theorem Deque.Inv.take_secured {s : Deque T} (inv : s.Inv capacity) (here : s.owner = .reading b t) (more : t ≠ b) :
    { s with owner := .idle, ledger := s.ledger.giveLatest (s.cells (cell capacity b)),
             answered := s.answered++[s.cells (cell capacity b)] }.Inv capacity := by
  have holds := inv.owner
  have below := inv.below
  simp only [OwnerHolds,here] at holds
  obtain ⟨atBottom,seen,-⟩ := holds
  have fewer : t < b := by omega
  simp only [reach,here,if_pos fewer] at below
  obtain ⟨rest,n,split,count,value⟩ := inv.last_held (by rw [here]; rfl) below
  rw [← atBottom] at value
  have kept : (s.ledger.giveLatest (s.cells (cell capacity b))).present = rest := by simp [Ledger.giveLatest,split]
  refine ⟨inv.start,?_,?_,?_,?_,trivial,?_,giveLatest_exact inv.ledger split value,?_⟩
  · simpa [reach,OwnerAt.lead] using below
  · have room := inv.room
    simp only [here,OwnerAt.lead] at room ⊢
    omega
  · rw [kept]
    simp only [OwnerAt.lead]
    omega
  · intro i m found
    rw [kept] at found
    have within := (List.getElem?_eq_some_iff.mp found).1
    refine inv.values i m ?_
    rw [split,List.getElem?_append_left within]
    exact found
  · refine fun i => thief_kept (inv.thieves i) (Int.le_refl _) (fun _ inside => ⟨?_,rfl⟩)
    simp only [reach,here,if_pos fewer] at inside
    simpa [reach,OwnerAt.lead] using inside
  · have answers := inv.answers
    simp only [here,OwnerAt.owed,List.append_nil] at answers ⊢
    simpa [Ledger.giveLatest] using answers.append_right [s.cells (cell capacity b)]

theorem Deque.Inv.take_won {s : Deque T} (inv : s.Inv capacity) (here : s.owner = .racing b out) (won : s.top = b) :
    { s with top := b+1, owner := .restoring b (some out), ledger := s.ledger.giveLatest out }.Inv capacity := by
  have holds := inv.owner
  have start := inv.start
  simp only [OwnerHolds,here] at holds
  obtain ⟨atBottom,-,read⟩ := holds
  obtain ⟨rest,n,split,count,value⟩ := inv.last_held (by rw [here]; rfl) (by omega)
  rw [← atBottom,read won] at value
  have alone : rest = [] := List.eq_nil_of_length_eq_zero (by omega)
  have kept : (s.ledger.giveLatest out).present = [] := by simp [Ledger.giveLatest,split,alone]
  have positive := roundPow2_pos capacity
  refine ⟨?_,?_,?_,?_,?_,⟨atBottom,rfl⟩,?_,giveLatest_exact inv.ledger split value,?_⟩
  · change 0 ≤ b+1
    omega
  · simp only [reach,OwnerAt.lead]
    omega
  · simp only [OwnerAt.lead]
    omega
  · rw [kept]
    simp only [OwnerAt.lead,List.length_nil]
    omega
  · intro i m found
    rw [kept] at found
    cases found
  · refine fun i => thief_kept (inv.thieves i) ?_ ?_
    · change s.top ≤ b+1
      omega
    · intro same
      change b+1 = s.top at same
      omega
  · have answers := inv.answers
    simp only [here,OwnerAt.owed,List.append_nil] at answers
    simpa [Ledger.giveLatest,OwnerAt.owed] using answers.append_right [out]

theorem Deque.Inv.restore {s : Deque T} (inv : s.Inv capacity) (here : s.owner = .restoring b out) :
    { s with bottom := b+1, owner := .idle, answered := s.answered++out.toList }.Inv capacity := by
  have holds := inv.owner
  have below := inv.below
  have room := inv.room
  have length := inv.length
  simp only [OwnerHolds,here,reach,OwnerAt.lead] at holds below room length
  obtain ⟨atBottom,atTop⟩ := holds
  refine ⟨inv.start,?_,?_,?_,inv.values,trivial,?_,inv.ledger,?_⟩
  · simp only [reach,OwnerAt.lead]
    omega
  · simp only [OwnerAt.lead]
    omega
  · simp only [OwnerAt.lead]
    omega
  · refine fun i => thief_kept (inv.thieves i) (Int.le_refl _) (fun _ inside => ⟨?_,rfl⟩)
    simp only [reach,here,OwnerAt.lead] at inside ⊢
    omega
  · simpa [here,OwnerAt.owed] using inv.answers

theorem ownerStep_inv {s : Deque T} (inv : s.Inv capacity) : (s.ownerStep capacity).Inv capacity := by
  have holds := inv.owner
  have below := inv.below
  unfold Deque.ownerStep
  cases here : s.owner with
  | idle => exact inv
  | pushing item b =>
    simp only [Deque.OwnerHolds,here,Deque.reach,OwnerAt.lead] at holds below
    by_cases past : b-s.top > Deque.mask capacity
    · simp only [if_pos past]
      exact inv.owner_moves s.bottom .idle (by rw [here]; rfl) (by simpa [Deque.reach,OwnerAt.lead] using below)
        (by simp [Deque.reach,here,OwnerAt.lead]) (by rw [here]; rfl) trivial
    · simp only [if_neg past]
      rw [Deque.mask_eq] at past
      exact inv.owner_moves s.bottom (.filling item b) (by rw [here]; rfl) (by simpa [Deque.reach,OwnerAt.lead] using below)
        (by simp [Deque.reach,here,OwnerAt.lead]) (by rw [here]; rfl) ⟨holds,by change b-s.top < _; omega⟩
  | filling item b => exact inv.fill here
  | publishing item b => exact inv.publish here
  | taking b =>
    simp only [Deque.OwnerHolds,here,Deque.reach,OwnerAt.lead] at holds below
    refine inv.owner_moves b (.checking b) ?_ ?_ ?_ (by rw [here]; rfl) rfl
    · rw [here,holds]
      simp only [OwnerAt.lead]
      omega
    · simp only [Deque.reach,OwnerAt.lead]
      omega
    · intro inside
      simp only [Deque.reach,here,OwnerAt.lead] at inside ⊢
      omega
  | checking b =>
    simp only [Deque.OwnerHolds,here,Deque.reach,OwnerAt.lead] at holds below
    by_cases some : s.top ≤ b
    · simp only [if_pos some]
      refine inv.owner_moves s.bottom (.reading b s.top) (by rw [here]; rfl) ?_ ?_ (by rw [here]; rfl)
        ⟨holds,some,Int.le_refl _⟩
      · simp only [Deque.reach]
        split <;> omega
      · intro inside
        simp only [Deque.reach,here,OwnerAt.lead] at inside ⊢
        split <;> omega
    · simp only [if_neg some]
      refine inv.owner_moves s.bottom (.restoring b none) (by rw [here]; rfl) ?_ ?_ (by rw [here]; rfl) ⟨holds,?_⟩
      · simpa [Deque.reach,OwnerAt.lead] using below
      · simp [Deque.reach,here,OwnerAt.lead]
      · change s.top = b+1
        omega
  | reading b t =>
    simp only [Deque.OwnerHolds,here] at holds
    by_cases last : t = b
    · have notLess : ¬t < b := by omega
      simp only [if_pos last]
      simp only [Deque.reach,here,if_neg notLess] at below
      refine inv.owner_moves s.bottom (.racing b (s.cells (Deque.cell capacity b))) (by rw [here]; rfl) ?_ ?_
        (by rw [here]; rfl) ⟨holds.1,?_,fun _ => rfl⟩
      · simpa [Deque.reach,OwnerAt.lead] using below
      · simp [Deque.reach,here,OwnerAt.lead,if_neg notLess]
      · change b ≤ s.top
        omega
    · simp only [if_neg last]
      exact inv.take_secured here last
  | racing b out =>
    simp only [Deque.OwnerHolds,here,Deque.reach,OwnerAt.lead] at holds below
    by_cases won : s.top = b
    · simp only [if_pos won]
      exact inv.take_won here won
    · simp only [if_neg won]
      refine inv.owner_moves s.bottom (.restoring b none) (by rw [here]; rfl) ?_ ?_ (by rw [here]; rfl) ⟨holds.1,?_⟩
      · simpa [Deque.reach,OwnerAt.lead] using below
      · simp [Deque.reach,here,OwnerAt.lead]
      · change s.top = b+1
        omega
  | restoring b out => exact inv.restore here

-- A thief moves on without winning anything.
theorem Deque.Inv.thief_moves {s : Deque T} (inv : s.Inv capacity) (i : Nat) (next : ThiefAt T)
    (holds : s.ThiefHolds capacity next) : { s with thief := Function.update s.thief i next }.Inv capacity where
  start := inv.start
  below := inv.below
  room := inv.room
  length := inv.length
  values := inv.values
  owner := inv.owner
  thieves := by
    intro j
    change s.ThiefHolds capacity (Function.update s.thief i next j)
    by_cases same : j = i
    · rw [same,Function.update_self]
      exact holds
    · rw [Function.update_of_ne same]
      exact inv.thieves j
  ledger := inv.ledger
  answers := inv.answers

-- The owner's facts outlast a steal: what it has secured or is about to restore
-- is out of the thieves' reach.
theorem Deque.Inv.owner_robbed {s : Deque T} (inv : s.Inv capacity) (inside : s.top < s.reach) (u : Deque T)
    (owner : u.owner = s.owner) (top : u.top = s.top+1) (bottom : u.bottom = s.bottom) (cells : u.cells = s.cells) :
    u.OwnerHolds capacity := by
  have holds := inv.owner
  unfold OwnerHolds at holds ⊢
  rw [owner,bottom,cells,top]
  cases here : s.owner with
  | idle => trivial
  | pushing item b => rw [here] at holds; exact holds
  | filling item b => rw [here] at holds; exact ⟨holds.1,by omega⟩
  | publishing item b => rw [here] at holds; exact ⟨holds.1,by omega,holds.2.2⟩
  | taking b => rw [here] at holds; exact holds
  | checking b => rw [here] at holds; exact holds
  | reading b t => rw [here] at holds; exact ⟨holds.1,holds.2.1,by omega⟩
  | racing b out =>
    rw [here] at holds
    simp only at holds
    exact ⟨holds.1,by omega,by omega⟩
  | restoring b out =>
    rw [here] at holds
    simp only [reach,here,OwnerAt.lead] at holds inside
    omega

theorem Deque.Inv.steal_won {s : Deque T} (inv : s.Inv capacity) (here : s.thief i = .swapping t out) (won : s.top = t) :
    { s with top := t+1, thief := Function.update s.thief i .idle, ledger := s.ledger.giveOldest out,
             answered := s.answered++[out] }.Inv capacity := by
  have holds := inv.thieves i
  rw [here] at holds
  obtain ⟨inside,read⟩ := holds.2 won.symm
  have length := inv.length
  have start := inv.start
  have room := inv.room
  have reached : s.reach ≤ s.bottom+s.owner.lead := by
    cases stands : s.owner <;> simp only [reach,stands,OwnerAt.lead] <;> try split
    all_goals omega
  obtain ⟨n,rest,split⟩ : ∃ n rest, s.ledger.present = n :: rest := by
    refine List.exists_cons_of_ne_nil ?_
    intro none
    rw [none,List.length_nil] at length
    omega
  have value : s.ledger.pushed[n]? = some out := by
    have stored := inv.values 0 n (by rw [split]; rfl)
    rw [← read]
    simpa using stored
  have kept : (s.ledger.giveOldest out).present = rest := by simp [Ledger.giveOldest,split]
  rw [split,List.length_cons] at length
  refine ⟨?_,?_,?_,?_,?_,?_,?_,giveOldest_exact inv.ledger split value,?_⟩
  · change 0 ≤ t+1
    omega
  · change t+1 ≤ s.reach
    omega
  · change s.bottom+s.owner.lead-(t+1) ≤ _
    omega
  · rw [kept]
    change (rest.length : Int) = s.bottom+s.owner.lead-(t+1)
    omega
  · intro j m found
    rw [kept] at found
    have stored := inv.values (j+1) m (by rw [split]; exact found)
    have position : s.top+((j+1 : Nat) : Int) = t+1+j := by omega
    rw [position] at stored
    exact stored
  · exact inv.owner_robbed inside _ rfl (by change t+1 = s.top+1; omega) rfl rfl
  · intro j
    by_cases same : j = i
    · rw [same]
      simp only [Function.update_self]
      trivial
    · simp only [Function.update_of_ne same]
      refine thief_kept (inv.thieves j) ?_ ?_
      · change s.top ≤ t+1
        omega
      · intro current
        change t+1 = s.top at current
        omega
  · have answers := inv.answers
    simp only [Ledger.giveOldest,List.map_append,List.map_cons,List.map_nil]
    exact (List.append_assoc s.answered [out] s.owner.owed ▸
      (List.perm_append_comm.append_left s.answered).trans (List.append_assoc s.answered s.owner.owed [out] ▸
        answers.append_right [out]))

theorem thiefStep_inv {s : Deque T} (inv : s.Inv capacity) (i : Nat) : (s.thiefStep capacity i).Inv capacity := by
  have holds := inv.thieves i
  unfold Deque.thiefStep
  cases here : s.thief i with
  | idle => exact inv
  | topped t =>
    rw [here] at holds
    by_cases some : t < s.bottom
    · simp only [if_pos some]
      refine inv.thief_moves i (.reading t) ⟨holds,?_⟩
      intro current
      cases stands : s.owner <;> simp only [Deque.reach,stands,OwnerAt.lead] <;> try split
      all_goals omega
    · simp only [if_neg some]
      exact inv.thief_moves i .idle trivial
  | reading t =>
    rw [here] at holds
    refine inv.thief_moves i _ ⟨holds.1,?_⟩
    intro current
    exact ⟨holds.2 current,by rw [current]⟩
  | swapping t out =>
    by_cases won : s.top = t
    · simp only [if_pos won]
      exact inv.steal_won here won
    · simp only [if_neg won]
      exact inv.thief_moves i .idle trivial

theorem deque_apply_inv {s : Deque T} (inv : s.Inv capacity) (allowed : s.Allowed action) :
    (s.apply capacity action).Inv capacity := by
  have below := inv.below
  cases action with
  | push item =>
    change s.owner = .idle at allowed
    simp only [Deque.reach,allowed,OwnerAt.lead] at below
    exact inv.owner_moves s.bottom (.pushing item s.bottom) (by rw [allowed]; rfl)
      (by simpa [Deque.reach,OwnerAt.lead] using below) (by simp [Deque.reach,allowed,OwnerAt.lead])
      (by rw [allowed]; rfl) rfl
  | take =>
    change s.owner = .idle at allowed
    simp only [Deque.reach,allowed,OwnerAt.lead] at below
    exact inv.owner_moves s.bottom (.taking (s.bottom-1)) (by rw [allowed]; rfl)
      (by simpa [Deque.reach,OwnerAt.lead] using below) (by simp [Deque.reach,allowed,OwnerAt.lead])
      (by rw [allowed]; rfl) rfl
  | owner => exact ownerStep_inv inv
  | steal i => exact inv.thief_moves i (.topped s.top) (Int.le_refl _)
  | thief i => exact thiefStep_inv inv i

-- What the callers of one deque can rely on. `returned` lists what the takes and
-- the steals hand out, in the order in which they win it; each is charged to
-- one push, and nothing below speaks of how the charging is done.
structure Deque.Law (capacity : Nat) (s : Deque T) : Prop where
  handed : (s.answered++s.owner.owed).Perm (s.ledger.returned.map (·.value))
  pushed : ∀ r ∈ s.ledger.returned, ∃ n, r.number = some n ∧ s.ledger.pushed[n]? = some r.value
  once : (numbers s.ledger.returned).Nodup
  kept : s.Quiet → (s.stored capacity).map some = s.ledger.unreturned.map (fun n => s.ledger.pushed[n]?)
  steals : (oldestOnly s.ledger.returned).Pairwise (· < ·)
  takes : ∀ i r, s.ledger.returned[i]? = some r → r.oldest = false → ∀ n, r.number = some n →
    ∀ m, Remaining s.ledger i r m → m ≤ n
  refuses : ∀ item b, s.owner = .pushing item b → (s.ownerStep capacity).owner = .idle →
    s.ledger.unreturned.length = roundPow2 capacity ∧ s.ownerStep capacity = { s with owner := .idle }

theorem Deque.Inv.kept {s : Deque T} (inv : s.Inv capacity) (quiet : s.Quiet) :
    (s.stored capacity).map some = s.ledger.unreturned.map (fun n => s.ledger.pushed[n]?) := by
  have length := inv.length
  simp only [quiet.1,OwnerAt.lead] at length
  have count : (s.bottom-s.top).toNat = s.ledger.present.length := by omega
  rw [← inv.ledger.present_eq]
  unfold stored
  rw [count,List.map_map]
  refine List.ext_getElem? ?_
  intro i
  rw [List.getElem?_map,List.getElem?_map]
  by_cases within : i < s.ledger.present.length
  · have found : s.ledger.present[i]? = some s.ledger.present[i] := List.getElem?_eq_getElem within
    rw [List.getElem?_range within,found]
    simp only [Option.map_some,Function.comp]
    rw [inv.values i _ found]
  · rw [List.getElem?_eq_none (by rw [List.length_range]; omega),List.getElem?_eq_none (by omega)]
    rfl

-- A push gives up only in front of a ring without a free cell.
theorem Deque.Inv.refuses {s : Deque T} (inv : s.Inv capacity) (here : s.owner = .pushing item b)
    (past : (s.ownerStep capacity).owner = .idle) :
    s.ledger.unreturned.length = roundPow2 capacity ∧ s.ownerStep capacity = { s with owner := .idle } := by
  have same := inv.owner
  have length := inv.length
  have room := inv.room
  simp only [OwnerHolds,here,OwnerAt.lead] at same length room
  unfold ownerStep at past ⊢
  simp only [here] at past ⊢
  by_cases full : b-s.top > mask capacity
  · rw [mask_eq] at full
    rw [← inv.ledger.present_eq,if_pos (by rw [mask_eq]; exact full)]
    exact ⟨by omega,rfl⟩
  · rw [if_neg full] at past
    cases past

instance Deque.decideAllowed [DecidableEq T] (s : Deque T) : (action : DequeAction T) → Decidable (s.Allowed action)
  | .push _ => inferInstanceAs (Decidable (s.owner = .idle))
  | .take => inferInstanceAs (Decidable (s.owner = .idle))
  | .owner => inferInstanceAs (Decidable (s.owner ≠ .idle))
  | .steal i => inferInstanceAs (Decidable (s.thief i = .idle))
  | .thief i => inferInstanceAs (Decidable (s.thief i ≠ .idle))

instance Deque.decideSystem [DecidableEq T] [Inhabited T] (s : Deque T) (action : DequeAction T) :
    Decidable ((dequeSystem T capacity).allowed s action) := inferInstanceAs (Decidable (s.Allowed action))

end Macrame

import Mathlib.Data.List.Induction
import Mathlib.Data.List.Perm.Subperm
import Macrame.MpmcLaws
import Macrame.Lib.Route

namespace Macrame
open Machines Rings

-- What the one thread calls.
inductive MpmcCall (T : Type) where
  | push (item : T)
  | pop
deriving DecidableEq

def MpmcCall.action (i : Nat) : MpmcCall T → MpmcAction T
  | .push item => .push i item
  | .pop => .pop i

def MpmcCall.item : MpmcCall T → Option T
  | .push item => some item
  | .pop => none

def MpmcAction.Mine (i : Nat) (a : MpmcAction T) : Prop := ∃ fails, a = .step i fails

def MpmcAction.Smooth (i : Nat) (a : MpmcAction T) : Prop := a = .step i false

-- How many pushed values are still waiting for their pop.
def outstanding (calls : List (MpmcCall T)) : Nat :=
  calls.foldl (fun n call =>
    match call with
    | .push _ => n+1
    | .pop => n-1) 0

namespace Mpmc

-- Thread `i`'s call from `s` has come to its end in `t`, whichever of its weak
-- exchanges failed on the way.
def Made [Inhabited T] (capacity i : Nat) (s : Mpmc T) (call : MpmcCall T) (t : Mpmc T) : Prop :=
  ∃ actions, Runs (mpmcSystem T capacity) (s.apply capacity (call.action i)) actions t ∧
    (∀ a ∈ actions, a.Mine i) ∧ t.thread i = .idle

-- From `u` on the call comes to an end once its exchanges stop failing for no
-- reason.
def Ends [Inhabited T] (capacity i : Nat) (u : Mpmc T) : Prop :=
  ∃ actions t, Runs (mpmcSystem T capacity) u actions t ∧ (∀ a ∈ actions, a.Smooth i) ∧ t.thread i = .idle

inductive Serves [Inhabited T] (capacity i : Nat) : List (MpmcCall T) → Mpmc T → Prop where
  | start : Serves capacity i [] .fresh
  | call : Serves capacity i calls s → Made capacity i s call t → Serves capacity i (calls++[call]) t

-- One thread calls push and pop in turn: every call ends, what has been popped
-- are pushed values and none of them twice, and a pop returns nothing exactly
-- when all that was pushed has been popped.
structure Correct [Inhabited T] (capacity : Nat) (calls : List (MpmcCall T)) : Prop where
  ends : ∀ i before call after s actions u, calls = before++call :: after → Serves capacity i before s →
    Runs (mpmcSystem T capacity) (s.apply capacity (call.action i)) actions u → (∀ a ∈ actions, a.Mine i) →
      u.Ends capacity i
  values : ∀ i before after s, calls = before++after → Serves capacity i before s →
    (s.popped.map Prod.snd).Subperm (before.filterMap MpmcCall.item)
  fails : ∀ i before after s t, calls = before++.pop :: after → Serves capacity i before s →
    Made capacity i s .pop t → (t.popped = s.popped ↔ (s.popped.map Prod.snd).Perm (before.filterMap MpmcCall.item))

-- Between two calls.
structure Rest (s : Mpmc T) : Prop where
  quiet : s.Quiet
  free : s.overflowMutex = none
  counted : s.overflowCount = s.overflow.length

-- A call with only one way to go ends, and in one state.
structure Settles [Inhabited T] (capacity i : Nat) (s : Mpmc T) (call : MpmcCall T) (t : Mpmc T) : Prop where
  made : ∀ u, Made capacity i s call u ↔ u = t
  ends : ∀ actions u, Runs (mpmcSystem T capacity) (s.apply capacity (call.action i)) actions u →
    (∀ a ∈ actions, a.Mine i) → u.Ends capacity i

section
variable {T : Type} [Inhabited T] {capacity i : Nat} {s t u : Mpmc T} {call : MpmcCall T} {place : Nat → Mpmc T} {last : Nat}

theorem settles_of_route (route : Route (mpmcSystem T capacity) (MpmcAction.Mine i) (MpmcAction.Smooth i) place last)
    (first : s.apply capacity (call.action i) = place 0) (done : (place last).thread i = .idle) :
    Settles capacity i s call (place last) where
  made := by
    intro u
    constructor
    · rintro ⟨actions,run,own,idle⟩
      rw [first] at run
      obtain ⟨k,inside,rfl⟩ := route.within (Nat.zero_le last) run own
      cases Nat.lt_or_eq_of_le inside with
      | inl before =>
        obtain ⟨a,smooth,allowed,-⟩ := route.onward k before
        rw [smooth] at allowed
        exact absurd idle allowed.1
      | inr there => rw [there]
    · rintro rfl
      obtain ⟨actions,run,smooth⟩ := route.finishes last (k := 0) (Nat.zero_add last)
      rw [← first] at run
      exact ⟨actions,run,fun a member => ⟨false,smooth a member⟩,done⟩
  ends := by
    intro actions u run own
    rw [first] at run
    obtain ⟨k,inside,rfl⟩ := route.within (Nat.zero_le last) run own
    obtain ⟨rest,onward,smooth⟩ := route.finishes (last-k) (k := k) (by omega)
    exact ⟨rest,place last,onward,smooth,done⟩

omit [Inhabited T] in
theorem rest_idle (quiet : s.Quiet) (i : Nat) : s.goes i .idle = s := by
  unfold goes
  rw [← quiet i,Function.update_eq_self]

-- The route of a call, given access by access; a weak exchange that fails leads
-- back.
theorem route_of_accesses (allowed : ∀ k, k < last → (place k).Allowed (.step i false))
    (onward : ∀ k, k < last → (place k).apply capacity (.step i false) = place (k+1))
    (weak : ∀ k, k < last → ∃ j, j ≤ last ∧ (place k).apply capacity (.step i true) = place j)
    (done : (place last).thread i = .idle) :
    Route (mpmcSystem T capacity) (MpmcAction.Mine i) (MpmcAction.Smooth i) place last where
  onward := fun k before => ⟨.step i false,rfl,allowed k before,onward k before⟩
  stays := by
    rintro k before _ ⟨fails,rfl⟩ _
    cases fails with
    | true => exact weak k before
    | false => exact ⟨k+1,before,onward k before⟩
  ended := by
    rintro _ ⟨fails,rfl⟩ ⟨busy,-⟩
    exact busy done

theorem settles_of_accesses (place : Nat → Mpmc T) (last : Nat)
    (allowed : ∀ k, k < last → (place k).Allowed (.step i false))
    (onward : ∀ k, k < last → (place k).apply capacity (.step i false) = place (k+1))
    (weak : ∀ k, k < last → ∃ j, j ≤ last ∧ (place k).apply capacity (.step i true) = place j)
    (done : (place last).thread i = .idle) (first : s.apply capacity (call.action i) = place 0) :
    Settles capacity i s call (place last) :=
  settles_of_route (route_of_accesses allowed onward weak done) first done

-- A push that finds room in the ring.
def entered (capacity : Nat) (s : Mpmc T) (item : T) : Mpmc T :=
  { s with
    enqueuePos := s.enqueuePos+1
    data := Function.update s.data (cell capacity s.enqueuePos) item
    seq := Function.update s.seq (cell capacity s.enqueuePos) (s.enqueuePos+1)
    pushed := s.pushed++[(Source.ring s.enqueuePos,item)] }

def entering (capacity i : Nat) (s : Mpmc T) (item : T) : Nat → Mpmc T
  | 0 => s.goes i (.enqueueProbing item s.enqueuePos)
  | 1 => s.goes i (.enqueueClaiming item s.enqueuePos)
  | 2 => { s with enqueuePos := s.enqueuePos+1 }.goes i (.enqueueWriting item s.enqueuePos)
  | 3 => { s with
      enqueuePos := s.enqueuePos+1
      data := Function.update s.data (cell capacity s.enqueuePos) item }.goes i (.enqueuePublishing item s.enqueuePos)
  | _ => (s.entered capacity item).goes i .idle

theorem settles_entered (rest : s.Rest) (room : s.seq (cell capacity s.enqueuePos) = s.enqueuePos) (i : Nat) (item : T) :
    Settles capacity i s (.push item) (s.entered capacity item) := by
  have quiet : (s.entered capacity item).Quiet := rest.quiet
  rw [← rest_idle quiet i]
  refine settles_of_accesses (entering capacity i s item) 4 ?_ ?_ ?_ (goes_self ..) rfl
  · intro k before
    match k with
    | 0 | 1 | 2 | 3 => simp [entering,Mpmc.Allowed,goes,MpmcAt.locking]
  · intro k before
    match k with
    | 0 | 1 | 2 | 3 => simp [entering,entered,Mpmc.apply,pushStep,goes,MpmcAt.pushing,room]
  · intro k before
    match k with
    | 0 => exact ⟨1,by omega,by simp [entering,Mpmc.apply,pushStep,goes,MpmcAt.pushing,room]⟩
    | 1 => exact ⟨0,by omega,by simp [entering,Mpmc.apply,pushStep,goes,MpmcAt.pushing]⟩
    | 2 => exact ⟨3,by omega,by simp [entering,Mpmc.apply,pushStep,goes,MpmcAt.pushing]⟩
    | 3 => exact ⟨4,by omega,by simp [entering,entered,Mpmc.apply,pushStep,goes,MpmcAt.pushing]⟩

-- A push that finds the ring full.
def spilt (s : Mpmc T) (item : T) : Mpmc T :=
  { s with
    overflow := s.overflow++[item]
    overflowCount := s.overflowCount+1
    overflowMutex := none
    pushed := s.pushed++[(Source.overflow s.spilled,item)]
    spilled := s.spilled+1 }

def spilling (i : Nat) (s : Mpmc T) (item : T) : Nat → Mpmc T
  | 0 => s.goes i (.enqueueProbing item s.enqueuePos)
  | 1 => s.goes i (.spillLocking item)
  | 2 => { s with overflowMutex := some i }.goes i (.spillStoring item)
  | 3 => { s with
      overflow := s.overflow++[item]
      overflowMutex := some i
      pushed := s.pushed++[(Source.overflow s.spilled,item)]
      spilled := s.spilled+1 }.goes i .spillCounting
  | 4 => { s.spilt item with overflowMutex := some i }.goes i .spillLeaving
  | _ => (s.spilt item).goes i .idle

theorem settles_spilt (rest : s.Rest) (full : s.seq (cell capacity s.enqueuePos) < s.enqueuePos) (i : Nat) (item : T) :
    Settles capacity i s (.push item) (s.spilt item) := by
  have quiet : (s.spilt item).Quiet := rest.quiet
  have taken : s.seq (cell capacity s.enqueuePos) ≠ s.enqueuePos := Nat.ne_of_lt full
  have free := rest.free
  rw [← rest_idle quiet i]
  refine settles_of_accesses (spilling i s item) 5 ?_ ?_ ?_ (goes_self ..) rfl
  · intro k before
    match k with
    | 0 | 1 | 2 | 3 | 4 => simp [spilling,Mpmc.Allowed,goes,MpmcAt.locking,free]
  · intro k before
    match k with
    | 0 | 1 | 2 | 3 | 4 => simp [spilling,spilt,Mpmc.apply,pushStep,goes,MpmcAt.pushing,taken,full]
  · intro k before
    refine ⟨k+1,before,?_⟩
    match k with
    | 0 | 1 | 2 | 3 | 4 => simp [spilling,spilt,Mpmc.apply,pushStep,goes,MpmcAt.pushing,taken,full]

-- A pop from the ring.
def departed (capacity : Nat) (s : Mpmc T) : Mpmc T :=
  { s with
    dequeuePos := s.dequeuePos+1
    drawn := s.drawn++[s.dequeuePos]
    seq := Function.update s.seq (cell capacity s.dequeuePos) (s.dequeuePos+mask capacity+1)
    popped := s.popped++[(Source.ring s.dequeuePos,s.data (cell capacity s.dequeuePos))] }

def departing (capacity i : Nat) (s : Mpmc T) : Nat → Mpmc T
  | 0 => s.goes i (.dequeueProbing s.dequeuePos)
  | 1 => s.goes i (.dequeueClaiming s.dequeuePos)
  | 2 => { s with dequeuePos := s.dequeuePos+1, drawn := s.drawn++[s.dequeuePos] }.goes i (.dequeueReading s.dequeuePos)
  | 3 => { s with dequeuePos := s.dequeuePos+1, drawn := s.drawn++[s.dequeuePos] }.goes i
      (.dequeueReleasing s.dequeuePos (s.data (cell capacity s.dequeuePos)))
  | _ => (s.departed capacity).goes i .idle

theorem settles_departed (rest : s.Rest) (ready : s.seq (cell capacity s.dequeuePos) = s.dequeuePos+1) (i : Nat) :
    Settles capacity i s .pop (s.departed capacity) := by
  have quiet : (s.departed capacity).Quiet := rest.quiet
  rw [← rest_idle quiet i]
  refine settles_of_accesses (departing capacity i s) 4 ?_ ?_ ?_ (goes_self ..) rfl
  · intro k before
    match k with
    | 0 | 1 | 2 | 3 => simp [departing,Mpmc.Allowed,goes,MpmcAt.locking]
  · intro k before
    match k with
    | 0 | 1 | 2 | 3 => simp [departing,departed,Mpmc.apply,popStep,goes,MpmcAt.pushing,ready]
  · intro k before
    match k with
    | 0 => exact ⟨1,by omega,by simp [departing,Mpmc.apply,popStep,goes,MpmcAt.pushing,ready]⟩
    | 1 => exact ⟨0,by omega,by simp [departing,Mpmc.apply,popStep,goes,MpmcAt.pushing]⟩
    | 2 => exact ⟨3,by omega,by simp [departing,Mpmc.apply,popStep,goes,MpmcAt.pushing]⟩
    | 3 => exact ⟨4,by omega,by simp [departing,departed,Mpmc.apply,popStep,goes,MpmcAt.pushing]⟩

-- A pop from the overflow.
def fishedOut (s : Mpmc T) (out : T) (rest : List T) : Mpmc T :=
  { s with
    overflow := rest
    overflowCount := s.overflowCount-1
    overflowMutex := none
    fished := s.fished+1
    popped := s.popped++[(Source.overflow s.fished,out)] }

def fishing (i : Nat) (s : Mpmc T) (out : T) (rest : List T) : Nat → Mpmc T
  | 0 => s.goes i (.dequeueProbing s.dequeuePos)
  | 1 => s.goes i .overflowChecking
  | 2 => s.goes i .overflowLocking
  | 3 => { s with overflowMutex := some i }.goes i .overflowTaking
  | 4 => { s with overflow := rest, overflowMutex := some i, fished := s.fished+1 }.goes i
      (.overflowDiscounting s.fished out)
  | 5 => { s with
      overflow := rest
      overflowCount := s.overflowCount-1
      overflowMutex := some i
      fished := s.fished+1 }.goes i (.overflowLeaving (some (s.fished,out)))
  | _ => (s.fishedOut out rest).goes i .idle

theorem settles_fished {out : T} {rest : List T} (resting : s.Rest)
    (empty : s.seq (cell capacity s.dequeuePos) < s.dequeuePos+1) (stored : s.overflow = out :: rest) (i : Nat) :
    Settles capacity i s .pop (s.fishedOut out rest) := by
  have quiet : (s.fishedOut out rest).Quiet := resting.quiet
  have none_ : s.seq (cell capacity s.dequeuePos) ≠ s.dequeuePos+1 := Nat.ne_of_lt empty
  have free := resting.free
  have some_ : s.overflowCount ≠ 0 := by
    rw [resting.counted,stored]
    exact Nat.succ_ne_zero _
  rw [← rest_idle quiet i]
  refine settles_of_accesses (fishing i s out rest) 6 ?_ ?_ ?_ (goes_self ..) rfl
  · intro k before
    match k with
    | 0 | 1 | 2 | 3 | 4 | 5 => simp [fishing,Mpmc.Allowed,goes,MpmcAt.locking,free]
  · intro k before
    match k with
    | 0 | 1 | 2 | 3 | 4 | 5 =>
      simp [fishing,fishedOut,Mpmc.apply,popStep,goes,MpmcAt.pushing,none_,empty,some_,stored]
  · intro k before
    refine ⟨k+1,before,?_⟩
    match k with
    | 0 | 1 | 2 | 3 | 4 | 5 =>
      simp [fishing,fishedOut,Mpmc.apply,popStep,goes,MpmcAt.pushing,none_,empty,some_,stored]

-- A pop that returns nothing.
def missing (i : Nat) (s : Mpmc T) : Nat → Mpmc T
  | 0 => s.goes i (.dequeueProbing s.dequeuePos)
  | 1 => s.goes i .overflowChecking
  | _ => s.goes i .idle

theorem settles_missed (rest : s.Rest) (empty : s.seq (cell capacity s.dequeuePos) < s.dequeuePos+1)
    (stored : s.overflow = []) (i : Nat) : Settles capacity i s .pop s := by
  have none_ : s.seq (cell capacity s.dequeuePos) ≠ s.dequeuePos+1 := Nat.ne_of_lt empty
  have zero : s.overflowCount = 0 := by rw [rest.counted,stored]; rfl
  suffices settles : Settles capacity i s .pop (s.goes i .idle) by rwa [rest_idle rest.quiet i] at settles
  refine settles_of_accesses (missing i s) 2 ?_ ?_ ?_ (goes_self ..) rfl
  · intro k before
    match k with
    | 0 | 1 => simp [missing,Mpmc.Allowed,goes,MpmcAt.locking]
  · intro k before
    match k with
    | 0 | 1 => simp [missing,Mpmc.apply,popStep,goes,MpmcAt.pushing,none_,empty,zero]
  · intro k before
    refine ⟨k+1,before,?_⟩
    match k with
    | 0 | 1 => simp [missing,Mpmc.apply,popStep,goes,MpmcAt.pushing,none_,empty,zero]

-- The head's cell is a lap ahead: the pop loads its position again and again.
theorem pop_spins (ahead : s.dequeuePos+1 < s.seq (cell capacity s.dequeuePos))
    (run : Runs (mpmcSystem T capacity) (s.apply capacity (.pop i)) actions u) (own : ∀ a ∈ actions, a.Mine i) :
    u = s.goes i (.dequeueProbing s.dequeuePos) ∨ u = s.goes i .dequeueLoading := by
  have skips : s.seq (cell capacity s.dequeuePos) ≠ s.dequeuePos+1 := Nat.ne_of_gt ahead
  have past : ¬s.seq (cell capacity s.dequeuePos) < s.dequeuePos+1 := Nat.not_lt_of_gt ahead
  induction run with
  | nil => exact .inl rfl
  | @step earlier middle a _ allowed ih =>
    obtain ⟨fails,rfl⟩ := own a (List.mem_append_right _ (List.mem_singleton_self a))
    rcases ih (fun b member => own b (List.mem_append_left _ member)) with rfl | rfl
    · exact .inr (by simp [mpmcSystem,Mpmc.apply,popStep,goes,MpmcAt.pushing,skips,past])
    · exact .inl (by simp [mpmcSystem,Mpmc.apply,popStep,goes,MpmcAt.pushing])

theorem Made.runs (made : Made capacity i s call t) (path : Reached (mpmcSystem T capacity) s) (idle : s.thread i = .idle) :
    Reached (mpmcSystem T capacity) t := by
  obtain ⟨actions,run,-⟩ := made
  have called : Reached (mpmcSystem T capacity) (s.apply capacity (call.action i)) := by
    refine .step path ?_
    cases call with
    | push item => exact idle
    | pop => exact idle
  exact runs_reached called run

omit [Inhabited T] in
theorem Inv.rest (inv : s.Inv capacity) (quiet : s.Quiet) : s.Rest := by
  have free : s.overflowMutex = none := by
    cases holder : s.overflowMutex with
    | none => rfl
    | some j =>
      have locked := (inv.spill.mutex j).mpr holder
      rw [quiet j] at locked
      cases locked
  exact ⟨quiet,free,inv.spill.counted free⟩

omit [Inhabited T] in
-- In a ring of two cells or more a full ring and a free cell look different.
theorem Inv.tail (inv : s.Inv capacity) (quiet : s.Quiet) (wide : 2 ≤ roundPow2 capacity) :
    s.seq (cell capacity s.enqueuePos) ≤ s.enqueuePos := by
  by_cases room : s.enqueuePos < s.dequeuePos+roundPow2 capacity
  · rcases inv.ring.spare _ (Nat.le_refl _) room with free | ⟨j,q,holding,-⟩
    · exact Nat.le_of_eq free
    · rw [quiet j] at holding
      cases holding
  · have full : s.enqueuePos = s.dequeuePos+roundPow2 capacity :=
      Nat.le_antisymm inv.ring.room (Nat.le_of_not_lt room)
    rw [full,cell_lap]
    rcases inv.ring.filled s.dequeuePos (Nat.le_refl _) (by omega) with ready | ⟨j,writing⟩
    · rw [ready.1]
      omega
    · rw [quiet j] at writing
      cases writing

omit [Inhabited T] in
theorem Inv.head (inv : s.Inv capacity) (quiet : s.Quiet) :
    s.seq (cell capacity s.dequeuePos) ≤ s.dequeuePos+1 := by
  have positive := roundPow2_pos capacity
  by_cases filled : s.dequeuePos < s.enqueuePos
  · rcases inv.ring.filled _ (Nat.le_refl _) filled with ready | ⟨j,writing⟩
    · exact Nat.le_of_eq ready.1
    · rw [quiet j] at writing
      cases writing
  · rcases inv.ring.spare _ (Nat.le_of_not_lt filled) (by omega) with free | ⟨j,q,holding,-⟩
    · rw [free]
      exact Nat.le_succ _
    · rw [quiet j] at holding
      cases holding

-- Every call from a sound state between calls ends in one state, again between
-- calls, and a push has entered its item.
theorem Inv.settles (inv : s.Inv capacity) (quiet : s.Quiet) (wide : 2 ≤ roundPow2 capacity) (i : Nat) (call : MpmcCall T) :
    ∃ t, Settles capacity i s call t ∧ t.Quiet ∧
      t.pushed.map Prod.snd = s.pushed.map Prod.snd++[call].filterMap MpmcCall.item := by
  have rest := inv.rest quiet
  cases call with
  | push item =>
    cases Nat.lt_or_eq_of_le (inv.tail quiet wide) with
    | inl full => exact ⟨_,settles_spilt rest full i item,quiet,List.map_append⟩
    | inr room => exact ⟨_,settles_entered rest room i item,quiet,List.map_append⟩
  | pop =>
    have same : s.pushed.map Prod.snd = s.pushed.map Prod.snd++[MpmcCall.pop].filterMap (MpmcCall.item (T := T)) :=
      (List.append_nil _).symm
    cases Nat.lt_or_eq_of_le (inv.head quiet) with
    | inr ready => exact ⟨_,settles_departed rest ready i,quiet,same⟩
    | inl empty =>
      cases stored : s.overflow with
      | nil => exact ⟨s,settles_missed rest empty stored i,quiet,same⟩
      | cons out others => exact ⟨_,settles_fished rest empty stored i,quiet,same⟩

theorem Serves.sound (wide : 2 ≤ roundPow2 capacity) (serves : Serves capacity i calls s) :
    Reached (mpmcSystem T capacity) s ∧ s.Quiet ∧ s.pushed.map Prod.snd = calls.filterMap MpmcCall.item := by
  induction serves with
  | start => exact ⟨.start rfl,fun _ => rfl,rfl⟩
  | @call calls s call t _ made ih =>
    obtain ⟨path,quiet,pushed⟩ := ih
    obtain ⟨u,settles,still,grown⟩ := (reached_mpmc wide path).settles quiet wide i call
    have same := (settles.made t).mp made
    rw [same]
    rw [same] at made
    refine ⟨made.runs path (quiet i),still,?_⟩
    rw [grown,pushed,List.filterMap_append]

-- With two cells the ring tells full from empty, and every sequence is served
-- as it should be.
theorem correct_wide (wide : 2 ≤ roundPow2 capacity) (calls : List (MpmcCall T)) : Correct capacity calls where
  ends := by
    intro i before call after s actions u _ serves run own
    obtain ⟨path,quiet,-⟩ := serves.sound wide
    obtain ⟨t,settles,-⟩ := (reached_mpmc wide path).settles quiet wide i call
    exact settles.ends actions u run own
  values := by
    intro i before after s _ serves
    obtain ⟨path,quiet,pushed⟩ := serves.sound wide
    have kept := ((reached_mpmc wide path).kept quiet).map Prod.snd
    rw [List.map_append,pushed] at kept
    exact (List.sublist_append_left ..).subperm.trans kept.subperm
  fails := by
    rintro i before after s t _ serves ⟨actions,run,own,idle⟩
    obtain ⟨path,quiet,pushed⟩ := serves.sound wide
    have inv := reached_mpmc wide path
    obtain ⟨wins,loses⟩ := inv.pops wide quiet run own idle
    have missed : t.popped = s.popped ↔ ∀ e ∈ s.pushed, e ∈ s.popped := by
      constructor
      · intro same e entered
        by_contra waiting
        obtain ⟨e,grown⟩ := wins.mpr ⟨e,entered,waiting⟩
        rw [same] at grown
        exact absurd (congrArg List.length grown) (by simp)
      · intro all
        refine loses ?_
        rintro grown
        obtain ⟨e,entered,waiting⟩ := wins.mp grown
        exact waiting (all e entered)
    have within : s.popped.Subperm s.pushed := List.subperm_of_subset inv.custody.once.of_map inv.custody.sound
    rw [missed,← pushed]
    constructor
    · intro all
      exact (within.antisymm (List.subperm_of_subset inv.custody.distinct.of_map all)).map Prod.snd
    · intro same e entered
      have long : s.pushed.length ≤ s.popped.length := by
        have lengths := same.length_eq
        rw [List.length_map,List.length_map] at lengths
        exact Nat.le_of_eq lengths.symm
      exact (within.perm_of_length_le long).mem_iff.mpr entered

omit [Inhabited T] in
theorem outstanding_push (calls : List (MpmcCall T)) (item : T) :
    outstanding (calls++[.push item]) = outstanding calls+1 := by
  unfold outstanding
  rw [List.foldl_append]
  rfl

omit [Inhabited T] in
theorem outstanding_pop (calls : List (MpmcCall T)) : outstanding (calls++[.pop]) = outstanding calls-1 := by
  unfold outstanding
  rw [List.foldl_append]
  rfl

-- A ring of one cell between two calls: the cell's number is the tail whatever
-- has been pushed, and only the last of the waiting values is still there.
structure OneCell (calls : List (MpmcCall T)) (s : Mpmc T) : Prop where
  quiet : s.Quiet
  free : s.overflowMutex = none
  count : s.overflowCount = 0
  overflow : s.overflow = []
  number : s.seq 0 = s.enqueuePos
  tail : s.enqueuePos = s.dequeuePos+outstanding calls
  values : ∃ waiting, calls.filterMap MpmcCall.item = s.popped.map Prod.snd++waiting ∧
    waiting.length = outstanding calls ∧ (outstanding calls = 1 → waiting = [s.data 0])

omit [Inhabited T] in
theorem cell_single (narrow : roundPow2 capacity = 1) (p : Nat) : cell capacity p = 0 := by
  unfold cell mask
  rw [slot_mod,narrow]
  exact Nat.mod_one p

omit [Inhabited T] in
theorem OneCell.rest {calls : List (MpmcCall T)} (one : OneCell calls s) : s.Rest :=
  ⟨one.quiet,one.free,by rw [one.count,one.overflow]; rfl⟩

theorem OneCell.settles {calls : List (MpmcCall T)} (narrow : roundPow2 capacity = 1) (one : OneCell calls s) (i : Nat)
    (call : MpmcCall T) (careful : call = .pop → outstanding calls ≤ 1) :
    ∃ t, Settles capacity i s call t ∧ OneCell (calls++[call]) t := by
  have zero := cell_single narrow
  obtain ⟨waiting,items,long,only⟩ := one.values
  cases call with
  | push item =>
    refine ⟨_,settles_entered one.rest (by rw [zero]; exact one.number) i item,one.quiet,one.free,one.count,one.overflow,?_,?_,
      waiting++[item],?_,?_,?_⟩
    · simp [entered,zero]
    · rw [outstanding_push]
      exact congrArg (·+1) one.tail
    · rw [List.filterMap_append,items,List.append_assoc]
      rfl
    · rw [outstanding_push,List.length_append,long]
      rfl
    · rw [outstanding_push]
      intro first
      have none_ : waiting = [] := List.eq_nil_of_length_eq_zero (by omega)
      simp [none_,entered,zero]
  | pop =>
    have few := careful rfl
    have items' : (calls++[MpmcCall.pop]).filterMap MpmcCall.item = s.popped.map Prod.snd++waiting := by
      rw [List.filterMap_append,items]
      exact List.append_nil _
    cases Nat.lt_or_eq_of_le few with
    | inl none_ =>
      have nothing : outstanding calls = 0 := by omega
      have tail := one.tail
      refine ⟨s,settles_missed one.rest ?_ one.overflow i,one.quiet,one.free,one.count,one.overflow,one.number,?_,
        waiting,items',?_,?_⟩
      · rw [zero,one.number,tail,nothing]
        exact Nat.lt_succ_self _
      · rw [outstanding_pop,nothing,tail,nothing]
      · rw [outstanding_pop,long,nothing]
      · rw [outstanding_pop,nothing]
        intro impossible
        cases impossible
    | inr single =>
      have tail := one.tail
      rw [single] at tail
      have last := only single
      refine ⟨_,settles_departed one.rest (by rw [zero,one.number,tail]) i,one.quiet,one.free,one.count,one.overflow,?_,?_,
        [],?_,?_,?_⟩
      · simp [departed,zero,mask,narrow,tail]
      · rw [outstanding_pop,single]
        exact tail
      · rw [items',last]
        simp [departed,zero]
      · rw [outstanding_pop,single]
        rfl
      · rw [outstanding_pop,single]
        intro impossible
        cases impossible

theorem OneCell.spins {calls : List (MpmcCall T)} (narrow : roundPow2 capacity = 1) (one : OneCell calls s)
    (many : 2 ≤ outstanding calls) : ¬(s.apply capacity (.pop i)).Ends capacity i := by
  rintro ⟨actions,t,run,smooth,idle⟩
  have ahead : s.dequeuePos+1 < s.seq (cell capacity s.dequeuePos) := by
    rw [cell_single narrow,one.number,one.tail]
    omega
  rcases pop_spins ahead run (fun a member => ⟨false,smooth a member⟩) with rfl | rfl
  · rw [goes_self] at idle
    cases idle
  · rw [goes_self] at idle
    cases idle

-- No pop is called while two or more values wait.
def Sparing (calls : List (MpmcCall T)) : Prop :=
  ∀ before after, calls = before++.pop :: after → outstanding before ≤ 1

theorem Serves.one {calls : List (MpmcCall T)} (narrow : roundPow2 capacity = 1) (serves : Serves capacity i calls s)
    (sparing : Sparing calls) : OneCell calls s := by
  induction serves with
  | start => exact ⟨fun _ => rfl,rfl,rfl,rfl,rfl,rfl,[],rfl,rfl,nofun⟩
  | @call calls s call t _ made ih =>
    have one := ih (fun before after split => sparing before (after++[call]) (by rw [split]; simp))
    obtain ⟨u,settles,still⟩ := one.settles narrow i call (fun pop => sparing calls [] (by rw [pop]))
    rw [(settles.made t).mp made]
    exact still

omit [Inhabited T] in
theorem Sparing.before {calls before after : List (MpmcCall T)} (sparing : Sparing calls) (split : calls = before++after) :
    Sparing before := by
  intro first last pops
  refine sparing first (last++after) ?_
  rw [split,pops]
  simp

theorem correct_sparing {calls : List (MpmcCall T)} (narrow : roundPow2 capacity = 1) (sparing : Sparing calls) :
    Correct capacity calls where
  ends := by
    intro i before call after s actions u split serves run own
    have one := serves.one narrow (sparing.before split)
    obtain ⟨t,settles,-⟩ := one.settles narrow i call (fun pop => sparing before after (by rw [split,pop]))
    exact settles.ends actions u run own
  values := by
    intro i before after s split serves
    obtain ⟨waiting,items,-⟩ := (serves.one narrow (sparing.before split)).values
    rw [items]
    exact (List.sublist_append_left ..).subperm
  fails := by
    intro i before after s t split serves made
    have one := serves.one narrow (sparing.before split)
    have few : outstanding before ≤ 1 := sparing before after split
    obtain ⟨waiting,items,long,-⟩ := one.values
    obtain ⟨u,settles,still⟩ := one.settles narrow i .pop (fun _ => few)
    have same := (settles.made t).mp made
    obtain ⟨left,items',long',-⟩ := still.values
    rw [outstanding_pop] at long'
    rw [List.filterMap_append] at items'
    have lengths := congrArg List.length (items.symm.trans ((List.append_nil _).symm.trans items'))
    simp only [List.length_append,List.length_map] at lengths
    rw [same,items]
    constructor
    · intro missed
      rw [missed] at lengths
      have none_ : waiting = [] := List.eq_nil_of_length_eq_zero (by omega)
      rw [none_,List.append_nil]
    · intro all
      have count := all.length_eq
      rw [List.length_append] at count
      have empty : s.seq (cell capacity s.dequeuePos) < s.dequeuePos+1 := by
        rw [cell_single narrow,one.number,one.tail]
        omega
      rw [((settles_missed one.rest empty one.overflow i).made u).mp ((settles.made u).mpr rfl)]

-- A sequence that a ring of one cell gets right has no pop on two waiting values:
-- the calls before it are all made, and it would not end.
theorem Correct.sparing {calls : List (MpmcCall T)} (narrow : roundPow2 capacity = 1) (correct : Correct capacity calls) :
    Sparing calls := by
  have served : ∀ before after, calls = before++after → ∃ s, Serves capacity 0 before s ∧ OneCell before s := by
    intro before
    induction before using List.reverseRecOn with
    | nil => exact fun _ _ => ⟨.fresh,.start,fun _ => rfl,rfl,rfl,rfl,rfl,rfl,[],rfl,rfl,nofun⟩
    | append_singleton before call ih =>
      intro after split
      rw [List.append_assoc] at split
      obtain ⟨s,serves,one⟩ := ih _ split
      have careful : call = .pop → outstanding before ≤ 1 := by
        rintro rfl
        by_contra many
        exact one.spins narrow (by omega) (correct.ends 0 before .pop after s [] _ split serves .nil (by simp))
      obtain ⟨t,settles,still⟩ := one.settles narrow 0 call careful
      exact ⟨t,.call serves ((settles.made t).mpr rfl),still⟩
  intro before after split
  by_contra many
  obtain ⟨s,serves,one⟩ := served before _ split
  exact one.spins narrow (by omega) (correct.ends 0 before .pop after s [] _ split serves .nil (by simp))

theorem narrow_ring (small : capacity < 2) : roundPow2 capacity = 1 := by
  have known : capacity = 0 ∨ capacity = 1 := by omega
  rcases known with rfl | rfl <;> rfl

end
end Mpmc

-- For every capacity and every sequence of calls.
theorem mpmc_correct_iff [Inhabited T] (capacity : Nat) (calls : List (MpmcCall T)) :
    Mpmc.Correct capacity calls ↔ 2 ≤ capacity ∨ Mpmc.Sparing calls := by
  by_cases wide : 2 ≤ capacity
  · have cells := Nat.le_trans wide (le_roundPow2 capacity)
    exact ⟨fun _ => .inl wide,fun _ => Mpmc.correct_wide cells calls⟩
  · have narrow := Mpmc.narrow_ring (Nat.lt_of_not_le wide)
    constructor
    · exact fun correct => .inr (correct.sparing narrow)
    · rintro (wide' | sparing)
      · exact absurd wide' wide
      · exact Mpmc.correct_sparing narrow sparing

-- Capacity 1: the second push lands on the first one's cell, and the pop that
-- follows waits for a number that the cell has passed.
theorem one_cell_overwrites : ¬Mpmc.Correct 1 [MpmcCall.push 5,MpmcCall.push 6,MpmcCall.pop] := by
  intro correct
  have sparing := correct.sparing rfl
  have few : outstanding [MpmcCall.push 5,MpmcCall.push 6] ≤ 1 := sparing [.push 5,.push 6] [] rfl
  exact absurd few (by decide)

end Macrame

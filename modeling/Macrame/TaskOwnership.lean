import Mathlib.Algebra.GroupWithZero.Nat
import Macrame.Lib.Machine
import Macrame.Lib.Tally
import Mathlib.Data.Finset.Max

namespace Macrame.TaskOwnership
open Machines Tally

-- Calls of a thread that are under way: `push_and_drain` with a block, its drain
-- loop before the item at `head`, and the `destroy` of a block, which releases the
-- handles that the block owns.
inductive Frame where
  | pushing (b : Nat)
  | draining (head : Nat)
  | destroying (b : Nat)
  deriving DecidableEq, Repr

-- A thread's `Destroy_queue`, and its calls, the innermost first.
structure Unwinder where
  items : List Nat := []
  cap : Nat := 0
  draining : Bool := false
  stack : List Frame := []
  deriving DecidableEq, Repr

-- `held` are the handles outside of blocks, wherever they are, a block as often as
-- it has handles there; `members` those that a block owns. The 32 bits of a
-- `refcount` hold it while a block has fewer than 2^32 handles. `destroys` and
-- `freed` are the blocks whose `destroy` has begun and returned: history.
structure Heap where
  next : Nat := 0
  refcount : Nat → Nat := fun _ => 0
  members : Nat → List Nat := fun _ => []
  held : List Nat := []
  threads : Nat → Unwinder := fun _ => {}
  destroys : List Nat := []
  freed : List Nat := []

-- `make` moves handles into the new block. `copy` also stands for the references
-- that a parallel loop takes for its helpers in one step. `store` and `take` move
-- a handle in and out of a block that is held; `drop` is `intrusive_dec`.
inductive HeapAction where
  | make (captured : List Nat)
  | copy (b : Nat) (more : Nat)
  | store (owner b : Nat)
  | take (owner b : Nat)
  | drop (t : Nat) (b : Nat)
  | step (t : Nat)
  deriving DecidableEq, Repr

namespace Heap

def setThread (s : Heap) (t : Nat) (u : Unwinder) : Heap := {s with threads := Function.update s.threads t u}

def setMembers (s : Heap) (b : Nat) (list : List Nat) : Heap := {s with members := Function.update s.members b list}

-- `fetch_sub`, and the call for the last reference.
def intrusiveDec (s : Heap) (t : Nat) (b : Nat) : Heap :=
  let after := {s with refcount := Function.update s.refcount b (s.refcount b-1)}
  if s.refcount b ≠ 1 then after
  else after.setThread t {s.threads t with stack := .pushing b :: (s.threads t).stack}

def grow (u : Unwinder) : Nat := if u.items.length = u.cap then if u.cap = 0 then 16 else u.cap*2 else u.cap

def step (s : Heap) (t : Nat) : Heap :=
  let u := s.threads t
  match u.stack with
  | [] => s
  | .pushing b :: rest =>
    let pushed := {u with items := u.items++[b], cap := grow u}
    if u.draining then s.setThread t {pushed with stack := rest}
    else s.setThread t {pushed with draining := true, stack := .draining 0 :: rest}
  | .draining head :: rest =>
    match u.items[head]? with
    | some b => {s with destroys := s.destroys++[b]}.setThread t {u with stack := .destroying b :: .draining (head+1) :: rest}
    | none => s.setThread t {u with items := [], draining := false, stack := rest}
  | .destroying b :: rest =>
    match s.members b with
    | m :: more => (s.setMembers b more).intrusiveDec t m
    | [] => {s with freed := s.freed++[b]}.setThread t {u with stack := rest}

-- Code of the program runs on a thread outside of these calls, or in a destructor.
def open_ (u : Unwinder) : Bool :=
  match u.stack with
  | [] => true
  | .destroying _ :: _ => true
  | _ => false

def Allowed (threads : Nat) (s : Heap) : HeapAction → Prop
  | .make captured => ∀ b ∈ captured, captured.count b ≤ s.held.count b
  | .copy b _ => b ∈ s.held ∨ ∃ owner ∈ s.held, b ∈ s.members owner
  | .store owner b => b ∈ s.held ∧ owner ∈ s.held.erase b
  | .take owner b => owner ∈ s.held ∧ b ∈ s.members owner
  | .drop t b => t < threads ∧ b ∈ s.held ∧ open_ (s.threads t) = true
  | .step t => t < threads ∧ (s.threads t).stack ≠ []

def apply (s : Heap) : HeapAction → Heap
  | .make captured =>
    {s with
      next := s.next+1
      refcount := Function.update s.refcount s.next 1
      held := s.next :: s.held.diff captured}.setMembers s.next captured
  | .copy b more => {s with
      refcount := Function.update s.refcount b (s.refcount b+more)
      held := List.replicate more b++s.held}
  | .store owner b => {s with held := s.held.erase b}.setMembers owner (s.members owner++[b])
  | .take owner b => {s with held := b :: s.held}.setMembers owner ((s.members owner).erase b)
  | .drop t b => {s with held := s.held.erase b}.intrusiveDec t b
  | .step t => s.step t

instance decideAllowed (threads : Nat) (s : Heap) : (a : HeapAction) → Decidable (s.Allowed threads a)
  | .make captured => inferInstanceAs (Decidable (∀ b ∈ captured, _))
  | .copy _ _ => inferInstanceAs (Decidable (_ ∨ ∃ owner ∈ s.held, _))
  | .store .. => inferInstanceAs (Decidable (_ ∧ _))
  | .take .. => inferInstanceAs (Decidable (_ ∧ _))
  | .drop .. => inferInstanceAs (Decidable (_ ∧ _ ∧ _))
  | .step _ => inferInstanceAs (Decidable (_ ∧ _))

end Heap

def heapSystem (threads : Nat) : Machine Heap HeapAction := ⟨(· = {}),Heap.Allowed threads,Heap.apply⟩

instance decideHeap (threads : Nat) (s : Heap) (a : HeapAction) : Decidable ((heapSystem threads).allowed s a) :=
  Heap.decideAllowed threads s a

-- The blocks a thread has to destroy: passed to it, queued, or begun.
def Frame.doomed : Frame → List Nat
  | .pushing b => [b]
  | .draining _ => []
  | .destroying b => [b]

def headOf : List Frame → Nat
  | [] => 0
  | .draining head :: _ => head
  | _ :: rest => headOf rest

def Unwinder.doomed (u : Unwinder) : List Nat := u.stack.flatMap Frame.doomed++u.items.drop (headOf u.stack)

def Frame.begun : Frame → List Nat
  | .destroying b => [b]
  | _ => []

def Unwinder.begun (u : Unwinder) : List Nat := u.stack.flatMap Frame.begun

-- The calls a thread can be in: a `destroy` that drops a last reference only
-- queues, so there are never more than three.
inductive Shape : Unwinder → Prop where
  | resting : Shape ⟨[],cap,false,[]⟩
  | pushing : Shape ⟨[],cap,false,[.pushing b]⟩
  | draining : head ≤ items.length → Shape ⟨items,cap,true,[.draining head]⟩
  | destroying : head ≤ items.length → Shape ⟨items,cap,true,[.destroying b,.draining head]⟩
  | nested : head ≤ items.length → Shape ⟨items,cap,true,[.pushing m,.destroying b,.draining head]⟩

namespace Heap

def owned (s : Heap) (b : Nat) : Nat := tally s.next (fun _ list => list.count b) s.members

def doomed (threads : Nat) (s : Heap) (b : Nat) : Nat := tally threads (fun _ u => u.doomed.count b) s.threads

def begun (threads : Nat) (s : Heap) (b : Nat) : Nat := tally threads (fun _ u => u.begun.count b) s.threads

end Heap

-- The count is that of the handles, those just let go of among them; a block
-- without any is with one thread, once, or freed.
structure Counted (threads : Nat) (loose : List Nat) (s : Heap) : Prop where
  counts : ∀ b, s.refcount b = s.held.count b+s.owned b+loose.count b
  unmade : ∀ b, s.next ≤ b → s.refcount b = 0 ∧ s.members b = []
  shapes : ∀ t, Shape (s.threads t)
  resting : ∀ t, threads ≤ t → (s.threads t).stack = []
  placed : ∀ b, s.doomed threads b+s.freed.count b = if b < s.next ∧ s.refcount b = 0 then 1 else 0
  emptied : ∀ b ∈ s.freed, s.members b = []
  started : ∀ b, s.destroys.count b = s.begun threads b+s.freed.count b

section Steps

variable {threads t : Nat} {loose : List Nat} {s : Heap} {b owner : Nat} {u next : Unwinder}

theorem Counted.alive (counted : Counted threads loose s) (some_ : 0 < s.refcount b) :
    b < s.next ∧ s.doomed threads b = 0 ∧ s.freed.count b = 0 := by
  have placed := counted.placed b
  rw [if_neg (fun both => Nat.ne_of_gt some_ both.2)] at placed
  refine ⟨?_,by omega,by omega⟩
  by_contra out
  have none_ := (counted.unmade b (Nat.not_lt.mp out)).1
  omega

theorem Counted.held_alive (counted : Counted threads loose s) (member : b ∈ s.held) : 0 < s.refcount b := by
  have some_ := List.count_pos_iff.mpr member
  have counts := counted.counts b
  omega

theorem Counted.member_alive (counted : Counted threads loose s) (member : b ∈ s.members owner) :
    owner < s.next ∧ 0 < s.refcount b := by
  have inside : owner < s.next := by
    by_contra out
    rw [(counted.unmade owner (Nat.not_lt.mp out)).2] at member
    cases member
  have some_ := List.count_pos_iff.mpr member
  have part := weigh_le_tally (fun _ list => list.count b) s.members inside
  have counts := counted.counts b
  unfold Heap.owned at counts
  exact ⟨inside,by omega⟩

theorem owned_update (s : Heap) (owner b : Nat) (list : List Nat) (inside : owner < s.next) :
    (s.setMembers owner list).owned b+(s.members owner).count b = s.owned b+list.count b :=
  tally_update (fun _ list => list.count b) s.members list inside

theorem doomed_setThread (s : Heap) (next : Unwinder) (within : t < threads) (b : Nat) :
    (s.setThread t next).doomed threads b+(s.threads t).doomed.count b = s.doomed threads b+next.doomed.count b :=
  tally_update (fun _ u => u.doomed.count b) s.threads next within

theorem begun_setThread (s : Heap) (next : Unwinder) (within : t < threads) (b : Nat) :
    (s.setThread t next).begun threads b+(s.threads t).begun.count b = s.begun threads b+next.begun.count b :=
  tally_update (fun _ u => u.begun.count b) s.threads next within

theorem shapes_setThread (shapes : ∀ v, Shape (s.threads v)) (shape : Shape next) : ∀ v, Shape ((s.setThread t next).threads v) := by
  intro v
  change Shape (Function.update s.threads t next v)
  by_cases here : v = t
  · rw [here,Function.update_self]
    exact shape
  · rw [Function.update_of_ne here]
    exact shapes v

theorem resting_setThread (resting : ∀ v, threads ≤ v → (s.threads v).stack = []) (within : t < threads) :
    ∀ v, threads ≤ v → ((s.setThread t next).threads v).stack = [] := by
  intro v out
  have other : v ≠ t := Nat.ne_of_gt (Nat.lt_of_lt_of_le within out)
  exact (congrArg Unwinder.stack (Function.update_of_ne other ..)).trans (resting v out)

-- A thread's move that neither finds nor loses a block that is to be destroyed.
theorem Counted.moves (counted : Counted threads loose s) (within : t < threads) (shape : Shape next)
    (same : ∀ b, next.doomed.count b = (s.threads t).doomed.count b)
    (begun : ∀ b, next.begun.count b = (s.threads t).begun.count b) : Counted threads loose (s.setThread t next) := by
  refine ⟨counted.counts,counted.unmade,shapes_setThread counted.shapes shape,resting_setThread counted.resting within,?_,
    counted.emptied,?_⟩
  · intro b
    have moved := doomed_setThread s next within b
    have before := counted.placed b
    have equal := same b
    change (s.setThread t next).doomed threads b+s.freed.count b = if b < s.next ∧ s.refcount b = 0 then 1 else 0
    omega
  · intro b
    have moved := begun_setThread s next within b
    have before := counted.started b
    have equal := begun b
    change s.destroys.count b = (s.setThread t next).begun threads b+s.freed.count b
    omega

-- A handle let go of: the last one leaves its block to the thread.
theorem Counted.dec (counted : Counted threads [b] s) (within : t < threads) (ready : Heap.open_ (s.threads t) = true) :
    Counted threads [] (s.intrusiveDec t b) := by
  have one : 0 < s.refcount b := by
    have counts := counted.counts b
    rw [List.count_singleton_self] at counts
    omega
  obtain ⟨inside,undoomed,unfreed⟩ := counted.alive one
  have counts : ∀ a, Function.update s.refcount b (s.refcount b-1) a = s.held.count a+s.owned a := by
    intro a
    have before := counted.counts a
    by_cases here : a = b
    · rw [here] at before ⊢
      rw [List.count_singleton_self] at before
      rw [Function.update_self]
      omega
    · rw [Function.update_of_ne here,before,List.count_eq_zero_of_not_mem (fun member => here (List.mem_singleton.mp member))]
      rfl
  have unmade : ∀ a, s.next ≤ a → Function.update s.refcount b (s.refcount b-1) a = 0 ∧ s.members a = [] := by
    intro a out
    rw [Function.update_of_ne (show a ≠ b by omega)]
    exact counted.unmade a out
  by_cases last : s.refcount b = 1
  · have after : s.intrusiveDec t b = {s with
        refcount := Function.update s.refcount b (s.refcount b-1)}.setThread t {s.threads t with
        stack := .pushing b :: (s.threads t).stack} := if_neg (fun not => not last)
    have more : ({s.threads t with stack := .pushing b :: (s.threads t).stack} : Unwinder).doomed =
        b :: (s.threads t).doomed := rfl
    have same : ({s.threads t with stack := .pushing b :: (s.threads t).stack} : Unwinder).begun = (s.threads t).begun := rfl
    generalize pushed : ({s.threads t with stack := .pushing b :: (s.threads t).stack} : Unwinder) = next at after more same
    have shape : Shape next := by
      have before := counted.shapes t
      rw [← pushed]
      generalize s.threads t = u at before ready
      cases before with
      | resting => exact .pushing
      | destroying bound => exact .nested bound
      | _ => cases ready
    rw [after]
    refine ⟨counts,unmade,shapes_setThread counted.shapes shape,resting_setThread counted.resting within,?_,counted.emptied,?_⟩
    · intro a
      have moved := doomed_setThread s next within a
      have before := counted.placed a
      change (s.setThread t next).doomed threads a+s.freed.count a =
        if a < s.next ∧ Function.update s.refcount b (s.refcount b-1) a = 0 then 1 else 0
      rw [more,List.count_cons] at moved
      by_cases here : a = b
      · subst here
        rw [Function.update_self,if_pos ⟨inside,by omega⟩]
        rw [beq_self_eq_true,if_pos rfl] at moved
        omega
      · have other : (b == a) = false := by simpa using fun same : b = a => here same.symm
        rw [Function.update_of_ne here,← before]
        rw [other,if_neg Bool.false_ne_true] at moved
        omega
    · intro a
      have moved := begun_setThread s next within a
      have before := counted.started a
      rw [same] at moved
      change s.destroys.count a = (s.setThread t next).begun threads a+s.freed.count a
      omega
  · have after : s.intrusiveDec t b = {s with
        refcount := Function.update s.refcount b (s.refcount b-1)} := if_pos last
    rw [after]
    refine ⟨counts,unmade,counted.shapes,counted.resting,?_,counted.emptied,counted.started⟩
    intro a
    refine (counted.placed a).trans (if_congr (and_congr_right (fun _ => ?_)) rfl rfl)
    change _ ↔ Function.update s.refcount b (s.refcount b-1) a = 0
    by_cases here : a = b
    · rw [here,Function.update_self]
      omega
    · rw [Function.update_of_ne here]

-- The block that a thread is in the `destroy` of is nobody else's.
theorem Counted.destroying (counted : Counted threads loose s) (within : t < threads) (member : b ∈ (s.threads t).doomed) :
    b < s.next ∧ s.refcount b = 0 ∧ s.freed.count b = 0 ∧ (s.threads t).doomed.count b = 1 := by
  have some_ := List.count_pos_iff.mpr member
  have part := weigh_le_tally (fun _ (u : Unwinder) => u.doomed.count b) s.threads within
  have placed := counted.placed b
  unfold Heap.doomed at placed
  change (s.threads t).doomed.count b ≤ _ at part
  split at placed
  · exact ⟨‹_ ∧ _›.1,‹_ ∧ _›.2,by omega,by omega⟩
  · omega

theorem Counted.step (counted : Counted threads [] s) (within : t < threads) : Counted threads [] (s.step t) := by
  have shape := counted.shapes t
  have doomed := fun b => counted.destroying (b := b) within
  unfold Heap.step
  dsimp only
  generalize here : s.threads t = u at shape doomed
  cases shape with
  | resting => exact counted
  | pushing =>
    refine counted.moves within (.draining (Nat.zero_le _)) ?_ ?_
    · intro b
      rw [here]
      rfl
    · intro b
      rw [here]
      rfl
  | @nested head items cap m b bound =>
    refine counted.moves within (.destroying (Nat.le_trans bound (by rw [List.length_append]; exact Nat.le_add_right _ _))) ?_ ?_
    · intro a
      rw [here]
      change (b :: (items++[m]).drop head).count a = (m :: b :: items.drop head).count a
      rw [List.drop_append_of_le_length bound]
      refine List.Perm.count_eq ?_ a
      exact (List.Perm.cons b List.perm_append_comm).trans (List.Perm.swap m b _)
    · intro a
      rw [here]
      rfl
  | @draining head items cap bound =>
    dsimp only
    cases item : items[head]? with
    | none =>
      have past : items.drop head = [] := List.drop_eq_nil_of_le (List.getElem?_eq_none_iff.mp item)
      refine counted.moves within .resting ?_ ?_
      · intro a
        rw [here]
        change 0 = (items.drop head).count a
        rw [past]
        rfl
      · intro a
        rw [here]
        rfl
    | some b =>
      obtain ⟨inside,same⟩ := List.getElem?_eq_some_iff.mp item
      have front : items.drop head = b :: items.drop (head+1) := by
        rw [List.drop_eq_getElem_cons inside,same]
      dsimp only
      have shape : Shape ⟨items,cap,true,[.destroying b,.draining (head+1)]⟩ := .destroying inside
      refine ⟨counted.counts,counted.unmade,shapes_setThread counted.shapes shape,resting_setThread counted.resting within,?_,
        counted.emptied,?_⟩
      · intro a
        have moved := doomed_setThread s ⟨items,cap,true,[.destroying b,.draining (head+1)]⟩ within a
        have before := counted.placed a
        rw [here] at moved
        change _+(items.drop head).count a = _+(b :: items.drop (head+1)).count a at moved
        rw [front] at moved
        change (s.setThread t _).doomed threads a+s.freed.count a = if a < s.next ∧ s.refcount a = 0 then 1 else 0
        omega
      · intro a
        have moved := begun_setThread s ⟨items,cap,true,[.destroying b,.draining (head+1)]⟩ within a
        have before := counted.started a
        rw [here] at moved
        change _+0 = _+[b].count a at moved
        change (s.destroys++[b]).count a = (s.setThread t _).begun threads a+s.freed.count a
        rw [List.count_append]
        omega
  | @destroying head items cap b bound =>
    dsimp only
    obtain ⟨inside,unheld,unfreed,once⟩ := doomed b (by exact List.mem_cons_self)
    have notFreed : b ∉ s.freed := List.count_eq_zero.mp unfreed
    cases owns : s.members b with
    | cons m more =>
      have loose : Counted threads [m] (s.setMembers b more) := by
        refine ⟨?_,?_,counted.shapes,counted.resting,counted.placed,?_,counted.started⟩
        · intro a
          have moved := owned_update s b a more inside
          have before := counted.counts a
          rw [owns,List.count_cons] at moved
          change s.refcount a = s.held.count a+(s.setMembers b more).owned a+_
          rw [List.count_singleton]
          change _ = _+_+0 at before
          omega
        · intro a out
          obtain ⟨none_,empty⟩ := counted.unmade a out
          exact ⟨none_,(Function.update_of_ne (Nat.ne_of_gt (Nat.lt_of_lt_of_le inside out)) ..).trans empty⟩
        · intro a freed
          have other : a ≠ b := fun same => notFreed (same ▸ freed)
          exact (Function.update_of_ne other ..).trans (counted.emptied a freed)
      refine loose.dec within ?_
      change Heap.open_ (s.threads t) = true
      rw [here]
      rfl
    | nil =>
      have shape : Shape ⟨items,cap,true,[.draining head]⟩ := .draining bound
      refine ⟨counted.counts,counted.unmade,shapes_setThread counted.shapes shape,resting_setThread counted.resting within,?_,?_,?_⟩
      · intro a
        have moved := doomed_setThread s ⟨items,cap,true,[.draining head]⟩ within a
        have before := counted.placed a
        rw [here] at moved
        change _+(b :: items.drop head).count a = _+(items.drop head).count a at moved
        rw [List.count_cons] at moved
        change (s.setThread t _).doomed threads a+(s.freed++[b]).count a = if a < s.next ∧ s.refcount a = 0 then 1 else 0
        rw [List.count_append,List.count_singleton]
        omega
      · intro a freed
        rcases List.mem_append.mp freed with prior | last
        · exact counted.emptied a prior
        · rw [List.mem_singleton.mp last]
          exact owns
      · intro a
        have moved := begun_setThread s ⟨items,cap,true,[.draining head]⟩ within a
        have before := counted.started a
        rw [here] at moved
        change _+[b].count a = _+0 at moved
        change s.destroys.count a = (s.setThread t _).begun threads a+(s.freed++[b]).count a
        rw [List.count_append]
        omega

theorem Counted.make (counted : Counted threads [] s) (captured : List Nat) (mine : ∀ b, captured.count b ≤ s.held.count b) :
    Counted threads [] (s.apply (.make captured)) := by
  obtain ⟨unheld,-⟩ := counted.unmade s.next (Nat.le_refl _)
  have none_ := counted.counts s.next
  have fresh : captured.count s.next = 0 := by
    have less := mine s.next
    omega
  have owned : ∀ a, (s.apply (.make captured)).owned a = s.owned a+captured.count a :=
    fun a => tally_join (fun _ list => List.count a list) s.members captured
  refine ⟨?_,?_,counted.shapes,counted.resting,?_,?_,counted.started⟩
  · intro a
    change Function.update s.refcount s.next 1 a = (s.next :: s.held.diff captured).count a+(s.apply (.make captured)).owned a+0
    have before := counted.counts a
    have less := mine a
    change _ = _+_+0 at before
    rw [owned,List.count_cons,List.count_diff]
    by_cases here : a = s.next
    · rw [here] at before ⊢
      rw [Function.update_self,beq_self_eq_true,if_pos rfl]
      omega
    · have other : (s.next == a) = false := by simpa using fun same : s.next = a => here same.symm
      rw [Function.update_of_ne here,other,if_neg Bool.false_ne_true]
      omega
  · intro a out
    change s.next+1 ≤ a at out
    have other : a ≠ s.next := by omega
    obtain ⟨zero,empty⟩ := counted.unmade a (by omega)
    exact ⟨(Function.update_of_ne other ..).trans zero,(Function.update_of_ne other ..).trans empty⟩
  · intro a
    have before := counted.placed a
    change s.doomed threads a+s.freed.count a = if a < s.next+1 ∧ Function.update s.refcount s.next 1 a = 0 then 1 else 0
    by_cases here : a = s.next
    · rw [here] at before ⊢
      rw [if_neg (fun both => Nat.lt_irrefl _ both.1)] at before
      rw [Function.update_self,if_neg (fun both => Nat.one_ne_zero both.2)]
      exact before
    · rw [Function.update_of_ne here,before]
      exact if_congr (and_congr_left (fun _ => by omega)) rfl rfl
  · intro a freed
    have other : a ≠ s.next := by
      rintro rfl
      have before := counted.placed s.next
      rw [if_neg (fun both => Nat.lt_irrefl _ both.1)] at before
      have some_ : 0 < s.freed.count s.next := List.count_pos_iff.mpr freed
      omega
    exact (Function.update_of_ne other ..).trans (counted.emptied a freed)

theorem Counted.copy (counted : Counted threads [] s) (more : Nat) (alive : 0 < s.refcount b) :
    Counted threads [] (s.apply (.copy b more)) := by
  refine ⟨?_,?_,counted.shapes,counted.resting,?_,counted.emptied,counted.started⟩
  · intro a
    have before := counted.counts a
    change Function.update s.refcount b (s.refcount b+more) a = (List.replicate more b++s.held).count a+s.owned a+0
    change _ = _+_+0 at before
    rw [List.count_append,List.count_replicate]
    by_cases here : a = b
    · rw [here] at before ⊢
      rw [Function.update_self,beq_self_eq_true,if_pos rfl]
      omega
    · have other : (b == a) = false := by simpa using fun same : b = a => here same.symm
      rw [Function.update_of_ne here,other,if_neg Bool.false_ne_true]
      omega
  · intro a out
    obtain ⟨zero,empty⟩ := counted.unmade a out
    refine ⟨?_,empty⟩
    have other : a ≠ b := by
      rintro rfl
      omega
    exact (Function.update_of_ne other ..).trans zero
  · intro a
    refine (counted.placed a).trans (if_congr (and_congr_right (fun _ => ?_)) rfl rfl)
    change _ ↔ Function.update s.refcount b (s.refcount b+more) a = 0
    by_cases here : a = b
    · rw [here,Function.update_self]
      omega
    · rw [Function.update_of_ne here]

-- Handles that change places.
theorem Counted.carries (counted : Counted threads loose s) (held list : List Nat) (alive : 0 < s.refcount owner)
    (same : ∀ a, held.count a+list.count a+loose'.count a = s.held.count a+(s.members owner).count a+loose.count a) :
    Counted threads loose' ({s with held := held}.setMembers owner list) := by
  obtain ⟨inside,-,unfreed⟩ := counted.alive alive
  refine ⟨?_,?_,counted.shapes,counted.resting,counted.placed,?_,counted.started⟩
  · intro a
    have moved := owned_update {s with held := held} owner a list inside
    have before := counted.counts a
    have equal := same a
    change _+(s.members owner).count a = s.owned a+_ at moved
    change s.refcount a = held.count a+_+_
    omega
  · intro a out
    obtain ⟨zero,empty⟩ := counted.unmade a out
    have other : a ≠ owner := by
      rintro rfl
      omega
    exact ⟨zero,(Function.update_of_ne other ..).trans empty⟩
  · intro a freed
    have other : a ≠ owner := by
      rintro rfl
      exact List.count_eq_zero.mp unfreed freed
    exact (Function.update_of_ne other ..).trans (counted.emptied a freed)

theorem Counted.lets (counted : Counted threads [] s) (member : b ∈ s.held) :
    Counted threads [b] {s with held := s.held.erase b} := by
  refine ⟨?_,counted.unmade,counted.shapes,counted.resting,counted.placed,counted.emptied,counted.started⟩
  intro a
  have before := counted.counts a
  have some_ := List.count_pos_iff.mpr member
  change _ = _+_+0 at before
  change s.refcount a = (s.held.erase b).count a+s.owned a+_
  rw [List.count_erase,List.count_singleton]
  by_cases here : b = a
  · subst here
    rw [beq_self_eq_true,if_pos rfl]
    omega
  · have other : (b == a) = false := by simpa using here
    rw [other,if_neg Bool.false_ne_true]
    omega

theorem apply_counted (counted : Counted threads [] s) (allowed : s.Allowed threads a) : Counted threads [] (s.apply a) := by
  cases a with
  | make captured =>
    refine counted.make captured ?_
    intro b
    by_cases member : b ∈ captured
    · exact allowed b member
    · rw [List.count_eq_zero_of_not_mem member]
      exact Nat.zero_le _
  | copy b more =>
    refine counted.copy more ?_
    rcases allowed with member | ⟨owner,-,member⟩
    · exact counted.held_alive member
    · exact (counted.member_alive member).2
  | store owner b =>
    obtain ⟨member,other⟩ := allowed
    refine counted.carries _ _ (counted.held_alive (List.mem_of_mem_erase other)) ?_
    intro a
    have some_ := List.count_pos_iff.mpr member
    rw [List.count_append,List.count_erase,List.count_singleton]
    by_cases here : b = a
    · subst here
      rw [beq_self_eq_true,if_pos rfl]
      omega
    · have other : (b == a) = false := by simpa using here
      rw [other,if_neg Bool.false_ne_true]
      omega
  | take owner b =>
    obtain ⟨held,member⟩ := allowed
    refine counted.carries _ _ (counted.held_alive held) ?_
    intro a
    have some_ := List.count_pos_iff.mpr member
    rw [List.count_cons,List.count_erase]
    by_cases here : b = a
    · subst here
      rw [beq_self_eq_true,if_pos rfl]
      omega
    · have other : (b == a) = false := by simpa using here
      rw [other,if_neg Bool.false_ne_true]
      omega
  | drop t b =>
    obtain ⟨within,member,ready⟩ := allowed
    exact (counted.lets member).dec within ready
  | step t => exact counted.step allowed.1

theorem reached_counted (path : Reached (heapSystem threads) s) : Counted threads [] s := by
  refine reached_invariant (Counted threads []) ?_ (fun _ _ counted allowed => apply_counted counted allowed) path
  intro s begun
  rw [show s = {} from begun]
  refine ⟨fun _ => rfl,fun _ _ => ⟨rfl,rfl⟩,fun _ => .resting,fun _ _ => rfl,?_,nofun,?_⟩
  · intro b
    rw [if_neg (fun both => Nat.not_lt_zero _ both.1)]
    exact Nat.add_eq_zero_iff.mpr ⟨tally_zero.mpr (fun _ _ => rfl),rfl⟩
  · intro b
    exact (Nat.add_eq_zero_iff.mpr ⟨tally_zero.mpr (fun _ _ => rfl),rfl⟩).symm

theorem begun_le (shape : Shape u) (b : Nat) : u.begun.count b ≤ u.doomed.count b := by
  have part : u.begun.Sublist u.doomed := by
    refine List.Sublist.trans ?_ (List.sublist_append_left _ _)
    cases shape with
    | nested => exact .cons _ (.refl _)
    | destroying => exact .refl _
    | _ => exact List.nil_sublist _
  exact part.count_le b

-- What a thread's calls have yet to do, at most.
def weight (u : Unwinder) : Nat :=
  (u.stack.map (fun frame => match frame with | .pushing _ => 4 | .draining _ => 1 | .destroying _ => 1)).sum+
    2*(u.items.drop (headOf u.stack)).length

def work (s : Heap) (t : Nat) : Nat := 5*tally s.next (fun _ list => list.length) s.members+weight (s.threads t)

theorem work_setThread (s : Heap) (t : Nat) (u : Unwinder) :
    work (s.setThread t u) t = 5*tally s.next (fun _ list => list.length) s.members+weight u := by
  unfold work
  rw [show (s.setThread t u).threads t = u from Function.update_self ..]
  rfl

theorem weight_dec (s : Heap) (t b : Nat) : work (s.intrusiveDec t b) t ≤ work s t+4 := by
  unfold Heap.intrusiveDec
  dsimp only
  split
  · exact Nat.le_add_right _ _
  · rw [work_setThread]
    unfold work weight
    rw [List.map_cons,List.sum_cons]
    change _+(4+_+2*((s.threads t).items.drop (headOf (s.threads t).stack)).length) ≤ _
    dsimp only
    omega

theorem Counted.works (counted : Counted threads [] s) (within : t < threads) (busy : (s.threads t).stack ≠ []) :
    work (s.step t) t < work s t := by
  have shape := counted.shapes t
  have doomed := fun b => counted.destroying (b := b) within
  have now : work s t = 5*tally s.next (fun _ list => list.length) s.members+weight (s.threads t) := rfl
  unfold Heap.step
  dsimp only
  generalize here : s.threads t = u at shape busy doomed now
  cases shape with
  | resting => exact absurd rfl busy
  | pushing =>
    dsimp only
    rw [if_neg Bool.false_ne_true,work_setThread,now]
    refine Nat.add_lt_add_left ?_ _
    change 1+0+2*1 < 4+0+2*0
    decide
  | @nested head items cap m b bound =>
    dsimp only
    rw [if_pos rfl,work_setThread,now]
    refine Nat.add_lt_add_left ?_ _
    change 1+(1+0)+2*((items++[m]).drop head).length < 4+(1+(1+0))+2*(items.drop head).length
    rw [List.length_drop,List.length_drop,List.length_append,List.length_singleton]
    omega
  | @draining head items cap bound =>
    dsimp only
    cases item : items[head]? with
    | none =>
      rw [work_setThread,now]
      refine Nat.add_lt_add_left ?_ _
      change 0 < 1+0+2*(items.drop head).length
      omega
    | some b =>
      obtain ⟨inside,-⟩ := List.getElem?_eq_some_iff.mp item
      rw [work_setThread,now]
      refine Nat.add_lt_add_left ?_ _
      change 1+(1+0)+2*(items.drop (head+1)).length < 1+0+2*(items.drop head).length
      rw [List.length_drop,List.length_drop]
      omega
  | @destroying head items cap b bound =>
    dsimp only
    cases owns : s.members b with
    | nil =>
      rw [work_setThread,now]
      refine Nat.add_lt_add_left ?_ _
      change 1+0+2*(items.drop head).length < 1+(1+0)+2*(items.drop head).length
      omega
    | cons m more =>
      have inside := (doomed b (by exact List.mem_cons_self)).1
      have moved := tally_update (fun _ list => list.length) s.members more inside
      rw [owns] at moved
      change _+(more.length+1) = _+more.length at moved
      dsimp only
      have after := weight_dec (s.setMembers b more) t m
      have before : work (s.setMembers b more) t =
          5*tally s.next (fun _ list => list.length) (Function.update s.members b more)+weight (s.threads t) := rfl
      rw [here] at before
      omega

-- A thread comes out of its calls by its own steps.
theorem Counted.unwinds (counted : Counted threads [] s) (within : t < threads) :
    ∃ n u, Runs (heapSystem threads) s (List.replicate n (.step t)) u ∧ (u.threads t).stack = [] := by
  generalize most : work s t = k
  induction k using Nat.strongRecOn generalizing s with
  | ind k ih =>
    by_cases busy : (s.threads t).stack = []
    · exact ⟨0,s,.nil,busy⟩
    · have may : (heapSystem threads).allowed s (.step t) := ⟨within,busy⟩
      obtain ⟨n,u,run,rests⟩ := ih _ (most ▸ counted.works within busy) (counted.step within) rfl
      refine ⟨n+1,u,?_,rests⟩
      rw [List.replicate_succ]
      exact (Runs.step .nil may : Runs (heapSystem threads) s [.step t] _).append run

-- With nobody holding or destroying anything a block that is left has an owner
-- that is left.
theorem Counted.kept (counted : Counted threads [] s) (held : s.held = []) (rest : ∀ t, (s.threads t).stack = [])
    (inside : b < s.next) (left : b ∉ s.freed) : ∃ owner, b ∈ s.members owner ∧ owner < s.next ∧ owner ∉ s.freed := by
  have quiet : s.doomed threads b = 0 := by
    refine tally_zero.mpr ?_
    intro t _
    have shape := counted.shapes t
    have bare := rest t
    generalize s.threads t = u at shape bare
    cases shape with
    | resting => rfl
    | _ => cases bare
  have placed := counted.placed b
  rw [quiet,List.count_eq_zero.mpr left] at placed
  have some_ : s.refcount b ≠ 0 := by
    intro zero
    rw [if_pos ⟨inside,zero⟩] at placed
    cases placed
  have counts := counted.counts b
  rw [held] at counts
  change _ = 0+_+0 at counts
  have owners : ¬ s.owned b = 0 := by omega
  unfold Heap.owned at owners
  rw [tally_zero] at owners
  push Not at owners
  obtain ⟨owner,known,member⟩ := owners
  have mine : b ∈ s.members owner := List.count_pos_iff.mp (Nat.pos_of_ne_zero member)
  refine ⟨owner,mine,known,?_⟩
  intro gone
  rw [counted.emptied owner gone] at mine
  cases mine

end Steps

-- In any interleaving of threads the count of a block is its number of handles; who
-- has a handle has a block whose destruction has not begun, and no block is
-- destroyed twice.
theorem ownership_exact (path : Reached (heapSystem threads) s) :
    (∀ b, s.refcount b = s.held.count b+s.owned b) ∧
      (∀ b, b ∈ s.held ∨ (∃ owner, b ∈ s.members owner) → b < s.next ∧ b ∉ s.destroys) ∧
      s.destroys.Nodup ∧ s.freed.Nodup ∧ ∀ b ∈ s.freed, b ∈ s.destroys := by
  have counted := reached_counted path
  have begun : ∀ b, s.begun threads b ≤ s.doomed threads b := fun b => tally_mono (fun t _ => begun_le (counted.shapes t) b)
  have most : ∀ b, s.doomed threads b+s.freed.count b ≤ 1 := by
    intro b
    rw [counted.placed b]
    split <;> omega
  refine ⟨counted.counts,?_,?_,?_,?_⟩
  · intro b handle
    have some_ : 0 < s.refcount b := by
      rcases handle with member | ⟨owner,member⟩
      · exact counted.held_alive member
      · exact (counted.member_alive member).2
    obtain ⟨inside,undoomed,unfreed⟩ := counted.alive some_
    have started := counted.started b
    have less := begun b
    exact ⟨inside,List.count_eq_zero.mp (by omega)⟩
  · refine List.nodup_iff_count_le_one.mpr ?_
    intro b
    have started := counted.started b
    have less := begun b
    have once := most b
    omega
  · refine List.nodup_iff_count_le_one.mpr ?_
    intro b
    have once := most b
    omega
  · intro b member
    have started := counted.started b
    have some_ := List.count_pos_iff.mpr member
    exact List.count_pos_iff.mp (by omega)

-- However long the chain of blocks that own one another, a thread that destroys it
-- is never more than three calls deep and comes out; and when no handle is left
-- outside of blocks, blocks that own no other in a circle are all freed.
theorem destruction_unwinds (path : Reached (heapSystem threads) s) :
    (∀ t, (s.threads t).stack.length ≤ 3) ∧
      (∀ t, t < threads → ∃ n u, Runs (heapSystem threads) s (List.replicate n (.step t)) u ∧ (u.threads t).stack = []) ∧
      (s.held = [] → (∀ t, (s.threads t).stack = []) → ∀ rank : Nat → Nat,
        (∀ owner, ∀ b ∈ s.members owner, rank b < rank owner) → ∀ b, b < s.next → b ∈ s.freed) := by
  have counted := reached_counted path
  refine ⟨?_,fun t within => counted.unwinds within,?_⟩
  · intro t
    have shape := counted.shapes t
    generalize s.threads t = u at shape
    cases shape <;> simp
  · intro held rest rank down b inside
    by_contra left
    let kept := (Finset.range s.next).filter (· ∉ s.freed)
    obtain ⟨top,member,most⟩ := Finset.exists_max_image kept rank ⟨b,Finset.mem_filter.mpr ⟨Finset.mem_range.mpr inside,left⟩⟩
    obtain ⟨known,standing⟩ := Finset.mem_filter.mp member
    obtain ⟨owner,owns,there,alive⟩ := counted.kept held rest (Finset.mem_range.mp known) standing
    have above := most owner (Finset.mem_filter.mpr ⟨Finset.mem_range.mpr there,alive⟩)
    have below := down owner top owns
    omega

-- A chain of three blocks with two handles on its last, let go of by two threads.
def chainRun : List HeapAction :=
  [HeapAction.make [],.make [0],.make [1],.copy 2 1,.drop 0 2,.drop 1 2]++List.replicate 12 (HeapAction.step 1)

theorem ownership_exact_chain :
    let s := (heapSystem 2).follow {} chainRun
    s.freed = [2,1,0] ∧ s.destroys.Nodup ∧ ∀ b, s.refcount b = s.held.count b+s.owned b := by
  have reached : Reached (heapSystem 2) ((heapSystem 2).follow {} chainRun) := reached_follow (.start rfl) (by decide +kernel)
  obtain ⟨counts,-,once,-,-⟩ := ownership_exact reached
  exact ⟨by decide +kernel,once,counts⟩

theorem destruction_unwinds_chain :
    let s := (heapSystem 2).follow {} (chainRun.take 9)
    (s.threads 1).stack = [.pushing 1,.destroying 2,.draining 1] ∧
      ∃ n u, Runs (heapSystem 2) s (List.replicate n (.step 1)) u ∧ (u.threads 1).stack = [] := by
  have reached : Reached (heapSystem 2) ((heapSystem 2).follow {} (chainRun.take 9)) := reached_follow (.start rfl) (by decide +kernel)
  exact ⟨by decide +kernel,(destruction_unwinds reached).2.1 1 (by decide)⟩

end Macrame.TaskOwnership

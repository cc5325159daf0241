import Macrame.StoreLaws

namespace Macrame
open Machines Rings Custodies TwoEnded

namespace Mpmc

def Dry (q : Mpmc T) : Prop := q.dequeuePos = q.enqueuePos

-- The cell of a position already drawn shows a later one.
theorem RingInv.seq_passed {q : Mpmc T} (inv : q.RingInv capacity) (behind : pos < q.dequeuePos) :
    pos < q.seq (cell capacity pos) := by
  have positive := roundPow2_pos capacity
  -- the position of the lap from `dequeue_pos_` on that shares the cell
  obtain ⟨p,same,above,below⟩ : ∃ p, cell capacity p = cell capacity pos ∧ q.dequeuePos ≤ p ∧
      p < q.dequeuePos+roundPow2 capacity := by
    have reach : ∀ k, q.dequeuePos-pos ≤ k*roundPow2 capacity → ∃ p, cell capacity p = cell capacity pos ∧
        q.dequeuePos ≤ p ∧ p < q.dequeuePos+roundPow2 capacity := by
      intro k
      induction k with
      | zero => intro near; omega
      | succ k ih =>
        intro near
        by_cases nearer : q.dequeuePos-pos ≤ k*roundPow2 capacity
        · exact ih nearer
        · have laps : ∀ m, cell capacity (pos+m*roundPow2 capacity) = cell capacity pos := by
            intro m
            induction m with
            | zero => rw [Nat.zero_mul,Nat.add_zero]
            | succ m ih =>
              rw [Nat.succ_mul,← Nat.add_assoc,cell_lap]
              exact ih
          refine ⟨pos+(k+1)*roundPow2 capacity,laps (k+1),by omega,?_⟩
          rw [Nat.succ_mul]
          omega
    exact reach (q.dequeuePos-pos) (Nat.le_mul_of_pos_right _ positive)
  have lap : pos+roundPow2 capacity ≤ p := by
    by_contra near
    exact cell_ne (Nat.lt_of_lt_of_le behind above) (by omega) same.symm
  rw [← same]
  by_cases filled : p < q.enqueuePos
  · rcases inv.filled p above filled with ⟨ready,-⟩ | ⟨j,writing⟩
    · omega
    · have mine := (inv.writer writing).2.2
      omega
  · rcases inv.spare p (Nat.le_of_not_lt filled) below with free | ⟨j,r,emptying,after⟩
    · omega
    · have mine := (inv.reader emptying).2.2
      rw [after,cell_lap,mine]
      omega

-- A probe that finds nothing at the head: the ring is empty, or the push that
-- has claimed the head has not published it.
theorem RingInv.head_missing {q : Mpmc T} (inv : q.RingInv capacity) (loaded : pos ≤ q.dequeuePos)
    (early : q.seq (cell capacity pos) < pos+1) : q.Dry ∨ ∃ j, (q.thread j).writes = some q.dequeuePos := by
  have current : pos = q.dequeuePos := by
    by_contra stale
    have later := inv.seq_passed (Nat.lt_of_le_of_ne loaded stale)
    omega
  subst current
  by_cases dry : q.dequeuePos = q.enqueuePos
  · exact .inl dry
  · have order := inv.order
    rcases inv.filled q.dequeuePos (Nat.le_refl _) (by omega) with ⟨ready,-⟩ | writing
    · omega
    · exact .inr writing

-- A count of zero: the overflow is empty, or the push that has filled it has not
-- counted its item.
theorem SpillInv.uncounted {q : Mpmc T} (inv : q.SpillInv) (zero : q.overflowCount = 0) :
    q.overflow = [] ∨ ∃ j, (q.thread j).pushing = true := by
  cases held : q.overflowMutex with
  | none => exact .inl (List.eq_nil_of_length_eq_zero ((inv.counted held).symm.trans zero))
  | some j =>
    have count := inv.counting j held
    cases at_ : q.thread j with
    | spillCounting => exact .inr ⟨j,by rw [at_]; rfl⟩
    | _ =>
      rw [at_,zero] at count
      simp only [MpmcAt.uncounted,MpmcAt.overcounted] at count
      exact .inl (List.eq_nil_of_length_eq_zero (by omega))

end Mpmc

theorem MpmcAt.pushing_of_writes {m : MpmcAt T} (writing : m.writes = some p) : m.pushing = true := by
  cases m <;> first | rfl | cases writing

-- How far a pop has come: it has found the ring empty, and then the overflow.
def MpmcAt.ringSeen : MpmcAt T → Bool
  | .overflowChecking => true
  | .overflowLocking => true
  | .overflowTaking => true
  | .overflowLeaving none => true
  | _ => false

def MpmcAt.spillSeen : MpmcAt T → Bool
  | .overflowLeaving none => true
  | _ => false

namespace Mpmc

structure Searched (q : Mpmc T) (m : MpmcAt T) : Prop where
  ring : m.ringSeen = true → q.Dry
  spill : m.spillSeen = true → q.overflow = []

-- One access of a pop, for the others: it only takes out.
structure Shrinks (q u : Mpmc T) : Prop where
  enqueue : u.enqueuePos = q.enqueuePos
  dequeue : q.dequeuePos ≤ u.dequeuePos
  spill : q.overflow = [] → u.overflow = []

theorem pop_shrinks {q : Mpmc T} (inv : q.Inv capacity) : Shrinks q (q.popStep capacity i fails) := by
  have known := inv.ring.threads i
  unfold popStep
  cases here : q.thread i with
  | dequeueProbing pos =>
    simp only
    split
    · exact ⟨rfl,Nat.le_refl _,id⟩
    · split
      · exact ⟨rfl,Nat.le_refl _,id⟩
      · exact ⟨rfl,Nat.le_refl _,id⟩
  | dequeueClaiming pos =>
    rw [here] at known
    simp only
    split
    · exact ⟨rfl,Nat.le_trans (Nat.le_of_eq ‹_ ∧ _›.1) (Nat.le_succ pos),id⟩
    · exact ⟨rfl,Nat.le_refl _,id⟩
  | overflowChecking =>
    simp only
    split
    · exact ⟨rfl,Nat.le_refl _,id⟩
    · exact ⟨rfl,Nat.le_refl _,id⟩
  | overflowTaking =>
    simp only
    split
    · exact ⟨rfl,Nat.le_refl _,id⟩
    · rename_i full
      refine ⟨rfl,Nat.le_refl _,?_⟩
      intro empty
      rw [full] at empty
      cases empty
  | overflowLeaving out => cases out <;> exact ⟨rfl,Nat.le_refl _,id⟩
  | _ => exact ⟨rfl,Nat.le_refl _,id⟩

-- A pop that runs while nobody pushes finds out what it has searched.
theorem pop_searched {q : Mpmc T} (inv : q.Inv capacity) (alone : ∀ j, (q.thread j).pushing = false)
    (searched : q.Searched (q.thread i)) :
    (q.popStep capacity i fails).Searched ((q.popStep capacity i fails).thread i) := by
  have known := inv.ring.threads i
  have nothing : ∀ (u : Mpmc T) (next : MpmcAt T), next.ringSeen = false → next.spillSeen = false →
      (u.goes i next).Searched ((u.goes i next).thread i) := by
    intro u next ring spill
    rw [goes_self]
    exact ⟨fun seen => by (rw [ring] at seen; cases seen),fun seen => by (rw [spill] at seen; cases seen)⟩
  unfold popStep
  cases here : q.thread i with
  | dequeueProbing pos =>
    rw [here] at known
    simp only
    split
    · exact nothing q _ rfl rfl
    · split
      · rename_i early
        refine ⟨?_,by rw [goes_self]; exact nofun⟩
        intro _
        rcases inv.ring.head_missing known early with dry | ⟨j,writing⟩
        · exact dry
        · have pushing := MpmcAt.pushing_of_writes writing
          rw [alone j] at pushing
          cases pushing
      · exact nothing q _ rfl rfl
  | dequeueClaiming pos =>
    simp only
    split
    · exact nothing {q with dequeuePos := pos+1,drawn := q.drawn++[pos]} _ rfl rfl
    · exact nothing q _ rfl rfl
  | dequeueReleasing pos out =>
    exact nothing {q with seq := Function.update q.seq (cell capacity pos) (pos+mask capacity+1),
                          popped := q.popped++[(Source.ring pos,out)]} _ rfl rfl
  | overflowChecking =>
    simp only
    split
    · exact nothing q _ rfl rfl
    · refine ⟨fun _ => searched.ring (by rw [here]; rfl),?_⟩
      rw [goes_self]
      exact nofun
  | overflowLocking =>
    refine ⟨fun _ => searched.ring (by rw [here]; rfl),?_⟩
    rw [goes_self]
    exact nofun
  | overflowTaking =>
    simp only
    split
    · rename_i empty
      exact ⟨fun _ => searched.ring (by rw [here]; rfl),fun _ => empty⟩
    · rename_i out rest _
      exact nothing {q with overflow := rest,fished := q.fished+1} _ rfl rfl
  | overflowDiscounting n out =>
    exact nothing {q with overflowCount := q.overflowCount-1} _ rfl rfl
  | overflowLeaving out =>
    cases out with
    | none => exact nothing {q with overflowMutex := none} _ rfl rfl
    | some e => exact nothing {q with overflowMutex := none,popped := q.popped++[(Source.overflow e.1,e.2)]} _ rfl rfl
  | dequeueLoading => exact nothing q _ rfl rfl
  | dequeueReading pos => exact nothing q _ rfl rfl
  | _ => simp only [here]; exact ⟨nofun,nofun⟩

-- One that has come back without an entry has found everything empty.
theorem pop_empty {q : Mpmc T} (inv : q.Inv capacity) (alone : ∀ j, (q.thread j).pushing = false)
    (searched : q.Searched (q.thread i)) (popping : (q.thread i).pushing = false) (busy : q.thread i ≠ .idle)
    (back : (q.popStep capacity i fails).thread i = .idle) (without : (q.popStep capacity i fails).popped = q.popped) :
    (q.popStep capacity i fails).Dry ∧ (q.popStep capacity i fails).overflow = [] := by
  unfold popStep at back without ⊢
  cases here : q.thread i with
  | dequeueProbing pos =>
    simp only [here] at back
    split at back
    · rw [goes_self] at back
      cases back
    · split at back
      · rw [goes_self] at back
        cases back
      · rw [goes_self] at back
        cases back
  | dequeueClaiming pos =>
    simp only [here] at back
    split at back
    · rw [goes_self] at back
      cases back
    · rw [goes_self] at back
      cases back
  | dequeueReleasing pos out =>
    simp only [here] at without
    exact absurd without (fun same => by simpa [goes] using congrArg List.length same)
  | overflowChecking =>
    simp only [here] at back ⊢
    split at back
    · rename_i zero
      rw [if_pos zero]
      refine ⟨searched.ring (by rw [here]; rfl),?_⟩
      rcases inv.spill.uncounted zero with empty | ⟨j,pushing⟩
      · exact empty
      · rw [alone j] at pushing
        cases pushing
    · rw [goes_self] at back
      cases back
  | overflowTaking =>
    simp only [here] at back
    split at back
    · rw [goes_self] at back
      cases back
    · rw [goes_self] at back
      cases back
  | overflowLeaving out =>
    cases out with
    | none => exact ⟨searched.ring (by rw [here]; rfl),searched.spill (by rw [here]; rfl)⟩
    | some e =>
      simp only [here] at without
      exact absurd without (fun same => by simpa [goes] using congrArg List.length same)
  | dequeueLoading => simp only [here,goes_self] at back; cases back
  | dequeueReading pos => simp only [here,goes_self] at back; cases back
  | overflowLocking => simp only [here,goes_self] at back; cases back
  | overflowDiscounting n out => simp only [here,goes_self] at back; cases back
  | idle => exact absurd here busy
  | _ => rw [here] at popping; cases popping

end Mpmc
theorem Mpmc.Shrinks.dry {q u : Mpmc T} (shrinks : q.Shrinks u) (inv : u.RingInv capacity) (dry : q.Dry) : u.Dry := by
  have order := inv.order
  have enqueue := shrinks.enqueue
  have dequeue := shrinks.dequeue
  unfold Mpmc.Dry at dry ⊢
  omega

-- `empty` as the deque's own test has it.
def Deque.Bare (d : Deque T) : Prop := d.owner = .idle ∧ d.bottom ≤ d.top

-- A take that comes back without an item leaves an empty deque, and only its
-- owner can fill it again.
theorem Deque.take_bare {d : Deque Nat} (inv : d.Inv dequeCapacity) (serves : d.owner.Serves (some .take))
    (back : (d.apply dequeCapacity (d.nextOwner .take)).owner = .idle)
    (without : (d.apply dequeCapacity (d.nextOwner .take)).answered = d.answered) :
    (d.apply dequeCapacity (d.nextOwner .take)).Bare := by
  refine ⟨back,?_⟩
  have holds := inv.owner
  by_cases idle : d.owner = .idle
  · rw [nextOwner_idle idle] at back
    cases back
  · rw [nextOwner_busy idle] at back without ⊢
    change (d.ownerStep dequeCapacity).owner = .idle at back
    change (d.ownerStep dequeCapacity).answered = d.answered at without
    change (d.ownerStep dequeCapacity).bottom ≤ (d.ownerStep dequeCapacity).top
    have item : d.owner.item = none := by
      rcases serves with none | ⟨-,item⟩ | ⟨m,put,-⟩
      · exact absurd none idle
      · exact item
      · cases put
    unfold ownerStep at back without ⊢
    cases here : d.owner with
    | idle => exact absurd here idle
    | taking b => simp only [here] at back; cases back
    | checking b =>
      simp only [here] at back
      split at back
      · cases back
      · cases back
    | reading b t =>
      simp only [here] at back without
      split at without
      · rename_i last
        rw [if_pos last] at back
        cases back
      · exact absurd without (fun same => by simpa using congrArg List.length same)
    | racing b out =>
      simp only [here] at back
      split at back
      · cases back
      · cases back
    | restoring b out =>
      simp only [OwnerHolds,here] at holds
      change b+1 ≤ d.top
      omega
    | _ => rw [here] at item; cases item

theorem Deque.steal_bare {d : Deque Nat} (bare : d.Bare) : (d.apply dequeCapacity (d.nextThief i)).Bare := by
  refine ⟨Deque.steal_access.owner.trans bare.1,?_⟩
  have under := bare.2
  by_cases idle : d.thief i = .idle
  · rw [nextThief_idle idle]
    exact under
  · rw [nextThief_busy idle]
    change (d.thiefStep dequeCapacity i).bottom ≤ (d.thiefStep dequeCapacity i).top
    unfold thiefStep
    cases here : d.thief i with
    | idle => exact under
    | topped t =>
      simp only
      split
      · exact under
      · exact under
    | reading t => exact under
    | swapping t out =>
      simp only
      split
      · change d.bottom ≤ t+1
        omega
      · exact under

theorem Deque.Bare.stored {d : Deque T} (bare : d.Bare) : d.stored capacity = [] := by
  have under := bare.2
  have none : (d.bottom-d.top).toNat = 0 := by omega
  unfold Deque.stored
  rw [none]
  rfl

theorem Mpmc.Dry.stored {q : Mpmc T} (dry : q.Dry) (spent : q.overflow = []) : q.stored capacity = [] := by
  unfold Mpmc.Dry at dry
  unfold Mpmc.stored
  rw [dry,Nat.sub_self,spent]
  rfl

-- What has come in once goes out once.
theorem Mpmc.Inv.popped_once {q : Mpmc T} (inv : q.Inv capacity) (once : (q.pushed.map Prod.snd).Nodup) :
    (q.popped.map Prod.snd).Nodup := by
  refine List.Nodup.map_on ?_ (List.Nodup.of_map _ inv.custody.once)
  intro e one f two same
  exact List.inj_on_of_nodup_map once (inv.custody.sound e one) (inv.custody.sound f two) same

theorem Mpmc.Inv.popped_pushed {q : Mpmc T} (inv : q.Inv capacity) (out : v ∈ q.popped.map Prod.snd) :
    v ∈ q.pushed.map Prod.snd := by
  obtain ⟨e,member,rfl⟩ := List.mem_map.mp out
  exact List.mem_map_of_mem (inv.custody.sound e member)

theorem Mpmc.Inv.all_popped {q : Mpmc T} (inv : q.Inv capacity) (quiet : q.Quiet) (dry : q.Dry) (spent : q.overflow = [])
    (entered : v ∈ q.pushed.map Prod.snd) : v ∈ q.popped.map Prod.snd := by
  obtain ⟨e,member,rfl⟩ := List.mem_map.mp entered
  rcases inv.not_lost member with out | left | ⟨j,owing⟩
  · exact List.mem_map_of_mem out
  · rw [dry.stored spent] at left
    exact absurd left List.not_mem_nil
  · rw [quiet j] at owing
    cases owing

theorem Deque.Inv.answered_returned {d : Deque T} (inv : d.Inv capacity) (out : v ∈ d.answered) :
    ∃ r ∈ d.ledger.returned, r.value = v :=
  List.mem_map.mp (inv.answers.subset (List.mem_append_left _ out))

theorem Deque.Inv.answered_pushed {d : Deque T} (inv : d.Inv capacity) (out : v ∈ d.answered) : v ∈ d.ledger.pushed := by
  obtain ⟨r,member,rfl⟩ := inv.answered_returned out
  obtain ⟨n,-,value⟩ := inv.ledger.valued r member
  exact List.mem_of_getElem? value

-- The values that left are those at the numbers charged with them.
theorem returned_values {l : Ledger T} (valued : ∀ r ∈ returned, ∃ n, r.number = some n ∧ l.pushed[n]? = some r.value) :
    (returned.map (·.value)).map some = (numbers returned).map (fun n => l.pushed[n]?) := by
  induction returned with
  | nil => rfl
  | cons r rest ih =>
    obtain ⟨n,number,value⟩ := valued r List.mem_cons_self
    have tail := ih (fun r' member => valued r' (List.mem_cons_of_mem _ member))
    simp only [numbers,List.filterMap_cons,number,List.map_cons,value] at tail ⊢
    rw [tail]

theorem Deque.Inv.answered_once {d : Deque T} (inv : d.Inv capacity) (once : d.ledger.pushed.Nodup) :
    d.answered.Nodup := by
  have values : (d.ledger.returned.map (·.value)).Nodup := by
    refine List.Nodup.of_map some ?_
    rw [returned_values inv.ledger.valued]
    refine List.Nodup.map_on ?_ inv.ledger.once
    intro n one m two same
    have within := inv.ledger.returned_bound one
    exact (List.getElem?_inj within once).mp same
  exact (List.nodup_append.mp (inv.answers.nodup_iff.mpr values)).1

theorem Deque.Inv.all_answered {d : Deque T} (inv : d.Inv capacity) (bare : d.Bare) (entered : v ∈ d.ledger.pushed) :
    v ∈ d.answered := by
  have length := inv.length
  have answers := inv.answers
  have under := bare.2
  simp only [bare.1,OwnerAt.lead,OwnerAt.owed,List.append_nil] at length answers
  have none : d.ledger.present = [] := List.eq_nil_of_length_eq_zero (by omega)
  obtain ⟨n,value⟩ := List.mem_iff_getElem?.mp entered
  have conserved := inv.ledger.conserved
  rw [none,List.append_nil] at conserved
  have charged := conserved.symm.subset (List.mem_range.mpr (List.getElem?_eq_some_iff.mp value).1)
  obtain ⟨r,member,number⟩ := List.mem_filterMap.mp charged
  obtain ⟨m,same,found⟩ := inv.ledger.valued r member
  rw [number] at same
  cases same
  rw [value] at found
  cases found
  exact answers.symm.subset (List.mem_map_of_mem member)

theorem Mpmc.Shrinks.searched {q u : Mpmc T} (shrinks : q.Shrinks u) (inv : u.RingInv capacity) (searched : q.Searched at_) :
    u.Searched at_ :=
  ⟨fun seen => shrinks.dry inv (searched.ring seen),fun seen => shrinks.spill (searched.spill seen)⟩

theorem MpmcAt.Serves.popping {m : MpmcAt Nat} (serves : m.Serves p (some (.pop p))) : m.pushing = false := by
  rcases serves with idle | ⟨-,popping⟩ | ⟨n,push,-⟩
  · rw [idle]
    rfl
  · exact popping
  · cases push

theorem Mpmc.pushStep_dequeue (q : Mpmc T) (i : Nat) (fails : Bool) :
    (q.pushStep capacity i fails).dequeuePos = q.dequeuePos := by
  unfold pushStep
  cases q.thread i <;> simp only <;> (try split) <;> (try split) <;> rfl

theorem Mpmc.popStep_next {q : Mpmc Nat} (serves : (q.thread i).Serves p (some (.pop p))) (busy : q.thread i ≠ .idle) :
    q.apply capacity (q.next i (.pop i) fails) = q.popStep capacity i fails := by
  rw [next_busy busy]
  change (if (q.thread i).pushing then _ else _) = _
  rw [serves.popping]
  rfl

namespace Stores

theorem access_queue {s : Stores} (property : Mpmc Nat → Prop)
    (pop : call = .pop p → property ((s.queues p).apply queueCapacity ((s.queues p).next i (.pop i) fails)))
    (push : ∀ n, call = .push p n →
      property ((s.queues p).apply queueCapacity ((s.queues p).next i (.push i n) fails)))
    (same : property (s.queues p)) : property ((s.access i fails call).queues p) := by
  have at_p : ∀ q u, (q = p → property u) → property (Function.update s.queues q u p) := by
    intro q u held
    by_cases equal : p = q
    · rw [equal,Function.update_self]
      exact held equal.symm
    · rw [Function.update_of_ne equal]
      exact same
  cases call with
  | pop q => exact at_p q _ (fun equal => by subst equal; exact pop rfl)
  | push q n => exact at_p q _ (fun equal => by subst equal; exact push n rfl)
  | _ => exact same

-- What a call that pushes nothing into a queue leaves there.
theorem access_shrinks {s : Stores} (fails : Bool) (inv : s.Inv) (serves : s.Serves i (some call)) (calls : ∀ n, call ≠ .push p n) :
    (s.queues p).Shrinks ((s.access i fails call).queues p) := by
  refine access_queue (Mpmc.Shrinks (s.queues p)) ?_ (fun n push => absurd push (calls n)) ⟨rfl,Nat.le_refl _,id⟩
  intro pop
  subst pop
  by_cases idle : (s.queues p).thread i = .idle
  · rw [Mpmc.next_idle idle]
    exact ⟨rfl,Nat.le_refl _,id⟩
  · rw [Mpmc.popStep_next (serves.queues p) idle]
    exact Mpmc.pop_shrinks (inv.queues p)

theorem access_dequeue {s : Stores} (inv : s.Inv) (p : Priority) :
    (s.queues p).dequeuePos ≤ ((s.access i fails call).queues p).dequeuePos := by
  have step : ∀ (first : MpmcAction Nat), ((s.queues p).apply queueCapacity first).dequeuePos = (s.queues p).dequeuePos →
      (s.queues p).dequeuePos ≤ ((s.queues p).apply queueCapacity ((s.queues p).next i first fails)).dequeuePos := by
    intro first begins
    by_cases idle : (s.queues p).thread i = .idle
    · rw [Mpmc.next_idle idle,begins]
    · rw [Mpmc.next_busy idle]
      simp only [Mpmc.apply]
      split
      · rw [Mpmc.pushStep_dequeue]
      · exact (Mpmc.pop_shrinks (inv.queues p)).dequeue
  exact access_queue (fun q => (s.queues p).dequeuePos ≤ q.dequeuePos) (fun _ => step _ rfl) (fun _ _ => step _ rfl)
    (Nat.le_refl _)

def Pushless (s : Stores) : Prop := ∀ p j, ((s.queues p).thread j).pushing = false

def Searched (s : Stores) (j : ThreadId) : Prop := ∀ p, (s.queues p).Searched ((s.queues p).thread j)

def Vacant (s : Stores) (p : Priority) : Prop := (s.queues p).Dry ∧ (s.queues p).overflow = []

theorem access_vacant {s : Stores} (inv : s.Inv) (ready : s.Ready i call) (serves : s.Serves i (some call))
    (calls : ∀ n, call ≠ .push p n) (vacant : s.Vacant p) : (s.access i fails call).Vacant p := by
  have shrinks := access_shrinks fails inv serves calls
  exact ⟨shrinks.dry ((access_inv inv ready).queues p).ring vacant.1,shrinks.spill vacant.2⟩

theorem access_searched {s : Stores} (inv : s.Inv) (ready : s.Ready i call) (serves : s.Serves i (some call))
    (calls : ∀ p n, call ≠ .push p n) (alone : s.Pushless) (searched : s.Searched j) :
    (s.access i fails call).Searched j := by
  intro p
  have after : ((s.access i fails call).queues p).RingInv queueCapacity := ((access_inv inv ready).queues p).ring
  have shrinks := access_shrinks fails inv serves (calls p)
  by_cases other : j = i
  · subst other
    refine access_queue (fun q => q.Searched (q.thread j)) ?_ (fun n push => absurd push (calls p n)) (searched p)
    intro pop
    subst pop
    by_cases idle : (s.queues p).thread j = .idle
    · rw [Mpmc.next_idle idle]
      refine ⟨?_,?_⟩
      · intro seen
        simp only [Mpmc.apply,Mpmc.goes_self] at seen
        cases seen
      · intro seen
        simp only [Mpmc.apply,Mpmc.goes_self] at seen
        cases seen
    · rw [Mpmc.popStep_next (serves.queues p) idle]
      exact Mpmc.pop_searched (inv.queues p) (alone p) (searched p)
  · have same : ((s.access i fails call).queues p).thread j = (s.queues p).thread j := by
      refine access_queue (fun q => q.thread j = (s.queues p).thread j) (fun _ => ?_) (fun n push => absurd push (calls p n)) rfl
      exact Mpmc.next_other other _ (Mpmc.goes_other _ _ other)
    rw [same]
    exact shrinks.searched after (searched p)

-- A pop that comes back without an entry while nobody pushes.
theorem pop_none {s : Stores} (inv : s.Inv) (serves : s.Serves i (some (.pop p))) (alone : s.Pushless)
    (searched : s.Searched i) (back : s.answer (s.access i fails (.pop p)) i (.pop p) = some none) :
    (s.access i fails (.pop p)).Vacant p := by
  have there : (s.access i fails (.pop p)).queues p =
      (s.queues p).apply queueCapacity ((s.queues p).next i (.pop i) fails) := Function.update_self ..
  have step := Mpmc.pop_access fails (serves.queues p)
  rw [← there] at step
  simp only [answer] at back
  split at back
  · rename_i idle
    have idle := MpmcAt.isIdle_iff.mp idle
    have without : ((s.access i fails (.pop p)).queues p).popped = (s.queues p).popped := by
      rcases step.leaves with same | ⟨e,grown,-⟩
      · exact same
      · rw [grown,List.getElem?_concat_length] at back
        cases back
    unfold Vacant
    rw [there] at idle without ⊢
    by_cases begun : (s.queues p).thread i = .idle
    · rw [Mpmc.next_idle begun] at idle
      simp only [Mpmc.apply,Mpmc.goes_self] at idle
      cases idle
    · rw [Mpmc.popStep_next (serves.queues p) begun] at idle without ⊢
      exact Mpmc.pop_empty (inv.queues p) (alone p) (searched p) (serves.queues p).popping begun idle without
  · cases back

-- A take that comes back without one.
theorem take_none {s : Stores} (inv : s.Inv) (serves : s.Serves i (some .take))
    (back : s.answer (s.access i fails .take) i .take = some none) : ((s.access i fails .take).deques i).Bare := by
  have there : (s.access i fails .take).deques i =
      (s.deques i).apply dequeCapacity ((s.deques i).nextOwner .take) := Function.update_self ..
  have step := Deque.take_access serves.owner
  rw [← there] at step
  simp only [answer] at back
  split at back
  · rename_i idle
    have without : ((s.access i fails .take).deques i).answered = (s.deques i).answered := by
      rcases step.leaves with same | ⟨n,grown,-⟩
      · exact same
      · rw [grown,List.getElem?_concat_length] at back
        cases back
    have idle := OwnerAt.isIdle_iff.mp idle
    rw [there] at idle without ⊢
    exact Deque.take_bare (inv.deques i) serves.owner idle without
  · cases back

theorem access_bare {s : Stores} (bare : (s.deques v).Bare) (takes : call = .take → i ≠ v)
    (puts : ∀ n, call = .put n → i ≠ v) : ((s.access i fails call).deques v).Bare := by
  have at_v : ∀ w u, (w = v → u.Bare) → (Function.update s.deques w u v).Bare := by
    intro w u held
    by_cases equal : v = w
    · rw [equal,Function.update_self]
      exact held equal.symm
    · rw [Function.update_of_ne equal]
      exact bare
  cases call with
  | take => exact at_v i _ (fun equal => absurd equal (takes rfl))
  | put n => exact at_v i _ (fun equal => absurd equal (puts n rfl))
  | steal w => exact at_v w _ (fun equal => by subst equal; exact Deque.steal_bare bare)
  | _ => exact bare

end Stores
end Macrame

import Macrame.PoolStores

namespace Macrame
open Machines Rings Custodies TwoEnded

namespace Mpmc

theorem next_idle {q : Mpmc T} (idle : q.thread i = .idle) : q.next i first fails = first := by
  unfold next
  rw [idle]

theorem next_busy {q : Mpmc T} (busy : q.thread i ≠ .idle) : q.next i first fails = .step i fails := by
  unfold next
  cases at_ : q.thread i <;> first | rfl | exact absurd at_ busy

-- Only the thread that makes the access moves.
theorem pushStep_other {q : Mpmc T} (other : j ≠ i) : (q.pushStep capacity i fails).thread j = q.thread j := by
  unfold pushStep
  cases q.thread i <;> simp only <;> (try split) <;> (try split) <;> first | rfl | exact goes_other _ _ other

theorem popStep_other {q : Mpmc T} (other : j ≠ i) : (q.popStep capacity i fails).thread j = q.thread j := by
  unfold popStep
  cases at_ : q.thread i with
  | overflowLeaving out => cases out <;> exact goes_other _ _ other
  | _ => simp only <;> (try split) <;> (try split) <;> first | rfl | exact goes_other _ _ other

theorem step_other {q : Mpmc T} (other : j ≠ i) : (q.apply capacity (.step i fails)).thread j = q.thread j := by
  change (if (q.thread i).pushing then q.pushStep capacity i fails else q.popStep capacity i fails).thread j = _
  split
  · exact pushStep_other other
  · exact popStep_other other

theorem next_other {q : Mpmc T} (other : j ≠ i) (first : MpmcAction T)
    (begins : (q.apply capacity first).thread j = q.thread j) :
    (q.apply capacity (q.next i first fails)).thread j = q.thread j := by
  by_cases idle : q.thread i = .idle
  · rw [next_idle idle]
    exact begins
  · rw [next_busy idle]
    exact step_other other

theorem next_allowed {q : Mpmc T} (ready : (q.thread i).locking = true → q.overflowMutex = none)
    (begins : q.thread i = .idle → q.Allowed first) : q.Allowed (q.next i first fails) := by
  by_cases idle : q.thread i = .idle
  · rw [next_idle idle]
    exact begins idle
  · rw [next_busy idle]
    exact ⟨idle,ready⟩

-- One access of a push: the item comes in by exactly one of them.
structure Pushed (q u : Mpmc Nat) (i : Nat) (p : Priority) (n : Nat) : Prop where
  serves : (u.thread i).Serves p (some (.push p n))
  popped : u.popped = q.popped
  enters : (u.pushed = q.pushed ∧ if (u.thread i).isIdle then (q.thread i).spilled = true
      else (u.thread i).spilled = (q.thread i).spilled) ∨
    ∃ src, u.pushed = q.pushed++[(src,n)] ∧ (q.thread i).spilled = false ∧
      ((u.thread i).isIdle = false → (u.thread i).spilled = true)

theorem push_access {q : Mpmc Nat} (fails : Bool) (serves : (q.thread i).Serves p (some (.push p n))) :
    Pushed q (q.apply queueCapacity (q.next i (.push i n) fails)) i p n := by
  have moves : ∀ (u : Mpmc Nat) (next : MpmcAt Nat), u.popped = q.popped → u.pushed = q.pushed →
      next.isIdle = false → next.pushing = true → next.spilled = (q.thread i).spilled →
      (next.spilled = false → next.item = some n) → Pushed q (u.goes i next) i p n := by
    intro u next popped pushed busy pushing same item
    refine ⟨?_,popped,.inl ⟨pushed,?_⟩⟩
    · rw [goes_self]
      exact .inr (.inr ⟨n,rfl,pushing,item⟩)
    · rw [goes_self,busy]
      exact same
  by_cases idle : q.thread i = .idle
  · rw [next_idle idle]
    exact moves q _ rfl rfl rfl rfl (by rw [idle]; rfl) (fun _ => rfl)
  · rw [next_busy idle]
    obtain ⟨pushing,item⟩ : (q.thread i).pushing = true ∧ ((q.thread i).spilled = false → (q.thread i).item = some n) := by
      rcases serves with none | ⟨pop,-⟩ | ⟨m,same,pushing,item⟩
      · exact absurd none idle
      · cases pop
      · cases same
        exact ⟨pushing,item⟩
    simp only [Mpmc.apply,pushing,if_true]
    unfold pushStep
    cases here : q.thread i with
    | enqueueLoading v =>
      rw [here] at item
      cases item rfl
      exact moves q _ rfl rfl rfl rfl (by rw [here]; rfl) (fun _ => rfl)
    | enqueueProbing v pos =>
      rw [here] at item
      cases item rfl
      simp only
      split
      · exact moves q _ rfl rfl rfl rfl (by rw [here]; rfl) (fun _ => rfl)
      · split
        · exact moves q _ rfl rfl rfl rfl (by rw [here]; rfl) (fun _ => rfl)
        · exact moves q _ rfl rfl rfl rfl (by rw [here]; rfl) (fun _ => rfl)
    | enqueueClaiming v pos =>
      rw [here] at item
      cases item rfl
      simp only
      split
      · exact moves {q with enqueuePos := pos+1} _ rfl rfl rfl rfl (by rw [here]; rfl) (fun _ => rfl)
      · exact moves q _ rfl rfl rfl rfl (by rw [here]; rfl) (fun _ => rfl)
    | enqueueWriting v pos =>
      rw [here] at item
      cases item rfl
      exact moves {q with data := Function.update q.data (cell queueCapacity pos) n} _ rfl rfl rfl rfl
        (by rw [here]; rfl) (fun _ => rfl)
    | enqueuePublishing v pos =>
      rw [here] at item
      cases item rfl
      refine ⟨.inl (goes_self ..),rfl,.inr ⟨.ring pos,rfl,by rw [here]; rfl,?_⟩⟩
      rw [goes_self]
      exact nofun
    | spillLocking v =>
      rw [here] at item
      cases item rfl
      exact moves {q with overflowMutex := some i} _ rfl rfl rfl rfl (by rw [here]; rfl) (fun _ => rfl)
    | spillStoring v =>
      rw [here] at item
      cases item rfl
      refine ⟨?_,rfl,.inr ⟨.overflow q.spilled,rfl,by rw [here]; rfl,?_⟩⟩
      · rw [goes_self]
        exact .inr (.inr ⟨n,rfl,rfl,nofun⟩)
      · rw [goes_self]
        exact fun _ => rfl
    | spillCounting =>
      exact moves {q with overflowCount := q.overflowCount+1} _ rfl rfl rfl rfl (by rw [here]; rfl) nofun
    | spillLeaving =>
      refine ⟨.inl (goes_self ..),rfl,.inl ⟨rfl,?_⟩⟩
      rw [goes_self,here]
      rfl
    | _ => rw [here] at pushing; cases pushing

-- One access of a pop: it returns with an entry exactly when one comes out.
structure Popped (q u : Mpmc Nat) (i : Nat) (p : Priority) : Prop where
  serves : (u.thread i).Serves p (some (.pop p))
  pushed : u.pushed = q.pushed
  leaves : u.popped = q.popped ∨ ∃ e, u.popped = q.popped++[e] ∧ u.thread i = .idle

theorem pop_access {q : Mpmc Nat} (fails : Bool) (serves : (q.thread i).Serves p (some (.pop p))) :
    Popped q (q.apply queueCapacity (q.next i (.pop i) fails)) i p := by
  have moves : ∀ (u : Mpmc Nat) (next : MpmcAt Nat), u.popped = q.popped → u.pushed = q.pushed →
      next.pushing = false → Popped q (u.goes i next) i p := by
    intro u next popped pushed pushing
    refine ⟨?_,pushed,.inl popped⟩
    rw [goes_self]
    exact .inr (.inl ⟨rfl,pushing⟩)
  by_cases idle : q.thread i = .idle
  · rw [next_idle idle]
    exact moves q _ rfl rfl rfl
  · rw [next_busy idle]
    have popping : (q.thread i).pushing = false := by
      rcases serves with none | ⟨-,popping⟩ | ⟨m,push,-⟩
      · exact absurd none idle
      · exact popping
      · cases push
    simp only [Mpmc.apply,popping,Bool.false_eq_true,if_false]
    unfold popStep
    cases here : q.thread i with
    | dequeueLoading => exact moves q _ rfl rfl rfl
    | dequeueProbing pos =>
      simp only
      split
      · exact moves q _ rfl rfl rfl
      · split
        · exact moves q _ rfl rfl rfl
        · exact moves q _ rfl rfl rfl
    | dequeueClaiming pos =>
      simp only
      split
      · exact moves {q with dequeuePos := pos+1,drawn := q.drawn++[pos]} _ rfl rfl rfl
      · exact moves q _ rfl rfl rfl
    | dequeueReading pos => exact moves q _ rfl rfl rfl
    | dequeueReleasing pos out => exact ⟨.inl (goes_self ..),rfl,.inr ⟨_,rfl,goes_self ..⟩⟩
    | overflowChecking =>
      simp only
      split
      · exact moves q _ rfl rfl rfl
      · exact moves q _ rfl rfl rfl
    | overflowLocking => exact moves {q with overflowMutex := some i} _ rfl rfl rfl
    | overflowTaking =>
      simp only
      split
      · exact moves q _ rfl rfl rfl
      · rename_i out rest _
        exact moves {q with overflow := rest,fished := q.fished+1} _ rfl rfl rfl
    | overflowDiscounting m out => exact moves {q with overflowCount := q.overflowCount-1} _ rfl rfl rfl
    | overflowLeaving out =>
      cases out with
      | none => exact moves {q with overflowMutex := none} _ rfl rfl rfl
      | some e => exact ⟨.inl (goes_self ..),rfl,.inr ⟨_,rfl,goes_self ..⟩⟩
    | _ => exact ⟨serves,rfl,.inl rfl⟩

end Mpmc

namespace Deque

theorem nextOwner_idle {d : Deque T} (idle : d.owner = .idle) : d.nextOwner first = first := by
  unfold nextOwner
  rw [idle]

theorem nextOwner_busy {d : Deque T} (busy : d.owner ≠ .idle) : d.nextOwner first = .owner := by
  unfold nextOwner
  cases at_ : d.owner <;> first | rfl | exact absurd at_ busy

theorem nextThief_idle {d : Deque T} (idle : d.thief i = .idle) : d.nextThief i = .steal i := by
  unfold nextThief
  rw [idle]

theorem nextThief_busy {d : Deque T} (busy : d.thief i ≠ .idle) : d.nextThief i = .thief i := by
  unfold nextThief
  cases at_ : d.thief i <;> first | rfl | exact absurd at_ busy

theorem nextOwner_allowed {d : Deque T} (begins : d.owner = .idle → d.Allowed first) : d.Allowed (d.nextOwner first) := by
  by_cases idle : d.owner = .idle
  · rw [nextOwner_idle idle]
    exact begins idle
  · rw [nextOwner_busy idle]
    exact idle

theorem nextThief_allowed {d : Deque T} : d.Allowed (d.nextThief i) := by
  by_cases idle : d.thief i = .idle
  · rw [nextThief_idle idle]
    exact idle
  · rw [nextThief_busy idle]
    exact idle

theorem ownerStep_thief (d : Deque T) : (d.ownerStep capacity).thief = d.thief := by
  unfold ownerStep
  cases d.owner <;> simp only <;> (try split) <;> rfl

theorem nextOwner_thief {d : Deque T} (first : DequeAction T) (begins : (d.apply capacity first).thief = d.thief) :
    (d.apply capacity (d.nextOwner first)).thief = d.thief := by
  by_cases idle : d.owner = .idle
  · rw [nextOwner_idle idle]
    exact begins
  · rw [nextOwner_busy idle]
    exact ownerStep_thief d

-- One access of a put: it either keeps the item or hands it back.
structure Put (d u : Deque Nat) (n : Nat) : Prop where
  serves : u.owner.Serves (some (.put n))
  answered : u.answered = d.answered
  enters : (u.ledger.pushed = d.ledger.pushed ∧ (u.owner.isIdle = true → d.owner.refused = some n)) ∨
    (u.ledger.pushed = d.ledger.pushed++[n] ∧ u.owner.isIdle = true ∧ d.owner.refused = none)

theorem put_access {d : Deque Nat} (serves : d.owner.Serves (some (.put n))) :
    Put d (d.apply dequeCapacity (d.nextOwner (.push n))) n := by
  by_cases idle : d.owner = .idle
  · rw [nextOwner_idle idle]
    exact ⟨.inr (.inr ⟨n,rfl,rfl⟩),rfl,.inl ⟨rfl,nofun⟩⟩
  · rw [nextOwner_busy idle]
    have item : d.owner.item = some n := by
      rcases serves with none | ⟨take,-⟩ | ⟨m,same,item⟩
      · exact absurd none idle
      · cases take
      · cases same
        exact item
    change Put d (d.ownerStep dequeCapacity) n
    unfold ownerStep
    cases here : d.owner with
    | pushing m b =>
      rw [here] at item
      cases item
      simp only
      split
      · exact ⟨.inl rfl,rfl,.inl ⟨rfl,fun _ => by rw [here]; rfl⟩⟩
      · exact ⟨.inr (.inr ⟨n,rfl,rfl⟩),rfl,.inl ⟨rfl,nofun⟩⟩
    | filling m b =>
      rw [here] at item
      cases item
      exact ⟨.inr (.inr ⟨n,rfl,rfl⟩),rfl,.inl ⟨rfl,nofun⟩⟩
    | publishing m b =>
      rw [here] at item
      cases item
      exact ⟨.inl rfl,rfl,.inr ⟨rfl,rfl,by rw [here]; rfl⟩⟩
    | _ => rw [here] at item; cases item

-- One access of a take.
structure Taken (d u : Deque Nat) : Prop where
  serves : u.owner.Serves (some .take)
  pushed : u.ledger.pushed = d.ledger.pushed
  leaves : u.answered = d.answered ∨ ∃ n, u.answered = d.answered++[n] ∧ u.owner = .idle

theorem take_access {d : Deque Nat} (serves : d.owner.Serves (some .take)) :
    Taken d (d.apply dequeCapacity (d.nextOwner .take)) := by
  by_cases idle : d.owner = .idle
  · rw [nextOwner_idle idle]
    exact ⟨.inr (.inl ⟨rfl,rfl⟩),rfl,.inl rfl⟩
  · rw [nextOwner_busy idle]
    have item : d.owner.item = none := by
      rcases serves with none | ⟨-,item⟩ | ⟨m,put,-⟩
      · exact absurd none idle
      · exact item
      · cases put
    change Taken d (d.ownerStep dequeCapacity)
    unfold ownerStep
    cases here : d.owner with
    | idle => exact absurd here idle
    | taking b => exact ⟨.inr (.inl ⟨rfl,rfl⟩),rfl,.inl rfl⟩
    | checking b =>
      simp only
      split
      · exact ⟨.inr (.inl ⟨rfl,rfl⟩),rfl,.inl rfl⟩
      · exact ⟨.inr (.inl ⟨rfl,rfl⟩),rfl,.inl rfl⟩
    | reading b t =>
      simp only
      split
      · exact ⟨.inr (.inl ⟨rfl,rfl⟩),rfl,.inl rfl⟩
      · exact ⟨.inl rfl,rfl,.inr ⟨_,rfl,rfl⟩⟩
    | racing b out =>
      simp only
      split
      · exact ⟨.inr (.inl ⟨rfl,rfl⟩),rfl,.inl rfl⟩
      · exact ⟨.inr (.inl ⟨rfl,rfl⟩),rfl,.inl rfl⟩
    | restoring b out =>
      cases out with
      | none => exact ⟨.inl rfl,rfl,.inl (List.append_nil _)⟩
      | some n => exact ⟨.inl rfl,rfl,.inr ⟨n,rfl,rfl⟩⟩
    | _ => rw [here] at item; cases item

-- One access of a steal.
structure Stolen (d u : Deque Nat) (i : Nat) : Prop where
  owner : u.owner = d.owner
  others : ∀ j, j ≠ i → u.thief j = d.thief j
  pushed : u.ledger.pushed = d.ledger.pushed
  leaves : u.answered = d.answered ∨ ∃ n, u.answered = d.answered++[n] ∧ u.thief i = .idle

theorem steal_access {d : Deque Nat} : Stolen d (d.apply dequeCapacity (d.nextThief i)) i := by
  have others : ∀ (next : ThiefAt Nat) j, j ≠ i → Function.update d.thief i next j = d.thief j :=
    fun next j other => Function.update_of_ne other ..
  by_cases idle : d.thief i = .idle
  · rw [nextThief_idle idle]
    exact ⟨rfl,others _,rfl,.inl rfl⟩
  · rw [nextThief_busy idle]
    change Stolen d (d.thiefStep dequeCapacity i) i
    unfold thiefStep
    cases here : d.thief i with
    | idle => exact absurd here idle
    | topped t =>
      simp only
      split
      · exact ⟨rfl,others _,rfl,.inl rfl⟩
      · exact ⟨rfl,others _,rfl,.inl rfl⟩
    | reading t => exact ⟨rfl,others _,rfl,.inl rfl⟩
    | swapping t out =>
      simp only
      split
      · exact ⟨rfl,others _,rfl,.inr ⟨out,rfl,Function.update_self ..⟩⟩
      · exact ⟨rfl,others _,rfl,.inl rfl⟩

end Deque

theorem MpmcAt.isIdle_iff {m : MpmcAt T} : m.isIdle = true ↔ m = .idle := by
  cases m <;> simp [isIdle]

theorem OwnerAt.isIdle_iff {o : OwnerAt T} : o.isIdle = true ↔ o = .idle := by
  cases o <;> simp [isIdle]

theorem ThiefAt.isIdle_iff {t : ThiefAt T} : t.isIdle = true ↔ t = .idle := by
  cases t <;> simp [isIdle]

def StoreCall.fetches : StoreCall → Bool
  | .pop _ => true
  | .take => true
  | .steal _ => true
  | _ => false

namespace Stores

def Away (s : Stores) (i : ThreadId) : Prop :=
  (∀ p, (s.queues p).thread i = .idle) ∧ (s.deques i).owner = .idle ∧ ∀ v, (s.deques v).thief i = .idle

theorem Away.serves {s : Stores} (away : s.Away i) : s.Serves i asked :=
  ⟨fun p => .inl (away.1 p),.inl away.2.1,fun v => .inl (away.2.2 v)⟩

theorem Serves.away {s : Stores} (serves : s.Serves i none) : s.Away i := by
  refine ⟨?_,?_,?_⟩
  · intro p
    rcases serves.queues p with idle | ⟨call,-⟩ | ⟨n,call,-⟩
    · exact idle
    · cases call
    · cases call
  · rcases serves.owner with idle | ⟨call,-⟩ | ⟨n,call,-⟩
    · exact idle
    · cases call
    · cases call
  · intro v
    exact (serves.thieves v).resolve_right nofun

-- A call's thread stands in no container but the call's own.
theorem Serves.elsewhere {s : Stores} (serves : s.Serves i (some call))
    (here : match call with
      | .pop p => (s.queues p).thread i = .idle
      | .push p _ => (s.queues p).thread i = .idle
      | .take => (s.deques i).owner = .idle
      | .put _ => (s.deques i).owner = .idle
      | .steal v => (s.deques v).thief i = .idle) : s.Away i := by
  refine ⟨?_,?_,?_⟩
  · intro p
    rcases serves.queues p with idle | ⟨same,-⟩ | ⟨n,same,-⟩
    · exact idle
    · cases same
      exact here
    · cases same
      exact here
  · rcases serves.owner with idle | ⟨same,-⟩ | ⟨n,same,-⟩
    · exact idle
    · cases same
      exact here
    · cases same
      exact here
  · intro v
    cases serves.thieves v with
    | inl idle => exact idle
    | inr same =>
      cases same
      exact here

-- What one access of a call can do to what has come in and gone out.
inductive Outcome (s t : Stores) (i : ThreadId) (call : StoreCall) : Option (Option Nat) → Prop where
  | inside : t.entered = s.entered → t.handed = s.handed → t.unsent i call = s.unsent i call → Outcome s t i call none
  | storing (n : Nat) : s.unsent i call = some n →
      t.entered = Function.update s.entered (call.lane i) (s.entered (call.lane i)++[n]) → t.handed = s.handed →
      t.unsent i call = none → Outcome s t i call none
  | stored (n : Nat) : s.unsent i call = some n →
      t.entered = Function.update s.entered (call.lane i) (s.entered (call.lane i)++[n]) → t.handed = s.handed →
      Outcome s t i call (some none)
  | empty : s.unsent i call = none → t.entered = s.entered → t.handed = s.handed → Outcome s t i call (some none)
  | refused (n : Nat) : call = .put n → t.entered = s.entered → t.handed = s.handed → Outcome s t i call (some (some n))
  | handed (n : Nat) : call.fetches = true → t.entered = s.entered →
      t.handed = Function.update s.handed (call.lane i) (s.handed (call.lane i)++[n]) →
      Outcome s t i call (some (some n))

theorem along_queue {s : Stores} {onQueue : Mpmc Nat → β} {u : Mpmc Nat} :
    {s with queues := Function.update s.queues p u}.along onQueue onDeque onSerial =
      Function.update (s.along onQueue onDeque onSerial) (.queue p) (onQueue u) := by
  funext lane
  by_cases same : lane = .queue p
  · rw [same,Function.update_self]
    exact congrArg onQueue (Function.update_self ..)
  · rw [Function.update_of_ne same]
    cases lane with
    | queue q => exact congrArg onQueue (Function.update_of_ne (fun equal => same (congrArg Lane.queue equal)) ..)
    | _ => rfl

theorem along_deque {s : Stores} {onDeque : Deque Nat → β} {u : Deque Nat} :
    {s with deques := Function.update s.deques v u}.along onQueue onDeque onSerial =
      Function.update (s.along onQueue onDeque onSerial) (.deque v) (onDeque u) := by
  funext lane
  by_cases same : lane = .deque v
  · rw [same,Function.update_self]
    exact congrArg onDeque (Function.update_self ..)
  · rw [Function.update_of_ne same]
    cases lane with
    | deque w => exact congrArg onDeque (Function.update_of_ne (fun equal => same (congrArg Lane.deque equal)) ..)
    | _ => rfl

theorem along_serial {s : Stores} {onSerial : Trampoline → β} {u : Trampoline} :
    {s with serial := Function.update s.serial i u}.along onQueue onDeque onSerial =
      Function.update (s.along onQueue onDeque onSerial) (.serial i) (onSerial u) := by
  funext lane
  by_cases same : lane = .serial i
  · rw [same,Function.update_self]
    exact congrArg onSerial (Function.update_self ..)
  · rw [Function.update_of_ne same]
    cases lane with
    | serial j => exact congrArg onSerial (Function.update_of_ne (fun equal => same (congrArg Lane.serial equal)) ..)
    | _ => rfl

-- One container has been accessed: what is read of the others stays, and so it
-- does of this one where the access does not touch what is read.
theorem along_kept {onQueue : Mpmc Nat → β} {s : Stores} {u : Mpmc Nat} (same : onQueue u = onQueue (s.queues p)) :
    {s with queues := Function.update s.queues p u}.along onQueue onDeque onSerial = s.along onQueue onDeque onSerial := by
  rw [along_queue,same]
  exact Function.update_eq_self ..

theorem along_kept_deque {onDeque : Deque Nat → β} {s : Stores} {u : Deque Nat} (same : onDeque u = onDeque (s.deques v)) :
    {s with deques := Function.update s.deques v u}.along onQueue onDeque onSerial = s.along onQueue onDeque onSerial := by
  rw [along_deque,same]
  exact Function.update_eq_self ..

-- What has been asked of a call after one of its accesses.
theorem push_outcome {s : Stores} (serves : s.Serves i (some (.push p n))) :
    Outcome s (s.access i fails (.push p n)) i (.push p n) (s.answer (s.access i fails (.push p n)) i (.push p n)) := by
  have step := Mpmc.push_access fails (serves.queues p)
  have there : (s.access i fails (.push p n)).queues p =
      (s.queues p).apply queueCapacity ((s.queues p).next i (.push i n) fails) := Function.update_self ..
  rw [← there] at step
  have handed : (s.access i fails (.push p n)).handed = s.handed :=
    along_kept (congrArg (List.map Prod.snd) (there ▸ step.popped))
  rcases step.enters with ⟨same,how⟩ | ⟨src,grown,before,after⟩
  · have entered : (s.access i fails (.push p n)).entered = s.entered :=
      along_kept (congrArg (List.map Prod.snd) (there ▸ same))
    simp only [answer]
    split
    · rename_i idle
      rw [if_pos idle] at how
      exact .empty (by simp [unsent,how]) entered handed
    · rename_i busy
      rw [if_neg busy] at how
      exact .inside entered handed (by simp only [unsent,how])
  · have entered : (s.access i fails (.push p n)).entered =
        Function.update s.entered (.queue p) (s.entered (.queue p)++[n]) := by
      refine along_queue.trans ?_
      rw [← there,grown,List.map_append]
      rfl
    have unsent : s.unsent i (.push p n) = some n := by simp [unsent,before]
    simp only [answer]
    split
    · exact .stored n unsent entered handed
    · rename_i busy
      exact .storing n unsent entered handed (by simp [Stores.unsent,after (by simpa using busy)])

theorem pop_outcome {s : Stores} (serves : s.Serves i (some (.pop p))) :
    Outcome s (s.access i fails (.pop p)) i (.pop p) (s.answer (s.access i fails (.pop p)) i (.pop p)) := by
  have step := Mpmc.pop_access fails (serves.queues p)
  have there : (s.access i fails (.pop p)).queues p =
      (s.queues p).apply queueCapacity ((s.queues p).next i (.pop i) fails) := Function.update_self ..
  rw [← there] at step
  have entered : (s.access i fails (.pop p)).entered = s.entered :=
    along_kept (congrArg (List.map Prod.snd) (there ▸ step.pushed))
  rcases step.leaves with same | ⟨e,grown,idle⟩
  · have handed : (s.access i fails (.pop p)).handed = s.handed :=
      along_kept (congrArg (List.map Prod.snd) (there ▸ same))
    simp only [answer]
    split
    · rw [same,List.getElem?_eq_none (Nat.le_refl _)]
      exact .empty rfl entered handed
    · exact .inside entered handed rfl
  · have handed : (s.access i fails (.pop p)).handed =
        Function.update s.handed (.queue p) (s.handed (.queue p)++[e.2]) := by
      refine along_queue.trans ?_
      rw [← there,grown,List.map_append]
      rfl
    simp only [answer]
    rw [if_pos (by rw [idle]; rfl),grown,List.getElem?_concat_length]
    exact .handed e.2 rfl entered handed

theorem put_outcome {s : Stores} (serves : s.Serves i (some (.put n))) :
    Outcome s (s.access i fails (.put n)) i (.put n) (s.answer (s.access i fails (.put n)) i (.put n)) := by
  have step := Deque.put_access serves.owner
  have there : (s.access i fails (.put n)).deques i =
      (s.deques i).apply dequeCapacity ((s.deques i).nextOwner (.push n)) := Function.update_self ..
  rw [← there] at step
  have handed : (s.access i fails (.put n)).handed = s.handed := along_kept_deque (there ▸ step.answered)
  simp only [answer]
  rcases step.enters with ⟨same,given⟩ | ⟨grown,idle,kept⟩
  · have entered : (s.access i fails (.put n)).entered = s.entered := along_kept_deque (there ▸ same)
    split
    · rename_i idle
      rw [given idle]
      exact .refused n rfl entered handed
    · exact .inside entered handed rfl
  · have entered : (s.access i fails (.put n)).entered =
        Function.update s.entered (.deque i) (s.entered (.deque i)++[n]) := by
      refine along_deque.trans ?_
      rw [← there,grown]
      rfl
    rw [if_pos idle,kept]
    exact .stored n rfl entered handed

-- A take or a steal: what leaves the deque is what the call returns with.
theorem fetch_outcome {s t : Stores} {d : Deque Nat} (call : StoreCall) (idle : Bool) (lane : call.lane i = .deque v) (fetches : s.unsent i call = none)
    (also : t.unsent i call = none) (gets : call.fetches = true)
    (there : t = {s with deques := Function.update s.deques v d}) (pushed : d.ledger.pushed = (s.deques v).ledger.pushed)
    (leaves : d.answered = (s.deques v).answered ∨ ∃ n, d.answered = (s.deques v).answered++[n] ∧ idle = true) :
    Outcome s t i call (if idle then some d.answered[(s.deques v).answered.length]? else none) := by
  subst there
  have entered : {s with deques := Function.update s.deques v d}.entered = s.entered := along_kept_deque pushed
  rcases leaves with same | ⟨n,grown,done⟩
  · have handed : {s with deques := Function.update s.deques v d}.handed = s.handed := along_kept_deque same
    split
    · rw [same,List.getElem?_eq_none (Nat.le_refl _)]
      exact .empty fetches entered handed
    · exact .inside entered handed (also.trans fetches.symm)
  · rw [if_pos done,grown,List.getElem?_concat_length]
    refine .handed n gets entered ?_
    rw [lane]
    refine along_deque.trans ?_
    rw [grown]
    rfl

theorem take_outcome {s : Stores} (serves : s.Serves i (some .take)) :
    Outcome s (s.access i fails .take) i .take (s.answer (s.access i fails .take) i .take) := by
  have step := Deque.take_access serves.owner
  have there : (s.access i fails .take).deques i =
      (s.deques i).apply dequeCapacity ((s.deques i).nextOwner .take) := Function.update_self ..
  have outcome := fetch_outcome (t := s.access i fails .take) (i := i) .take
    ((s.access i fails .take).deques i).owner.isIdle rfl rfl rfl rfl rfl step.pushed
    (step.leaves.imp_right (fun ⟨n,grown,idle⟩ => ⟨n,grown,by rw [there,idle]; rfl⟩))
  rw [← there] at outcome
  exact outcome

theorem steal_outcome (s : Stores) :
    Outcome s (s.access i fails (.steal v)) i (.steal v) (s.answer (s.access i fails (.steal v)) i (.steal v)) := by
  have step := Deque.steal_access (d := s.deques v) (i := i)
  have there : (s.access i fails (.steal v)).deques v = (s.deques v).apply dequeCapacity ((s.deques v).nextThief i) :=
    Function.update_self ..
  have outcome := fetch_outcome (t := s.access i fails (.steal v)) (i := i) (.steal v)
    (((s.access i fails (.steal v)).deques v).thief i).isIdle rfl rfl rfl rfl rfl
    step.pushed (step.leaves.imp_right (fun ⟨n,grown,idle⟩ => ⟨n,grown,by rw [there,idle]; rfl⟩))
  rw [← there] at outcome
  exact outcome

theorem access_outcome {s : Stores} (fails : Bool) (serves : s.Serves i (some call)) :
    Outcome s (s.access i fails call) i call (s.answer (s.access i fails call) i call) := by
  cases call with
  | pop p => exact pop_outcome serves
  | push p n => exact push_outcome serves
  | take => exact take_outcome serves
  | put n => exact put_outcome serves
  | steal v => exact steal_outcome s

theorem access_inv {s : Stores} (inv : s.Inv) (ready : s.Ready i call) : (s.access i fails call).Inv := by
  have queue : ∀ p (u : Mpmc Nat), u.Inv queueCapacity → {s with queues := Function.update s.queues p u}.Inv := by
    intro p u held
    refine ⟨?_,inv.deques⟩
    intro q
    by_cases same : q = p
    · rw [same]
      change (Function.update s.queues p u p).Inv queueCapacity
      rw [Function.update_self]
      exact held
    · change (Function.update s.queues p u q).Inv queueCapacity
      rw [Function.update_of_ne same]
      exact inv.queues q
  have deque : ∀ v (u : Deque Nat), u.Inv dequeCapacity → {s with deques := Function.update s.deques v u}.Inv := by
    intro v u held
    refine ⟨inv.queues,?_⟩
    intro w
    by_cases same : w = v
    · rw [same]
      change (Function.update s.deques v u v).Inv dequeCapacity
      rw [Function.update_self]
      exact held
    · change (Function.update s.deques v u w).Inv dequeCapacity
      rw [Function.update_of_ne same]
      exact inv.deques w
  cases call with
  | pop p => exact queue p _ (mpmc_apply_inv queueCapacity_wide (inv.queues p) (Mpmc.next_allowed ready id))
  | push p n => exact queue p _ (mpmc_apply_inv queueCapacity_wide (inv.queues p) (Mpmc.next_allowed ready id))
  | take => exact deque i _ (deque_apply_inv (inv.deques i) (Deque.nextOwner_allowed id))
  | put n => exact deque i _ (deque_apply_inv (inv.deques i) (Deque.nextOwner_allowed id))
  | steal v => exact deque v _ (deque_apply_inv (inv.deques v) Deque.nextThief_allowed)

theorem serves_queue {s : Stores} (serves : s.Serves j asked) (u : Mpmc Nat) (here : (u.thread j).Serves p asked) :
    {s with queues := Function.update s.queues p u}.Serves j asked := by
  refine ⟨?_,serves.owner,serves.thieves⟩
  intro q
  by_cases equal : q = p
  · rw [equal]
    change ((Function.update s.queues p u p).thread j).Serves p asked
    rw [Function.update_self]
    exact here
  · change ((Function.update s.queues p u q).thread j).Serves q asked
    rw [Function.update_of_ne equal]
    exact serves.queues q

theorem serves_deque {s : Stores} (serves : s.Serves j asked) (u : Deque Nat) (owner : j = v → u.owner.Serves asked)
    (thief : u.thief j = .idle ∨ asked = some (.steal v)) :
    {s with deques := Function.update s.deques v u}.Serves j asked := by
  refine ⟨serves.queues,?_,?_⟩
  · by_cases equal : j = v
    · change (Function.update s.deques v u j).owner.Serves asked
      rw [equal,Function.update_self]
      exact owner equal
    · change (Function.update s.deques v u j).owner.Serves asked
      rw [Function.update_of_ne equal]
      exact serves.owner
  · intro w
    by_cases equal : w = v
    · rw [equal]
      change (Function.update s.deques v u v).thief j = .idle ∨ _
      rw [Function.update_self]
      exact thief
    · change (Function.update s.deques v u w).thief j = .idle ∨ _
      rw [Function.update_of_ne equal]
      exact serves.thieves w

-- The threads that make no access stay where they are.
theorem access_other {s : Stores} (other : j ≠ i) (serves : s.Serves j asked) : (s.access i fails call).Serves j asked := by
  cases call with
  | pop p =>
    refine serves_queue serves _ ?_
    rw [Mpmc.next_other other (.pop i) (Mpmc.goes_other _ _ other)]
    exact serves.queues p
  | push p n =>
    refine serves_queue serves _ ?_
    rw [Mpmc.next_other other (.push i n) (Mpmc.goes_other _ _ other)]
    exact serves.queues p
  | take =>
    refine serves_deque serves _ (fun same => absurd same other) ?_
    rw [Deque.nextOwner_thief _ rfl]
    exact serves.thieves i
  | put n =>
    refine serves_deque serves _ (fun same => absurd same other) ?_
    rw [Deque.nextOwner_thief _ rfl]
    exact serves.thieves i
  | steal v =>
    have step := Deque.steal_access (d := s.deques v) (i := i)
    refine serves_deque serves _ ?_ ?_
    · intro same
      rw [step.owner,← same]
      exact serves.owner
    · rw [step.others j other]
      exact serves.thieves v

-- A call that has not returned is still the same call.
theorem access_serves {s : Stores} (serves : s.Serves i (some call)) : (s.access i fails call).Serves i (some call) := by
  cases call with
  | pop p => exact serves_queue serves _ (Mpmc.pop_access fails (serves.queues p)).serves
  | push p n => exact serves_queue serves _ (Mpmc.push_access fails (serves.queues p)).serves
  | take =>
    refine serves_deque serves _ (fun _ => (Deque.take_access serves.owner).serves) ?_
    rw [Deque.nextOwner_thief _ rfl]
    exact serves.thieves i
  | put n =>
    refine serves_deque serves _ (fun _ => (Deque.put_access serves.owner).serves) ?_
    rw [Deque.nextOwner_thief _ rfl]
    exact serves.thieves i
  | steal v =>
    refine serves_deque serves _ ?_ (.inr rfl)
    intro same
    subst same
    rw [Deque.steal_access.owner]
    exact serves.owner

-- One that has returned has left its thread in no container.
theorem access_away {s : Stores} (serves : s.Serves i (some call))
    (back : s.answer (s.access i fails call) i call = some out) : (s.access i fails call).Away i := by
  refine (access_serves serves).elsewhere ?_
  cases call with
  | pop p =>
    simp only [answer] at back
    split at back
    · exact MpmcAt.isIdle_iff.mp ‹_›
    · cases back
  | push p n =>
    simp only [answer] at back
    split at back
    · exact MpmcAt.isIdle_iff.mp ‹_›
    · cases back
  | take =>
    simp only [answer] at back
    split at back
    · exact OwnerAt.isIdle_iff.mp ‹_›
    · cases back
  | put n =>
    simp only [answer] at back
    split at back
    · exact OwnerAt.isIdle_iff.mp ‹_›
    · cases back
  | steal v =>
    simp only [answer] at back
    split at back
    · exact ThiefAt.isIdle_iff.mp ‹_›
    · cases back

-- Only what the thread itself has yet to store changes.
theorem access_unsent {s : Stores} (other : j ≠ i) (asked : StoreCall) :
    (s.access i fails call).unsent j asked = s.unsent j asked := by
  cases asked with
  | push q n =>
    have same : ((s.access i fails call).queues q).thread j = (s.queues q).thread j := by
      have queue : ∀ p (u : Mpmc Nat), u.thread j = (s.queues p).thread j →
          (Function.update s.queues p u q).thread j = (s.queues q).thread j := by
        intro p u kept
        by_cases equal : q = p
        · rw [equal,Function.update_self]
          exact kept
        · rw [Function.update_of_ne equal]
      cases call with
      | pop p => exact queue p _ (Mpmc.next_other other _ (Mpmc.goes_other _ _ other))
      | push p m => exact queue p _ (Mpmc.next_other other _ (Mpmc.goes_other _ _ other))
      | _ => rfl
    simp only [unsent,same]
  | _ => rfl

end Stores
end Macrame

import Macrame.MpmcRing

namespace Macrame
open Machines Rings Custodies

namespace Mpmc

theorem mutex_kept {s u : Mpmc T} (inv : s.SpillInv) (thread : u.thread = Function.update s.thread i next)
    (mine : next.locked = true ↔ u.overflowMutex = some i)
    (others : ∀ j, j ≠ i → (s.overflowMutex = some j ↔ u.overflowMutex = some j)) :
    ∀ j, (u.thread j).locked = true ↔ u.overflowMutex = some j := by
  intro j
  rw [thread]
  by_cases same : j = i
  · rw [same,Function.update_self]
    exact mine
  · rw [Function.update_of_ne same]
    exact (inv.mutex j).trans (others j same)

theorem carried_kept {s u : Mpmc T} (inv : s.SpillInv) (thread : u.thread = Function.update s.thread i next)
    (grown : ∀ e ∈ s.pushed, e ∈ u.pushed)
    (mine : ∀ n out, next = .overflowDiscounting n out ∨ next = .overflowLeaving (some (n,out)) →
      (Source.overflow n,out) ∈ u.pushed) :
    ∀ j n out, u.thread j = .overflowDiscounting n out ∨ u.thread j = .overflowLeaving (some (n,out)) →
      (Source.overflow n,out) ∈ u.pushed := by
  intro j n out
  rw [thread]
  by_cases same : j = i
  · rw [same,Function.update_self]
    exact mine n out
  · rw [Function.update_of_ne same]
    exact fun holding => grown _ (inv.carried j n out holding)

-- A thread moves on the ring: the overflow, its mutex and its count stay.
theorem SpillInv.beside {s u : Mpmc T} (inv : s.SpillInv) (next : MpmcAt T)
    (same : u.overflow = s.overflow ∧ u.overflowCount = s.overflowCount ∧ u.overflowMutex = s.overflowMutex ∧
      u.spilled = s.spilled ∧ u.fished = s.fished)
    (thread : u.thread = Function.update s.thread i next) (grown : ∀ e ∈ s.pushed, e ∈ u.pushed)
    (noSpill : ∀ n v, (Source.overflow n,v) ∈ u.pushed → (Source.overflow n,v) ∈ s.pushed)
    (before : (s.thread i).locked = false) (after : next.locked = false) : u.SpillInv := by
  obtain ⟨overflow,count,mutex,spilled,fished⟩ := same
  have free : s.overflowMutex ≠ some i := by
    intro mine
    rw [(inv.mutex i).mpr mine] at before
    cases before
  refine ⟨?_,?_,?_,?_,?_,?_,?_⟩
  · rw [overflow,fished]
    exact fun j v found => grown _ (inv.numbered j v found)
  · rw [spilled,fished,overflow]
    exact inv.total
  · rw [spilled]
    exact fun n v member => inv.bounded n v (noSpill n v member)
  · refine mutex_kept inv thread ?_ (fun j _ => by rw [mutex])
    rw [after,mutex]
    exact ⟨nofun,fun mine => absurd mine free⟩
  · rw [mutex,count,overflow]
    exact inv.counted
  · intro j holder
    rw [mutex] at holder
    have other : j ≠ i := fun same => free (same ▸ holder)
    rw [count,overflow,thread,Function.update_of_ne other]
    exact inv.counting j holder
  · refine carried_kept inv thread grown ?_
    rintro n out (which | which)
    all_goals
      rw [which] at after
      cases after

theorem SpillInv.locks {s : Mpmc T} (inv : s.SpillInv) (next : MpmcAt T) (free : s.overflowMutex = none)
    (after : next.locked = true) (even : next.uncounted = 0 ∧ next.overcounted = 0)
    (empty : next.owes = none) : ({ s with overflowMutex := some i }.goes i next).SpillInv := by
  refine ⟨inv.numbered,inv.total,inv.bounded,?_,nofun,?_,?_⟩
  · refine mutex_kept inv rfl ⟨fun _ => rfl,fun _ => after⟩ ?_
    intro j other
    change s.overflowMutex = some j ↔ some i = some j
    rw [free]
    exact ⟨nofun,fun same => absurd (Option.some.inj same).symm other⟩
  · intro j holder
    cases holder
    rw [goes_self,even.1,even.2]
    exact inv.counted free
  · refine carried_kept inv rfl (fun _ member => member) ?_
    rintro n out (which | which)
    all_goals
      rw [which] at empty
      cases empty

theorem SpillInv.holder {s : Mpmc T} (inv : s.SpillInv) (locked : (s.thread i).locked = true) :
    s.overflowMutex = some i := (inv.mutex i).mp locked

-- The mutex holder moves on and keeps the mutex.
theorem SpillInv.inside {s u : Mpmc T} (inv : s.SpillInv) (next : MpmcAt T)
    (thread : u.thread = Function.update s.thread i next) (mutex : u.overflowMutex = s.overflowMutex)
    (before : (s.thread i).locked = true) (after : next.locked = true)
    (numbered : ∀ (j : Nat) v, u.overflow[j]? = some v → (Source.overflow (u.fished+j),v) ∈ u.pushed)
    (total : u.spilled = u.fished+u.overflow.length)
    (bounded : ∀ n v, (Source.overflow n,v) ∈ u.pushed → n < u.spilled)
    (count : u.overflowCount+next.uncounted = u.overflow.length+next.overcounted)
    (grown : ∀ e ∈ s.pushed, e ∈ u.pushed)
    (mine : ∀ n out, next = .overflowDiscounting n out ∨ next = .overflowLeaving (some (n,out)) →
      (Source.overflow n,out) ∈ u.pushed) : u.SpillInv := by
  have holder := inv.holder before
  refine ⟨numbered,total,bounded,?_,?_,?_,carried_kept inv thread grown mine⟩
  · refine mutex_kept inv thread ?_ (fun j _ => by rw [mutex])
    rw [mutex]
    exact ⟨fun _ => holder,fun _ => after⟩
  · rw [mutex,holder]
    exact nofun
  · intro j held
    rw [mutex,holder] at held
    cases held
    rw [thread,Function.update_self]
    exact count

theorem SpillInv.store {s : Mpmc T} (inv : s.SpillInv) (here : s.thread i = .spillStoring item) :
    ({ s with overflow := s.overflow++[item], pushed := s.pushed++[(Source.overflow s.spilled,item)],
              spilled := s.spilled+1 }.goes i .spillCounting).SpillInv := by
  have locked : (s.thread i).locked = true := by rw [here]; rfl
  have count := inv.counting i (inv.holder locked)
  have total := inv.total
  rw [here] at count
  refine inv.inside .spillCounting rfl rfl locked rfl ?_ ?_ ?_ ?_ (fun _ member => List.mem_append_left _ member) (by simp)
  · intro j v found
    change (s.overflow++[item])[j]? = some v at found
    change (Source.overflow (s.fished+j),v) ∈ s.pushed++[(Source.overflow s.spilled,item)]
    by_cases prior : j < s.overflow.length
    · rw [List.getElem?_append_left prior] at found
      exact List.mem_append_left _ (inv.numbered j v found)
    · have within := (List.getElem?_eq_some_iff.mp found).1
      rw [List.length_append,List.length_singleton] at within
      have last : j = s.overflow.length := by omega
      rw [last,List.getElem?_concat_length] at found
      cases found
      rw [last,← total]
      exact List.mem_append_right _ (List.mem_singleton_self _)
  · change s.spilled+1 = s.fished+(s.overflow++[item]).length
    rw [List.length_append,List.length_singleton]
    omega
  · intro n v member
    change n < s.spilled+1
    cases List.mem_append.mp member with
    | inl prior => exact Nat.lt_succ_of_lt (inv.bounded n v prior)
    | inr last =>
      cases List.mem_singleton.mp last
      exact Nat.lt_succ_self _
  · change s.overflowCount+1 = (s.overflow++[item]).length+0
    rw [List.length_append,List.length_singleton]
    exact congrArg (·+1) count

theorem SpillInv.take {s : Mpmc T} (inv : s.SpillInv) (here : s.thread i = .overflowTaking)
    (some : s.overflow = out :: rest) :
    ({ s with overflow := rest, fished := s.fished+1 }.goes i (.overflowDiscounting s.fished out)).SpillInv := by
  have locked : (s.thread i).locked = true := by rw [here]; rfl
  have count := inv.counting i (inv.holder locked)
  have total := inv.total
  rw [here,some] at count
  rw [some,List.length_cons] at total
  refine inv.inside (.overflowDiscounting s.fished out) rfl rfl locked rfl ?_ ?_ inv.bounded count
    (fun _ member => member) ?_
  · intro j v found
    have prior := inv.numbered (j+1) v (by rw [some]; exact found)
    have number : s.fished+(j+1) = s.fished+1+j := by omega
    rw [number] at prior
    exact prior
  · change s.spilled = s.fished+1+rest.length
    omega
  · rintro n out' (which | which)
    · cases which
      exact inv.numbered 0 out (by rw [some]; rfl)
    · cases which

theorem SpillInv.unlocks {s u : Mpmc T} (inv : s.SpillInv) (thread : u.thread = Function.update s.thread i .idle)
    (same : u.overflow = s.overflow ∧ u.overflowCount = s.overflowCount ∧ u.overflowMutex = none ∧
      u.spilled = s.spilled ∧ u.fished = s.fished ∧ u.pushed = s.pushed)
    (before : (s.thread i).locked = true) (even : (s.thread i).uncounted = 0 ∧ (s.thread i).overcounted = 0) :
    u.SpillInv := by
  obtain ⟨overflow,counts,mutex,spilled,fished,pushed⟩ := same
  have holder := inv.holder before
  have count := inv.counting i holder
  rw [even.1,even.2] at count
  refine ⟨?_,?_,?_,?_,?_,?_,?_⟩
  · rw [overflow,fished,pushed]
    exact inv.numbered
  · rw [spilled,fished,overflow]
    exact inv.total
  · rw [spilled,pushed]
    exact inv.bounded
  · refine mutex_kept inv thread ?_ ?_
    · rw [mutex]
      exact ⟨nofun,nofun⟩
    · intro j other
      rw [mutex,holder]
      exact ⟨fun mine => absurd (Option.some.inj mine).symm other,nofun⟩
  · intro _
    rw [counts,overflow]
    exact count
  · rw [mutex]
    exact nofun
  · exact carried_kept inv thread (fun _ member => pushed ▸ member) (by simp)

theorem owes_goes (s : Mpmc T) (i : Nat) (next : MpmcAt T) (j : Nat) :
    Function.update (fun j => (s.thread j).owes) i next.owes j = ((s.goes i next).thread j).owes := by
  by_cases same : j = i
  · rw [same,Function.update_self,goes_self]
  · rw [Function.update_of_ne same,goes_other _ _ same]

-- Nobody's claim, debt or mutex changes hands.
theorem custody_same {s u : Mpmc T} {next : MpmcAt T}
    (custody : Custody s.pushed s.popped s.Drawn (fun i => (s.thread i).owes))
    (thread : u.thread = Function.update s.thread i next) (owes : (s.thread i).owes = next.owes)
    (pushed : u.pushed = s.pushed) (popped : u.popped = s.popped)
    (drawn : u.dequeuePos = s.dequeuePos ∧ u.fished = s.fished) :
    Custody u.pushed u.popped u.Drawn (fun i => (u.thread i).owes) := by
  rw [pushed,popped]
  refine custody_congr custody ?_ ?_
  · intro src
    cases src with
    | ring p => change p < s.dequeuePos ↔ p < u.dequeuePos; rw [drawn.1]
    | overflow n => change n < s.fished ↔ n < u.fished; rw [drawn.2]
  · intro j
    rw [thread]
    by_cases same : j = i
    · rw [same,Function.update_self]
      exact owes
    · rw [Function.update_of_ne same]

theorem Inv.looks {s : Mpmc T} (inv : s.Inv capacity) (next : MpmcAt T)
    (before : (s.thread i).writes = none ∧ (s.thread i).locked = false)
    (after : next.writes = none ∧ next.locked = false) (owes : (s.thread i).owes = next.owes)
    (holds : s.RingHolds capacity next) : (s.goes i next).Inv capacity where
  ring := inv.ring.looks next before.1 after.1 (fun _ holding => owes ▸ holding) holds
  spill := inv.spill.beside next ⟨rfl,rfl,rfl,rfl,rfl⟩ rfl (fun _ member => member) (fun _ _ member => member)
    before.2 after.2
  custody := custody_same inv.custody rfl owes rfl rfl ⟨rfl,rfl⟩

-- Inside the overflow the ring stands still.
theorem Inv.ring_beside {s u : Mpmc T} (inv : s.Inv capacity) (next : MpmcAt T)
    (same : u.enqueuePos = s.enqueuePos ∧ u.dequeuePos = s.dequeuePos ∧ u.seq = s.seq ∧ u.data = s.data ∧
      u.drawn = s.drawn) (thread : u.thread = Function.update s.thread i next)
    (pushed : u.pushed = s.pushed ∨ ∃ n v, u.pushed = s.pushed++[(Source.overflow n,v)])
    (before : (s.thread i).writes = none ∧ ∀ q, (s.thread i).owes ≠ some (.ring q)) (after : next.writes = none)
    (holds : u.RingHolds capacity next) : u.RingInv capacity := by
  refine inv.ring.beside next same thread ?_ ?_ before.1 after (fun q holding => absurd holding (before.2 q)) holds
  · intro e member
    obtain kept | ⟨n,v,kept⟩ := pushed
    · rw [kept]
      exact member
    · rw [kept]
      exact List.mem_append_left _ member
  · intro p w member
    obtain kept | ⟨n,v,kept⟩ := pushed
    · rw [kept] at member
      exact member
    · rw [kept] at member
      cases List.mem_append.mp member with
      | inl prior => exact prior
      | inr last => cases List.mem_singleton.mp last

-- An empty-looking cell in front of the producers is really free: a full lap
-- would show the number of an unread or unwritten position there.
theorem RingInv.probe_enqueue {s : Mpmc T} (wide : 2 ≤ roundPow2 capacity) (inv : s.RingInv capacity)
    (ready : s.seq (cell capacity pos) = pos) (last : pos = s.enqueuePos) :
    pos < s.dequeuePos+roundPow2 capacity := by
  refine Nat.lt_of_le_of_ne (last ▸ inv.room) ?_
  intro full
  rw [full,cell_lap] at ready
  cases inv.filled s.dequeuePos (Nat.le_refl _) (by omega) with
  | inl unread => omega
  | inr writing =>
    obtain ⟨j,writing⟩ := writing
    have unwritten := (inv.writer writing).2.2
    omega

theorem RingInv.probe_dequeue {s : Mpmc T} (inv : s.RingInv capacity)
    (ready : s.seq (cell capacity pos) = pos+1) (first : pos = s.dequeuePos) : pos < s.enqueuePos := by
  refine Nat.lt_of_le_of_ne (first ▸ inv.order) ?_
  intro none
  have positive := roundPow2_pos capacity
  cases inv.spare pos (by omega) (by omega) with
  | inl free => omega
  | inr emptying =>
    obtain ⟨j,q,emptying,lap⟩ := emptying
    have unread := (inv.reader emptying).2.2
    rw [lap,cell_lap] at ready
    omega

theorem pushStep_inv {s : Mpmc T} (wide : 2 ≤ roundPow2 capacity) (inv : s.Inv capacity) (i : Nat) (fails : Bool)
    (waits : (s.thread i).locking = true → s.overflowMutex = none) : (s.pushStep capacity i fails).Inv capacity := by
  have known := inv.ring.threads i
  unfold pushStep
  cases here : s.thread i with
  | enqueueLoading item =>
    exact inv.looks _ (by rw [here]; exact ⟨rfl,rfl⟩) ⟨rfl,rfl⟩ (by rw [here]; rfl) (Nat.le_refl _)
  | enqueueProbing item pos =>
    rw [here] at known
    by_cases ready : s.seq (cell capacity pos) = pos
    · simp only [if_pos ready]
      exact inv.looks _ (by rw [here]; exact ⟨rfl,rfl⟩) ⟨rfl,rfl⟩ (by rw [here]; rfl)
        ⟨known,fun last => ⟨inv.ring.probe_enqueue wide ready last,ready⟩⟩
    · by_cases behind : s.seq (cell capacity pos) < pos
      · simp only [if_neg ready,if_pos behind]
        exact inv.looks _ (by rw [here]; exact ⟨rfl,rfl⟩) ⟨rfl,rfl⟩ (by rw [here]; rfl) trivial
      · simp only [if_neg ready,if_neg behind]
        exact inv.looks _ (by rw [here]; exact ⟨rfl,rfl⟩) ⟨rfl,rfl⟩ (by rw [here]; rfl) trivial
  | enqueueClaiming item pos =>
    by_cases won : s.enqueuePos = pos ∧ fails = false
    · simp only [if_pos won]
      refine ⟨inv.ring.claim_enqueue wide here won.1,?_,custody_same inv.custody rfl (by rw [here]; rfl) rfl rfl ⟨rfl,rfl⟩⟩
      exact inv.spill.beside _ ⟨rfl,rfl,rfl,rfl,rfl⟩ rfl (fun _ member => member) (fun _ _ member => member)
        (by rw [here]; rfl) rfl
    · simp only [if_neg won]
      exact inv.looks _ (by rw [here]; exact ⟨rfl,rfl⟩) ⟨rfl,rfl⟩ (by rw [here]; rfl) (Nat.le_refl _)
  | enqueueWriting item pos =>
    refine ⟨inv.ring.write here,?_,custody_same inv.custody rfl (by rw [here]; rfl) rfl rfl ⟨rfl,rfl⟩⟩
    exact inv.spill.beside _ ⟨rfl,rfl,rfl,rfl,rfl⟩ rfl (fun _ member => member) (fun _ _ member => member)
      (by rw [here]; rfl) rfl
  | enqueuePublishing item pos =>
    refine ⟨inv.ring.publish here,?_,?_⟩
    · refine inv.spill.beside _ ⟨rfl,rfl,rfl,rfl,rfl⟩ rfl (fun _ member => List.mem_append_left _ member) ?_
        (by rw [here]; rfl) rfl
      intro n v member
      cases List.mem_append.mp member with
      | inl prior => exact prior
      | inr last => cases List.mem_singleton.mp last
    · -- the position has its writer, so no entry bears its name yet
      have fresh : ∀ e ∈ s.pushed, e.1 ≠ Source.ring pos := by
        rintro ⟨src,v⟩ member named
        cases named
        exact (inv.ring.published pos v member).2 i (by rw [here]; rfl)
      exact custody_same (s := { s with pushed := s.pushed++[(Source.ring pos,item)] })
        (custody_push inv.custody fresh item) rfl (by change (s.thread i).owes = none; rw [here]; rfl) rfl rfl ⟨rfl,rfl⟩
  | spillLocking item =>
    rw [here] at waits
    refine ⟨?_,inv.spill.locks _ (waits rfl) rfl ⟨rfl,rfl⟩ rfl,custody_same inv.custody rfl (by rw [here]; rfl) rfl rfl ⟨rfl,rfl⟩⟩
    exact inv.ring_beside _ ⟨rfl,rfl,rfl,rfl,rfl⟩ rfl (.inl rfl) (by rw [here]; exact ⟨rfl,nofun⟩) rfl trivial
  | spillStoring item =>
    refine ⟨?_,inv.spill.store here,?_⟩
    · exact inv.ring_beside _ ⟨rfl,rfl,rfl,rfl,rfl⟩ rfl (.inr ⟨s.spilled,item,rfl⟩) (by rw [here]; exact ⟨rfl,nofun⟩) rfl trivial
    · have fresh : ∀ e ∈ s.pushed, e.1 ≠ Source.overflow s.spilled := by
        rintro ⟨src,v⟩ member named
        cases named
        exact Nat.lt_irrefl _ (inv.spill.bounded s.spilled v member)
      exact custody_same (s := { s with pushed := s.pushed++[(Source.overflow s.spilled,item)] })
        (custody_push inv.custody fresh item) rfl (by change (s.thread i).owes = none; rw [here]; rfl) rfl rfl ⟨rfl,rfl⟩
  | spillCounting =>
    have locked : (s.thread i).locked = true := by rw [here]; rfl
    have count := inv.spill.counting i (inv.spill.holder locked)
    rw [here] at count
    refine ⟨?_,?_,custody_same inv.custody rfl (by rw [here]; rfl) rfl rfl ⟨rfl,rfl⟩⟩
    · exact inv.ring_beside _ ⟨rfl,rfl,rfl,rfl,rfl⟩ rfl (.inl rfl) (by rw [here]; exact ⟨rfl,nofun⟩) rfl trivial
    · exact inv.spill.inside .spillLeaving rfl rfl locked rfl inv.spill.numbered inv.spill.total inv.spill.bounded count
        (fun _ member => member) (by simp)
  | spillLeaving =>
    refine ⟨?_,?_,custody_same inv.custody rfl (by rw [here]; rfl) rfl rfl ⟨rfl,rfl⟩⟩
    · exact inv.ring_beside _ ⟨rfl,rfl,rfl,rfl,rfl⟩ rfl (.inl rfl) (by rw [here]; exact ⟨rfl,nofun⟩) rfl trivial
    · exact inv.spill.unlocks rfl ⟨rfl,rfl,rfl,rfl,rfl,rfl⟩ (by rw [here]; rfl) (by rw [here]; exact ⟨rfl,rfl⟩)
  | _ => exact inv

theorem custody_drawn {s u : Mpmc T} {next : MpmcAt T} (src : Source)
    (custody : Custody s.pushed s.popped s.Drawn (fun i => (s.thread i).owes)) (inside : ¬s.Drawn src)
    (free : (s.thread i).owes = none) (after : next.owes = some src)
    (thread : u.thread = Function.update s.thread i next) (pushed : u.pushed = s.pushed) (popped : u.popped = s.popped)
    (drawn : ∀ x, u.Drawn x ↔ s.Drawn x ∨ x = src) :
    Custody u.pushed u.popped u.Drawn (fun i => (u.thread i).owes) := by
  rw [pushed,popped]
  refine custody_congr (custody_draw custody inside free) (fun x => (drawn x).symm) ?_
  intro j
  rw [thread,← after]
  exact owes_goes s i next j

theorem custody_paid {s u : Mpmc T} {src : Source}
    (custody : Custody s.pushed s.popped s.Drawn (fun i => (s.thread i).owes))
    (holding : (s.thread i).owes = some src) (entered : (src,value) ∈ s.pushed)
    (thread : u.thread = Function.update s.thread i .idle) (pushed : u.pushed = s.pushed)
    (popped : u.popped = s.popped++[(src,value)]) (drawn : u.dequeuePos = s.dequeuePos ∧ u.fished = s.fished) :
    Custody u.pushed u.popped u.Drawn (fun i => (u.thread i).owes) := by
  rw [pushed,popped]
  refine custody_congr (custody_pay custody holding entered) ?_ ?_
  · intro x
    cases x with
    | ring p => change p < s.dequeuePos ↔ p < u.dequeuePos; rw [drawn.1]
    | overflow n => change n < s.fished ↔ n < u.fished; rw [drawn.2]
  · intro j
    rw [thread]
    exact owes_goes s i .idle j

theorem popStep_inv {s : Mpmc T} (wide : 2 ≤ roundPow2 capacity) (inv : s.Inv capacity) (i : Nat) (fails : Bool)
    (waits : (s.thread i).locking = true → s.overflowMutex = none) : (s.popStep capacity i fails).Inv capacity := by
  have known := inv.ring.threads i
  unfold popStep
  cases here : s.thread i with
  | dequeueLoading =>
    exact inv.looks _ (by rw [here]; exact ⟨rfl,rfl⟩) ⟨rfl,rfl⟩ (by rw [here]; rfl) (Nat.le_refl _)
  | dequeueProbing pos =>
    rw [here] at known
    by_cases ready : s.seq (cell capacity pos) = pos+1
    · simp only [if_pos ready]
      exact inv.looks _ (by rw [here]; exact ⟨rfl,rfl⟩) ⟨rfl,rfl⟩ (by rw [here]; rfl)
        ⟨known,fun first => ⟨inv.ring.probe_dequeue ready first,ready⟩⟩
    · by_cases behind : s.seq (cell capacity pos) < pos+1
      · simp only [if_neg ready,if_pos behind]
        exact inv.looks _ (by rw [here]; exact ⟨rfl,rfl⟩) ⟨rfl,rfl⟩ (by rw [here]; rfl) trivial
      · simp only [if_neg ready,if_neg behind]
        exact inv.looks _ (by rw [here]; exact ⟨rfl,rfl⟩) ⟨rfl,rfl⟩ (by rw [here]; rfl) trivial
  | dequeueClaiming pos =>
    by_cases won : s.dequeuePos = pos ∧ fails = false
    · simp only [if_pos won]
      refine ⟨inv.ring.claim_dequeue here won.1,?_,?_⟩
      · exact inv.spill.beside _ ⟨rfl,rfl,rfl,rfl,rfl⟩ rfl (fun _ member => member) (fun _ _ member => member)
          (by rw [here]; rfl) rfl
      · refine custody_drawn (.ring pos) inv.custody ?_ (by rw [here]; rfl) rfl rfl rfl rfl ?_
        · change ¬pos < s.dequeuePos
          omega
        · intro x
          cases x with
          | ring p =>
            change p < pos+1 ↔ p < s.dequeuePos ∨ Source.ring p = Source.ring pos
            rw [Source.ring.injEq]
            omega
          | overflow n => exact ⟨.inl,fun which => which.resolve_right nofun⟩
    · simp only [if_neg won]
      exact inv.looks _ (by rw [here]; exact ⟨rfl,rfl⟩) ⟨rfl,rfl⟩ (by rw [here]; rfl) (Nat.le_refl _)
  | dequeueReading pos =>
    rw [here] at known
    exact inv.looks _ (by rw [here]; exact ⟨rfl,rfl⟩) ⟨rfl,rfl⟩ (by rw [here]; rfl) known
  | dequeueReleasing pos out =>
    rw [here] at known
    have owes : (s.thread i).owes = some (.ring pos) := by rw [here]; rfl
    refine ⟨inv.ring.release wide (fun j holding => inv.custody.alone j i _ holding owes) here,?_,?_⟩
    · exact inv.spill.beside _ ⟨rfl,rfl,rfl,rfl,rfl⟩ rfl (fun _ member => member) (fun _ _ member => member)
        (by rw [here]; rfl) rfl
    · exact custody_paid inv.custody owes known.2.2.2 rfl rfl rfl ⟨rfl,rfl⟩
  | overflowChecking =>
    by_cases none : s.overflowCount = 0
    · simp only [if_pos none]
      exact inv.looks _ (by rw [here]; exact ⟨rfl,rfl⟩) ⟨rfl,rfl⟩ (by rw [here]; rfl) trivial
    · simp only [if_neg none]
      exact inv.looks _ (by rw [here]; exact ⟨rfl,rfl⟩) ⟨rfl,rfl⟩ (by rw [here]; rfl) trivial
  | overflowLocking =>
    rw [here] at waits
    refine ⟨?_,inv.spill.locks _ (waits rfl) rfl ⟨rfl,rfl⟩ rfl,custody_same inv.custody rfl (by rw [here]; rfl) rfl rfl ⟨rfl,rfl⟩⟩
    exact inv.ring_beside _ ⟨rfl,rfl,rfl,rfl,rfl⟩ rfl (.inl rfl) (by rw [here]; exact ⟨rfl,nofun⟩) rfl trivial
  | overflowTaking =>
    have locked : (s.thread i).locked = true := by rw [here]; rfl
    have count := inv.spill.counting i (inv.spill.holder locked)
    rw [here] at count
    cases some : s.overflow with
    | nil =>
      refine ⟨?_,?_,custody_same inv.custody rfl (by rw [here]; rfl) rfl rfl ⟨rfl,rfl⟩⟩
      · exact inv.ring_beside _ ⟨rfl,rfl,rfl,rfl,rfl⟩ rfl (.inl rfl) (by rw [here]; exact ⟨rfl,nofun⟩) rfl trivial
      · exact inv.spill.inside (.overflowLeaving none) rfl rfl locked rfl inv.spill.numbered inv.spill.total
          inv.spill.bounded count (fun _ member => member) (by simp)
    | cons out rest =>
      refine ⟨?_,inv.spill.take here some,?_⟩
      · exact inv.ring_beside _ ⟨rfl,rfl,rfl,rfl,rfl⟩ rfl (.inl rfl) (by rw [here]; exact ⟨rfl,nofun⟩) rfl trivial
      · refine custody_drawn (.overflow s.fished) inv.custody (Nat.lt_irrefl _) (by rw [here]; rfl) rfl rfl rfl rfl ?_
        intro x
        cases x with
        | ring p => exact ⟨.inl,fun which => which.resolve_right nofun⟩
        | overflow n =>
          change n < s.fished+1 ↔ n < s.fished ∨ Source.overflow n = Source.overflow s.fished
          rw [Source.overflow.injEq]
          omega
  | overflowDiscounting n out =>
    have locked : (s.thread i).locked = true := by rw [here]; rfl
    have count := inv.spill.counting i (inv.spill.holder locked)
    rw [here] at count
    simp only [MpmcAt.uncounted,MpmcAt.overcounted] at count
    refine ⟨?_,?_,custody_same inv.custody rfl (by rw [here]; rfl) rfl rfl ⟨rfl,rfl⟩⟩
    · exact inv.ring_beside _ ⟨rfl,rfl,rfl,rfl,rfl⟩ rfl (.inl rfl) (by rw [here]; exact ⟨rfl,nofun⟩) rfl trivial
    · refine inv.spill.inside (.overflowLeaving (some (n,out))) rfl rfl locked rfl inv.spill.numbered inv.spill.total
        inv.spill.bounded ?_ (fun _ member => member) ?_
      · change s.overflowCount-1+0 = s.overflow.length+0
        omega
      · rintro m value (which | which)
        · cases which
        · cases which
          exact inv.spill.carried i n out (.inl here)
  | overflowLeaving won =>
    cases won with
    | none =>
      refine ⟨?_,?_,custody_same inv.custody rfl (by rw [here]; rfl) rfl rfl ⟨rfl,rfl⟩⟩
      · exact inv.ring_beside _ ⟨rfl,rfl,rfl,rfl,rfl⟩ rfl (.inl rfl) (by rw [here]; exact ⟨rfl,nofun⟩) rfl trivial
      · exact inv.spill.unlocks rfl ⟨rfl,rfl,rfl,rfl,rfl,rfl⟩ (by rw [here]; rfl) (by rw [here]; exact ⟨rfl,rfl⟩)
    | some pair =>
      obtain ⟨n,out⟩ := pair
      refine ⟨?_,?_,?_⟩
      · exact inv.ring_beside _ ⟨rfl,rfl,rfl,rfl,rfl⟩ rfl (.inl rfl) (by rw [here]; exact ⟨rfl,nofun⟩) rfl trivial
      · exact inv.spill.unlocks rfl ⟨rfl,rfl,rfl,rfl,rfl,rfl⟩ (by rw [here]; rfl) (by rw [here]; exact ⟨rfl,rfl⟩)
      · exact custody_paid inv.custody (by rw [here]; rfl) (inv.spill.carried i n out (.inr here)) rfl rfl rfl ⟨rfl,rfl⟩
  | _ => exact inv

end Mpmc

namespace Mpmc

-- What the ring and the overflow hold, under the names it came in with.
def stored (capacity : Nat) (s : Mpmc T) : List (Source×T) :=
  (List.range' s.dequeuePos (s.enqueuePos-s.dequeuePos)).map (fun p => (Source.ring p,s.data (cell capacity p)))++
    (s.overflow.zipIdx s.fished).map (fun entry => (Source.overflow entry.2,entry.1))

def Quiet (s : Mpmc T) : Prop := ∀ i, s.thread i = .idle

theorem mem_stored_ring {s : Mpmc T} :
    (Source.ring p,v) ∈ s.stored capacity ↔
      s.dequeuePos ≤ p ∧ p < s.enqueuePos ∧ v = s.data (cell capacity p) := by
  unfold stored
  simp only [List.mem_append,List.mem_map,Prod.mk.injEq,Source.ring.injEq,List.mem_range'_1,reduceCtorEq,
    false_and,and_false,exists_false,or_false]
  constructor
  · rintro ⟨q,⟨above,below⟩,rfl,rfl⟩
    exact ⟨above,by omega,rfl⟩
  · rintro ⟨above,below,rfl⟩
    exact ⟨p,⟨above,by omega⟩,rfl,rfl⟩

theorem mem_stored_overflow {s : Mpmc T} :
    (Source.overflow n,v) ∈ s.stored capacity ↔ s.fished ≤ n ∧ s.overflow[n-s.fished]? = some v := by
  unfold stored
  simp only [List.mem_append,List.mem_map,Prod.mk.injEq,Source.overflow.injEq,reduceCtorEq,
    false_and,and_false,exists_false,false_or]
  constructor
  · rintro ⟨⟨w,m⟩,member,rfl,rfl⟩
    exact List.mk_mem_zipIdx_iff_le_and_getElem?_sub.mp member
  · rintro ⟨above,found⟩
    exact ⟨(v,n),List.mk_mem_zipIdx_iff_le_and_getElem?_sub.mpr ⟨above,found⟩,rfl,rfl⟩

-- Nothing that was put in is lost: it has been returned, it is in the ring or
-- in the overflow, or a pop that has drawn it is about to return it.
theorem Inv.not_lost {s : Mpmc T} (inv : s.Inv capacity) (entered : e ∈ s.pushed) :
    e ∈ s.popped ∨ e ∈ s.stored capacity ∨ ∃ i, (s.thread i).owes = some e.1 := by
  obtain ⟨src,v⟩ := e
  have gone : s.Drawn src → (src,v) ∈ s.popped ∨ (src,v) ∈ s.stored capacity ∨ ∃ i, (s.thread i).owes = some src := by
    intro drawn
    cases inv.custody.kept src drawn with
    | inl returned =>
      obtain ⟨e,member,named⟩ := returned
      have same := inv.custody.named (inv.custody.sound e member) entered named
      exact .inl (same ▸ member)
    | inr holding => exact .inr (.inr holding)
  cases src with
  | ring p =>
    by_cases drawn : p < s.dequeuePos
    · exact gone drawn
    · obtain ⟨below,nobody⟩ := inv.ring.published p v entered
      cases inv.ring.filled p (by omega) below with
      | inl ready =>
        have same := inv.custody.named ready.2 entered rfl
        exact .inr (.inl (mem_stored_ring.mpr ⟨by omega,below,(congrArg Prod.snd same).symm⟩))
      | inr writing =>
        obtain ⟨i,writing⟩ := writing
        exact absurd writing (nobody i)
  | overflow n =>
    by_cases drawn : n < s.fished
    · exact gone drawn
    · have below := inv.spill.bounded n v entered
      have total := inv.spill.total
      have within : n-s.fished < s.overflow.length := by omega
      have found : s.overflow[n-s.fished]? = some s.overflow[n-s.fished] := List.getElem?_eq_getElem within
      have number : s.fished+(n-s.fished) = n := by omega
      have there := inv.spill.numbered _ _ found
      rw [number] at there
      have same := inv.custody.named there entered rfl
      refine .inr (.inl (mem_stored_overflow.mpr ⟨by omega,?_⟩))
      rw [found]
      exact congrArg (some ·) (congrArg Prod.snd same)

end Mpmc

theorem mpmc_apply_inv {s : Mpmc T} (wide : 2 ≤ roundPow2 capacity) (inv : s.Inv capacity) (allowed : s.Allowed action) :
    (s.apply capacity action).Inv capacity := by
  cases action with
  | push i item =>
    change s.thread i = .idle at allowed
    exact inv.looks _ (by rw [allowed]; exact ⟨rfl,rfl⟩) ⟨rfl,rfl⟩ (by rw [allowed]; rfl) (Nat.le_refl _)
  | pop i =>
    change s.thread i = .idle at allowed
    exact inv.looks _ (by rw [allowed]; exact ⟨rfl,rfl⟩) ⟨rfl,rfl⟩ (by rw [allowed]; rfl) (Nat.le_refl _)
  | step i fails =>
    change (if (s.thread i).pushing then s.pushStep capacity i fails else s.popStep capacity i fails).Inv capacity
    split
    · exact Mpmc.pushStep_inv wide inv i fails allowed.2
    · exact Mpmc.popStep_inv wide inv i fails allowed.2

theorem mpmc_fresh_inv [Inhabited T] (capacity : Nat) : (Mpmc.fresh : Mpmc T).Inv capacity where
  ring := {
    order := Nat.le_refl 0
    room := Nat.zero_le _
    filled := fun p _ below => absurd below (Nat.not_lt_zero p)
    spare := by
      intro p _ below
      left
      change slot (roundPow2 capacity-1) p = p
      rw [slot_mod]
      exact Nat.mod_eq_of_lt (by simpa [Mpmc.fresh] using below)
    threads := fun _ => trivial
    writers := fun _ _ _ writing => by cases writing
    published := fun _ _ member => absurd member List.not_mem_nil
    drawn := rfl }
  spill := {
    numbered := fun _ _ found => by cases found
    total := rfl
    bounded := fun _ _ member => absurd member List.not_mem_nil
    mutex := fun _ => ⟨nofun,nofun⟩
    counted := fun _ => rfl
    counting := fun _ => nofun
    carried := fun _ _ _ which => by cases which <;> contradiction }
  custody := by
    refine custody_congr custody_empty ?_ (fun _ => rfl)
    intro src
    cases src with
    | ring p => exact ⟨False.elim,Nat.not_lt_zero p⟩
    | overflow n => exact ⟨False.elim,Nat.not_lt_zero n⟩

theorem reached_mpmc [Inhabited T] {s : Mpmc T} (wide : 2 ≤ roundPow2 capacity)
    (path : Reached (mpmcSystem T capacity) s) : s.Inv capacity := by
  refine reached_invariant (Mpmc.Inv capacity) ?_ (fun s a inv allowed => mpmc_apply_inv wide inv allowed) path
  intro s begun
  change s = Mpmc.fresh at begun
  rw [begun]
  exact mpmc_fresh_inv capacity

namespace Mpmc

theorem stored_distinct (capacity : Nat) (s : Mpmc T) : ((s.stored capacity).map Prod.fst).Nodup := by
  unfold stored
  rw [List.map_append,List.map_map,List.map_map]
  refine List.nodup_append.mpr ⟨?_,?_,?_⟩
  · refine List.Nodup.map_on ?_ List.nodup_range'
    intro p _ q _ same
    exact Source.ring.inj same
  · have numbers : (s.overflow.zipIdx s.fished).map (Prod.fst ∘ fun entry => (Source.overflow entry.2,entry.1)) =
        ((s.overflow.zipIdx s.fished).map Prod.snd).map Source.overflow := by
      rw [List.map_map]
      rfl
    rw [numbers,List.zipIdx_map_snd]
    exact List.Nodup.map (fun _ _ same => Source.overflow.inj same) List.nodup_range'
  · intro a ring b spill same
    obtain ⟨p,-,rfl⟩ := List.mem_map.mp ring
    obtain ⟨entry,-,rfl⟩ := List.mem_map.mp spill
    cases same

theorem not_drawn_stored {s : Mpmc T} (member : e ∈ s.stored capacity) : ¬s.Drawn e.1 := by
  obtain ⟨src,v⟩ := e
  cases src with
  | ring p => exact Nat.not_lt.mpr (mem_stored_ring.mp member).1
  | overflow n => exact Nat.not_lt.mpr (mem_stored_overflow.mp member).1

-- With no producer at work, everything stored has been put in.
theorem Inv.stored_pushed {s : Mpmc T} (inv : s.Inv capacity) (quiet : ∀ i, (s.thread i).writes = none)
    (member : e ∈ s.stored capacity) : e ∈ s.pushed := by
  obtain ⟨src,v⟩ := e
  cases src with
  | ring p =>
    obtain ⟨above,below,rfl⟩ := mem_stored_ring.mp member
    cases inv.ring.filled p above below with
    | inl ready => exact ready.2
    | inr writing =>
      obtain ⟨i,writing⟩ := writing
      rw [quiet i] at writing
      cases writing
  | overflow n =>
    obtain ⟨above,found⟩ := mem_stored_overflow.mp member
    have there := inv.spill.numbered _ _ found
    have number : s.fished+(n-s.fished) = n := by omega
    rw [number] at there
    exact there

theorem Inv.kept {s : Mpmc T} (inv : s.Inv capacity) (quiet : s.Quiet) :
    (s.popped++s.stored capacity).Perm s.pushed := by
  have names : ((s.popped++s.stored capacity).map Prod.fst).Nodup := by
    rw [List.map_append]
    refine List.nodup_append.mpr ⟨inv.custody.once,stored_distinct capacity s,?_⟩
    intro a returned b still same
    obtain ⟨e,member,rfl⟩ := List.mem_map.mp returned
    obtain ⟨f,there,rfl⟩ := List.mem_map.mp still
    exact not_drawn_stored there (same ▸ inv.custody.paid e member)
  refine (List.perm_ext_iff_of_nodup names.of_map inv.custody.distinct.of_map).mpr ?_
  intro e
  rw [List.mem_append]
  constructor
  · rintro (returned | still)
    · exact inv.custody.sound e returned
    · exact inv.stored_pushed (fun i => by rw [quiet i]; rfl) still
  · intro entered
    obtain returned | still | ⟨i,holding⟩ := inv.not_lost entered
    · exact .inl returned
    · exact .inr still
    · rw [quiet i] at holding
      cases holding

-- One pop running while every other thread is idle; `s` is the state it was
-- called in. A pop that gives up does so with nothing left to return.
def SoloAt (s u : Mpmc T) : MpmcAt T → Prop
  | .idle => (∃ e, u.popped = s.popped++[e]) ∨ u.popped = s.popped ∧ ∀ e ∈ u.pushed, e ∈ u.popped
  | .dequeueProbing pos => pos = u.dequeuePos ∧ u.popped = s.popped
  | .dequeueClaiming pos => pos = u.dequeuePos ∧ u.popped = s.popped
  | .dequeueReading _ => u.popped = s.popped
  | .dequeueReleasing _ _ => u.popped = s.popped
  | .overflowChecking => u.dequeuePos = u.enqueuePos ∧ u.popped = s.popped
  | .overflowLocking => u.overflow ≠ [] ∧ u.popped = s.popped
  | .overflowTaking => u.overflow ≠ [] ∧ u.popped = s.popped
  | .overflowDiscounting _ _ => u.popped = s.popped
  | .overflowLeaving (some _) => u.popped = s.popped
  | _ => False

structure Solo (capacity : Nat) (s : Mpmc T) (i : Nat) (u : Mpmc T) : Prop where
  inv : u.Inv capacity
  others : ∀ j, j ≠ i → u.thread j = .idle
  pushed : u.pushed = s.pushed
  stage : SoloAt s u (u.thread i)

-- With no claim and no debt outstanding, the cell at the head says whether the
-- ring is empty.
theorem Solo.head {s u : Mpmc T} (solo : Solo capacity s i u) (here : u.thread i = .dequeueProbing pos)
    (first : pos = u.dequeuePos) :
    u.seq (cell capacity pos) = pos+1 ∧ pos < u.enqueuePos ∨ u.seq (cell capacity pos) = pos ∧ pos = u.enqueuePos := by
  have positive := roundPow2_pos capacity
  have nobody : ∀ j, (u.thread j).writes = none ∧ (u.thread j).owes = none := by
    intro j
    by_cases same : j = i
    · rw [same,here]
      exact ⟨rfl,rfl⟩
    · rw [solo.others j same]
      exact ⟨rfl,rfl⟩
  cases Nat.lt_or_eq_of_le solo.inv.ring.order with
  | inl some =>
    rw [← first] at some
    refine .inl ⟨?_,some⟩
    cases solo.inv.ring.filled pos (by omega) some with
    | inl ready => exact ready.1
    | inr writing =>
      obtain ⟨j,writing⟩ := writing
      rw [(nobody j).1] at writing
      cases writing
  | inr none =>
    rw [← first] at none
    refine .inr ⟨?_,none⟩
    cases solo.inv.ring.spare pos (by omega) (by omega) with
    | inl free => exact free
    | inr emptying =>
      obtain ⟨j,q,emptying,-⟩ := emptying
      rw [(nobody j).2] at emptying
      cases emptying

theorem Solo.mutex_free {s u : Mpmc T} (solo : Solo capacity s i u) (outside : (u.thread i).locked = false) :
    u.overflowMutex = none := by
  cases holder : u.overflowMutex with
  | none => rfl
  | some j =>
    have locked := (solo.inv.spill.mutex j).mpr holder
    by_cases same : j = i
    · rw [same,outside] at locked
      cases locked
    · rw [solo.others j same] at locked
      cases locked

theorem Solo.goes {s u v : Mpmc T} (solo : Solo capacity s i u) (next : MpmcAt T) (inv : v.Inv capacity)
    (thread : v.thread = Function.update u.thread i next) (pushed : v.pushed = u.pushed) (stage : SoloAt s v next) :
    Solo capacity s i v := by
  refine ⟨inv,?_,pushed.trans solo.pushed,?_⟩
  · intro j other
    rw [thread,Function.update_of_ne other]
    exact solo.others j other
  · rw [thread,Function.update_self]
    exact stage

-- Nothing in the ring and nothing in the overflow: everything was returned.
theorem Inv.exhausted {u : Mpmc T} (inv : u.Inv capacity) (ring : u.dequeuePos = u.enqueuePos) (spent : u.overflow = [])
    (settled : ∀ j, (u.thread j).owes = none) : ∀ e ∈ u.pushed, e ∈ u.popped := by
  intro e entered
  obtain returned | still | ⟨j,holding⟩ := inv.not_lost entered
  · exact returned
  · rw [stored,ring,spent,Nat.sub_self] at still
    cases still
  · rw [settled j] at holding
    cases holding

theorem Solo.step {s u : Mpmc T} (wide : 2 ≤ roundPow2 capacity) (solo : Solo capacity s i u)
    (allowed : u.Allowed (.step i fails)) : Solo capacity s i (u.popStep capacity i fails) := by
  have stage := solo.stage
  have inv := popStep_inv wide solo.inv i fails allowed.2
  unfold popStep at inv ⊢
  cases here : u.thread i with
  | dequeueProbing pos =>
    simp only [here] at inv stage ⊢
    obtain ⟨first,same⟩ := stage
    obtain ⟨ready,some⟩ | ⟨free,none⟩ := solo.head here first
    · simp only [if_pos ready] at inv ⊢
      exact solo.goes (.dequeueClaiming pos) inv rfl rfl ⟨first,same⟩
    · have unready : ¬u.seq (cell capacity pos) = pos+1 := by omega
      have behind : u.seq (cell capacity pos) < pos+1 := by omega
      simp only [if_neg unready,if_pos behind] at inv ⊢
      exact solo.goes .overflowChecking inv rfl rfl ⟨first.symm.trans none,same⟩
  | dequeueClaiming pos =>
    simp only [here] at inv stage ⊢
    by_cases won : u.dequeuePos = pos ∧ fails = false
    · simp only [if_pos won] at inv ⊢
      exact solo.goes (.dequeueReading pos) inv rfl rfl stage.2
    · simp only [if_neg won] at inv ⊢
      exact solo.goes (.dequeueProbing u.dequeuePos) inv rfl rfl ⟨rfl,stage.2⟩
  | dequeueReading pos =>
    simp only [here] at inv stage ⊢
    exact solo.goes (.dequeueReleasing pos (u.data (cell capacity pos))) inv rfl rfl stage
  | dequeueReleasing pos out =>
    simp only [here] at inv stage ⊢
    refine solo.goes .idle inv rfl rfl (.inl ⟨(Source.ring pos,out),?_⟩)
    exact congrArg (·++[(Source.ring pos,out)]) stage
  | overflowChecking =>
    simp only [here] at inv stage ⊢
    have counted := solo.inv.spill.counted (solo.mutex_free (by rw [here]; rfl))
    by_cases none : u.overflowCount = 0
    · simp only [if_pos none] at inv ⊢
      have empty : u.overflow = [] := List.eq_nil_of_length_eq_zero (counted ▸ none)
      refine solo.goes .idle inv rfl rfl (.inr ⟨stage.2,inv.exhausted stage.1 empty ?_⟩)
      intro j
      by_cases same : j = i
      · rw [same,goes_self]
        rfl
      · rw [goes_other _ _ same,solo.others j same]
        rfl
    · simp only [if_neg none] at inv ⊢
      refine solo.goes .overflowLocking inv rfl rfl ⟨?_,stage.2⟩
      intro empty
      change u.overflow = [] at empty
      rw [empty] at counted
      exact none counted
  | overflowLocking =>
    simp only [here] at inv stage ⊢
    exact solo.goes .overflowTaking inv rfl rfl stage
  | overflowTaking =>
    simp only [here] at inv stage ⊢
    cases some : u.overflow with
    | nil => exact absurd some stage.1
    | cons out rest =>
      simp only [some] at inv ⊢
      exact solo.goes (.overflowDiscounting u.fished out) inv rfl rfl stage.2
  | overflowDiscounting n out =>
    simp only [here] at inv stage ⊢
    exact solo.goes (.overflowLeaving (some (n,out))) inv rfl rfl stage
  | overflowLeaving won =>
    cases won with
    | none =>
      rw [here] at stage
      exact stage.elim
    | some pair =>
      simp only [here] at inv stage ⊢
      refine solo.goes .idle inv rfl rfl (.inl ⟨(Source.overflow pair.1,pair.2),?_⟩)
      exact congrArg (·++[(Source.overflow pair.1,pair.2)]) stage
  | idle => exact absurd here allowed.1
  | _ =>
    rw [here] at stage
    exact stage.elim

-- How many accesses a pop has left when nothing gets in its way.
def left : MpmcAt T → Nat
  | .dequeueProbing _ => 7
  | .dequeueClaiming _ => 6
  | .dequeueReading _ => 2
  | .dequeueReleasing _ _ => 1
  | .overflowChecking => 5
  | .overflowLocking => 4
  | .overflowTaking => 3
  | .overflowDiscounting _ _ => 2
  | .overflowLeaving _ => 1
  | _ => 0

theorem Solo.allowed {s u : Mpmc T} (solo : Solo capacity s i u) (busy : u.thread i ≠ .idle) (fails : Bool) :
    u.Allowed (.step i fails) := by
  refine ⟨busy,?_⟩
  intro locking
  refine solo.mutex_free ?_
  cases here : u.thread i <;> rw [here] at locking <;> cases locking <;> rfl

theorem Solo.apply {s u : Mpmc T} (solo : Solo capacity s i u) (fails : Bool) :
    u.apply capacity (.step i fails) = u.popStep capacity i fails := by
  have stage := solo.stage
  change (if (u.thread i).pushing then u.pushStep capacity i fails else u.popStep capacity i fails) = _
  refine if_neg ?_
  cases here : u.thread i <;> rw [here] at stage <;> first | exact stage.elim | exact nofun

theorem Inv.called {s : Mpmc T} (inv : s.Inv capacity) (quiet : s.Quiet) (i : Nat) :
    Solo capacity s i (s.apply capacity (.pop i)) where
  inv := inv.looks _ (by rw [quiet i]; exact ⟨rfl,rfl⟩) ⟨rfl,rfl⟩ (by rw [quiet i]; rfl) (Nat.le_refl _)
  others := by
    intro j other
    change (s.goes i (.dequeueProbing s.dequeuePos)).thread j = .idle
    rw [goes_other _ _ other]
    exact quiet j
  pushed := rfl
  stage := by
    change SoloAt s _ ((s.goes i (.dequeueProbing s.dequeuePos)).thread i)
    rw [goes_self]
    exact ⟨rfl,rfl⟩

end Mpmc

section
variable {T : Type} [Inhabited T] {capacity : Nat}

theorem solo_runs {s u t : Mpmc T} (wide : 2 ≤ roundPow2 capacity) (solo : Mpmc.Solo capacity s i u)
    (run : Runs (mpmcSystem T capacity) u actions t) (only : ∀ a ∈ actions, ∃ fails, a = .step i fails) :
    Mpmc.Solo capacity s i t := by
  induction run with
  | nil => exact solo
  | @step earlier middle a _ allowed ih =>
    have prior := ih (fun b member => only b (List.mem_append_left _ member))
    obtain ⟨fails,rfl⟩ := only a (List.mem_append_right _ (List.mem_singleton_self a))
    change Mpmc.Solo capacity s i (middle.apply capacity (.step i fails))
    rw [prior.apply]
    exact prior.step wide allowed

-- What producers and consumers can rely on. A source names one push; the ring
-- positions are drawn in order, so the n-th pop through the ring returns what
-- was enqueued at position n.
structure Mpmc.Law (capacity : Nat) (s : Mpmc T) : Prop where
  sound : ∀ e ∈ s.popped, e ∈ s.pushed
  distinct : (s.pushed.map Prod.fst).Nodup
  once : (s.popped.map Prod.fst).Nodup
  notLost : ∀ e ∈ s.pushed, e ∈ s.popped ∨ e ∈ s.stored capacity ∨ ∃ i, (s.thread i).owes = some e.1
  kept : s.Quiet → (s.popped++s.stored capacity).Perm s.pushed
  order : s.drawn = List.range s.dequeuePos ∧ ∀ p v, (Source.ring p,v) ∈ s.popped → p ∈ s.drawn
  pops : s.Quiet → ∀ i actions t, Runs (mpmcSystem T capacity) (s.apply capacity (.pop i)) actions t →
    (∀ a ∈ actions, ∃ fails, a = .step i fails) → t.thread i = .idle →
      ((∃ e, t.popped = s.popped++[e]) ↔ ∃ e ∈ s.pushed, e ∉ s.popped) ∧
        ((¬∃ e, t.popped = s.popped++[e]) → t.popped = s.popped)
  ends : s.Quiet → ∀ i, ∃ actions t, Runs (mpmcSystem T capacity) (s.apply capacity (.pop i)) actions t ∧
    (∀ a ∈ actions, ∃ fails, a = .step i fails) ∧ t.thread i = .idle

theorem Mpmc.Inv.pops {s t : Mpmc T} (wide : 2 ≤ roundPow2 capacity) (inv : s.Inv capacity) (quiet : s.Quiet)
    (run : Runs (mpmcSystem T capacity) (s.apply capacity (.pop i)) actions t)
    (only : ∀ a ∈ actions, ∃ fails, a = .step i fails) (ended : t.thread i = .idle) :
    ((∃ e, t.popped = s.popped++[e]) ↔ ∃ e ∈ s.pushed, e ∉ s.popped) ∧
      ((¬∃ e, t.popped = s.popped++[e]) → t.popped = s.popped) := by
  have solo := solo_runs wide (inv.called quiet i) run only
  have stage := solo.stage
  rw [ended] at stage
  have pushed := solo.pushed
  have once := solo.inv.custody.once
  refine ⟨⟨?_,?_⟩,?_⟩
  · rintro ⟨e,grown⟩
    refine ⟨e,?_,?_⟩
    · rw [← pushed]
      exact solo.inv.custody.sound e (grown ▸ List.mem_append_right _ (List.mem_singleton_self e))
    · intro before
      rw [grown,List.map_append] at once
      exact (List.nodup_append.mp once).2.2 e.1 (List.mem_map_of_mem before) e.1 (List.mem_singleton_self _) rfl
  · rintro ⟨e,entered,unpopped⟩
    cases stage with
    | inl won => exact won
    | inr lost =>
      rw [lost.1,pushed] at lost
      exact absurd (lost.2 e entered) unpopped
  · intro lost
    exact (stage.resolve_left lost).1

end

instance Mpmc.decideAllowed [DecidableEq T] (s : Mpmc T) : (action : MpmcAction T) → Decidable (s.Allowed action)
  | .push i _ => inferInstanceAs (Decidable (s.thread i = .idle))
  | .pop i => inferInstanceAs (Decidable (s.thread i = .idle))
  | .step i _ => inferInstanceAs (Decidable (s.thread i ≠ .idle ∧ ((s.thread i).locking = true → s.overflowMutex = none)))

instance Mpmc.decideSystem [DecidableEq T] [Inhabited T] (s : Mpmc T) (action : MpmcAction T) :
    Decidable ((mpmcSystem T capacity).allowed s action) := inferInstanceAs (Decidable (s.Allowed action))

end Macrame

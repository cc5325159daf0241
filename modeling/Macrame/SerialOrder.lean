import Macrame.SerialTurns

namespace Macrame
open Machines

-- The tasks thread `i` has taken on and not begun, and those it is inside of.
def Pool.waiting (s : Pool) (i : ThreadId) : List Nat := (s.stores.serial i).pending.drop (s.stores.serial i).head

def Pool.inside (s : Pool) (i : ThreadId) : List Nat := (s.thread i).stack.map (fun t => t.task)

-- `popped` are the tasks in the order of their starts, `pushed` in that of their
-- submits.
structure Pool.InOrder (s : Pool) (i : ThreadId) : Prop where
  ordered : (s.stores.serial i).popped <+: (s.stores.serial i).pushed
  once : ∀ n ∈ (s.stores.serial i).pushed, (s.waiting i).count n+(s.inside i).count n+s.ran.count n = 1
  quiet : s.thread i = .running [] → ∀ n ∈ (s.stores.serial i).pushed, s.ran.count n = 1

-- A drain loop goes on until every task has been started; the outermost one, until
-- every task has finished, and then the buffer that it clears has no other.
structure Pool.Drains (c : Scheduler) (s : Pool) (i : ThreadId) : Prop where
  steps : ∀ tasks started fails pick, s.thread i = .looping tasks started → s.Allowed c (.step i fails pick)
  started : ∀ tasks started fails pick, s.thread i = .looping tasks started →
    (s.apply c (.step i fails pick)).thread i = .running tasks → (s.stores.serial i).popped = (s.stores.serial i).pushed
  cleared : ∀ tasks fails pick, s.thread i = .looping tasks true →
    (s.apply c (.step i fails pick)).thread i = .running tasks →
      ∀ n ∈ (s.stores.serial i).pending, n ∈ (s.stores.serial i).popped ∧ s.ran.count n = 1

-- Somewhere in the run the body of `n` is the innermost on thread `i` and submits
-- `m`.
def Submits (c : Scheduler) (i : ThreadId) (s : Pool) (schedule : List PoolAction) (n m : Nat) : Prop :=
  ∃ before p after t rest, schedule = before++PoolAction.submit i p :: after ∧
    ((poolSystem c).follow s before).thread i = .running (t :: rest) ∧ t.task = n ∧
    ((poolSystem c).follow s before).submitted = m

-- A submit outside any drain is the outside code's; when that goes on, everything
-- the submit has led to has finished.
def Pool.Completes (c : Scheduler) (s : Pool) (i : ThreadId) : Prop :=
  ∀ tasks p, s.thread i = .running tasks → (s.stores.serial i).draining = false → tasks = [] ∧
    ∀ schedule, (poolSystem c).Each (poolSystem c).allowed (s.apply c (.submit i p)) schedule →
      ((poolSystem c).follow (s.apply c (.submit i p)) schedule).thread i = .running [] →
        ∀ m, Relation.ReflTransGen (Submits c i (s.apply c (.submit i p)) schedule) s.submitted m →
          ((poolSystem c).follow (s.apply c (.submit i p)) schedule).ran.count m = 1

structure Pool.Known (c : Scheduler) (s : Pool) : Prop where
  sound : s.Sound c
  frames : s.Stacked c
  accounted : s.Accounted c
  drawn : s.Drawn
  buffered : ∀ i, (s.stores.serial i).pending <:+ (s.stores.serial i).pushed

section Runs

variable {c : Scheduler} {s t : Pool} {i : ThreadId}

theorem known_start (single : c.singleThreaded = true) : (Pool.fresh c).Known c := by
  refine ⟨fresh_sound c,fresh_stacked c,fresh_accounted c,?_,fun _ => List.nil_suffix⟩
  intro i t member
  simp only [Pool.fresh,if_neg (c.not_both single)] at member
  cases member

theorem known_step (single : c.singleThreaded = true) (known : s.Known c) (allowed : s.Allowed c a) : (s.apply c a).Known c := by
  obtain ⟨sound,frames,accounted,drawn,buffered⟩ := known
  have step : PoolStep c False s (s.apply c a) := pool_step allowed nofun
  refine ⟨pool_sound_step sound step,pool_stacked_step sound frames step,pool_accounted_step sound frames accounted step,?_,?_⟩
  · intro i
    rcases serial_turned sound single allowed i with turn | ⟨_,serial,thread⟩
    · exact turn.drawn (drawn i)
    · rw [serial,thread]
      exact drawn i
  · intro i
    rcases serial_turned sound single allowed i with turn | ⟨_,serial,_⟩
    · exact turn.buffered (buffered i)
    · rw [serial]
      exact buffered i

theorem known_run (single : c.singleThreaded = true) (known : s.Known c)
    (run : (poolSystem c).Each (poolSystem c).allowed s schedule) : ((poolSystem c).follow s schedule).Known c :=
  throughout_last (throughout_of (Pool.Known c) (fun _ _ => known_step single) (fun _ here => here) known run)

theorem Pool.Known.holds (known : s.Known c) (single : c.singleThreaded = true) (i : ThreadId) :
    (s.thread i).holds = s.inside i := by
  unfold Pool.inside
  rcases known.sound.standing single i with ⟨tasks,at_⟩ | ⟨tasks,started,at_⟩ <;> (rw [at_]; rfl)

-- A task that thread `i` is inside of has come from its own trampoline.
theorem Pool.Known.inside_popped (known : s.Known c) (inside : n ∈ s.inside i) : n ∈ (s.stores.serial i).popped := by
  obtain ⟨t,member,rfl⟩ := List.mem_map.mp inside
  exact known.drawn i t member

-- What one trampoline has taken on, no other store has.
theorem Pool.Known.own (known : s.Known c) (here : n ∈ (s.stores.serial i).pushed) (handed : n ∈ s.stores.handed lane) :
    n ∈ (s.stores.serial i).popped := by
  have same := known.accounted.home (.serial i) lane n here (known.accounted.owned lane n handed)
  rw [← same] at handed
  exact handed

-- A task that thread `i` has drawn is on its own stack, or has finished.
theorem Pool.Known.placed (known : s.Known c) (single : c.singleThreaded = true) (here : n ∈ (s.stores.serial i).popped) :
    n ∈ s.ran ∨ n ∈ s.inside i := by
  rcases known.accounted.out (.serial i) n here with ran | ⟨j,held⟩
  · exact .inl ran
  · rw [known.holds single] at held
    have there := known.inside_popped held
    have same := known.accounted.home (.serial i) (.serial j) n (known.accounted.owned (.serial i) n here)
      (known.accounted.owned (.serial j) n there)
    cases same
    exact .inr held

theorem Pool.Known.inOrder (known : s.Known c) (single : c.singleThreaded = true) (i : ThreadId) : s.InOrder i := by
  have holds := known.frames.tramp single i
  have split : (s.stores.serial i).pushed = (s.stores.serial i).popped++s.waiting i := holds.kept.2
  have distinct : ((s.stores.serial i).popped++s.waiting i).Nodup := split ▸ known.accounted.single (.serial i)
  obtain ⟨_,waitingOnce,apart⟩ := List.nodup_append.mp distinct
  have once : ∀ n ∈ (s.stores.serial i).pushed, (s.waiting i).count n+(s.inside i).count n+s.ran.count n = 1 := by
    intro n here
    by_cases begun : n ∈ (s.stores.serial i).popped
    · have notWaiting : (s.waiting i).count n = 0 := List.count_eq_zero_of_not_mem (fun late => apart n begun n late rfl)
      rcases known.placed single begun with ran | inside
      · have left : n ∉ s.inside i := by
          rw [← known.holds single]
          exact fun held => (known.accounted.held i n held).2 ran
        rw [notWaiting,List.count_eq_zero_of_not_mem left,List.count_eq_one_of_mem known.accounted.final ran]
      · have held : n ∈ (s.thread i).holds := known.holds single i ▸ inside
        have alone : (s.inside i).Nodup := known.holds single i ▸ known.accounted.alone i
        rw [notWaiting,List.count_eq_one_of_mem alone inside,
          List.count_eq_zero_of_not_mem (known.accounted.held i n held).2]
    · have waits : n ∈ s.waiting i := by
        rw [split] at here
        exact (List.mem_append.mp here).resolve_left begun
      have notInside : n ∉ s.inside i := fun inside => begun (known.inside_popped inside)
      have notRan : n ∉ s.ran := by
        intro ran
        obtain ⟨lane,handed⟩ := known.accounted.finished n ran
        exact begun (known.own here handed)
      rw [List.count_eq_one_of_mem waitingOnce waits,List.count_eq_zero_of_not_mem notInside,
        List.count_eq_zero_of_not_mem notRan]
  refine ⟨⟨s.waiting i,split.symm⟩,once,?_⟩
  intro at_ n here
  rw [at_] at holds
  have placed := once n here
  have nothing : s.waiting i = [] := by
    unfold Pool.waiting
    rw [holds.spent holds.drains]
    exact List.drop_nil
  have bare : s.inside i = [] := by
    unfold Pool.inside
    rw [at_]
    rfl
  simpa only [nothing,bare,List.count_nil,Nat.zero_add] using placed

-- A drain loop that returns has found nothing left.
theorem looping_returns (at_ : s.thread i = .looping tasks started)
    (back : (s.apply c (.step i fails pick)).thread i = .running tasks) :
    (s.stores.serial i).pending[(s.stores.serial i).head]? = none := by
  rw [looping_step at_] at back
  split at back
  · simp only [Pool.goes,Function.update_self,PoolAt.running.injEq] at back
    exact absurd (congrArg List.length back) (by simp)
  · assumption

theorem Pool.Known.drains (known : s.Known c) (single : c.singleThreaded = true) (i : ThreadId) : s.Drains c i := by
  have holds := known.frames.tramp single i
  have order := known.inOrder single i
  refine ⟨?_,?_,?_⟩
  · intro tasks started fails pick at_
    change s.Steps c i pick
    unfold Pool.Steps
    rw [at_]
    intro call asks
    cases asks
  · intro tasks started fails pick at_ back
    exact (holds.kept.clear (looping_returns at_ back)).symm
  · intro tasks fails pick at_ back n pending
    have none := looping_returns at_ back
    have all := holds.kept.clear none
    have here := (known.buffered i).subset pending
    have placed := order.once n here
    have nothing : s.waiting i = [] := List.drop_eq_nil_of_le (List.getElem?_eq_none_iff.mp none)
    have bare : s.inside i = [] := by
      unfold Pool.inside
      rw [at_,((known.frames.stacked i).outermost tasks at_).1]
      rfl
    simp only [nothing,bare,List.count_nil,Nat.zero_add] at placed
    exact ⟨all ▸ here,placed⟩

-- What a run adds to a trampoline is never taken back.
theorem run_pushed (single : c.singleThreaded = true) (known : s.Known c)
    (run : (poolSystem c).Each (poolSystem c).allowed s schedule) :
    (s.stores.serial i).pushed <+: (((poolSystem c).follow s schedule).stores.serial i).pushed := by
  induction schedule generalizing s with
  | nil => exact List.prefix_rfl
  | cons a rest ih =>
    refine List.IsPrefix.trans ?_ (ih (known_step single known run.1) run.2)
    rcases serial_turned known.sound single run.1 i with turn | ⟨_,serial,_⟩
    · exact turn.pushed_later
    · rw [show (poolSystem c).apply = Pool.apply c from rfl,serial]

theorem submit_pushes (known : s.Known c) (single : c.singleThreaded = true) (at_ : s.thread i = .running tasks) (p : Priority) :
    s.submitted ∈ ((s.apply c (.submit i p)).stores.serial i).pushed := by
  have allowed : s.Allowed c (.submit i p) := by
    change (s.thread i).runs = true
    rw [at_]
    rfl
  rcases serial_turned known.sound single allowed i with turn | ⟨other,_⟩
  · rw [turn.pushes]
    exact List.mem_append_right _ (List.mem_singleton_self _)
  · exact absurd other (by simp [PoolAction.turns])

theorem Pool.Known.completes (known : s.Known c) (single : c.singleThreaded = true) (i : ThreadId) : s.Completes c i := by
  intro tasks p at_ idle
  have holds := known.frames.tramp single i
  refine ⟨?_,?_⟩
  · have rests := holds.quiet idle
    rw [at_] at rests
    exact PoolAt.resting_running rests
  · intro schedule run back m led
    have allowed : s.Allowed c (.submit i p) := by
      change (s.thread i).runs = true
      rw [at_]
      rfl
    have begun := known_step single known allowed
    have ends := known_run single begun run
    refine (ends.inOrder single i).quiet back m ?_
    induction led with
    | refl => exact (run_pushed single begun run).subset (submit_pushes known single at_ p)
    | tail _ led _ =>
      obtain ⟨before,p,after,t,rest,rfl,inner,_,rfl⟩ := led
      obtain ⟨first,second⟩ := each_split run
      have there := known_run single begun first
      rw [follow_append]
      have later := run_pushed (i := i) single (known_step single there (a := .submit i p) second.1) second.2
      exact later.subset (submit_pushes there single inner p)

-- A run has as many rounds and returns as its submits and drains give rise to.
theorem run_work (single : c.singleThreaded = true) (known : s.Known c)
    (run : (poolSystem c).Each (poolSystem c).allowed s schedule) :
    schedule.countP (PoolAction.rounds i)+
        serialWork (((poolSystem c).follow s schedule).stores.serial i) (((poolSystem c).follow s schedule).thread i) ≤
      serialWork (s.stores.serial i) (s.thread i)+4*schedule.countP (PoolAction.submits i)+
        schedule.countP (PoolAction.drains i) := by
  induction schedule generalizing s with
  | nil => exact Nat.le_of_eq (Nat.zero_add _)
  | cons a rest ih =>
    have later := ih (known_step single known run.1) run.2
    have now : [a].countP (PoolAction.rounds i)+serialWork ((s.apply c a).stores.serial i) ((s.apply c a).thread i) ≤
        serialWork (s.stores.serial i) (s.thread i)+4*[a].countP (PoolAction.submits i)+[a].countP (PoolAction.drains i) := by
      rcases serial_turned known.sound single run.1 i with turn | ⟨idle,serial,thread⟩
      · exact turn.work (known.frames.tramp single i).kept
      · obtain ⟨submits,drains,rounds⟩ := PoolAction.idle idle
        simp only [List.countP_singleton,submits,drains,rounds,serial,thread]
        omega
    rw [← List.singleton_append,List.countP_append,List.countP_append,List.countP_append]
    change _+serialWork (((poolSystem c).follow (s.apply c a) rest).stores.serial i)
      (((poolSystem c).follow (s.apply c a) rest).thread i) ≤ _
    change _+serialWork (((poolSystem c).follow (s.apply c a) rest).stores.serial i)
      (((poolSystem c).follow (s.apply c a) rest).thread i) ≤ _ at later
    omega

theorem run_counted (single : c.singleThreaded = true) (known : s.Known c)
    (run : (poolSystem c).Each (poolSystem c).allowed s schedule) :
    (((poolSystem c).follow s schedule).stores.serial i).pushed.length =
      (s.stores.serial i).pushed.length+schedule.countP (PoolAction.submits i) := by
  induction schedule generalizing s with
  | nil => rfl
  | cons a rest ih =>
    have later := ih (known_step single known run.1) run.2
    have now : ((s.apply c a).stores.serial i).pushed.length =
        (s.stores.serial i).pushed.length+[a].countP (PoolAction.submits i) := by
      rcases serial_turned known.sound single run.1 i with turn | ⟨idle,serial,_⟩
      · exact turn.counted
      · rw [serial,List.countP_singleton,(PoolAction.idle idle).1]
        rfl
    rw [← List.singleton_append,List.countP_append,← Nat.add_assoc,← now]
    exact later

end Runs

-- Each submit has pushed one task, and the loops' rounds and the returns are no
-- more than the submits and the drains give rise to.
theorem serial_order (single : c.singleThreaded = true) (i : ThreadId)
    (run : (poolSystem c).Each (poolSystem c).allowed (Pool.fresh c) schedule) :
    let s := (poolSystem c).follow (Pool.fresh c) schedule
    (s.stores.serial i).pushed.length = schedule.countP (PoolAction.submits i) ∧
      schedule.countP (PoolAction.rounds i) ≤
        4*schedule.countP (PoolAction.submits i)+schedule.countP (PoolAction.drains i) ∧
      s.InOrder i ∧ s.Drains c i ∧ s.Completes c i := by
  intro s
  have begun := known_start single
  have known : s.Known c := known_run single begun run
  have counted := run_counted (i := i) single begun run
  have work := run_work (i := i) single begun run
  have nothing : ((Pool.fresh c).stores.serial i).pushed.length = 0 := rfl
  have rests : serialWork ((Pool.fresh c).stores.serial i) ((Pool.fresh c).thread i) = 0 := by
    simp only [Pool.fresh,if_neg (c.not_both single)]
    rfl
  rw [nothing,Nat.zero_add] at counted
  refine ⟨counted,?_,known.inOrder single i,known.drains single i,known.completes single i⟩
  omega

def workerless : Scheduler := SchedulerConfig.scheduler { singleThreaded := true } 0

-- Task 0 submits 1 and 2 and drains them; 1 submits 3 meanwhile.
def nestedDrain : List PoolAction :=
  [.submit 0 .normal,.step 0 false 0,.submit 0 .low,.submit 0 .high,.drain 0,.step 0 false 0,.submit 0 .normal,.finish 0,
    .step 0 false 0,.finish 0,.step 0 false 0,.finish 0,.step 0 false 0,.finish 0,.step 0 false 0]

theorem serial_order_nested :
    (((poolSystem workerless).follow (Pool.fresh workerless) nestedDrain).InOrder 0 ∧
      ((poolSystem workerless).follow (Pool.fresh workerless) nestedDrain).Completes workerless 0) ∧
    (((poolSystem workerless).follow (Pool.fresh workerless) nestedDrain).stores.serial 0).popped = [0,1,2,3] ∧
    ((poolSystem workerless).follow (Pool.fresh workerless) nestedDrain).ran = [1,2,3,0] := by
  have run : (poolSystem workerless).Each (poolSystem workerless).allowed (Pool.fresh workerless) nestedDrain :=
    each_of_admits (by decide)
  obtain ⟨_,_,order,_,completes⟩ := serial_order rfl 0 run
  exact ⟨⟨order,completes⟩,by decide,by decide⟩

end Macrame

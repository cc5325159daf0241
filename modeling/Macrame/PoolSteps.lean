import Macrame.Pool
import Macrame.StoreProbes

namespace Macrame
open Machines

-- Where `wait_for_work` can begin.
inductive PoolAt.Idling : PoolAt → Prop where
  | rescans : Idling .top
  | spins : Idling (.finding (.spin 0) .high)
  | prepares : Idling .preparing
  | enlists : Idling .spinning

theorem Scheduler.waitForWork_idling (c : Scheduler) : c.waitForWork.Idling := by
  unfold Scheduler.waitForWork
  cases c.idlePolicy with
  | spin => exact .rescans
  | spinThenBlock =>
    simp only
    split
    · exact .spins
    · exact .prepares
  | handoff => exact .enlists

-- Where the load of `quit_` can send a worker that has scanned in vain.
inductive Search.Checked (quit : Bool) : Search → PoolAt → Prop where
  | empties : quit = true → Checked quit .loop (.emptying (.count .high))
  | waits : next.Idling → Checked quit .loop next
  | prepares (n : Nat) : Checked quit (.spin n) .preparing
  | respins (n : Nat) : Checked quit (.spin n) (.finding (.spin (n+1)) .high)
  | leaves (key : Nat) : quit = true → Checked quit (.park key) .top
  | commits (key : Nat) : Checked quit (.park key) (.committing key)
  | stops (n : Nat) : quit = true → Checked quit (.handoff n) (.unspinning .quit)
  | rehands (n : Nat) : Checked quit (.handoff n) (.finding (.handoff (n+1)) .high)
  | spends (n : Nat) : Checked quit (.handoff n) (.unspinning .spent)

theorem Search.checked_checked (c : Scheduler) (quit : Bool) (search : Search) :
    Search.Checked quit search (search.checked c quit) := by
  cases search with
  | loop =>
    simp only [checked]
    split
    · exact .empties ‹_›
    · exact .waits c.waitForWork_idling
  | spin n =>
    simp only [checked]
    split
    · exact .prepares n
    · split
      · exact .respins n
      · exact .prepares n
  | park key =>
    simp only [checked]
    split
    · exact .leaves key ‹_›
    · exact .commits key
  | handoff n =>
    simp only [checked]
    split
    · exact .stops n ‹_›
    · split
      · exact .rehands n
      · exact .spends n

-- Where a load of `all_empty` can send a worker: on, or back out of it.
inductive Probe.Stepped (c : Scheduler) (s : Stores) : Probe → PoolAt → Prop where
  | filled (probe : Probe) : next.Idling → Stepped c s probe next
  | uncounted (p : Priority) : (s.queues p).overflowCount = 0 → Stepped c s (.count p) (.emptying (.head p))
  | headed (p : Priority) : Stepped c s (.head p) (.emptying (.tail p (s.queues p).dequeuePos))
  | pastHigh (deq : Nat) : deq = (s.queues .high).enqueuePos →
      Stepped c s (.tail .high deq) (.emptying (.count .normal))
  | pastNormal (deq : Nat) : deq = (s.queues .normal).enqueuePos →
      Stepped c s (.tail .normal deq) (.emptying (.count .low))
  | pastLow (deq : Nat) : deq = (s.queues .low).enqueuePos → 0 < c.workers →
      Stepped c s (.tail .low deq) (.emptying (.bottom 0))
  | workerless (deq : Nat) : deq = (s.queues .low).enqueuePos → Stepped c s (.tail .low deq) .exited
  | topped (v : ThreadId) : Stepped c s (.bottom v) (.emptying (.top v (s.deques v).bottom))
  | passed (v : ThreadId) (b : Int) : b ≤ (s.deques v).top → v+1 < c.workers →
      Stepped c s (.top v b) (.emptying (.bottom (v+1)))
  | exits (v : ThreadId) (b : Int) : b ≤ (s.deques v).top → Stepped c s (.top v b) .exited

theorem Probe.step_stepped (c : Scheduler) (s : Stores) (probe : Probe) : Probe.Stepped c s probe (probe.step c s) := by
  have filled : Probe.Stepped c s probe c.waitForWork := .filled probe c.waitForWork_idling
  cases probe with
  | count p =>
    simp only [step]
    split
    · exact .uncounted p ‹_›
    · exact filled
  | head p => exact .headed p
  | tail p deq =>
    simp only [step]
    split
    · cases p with
      | high => exact .pastHigh deq ‹_›
      | normal => exact .pastNormal deq ‹_›
      | low =>
        simp only
        split
        · exact .pastLow deq ‹_› ‹_›
        · exact .workerless deq ‹_›
    · exact filled
  | bottom v => exact .topped v
  | top v b =>
    simp only [step]
    split
    · split
      · exact .passed v b ‹_› ‹_›
      · exact .exits v b ‹_›
    · exact filled

-- The call a thread is in, by where it stands.
inductive PoolAt.Asks (c : Scheduler) (i : ThreadId) : PoolAt → StoreCall → Prop where
  | putting (tasks : List RunningTask) (n : Nat) : Asks c i (.putting tasks n) (.put n)
  | pushing (tasks : List RunningTask) (p : Priority) (n : Nat) : Asks c i (.pushing tasks p n) (.push p n)
  | yielding (tasks : List RunningTask) (own p : Priority) : Asks c i (.yielding tasks own p) (.pop p)
  | finding (search : Search) (scan : Scan) : scan.call c i = some asked → asked.fetches = true →
      Asks c i (.finding search scan) asked

theorem Scan.call_fetches {scan : Scan} (asks : scan.call c i = some asked) : asked.fetches = true := by
  cases scan with
  | steal start k =>
    simp only [call] at asks
    split at asks
    · cases asks
      rfl
    · cases asks
  | _ => cases asks; rfl

theorem PoolAt.call_asks {at_ : PoolAt} (asks : at_.call c i = some asked) : at_.Asks c i asked := by
  cases at_ with
  | putting tasks n => cases asks; exact .putting tasks n
  | pushing tasks p n => cases asks; exact .pushing tasks p n
  | yielding tasks own p => cases asks; exact .yielding tasks own p
  | finding search scan => exact .finding search scan asks (Scan.call_fetches asks)
  | _ => cases asks

theorem Aging.valve_scans (a : Aging) : ∃ next, a.valve.2 = .scan next := by
  unfold Aging.valve
  split <;> exact ⟨_,rfl⟩

-- A scan goes by what its call has answered, and only the last one ends it.
theorem Scan.answered_some (c : Scheduler) (pick : Nat) (a : Aging) (scan : Scan) (n : Nat) :
    (scan.answered c pick a (some n)).2 = .found n := by
  cases scan <;> rfl

theorem Scan.answered_none (c : Scheduler) (pick : Nat) (a : Aging) (scan : Scan) :
    (∃ next, (scan.answered c pick a none).2 = .scan next) ∨
      (scan = .low ∧ (scan.answered c pick a none).2 = .nothing) := by
  cases scan with
  | high =>
    simp only [answered]
    split
    · exact .inl ⟨_,rfl⟩
    · exact .inl (Aging.valve_scans _)
  | lowValve => exact .inl (Aging.valve_scans _)
  | low => exact .inr ⟨rfl,rfl⟩
  | _ => exact .inl ⟨_,rfl⟩

theorem Scheduler.signalSubmit_cases (c : Scheduler) (tasks : List RunningTask) :
    c.signalSubmit tasks = .running tasks ∨ c.signalSubmit tasks = .advancing tasks := by
  unfold Scheduler.signalSubmit
  cases c.idlePolicy with
  | spin => exact .inl rfl
  | _ => exact .inr rfl

-- Where a thread can go on when its call has returned with `out`.
inductive PoolAt.Returns (c : Scheduler) (i : ThreadId) (out : Option Nat) : PoolAt → PoolAt → Prop where
  | kept (tasks : List RunningTask) (n : Nat) : out = none → Returns c i out (.putting tasks n) (c.signalSubmit tasks)
  | refused (tasks : List RunningTask) (n : Nat) : out ≠ none →
      Returns c i out (.putting tasks n) (.pushing tasks .normal n)
  | pushed (tasks : List RunningTask) (p : Priority) (n : Nat) :
      Returns c i out (.pushing tasks p n) (c.signalSubmit tasks)
  | yields (tasks : List RunningTask) (own p : Priority) (n : Nat) : out = some n →
      Returns c i out (.yielding tasks own p) (.running (⟨n,.yield⟩ :: tasks))
  | lowers (tasks : List RunningTask) (own p : Priority) : out = none →
      Returns c i out (.yielding tasks own p) (.yielding tasks own .normal)
  | resumes (tasks : List RunningTask) (own p : Priority) : out = none →
      Returns c i out (.yielding tasks own p) (.running tasks)
  | scans (search : Search) (scan next : Scan) (pick : Nat) (a : Aging) : out = none →
      (scan.answered c pick a none).2 = .scan next → Returns c i out (.finding search scan) (.finding search next)
  | found (search : Search) (scan : Scan) (n : Nat) : out = some n →
      Returns c i out (.finding search scan) (search.found n)
  | checks (search : Search) : out = none → Returns c i out (.finding search .low) (.checking search)

theorem PoolAt.answered_returns {at_ : PoolAt} (pick : Nat) (a : Aging) (out : Option Nat)
    (asks : at_.call c i = some asked) : at_.Returns c i out (at_.answered c pick a out).2 := by
  cases at_ with
  | putting tasks n =>
    simp only [answered]
    split
    · exact .kept tasks n ‹_›
    · exact .refused tasks n ‹_›
  | pushing tasks p n => exact .pushed tasks p n
  | yielding tasks own p =>
    simp only [answered]
    split
    · exact .yields tasks own p _ rfl
    · split
      · exact .lowers tasks own p rfl
      · exact .resumes tasks own p rfl
  | finding search scan =>
    simp only [answered]
    cases out with
    | some n =>
      have found := Scan.answered_some c pick a scan n
      split <;> rename_i went <;> rw [went] at found <;> cases found
      exact .found search scan n rfl
    | none =>
      rcases Scan.answered_none c pick a scan with ⟨next,scans⟩ | ⟨low,nothing⟩
      · split <;> rename_i went <;> rw [went] at scans <;> cases scans
        exact .scans search scan next pick a rfl (congrArg Prod.snd went)
      · subst low
        exact .checks search rfl
  | _ => cases asks

-- The moves that change nothing but where one thread stands.
inductive PoolMove (c : Scheduler) (timed : Prop) (s : Pool) (i : ThreadId) : PoolAt → PoolAt → Prop where
  | yields (tasks : List RunningTask) (own : Priority) : i < c.workers →
      PoolMove c timed s i (.running tasks) (.yielding tasks own .high)
  | drains (tasks : List RunningTask) : PoolMove c timed s i (.running tasks) (.looping tasks false)
  | drained (tasks : List RunningTask) : PoolMove c timed s i (.looping tasks false) (.running tasks)
  | wakes (tasks : List RunningTask) : s.numSpinning = 0 → PoolMove c timed s i (.deciding tasks) (.waking tasks)
  | skips (tasks : List RunningTask) : s.numSpinning ≠ 0 → PoolMove c timed s i (.deciding tasks) (.running tasks)
  | passes (search : Search) (start k : Nat) : (Scan.steal start k).call c i = none →
      PoolMove c timed s i (.finding search (.steal start k))
        (.finding search (if k < c.workers then .steal start (k+1) else .low))
  | checks (search : Search) : Search.Checked s.quit search next → PoolMove c timed s i (.checking search) next
  | probes (probe : Probe) : Probe.Stepped c s.stores probe next → PoolMove c timed s i (.emptying probe) next
  | prepares : PoolMove c timed s i .preparing (.finding (.park s.epoch) .high)
  | parks (key : Nat) : s.epoch % epochModulus = key % epochModulus → (timed → s.epoch < key+epochModulus) →
      PoolMove c timed s i (.committing key) (.blocked key)
  | returns (key : Nat) : PoolMove c timed s i (.committing key) .top
  | rouses (key : Nat) : PoolMove c timed s i (.blocked key) (.committing key)

-- Everything one step can do.
inductive PoolStep (c : Scheduler) (timed : Prop) (s : Pool) : Pool → Prop where
  | stays : PoolStep c timed s s
  | moves (i : ThreadId) (next : PoolAt) : PoolMove c timed s i (s.thread i) next → PoolStep c timed s (s.goes i next)
  | submits (i : ThreadId) (tasks : List RunningTask) (next : PoolAt) : c.singleThreaded = false →
      s.thread i = .running tasks →
      (i < c.workers ∧ next = .putting tasks s.submitted) ∨ (∃ p, next = .pushing tasks p s.submitted) →
      PoolStep c timed s ({ s with submitted := s.submitted+1 }.goes i next)
  | appends (i : ThreadId) (tasks : List RunningTask) : c.singleThreaded = true → s.thread i = .running tasks →
      (s.stores.serial i).draining = true →
      PoolStep c timed s ({ s with submitted := s.submitted+1 }.withSerial i ((s.stores.serial i).push s.submitted))
  | starts (i : ThreadId) (tasks : List RunningTask) : c.singleThreaded = true → s.thread i = .running tasks →
      (s.stores.serial i).draining = false →
      PoolStep c timed s (({ s with submitted := s.submitted+1 }.withSerial i
        { (s.stores.serial i).push s.submitted with draining := true }).goes i (.looping tasks true))
  | draws (i : ThreadId) (tasks : List RunningTask) (started : Bool) (n : Nat) : s.thread i = .looping tasks started →
      (s.stores.serial i).pending[(s.stores.serial i).head]? = some n →
      PoolStep c timed s ((s.withSerial i { s.stores.serial i with
        head := (s.stores.serial i).head+1, popped := (s.stores.serial i).popped++[n] }).goes i
          (.running (⟨n,.serial started⟩ :: tasks)))
  | ends (i : ThreadId) (tasks : List RunningTask) : s.thread i = .looping tasks true →
      (s.stores.serial i).pending[(s.stores.serial i).head]? = none →
      PoolStep c timed s ((s.withSerial i { s.stores.serial i with pending := [], head := 0, draining := false }).goes i
        (.running tasks))
  | finishes (i : ThreadId) (t : RunningTask) (rest : List RunningTask) : s.thread i = .running (t :: rest) →
      PoolStep c timed s ({ s with ran := s.ran++[t.task] }.goes i (t.dispatch.back rest))
  | inside (i : ThreadId) (fails : Bool) (call : StoreCall) : (s.thread i).call c i = some call →
      s.stores.Ready i call → s.stores.answer (s.stores.access i fails call) i call = none →
      PoolStep c timed s { s with stores := s.stores.access i fails call }
  | back (i : ThreadId) (fails : Bool) (pick : Nat) (call : StoreCall) (out : Option Nat) :
      (s.thread i).call c i = some call → s.stores.Ready i call →
      s.stores.answer (s.stores.access i fails call) i call = some out →
      PoolStep c timed s
        ({ s with stores := s.stores.access i fails call,
                  aging := Function.update s.aging i ((s.thread i).answered c pick (s.aging i) out).1 }.goes i
          ((s.thread i).answered c pick (s.aging i) out).2)
  | advances (i : ThreadId) (tasks : List RunningTask) : s.thread i = .advancing tasks →
      PoolStep c timed s ({ s with epoch := s.epoch+1 }.goes i
        (if c.idlePolicy = IdlePolicy.handoff then .deciding tasks else .waking tasks))
  | promotes (i : ThreadId) (n : Nat) : s.thread i = .promoting n →
      PoolStep c timed s ({ s with epoch := s.epoch+1 }.goes i (.waking [⟨n,.worker⟩]))
  | wakes (i : ThreadId) (tasks : List RunningTask) (pick : Nat) : s.thread i = .waking tasks →
      ((∃ w, w < c.workers ∧ (s.thread w).isBlocked = true) → (s.thread pick).isBlocked = true) →
      PoolStep c timed s ((s.rouse pick).goes i (.running tasks))
  | enlists (i : ThreadId) : s.thread i = .spinning →
      PoolStep c timed s ({ s with numSpinning := s.numSpinning+1 }.goes i
        (if 0 < c.spinCycles then .finding (.handoff 0) .high else .unspinning .spent))
  | retires (i : ThreadId) (stop : SpinEnd) : s.thread i = .unspinning stop →
      PoolStep c timed s ({ s with numSpinning := s.numSpinning-1 }.goes i (stop.left s.numSpinning))
  | quits : s.closing = .opened → PoolStep c timed s { s with closing := .notifying }
  | shuts : s.closing = .notifying → c.idlePolicy = .spin → PoolStep c timed s { s with closing := .closed }
  | notifies : s.closing = .notifying → c.idlePolicy ≠ .spin →
      PoolStep c timed s { s with epoch := s.epoch+1, closing := .waking }
  | rouses : s.closing = .waking →
      PoolStep c timed s { s with closing := .closed, thread := fun w => (s.thread w).roused }

-- No wake-up compares an epoch that has gone round since the key was read.
def Pool.Timely (s : Pool) : PoolAction → Prop
  | .step i _ _ => ∀ key, s.thread i = .committing key → s.epoch < key+epochModulus
  | _ => True

theorem PoolAt.roused_blocked {at_ : PoolAt} (blocked : at_.isBlocked = true) : ∃ key, at_ = .blocked key := by
  cases at_ <;> first | exact ⟨_,rfl⟩ | cases blocked

theorem PoolAt.runs_iff {at_ : PoolAt} : at_.runs = true ↔ ∃ tasks, at_ = .running tasks := by
  cases at_ <;> simp [runs]

theorem own_step {s : Pool} (c : Scheduler) (timed : Prop) (outside : (s.thread i).call c i = none)
    (steps : s.Steps c i pick) (timely : timed → ∀ key, s.thread i = .committing key → s.epoch < key+epochModulus) :
    PoolStep c timed s (s.ownStep c i pick) := by
  unfold Pool.Steps at steps
  unfold Pool.ownStep
  cases at_ : s.thread i with
  | advancing tasks => exact .advances i tasks at_
  | deciding tasks =>
    refine .moves i _ ?_
    rw [at_]
    split
    · exact .wakes tasks ‹_›
    · exact .skips tasks ‹_›
  | waking tasks =>
    rw [at_] at steps
    exact .wakes i tasks pick at_ steps
  | promoting n => exact .promotes i n at_
  | looping tasks started =>
    simp only
    split
    · exact .draws i tasks started _ at_ ‹_›
    · split
      · rename_i none yes
        subst yes
        exact .ends i tasks at_ none
      · rename_i no
        cases (Bool.not_eq_true started ▸ no : started = false)
        exact .moves i _ (at_ ▸ .drained tasks)
  | finding search scan =>
    rw [at_] at outside
    cases scan with
    | steal start k => exact .moves i _ (at_ ▸ .passes search start k outside)
    | _ => cases outside
  | checking search => exact .moves i _ (at_ ▸ .checks search (Search.checked_checked c _ search))
  | emptying probe => exact .moves i _ (at_ ▸ .probes probe (Probe.step_stepped c _ probe))
  | spinning => exact .enlists i at_
  | unspinning stop => exact .retires i stop at_
  | preparing => exact .moves i _ (at_ ▸ .prepares)
  | committing key =>
    refine .moves i _ ?_
    rw [at_]
    split
    · exact .parks key ‹_› (fun yes => timely yes key at_)
    · exact .returns key
  | running tasks => rw [at_] at steps; exact steps.elim
  | blocked key => rw [at_] at steps; exact steps.elim
  | exited => rw [at_] at steps; exact steps.elim
  | putting tasks n => rw [at_] at outside; cases outside
  | pushing tasks p n => rw [at_] at outside; cases outside
  | yielding tasks own p => rw [at_] at outside; cases outside

theorem pool_step {s : Pool} {c : Scheduler} {timed : Prop} (allowed : s.Allowed c action)
    (timely : timed → s.Timely action) : PoolStep c timed s (s.apply c action) := by
  cases action with
  | submit i priority =>
    obtain ⟨tasks,at_⟩ := PoolAt.runs_iff.mp allowed
    simp only [Pool.apply,at_,Pool.submit]
    split
    · split
      · exact .appends i tasks ‹_› at_ ‹_›
      · exact .starts i tasks ‹_› at_ (Bool.eq_false_iff.mpr ‹_›)
    · rename_i pooled
      have pooled : c.singleThreaded = false := by simpa using pooled
      split
      · exact .submits i tasks _ pooled at_ (.inl ⟨‹_ ∧ _›.2,rfl⟩)
      · exact .submits i tasks _ pooled at_ (.inr ⟨priority,rfl⟩)
  | yield i own =>
    obtain ⟨tasks,at_⟩ := PoolAt.runs_iff.mp allowed
    simp only [Pool.apply,at_]
    split
    · exact .stays
    · rename_i goes
      have worker : i < c.workers := by
        by_contra outside
        exact goes (.inr (.inr (Nat.le_of_not_lt outside)))
      exact .moves i _ (at_ ▸ .yields tasks own worker)
  | drain i =>
    obtain ⟨tasks,at_⟩ := PoolAt.runs_iff.mp allowed
    simp only [Pool.apply,at_]
    exact .moves i _ (at_ ▸ .drains tasks)
  | finish i =>
    obtain ⟨tasks,at_⟩ := PoolAt.runs_iff.mp allowed.1
    cases tasks with
    | nil => exact absurd at_ allowed.2
    | cons t rest =>
      simp only [Pool.apply,at_]
      exact .finishes i t rest at_
  | step i fails pick =>
    change PoolStep c timed s (s.step c i fails pick)
    change s.Steps c i pick at allowed
    unfold Pool.step
    cases call : (s.thread i).call c i with
    | none => exact own_step c timed call allowed (fun yes => timely yes)
    | some call' =>
      have ready : s.stores.Ready i call' := by
        unfold Pool.Steps at allowed
        cases at_ : s.thread i <;> rw [at_] at allowed call <;>
          first | exact allowed call' call | exact allowed.elim | cases call
      simp only [Pool.callStep]
      split
      · exact .inside i fails call' call ready ‹_›
      · exact .back i fails pick call' _ call ready ‹_›
  | rouse w =>
    obtain ⟨key,at_⟩ := PoolAt.roused_blocked allowed
    refine .moves w _ ?_
    rw [at_]
    exact .rouses key
  | quit => exact .quits allowed
  | close =>
    change s.closing ≠ .opened ∧ s.closing ≠ .closed at allowed
    simp only [Pool.apply]
    split
    · split
      · exact .shuts ‹_› ‹_›
      · exact .notifies ‹_› ‹_›
    · exact .rouses ‹_›
    · rename_i one two
      cases which : s.closing
      · exact absurd which allowed.1
      · exact absurd which one
      · exact absurd which two
      · exact absurd which allowed.2

end Macrame

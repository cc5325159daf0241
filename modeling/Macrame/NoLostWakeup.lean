import Macrame.Wakeups

namespace Macrame
open Machines Tally

-- The epoch a parking worker holds.
def PoolAt.watch : PoolAt → Option Nat
  | .finding (.park key) _ => some key
  | .checking (.park key) => some key
  | .committing key => some key
  | .blocked key => some key
  | _ => none

-- The queues that the current scan has found empty in their turn.
def Scan.clears : Scan → Priority → Bool
  | .high,_ => false
  | .steal _ _,p => p != .low
  | .low,p => p != .low
  | _,p => p == .high

def PoolAt.clears : PoolAt → Priority → Bool
  | .finding _ scan,p => scan.clears p
  | .checking _,_ => true
  | .committing _,_ => true
  | .blocked _,_ => true
  | _,_ => false

-- A submit that has not moved the epoch yet.
def PoolAt.sending : PoolAt → Bool
  | .putting _ _ => true
  | .pushing _ _ _ => true
  | .advancing _ => true
  | _ => false

def Pool.Unsent (s : Pool) : Prop := ∀ i, (s.thread i).sending = false

-- Once every submit has moved the epoch, a parking worker that holds the current
-- one has not missed what lies in the queues it has searched.
structure Pool.Watchful (s : Pool) : Prop where
  keyed : ∀ w key, (s.thread w).watch = some key → key ≤ s.epoch
  searched : s.Unsent → ∀ w, (s.thread w).watch = some s.epoch →
    s.stores.Searched w ∧ ∀ p, (s.thread w).clears p = true → s.stores.Vacant p

theorem PoolMove.sending {s : Pool} (move : PoolMove c timed s i at_ next) : at_.sending = false := by
  cases move <;> rfl

theorem Probe.Stepped.watch (went : Probe.Stepped c s probe next) : next.watch = none := by
  cases went with
  | filled probe idle => cases idle <;> rfl
  | _ => rfl

theorem Search.Checked.watch (went : Search.Checked quit search next) (watches : next.watch = some key) :
    (PoolAt.checking search).watch = some key := by
  cases went with
  | waits idle => cases idle <;> cases watches
  | commits held => exact watches
  | _ => cases watches

-- A worker begins to watch when it loads the epoch, and clears no queue by
-- moving on its own.
theorem PoolMove.watch {s : Pool} (move : PoolMove c timed s i at_ next) (watches : next.watch = some key) :
    (at_.watch = some key ∧ ∀ p, next.clears p = true → at_.clears p = true) ∨
      (key = s.epoch ∧ at_ = .preparing ∧ ∀ p, next.clears p = false) := by
  cases move with
  | passes search start k _ =>
    refine .inl ⟨?_,?_⟩
    · cases search <;> exact watches
    · intro p cleared
      split at cleared <;> exact cleared
  | checks search went => exact .inl ⟨went.watch watches,fun _ _ => rfl⟩
  | probes probe went =>
    rw [went.watch] at watches
    cases watches
  | prepares =>
    cases watches
    exact .inr ⟨rfl,rfl,fun _ => rfl⟩
  | parks held _ _ => exact .inl ⟨watches,fun _ _ => rfl⟩
  | rouses held => exact .inl ⟨watches,fun _ _ => rfl⟩
  | _ => cases watches

theorem signalSubmit_watch (c : Scheduler) (tasks : List RunningTask) : (c.signalSubmit tasks).watch = none := by
  rcases c.signalSubmit_cases tasks with same | same <;> (rw [same]; rfl)

theorem Search.found_watch (search : Search) (n : Nat) : (search.found n).watch = none := by
  cases search <;> rfl

theorem Aging.valve_clears {a : Aging} (here : a.valve.2 = .scan next) (p : Priority) : next.clears p = (p == .high) := by
  unfold Aging.valve at here
  split at here
  · cases here
    rfl
  · cases here
    rfl

-- A scan clears the queue whose pop has failed.
theorem Scan.answered_clears {a : Aging} {scan : Scan} (here : (scan.answered c pick a none).2 = .scan next)
    (cleared : next.clears p = true) : scan.clears p = true ∨ scan.call c i = some (.pop p) := by
  cases scan with
  | high =>
    have high : p = .high := by
      simp only [answered] at here
      split at here
      · cases here
        exact eq_of_beq cleared
      · rw [Aging.valve_clears here] at cleared
        exact eq_of_beq cleared
    subst high
    exact .inr rfl
  | lowValve =>
    rw [Aging.valve_clears (a := { a with sinceLow := 0 }) here] at cleared
    exact .inl cleared
  | normal =>
    cases p with
    | high => exact .inl rfl
    | normal => exact .inr rfl
    | low =>
      cases here
      split at cleared <;> cases cleared
  | low => cases here
  | _ =>
    cases here
    exact .inl cleared

theorem PoolAt.Returns.watch (went : PoolAt.Returns c i out at_ next) (asks : at_.call c i = some asked)
    (watches : next.watch = some key) :
    at_.watch = some key ∧ ∀ p, next.clears p = true → at_.clears p = true ∨ (asked = .pop p ∧ out = none) := by
  cases went with
  | kept tasks n _ =>
    rw [signalSubmit_watch] at watches
    cases watches
  | pushed tasks p n =>
    rw [signalSubmit_watch] at watches
    cases watches
  | scans search scan next pick a none here =>
    refine ⟨by cases search <;> exact watches,?_⟩
    intro p cleared
    refine (Scan.answered_clears (i := i) here cleared).imp_right ?_
    intro pops
    exact ⟨Option.some.inj (asks.symm.trans pops),none⟩
  | found search scan n _ =>
    rw [Search.found_watch] at watches
    cases watches
  | checks search none =>
    refine ⟨by cases search <;> exact watches,?_⟩
    intro p cleared
    cases p with
    | low => exact .inr ⟨(Option.some.inj asks).symm,none⟩
    | _ => exact .inl rfl
  | _ => cases watches

-- The epoch and the queues stay as they are.
theorem Pool.Watchful.moved {s u : Pool} (watchful : s.Watchful) (sound : s.Sound c) (next : PoolAt)
    (thread : u.thread = Function.update s.thread i next) (queues : u.stores.queues = s.stores.queues)
    (epoch : u.epoch = s.epoch) (free : (s.thread i).call c i = none)
    (sending : next.sending = false → (s.thread i).sending = false)
    (watch : ∀ key, next.watch = some key → ((s.thread i).watch = some key ∧
        ∀ p, next.clears p = true → (s.thread i).clears p = true) ∨
      (key = s.epoch ∧ ∀ p, next.clears p = false)) : u.Watchful := by
  have at_j : ∀ j, j ≠ i → u.thread j = s.thread j := fun j other => by rw [thread,Function.update_of_ne other]
  have at_i : u.thread i = next := by rw [thread,Function.update_self]
  refine ⟨?_,?_⟩
  · intro w key watches
    rw [epoch]
    by_cases same : w = i
    · rw [same,at_i] at watches
      rcases watch key watches with ⟨prior,-⟩ | ⟨now,-⟩
      · exact watchful.keyed i key prior
      · exact Nat.le_of_eq now
    · rw [at_j w same] at watches
      exact watchful.keyed w key watches
  · intro unsent w watches
    have before : s.Unsent := by
      intro j
      by_cases same : j = i
      · rw [same]
        exact sending (by rw [← at_i]; exact unsent i)
      · rw [← at_j j same]
        exact unsent j
    have vacant : ∀ p, s.stores.Vacant p → u.stores.Vacant p := by
      intro p empty
      unfold Stores.Vacant
      rw [queues]
      exact empty
    have searched : s.stores.Searched w → u.stores.Searched w := by
      intro found p
      rw [queues]
      exact found p
    rw [epoch] at watches
    by_cases same : w = i
    · subst same
      rw [at_i] at watches ⊢
      rcases watch _ watches with ⟨prior,clears⟩ | ⟨-,nothing⟩
      · obtain ⟨found,empty⟩ := watchful.searched before w prior
        exact ⟨searched found,fun p cleared => vacant p (empty p (clears p cleared))⟩
      · have away : s.stores.Away w := Stores.Serves.away (free ▸ sound.serves w)
        refine ⟨searched ?_,fun p cleared => by (rw [nothing p] at cleared; cases cleared)⟩
        intro p
        rw [away.1 p]
        exact ⟨nofun,nofun⟩
    · rw [at_j w same] at watches ⊢
      obtain ⟨found,empty⟩ := watchful.searched before w watches
      exact ⟨searched found,fun p cleared => vacant p (empty p cleared)⟩

-- The epoch moves, and nobody holds the new one yet.
theorem Pool.Watchful.advanced {s u : Pool} (watchful : s.Watchful) (epoch : u.epoch = s.epoch+1)
    (thread : ∀ j key, (u.thread j).watch = some key → (s.thread j).watch = some key) : u.Watchful := by
  refine ⟨?_,?_⟩
  · intro w key watches
    have bound := watchful.keyed w key (thread w key watches)
    omega
  · intro _ w watches
    have bound := watchful.keyed w _ (thread w _ watches)
    omega

theorem PoolAt.roused_watch (at_ : PoolAt) : at_.roused.watch = at_.watch := by cases at_ <;> rfl

theorem PoolAt.roused_clears (at_ : PoolAt) : at_.roused.clears = at_.clears := by cases at_ <;> rfl

theorem PoolAt.roused_sending (at_ : PoolAt) : at_.roused.sending = at_.sending := by cases at_ <;> rfl

theorem Pool.Watchful.roused {s u : Pool} (watchful : s.Watchful) (stores : u.stores = s.stores) (epoch : u.epoch = s.epoch)
    (thread : ∀ j, u.thread j = s.thread j ∨ u.thread j = (s.thread j).roused) : u.Watchful := by
  refine ⟨?_,?_⟩
  · intro w key watches
    rw [roused_read PoolAt.watch (thread w) PoolAt.roused_watch] at watches
    rw [epoch]
    exact watchful.keyed w key watches
  · intro unsent w watches
    rw [roused_read PoolAt.watch (thread w) PoolAt.roused_watch,epoch] at watches
    rw [roused_read PoolAt.clears (thread w) PoolAt.roused_clears,stores]
    refine watchful.searched ?_ w watches
    intro j
    rw [← roused_read PoolAt.sending (thread j) PoolAt.roused_sending]
    exact unsent j

-- Nobody is inside a push while no submit is on its way to the epoch.
theorem Pool.Sound.pushless {s : Pool} (sound : s.Sound c) (unsent : s.Unsent) : s.stores.Pushless := by
  intro p j
  rcases (sound.serves j).queues p with idle | ⟨-,popping⟩ | ⟨n,asks,-⟩
  · rw [idle]
    rfl
  · exact popping
  · have none := unsent j
    generalize s.thread j = at_ at asks none
    cases PoolAt.call_asks asks with
    | pushing tasks q m => cases none
    | finding search scan _ fetches => cases fetches

theorem signalSubmit_sending (parks : c.idlePolicy ≠ .spin) (tasks : List RunningTask) :
    (Scheduler.signalSubmit c tasks).sending = true := by
  unfold Scheduler.signalSubmit
  cases policy : c.idlePolicy with
  | spin => exact absurd policy parks
  | _ => rfl

theorem PoolAt.sending_call {at_ : PoolAt} (asks : at_.call c i = some asked) (silent : at_.sending = false) :
    ∀ p n, asked ≠ .push p n := by
  rintro p n rfl
  cases PoolAt.call_asks asks with
  | pushing tasks q m => cases silent
  | finding search scan _ fetches => cases fetches

theorem PoolAt.Returns.sending (went : PoolAt.Returns c i out at_ next) (parks : c.idlePolicy ≠ .spin)
    (after : next.sending = false) : at_.sending = false := by
  cases went with
  | kept tasks n _ =>
    rw [signalSubmit_sending parks] at after
    cases after
  | refused tasks n _ => cases after
  | pushed tasks p n =>
    rw [signalSubmit_sending parks] at after
    cases after
  | _ => rfl

-- One access of a call that pushes nothing: what the others have searched stays
-- searched, and a pop that fails clears its queue.
theorem Pool.Watchful.called {s u : Pool} (watchful : s.Watchful) (sound : s.Sound c) (fails : Bool) (call : StoreCall)
    (next : PoolAt) (asks : (s.thread i).call c i = some call) (ready : s.stores.Ready i call)
    (stores : u.stores = s.stores.access i fails call) (thread : u.thread = Function.update s.thread i next)
    (epoch : u.epoch = s.epoch) (sending : next.sending = false → (s.thread i).sending = false)
    (watch : ∀ key, next.watch = some key → (s.thread i).watch = some key ∧ ∀ p, next.clears p = true →
      (s.thread i).clears p = true ∨
        (call = .pop p ∧ s.stores.answer (s.stores.access i fails call) i call = some none)) : u.Watchful := by
  have at_j : ∀ j, j ≠ i → u.thread j = s.thread j := fun j other => by rw [thread,Function.update_of_ne other]
  have at_i : u.thread i = next := by rw [thread,Function.update_self]
  have mine : s.stores.Serves i (some call) := asks ▸ sound.serves i
  refine ⟨?_,?_⟩
  · intro w key watches
    rw [epoch]
    by_cases same : w = i
    · rw [same,at_i] at watches
      exact watchful.keyed i key (watch key watches).1
    · rw [at_j w same] at watches
      exact watchful.keyed w key watches
  · intro unsent w watches
    have before : s.Unsent := by
      intro j
      by_cases same : j = i
      · rw [same]
        exact sending (by rw [← at_i]; exact unsent i)
      · rw [← at_j j same]
        exact unsent j
    have alone := sound.pushless before
    have calls := PoolAt.sending_call asks (before i)
    rw [epoch] at watches
    rw [stores]
    have kept : (s.thread w).watch = some s.epoch → (s.stores.access i fails call).Searched w ∧
        ∀ p, (s.thread w).clears p = true → (s.stores.access i fails call).Vacant p := by
      intro prior
      obtain ⟨found,empty⟩ := watchful.searched before w prior
      exact ⟨Stores.access_searched sound.stores ready mine calls alone found,
        fun p cleared => Stores.access_vacant sound.stores ready mine (calls p) (empty p cleared)⟩
    by_cases same : w = i
    · subst same
      rw [at_i] at watches ⊢
      obtain ⟨prior,clears⟩ := watch _ watches
      refine ⟨(kept prior).1,?_⟩
      intro p cleared
      rcases clears p cleared with already | ⟨pops,none⟩
      · exact (kept prior).2 p already
      · subst pops
        exact Stores.pop_none sound.stores mine alone (watchful.searched before w prior).1 none
    · rw [at_j w same] at watches ⊢
      exact kept watches

theorem pool_watchful_step {s : Pool} (parks : c.idlePolicy ≠ .spin) (sound : s.Sound c) (watchful : s.Watchful)
    (step : PoolStep c timed s u) : u.Watchful := by
  -- a thread that neither watched nor sends goes on without watching
  have plain : ∀ (u : Pool) i next, u.thread = Function.update s.thread i next → u.stores.queues = s.stores.queues →
      u.epoch = s.epoch → (s.thread i).call c i = none → (s.thread i).sending = false → next.watch = none → u.Watchful := by
    intro u i next thread queues epoch free silent watch
    refine watchful.moved sound next thread queues epoch free (fun _ => silent) ?_
    intro key watches
    rw [watch] at watches
    cases watches
  have advances : ∀ (u : Pool) i next, u.thread = Function.update s.thread i next → u.epoch = s.epoch+1 →
      next.watch = none → u.Watchful := by
    intro u i next thread epoch watch
    refine watchful.advanced epoch ?_
    intro j key watches
    rw [thread] at watches
    by_cases same : j = i
    · rw [same,Function.update_self,watch] at watches
      cases watches
    · rwa [Function.update_of_ne same] at watches
  cases step with
  | stays => exact watchful
  | moves i next move =>
    refine watchful.moved sound next rfl rfl rfl move.free (fun _ => move.sending) ?_
    intro key watches
    rcases move.watch watches with prior | ⟨now,-,nothing⟩
    · exact .inl prior
    · exact .inr ⟨now,nothing⟩
  | submits i tasks next _ at_ where_ =>
    refine plain _ i next rfl rfl rfl (by rw [at_]; rfl) (by rw [at_]; rfl) ?_
    rcases where_ with ⟨-,rfl⟩ | ⟨p,rfl⟩ <;> rfl
  | appends i tasks _ at_ _ =>
    exact plain _ i (s.thread i) (Function.update_eq_self ..).symm rfl rfl (by rw [at_]; rfl) (by rw [at_]; rfl) (by rw [at_]; rfl)
  | starts i tasks _ at_ _ => exact plain _ i _ rfl rfl rfl (by rw [at_]; rfl) (by rw [at_]; rfl) rfl
  | draws i tasks started n at_ _ => exact plain _ i _ rfl rfl rfl (by rw [at_]; rfl) (by rw [at_]; rfl) rfl
  | ends i tasks at_ _ => exact plain _ i _ rfl rfl rfl (by rw [at_]; rfl) (by rw [at_]; rfl) rfl
  | finishes i t rest at_ =>
    refine plain _ i _ rfl rfl rfl (by rw [at_]; rfl) (by rw [at_]; rfl) ?_
    cases t.dispatch <;> rfl
  | inside i fails call asks ready _ =>
    exact watchful.called sound fails call (s.thread i) asks ready rfl (Function.update_eq_self ..).symm rfl id
      (fun key watches => ⟨watches,fun p => .inl⟩)
  | back i fails pick call out asks ready answer =>
    have went := PoolAt.answered_returns pick (s.aging i) out asks
    refine watchful.called sound fails call _ asks ready rfl rfl rfl (went.sending parks) ?_
    intro key watches
    obtain ⟨prior,clears⟩ := went.watch asks watches
    refine ⟨prior,?_⟩
    intro p cleared
    refine (clears p cleared).imp_right ?_
    rintro ⟨pops,none⟩
    exact ⟨pops,by rw [answer,none]⟩
  | advances i tasks at_ =>
    refine advances _ i _ rfl rfl ?_
    split <;> rfl
  | promotes i n at_ => exact advances _ i _ rfl rfl rfl
  | wakes i tasks pick at_ _ =>
    have roused : (s.rouse pick).Watchful := watchful.roused rfl rfl (rouse_thread s pick)
    have still : (s.rouse pick).Sound c := sound.roused rfl (rouse_thread s pick)
    have here := rouse_waking pick at_
    exact roused.moved still _ rfl rfl rfl (by rw [here]; rfl) (fun _ => by rw [here]; rfl) nofun
  | enlists i at_ =>
    refine plain _ i _ rfl rfl rfl (by rw [at_]; rfl) (by rw [at_]; rfl) ?_
    split <;> rfl
  | retires i stop at_ =>
    refine plain _ i _ rfl rfl rfl (by rw [at_]; rfl) (by rw [at_]; rfl) ?_
    cases stop with
    | found n => simp only [SpinEnd.left]; split <;> rfl
    | _ => rfl
  | quits _ => exact ⟨watchful.keyed,watchful.searched⟩
  | shuts _ _ => exact ⟨watchful.keyed,watchful.searched⟩
  | notifies _ _ => exact watchful.advanced rfl (fun _ _ => id)
  | rouses _ => exact watchful.roused rfl rfl (fun _ => .inr rfl)

-- Between the move of the epoch and the decision about the wake, or before it.
def PoolAt.owes : PoolAt → Bool
  | .deciding _ => true
  | .waking _ => true
  | _ => false

def PoolAt.Behind (epoch : Nat) (at_ : PoolAt) : Prop := ∃ key, at_ = .blocked key ∧ key ≠ epoch

-- Some worker is up or has gone to sleep on the current epoch, or a wake is due.
def Pool.Lively (c : Scheduler) (s : Pool) : Prop :=
  0 < c.workers → (∃ w, w < c.workers ∧ ¬(s.thread w).Behind s.epoch) ∨ (∃ i, (s.thread i).owes = true) ∨ s.closing = .waking

theorem PoolAt.not_behind {at_ : PoolAt} (up : at_.isBlocked = false) : ¬at_.Behind epoch := by
  rintro ⟨key,rfl,-⟩
  cases up

-- A worker that is up after its own step.
theorem Pool.Lively.up {u : Pool} (worker : i < c.workers) (up : (u.thread i).isBlocked = false) : u.Lively c :=
  fun _ => .inl ⟨i,worker,PoolAt.not_behind up⟩

-- Someone moves under the same epoch: what it owed it still owes, or it has been
-- seen that somebody is up.
theorem Pool.Lively.moved {s u : Pool} (lively : s.Lively c) (next : PoolAt)
    (thread : u.thread = Function.update s.thread i next) (epoch : u.epoch = s.epoch) (closing : u.closing = s.closing)
    (up : i < c.workers → next.isBlocked = false)
    (owed : (s.thread i).owes = true → next.owes = true ∨ u.Lively c) : u.Lively c := by
  have at_j : ∀ j, j ≠ i → u.thread j = s.thread j := fun j other => by rw [thread,Function.update_of_ne other]
  have at_i : u.thread i = next := by rw [thread,Function.update_self]
  by_cases worker : i < c.workers
  · exact .up worker (at_i ▸ up worker)
  · intro staffed
    rcases lively staffed with ⟨w,within,awake⟩ | ⟨j,owes⟩ | waking
    · have other : w ≠ i := fun same => worker (same ▸ within)
      exact .inl ⟨w,within,by rw [at_j w other,epoch]; exact awake⟩
    · by_cases same : j = i
      · rcases owed (same ▸ owes) with still | shown
        · exact .inr (.inl ⟨i,at_i ▸ still⟩)
        · exact shown staffed
      · exact .inr (.inl ⟨j,by rw [at_j j same]; exact owes⟩)
    · exact .inr (.inr (closing.trans waking))

theorem PoolAt.roused_up (at_ : PoolAt) : at_.roused.isBlocked = false := by cases at_ <;> rfl

-- A counted spinner is up.
theorem Pool.Counted.spinner {s : Pool} (counted : s.Counted c) (some : s.numSpinning ≠ 0) :
    ∃ w, w < c.workers ∧ (s.thread w).isBlocked = false := by
  by_contra nobody
  have asleep : ∀ w, w < c.workers → (s.thread w).spins = 0 := by
    intro w within
    by_contra spins
    refine nobody ⟨w,within,?_⟩
    cases at_ : s.thread w with
    | blocked key => rw [at_] at spins; exact absurd rfl spins
    | _ => rfl
  unfold Pool.Counted at counted
  rw [tally_zero.mpr asleep] at counted
  exact some counted

theorem PoolAt.behind_outside {at_ : PoolAt} (asleep : at_.isBlocked = true) : at_.outside = false := by
  cases at_ <;> first | rfl | cases asleep

theorem Probe.Stepped.up (went : Probe.Stepped c s probe next) : next.isBlocked = false := by
  cases went with
  | filled probe idle => cases idle <;> rfl
  | _ => rfl

theorem Search.Checked.up (went : Search.Checked quit search next) : next.isBlocked = false := by
  cases went with
  | waits idle => cases idle <;> rfl
  | _ => rfl

theorem PoolAt.Returns.up (went : PoolAt.Returns c i out at_ next) : next.isBlocked = false := by
  cases went with
  | kept tasks n _ => rcases c.signalSubmit_cases tasks with same | same <;> (rw [same]; rfl)
  | pushed tasks p n => rcases c.signalSubmit_cases tasks with same | same <;> (rw [same]; rfl)
  | found search scan n _ => cases search <;> rfl
  | _ => rfl

theorem pool_lively_step {s : Pool} (parks : c.idlePolicy ≠ .spin) (sound : s.Sound c) (counted : s.Counted c)
    (watchful : s.Watchful) (lively : s.Lively c) (step : PoolStep c True s u) : u.Lively c := by
  -- a thread that owed nothing and is up afterwards
  have plain : ∀ (u : Pool) i next, u.thread = Function.update s.thread i next → u.epoch = s.epoch →
      u.closing = s.closing → next.isBlocked = false → (s.thread i).owes = false → u.Lively c := by
    intro u i next thread epoch closing up owes
    refine lively.moved next thread epoch closing (fun _ => up) ?_
    intro owed
    rw [owes] at owed
    cases owed
  have due : ∀ (u : Pool) i, (u.thread i).owes = true → u.Lively c := fun u i owes _ => .inr (.inl ⟨i,owes⟩)
  cases step with
  | stays => exact lively
  | moves i next move =>
    generalize at_ : s.thread i = here at move
    cases move with
    | wakes tasks _ => exact due _ i (by rw [show (s.goes i _).thread i = _ from Function.update_self ..]; rfl)
    | skips tasks some =>
      obtain ⟨w,within,awake⟩ := counted.spinner some
      refine .up within ?_
      by_cases same : w = i
      · rw [same]
        change (Function.update s.thread i (.running tasks) i).isBlocked = false
        rw [Function.update_self]
        rfl
      · change (Function.update s.thread i (.running tasks) w).isBlocked = false
        rw [Function.update_of_ne same]
        exact awake
    | parks key same timely =>
      have bound := watchful.keyed i key (by rw [at_]; rfl)
      have current : key = s.epoch := by
        have near := timely trivial
        unfold epochModulus at same near
        omega
      intro _
      refine .inl ⟨i,sound.worker (by rw [at_]; rfl),?_⟩
      change ¬(Function.update s.thread i (.blocked key) i).Behind s.epoch
      rw [Function.update_self]
      rintro ⟨held,equal,old⟩
      cases equal
      exact old current
    | checks search went => exact plain _ i _ rfl rfl rfl went.up (by rw [at_]; rfl)
    | probes probe went => exact plain _ i _ rfl rfl rfl went.up (by rw [at_]; rfl)
    | _ => exact plain _ i _ rfl rfl rfl rfl (by rw [at_]; rfl)
  | submits i tasks next _ at_ where_ =>
    refine plain _ i next rfl rfl rfl ?_ (by rw [at_]; rfl)
    rcases where_ with ⟨-,rfl⟩ | ⟨p,rfl⟩ <;> rfl
  | appends i tasks _ at_ _ => exact lively
  | starts i tasks _ at_ _ => exact plain _ i _ rfl rfl rfl rfl (by rw [at_]; rfl)
  | draws i tasks started n at_ _ => exact plain _ i _ rfl rfl rfl rfl (by rw [at_]; rfl)
  | ends i tasks at_ _ => exact plain _ i _ rfl rfl rfl rfl (by rw [at_]; rfl)
  | finishes i t rest at_ =>
    refine plain _ i _ rfl rfl rfl ?_ (by rw [at_]; rfl)
    cases t.dispatch <;> rfl
  | inside i fails call asks _ _ => exact lively
  | back i fails pick call out asks _ _ =>
    refine plain _ i _ rfl rfl rfl (PoolAt.answered_returns pick (s.aging i) out asks).up ?_
    cases at_ : s.thread i <;> first | rfl | (rw [at_] at asks; cases asks)
  | advances i tasks at_ =>
    refine due _ i ?_
    rw [show (Pool.goes _ i _).thread i = _ from Function.update_self ..]
    split <;> rfl
  | promotes i n at_ => exact due _ i (by rw [show (Pool.goes _ i _).thread i = _ from Function.update_self ..]; rfl)
  | wakes i tasks pick at_ wakes =>
    intro staffed
    have here : ∀ w, ((s.rouse pick).goes i (.running tasks)).thread w =
        if w = i then .running tasks else if w = pick then (s.thread pick).roused else s.thread w := by
      intro w
      change Function.update (Function.update s.thread pick (s.thread pick).roused) i (.running tasks) w = _
      rw [Function.update_apply,Function.update_apply]
    have shown : ∀ w, w < c.workers → w = pick ∨ (s.thread w).isBlocked = false →
        ((s.rouse pick).goes i (.running tasks)).Lively c := by
      intro w within which
      refine .up within ?_
      rw [here]
      split
      · rfl
      · split
        · exact PoolAt.roused_up _
        · rename_i other
          exact which.resolve_left other
    by_cases asleep : ∃ w, w < c.workers ∧ (s.thread w).isBlocked = true
    · exact shown pick (sound.worker (PoolAt.behind_outside (wakes asleep))) (.inl rfl) staffed
    · refine shown 0 staffed (.inr ?_) staffed
      cases up : (s.thread 0).isBlocked with
      | false => rfl
      | true => exact absurd ⟨0,staffed,up⟩ asleep
  | enlists i at_ =>
    refine plain _ i _ rfl rfl rfl ?_ (by rw [at_]; rfl)
    split <;> rfl
  | retires i stop at_ =>
    refine plain _ i _ rfl rfl rfl ?_ (by rw [at_]; rfl)
    cases stop with
    | found n => simp only [SpinEnd.left]; split <;> rfl
    | _ => rfl
  | quits opened =>
    intro staffed
    rcases lively staffed with awake | owes | waking
    · exact .inl awake
    · exact .inr (.inl owes)
    · rw [opened] at waking
      cases waking
  | shuts notifying spin => exact absurd spin parks
  | notifies _ _ => exact fun _ => .inr (.inr rfl)
  | rouses _ => exact fun staffed => .inl ⟨0,staffed,PoolAt.not_behind (PoolAt.roused_up _)⟩

-- The scheduler under the one assumption on time.
def timelySystem (c : Scheduler) : Machine Pool PoolAction := (poolSystem c).under Pool.Timely

structure Pool.Wakeful (c : Scheduler) (s : Pool) : Prop where
  sound : s.Sound c
  counted : s.Counted c
  watchful : s.Watchful
  lively : s.Lively c

theorem fresh_wakeful (c : Scheduler) : (Pool.fresh c).Wakeful c := by
  have idle : ∀ {β : Type} (read : PoolAt → β) (v : β) i, read .top = v → read (.running []) = v →
      read ((Pool.fresh c).thread i) = v := by
    intro β read v i top running
    rcases fresh_place c i with here | here <;> rw [here] <;> assumption
  refine ⟨fresh_sound c,?_,⟨?_,?_⟩,?_⟩
  · unfold Pool.Counted
    rw [tally_zero.mpr (fun i _ => idle PoolAt.spins 0 i rfl rfl)]
    rfl
  · intro w key watches
    rw [idle PoolAt.watch none w rfl rfl] at watches
    cases watches
  · intro _ w watches
    rw [idle PoolAt.watch none w rfl rfl] at watches
    cases watches
  · exact fun staffed => .inl ⟨0,staffed,PoolAt.not_behind (idle PoolAt.isBlocked false 0 rfl rfl)⟩

theorem reached_wakeful {s : Pool} (parks : c.idlePolicy ≠ .spin) (path : Reached (timelySystem c) s) : s.Wakeful c := by
  refine reached_invariant (Pool.Wakeful c) ?_ ?_ path
  · intro s begun
    change s = Pool.fresh c at begun
    rw [begun]
    exact fresh_wakeful c
  · rintro s a ⟨sound,counted,watchful,lively⟩ ⟨allowed,timely⟩
    have step : PoolStep c True s (s.apply c a) := pool_step allowed (fun _ => timely)
    exact ⟨pool_sound_step sound step,pool_counted_step sound counted step,pool_watchful_step parks sound watchful step,
      pool_lively_step parks sound counted watchful lively step⟩

-- A submit from its first step to its decision about the wake.
def PoolAt.submitting : PoolAt → Bool
  | .putting _ _ => true
  | .pushing _ _ _ => true
  | .advancing _ => true
  | .deciding _ => true
  | .waking _ => true
  | _ => false

def Pool.Submitting (s : Pool) : Prop := ∃ i, (s.thread i).submitting = true

def Pool.Queued (c : Scheduler) (s : Pool) : Prop :=
  (∃ p, (s.stores.queues p).stored queueCapacity ≠ []) ∨
    ∃ v, v < c.workers ∧ (s.stores.deques v).stored dequeCapacity ≠ []

def Pool.Parked (c : Scheduler) (s : Pool) : Prop := ∀ w, w < c.workers → ∃ key, s.thread w = .blocked key

-- A wake due from a submit, from a spinner that has found work or from the
-- destructor. A waiter that has been woken is no longer parked.
def Pool.WakePending (s : Pool) : Prop := s.closing = .waking ∨ ∃ i tasks, s.thread i = .waking tasks

theorem PoolAt.owes_submitting {at_ : PoolAt} (owes : at_.owes = true) : at_.submitting = true := by
  cases at_ <;> first | rfl | cases owes

theorem PoolAt.sending_submitting {at_ : PoolAt} (sending : at_.sending = true) : at_.submitting = true := by
  cases at_ <;> first | rfl | cases sending

theorem fresh_stored (p : Priority) : (Stores.fresh.queues p).stored queueCapacity = [] := rfl

theorem Pool.Wakeful.discovered {s : Pool} (wakeful : s.Wakeful c) (settled : ¬s.Submitting) (parked : s.Parked c)
    (quiet : ¬s.WakePending) : ¬s.Queued c := by
  have unsent : s.Unsent := by
    intro i
    cases sending : (s.thread i).sending with
    | false => rfl
    | true => exact absurd ⟨i,PoolAt.sending_submitting sending⟩ settled
  rintro (⟨p,held⟩ | ⟨v,worker,held⟩)
  · cases single : c.singleThreaded with
    | true => exact held (by rw [(wakeful.sound.serial single).1]; exact fresh_stored p)
    | false =>
      rcases wakeful.lively (c.spare_worker single) with ⟨w,within,awake⟩ | ⟨i,owes⟩ | waking
      · obtain ⟨key,at_⟩ := parked w within
        have current : key = s.epoch := by
          by_contra old
          exact awake ⟨key,at_,old⟩
        have vacant := (wakeful.watchful.searched unsent w (by rw [at_,current]; rfl)).2 p (by rw [at_]; rfl)
        exact held (vacant.1.stored vacant.2)
      · exact settled ⟨i,PoolAt.owes_submitting owes⟩
      · exact quiet (.inl waking)
  · obtain ⟨key,at_⟩ := parked v worker
    exact held (wakeful.sound.bare v (by rw [at_]; rfl)).stored

-- No interleaving leaves work in a container with every worker parked and nobody
-- about to wake one, though `handoff` skips the wake when it counts a spinner.
theorem no_lost_wakeup {s : Pool} (c : Scheduler) (parks : c.idlePolicy = .spinThenBlock ∨ c.idlePolicy = .handoff)
    (path : Reached (timelySystem c) s) : ¬(¬s.Submitting ∧ s.Queued c ∧ s.Parked c ∧ ¬s.WakePending) := by
  rintro ⟨settled,queued,parked,quiet⟩
  have policy : c.idlePolicy ≠ .spin := by
    rcases parks with one | two
    · rw [one]
      exact nofun
    · rw [two]
      exact nofun
  exact (reached_wakeful policy path).discovered settled parked quiet queued

def PoolAt.committed : PoolAt → Option Nat
  | .committing key => some key
  | _ => none

theorem PoolAt.committed_iff {at_ : PoolAt} : at_.committed = some key ↔ at_ = .committing key := by
  cases at_ <;> simp [committed]

instance Pool.decideTimely (s : Pool) : (action : PoolAction) → Decidable (s.Timely action)
  | .step i _ _ =>
    decidable_of_iff (∀ key ∈ (s.thread i).committed, s.epoch < key+epochModulus)
      ⟨fun held key at_ => held key (PoolAt.committed_iff.mpr at_),fun held key at_ => held key (PoolAt.committed_iff.mp at_)⟩
  | .submit _ _ => inferInstanceAs (Decidable True)
  | .yield _ _ => inferInstanceAs (Decidable True)
  | .drain _ => inferInstanceAs (Decidable True)
  | .finish _ => inferInstanceAs (Decidable True)
  | .rouse _ => inferInstanceAs (Decidable True)
  | .quit => inferInstanceAs (Decidable True)
  | .close => inferInstanceAs (Decidable True)

instance Pool.decideTimelySystem (c : Scheduler) (s : Pool) (action : PoolAction) :
    Decidable ((timelySystem c).allowed s action) :=
  inferInstanceAs (Decidable (s.Allowed c action ∧ s.Timely action))

def oneSpinner : Scheduler := SchedulerConfig.scheduler { numWorkers := 1, idlePolicy := .handoff, spinCycles := 1 } 0

-- The only worker spins out and parks; then an outside thread submits low work,
-- finds no spinner and wakes it.
def parkedSubmit : List PoolAction :=
  List.replicate 46 (.step 0 false 0)++[.submit 5 .low]++List.replicate 8 (.step 5 false 0)

theorem no_lost_wakeup_parked :
    let s := (timelySystem oneSpinner).follow (.fresh oneSpinner) parkedSubmit
    s.thread 0 = .committing 0 ∧ (s.stores.queues .low).stored queueCapacity = [(.ring 0,0)] ∧ s.thread 5 = .running [] ∧
      ¬(¬s.Submitting ∧ s.Queued oneSpinner ∧ s.Parked oneSpinner ∧ ¬s.WakePending) :=
  ⟨by decide +kernel,by decide +kernel,by decide +kernel,
    no_lost_wakeup oneSpinner (.inr rfl)
      (reached_follow (m := timelySystem oneSpinner) (.start rfl) (by decide +kernel))⟩

end Macrame

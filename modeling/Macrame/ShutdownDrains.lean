import Macrame.PoolAccount

namespace Macrame
open Machines

-- Outside threads submit before the destructor begins only, and are then between
-- their calls. What the bodies on the workers submit, and when, is free.
def Pool.Undisturbed (c : Scheduler) (s : Pool) : PoolAction → Prop
  | .submit i _ => c.workers ≤ i → s.closing = .opened
  | .quit => ∀ i, c.workers ≤ i → (s.thread i).resting = true
  | _ => True

def drainSystem (c : Scheduler) : Machine Pool PoolAction := (poolSystem c).under (Pool.Undisturbed c)

def Pool.Rested (c : Scheduler) (s : Pool) : Prop := s.quit = true → ∀ i, c.workers ≤ i → (s.thread i).resting = true

theorem ownStep_same (s : Pool) : (s.ownStep c i pick).submitted = s.submitted ∧ (s.ownStep c i pick).closing = s.closing := by
  unfold Pool.ownStep
  cases s.thread i with
  | looping tasks started =>
    simp only
    split
    · exact ⟨rfl,rfl⟩
    · split <;> exact ⟨rfl,rfl⟩
  | finding search scan => cases scan <;> exact ⟨rfl,rfl⟩
  | _ => exact ⟨rfl,rfl⟩

theorem step_same (s : Pool) :
    (s.step c i fails pick).submitted = s.submitted ∧ (s.step c i fails pick).closing = s.closing := by
  unfold Pool.step
  split
  · simp only [Pool.callStep]
    split <;> exact ⟨rfl,rfl⟩
  · exact ownStep_same s

theorem apply_submitted {s : Pool} (other : ∀ i p, action ≠ .submit i p) : (s.apply c action).submitted = s.submitted := by
  cases action with
  | submit i p => exact absurd rfl (other i p)
  | yield i own =>
    simp only [Pool.apply]
    split
    · split <;> rfl
    · rfl
  | step i fails pick => exact (step_same s).1
  | close =>
    simp only [Pool.apply]
    split
    · split <;> rfl
    · rfl
    · rfl
  | quit => rfl
  | rouse w => rfl
  | _ => simp only [Pool.apply]; split <;> rfl

theorem submit_closing (s : Pool) (tasks : List RunningTask) (p : Priority) : (s.submit c i tasks p).closing = s.closing := by
  simp only [Pool.submit]
  split
  · split <;> rfl
  · split <;> rfl

theorem submit_other {s : Pool} (tasks : List RunningTask) (p : Priority) (other : j ≠ i) :
    (s.submit c i tasks p).thread j = s.thread j := by
  simp only [Pool.submit]
  split
  · split
    · rfl
    · exact Function.update_of_ne other ..
  · split <;> exact Function.update_of_ne other ..

-- `quit_` is set by the destructor's first step and stays set.
theorem quit_begins {s : Pool} (allowed : s.Allowed c action) (quit : (s.apply c action).quit = true) :
    s.quit = true ∨ action = .quit := by
  have same : (s.apply c action).closing = s.closing → s.quit = true ∨ action = .quit := by
    intro kept
    refine .inl ?_
    unfold Pool.quit at quit ⊢
    rwa [kept] at quit
  cases action with
  | submit i p =>
    refine same ?_
    simp only [Pool.apply]
    split
    · exact submit_closing ..
    · rfl
  | yield i own =>
    refine same ?_
    simp only [Pool.apply]
    split
    · split <;> rfl
    · rfl
  | step i fails pick => exact same (step_same s).2
  | rouse w => exact same rfl
  | quit => exact .inr rfl
  | close => exact .inl (bne_iff_ne.mpr allowed.1)
  | _ =>
    refine same ?_
    simp only [Pool.apply]
    split <;> rfl

theorem PoolAt.resting_call {at_ : PoolAt} (rests : at_.resting = true) : at_.call c i = none := by
  cases at_ <;> first | rfl | cases rests

theorem PoolAt.resting_holds {at_ : PoolAt} (rests : at_.resting = true) : at_.holds = [] := by
  cases at_ with
  | running tasks => cases tasks <;> first | rfl | cases rests
  | looping tasks started =>
    cases tasks with
    | nil => rfl
    | cons _ _ => cases rests
  | _ => cases rests

-- A thread at rest that is no worker's leaves its rest by a submit only.
theorem rest_kept {s : Pool} (sound : s.Sound c) (frames : s.Stacked c) (step : PoolStep c timed s u)
    (unsubmitted : u.submitted = s.submitted) (outer : c.workers ≤ i) (rests : (s.thread i).resting = true) :
    (u.thread i).resting = true := by
  have away : ∀ j next, (s.thread j).resting = false → (Function.update s.thread j next i).resting = true := by
    intro j next busy
    by_cases same : i = j
    · rw [same,busy] at rests
      cases rests
    · rw [Function.update_of_ne same]
      exact rests
  have asking : ∀ j call next, (s.thread j).call c j = some call → (Function.update s.thread j next i).resting = true := by
    intro j call next asks
    refine away j next ?_
    cases busy : (s.thread j).resting with
    | false => rfl
    | true =>
      rw [PoolAt.resting_call busy] at asks
      cases asks
  cases step with
  | stays => exact rests
  | moves j next move =>
    by_cases same : i = j
    · subst same
      change (Function.update s.thread i next i).resting = true
      rw [Function.update_self]
      generalize s.thread i = at_ at move rests
      cases move with
      | yields tasks own worker => exact absurd outer (Nat.not_le_of_lt worker)
      | drains tasks =>
        rw [PoolAt.resting_running rests]
        rfl
      | drained tasks =>
        cases tasks with
        | nil => rfl
        | cons _ _ => cases rests
      | _ => cases rests
    · change (Function.update s.thread j next i).resting = true
      rw [Function.update_of_ne same]
      exact rests
  | submits j tasks next pooled at_ where_ => exact absurd unsubmitted (Nat.succ_ne_self _)
  | appends j tasks single at_ draining => exact absurd unsubmitted (Nat.succ_ne_self _)
  | starts j tasks single at_ draining => exact absurd unsubmitted (Nat.succ_ne_self _)
  | draws j tasks started n at_ found =>
    refine away j _ ?_
    cases busy : (s.thread j).resting with
    | false => rfl
    | true =>
      -- its trampoline would have to hold something
      cases single : c.singleThreaded with
      | true =>
        have holds := frames.tramp single j
        rw [busy] at holds
        rw [holds.spent holds.drains] at found
        cases found
      | false =>
        rw [sound.pooled single j] at found
        cases found
  | ends j tasks at_ _ => exact away j _ (by rw [at_]; cases tasks <;> rfl)
  | finishes j t rest at_ => exact away j _ (by rw [at_]; rfl)
  | inside j fails call asks _ _ => exact rests
  | back j fails pick call out asks _ _ => exact asking j call _ asks
  | advances j tasks at_ => exact away j _ (by rw [at_]; rfl)
  | promotes j n at_ => exact away j _ (by rw [at_]; rfl)
  | wakes j tasks pick at_ _ =>
    have roused : ((s.rouse pick).thread i).resting = true := by
      rw [roused_read PoolAt.resting (rouse_thread s pick i) PoolAt.roused_resting]
      exact rests
    by_cases same : i = j
    · rw [same,at_] at rests
      cases rests
    · change (Function.update (s.rouse pick).thread j _ i).resting = true
      rw [Function.update_of_ne same]
      exact roused
  | enlists j at_ => exact away j _ (by rw [at_]; rfl)
  | retires j stop at_ => exact away j _ (by rw [at_]; rfl)
  | quits _ => exact rests
  | shuts _ _ => exact rests
  | notifies _ _ => exact rests
  | rouses _ =>
    change (s.thread i).roused.resting = true
    rw [PoolAt.roused_resting]
    exact rests

theorem rest_unless {s : Pool} (sound : s.Sound c) (frames : s.Stacked c) (allowed : s.Allowed c action)
    (other : ∀ p, action ≠ .submit i p) (outer : c.workers ≤ i) (rests : (s.thread i).resting = true) :
    ((s.apply c action).thread i).resting = true := by
  by_cases submits : ∃ j p, action = .submit j p
  · obtain ⟨j,p,rfl⟩ := submits
    have apart : i ≠ j := fun same => other p (same ▸ rfl)
    simp only [Pool.apply]
    split
    · rw [submit_other _ p apart]
      exact rests
    · exact rests
  · have step : PoolStep c False s (s.apply c action) := pool_step allowed False.elim
    exact rest_kept sound frames step (apply_submitted (fun j p same => submits ⟨j,p,same⟩)) outer rests

theorem pool_rested_step {s : Pool} (sound : s.Sound c) (frames : s.Stacked c) (rested : s.Rested c)
    (allowed : s.Allowed c action) (undisturbed : s.Undisturbed c action) : (s.apply c action).Rested c := by
  intro quit i outer
  rcases quit_begins allowed quit with begun | rfl
  · refine rest_unless sound frames allowed ?_ outer (rested begun i outer)
    rintro p rfl
    exact bne_iff_ne.mp begun (undisturbed outer)
  · exact undisturbed i outer

-- How far `all_empty` has come: it reads the queues in this order, each by three
-- loads, and then the deques.
def Priority.place : Priority → Nat
  | .high => 0
  | .normal => 1
  | .low => 2

def Probe.rank : Probe → Nat
  | .count p => 3*p.place
  | .head p => 3*p.place+1
  | .tail p _ => 3*p.place+2
  | .bottom _ => 9
  | .top _ _ => 9

def PoolAt.rank : PoolAt → Nat
  | .emptying probe => probe.rank
  | .exited => 9
  | _ => 0

def PoolAt.leaving : PoolAt → Bool
  | .emptying _ => true
  | .exited => true
  | _ => false

def Pool.Behind (c : Scheduler) (s : Pool) (rank : Nat) : Prop := ∃ w, w < c.workers ∧ (s.thread w).rank ≤ rank

-- A queue that holds something has a worker that is yet to read it. The last one
-- there reads it as full and turns back, and a worker that fills a queue is in a
-- body, so it reads every queue later on.
structure Pool.Draining (c : Scheduler) (s : Pool) : Prop where
  quits : ∀ w, (s.thread w).leaving = true → s.quit = true
  loaded : ∀ w p deq, s.thread w = .emptying (.tail p deq) → deq ≤ (s.stores.queues p).dequeuePos
  ring : ∀ p, (s.stores.queues p).Dry ∨ s.Behind c (3*p.place+2)
  spill : ∀ p, (s.stores.queues p).overflow = [] ∨ s.Behind c (3*p.place)
  spare : ∀ v, c.workers ≤ v → s.stores.entered (.deque v) = []

theorem PoolAt.rank_zero {at_ : PoolAt} (stays : at_.leaving = false) : at_.rank = 0 := by
  cases at_ <;> first | rfl | cases stays

theorem PoolAt.leaving_call {at_ : PoolAt} (asks : at_.call c i = some asked) : at_.leaving = false := by
  cases at_ <;> first | rfl | cases asks

-- A thread moves that is no witness, or still one.
theorem Pool.Behind.moved {s u : Pool} (behind : s.Behind c rank) (thread : u.thread = Function.update s.thread i next)
    (still : (s.thread i).rank ≤ rank → next.rank ≤ rank) : u.Behind c rank := by
  obtain ⟨w,worker,low⟩ := behind
  refine ⟨w,worker,?_⟩
  rw [thread]
  by_cases same : w = i
  · subst same
    rw [Function.update_self]
    exact still low
  · rw [Function.update_of_ne same]
    exact low

-- One thread moves outside the containers.
theorem Pool.Draining.moved {s u : Pool} (draining : s.Draining c) (next : PoolAt)
    (thread : u.thread = Function.update s.thread i next) (queues : u.stores.queues = s.stores.queues)
    (deques : u.stores.deques = s.stores.deques) (closing : u.closing = s.closing)
    (quits : next.leaving = true → s.quit = true)
    (loads : ∀ p deq, next = .emptying (.tail p deq) → deq ≤ (s.stores.queues p).dequeuePos)
    (ring : ∀ p, (s.stores.queues p).Dry ∨ ((s.thread i).rank ≤ 3*p.place+2 → next.rank ≤ 3*p.place+2))
    (spill : ∀ p, (s.stores.queues p).overflow = [] ∨ u.Behind c (3*p.place) ∨
      ((s.thread i).rank ≤ 3*p.place → next.rank ≤ 3*p.place)) : u.Draining c := by
  have quit : u.quit = s.quit := by
    unfold Pool.quit
    rw [closing]
  refine ⟨?_,?_,?_,?_,?_⟩
  · intro w leaves
    rw [quit]
    rw [thread] at leaves
    by_cases same : w = i
    · rw [same,Function.update_self] at leaves
      exact quits leaves
    · rw [Function.update_of_ne same] at leaves
      exact draining.quits w leaves
  · intro w p deq at_
    rw [queues]
    rw [thread] at at_
    by_cases same : w = i
    · rw [same,Function.update_self] at at_
      exact loads p deq at_
    · rw [Function.update_of_ne same] at at_
      exact draining.loaded w p deq at_
  · intro p
    rw [queues]
    rcases draining.ring p with dry | behind
    · exact .inl dry
    · exact (ring p).imp_right (behind.moved thread)
  · intro p
    rw [queues]
    rcases draining.spill p with empty | behind
    · exact .inl empty
    · rcases spill p with empty | other | still
      · exact .inl empty
      · exact .inr other
      · exact .inr (behind.moved thread still)
  · intro v outer
    change (u.stores.deques v).ledger.pushed = []
    rw [deques]
    exact draining.spare v outer

-- Any move but those into and within `all_empty`.
theorem Pool.Draining.turned {s u : Pool} (draining : s.Draining c) (next : PoolAt)
    (thread : u.thread = Function.update s.thread i next) (queues : u.stores.queues = s.stores.queues)
    (deques : u.stores.deques = s.stores.deques) (closing : u.closing = s.closing) (stays : next.leaving = false) :
    u.Draining c := by
  have zero := PoolAt.rank_zero stays
  refine draining.moved next thread queues deques closing ?_ ?_ ?_ ?_
  · intro leaves
    rw [stays] at leaves
    cases leaves
  · rintro p deq rfl
    cases stays
  · exact fun p => .inr (fun _ => zero ▸ Nat.zero_le _)
  · exact fun p => .inr (.inr (fun _ => zero ▸ Nat.zero_le _))

theorem PoolAt.Idling.leaving {next : PoolAt} (idle : next.Idling) : next.leaving = false := by
  cases idle <;> rfl

theorem Priority.place_inj {p q : Priority} (same : p.place = q.place) : p = q := by
  cases p <;> cases q <;> first | rfl | cases same

theorem Priority.place_last (p : Priority) : p.place ≤ 2 := by
  cases p <;> decide

-- Once the destructor has begun, whoever pushes is a worker in a body.
theorem pusher_behind {s : Pool} (sound : s.Sound c) (rested : s.Rested c) (quit : s.quit = true)
    (pushing : ((s.stores.queues p).thread j).pushing = true) : j < c.workers ∧ (s.thread j).leaving = false := by
  cases asks : (s.thread j).call c j with
  | none =>
    have serves := sound.serves j
    rw [asks] at serves
    rw [serves.away.1 p] at pushing
    cases pushing
  | some call =>
    refine ⟨?_,PoolAt.leaving_call asks⟩
    by_contra outer
    rw [PoolAt.resting_call (rested quit j (Nat.le_of_not_lt outer))] at asks
    cases asks

-- One load of `all_empty`: it passes a queue only when that queue is empty.
theorem Pool.Draining.probed {s u : Pool} (draining : s.Draining c) (sound : s.Sound c) (rested : s.Rested c)
    (at_ : s.thread i = .emptying probe) (went : Probe.Stepped c s.stores probe next)
    (thread : u.thread = Function.update s.thread i next) (stores : u.stores = s.stores)
    (closing : u.closing = s.closing) : u.Draining c := by
  have quit : s.quit = true := draining.quits i (by rw [at_]; rfl)
  -- a tail load that shows what the head load has shown
  have passed : ∀ p deq, probe = .tail p deq → deq = (s.stores.queues p).enqueuePos → (s.stores.queues p).Dry := by
    rintro p deq rfl tail
    have loaded := draining.loaded i p deq at_
    have order := (sound.stores.queues p).ring.order
    unfold Mpmc.Dry
    omega
  have move : (∀ p deq, next = .emptying (.tail p deq) → deq ≤ (s.stores.queues p).dequeuePos) →
      (∀ p, (s.stores.queues p).Dry ∨ (probe.rank ≤ 3*p.place+2 → next.rank ≤ 3*p.place+2)) →
      (∀ p, (s.stores.queues p).overflow = [] ∨ u.Behind c (3*p.place) ∨
        (probe.rank ≤ 3*p.place → next.rank ≤ 3*p.place)) → u.Draining c := by
    intro loads ring spill
    refine draining.moved next thread (by rw [stores]) (by rw [stores]) closing (fun _ => quit) loads ?_ ?_
    · rw [at_]
      exact ring
    · rw [at_]
      exact spill
  -- past the tail of `q`, all the queues up to it are behind
  have on : ∀ q deq, probe = .tail q deq → deq = (s.stores.queues q).enqueuePos → next.rank ≤ 3*q.place+3 ∨ q.place = 2 →
      (∀ p deq, next ≠ .emptying (.tail p deq)) → u.Draining c := by
    intro q deq here tail near loads
    have dry := passed q deq here tail
    subst here
    refine move (fun p deq at_ => absurd at_ (loads p deq)) ?_ ?_
    · intro p
      by_cases same : p = q
      · exact .inl (same ▸ dry)
      · have apart : p.place ≠ q.place := fun equal => same (Priority.place_inj equal)
        have last := p.place_last
        refine .inr ?_
        intro low
        change 3*q.place+2 ≤ 3*p.place+2 at low
        omega
    · intro p
      have last := p.place_last
      refine .inr (.inr ?_)
      intro low
      change 3*q.place+2 ≤ 3*p.place at low
      omega
  cases went with
  | filled probe idle =>
    exact draining.turned next thread (by rw [stores]) (by rw [stores]) closing idle.leaving
  | uncounted q zero =>
    refine move nofun ?_ ?_
    · intro p
      refine .inr ?_
      intro low
      change 3*q.place ≤ 3*p.place+2 at low
      change 3*q.place+1 ≤ 3*p.place+2
      omega
    · intro p
      by_cases same : p = q
      · subst same
        rcases (sound.stores.queues p).spill.uncounted zero with empty | ⟨j,pushing⟩
        · exact .inl empty
        · obtain ⟨worker,stays⟩ := pusher_behind sound rested quit pushing
          refine .inr (.inl ⟨j,worker,?_⟩)
          have other : j ≠ i := by
            rintro rfl
            rw [at_] at stays
            cases stays
          rw [thread,Function.update_of_ne other,PoolAt.rank_zero stays]
          exact Nat.zero_le _
      · have apart : p.place ≠ q.place := fun equal => same (Priority.place_inj equal)
        refine .inr (.inr ?_)
        intro low
        change 3*q.place ≤ 3*p.place at low
        change 3*q.place+1 ≤ 3*p.place
        omega
  | headed q =>
    refine move ?_ ?_ ?_
    · rintro p deq same
      cases same
      exact Nat.le_refl _
    · intro p
      refine .inr ?_
      intro low
      change 3*q.place+1 ≤ 3*p.place+2 at low
      change 3*q.place+2 ≤ 3*p.place+2
      omega
    · intro p
      refine .inr (.inr ?_)
      intro low
      change 3*q.place+1 ≤ 3*p.place at low
      change 3*q.place+2 ≤ 3*p.place
      omega
  | pastHigh deq tail => exact on .high deq rfl tail (.inl (Nat.le_refl _)) nofun
  | pastNormal deq tail => exact on .normal deq rfl tail (.inl (Nat.le_refl _)) nofun
  | pastLow deq tail _ => exact on .low deq rfl tail (.inr rfl) nofun
  | workerless deq tail => exact on .low deq rfl tail (.inr rfl) nofun
  | _ => exact move nofun (fun _ => .inr id) (fun _ => .inr (.inr id))

-- Only its owner's put fills a deque.
theorem Stores.access_deque {s : Stores} (serves : s.Serves i (some call)) (puts : ∀ n, call = .put n → i ≠ v) :
    (s.access i fails call).entered (.deque v) = s.entered (.deque v) := by
  have elsewhere : ∀ n, s.unsent i call = some n → Lane.deque v ≠ call.lane i := by
    intro n unsent same
    cases call with
    | put m =>
      cases same
      exact puts m rfl rfl
    | push p m => cases same
    | _ => cases unsent
  have extended : ∀ n, s.unsent i call = some n →
      (s.access i fails call).entered = Function.update s.entered (call.lane i) (s.entered (call.lane i)++[n]) →
      (s.access i fails call).entered (.deque v) = s.entered (.deque v) := by
    intro n unsent entered
    rw [entered,Function.update_of_ne (elsewhere n unsent)]
  have outcome := Stores.access_outcome fails serves
  generalize s.answer (s.access i fails call) i call = out at outcome
  cases outcome with
  | storing n unsent entered handed stored => exact extended n unsent entered
  | stored n unsent entered handed => exact extended n unsent entered
  | inside entered handed unsent => exact congrFun entered _
  | empty unsent entered handed => exact congrFun entered _
  | refused n put entered handed => exact congrFun entered _
  | handed n fetches entered handed => exact congrFun entered _

theorem PoolAt.Returns.leaving (went : PoolAt.Returns c i out at_ next) : next.leaving = false := by
  cases went with
  | kept tasks n _ => rcases c.signalSubmit_cases tasks with same | same <;> (rw [same]; rfl)
  | pushed tasks p n => rcases c.signalSubmit_cases tasks with same | same <;> (rw [same]; rfl)
  | found search scan n _ => cases search <;> rfl
  | _ => rfl

-- One access of a call. A worker in a call has all of `all_empty` before it, and an
-- outside thread is in one only while no worker has begun to leave.
theorem Pool.Draining.called {s u : Pool} (draining : s.Draining c) (sound : s.Sound c) (rested : s.Rested c)
    (fails : Bool) (call : StoreCall) (next : PoolAt) (asks : (s.thread i).call c i = some call)
    (stores : u.stores = s.stores.access i fails call) (thread : u.thread = Function.update s.thread i next)
    (closing : u.closing = s.closing) (stays : next.leaving = false) : u.Draining c := by
  have quit : u.quit = s.quit := by
    unfold Pool.quit
    rw [closing]
  have at_j : ∀ j, j ≠ i → u.thread j = s.thread j := fun j other => by rw [thread,Function.update_of_ne other]
  have at_i : u.thread i = next := by rw [thread,Function.update_self]
  have mine : s.stores.Serves i (some call) := asks ▸ sound.serves i
  have behind : ∀ rank, u.Behind c rank := by
    intro rank
    by_cases worker : i < c.workers
    · refine ⟨i,worker,?_⟩
      rw [at_i,PoolAt.rank_zero stays]
      exact Nat.zero_le _
    · have open_ : s.quit ≠ true := by
        intro begun
        rw [PoolAt.resting_call (rested begun i (Nat.le_of_not_lt worker))] at asks
        cases asks
      have pooled : c.singleThreaded = false := by
        cases single : c.singleThreaded with
        | false => rfl
        | true =>
          have only := (sound.serial single).2.2 i
          cases at_ : s.thread i <;> rw [at_] at asks only <;> first | (cases only; done) | cases asks
      have staffed := c.spare_worker pooled
      refine ⟨0,staffed,?_⟩
      have other : 0 ≠ i := fun same => worker (same ▸ staffed)
      rw [at_j 0 other]
      cases leaves : (s.thread 0).leaving with
      | false =>
        rw [PoolAt.rank_zero leaves]
        exact Nat.zero_le _
      | true => exact absurd (draining.quits 0 leaves) open_
  refine ⟨?_,?_,fun p => .inr (behind _),fun p => .inr (behind _),?_⟩
  · intro w leaves
    rw [quit]
    by_cases same : w = i
    · rw [same,at_i,stays] at leaves
      cases leaves
    · rw [at_j w same] at leaves
      exact draining.quits w leaves
  · intro w p deq at_
    by_cases same : w = i
    · rw [same,at_i] at at_
      rw [at_] at stays
      cases stays
    · rw [at_j w same] at at_
      rw [stores]
      exact Nat.le_trans (draining.loaded w p deq at_) (Stores.access_dequeue sound.stores p)
  · intro v outer
    rw [stores]
    refine (Stores.access_deque mine ?_).trans (draining.spare v outer)
    rintro n rfl rfl
    have inner : (s.thread i).outside = true := sound.outside i outer
    generalize s.thread i = at_ at asks inner
    cases PoolAt.call_asks asks with
    | putting tasks m => cases inner
    | finding search scan _ fetches => cases fetches

theorem PoolAt.roused_rank (at_ : PoolAt) : at_.roused.rank = at_.rank := by
  cases at_ <;> rfl

theorem PoolAt.roused_leaving (at_ : PoolAt) : at_.roused.leaving = at_.leaving := by
  cases at_ <;> rfl

-- The destructor goes on, or threads are woken.
theorem Pool.Draining.roused {s u : Pool} (draining : s.Draining c) (stores : u.stores = s.stores)
    (quit : s.quit = true → u.quit = true)
    (thread : ∀ j, u.thread j = s.thread j ∨ u.thread j = (s.thread j).roused) : u.Draining c := by
  have rank : ∀ j, (u.thread j).rank = (s.thread j).rank := fun j => roused_read PoolAt.rank (thread j) PoolAt.roused_rank
  have behind : ∀ r, s.Behind c r → u.Behind c r := by
    rintro r ⟨w,worker,low⟩
    exact ⟨w,worker,by rw [rank w]; exact low⟩
  refine ⟨?_,?_,?_,?_,?_⟩
  · intro w leaves
    rw [roused_read PoolAt.leaving (thread w) PoolAt.roused_leaving] at leaves
    exact quit (draining.quits w leaves)
  · intro w p deq at_
    rw [stores]
    refine draining.loaded w p deq ?_
    cases thread w with
    | inl kept => rw [← kept,at_]
    | inr roused =>
      rw [roused] at at_
      cases here : s.thread w <;> rw [here] at at_ <;> first | exact at_ | cases at_
  · intro p
    rw [stores]
    exact (draining.ring p).imp_right (behind _)
  · intro p
    rw [stores]
    exact (draining.spill p).imp_right (behind _)
  · rw [stores]
    exact draining.spare

theorem pool_draining_step {s : Pool} (sound : s.Sound c) (rested : s.Rested c) (draining : s.Draining c)
    (step : PoolStep c timed s u) : u.Draining c := by
  cases step with
  | stays => exact draining
  | moves i next move =>
    obtain ⟨at_,here⟩ : ∃ at_, s.thread i = at_ := ⟨_,rfl⟩
    rw [here] at move
    cases move with
    | checks search went =>
      cases went with
      | empties quit =>
        refine draining.moved _ rfl rfl rfl rfl (fun _ => quit) nofun ?_ ?_
        · exact fun p => .inr (fun _ => Nat.zero_le _)
        · exact fun p => .inr (.inr (fun _ => Nat.zero_le _))
      | waits idle => exact draining.turned next rfl rfl rfl rfl idle.leaving
      | _ => exact draining.turned _ rfl rfl rfl rfl rfl
    | probes probe went => exact draining.probed sound rested here went rfl rfl rfl
    | _ => exact draining.turned _ rfl rfl rfl rfl rfl
  | submits i tasks next pooled at_ where_ =>
    refine draining.turned next rfl rfl rfl rfl ?_
    rcases where_ with ⟨-,rfl⟩ | ⟨p,rfl⟩ <;> rfl
  | appends i tasks single at_ _ =>
    refine draining.turned (i := i) (s.thread i) (Function.update_eq_self ..).symm rfl rfl rfl ?_
    rw [at_]
    rfl
  | starts i tasks single at_ _ => exact draining.turned _ rfl rfl rfl rfl rfl
  | draws i tasks started n at_ _ => exact draining.turned _ rfl rfl rfl rfl rfl
  | ends i tasks at_ _ => exact draining.turned _ rfl rfl rfl rfl rfl
  | finishes i t rest at_ =>
    refine draining.turned _ rfl rfl rfl rfl ?_
    cases t.dispatch <;> rfl
  | inside i fails call asks _ _ =>
    exact draining.called sound rested fails call (s.thread i) asks rfl (Function.update_eq_self ..).symm rfl
      (PoolAt.leaving_call asks)
  | back i fails pick call out asks _ _ =>
    exact draining.called sound rested fails call _ asks rfl rfl rfl
      (PoolAt.answered_returns pick (s.aging i) out asks).leaving
  | advances i tasks at_ =>
    refine draining.turned _ rfl rfl rfl rfl ?_
    split <;> rfl
  | promotes i n at_ => exact draining.turned _ rfl rfl rfl rfl rfl
  | wakes i tasks pick at_ _ =>
    have roused : (s.rouse pick).Draining c := draining.roused rfl id (rouse_thread s pick)
    exact roused.turned _ rfl rfl rfl rfl rfl
  | enlists i at_ =>
    refine draining.turned _ rfl rfl rfl rfl ?_
    split <;> rfl
  | retires i stop at_ =>
    refine draining.turned _ rfl rfl rfl rfl ?_
    cases stop with
    | found n =>
      simp only [SpinEnd.left]
      split <;> rfl
    | _ => rfl
  | quits _ => exact draining.roused rfl (fun _ => rfl) (fun _ => .inl rfl)
  | shuts _ _ => exact draining.roused rfl (fun _ => rfl) (fun _ => .inl rfl)
  | notifies _ _ => exact draining.roused rfl (fun _ => rfl) (fun _ => .inl rfl)
  | rouses _ => exact draining.roused rfl (fun _ => rfl) (fun _ => .inr rfl)

theorem fresh_draining (c : Scheduler) : (Pool.fresh c).Draining c := by
  refine ⟨?_,?_,fun _ => .inl rfl,fun _ => .inl rfl,fun _ _ => rfl⟩
  · intro w leaves
    rcases fresh_place c w with here | here <;> (rw [here] at leaves; cases leaves)
  · intro w p deq at_
    rcases fresh_place c w with here | here <;> (rw [here] at at_; cases at_)

structure Pool.Conserved (c : Scheduler) (s : Pool) : Prop where
  sound : s.Sound c
  frames : s.Stacked c
  accounted : s.Accounted c
  rested : s.Rested c
  draining : s.Draining c

theorem reached_conserved {s : Pool} (path : Reached (drainSystem c) s) : s.Conserved c := by
  refine reached_invariant (Pool.Conserved c) ?_ ?_ path
  · intro s begun
    change s = Pool.fresh c at begun
    rw [begun]
    exact ⟨fresh_sound c,fresh_stacked c,fresh_accounted c,nofun,fresh_draining c⟩
  · rintro s a ⟨sound,frames,accounted,rested,draining⟩ ⟨allowed,undisturbed⟩
    have step : PoolStep c False s (s.apply c a) := pool_step allowed nofun
    exact ⟨pool_sound_step sound step,pool_stacked_step sound frames step,
      pool_accounted_step sound frames accounted step,pool_rested_step sound frames rested allowed undisturbed,
      pool_draining_step sound rested draining step⟩

def Pool.Emptied (c : Scheduler) (s : Pool) : Prop :=
  (∀ p, s.stores.Vacant p) ∧ (∀ v, v < c.workers → (s.stores.deques v).Bare) ∧
    ∀ i, (s.stores.serial i).pending = [] ∧ (s.stores.serial i).pushed = (s.stores.serial i).popped

-- No worker is left to be behind, so nothing has been left to it.
theorem Pool.Conserved.emptied {s : Pool} (conserved : s.Conserved c) (quit : s.quit = true)
    (exited : ∀ w, w < c.workers → s.thread w = .exited) : s.Emptied c := by
  have gone : ∀ rank, rank < 9 → ¬s.Behind c rank := by
    rintro rank low ⟨w,worker,behind⟩
    rw [exited w worker] at behind
    exact Nat.lt_irrefl _ (Nat.lt_of_le_of_lt behind low)
  refine ⟨?_,?_,?_⟩
  · intro p
    have last := p.place_last
    exact ⟨(conserved.draining.ring p).resolve_right (gone _ (by omega)),
      (conserved.draining.spill p).resolve_right (gone _ (by omega))⟩
  · intro v worker
    exact conserved.sound.bare v (by rw [exited v worker]; rfl)
  · intro i
    cases single : c.singleThreaded with
    | false =>
      rw [conserved.sound.pooled single i]
      exact ⟨rfl,rfl⟩
    | true =>
      have holds := conserved.frames.tramp single i
      rw [conserved.rested quit i (Nat.le_of_not_lt (c.not_both single))] at holds
      have pending := holds.spent holds.drains
      refine ⟨pending,?_⟩
      rw [holds.kept.2,pending,List.drop_nil,List.append_nil]

-- Nothing that has come into an emptied container is still to be handed out.
theorem Pool.Conserved.all_handed {s : Pool} (conserved : s.Conserved c) (emptied : s.Emptied c)
    (silent : ∀ i, (s.thread i).call c i = none) (lane : Lane) (entered : n ∈ s.stores.entered lane) :
    n ∈ s.stores.handed lane := by
  cases lane with
  | queue p =>
    have quiet : (s.stores.queues p).Quiet := by
      intro i
      have serves := conserved.sound.serves i
      rw [silent i] at serves
      exact serves.away.1 p
    exact (conserved.sound.stores.queues p).all_popped quiet (emptied.1 p).1 (emptied.1 p).2 entered
  | deque v =>
    by_cases worker : v < c.workers
    · exact (conserved.sound.stores.deques v).all_answered (emptied.2.1 v worker) entered
    · rw [conserved.draining.spare v (Nat.le_of_not_lt worker)] at entered
      exact absurd entered List.not_mem_nil
  | serial i =>
    change n ∈ (s.stores.serial i).popped
    rw [← (emptied.2.2 i).2]
    exact entered

-- Each worker leaves by itself, on its own reading of containers that the others
-- still fill; when the last one has left, each task has run once and nothing is
-- queued.
theorem shutdown_drains {s : Pool} (c : Scheduler) (path : Reached (drainSystem c) s) (quit : s.quit = true)
    (exited : ∀ w, w < c.workers → s.thread w = .exited) :
    s.ran.Perm (List.range s.submitted) ∧ (∀ p, (s.stores.queues p).stored queueCapacity = []) ∧
      (∀ v, v < c.workers → (s.stores.deques v).stored dequeCapacity = []) ∧ ∀ i, (s.stores.serial i).pending = [] := by
  have conserved := reached_conserved path
  have emptied := conserved.emptied quit exited
  have still : ∀ i, (s.thread i).call c i = none ∧ (s.thread i).holds = [] := by
    intro i
    by_cases worker : i < c.workers
    · rw [exited i worker]
      exact ⟨rfl,rfl⟩
    · have rests := conserved.rested quit i (Nat.le_of_not_lt worker)
      refine ⟨PoolAt.resting_call rests,?_⟩
      exact PoolAt.resting_holds rests
  refine ⟨?_,fun p => (emptied.1 p).1.stored (emptied.1 p).2,fun v worker => (emptied.2.1 v worker).stored,
    fun i => (emptied.2.2 i).1⟩
  refine Consignments.Consigned.all_done conserved.accounted ?_ (fun i => (still i).2) ?_
  · intro i
    unfold Pool.sends
    rw [(still i).1]
    rfl
  · exact fun lane n => conserved.all_handed emptied (fun i => (still i).1) lane

-- What a worker or a body on it does disturbs nothing.
def PoolAction.inner (c : Scheduler) : PoolAction → Bool
  | .submit i _ => decide (i < c.workers)
  | .quit => false
  | _ => true

theorem PoolAction.inner_undisturbed {s : Pool} {a : PoolAction} (inner : a.inner c = true) : s.Undisturbed c a := by
  cases a with
  | submit i p => exact fun outer => absurd (of_decide_eq_true inner) (Nat.not_lt_of_le outer)
  | quit => cases inner
  | _ => trivial

-- A schedule of the workers' own leads on, and leaves outside threads at rest.
theorem reached_inner {s : Pool} (path : Reached (drainSystem c) s) (inner : schedule.all (PoolAction.inner c) = true)
    (admitted : (poolSystem c).admits s schedule = true) :
    Reached (drainSystem c) ((poolSystem c).follow s schedule) ∧
      ∀ i, c.workers ≤ i → (s.thread i).resting = true → (((poolSystem c).follow s schedule).thread i).resting = true := by
  induction schedule generalizing s with
  | nil => exact ⟨path,fun _ _ => id⟩
  | cons a rest ih =>
    simp only [List.all_cons,Bool.and_eq_true] at inner
    simp only [Machine.admits,Bool.and_eq_true,decide_eq_true_eq] at admitted
    have kept := reached_conserved path
    obtain ⟨ends,still⟩ := ih (.step path ⟨admitted.1,PoolAction.inner_undisturbed inner.1⟩) inner.2 admitted.2
    refine ⟨ends,?_⟩
    intro i outer rests
    refine still i outer (rest_unless kept.sound kept.frames admitted.1 ?_ outer rests)
    rintro p rfl
    exact absurd (of_decide_eq_true inner.1) (Nat.not_lt_of_le outer)

def twoWorkers : Scheduler := SchedulerConfig.scheduler { numWorkers := 2 } 0

-- An outside thread has submitted low work when the destructor begins.
def lastSubmit : List PoolAction := List.replicate 7 (.step 2 false 0)

def submittedLow : Pool := (Pool.fresh twoWorkers).apply twoWorkers (.submit 2 .low)

def quitBegun : Pool := ((poolSystem twoWorkers).follow submittedLow lastSubmit).apply twoWorkers .quit

-- Worker 0 takes it, worker 1 finds everything empty and leaves; then the body on
-- worker 0 submits once more, and worker 0 runs that as well before it leaves.
def lastWorker : List PoolAction :=
  List.replicate 19 (PoolAction.step 0 false 0)++List.replicate 31 (PoolAction.step 1 false 0)++[PoolAction.submit 0 .normal]++
    List.replicate 6 (PoolAction.step 0 false 0)++[PoolAction.finish 0]++List.replicate 9 (PoolAction.step 0 false 0)++
    [PoolAction.finish 0]++List.replicate 31 (PoolAction.step 0 false 0)

theorem quitBegun_reached : Reached (drainSystem twoWorkers) quitBegun := by
  have started : Reached (drainSystem twoWorkers) (.fresh twoWorkers) := .start rfl
  have allowed : (Pool.fresh twoWorkers).Allowed twoWorkers (.submit 2 .low) := by decide
  have undisturbed : (drainSystem twoWorkers).allowed (.fresh twoWorkers) (.submit 2 .low) := ⟨allowed,fun _ => rfl⟩
  have submitted : Reached (drainSystem twoWorkers) submittedLow := .step started undisturbed
  obtain ⟨stored,still⟩ : Reached (drainSystem twoWorkers) ((poolSystem twoWorkers).follow submittedLow lastSubmit) ∧ _ :=
    reached_inner submitted (by decide) (by decide +kernel)
  suffices quits : (drainSystem twoWorkers).allowed ((poolSystem twoWorkers).follow submittedLow lastSubmit) .quit from
    .step stored quits
  refine ⟨(by decide +kernel : Pool.Allowed twoWorkers _ .quit),?_⟩
  intro i outer
  by_cases same : i = 2
  · rw [same]
    decide +kernel
  · have kept := reached_conserved started
    refine still i outer (rest_unless kept.sound kept.frames allowed ?_ outer ?_)
    · rintro p equal
      cases equal
      exact same rfl
    · simp only [Pool.fresh,if_neg (Nat.not_lt_of_le outer)]
      rfl

theorem shutdown_drains_late :
    let s := (poolSystem twoWorkers).follow quitBegun lastWorker
    quitBegun.submitted = 1 ∧ s.submitted = 2 ∧ s.ran.Perm (List.range s.submitted) ∧
      (∀ p, (s.stores.queues p).stored queueCapacity = []) ∧
      (∀ v, v < twoWorkers.workers → (s.stores.deques v).stored dequeCapacity = []) ∧
      ∀ i, (s.stores.serial i).pending = [] :=
  ⟨by decide +kernel,by decide +kernel,
    shutdown_drains twoWorkers (reached_inner quitBegun_reached (by decide) (by decide +kernel)).1 (by decide +kernel)
      (by decide +kernel)⟩

end Macrame

import Macrame.PoolSteps

namespace Macrame
open Machines

def RunningTask.isSerial (t : RunningTask) : Bool :=
  match t.dispatch with
  | .serial _ => true
  | _ => false

-- Where a thread that is no worker can stand.
def PoolAt.outside : PoolAt → Bool
  | .running tasks => tasks.all RunningTask.isSerial
  | .pushing tasks _ _ => tasks.all RunningTask.isSerial
  | .advancing tasks => tasks.all RunningTask.isSerial
  | .deciding tasks => tasks.all RunningTask.isSerial
  | .waking tasks => tasks.all RunningTask.isSerial
  | .looping tasks _ => tasks.all RunningTask.isSerial
  | _ => false

-- Where a thread can stand without workers.
def PoolAt.serialOnly : PoolAt → Bool
  | .running _ => true
  | .looping _ _ => true
  | _ => false

-- The worker's last take has found its own deque empty.
def Scan.ownSearched : Scan → Bool
  | .normal => true
  | .steal _ _ => true
  | .low => true
  | _ => false

def PoolAt.ownSearched : PoolAt → Bool
  | .finding _ scan => scan.ownSearched
  | .checking _ => true
  | .emptying _ => true
  | .committing _ => true
  | .blocked _ => true
  | .exited => true
  | _ => false

structure Pool.Sound (c : Scheduler) (s : Pool) : Prop where
  stores : s.stores.Inv
  serves : ∀ i, s.stores.Serves i ((s.thread i).call c i)
  outside : ∀ i, c.workers ≤ i → (s.thread i).outside = true
  bare : ∀ w, (s.thread w).ownSearched = true → (s.stores.deques w).Bare
  serial : c.singleThreaded = true → s.stores.queues = Stores.fresh.queues ∧ s.stores.deques = Stores.fresh.deques ∧
    ∀ i, (s.thread i).serialOnly = true
  pooled : c.singleThreaded = false → ∀ i, s.stores.serial i = .fresh

theorem Scheduler.single_workers {c : Scheduler} (single : c.singleThreaded = true) : c.workers = 0 := by
  by_contra some
  have pooled := c.staffed.mpr (Nat.pos_of_ne_zero some)
  rw [single] at pooled
  cases pooled

theorem Pool.Sound.worker {s : Pool} (sound : s.Sound c) (inner : (s.thread i).outside = false) : i < c.workers := by
  by_contra outer
  rw [sound.outside i (Nat.le_of_not_lt outer)] at inner
  cases inner

theorem PoolMove.free {s : Pool} (move : PoolMove c timed s i at_ next) : at_.call c i = none := by
  cases move <;> first | rfl | assumption

theorem PoolMove.outside {s : Pool} (move : PoolMove c timed s i at_ next) (outer : c.workers ≤ i)
    (prior : at_.outside = true) : next.outside = true := by
  cases move with
  | yields tasks own worker => exact absurd outer (Nat.not_le_of_lt worker)
  | drains tasks => exact prior
  | drained tasks => exact prior
  | wakes tasks _ => exact prior
  | skips tasks _ => exact prior
  | _ => cases prior

theorem PoolMove.own {s : Pool} (move : PoolMove c timed s i at_ next) (own : next.ownSearched = true) :
    at_.ownSearched = true := by
  cases move <;> first | rfl | cases own

theorem PoolMove.serialOnly {s : Pool} (move : PoolMove c timed s i at_ next) (single : c.singleThreaded = true)
    (prior : at_.serialOnly = true) : next.serialOnly = true := by
  cases move with
  | yields tasks own worker =>
    rw [Scheduler.single_workers single] at worker
    exact absurd worker (Nat.not_lt_zero i)
  | drains tasks => rfl
  | drained tasks => rfl
  | _ => cases prior

-- One thread moves outside the containers.
theorem Pool.Sound.moved {s u : Pool} (sound : s.Sound c) (next : PoolAt) (thread : u.thread = Function.update s.thread i next)
    (queues : u.stores.queues = s.stores.queues) (deques : u.stores.deques = s.stores.deques)
    (free : (s.thread i).call c i = none) (outside : c.workers ≤ i → next.outside = true)
    (own : next.ownSearched = true → (s.thread i).ownSearched = true)
    (serial : c.singleThreaded = true → next.serialOnly = true)
    (pooled : c.singleThreaded = false → ∀ j, u.stores.serial j = .fresh) : u.Sound c := by
  have at_j : ∀ j, j ≠ i → u.thread j = s.thread j := fun j other => by rw [thread,Function.update_of_ne other]
  have at_i : u.thread i = next := by rw [thread,Function.update_self]
  refine ⟨⟨?_,?_⟩,?_,?_,?_,?_,pooled⟩
  · rw [queues]
    exact sound.stores.queues
  · rw [deques]
    exact sound.stores.deques
  · intro j
    have serves : s.stores.Serves j ((u.thread j).call c j) := by
      by_cases same : j = i
      · subst same
        have away := sound.serves j
        rw [free] at away
        exact away.away.serves
      · rw [at_j j same]
        exact sound.serves j
    refine ⟨?_,?_,?_⟩
    · rw [queues]
      exact serves.queues
    · rw [deques]
      exact serves.owner
    · rw [deques]
      exact serves.thieves
  · intro j outer
    by_cases same : j = i
    · rw [same] at outer ⊢
      rw [at_i]
      exact outside outer
    · rw [at_j j same]
      exact sound.outside j outer
  · intro w searched
    rw [deques]
    refine sound.bare w ?_
    by_cases same : w = i
    · rw [same,at_i] at searched
      rw [same]
      exact own searched
    · rwa [at_j w same] at searched
  · intro single
    obtain ⟨bareQueues,bareDeques,only⟩ := sound.serial single
    refine ⟨queues.trans bareQueues,deques.trans bareDeques,?_⟩
    intro j
    by_cases same : j = i
    · rw [same,at_i]
      exact serial single
    · rw [at_j j same]
      exact only j

theorem PoolAt.own_call {at_ : PoolAt} (own : at_.ownSearched = true) :
    at_.call c i ≠ some .take ∧ ∀ n, at_.call c i ≠ some (.put n) := by
  cases at_ with
  | finding search scan =>
    cases scan with
    | steal start k =>
      simp only [call,Scan.call]
      split
      · exact ⟨(by rintro ⟨⟩),(by rintro n ⟨⟩)⟩
      · exact ⟨(by rintro ⟨⟩),(by rintro n ⟨⟩)⟩
    | normal => exact ⟨(by rintro ⟨⟩),(by rintro n ⟨⟩)⟩
    | low => exact ⟨(by rintro ⟨⟩),(by rintro n ⟨⟩)⟩
    | _ => cases own
  | checking search => exact ⟨(by rintro ⟨⟩),(by rintro n ⟨⟩)⟩
  | emptying probe => exact ⟨(by rintro ⟨⟩),(by rintro n ⟨⟩)⟩
  | committing key => exact ⟨(by rintro ⟨⟩),(by rintro n ⟨⟩)⟩
  | blocked key => exact ⟨(by rintro ⟨⟩),(by rintro n ⟨⟩)⟩
  | exited => exact ⟨(by rintro ⟨⟩),(by rintro n ⟨⟩)⟩
  | _ => cases own

theorem signalSubmit_own (c : Scheduler) (tasks : List RunningTask) : (c.signalSubmit tasks).ownSearched = false := by
  rcases c.signalSubmit_cases tasks with same | same <;> (rw [same]; rfl)

theorem Search.found_own (search : Search) (n : Nat) : (search.found n).ownSearched = false := by
  cases search <;> rfl

theorem Aging.valve_own {a : Aging} (here : a.valve.2 = .scan next) : next.ownSearched = false := by
  unfold Aging.valve at here
  split at here
  · cases here
    rfl
  · cases here
    rfl

-- A scan is past the own deque only through a take that failed.
theorem Scan.answered_own {a : Aging} {scan : Scan} (here : (scan.answered c pick a none).2 = .scan next)
    (own : next.ownSearched = true) : scan.ownSearched = true ∨ scan = .own := by
  have valve : ∀ b : Aging, b.valve.2 = .scan next → scan.ownSearched = true ∨ scan = .own := by
    intro b went
    rw [Aging.valve_own went] at own
    cases own
  cases scan with
  | high =>
    simp only [answered] at here
    split at here
    · cases here
      cases own
    · exact valve _ here
  | lowValve => exact valve _ here
  | globalValve =>
    cases here
    cases own
  | own => exact .inr rfl
  | _ => exact .inl rfl

theorem PoolAt.Returns.own (went : PoolAt.Returns c i out at_ next) (asks : at_.call c i = some asked)
    (own : next.ownSearched = true) : at_.ownSearched = true ∨ (asked = .take ∧ out = none) := by
  cases went with
  | kept tasks n _ =>
    rw [signalSubmit_own] at own
    cases own
  | pushed tasks p n =>
    rw [signalSubmit_own] at own
    cases own
  | scans search scan next pick a none here =>
    rcases Scan.answered_own here own with prior | same
    · exact .inl prior
    · subst same
      cases asks
      exact .inr ⟨rfl,none⟩
  | found search scan n _ =>
    rw [Search.found_own] at own
    cases own
  | checks search _ => exact .inl rfl
  | _ => cases own

theorem PoolAt.Returns.outside (went : PoolAt.Returns c i out at_ next) (outer : at_.outside = true) :
    next.outside = true := by
  cases went with
  | pushed tasks p n => rcases c.signalSubmit_cases tasks with same | same <;> (rw [same]; exact outer)
  | _ => cases outer

theorem Stores.access_serial (s : Stores) : (s.access i fails call).serial = s.serial := by
  cases call <;> rfl

-- One thread makes an access of its call, and moves on if that was the last.
theorem Pool.Sound.called {s u : Pool} (sound : s.Sound c) (fails : Bool) (call : StoreCall) (next : PoolAt)
    (asks : (s.thread i).call c i = some call) (ready : s.stores.Ready i call)
    (stores : u.stores = s.stores.access i fails call) (thread : u.thread = Function.update s.thread i next)
    (serves : (s.stores.access i fails call).Serves i (next.call c i))
    (outside : (s.thread i).outside = true → next.outside = true)
    (own : next.ownSearched = true → (s.thread i).ownSearched = true ∨
      (call = .take ∧ s.stores.answer (s.stores.access i fails call) i call = some none)) : u.Sound c := by
  have at_j : ∀ j, j ≠ i → u.thread j = s.thread j := fun j other => by rw [thread,Function.update_of_ne other]
  have at_i : u.thread i = next := by rw [thread,Function.update_self]
  have mine : s.stores.Serves i (some call) := asks ▸ sound.serves i
  refine ⟨?_,?_,?_,?_,?_,?_⟩
  · rw [stores]
    exact Stores.access_inv sound.stores ready
  · intro j
    rw [stores]
    by_cases same : j = i
    · rw [same,at_i]
      exact serves
    · rw [at_j j same]
      exact Stores.access_other same (sound.serves j)
  · intro j outer
    by_cases same : j = i
    · rw [same] at outer ⊢
      rw [at_i]
      exact outside (sound.outside i outer)
    · rw [at_j j same]
      exact sound.outside j outer
  · intro w searched
    rw [stores]
    have kept : (s.thread w).ownSearched = true → ((s.stores.access i fails call).deques w).Bare := by
      intro prior
      refine Stores.access_bare (sound.bare w prior) ?_ ?_
      · intro take same
        exact (PoolAt.own_call (same ▸ prior)).1 (take ▸ asks)
      · intro n put same
        exact (PoolAt.own_call (same ▸ prior)).2 n (put ▸ asks)
    by_cases same : w = i
    · subst same
      rw [at_i] at searched
      rcases own searched with prior | ⟨take,none⟩
      · exact kept prior
      · subst take
        exact Stores.take_none sound.stores mine none
    · rw [at_j w same] at searched
      exact kept searched
  · intro single
    have only := (sound.serial single).2.2 i
    cases at_ : s.thread i with
    | running tasks => rw [at_] at asks; cases asks
    | looping tasks started => rw [at_] at asks; cases asks
    | _ => rw [at_] at only; cases only
  · intro pooled j
    rw [stores,Stores.access_serial]
    exact sound.pooled pooled j

theorem PoolAt.roused_call (at_ : PoolAt) : at_.roused.call c i = at_.call c i := by cases at_ <;> rfl

theorem PoolAt.roused_outside (at_ : PoolAt) : at_.roused.outside = at_.outside := by cases at_ <;> rfl

theorem PoolAt.roused_own (at_ : PoolAt) : at_.roused.ownSearched = at_.ownSearched := by cases at_ <;> rfl

theorem PoolAt.roused_serial (at_ : PoolAt) : at_.roused.serialOnly = at_.serialOnly := by cases at_ <;> rfl

-- What a wake does not change of a thread reads as before.
theorem roused_read {β : Type} (read : PoolAt → β) {now was : PoolAt} (thread : now = was ∨ now = was.roused)
    (blind : ∀ at_ : PoolAt, read at_.roused = read at_) : read now = read was := by
  cases thread with
  | inl kept => rw [kept]
  | inr roused => rw [roused,blind]

-- Waking threads, one or all, shows only in what they compare next.
theorem Pool.Sound.roused {s u : Pool} (sound : s.Sound c) (stores : u.stores = s.stores)
    (thread : ∀ j, u.thread j = s.thread j ∨ u.thread j = (s.thread j).roused) : u.Sound c := by
  refine ⟨stores ▸ sound.stores,?_,?_,?_,?_,stores ▸ sound.pooled⟩
  · intro j
    rw [stores,roused_read (PoolAt.call c j) (thread j) PoolAt.roused_call]
    exact sound.serves j
  · intro j outer
    rw [roused_read PoolAt.outside (thread j) PoolAt.roused_outside]
    exact sound.outside j outer
  · intro w searched
    rw [roused_read PoolAt.ownSearched (thread w) PoolAt.roused_own] at searched
    rw [stores]
    exact sound.bare w searched
  · intro single
    refine ⟨stores ▸ (sound.serial single).1,stores ▸ (sound.serial single).2.1,?_⟩
    intro j
    rw [roused_read PoolAt.serialOnly (thread j) PoolAt.roused_serial]
    exact (sound.serial single).2.2 j

theorem rouse_thread (s : Pool) (w j : ThreadId) :
    (s.rouse w).thread j = s.thread j ∨ (s.rouse w).thread j = (s.thread j).roused := by
  by_cases same : j = w
  · exact .inr (by rw [same]; exact Function.update_self ..)
  · exact .inl (Function.update_of_ne same ..)

theorem rouse_waking {s : Pool} (w : ThreadId) (at_ : s.thread i = .waking tasks) : (s.rouse w).thread i = .waking tasks := by
  rcases rouse_thread s w i with same | same
  · rw [same,at_]
  · rw [same,at_]
    rfl

theorem Scheduler.spare_worker {c : Scheduler} (pooled : c.singleThreaded = false) : 0 < c.workers := c.staffed.mp pooled

theorem pool_sound_step {s : Pool} (sound : s.Sound c) (step : PoolStep c timed s u) : u.Sound c := by
  have serial : ∀ i, (s.thread i).serialOnly = false → c.singleThreaded = true → False := by
    intro i other single
    rw [(sound.serial single).2.2 i] at other
    cases other
  cases step with
  | stays => exact sound
  | moves i next move =>
    exact sound.moved next rfl rfl rfl move.free (fun outer => move.outside outer (sound.outside i outer)) move.own
      (fun single => move.serialOnly single ((sound.serial single).2.2 i)) sound.pooled
  | submits i tasks next pooled at_ where_ =>
    have outer := sound.outside i
    rw [at_] at outer
    have off : c.singleThreaded ≠ true := fun single => by (rw [pooled] at single; cases single)
    rcases where_ with ⟨worker,rfl⟩ | ⟨p,rfl⟩
    · exact sound.moved _ rfl rfl rfl (by rw [at_]; rfl) (fun outside => absurd outside (Nat.not_le_of_lt worker)) nofun
        (fun single => absurd single off) sound.pooled
    · exact sound.moved _ rfl rfl rfl (by rw [at_]; rfl) outer nofun (fun single => absurd single off) sound.pooled
  | appends i tasks single at_ _ =>
    refine sound.moved (i := i) (s.thread i) (Function.update_eq_self ..).symm rfl rfl (by rw [at_]; rfl) (sound.outside i)
      id (fun single => (sound.serial single).2.2 i) ?_
    intro pooled
    rw [single] at pooled
    cases pooled
  | starts i tasks single at_ _ =>
    have outer := sound.outside i
    rw [at_] at outer
    refine sound.moved _ rfl rfl rfl (by rw [at_]; rfl) outer nofun (fun _ => rfl) ?_
    intro pooled
    rw [single] at pooled
    cases pooled
  | draws i tasks started n at_ found =>
    have outer := sound.outside i
    rw [at_] at outer
    refine sound.moved _ rfl rfl rfl (by rw [at_]; rfl) ?_ nofun (fun _ => rfl) ?_
    · intro outside
      simp only [PoolAt.outside,List.all_cons,RunningTask.isSerial,Bool.true_and]
      exact outer outside
    · intro pooled
      rw [sound.pooled pooled i] at found
      cases found
  | ends i tasks at_ _ =>
    have outer := sound.outside i
    rw [at_] at outer
    refine sound.moved _ rfl rfl rfl (by rw [at_]; rfl) outer nofun (fun _ => rfl) ?_
    intro pooled j
    have empty := sound.pooled pooled
    change Function.update s.stores.serial i { s.stores.serial i with pending := [], head := 0, draining := false } j = .fresh
    by_cases same : j = i
    · rw [same,Function.update_self,empty i]
      rfl
    · rw [Function.update_of_ne same]
      exact empty j
  | finishes i t rest at_ =>
    have outer := sound.outside i
    rw [at_] at outer
    simp only [PoolAt.outside,List.all_cons,Bool.and_eq_true] at outer
    refine sound.moved _ rfl rfl rfl (by rw [at_]; rfl) ?_ ?_ ?_ sound.pooled
    · intro outside
      obtain ⟨first,others⟩ := outer outside
      cases how : t.dispatch with
      | serial started => exact others
      | _ => simp only [RunningTask.isSerial,how] at first; cases first
    · cases t.dispatch <;> exact nofun
    · intro single
      have first := (outer (by rw [Scheduler.single_workers single]; exact Nat.zero_le i)).1
      cases how : t.dispatch with
      | serial started => rfl
      | _ => simp only [RunningTask.isSerial,how] at first; cases first
  | inside i fails call asks ready answer =>
    have mine : s.stores.Serves i (some call) := asks ▸ sound.serves i
    exact sound.called fails call (s.thread i) asks ready rfl (Function.update_eq_self ..).symm
      (asks ▸ Stores.access_serves mine) id .inl
  | back i fails pick call out asks ready answer =>
    have mine : s.stores.Serves i (some call) := asks ▸ sound.serves i
    have went := PoolAt.answered_returns pick (s.aging i) out asks
    refine sound.called fails call _ asks ready rfl rfl (Stores.access_away mine answer).serves went.outside ?_
    intro own
    refine (went.own asks own).imp_right ?_
    rintro ⟨take,none⟩
    exact ⟨take,by rw [answer,none]⟩
  | advances i tasks at_ =>
    have outer := sound.outside i
    rw [at_] at outer
    refine sound.moved _ rfl rfl rfl (by rw [at_]; rfl) ?_ ?_ (fun single => (serial i (by rw [at_]; rfl) single).elim)
      sound.pooled
    · intro outside
      split <;> exact outer outside
    · split <;> exact nofun
  | promotes i n at_ =>
    refine sound.moved _ rfl rfl rfl (by rw [at_]; rfl) ?_ nofun (fun single => (serial i (by rw [at_]; rfl) single).elim)
      sound.pooled
    intro outside
    have outer := sound.outside i outside
    rw [at_] at outer
    cases outer
  | wakes i tasks pick at_ _ =>
    have roused : (s.rouse pick).Sound c := sound.roused rfl (rouse_thread s pick)
    have here := rouse_waking pick at_
    have outer := roused.outside i
    rw [here] at outer
    exact roused.moved _ rfl rfl rfl (by rw [here]; rfl) outer nofun
      (fun single => (serial i (by rw [at_]; rfl) single).elim) roused.pooled
  | enlists i at_ =>
    refine sound.moved _ rfl rfl rfl (by rw [at_]; rfl) ?_ ?_ (fun single => (serial i (by rw [at_]; rfl) single).elim)
      sound.pooled
    · intro outside
      have outer := sound.outside i outside
      rw [at_] at outer
      cases outer
    · split <;> exact nofun
  | retires i stop at_ =>
    refine sound.moved _ rfl rfl rfl (by rw [at_]; rfl) ?_ ?_ (fun single => (serial i (by rw [at_]; rfl) single).elim)
      sound.pooled
    · intro outside
      have outer := sound.outside i outside
      rw [at_] at outer
      cases outer
    · cases stop with
      | found n =>
        simp only [SpinEnd.left]
        split <;> exact nofun
      | _ => exact nofun
  | quits _ => exact ⟨sound.stores,sound.serves,sound.outside,sound.bare,sound.serial,sound.pooled⟩
  | shuts _ _ => exact ⟨sound.stores,sound.serves,sound.outside,sound.bare,sound.serial,sound.pooled⟩
  | notifies _ _ => exact ⟨sound.stores,sound.serves,sound.outside,sound.bare,sound.serial,sound.pooled⟩
  | rouses _ => exact sound.roused rfl (fun _ => .inr rfl)

theorem fresh_place (c : Scheduler) (i : ThreadId) : (Pool.fresh c).thread i = .top ∨ (Pool.fresh c).thread i = .running [] := by
  simp only [Pool.fresh]
  split
  · exact .inl rfl
  · exact .inr rfl

theorem fresh_sound (c : Scheduler) : (Pool.fresh c).Sound c := by
  refine ⟨⟨fun _ => mpmc_fresh_inv _,fun _ => fresh_inv _⟩,?_,?_,?_,?_,fun _ _ => rfl⟩
  · intro i
    exact ⟨fun _ => .inl rfl,.inl rfl,fun _ => .inl rfl⟩
  · intro i outer
    simp only [Pool.fresh,if_neg (Nat.not_lt_of_le outer)]
    rfl
  · intro w searched
    rcases fresh_place c w with here | here
    · rw [here] at searched
      cases searched
    · rw [here] at searched
      cases searched
  · intro single
    refine ⟨rfl,rfl,?_⟩
    intro i
    simp only [Pool.fresh,Scheduler.single_workers single,Nat.not_lt_zero,if_false]
    rfl

end Macrame

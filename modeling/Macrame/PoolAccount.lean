import Macrame.Lib.Consignment
import Macrame.PoolStacks

namespace Macrame
open Machines Consignments

-- What a thread has taken up and not stored, and what it has taken out and not
-- finished.
def Pool.sends (c : Scheduler) (s : Pool) (i : ThreadId) : Option Nat := ((s.thread i).call c i).bind (s.stores.unsent i)

def PoolAt.holds : PoolAt → List Nat
  | .unspinning (.found n) => [n]
  | .promoting n => [n]
  | at_ => at_.stack.map (fun t => t.task)

def Pool.Accounted (c : Scheduler) (s : Pool) : Prop :=
  Consigned s.submitted (s.sends c) s.stores.entered s.stores.handed (fun i => (s.thread i).holds) s.ran

def PoolAt.gives : PoolAt → Bool
  | .putting _ _ => true
  | .pushing _ _ _ => true
  | _ => false

-- Only a put or a push still has something to store.
theorem PoolAt.silent {at_ : PoolAt} (st : Stores) (free : at_.gives = false) : (at_.call c i).bind (st.unsent i) = none := by
  cases asks : at_.call c i with
  | none => rfl
  | some call =>
    cases PoolAt.call_asks asks with
    | putting tasks n => cases free
    | pushing tasks p n => cases free
    | yielding tasks own p => rfl
    | finding search scan _ fetches => cases call <;> first | rfl | cases fetches

theorem PoolAt.free_gives {at_ : PoolAt} (free : at_.call c i = none) : at_.gives = false := by
  cases at_ <;> first | rfl | cases free

-- A thread moves; the containers are as before, or have been accessed by its call.
theorem sends_moved {s u : Pool} (next : PoolAt) (thread : u.thread = Function.update s.thread i next)
    (others : ∀ j, j ≠ i → ∀ asked, u.stores.unsent j asked = s.stores.unsent j asked) :
    u.sends c = Function.update (s.sends c) i ((next.call c i).bind (u.stores.unsent i)) := by
  funext j
  by_cases same : j = i
  · subst same
    rw [Function.update_self]
    unfold Pool.sends
    rw [thread,Function.update_self]
  · rw [Function.update_of_ne same]
    unfold Pool.sends
    rw [thread,Function.update_of_ne same]
    exact congrArg _ (funext (others j same))

theorem holds_moved {s u : Pool} (next : PoolAt) (thread : u.thread = Function.update s.thread i next) :
    (fun j => (u.thread j).holds) = Function.update (fun j => (s.thread j).holds) i next.holds := by
  funext j
  rw [thread]
  by_cases same : j = i
  · rw [same,Function.update_self,Function.update_self]
  · rw [Function.update_of_ne same,Function.update_of_ne same]

theorem unsent_queues {s t : Stores} (queues : t.queues = s.queues) (i : ThreadId) : t.unsent i = s.unsent i := by
  funext asked
  cases asked <;> simp only [Stores.unsent,queues]

-- A thread moves on with what it holds.
theorem Pool.Accounted.moved {s u : Pool} (accounted : s.Accounted c) (next : PoolAt)
    (thread : u.thread = Function.update s.thread i next) (queues : u.stores.queues = s.stores.queues)
    (entered : u.stores.entered = s.stores.entered) (handed : u.stores.handed = s.stores.handed)
    (submitted : u.submitted = s.submitted) (ran : u.ran = s.ran) (before : (s.thread i).gives = false)
    (after : next.gives = false) (holds : next.holds = (s.thread i).holds) : u.Accounted c := by
  have sends : u.sends c = s.sends c := by
    rw [sends_moved next thread (fun j _ asked => congrFun (unsent_queues queues j) asked),PoolAt.silent _ after]
    refine Function.update_eq_self_iff.mpr ?_
    exact (PoolAt.silent s.stores before).symm
  have same : (fun j => (u.thread j).holds) = fun j => (s.thread j).holds := by
    rw [holds_moved next thread,holds]
    exact Function.update_eq_self ..
  unfold Pool.Accounted
  rw [sends,same,entered,handed,submitted,ran]
  exact accounted

theorem Search.Checked.free (went : Search.Checked quit search next) : next.gives = false ∧ next.holds = [] := by
  cases went with
  | waits idle => cases idle <;> exact ⟨rfl,rfl⟩
  | _ => exact ⟨rfl,rfl⟩

theorem Probe.Stepped.free (went : Probe.Stepped c s probe next) : next.gives = false ∧ next.holds = [] := by
  cases went with
  | filled probe idle => cases idle <;> exact ⟨rfl,rfl⟩
  | _ => exact ⟨rfl,rfl⟩

theorem PoolMove.idle {s : Pool} (move : PoolMove c timed s i at_ next) : next.gives = false ∧ next.holds = at_.holds := by
  cases move with
  | checks search went => exact went.free
  | probes probe went => exact went.free
  | _ => exact ⟨rfl,rfl⟩

theorem signalSubmit_idle (c : Scheduler) (tasks : List RunningTask) :
    (c.signalSubmit tasks).gives = false ∧ (c.signalSubmit tasks).holds = tasks.map (fun t => t.task) := by
  rcases c.signalSubmit_cases tasks with same | same <;> (rw [same]; exact ⟨rfl,rfl⟩)

-- A call that has returned without an entry leaves its thread with what it held.
theorem PoolAt.Returns.without (went : PoolAt.Returns c i none at_ next) : next.gives = false ∧ next.holds = at_.holds := by
  cases went with
  | kept tasks n _ => exact signalSubmit_idle c tasks
  | refused tasks n some => exact absurd rfl some
  | pushed tasks p n => exact signalSubmit_idle c tasks
  | yields tasks own p n some => cases some
  | found search scan n some => cases some
  | _ => exact ⟨rfl,rfl⟩

-- One that has fetched an entry leaves it on top of what its thread held.
theorem PoolAt.Returns.fetched (went : PoolAt.Returns c i (some n) at_ next) (asks : at_.call c i = some asked)
    (fetches : asked.fetches = true) : next.gives = false ∧ next.holds = n :: at_.holds := by
  cases went with
  | refused tasks m _ =>
    cases asks
    cases fetches
  | pushed tasks p m =>
    cases asks
    cases fetches
  | yields tasks own p m same =>
    cases same
    exact ⟨rfl,rfl⟩
  | found search scan m same =>
    cases same
    cases search <;> exact ⟨rfl,rfl⟩
  | _ => contradiction

theorem Stores.Inv.handed_entered {s : Stores} {asked : StoreCall} (inv : s.Inv) (fetches : asked.fetches = true)
    (out : n ∈ s.handed (asked.lane i)) : n ∈ s.entered (asked.lane i) := by
  cases asked with
  | pop p => exact (inv.queues p).popped_pushed out
  | take => exact (inv.deques i).answered_pushed out
  | steal v => exact (inv.deques v).answered_pushed out
  | _ => cases fetches

theorem Stores.Inv.handed_once {s : Stores} {asked : StoreCall} (inv : s.Inv) (fetches : asked.fetches = true)
    (once : (s.entered (asked.lane i)).Nodup) : (s.handed (asked.lane i)).Nodup := by
  cases asked with
  | pop p => exact (inv.queues p).popped_once once
  | take => exact (inv.deques i).answered_once once
  | steal v => exact (inv.deques v).answered_once once
  | _ => cases fetches

-- One access of a call, and the move of its thread if it has returned.
theorem Pool.Accounted.called {s u : Pool} (accounted : s.Accounted c) (sound : s.Sound c) (fails : Bool) (call : StoreCall)
    (next : PoolAt) (asks : (s.thread i).call c i = some call) (ready : s.stores.Ready i call)
    (stores : u.stores = s.stores.access i fails call) (thread : u.thread = Function.update s.thread i next)
    (submitted : u.submitted = s.submitted) (ran : u.ran = s.ran)
    (goes : match s.stores.answer (s.stores.access i fails call) i call with
      | none => next = s.thread i
      | some out => (s.thread i).Returns c i out next) : u.Accounted c := by
  have mine : s.stores.Serves i (some call) := asks ▸ sound.serves i
  have sent : s.sends c i = s.stores.unsent i call := by
    unfold Pool.sends
    rw [asks]
    rfl
  have sends : u.sends c = Function.update (s.sends c) i ((next.call c i).bind (u.stores.unsent i)) :=
    sends_moved next thread (fun j other asked => by rw [stores]; exact Stores.access_unsent other asked)
  have holds := holds_moved next thread
  -- what each outcome comes to, given what the thread goes on with
  have enters : ∀ n, s.stores.unsent i call = some n →
      u.stores.entered = Function.update s.stores.entered (call.lane i) (s.stores.entered (call.lane i)++[n]) →
      u.stores.handed = s.stores.handed → (next.call c i).bind (u.stores.unsent i) = none →
      next.holds = (s.thread i).holds → u.Accounted c := by
    intro n unsent entered handed silent same
    unfold Pool.Accounted
    rw [sends,silent,entered,handed,submitted,ran,holds,same,Function.update_eq_self i (fun j => (s.thread j).holds)]
    exact Consigned.enter accounted (call.lane i) (sent.trans unsent)
  have stays : u.stores.entered = s.stores.entered → u.stores.handed = s.stores.handed →
      (next.call c i).bind (u.stores.unsent i) = s.sends c i → next.holds = (s.thread i).holds → u.Accounted c := by
    intro entered handed silent same
    unfold Pool.Accounted
    rw [sends,silent,entered,handed,submitted,ran,holds,same,Function.update_eq_self i (fun j => (s.thread j).holds),
      Function.update_eq_self]
    exact accounted
  have inv : u.stores.Inv := stores ▸ Stores.access_inv sound.stores ready
  have outcome := Stores.access_outcome fails mine
  have away : ∀ out, s.stores.answer (s.stores.access i fails call) i call = some out →
      (s.stores.access i fails call).Away i := fun out => Stores.access_away mine
  rw [← stores] at outcome away goes
  generalize answer : s.stores.answer u.stores i call = out at outcome away goes
  cases outcome with
  | inside entered handed unsent =>
    subst goes
    refine stays entered handed ?_ rfl
    rw [asks,sent]
    exact unsent
  | storing n unsent entered handed stored =>
    subst goes
    refine enters n unsent entered handed ?_ rfl
    rw [asks]
    exact stored
  | stored n unsent entered handed =>
    obtain ⟨silent,same⟩ := goes.without
    exact enters n unsent entered handed (PoolAt.silent _ silent) same
  | empty unsent entered handed =>
    obtain ⟨silent,same⟩ := goes.without
    exact stays entered handed (by rw [PoolAt.silent _ silent,sent,unsent]) same
  | refused n put entered handed =>
    subst put
    have idle := (away _ rfl).1 .normal
    obtain ⟨tasks,at_⟩ : ∃ tasks, s.thread i = .putting tasks n := by
      generalize s.thread i = at_ at asks
      cases PoolAt.call_asks asks with
      | putting tasks n => exact ⟨tasks,rfl⟩
      | finding search scan _ fetches => cases fetches
    rw [at_] at goes
    cases goes with
    | kept _ _ none => cases none
    | refused _ _ _ =>
      refine stays entered handed ?_ (by rw [at_]; rfl)
      rw [sent]
      simp only [PoolAt.call,Option.bind_some,Stores.unsent,idle]
      rfl
  | handed n fetches entered handed =>
    obtain ⟨silent,more⟩ := goes.fetched asks fetches
    have nothing : s.sends c i = none := by
      rw [sent]
      cases call <;> first | rfl | cases fetches
    have out : u.stores.handed (call.lane i) = s.stores.handed (call.lane i)++[n] := by rw [handed,Function.update_self]
    have inside : n ∈ s.stores.entered (call.lane i) := by
      rw [← entered]
      exact inv.handed_entered fetches (by rw [out]; exact List.mem_append_right _ (List.mem_singleton_self n))
    have first : n ∉ s.stores.handed (call.lane i) := by
      have once := inv.handed_once (i := i) fetches (by rw [entered]; exact accounted.single _)
      rw [out] at once
      exact fun prior => (List.nodup_append.mp once).2.2 n prior n (List.mem_singleton_self n) rfl
    unfold Pool.Accounted
    rw [sends,PoolAt.silent _ silent,← nothing,Function.update_eq_self,entered,handed,submitted,ran,holds,more]
    exact Consigned.hand accounted i inside first

-- A submit that takes up an item and has it still to store.
theorem Pool.Accounted.issued {s u : Pool} (accounted : s.Accounted c) (next : PoolAt)
    (thread : u.thread = Function.update s.thread i next) (stores : u.stores = s.stores)
    (submitted : u.submitted = s.submitted+1) (ran : u.ran = s.ran) (before : (s.thread i).gives = false)
    (sending : (next.call c i).bind (s.stores.unsent i) = some s.submitted) (holds : next.holds = (s.thread i).holds) :
    u.Accounted c := by
  have sends : u.sends c = Function.update (s.sends c) i (some s.submitted) := by
    rw [sends_moved next thread (fun _ _ _ => by rw [stores]),stores,sending]
  unfold Pool.Accounted
  rw [sends,stores,submitted,ran,holds_moved next thread,holds,Function.update_eq_self i (fun j => (s.thread j).holds)]
  exact Consigned.issue accounted (PoolAt.silent s.stores before)

-- One that stores it at once, on its thread's trampoline.
theorem Pool.Accounted.appended {s u : Pool} (accounted : s.Accounted c) (next : PoolAt) (t : Trampoline)
    (thread : u.thread = Function.update s.thread i next)
    (stores : u.stores = {s.stores with serial := Function.update s.stores.serial i t})
    (pushed : t.pushed = (s.stores.serial i).pushed++[s.submitted]) (popped : t.popped = (s.stores.serial i).popped)
    (submitted : u.submitted = s.submitted+1) (ran : u.ran = s.ran) (before : (s.thread i).gives = false)
    (after : next.gives = false) (holds : next.holds = (s.thread i).holds) : u.Accounted c := by
  have silent : s.sends c i = none := PoolAt.silent s.stores before
  have entered : u.stores.entered =
      Function.update s.stores.entered (.serial i) (s.stores.entered (.serial i)++[s.submitted]) := by
    rw [stores]
    refine Stores.along_serial.trans ?_
    rw [pushed]
    rfl
  have handed : u.stores.handed = s.stores.handed := by
    rw [stores]
    refine Stores.along_serial.trans ?_
    rw [popped]
    exact Function.update_eq_self ..
  have sends : u.sends c = Function.update (s.sends c) i none := by
    rw [sends_moved next thread (fun j _ asked => congrFun (unsent_queues (by rw [stores]) j) asked),PoolAt.silent _ after]
  have taken := (Consigned.issue accounted silent).enter (.serial i) (Function.update_self ..)
  rw [Function.update_idem] at taken
  unfold Pool.Accounted
  rw [sends,entered,handed,submitted,ran,holds_moved next thread,holds,
    Function.update_eq_self i (fun j => (s.thread j).holds)]
  exact taken

-- The trampoline hands its first pending item to the loop.
theorem Pool.Accounted.drawn {s u : Pool} (accounted : s.Accounted c) (next : PoolAt) (t : Trampoline)
    (kept : (s.stores.serial i).Kept) (found : (s.stores.serial i).pending[(s.stores.serial i).head]? = some n)
    (thread : u.thread = Function.update s.thread i next)
    (stores : u.stores = {s.stores with serial := Function.update s.stores.serial i t})
    (pushed : t.pushed = (s.stores.serial i).pushed) (popped : t.popped = (s.stores.serial i).popped++[n])
    (submitted : u.submitted = s.submitted) (ran : u.ran = s.ran) (before : (s.thread i).gives = false)
    (after : next.gives = false) (holds : next.holds = n :: (s.thread i).holds) : u.Accounted c := by
  have entered : u.stores.entered = s.stores.entered := by
    rw [stores]
    refine Stores.along_serial.trans ?_
    rw [pushed]
    exact Function.update_eq_self ..
  have handed : u.stores.handed = Function.update s.stores.handed (.serial i) (s.stores.handed (.serial i)++[n]) := by
    rw [stores]
    refine Stores.along_serial.trans ?_
    rw [popped]
    rfl
  have sends : u.sends c = s.sends c := by
    rw [sends_moved next thread (fun j _ asked => congrFun (unsent_queues (by rw [stores]) j) asked),PoolAt.silent _ after]
    refine Function.update_eq_self_iff.mpr ?_
    exact (PoolAt.silent s.stores before).symm
  -- what is pending has come in after all that has been drawn
  have pending : n ∈ (s.stores.serial i).pending.drop (s.stores.serial i).head := by
    obtain ⟨inside,value⟩ := List.getElem?_eq_some_iff.mp found
    rw [List.drop_eq_getElem_cons inside,value]
    exact List.mem_cons_self
  have once := accounted.single (.serial i)
  change (s.stores.serial i).pushed.Nodup at once
  rw [kept.2] at once
  have inside : n ∈ s.stores.entered (.serial i) := by
    change n ∈ (s.stores.serial i).pushed
    rw [kept.2]
    exact List.mem_append_right _ pending
  have first : n ∉ s.stores.handed (.serial i) := fun prior => (List.nodup_append.mp once).2.2 n prior n pending rfl
  unfold Pool.Accounted
  rw [sends,entered,handed,submitted,ran,holds_moved next thread,holds]
  exact Consigned.hand accounted i inside first

-- The innermost body returns.
theorem Pool.Accounted.returned {s u : Pool} (accounted : s.Accounted c) (next : PoolAt)
    (thread : u.thread = Function.update s.thread i next) (stores : u.stores = s.stores)
    (submitted : u.submitted = s.submitted) (ran : u.ran = s.ran++[n]) (before : (s.thread i).gives = false)
    (after : next.gives = false) (holds : (s.thread i).holds = n :: next.holds) : u.Accounted c := by
  have sends : u.sends c = s.sends c := by
    rw [sends_moved next thread (fun _ _ _ => by rw [stores]),PoolAt.silent _ after]
    refine Function.update_eq_self_iff.mpr ?_
    exact (PoolAt.silent s.stores before).symm
  unfold Pool.Accounted
  rw [sends,stores,submitted,ran,holds_moved next thread]
  exact Consigned.finish accounted holds

theorem PoolAt.roused_holds (at_ : PoolAt) : at_.roused.holds = at_.holds := by
  cases at_ <;> rfl

theorem Pool.Accounted.roused {s u : Pool} (accounted : s.Accounted c) (stores : u.stores = s.stores)
    (submitted : u.submitted = s.submitted) (ran : u.ran = s.ran)
    (thread : ∀ j, u.thread j = s.thread j ∨ u.thread j = (s.thread j).roused) : u.Accounted c := by
  have sends : u.sends c = s.sends c := by
    funext j
    unfold Pool.sends
    rw [stores,roused_read (PoolAt.call c j) (thread j) PoolAt.roused_call]
  have holds : (fun j => (u.thread j).holds) = fun j => (s.thread j).holds := by
    funext j
    exact roused_read PoolAt.holds (thread j) PoolAt.roused_holds
  unfold Pool.Accounted
  rw [sends,holds,stores,submitted,ran]
  exact accounted

theorem pool_accounted_step {s : Pool} (sound : s.Sound c) (frames : s.Stacked c) (accounted : s.Accounted c)
    (step : PoolStep c timed s u) : u.Accounted c := by
  cases step with
  | stays => exact accounted
  | moves i next move =>
    exact accounted.moved next rfl rfl rfl rfl rfl rfl (PoolAt.free_gives move.free) move.idle.1 move.idle.2
  | submits i tasks next pooled at_ where_ =>
    have away : s.stores.Away i := by
      have serves := sound.serves i
      rw [at_] at serves
      exact serves.away
    refine accounted.issued next rfl rfl rfl rfl (by rw [at_]; rfl) ?_ ?_
    · rcases where_ with ⟨-,rfl⟩ | ⟨p,rfl⟩
      · rfl
      · simp only [PoolAt.call,Option.bind_some,Stores.unsent,away.1 p]
        rfl
    · rw [at_]
      rcases where_ with ⟨-,rfl⟩ | ⟨p,rfl⟩ <;> rfl
  | appends i tasks single at_ draining =>
    exact accounted.appended (i := i) (s.thread i) _ (Function.update_eq_self ..).symm rfl rfl rfl rfl rfl
      (by rw [at_]; rfl) (by rw [at_]; rfl) rfl
  | starts i tasks single at_ draining =>
    exact accounted.appended (i := i) (.looping tasks true) _ rfl rfl rfl rfl rfl rfl (by rw [at_]; rfl) rfl
      (by rw [at_]; rfl)
  | draws i tasks started n at_ found =>
    have single : c.singleThreaded = true := by
      cases which : c.singleThreaded with
      | true => rfl
      | false =>
        rw [sound.pooled which i] at found
        cases found
    exact accounted.drawn (i := i) (.running (⟨n,.serial started⟩ :: tasks)) _ (frames.tramp single i).kept found rfl rfl
      rfl rfl rfl rfl (by rw [at_]; rfl) rfl (by rw [at_]; rfl)
  | ends i tasks at_ drawn =>
    have entered : ((s.withSerial i { s.stores.serial i with pending := [], head := 0, draining := false }).stores).entered =
        s.stores.entered := Stores.along_serial.trans (Function.update_eq_self ..)
    have handed : ((s.withSerial i { s.stores.serial i with pending := [], head := 0, draining := false }).stores).handed =
        s.stores.handed := Stores.along_serial.trans (Function.update_eq_self ..)
    exact accounted.moved (.running tasks) rfl rfl entered handed rfl rfl (by rw [at_]; rfl) rfl (by rw [at_]; rfl)
  | finishes i t rest at_ =>
    have prior := (frames.stacked i).rooted
    rw [at_] at prior
    refine accounted.returned _ rfl rfl rfl rfl (by rw [at_]; rfl) ?_ ?_
    · cases t.dispatch <;> rfl
    · rw [at_]
      cases how : t.dispatch with
      | worker =>
        have last : rest = [] := prior.1.mp (by rw [how]; rfl)
        rw [last]
        rfl
      | _ => rfl
  | inside i fails call asks ready answer =>
    refine accounted.called sound fails call (s.thread i) asks ready rfl (Function.update_eq_self ..).symm rfl rfl ?_
    rw [answer]
  | back i fails pick call out asks ready answer =>
    refine accounted.called sound fails call _ asks ready rfl rfl rfl rfl ?_
    rw [answer]
    exact PoolAt.answered_returns pick (s.aging i) out asks
  | advances i tasks at_ =>
    refine accounted.moved _ rfl rfl rfl rfl rfl rfl (by rw [at_]; rfl) ?_ ?_
    · split <;> rfl
    · rw [at_]
      split <;> rfl
  | promotes i n at_ =>
    exact accounted.moved _ rfl rfl rfl rfl rfl rfl (by rw [at_]; rfl) rfl (by rw [at_]; rfl)
  | wakes i tasks pick at_ _ =>
    have roused : (s.rouse pick).Accounted c := accounted.roused rfl rfl rfl (rouse_thread s pick)
    have here := rouse_waking pick at_
    exact roused.moved _ rfl rfl rfl rfl rfl rfl (by rw [here]; rfl) rfl (by rw [here]; rfl)
  | enlists i at_ =>
    refine accounted.moved _ rfl rfl rfl rfl rfl rfl (by rw [at_]; rfl) ?_ ?_
    · split <;> rfl
    · rw [at_]
      split <;> rfl
  | retires i stop at_ =>
    refine accounted.moved _ rfl rfl rfl rfl rfl rfl (by rw [at_]; rfl) ?_ ?_
    · cases stop with
      | found n =>
        simp only [SpinEnd.left]
        split <;> rfl
      | _ => rfl
    · rw [at_]
      cases stop with
      | found n =>
        simp only [SpinEnd.left]
        split <;> rfl
      | _ => rfl
  | quits _ => exact accounted
  | shuts _ _ => exact accounted
  | notifies _ _ => exact accounted
  | rouses _ => exact accounted.roused rfl rfl rfl (fun _ => .inr rfl)

theorem fresh_accounted (c : Scheduler) : (Pool.fresh c).Accounted c := by
  have sends : (Pool.fresh c).sends c = fun _ => none := by
    funext i
    unfold Pool.sends
    simp only [Pool.fresh]
    split <;> rfl
  have holds : (fun i => ((Pool.fresh c).thread i).holds) = fun _ => [] := by
    funext i
    simp only [Pool.fresh]
    split <;> rfl
  have entered : Stores.fresh.entered = fun _ => [] := by
    funext lane
    cases lane <;> rfl
  have handed : Stores.fresh.handed = fun _ => [] := by
    funext lane
    cases lane <;> rfl
  unfold Pool.Accounted
  rw [sends,holds]
  change Consigned 0 _ Stores.fresh.entered Stores.fresh.handed _ []
  rw [entered,handed]
  exact consigned_empty

end Macrame

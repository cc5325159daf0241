import Macrame.PoolLaws

namespace Macrame
open Machines

-- Dispatched from a thread's own code and not from inside another body.
def Dispatch.bottom : Dispatch → Bool
  | .worker => true
  | .yield => false
  | .serial started => started

def Rooted : List RunningTask → Prop
  | [] => True
  | t :: rest => (t.dispatch.bottom = true ↔ rest = []) ∧ Rooted rest

def PoolAt.stack : PoolAt → List RunningTask
  | .running tasks => tasks
  | .putting tasks _ => tasks
  | .pushing tasks _ _ => tasks
  | .advancing tasks => tasks
  | .deciding tasks => tasks
  | .waking tasks => tasks
  | .yielding tasks _ _ => tasks
  | .looping tasks _ => tasks
  | _ => []

def PoolAt.inBody : PoolAt → Bool
  | .running _ => true
  | .putting _ _ => true
  | .pushing _ _ _ => true
  | .advancing _ => true
  | .deciding _ => true
  | .waking _ => true
  | .yielding _ _ _ => true
  | .looping _ _ => true
  | _ => false

-- An outside thread between its calls; it may be looking for serial work.
def PoolAt.resting : PoolAt → Bool
  | .running [] => true
  | .looping [] false => true
  | _ => false

structure PoolAt.Stacked (c : Scheduler) (i : ThreadId) (at_ : PoolAt) : Prop where
  rooted : Rooted at_.stack
  inner : at_.inBody = true → i < c.workers → at_.stack ≠ []
  pooled : c.singleThreaded = false → ∀ t ∈ at_.stack, t.isSerial = false
  outermost : ∀ tasks, at_ = .looping tasks true → tasks = [] ∧ c.singleThreaded = true

-- What is pending is what has come in and has not been drawn.
def Trampoline.Kept (t : Trampoline) : Prop :=
  t.head ≤ t.pending.length ∧ t.pushed = t.popped++t.pending.drop t.head

structure Trampoline.Holds (t : Trampoline) (resting : Bool) : Prop where
  kept : t.Kept
  drains : t.draining = !resting
  spent : t.draining = false → t.pending = []

structure Pool.Stacked (c : Scheduler) (s : Pool) : Prop where
  stacked : ∀ i, (s.thread i).Stacked c i
  tramp : c.singleThreaded = true → ∀ i, (s.stores.serial i).Holds (s.thread i).resting

-- A place without a body on it.
theorem PoolAt.Stacked.bare {at_ : PoolAt} (none : at_.inBody = false) : at_.Stacked c i := by
  have empty : at_.stack = [] := by cases at_ <;> first | rfl | cases none
  refine ⟨by rw [empty]; trivial,?_,?_,?_⟩
  · intro body
    rw [none] at body
    cases body
  · intro _ t member
    rw [empty] at member
    cases member
  · rintro tasks rfl
    cases none

-- Another place under the same bodies.
theorem PoolAt.Stacked.same {at_ next : PoolAt} (prior : at_.Stacked c i) (body : at_.inBody = true)
    (stack : next.stack = at_.stack) (unstarted : ∀ tasks, next ≠ .looping tasks true) : next.Stacked c i := by
  refine ⟨stack ▸ prior.rooted,?_,stack ▸ prior.pooled,?_⟩
  · intro _ worker
    rw [stack]
    exact prior.inner body worker
  · intro tasks equal
    exact absurd equal (unstarted tasks)

theorem PoolAt.Stacked.outermost_worker (n : Nat) : (PoolAt.running [⟨n,.worker⟩]).Stacked c i := by
  refine ⟨⟨⟨fun _ => rfl,fun _ => rfl⟩,trivial⟩,fun _ _ => nofun,?_,nofun⟩
  intro _ t member
  cases List.mem_singleton.mp member
  rfl

theorem Scheduler.not_both {c : Scheduler} (single : c.singleThreaded = true) : ¬i < c.workers := by
  rw [c.single_workers single]
  exact Nat.not_lt_zero i

theorem Search.Checked.inBody (went : Search.Checked quit search next) : next.inBody = false := by
  cases went with
  | waits idle => cases idle <;> rfl
  | _ => rfl

theorem Probe.Stepped.inBody (went : Probe.Stepped c s probe next) : next.inBody = false := by
  cases went with
  | filled probe idle => cases idle <;> rfl
  | _ => rfl

theorem PoolMove.stacked {s : Pool} (move : PoolMove c timed s i at_ next) (prior : at_.Stacked c i) : next.Stacked c i := by
  cases move with
  | yields tasks own _ => exact prior.same rfl rfl nofun
  | drains tasks => exact prior.same rfl rfl nofun
  | drained tasks => exact prior.same rfl rfl nofun
  | wakes tasks _ => exact prior.same rfl rfl nofun
  | skips tasks _ => exact prior.same rfl rfl nofun
  | checks search went => exact .bare went.inBody
  | probes probe went => exact .bare went.inBody
  | _ => exact .bare rfl

theorem signalSubmit_stacked {at_ : PoolAt} (prior : at_.Stacked c i) (body : at_.inBody = true)
    (stack : at_.stack = tasks) : (c.signalSubmit tasks).Stacked c i := by
  subst stack
  rcases c.signalSubmit_cases at_.stack with same | same <;> (rw [same]; exact prior.same body rfl nofun)

theorem PoolAt.Returns.stacked (went : PoolAt.Returns c i out at_ next) (prior : at_.Stacked c i)
    (worker : at_.outside = false → i < c.workers) : next.Stacked c i := by
  cases went with
  | kept tasks n _ => exact signalSubmit_stacked prior rfl rfl
  | refused tasks n _ => exact prior.same rfl rfl nofun
  | pushed tasks p n => exact signalSubmit_stacked prior rfl rfl
  | yields tasks own p n _ =>
    have below : tasks ≠ [] := prior.inner rfl (worker rfl)
    refine ⟨⟨⟨nofun,fun none => absurd none below⟩,prior.rooted⟩,fun _ _ => nofun,?_,nofun⟩
    intro pooled t member
    rcases List.mem_cons.mp member with rfl | lower
    · rfl
    · exact prior.pooled pooled t lower
  | lowers tasks own p _ => exact prior.same rfl rfl nofun
  | resumes tasks own p _ => exact prior.same rfl rfl nofun
  | scans search scan next pick a _ _ => exact .bare rfl
  | found search scan n _ =>
    cases search with
    | handoff _ => exact .bare rfl
    | _ => exact .outermost_worker n
  | checks search _ => exact .bare rfl

theorem PoolAt.Stacked.roused_stacked {at_ : PoolAt} (prior : at_.Stacked c i) : at_.roused.Stacked c i := by
  cases at_ with
  | blocked key => exact .bare rfl
  | _ => exact prior

theorem PoolAt.roused_resting (at_ : PoolAt) : at_.roused.resting = at_.resting := by
  cases at_ <;> rfl

-- One thread moves, and of the trampolines at most its own changes.
theorem Pool.Stacked.moved {s u : Pool} (frames : s.Stacked c) (next : PoolAt)
    (thread : u.thread = Function.update s.thread i next) (others : ∀ j, j ≠ i → u.stores.serial j = s.stores.serial j)
    (stacked : next.Stacked c i) (tramp : c.singleThreaded = true → (u.stores.serial i).Holds next.resting) : u.Stacked c := by
  refine ⟨?_,?_⟩
  · intro j
    rw [thread]
    by_cases same : j = i
    · subst same
      rw [Function.update_self]
      exact stacked
    · rw [Function.update_of_ne same]
      exact frames.stacked j
  · intro single j
    rw [thread]
    by_cases same : j = i
    · subst same
      rw [Function.update_self]
      exact tramp single
    · rw [Function.update_of_ne same,others j same]
      exact frames.tramp single j

theorem PoolMove.resting {s : Pool} (move : PoolMove c timed s i at_ next) (single : c.singleThreaded = true)
    (only : at_.serialOnly = true) : next.resting = at_.resting := by
  cases move with
  | yields tasks own worker => exact absurd worker (c.not_both single)
  | drains tasks => cases tasks <;> rfl
  | drained tasks => cases tasks <;> rfl
  | _ => cases only

theorem Trampoline.Kept.push {t : Trampoline} (kept : t.Kept) (n : Nat) : (t.push n).Kept := by
  obtain ⟨within,same⟩ := kept
  refine ⟨?_,?_⟩
  · change t.head ≤ (t.pending++[n]).length
    rw [List.length_append]
    omega
  · change t.pushed++[n] = t.popped++(t.pending++[n]).drop t.head
    rw [same,List.drop_append_of_le_length within,List.append_assoc]

theorem Trampoline.Kept.draw {t : Trampoline} (kept : t.Kept) (found : t.pending[t.head]? = some n) :
    { t with head := t.head+1, popped := t.popped++[n] }.Kept := by
  obtain ⟨within,same⟩ := kept
  obtain ⟨inside,value⟩ := List.getElem?_eq_some_iff.mp found
  refine ⟨inside,?_⟩
  change t.pushed = t.popped++[n]++t.pending.drop (t.head+1)
  rw [same,List.drop_eq_getElem_cons inside,value,List.append_assoc]
  rfl

theorem Trampoline.Kept.clear {t : Trampoline} (kept : t.Kept) (drawn : t.pending[t.head]? = none) :
    t.pushed = t.popped := by
  rw [kept.2,List.drop_eq_nil_of_le (List.getElem?_eq_none_iff.mp drawn),List.append_nil]

theorem Trampoline.Holds.busy {t : Trampoline} (holds : t.Holds resting) (draining : t.draining = true) : resting = false := by
  have drains := holds.drains
  rw [draining] at drains
  cases resting <;> first | rfl | cases drains

theorem Trampoline.Holds.quiet {t : Trampoline} (holds : t.Holds resting) (draining : t.draining = false) : resting = true := by
  have drains := holds.drains
  rw [draining] at drains
  cases resting <;> first | rfl | cases drains

theorem PoolAt.resting_running {tasks : List RunningTask} (rests : (PoolAt.running tasks).resting = true) : tasks = [] := by
  cases tasks <;> first | rfl | cases rests

theorem other_serial (s : Pool) (t : Trampoline) (other : j ≠ i) : (s.withSerial i t).stores.serial j = s.stores.serial j :=
  Function.update_of_ne other ..

theorem own_serial (s : Pool) (i : ThreadId) (t : Trampoline) : (s.withSerial i t).stores.serial i = t :=
  Function.update_self ..

theorem pool_stacked_step {s : Pool} (sound : s.Sound c) (frames : s.Stacked c) (step : PoolStep c timed s u) :
    u.Stacked c := by
  -- only the worker-less mode has trampolines, and there all but a few steps are out of place
  have place : ∀ i, (s.thread i).serialOnly = false → c.singleThreaded = true → False := by
    intro i other single
    rw [(sound.serial single).2.2 i] at other
    cases other
  have plain : ∀ (u : Pool) i next, u.thread = Function.update s.thread i next → u.stores.serial = s.stores.serial →
      next.Stacked c i → (s.thread i).serialOnly = false → u.Stacked c := by
    intro u i next thread serial stacked other
    exact frames.moved next thread (fun j _ => congrFun serial j) stacked (fun single => (place i other single).elim)
  cases step with
  | stays => exact frames
  | moves i next move =>
    refine frames.moved next rfl (fun _ _ => rfl) (move.stacked (frames.stacked i)) ?_
    intro single
    rw [move.resting single ((sound.serial single).2.2 i)]
    exact frames.tramp single i
  | submits i tasks next pooled at_ where_ =>
    refine frames.moved next rfl (fun _ _ => rfl) ?_ (fun single => by (rw [pooled] at single; cases single))
    have prior := frames.stacked i
    rw [at_] at prior
    rcases where_ with ⟨-,rfl⟩ | ⟨p,rfl⟩ <;> exact prior.same rfl rfl (by rintro tasks ⟨⟩)
  | appends i tasks single at_ draining =>
    have holds := frames.tramp single i
    refine frames.moved (i := i) (s.thread i) (Function.update_eq_self ..).symm (fun j other => other_serial _ _ other)
      (frames.stacked i) ?_
    intro _
    rw [own_serial]
    exact ⟨holds.kept.push _,holds.drains,fun off => by (rw [show (Trampoline.push _ _).draining = _ from draining] at off; cases off)⟩
  | starts i tasks single at_ draining =>
    have holds := frames.tramp single i
    have rests := holds.quiet draining
    rw [at_] at rests
    have empty := PoolAt.resting_running rests
    subst empty
    refine frames.moved (i := i) _ rfl (fun j other => other_serial _ _ other) ?_ ?_
    · refine ⟨trivial,fun _ worker => absurd worker (c.not_both single),?_,?_⟩
      · intro _ t member
        cases member
      · intro tasks equal
        cases equal
        exact ⟨rfl,single⟩
    · intro _
      change Trampoline.Holds ((Pool.withSerial _ i _).stores.serial i) _
      rw [own_serial]
      exact ⟨holds.kept.push _,rfl,(fun empty => by cases empty)⟩
  | draws i tasks started n at_ found =>
    have single : c.singleThreaded = true := by
      cases which : c.singleThreaded with
      | true => rfl
      | false =>
        rw [sound.pooled which i] at found
        cases found
    have holds := frames.tramp single i
    have draining : (s.stores.serial i).draining = true := by
      cases drains : (s.stores.serial i).draining with
      | true => rfl
      | false =>
        rw [holds.spent drains] at found
        cases found
    have busy := holds.busy draining
    have prior := frames.stacked i
    rw [at_] at busy prior
    refine frames.moved (i := i) _ rfl (fun j other => other_serial _ _ other) ?_ ?_
    · refine ⟨⟨?_,prior.rooted⟩,fun _ worker => absurd worker (c.not_both single),?_,(by rintro tasks ⟨⟩)⟩
      · change started = true ↔ tasks = []
        constructor
        · intro yes
          subst yes
          exact (prior.outermost tasks rfl).1
        · intro empty
          subst empty
          cases started with
          | true => rfl
          | false => cases busy
      · intro pooled
        rw [single] at pooled
        cases pooled
    · intro _
      change Trampoline.Holds ((Pool.withSerial _ i _).stores.serial i) _
      rw [own_serial]
      exact ⟨holds.kept.draw found,draining,fun off => by (rw [show (Trampoline.draining _) = _ from draining] at off; cases off)⟩
  | ends i tasks at_ drawn =>
    have prior := frames.stacked i
    rw [at_] at prior
    obtain ⟨empty,single⟩ := prior.outermost tasks rfl
    subst empty
    have holds := frames.tramp single i
    refine frames.moved (i := i) _ rfl (fun j other => other_serial _ _ other) ?_ ?_
    · exact ⟨trivial,fun _ worker => absurd worker (c.not_both single),fun _ t member => (by cases member),(by rintro tasks ⟨⟩)⟩
    · intro _
      change Trampoline.Holds ((Pool.withSerial _ i _).stores.serial i) _
      rw [own_serial]
      refine ⟨⟨Nat.le_refl 0,?_⟩,rfl,fun _ => rfl⟩
      change (s.stores.serial i).pushed = (s.stores.serial i).popped++[]
      rw [holds.kept.clear drawn,List.append_nil]
  | finishes i t rest at_ =>
    have prior := frames.stacked i
    rw [at_] at prior
    obtain ⟨root,rooted⟩ := prior.rooted
    have pooled : c.singleThreaded = false → ∀ t ∈ rest, t.isSerial = false :=
      fun off t member => prior.pooled off t (List.mem_cons_of_mem _ member)
    have below : t.dispatch.bottom = false → rest ≠ [] := by
      intro upper empty
      rw [root.mpr empty] at upper
      cases upper
    have serial : ∀ started, t.dispatch = .serial started → c.singleThreaded = true := by
      intro started how
      cases which : c.singleThreaded with
      | true => rfl
      | false =>
        have plain := prior.pooled which t List.mem_cons_self
        simp only [RunningTask.isSerial,how] at plain
        cases plain
    refine frames.moved (i := i) _ rfl (fun _ _ => rfl) ?_ ?_
    · cases how : t.dispatch with
      | worker => exact .bare rfl
      | yield => exact ⟨rooted,fun _ _ => below (by rw [how]; rfl),pooled,(by rintro tasks ⟨⟩)⟩
      | serial started =>
        have single := serial started how
        refine ⟨rooted,fun _ worker => absurd worker (c.not_both single),pooled,?_⟩
        intro tasks equal
        cases equal
        exact ⟨root.mp (by rw [how]; rfl),single⟩
    · intro single
      have outer := sound.outside i (Nat.le_of_not_lt (c.not_both single))
      rw [at_] at outer
      simp only [PoolAt.outside,List.all_cons,Bool.and_eq_true] at outer
      have holds := frames.tramp single i
      rw [at_] at holds
      cases how : t.dispatch with
      | serial started =>
        have busy : (t.dispatch.back rest).resting = false := by
          rw [how]
          cases started with
          | true => cases rest <;> rfl
          | false =>
            cases rest with
            | nil => exact absurd rfl (below (by rw [how]; rfl))
            | cons _ _ => rfl
        rw [how] at busy
        rw [busy]
        exact holds
      | _ =>
        have first := outer.1
        simp only [RunningTask.isSerial,how] at first
        cases first
  | inside i fails call asks _ _ =>
    refine ⟨frames.stacked,?_⟩
    intro single j
    change ((s.stores.access i fails call).serial j).Holds _
    rw [Stores.access_serial]
    exact frames.tramp single j
  | back i fails pick call out asks _ _ =>
    have went := PoolAt.answered_returns pick (s.aging i) out asks
    refine plain _ i _ rfl (Stores.access_serial _) (went.stacked (frames.stacked i) sound.worker) ?_
    cases at_ : s.thread i <;> first | rfl | (rw [at_] at asks; cases asks)
  | advances i tasks at_ =>
    have prior := frames.stacked i
    rw [at_] at prior
    refine plain _ i _ rfl rfl ?_ (by rw [at_]; rfl)
    split
    · exact prior.same rfl rfl (by rintro tasks ⟨⟩)
    · exact prior.same rfl rfl (by rintro tasks ⟨⟩)
  | promotes i n at_ =>
    refine plain _ i _ rfl rfl ?_ (by rw [at_]; rfl)
    exact (PoolAt.Stacked.outermost_worker n).same rfl rfl (by rintro tasks ⟨⟩)
  | wakes i tasks pick at_ _ =>
    have prior := frames.stacked i
    rw [at_] at prior
    have roused : (s.rouse pick).Stacked c :=
      frames.moved _ rfl (fun _ _ => rfl) (frames.stacked pick).roused_stacked
        (fun single => by rw [PoolAt.roused_resting]; exact frames.tramp single pick)
    refine roused.moved _ rfl (fun _ _ => rfl) (prior.same rfl rfl (by rintro tasks ⟨⟩)) ?_
    exact fun single => (place i (by rw [at_]; rfl) single).elim
  | enlists i at_ =>
    refine plain _ i _ rfl rfl (.bare ?_) (by rw [at_]; rfl)
    split <;> rfl
  | retires i stop at_ =>
    refine plain _ i _ rfl rfl ?_ (by rw [at_]; rfl)
    cases stop with
    | found n =>
      simp only [SpinEnd.left]
      split
      · exact .bare rfl
      · exact .outermost_worker n
    | _ => exact .bare rfl
  | quits _ => exact ⟨frames.stacked,frames.tramp⟩
  | shuts _ _ => exact ⟨frames.stacked,frames.tramp⟩
  | notifies _ _ => exact ⟨frames.stacked,frames.tramp⟩
  | rouses _ =>
    refine ⟨fun i => (frames.stacked i).roused_stacked,?_⟩
    intro single i
    rw [PoolAt.roused_resting]
    exact frames.tramp single i

theorem fresh_stacked (c : Scheduler) : (Pool.fresh c).Stacked c := by
  refine ⟨?_,?_⟩
  · intro i
    simp only [Pool.fresh]
    split
    · exact .bare rfl
    · exact ⟨trivial,fun _ worker => absurd worker ‹_›,fun _ t member => (by cases member),(by rintro tasks ⟨⟩)⟩
  · intro single i
    simp only [Pool.fresh,if_neg (c.not_both single)]
    exact ⟨⟨Nat.le_refl 0,rfl⟩,rfl,fun _ => rfl⟩

end Macrame

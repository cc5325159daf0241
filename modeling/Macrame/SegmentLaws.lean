import Macrame.Segments

namespace Macrame.Segments
open Machines

-- What popping a frame makes of the thread's ambient state. A segment still
-- inside its bracket restores what its promise has saved.
def Frame.restore (promise : BlockId → Promise) (a : Ambient) : Frame → Ambient
  | .body prev => { a with task := prev }
  | .accessScope prev => { a with access := prev }
  | .relaxedScope prev => { a with relaxed := prev }
  | .drain => a
  | .eager c stage _ => if stage = .inside then a.exit (promise c) else a
  | .segment c stage active prev _ =>
    let out := if stage = .inside then a.exit (promise c) else a
    if active then { out with access := prev } else out
  | .nested saved _ _ => saved

def Frame.Holds (promise : BlockId → Promise) (a : Ambient) : Frame → Prop
  | .eager c stage before => Frame.restore promise a (.eager c stage before) = before ∧
      a.access = (promise c).accessCtx ∧ (stage = .inside → a.task = some c ∧ a.scope = some c)
  | .segment c stage active prev before => Frame.restore promise a (.segment c stage active prev before) = before ∧
      active = (promise c).accessCtx.isSome ∧ (active = true → a.access = (promise c).accessCtx) ∧
        (stage = .inside → a.task = some c ∧ a.scope = some c)
  | _ => True

-- Every frame of a stack holds at its own level: the ambient state that is left
-- when everything above it has been popped.
def Held (promise : BlockId → Promise) (a : Ambient) : List Frame → Prop
  | [] => True
  | f :: rest => f.Holds promise a ∧ Held promise (f.restore promise a) rest

def Frame.standsAt (c : BlockId) (stage : Stage) (f : Frame) : Bool := f.coroutine == some (c,stage)

def Frame.parked (c : BlockId) : Frame → Nat
  | .nested _ pending _ => pending.count c
  | _ => 0

def standing (stage : Stage) (stack : List Frame) (c : BlockId) : Nat := stack.countP (Frame.standsAt c stage)

def queued (pending : List BlockId) (stack : List Frame) (c : BlockId) : Nat :=
  pending.count c+(stack.map (Frame.parked c)).sum

-- The two exchanges on `state_`: before the tail the callback has left a one or
-- is still to come; after it the callback alone decides.
def Promise.Hands (p : Promise) : Prop :=
  match p.phase with
  | .leaving _ => p.handshake = 0 ∧ p.attached = true ∨ p.handshake = 1 ∧ p.attached = false
  | .suspended => p.handshake = 2 ∧ p.attached = true
  | _ => p.attached = false

-- A coroutine is at one place: `count` finds it once where its phase says.
def Located (phase : BlockId → Phase) (at_ : Nat → Phase) (count : Nat → BlockId → Nat) : Prop :=
  ∀ i c, count i c = if phase c = at_ i then 1 else 0

structure State.Inv (s : State) : Prop where
  held : ∀ i, Held s.promise (s.ambient i) (s.stack i)
  running : Located (fun c => (s.promise c).phase) .running (fun i => standing .inside (s.stack i))
  leaving : Located (fun c => (s.promise c).phase) .leaving (fun i => standing .leaving (s.stack i))
  waiting : Located (fun c => (s.promise c).phase) .queued (fun i => queued (s.pending i) (s.stack i))
  hands : ∀ c, (s.promise c).Hands
  known : ∀ i f c stage, f ∈ s.stack i → f.coroutine = some (c,stage) → (s.promise c).phase ≠ .unborn

theorem Located.moved {phase phase' : BlockId → Phase} {at_ : Nat → Phase} {count count' : Nat → BlockId → Nat}
    (located : Located phase at_ count) (threads : ∀ j d, j ≠ i → count' j d = count j d)
    (phases : ∀ d, d ≠ c → phase' d = phase d) (others : ∀ d, d ≠ c → count' i d = count i d)
    (mine : count' i c = if phase' c = at_ i then 1 else 0)
    (away : ∀ j, j ≠ i → (phase' c = at_ j ↔ phase c = at_ j)) : Located phase' at_ count' := by
  intro j d
  by_cases same : d = c
  · subst same
    by_cases here : j = i
    · rw [here]
      exact mine
    · rw [threads j d here,located j d]
      simp only [away j here]
  · rw [phases d same,← located j d]
    by_cases here : j = i
    · rw [here]
      exact others d same
    · exact threads j d here

theorem held_congr {promise promise' : BlockId → Promise} {stack : List Frame} (a : Ambient)
    (same : ∀ f c stage, f ∈ stack → f.coroutine = some (c,stage) →
      (promise' c).accessCtx = (promise c).accessCtx ∧ (stage = .inside →
        (promise' c).prevTask = (promise c).prevTask ∧ (promise' c).prevScope = (promise c).prevScope ∧
          (promise' c).relaxedPrev = (promise c).relaxedPrev)) (held : Held promise a stack) :
    Held promise' a stack := by
  induction stack generalizing a with
  | nil => trivial
  | cons f rest ih =>
    have restored : f.restore promise' a = f.restore promise a := by
      cases f with
      | eager c stage before =>
        have kept := (same _ c stage List.mem_cons_self rfl).2
        by_cases inside : stage = .inside
        · obtain ⟨task,scope,relaxed⟩ := kept inside
          simp only [Frame.restore,Ambient.exit,task,scope,relaxed]
        · simp only [Frame.restore,if_neg inside]
      | segment c stage active prev before =>
        have kept := (same _ c stage List.mem_cons_self rfl).2
        by_cases inside : stage = .inside
        · obtain ⟨task,scope,relaxed⟩ := kept inside
          simp only [Frame.restore,Ambient.exit,task,scope,relaxed]
        · simp only [Frame.restore,if_neg inside]
      | _ => rfl
    refine ⟨?_,?_⟩
    · have holds := held.1
      cases f with
      | eager c stage before =>
        have context := (same _ c stage List.mem_cons_self rfl).1
        simp only [Frame.Holds] at holds ⊢
        rw [restored,context]
        exact holds
      | segment c stage active prev before =>
        have context := (same _ c stage List.mem_cons_self rfl).1
        simp only [Frame.Holds] at holds ⊢
        rw [restored,context]
        exact holds
      | _ => trivial
    · rw [restored]
      exact ih _ (fun g c stage member => same g c stage (List.mem_cons_of_mem _ member)) held.2

theorem standing_cons (stage : Stage) (f : Frame) (rest : List Frame) (c : BlockId) :
    standing stage (f :: rest) c = standing stage rest c+if f.coroutine = some (c,stage) then 1 else 0 := by
  simp [standing,List.countP_cons,Frame.standsAt]

theorem queued_cons (pending : List BlockId) (f : Frame) (rest : List Frame) (c : BlockId) :
    queued pending (f :: rest) c = queued pending rest c+f.parked c := by
  simp only [queued,List.map_cons,List.sum_cons]
  omega

theorem standing_pos {stack : List Frame} (member : f ∈ stack) (which : f.coroutine = some (c,stage)) :
    standing stage stack c ≠ 0 := by
  unfold standing
  rw [Ne,List.countP_eq_zero]
  intro none
  exact none f member (by simp [Frame.standsAt,which])

theorem State.Inv.running_at {s : State} (inv : s.Inv) (member : f ∈ s.stack i) (which : f.coroutine = some (c,.inside)) :
    (s.promise c).phase = .running i := by
  have found := standing_pos member which
  have count : standing .inside (s.stack i) c = if (s.promise c).phase = .running i then 1 else 0 := inv.running i c
  rw [count] at found
  exact Decidable.byContradiction (fun other => found (if_neg other))

theorem State.Inv.leaving_at {s : State} (inv : s.Inv) (member : f ∈ s.stack i) (which : f.coroutine = some (c,.leaving)) :
    (s.promise c).phase = .leaving i := by
  have found := standing_pos member which
  have count : standing .leaving (s.stack i) c = if (s.promise c).phase = .leaving i then 1 else 0 := inv.leaving i c
  rw [count] at found
  exact Decidable.byContradiction (fun other => found (if_neg other))

-- One thread acts on one coroutine. Everything any other thread's frames rely on
-- stays.
theorem State.Inv.moves {s u : State} (inv : s.Inv) (i : Nat) (c : BlockId) (q : Promise) (stack : List Frame)
    (pending : List BlockId) (stacked : u.stack = Function.update s.stack i stack)
    (ambients : ∀ j, j ≠ i → u.ambient j = s.ambient j) (queues : u.pending = Function.update s.pending i pending)
    (promises : u.promise = Function.update s.promise c q) (held : Held u.promise (u.ambient i) stack)
    (context : q.accessCtx = (s.promise c).accessCtx ∨ (s.promise c).phase = .unborn)
    (saved : q.prevTask = (s.promise c).prevTask ∧ q.prevScope = (s.promise c).prevScope ∧
      q.relaxedPrev = (s.promise c).relaxedPrev ∨ ∀ j, j ≠ i → (s.promise c).phase ≠ .running j)
    (away : ∀ j, j ≠ i → (q.phase = .running j ↔ (s.promise c).phase = .running j) ∧
      (q.phase = .leaving j ↔ (s.promise c).phase = .leaving j) ∧
        (q.phase = .queued j ↔ (s.promise c).phase = .queued j))
    (others : ∀ d, d ≠ c → standing .inside stack d = standing .inside (s.stack i) d ∧
      standing .leaving stack d = standing .leaving (s.stack i) d ∧
        queued pending stack d = queued (s.pending i) (s.stack i) d)
    (running : standing .inside stack c = if q.phase = .running i then 1 else 0)
    (leaving : standing .leaving stack c = if q.phase = .leaving i then 1 else 0)
    (waiting : queued pending stack c = if q.phase = .queued i then 1 else 0) (hands : q.Hands)
    (known : ∀ f d stage, f ∈ stack → f.coroutine = some (d,stage) → d = c ∨ f ∈ s.stack i ∨ (s.promise d).phase ≠ .unborn)
    (born : q.phase ≠ .unborn) : u.Inv := by
  have mine : u.promise c = q := by rw [promises,Function.update_self]
  have other : ∀ d, d ≠ c → u.promise d = s.promise d := fun d ne => by rw [promises,Function.update_of_ne ne]
  have phases : ∀ d, d ≠ c → (u.promise d).phase = (s.promise d).phase := fun d ne => by rw [other d ne]
  have at_i : u.stack i = stack := by rw [stacked,Function.update_self]
  have at_j : ∀ j, j ≠ i → u.stack j = s.stack j := fun j ne => by rw [stacked,Function.update_of_ne ne]
  have queue_i : u.pending i = pending := by rw [queues,Function.update_self]
  have queue_j : ∀ j, j ≠ i → u.pending j = s.pending j := fun j ne => by rw [queues,Function.update_of_ne ne]
  refine ⟨?_,?_,?_,?_,?_,?_⟩
  · intro j
    by_cases here : j = i
    · rw [here,at_i]
      exact held
    · rw [at_j j here,ambients j here]
      refine held_congr _ ?_ (inv.held j)
      intro f d stage member which
      by_cases same : d = c
      · subst same
        rw [mine]
        have alive := inv.known j f d stage member which
        refine ⟨context.resolve_right alive,?_⟩
        intro inside
        subst inside
        exact saved.resolve_right (fun elsewhere => elsewhere j here (inv.running_at member which))
      · rw [other d same]
        exact ⟨rfl,fun _ => ⟨rfl,rfl,rfl⟩⟩
  · refine inv.running.moved (fun j d ne => by rw [at_j j ne]) phases ?_ ?_ ?_
    · exact fun d ne => by rw [at_i]; exact (others d ne).1
    · rw [at_i,mine]
      exact running
    · exact fun j ne => by rw [mine]; exact (away j ne).1
  · refine inv.leaving.moved (fun j d ne => by rw [at_j j ne]) phases ?_ ?_ ?_
    · exact fun d ne => by rw [at_i]; exact (others d ne).2.1
    · rw [at_i,mine]
      exact leaving
    · exact fun j ne => by rw [mine]; exact (away j ne).2.1
  · refine inv.waiting.moved (fun j d ne => by rw [at_j j ne,queue_j j ne]) phases ?_ ?_ ?_
    · exact fun d ne => by rw [at_i,queue_i]; exact (others d ne).2.2
    · rw [at_i,queue_i,mine]
      exact waiting
    · exact fun j ne => by rw [mine]; exact (away j ne).2.2
  · intro d
    by_cases same : d = c
    · rw [same,mine]
      exact hands
    · rw [other d same]
      exact inv.hands d
  · intro j f d stage member which
    by_cases same : d = c
    · rw [same,mine]
      exact born
    · rw [phases d same]
      by_cases here : j = i
      · rw [here,at_i] at member
        obtain equal | prior | alive := known f d stage member which
        · exact absurd equal same
        · exact inv.known i f d stage prior which
        · exact alive
      · rw [at_j j here] at member
        exact inv.known j f d stage member which

-- One thread acts on its own stack only.
theorem State.Inv.plain {s u : State} (inv : s.Inv) (i : Nat) (stack : List Frame)
    (stacked : u.stack = Function.update s.stack i stack) (ambients : ∀ j, j ≠ i → u.ambient j = s.ambient j)
    (queues : ∀ j, j ≠ i → u.pending j = s.pending j) (promises : u.promise = s.promise)
    (held : Held s.promise (u.ambient i) stack)
    (counts : ∀ d, standing .inside stack d = standing .inside (s.stack i) d ∧
      standing .leaving stack d = standing .leaving (s.stack i) d ∧
        queued (u.pending i) stack d = queued (s.pending i) (s.stack i) d)
    (known : ∀ f d stage, f ∈ stack → f.coroutine = some (d,stage) → f ∈ s.stack i) : u.Inv := by
  have at_i : u.stack i = stack := by rw [stacked,Function.update_self]
  have at_j : ∀ j, j ≠ i → u.stack j = s.stack j := fun j ne => by rw [stacked,Function.update_of_ne ne]
  refine ⟨?_,?_,?_,?_,by rw [promises]; exact inv.hands,?_⟩
  · intro j
    rw [promises]
    by_cases here : j = i
    · rw [here,at_i]
      exact held
    · rw [at_j j here,ambients j here]
      exact inv.held j
  · intro j d
    rw [promises,← inv.running j d]
    change standing .inside (u.stack j) d = standing .inside (s.stack j) d
    by_cases here : j = i
    · rw [here,at_i]
      exact (counts d).1
    · rw [at_j j here]
  · intro j d
    rw [promises,← inv.leaving j d]
    change standing .leaving (u.stack j) d = standing .leaving (s.stack j) d
    by_cases here : j = i
    · rw [here,at_i]
      exact (counts d).2.1
    · rw [at_j j here]
  · intro j d
    rw [promises,← inv.waiting j d]
    change queued (u.pending j) (u.stack j) d = queued (s.pending j) (s.stack j) d
    by_cases here : j = i
    · rw [here,at_i]
      exact (counts d).2.2
    · rw [at_j j here,queues j here]
  · intro j f d stage member which
    rw [promises]
    by_cases here : j = i
    · rw [here,at_i] at member
      exact inv.known i f d stage (known f d stage member which) which
    · rw [at_j j here] at member
      exact inv.known j f d stage member which

theorem update_other {β : Type} {i : Nat} (f : Nat → β) (b : β) : ∀ j, j ≠ i → Function.update f i b j = f j :=
  fun _ ne => Function.update_of_ne ne ..

-- A scope of a body opens: popping it would give the present state back.
theorem State.Inv.opens {s : State} (inv : s.Inv) (i : Nat) (f : Frame) (a : Ambient)
    (none : f.coroutine = none) (empty : ∀ d, f.parked d = 0) (back : f.restore s.promise a = s.ambient i) :
    ((s.setAmbient i a).setStack i (f :: s.stack i)).Inv := by
  refine inv.plain i (f :: s.stack i) rfl (update_other _ _) (fun _ _ => rfl) rfl ?_ ?_ ?_
  · simp only [State.setStack,State.setAmbient,Function.update_self]
    refine ⟨?_,back ▸ inv.held i⟩
    cases f <;> trivial
  · intro d
    refine ⟨?_,?_,?_⟩
    · rw [standing_cons,none]
      rfl
    · rw [standing_cons,none]
      rfl
    · rw [queued_cons,empty d]
      rfl
  · intro g d stage member which
    cases List.mem_cons.mp member with
    | inl same =>
      rw [same,none] at which
      cases which
    | inr inside => exact inside

-- A frame is popped whose coroutine, if it has one, is on its way out.
theorem State.Inv.pops {s : State} (inv : s.Inv) (i : Nat) (here : s.stack i = f :: rest) (a : Ambient)
    (empty : ∀ d, f.parked d = 0) (back : a = f.restore s.promise (s.ambient i))
    (out : ∀ d, f.coroutine ≠ some (d,.inside) ∧ f.coroutine ≠ some (d,.leaving)) :
    ((s.setAmbient i a).setStack i rest).Inv := by
  refine inv.plain i rest rfl (update_other _ _) (fun _ _ => rfl) rfl ?_ ?_ ?_
  · simp only [State.setStack,State.setAmbient,Function.update_self,back]
    have held := inv.held i
    rw [here] at held
    exact held.2
  · intro d
    refine ⟨?_,?_,?_⟩
    · rw [here,standing_cons,if_neg (out d).1]
      rfl
    · rw [here,standing_cons,if_neg (out d).2]
      rfl
    · rw [here,queued_cons,empty d]
      rfl
  · intro g d stage member _
    rw [here]
    exact List.mem_cons_of_mem _ member

theorem State.top_some {s : State} (found : s.top i stage = some c) :
    ∃ f rest, s.stack i = f :: rest ∧ f.coroutine = some (c,stage) := by
  unfold State.top at found
  cases here : s.stack i with
  | nil => rw [here] at found; cases found
  | cons f rest =>
    rw [here] at found
    simp only at found
    cases which : f.coroutine with
    | none => rw [which] at found; cases found
    | some pair =>
      obtain ⟨d,at_⟩ := pair
      rw [which] at found
      simp only at found
      by_cases same : at_ = stage
      · rw [if_pos same] at found
        cases found
        exact ⟨f,rest,rfl,by rw [which,same]⟩
      · rw [if_neg same] at found
        cases found

theorem restage_cons {s : State} (here : s.stack i = f :: rest) (next : Stage) :
    s.restage i next = s.setStack i (f.toStage next :: rest) := by
  unfold State.restage
  rw [here]

theorem toStage_coroutine {f : Frame} (which : f.coroutine = some (c,stage)) (next : Stage) :
    (f.toStage next).coroutine = some (c,next) := by
  cases f <;> cases which <;> rfl

theorem coroutine_parked {f : Frame} (which : f.coroutine = some (c,stage)) (d : BlockId) : f.parked d = 0 := by
  cases f <;> cases which <;> rfl

-- The phase that goes with a stage of a frame on thread `i`.
def Stage.phase (i : Nat) : Stage → Phase
  | .inside => .running i
  | .leaving => .leaving i
  | .left => .suspended
  | .completing => .finished

theorem State.Inv.phase_at {s : State} (inv : s.Inv) (member : f ∈ s.stack i) (which : f.coroutine = some (c,stage))
    (stands : stage = .inside ∨ stage = .leaving) : (s.promise c).phase = stage.phase i := by
  cases stands with
  | inl inside => subst inside; exact inv.running_at member which
  | inr leaving => subst leaving; exact inv.leaving_at member which

-- Below a frame that has its coroutine, no frame of the thread has it.
theorem State.Inv.alone {s : State} (inv : s.Inv) (here : s.stack i = f :: rest) (which : f.coroutine = some (c,stage))
    (stands : stage = .inside ∨ stage = .leaving) : standing .inside rest c = 0 ∧ standing .leaving rest c = 0 := by
  have member : f ∈ s.stack i := by rw [here]; exact List.mem_cons_self
  have phase := inv.phase_at member which stands
  have running : standing .inside (s.stack i) c = if (s.promise c).phase = .running i then 1 else 0 := inv.running i c
  have leaving : standing .leaving (s.stack i) c = if (s.promise c).phase = .leaving i then 1 else 0 := inv.leaving i c
  rw [here,standing_cons,which,phase] at running leaving
  cases stands with
  | inl inside => subst inside; simp [Stage.phase] at running leaving; omega
  | inr left => subst left; simp [Stage.phase] at running leaving; omega

theorem none_inside {stack : List Frame} (none : standing .inside stack c = 0) (member : f ∈ stack) :
    f.coroutine ≠ some (c,.inside) := fun which => standing_pos member which none

-- The top frame's coroutine goes from one stage to the next.
theorem State.Inv.restages {s : State} (inv : s.Inv) (here : s.stack i = f :: rest) (which : f.coroutine = some (c,stage))
    (stands : stage = .inside ∨ stage = .leaving) (next : Stage) (q : Promise) (a : Ambient)
    (context : q.accessCtx = (s.promise c).accessCtx) (phase : q.phase = next.phase i) (hands : q.Hands)
    (holds : (f.toStage next).Holds (Function.update s.promise c q) a)
    (restored : (f.toStage next).restore (Function.update s.promise c q) a = f.restore s.promise (s.ambient i)) :
    (((s.setPromise c q).setAmbient i a).restage i next).Inv := by
  have member : f ∈ s.stack i := by rw [here]; exact List.mem_cons_self
  have before := inv.phase_at member which stands
  obtain ⟨noInside,noLeaving⟩ := inv.alone here which stands
  have moved := toStage_coroutine which next
  have held := inv.held i
  rw [here] at held
  rw [restage_cons (s := (s.setPromise c q).setAmbient i a) here]
  refine inv.moves i c q (f.toStage next :: rest) (s.pending i) rfl (update_other _ _) (Function.update_eq_self ..).symm rfl
    ?_ (.inl context) (.inr ?_) ?_ ?_ ?_ ?_ ?_ hands ?_ ?_
  · simp only [State.setStack,State.setAmbient,State.setPromise,Function.update_self]
    refine ⟨holds,?_⟩
    rw [restored]
    refine held_congr _ ?_ held.2
    intro g d at_ inside found
    by_cases same : d = c
    · subst same
      rw [Function.update_self]
      refine ⟨context,?_⟩
      intro still
      subst still
      exact absurd found (none_inside noInside inside)
    · rw [Function.update_of_ne same]
      exact ⟨rfl,fun _ => ⟨rfl,rfl,rfl⟩⟩
  · intro j other
    rw [before]
    cases stands with
    | inl inside => subst inside; exact fun same => other (Phase.running.inj same).symm
    | inr leaving => subst leaving; exact nofun
  · intro j other
    have apart : i ≠ j := fun same => other same.symm
    rw [before,phase]
    cases stands with
    | inl inside => subst inside; cases next <;> simp [Stage.phase,apart]
    | inr leaving => subst leaving; cases next <;> simp [Stage.phase,apart]
  · intro d other
    have apart : c ≠ d := fun same => other same.symm
    rw [here,standing_cons,standing_cons,standing_cons,standing_cons,queued_cons,queued_cons,moved,which,
      coroutine_parked moved,coroutine_parked which]
    simp [apart]
  · rw [standing_cons,moved,noInside,phase]
    cases next <;> simp [Stage.phase]
  · rw [standing_cons,moved,noLeaving,phase]
    cases next <;> simp [Stage.phase]
  · have waiting : queued (s.pending i) (s.stack i) c = if (s.promise c).phase = .queued i then 1 else 0 := inv.waiting i c
    rw [here,queued_cons,coroutine_parked which,before] at waiting
    rw [queued_cons,coroutine_parked moved,waiting,phase]
    cases stands with
    | inl inside => subst inside; cases next <;> simp [Stage.phase]
    | inr leaving => subst leaving; cases next <;> simp [Stage.phase]
  · intro g d at_ inside found
    cases List.mem_cons.mp inside with
    | inl same =>
      rw [same,moved] at found
      cases found
      exact .inl rfl
    | inr below =>
      right
      left
      rw [here]
      exact List.mem_cons_of_mem _ below
  · rw [phase]
    cases next <;> exact nofun

theorem State.Inv.top_holds {s : State} (inv : s.Inv) (here : s.stack i = f :: rest) :
    f.Holds s.promise (s.ambient i) := by
  have held := inv.held i
  rw [here] at held
  exact held.1

-- `exit_segment` undoes all of a bracket but the access scope.
theorem exit_restores {f : Frame} {promise : BlockId → Promise} (q : Promise) (next : Stage)
    (which : f.coroutine = some (c,.inside)) (out : next ≠ .inside) (context : q.accessCtx = (promise c).accessCtx)
    (holds : f.Holds promise a) :
    (f.toStage next).Holds (Function.update promise c q) (a.exit (promise c)) ∧
      (f.toStage next).restore (Function.update promise c q) (a.exit (promise c)) = f.restore promise a := by
  cases f with
  | eager d stage before =>
    cases which
    obtain ⟨back,access,-⟩ := holds
    refine ⟨⟨?_,?_,fun inside => absurd inside out⟩,?_⟩
    · simpa [Frame.restore,out] using back
    · rw [Function.update_self,context]
      exact access
    · simp [Frame.toStage,Frame.restore,out]
  | segment d stage active prev before =>
    cases which
    obtain ⟨back,snapshot,access,-⟩ := holds
    refine ⟨⟨?_,?_,?_,fun inside => absurd inside out⟩,?_⟩
    · simpa [Frame.restore,out] using back
    · rw [Function.update_self,context]
      exact snapshot
    · rw [Function.update_self,context]
      exact access
    · simp [Frame.toStage,Frame.restore,out]
  | _ => cases which

-- Entering again saves what the exit has just put back.
theorem enter_restores {f : Frame} {promise : BlockId → Promise} (q : Promise)
    (which : f.coroutine = some (c,.leaving)) (context : q.accessCtx = (promise c).accessCtx)
    (saved : q.prevTask = a.task ∧ q.prevScope = a.scope ∧ q.relaxedPrev = a.relaxed) (holds : f.Holds promise a) :
    (f.toStage .inside).Holds (Function.update promise c q) (a.enter c (promise c)) ∧
      (f.toStage .inside).restore (Function.update promise c q) (a.enter c (promise c)) = f.restore promise a := by
  have undone : (a.enter c (promise c)).exit (Function.update promise c q c) = a := by
    rw [Function.update_self]
    simp [Ambient.enter,Ambient.exit,saved]
  cases f with
  | eager d stage before =>
    cases which
    obtain ⟨back,access,-⟩ := holds
    refine ⟨⟨?_,?_,fun _ => ⟨rfl,rfl⟩⟩,?_⟩
    · simp only [Frame.restore,if_true,undone]
      exact back
    · rw [Function.update_self,context]
      exact access
    · simp only [Frame.toStage,Frame.restore,if_true,undone]
      rfl
  | segment d stage active prev before =>
    cases which
    obtain ⟨back,snapshot,access,-⟩ := holds
    refine ⟨⟨?_,?_,?_,fun _ => ⟨rfl,rfl⟩⟩,?_⟩
    · simp only [Frame.restore,if_true,undone]
      exact back
    · rw [Function.update_self,context]
      exact snapshot
    · rw [Function.update_self,context]
      exact access
    · simp only [Frame.toStage,Frame.restore,if_true,undone]
      rfl
  | _ => cases which

theorem left_restores {f : Frame} {promise : BlockId → Promise} (q : Promise)
    (which : f.coroutine = some (c,.leaving)) (context : q.accessCtx = (promise c).accessCtx)
    (holds : f.Holds promise a) : (f.toStage .left).Holds (Function.update promise c q) a ∧
      (f.toStage .left).restore (Function.update promise c q) a = f.restore promise a := by
  cases f with
  | eager d stage before =>
    cases which
    refine ⟨⟨holds.1,?_,nofun⟩,rfl⟩
    rw [Function.update_self,context]
    exact holds.2.1
  | segment d stage active prev before =>
    cases which
    refine ⟨⟨holds.1,?_,?_,nofun⟩,rfl⟩
    · rw [Function.update_self,context]
      exact holds.2.1
    · rw [Function.update_self,context]
      exact holds.2.2.1
  | _ => cases which

theorem suspend_inv {s : State} (inv : s.Inv) (allowed : (s.top i .inside).isSome = true) : (s.suspend i).Inv := by
  obtain ⟨c,top⟩ := Option.isSome_iff_exists.mp allowed
  obtain ⟨f,rest,here,which⟩ := State.top_some top
  unfold State.suspend
  simp only [top]
  obtain ⟨holds,restored⟩ := exit_restores { (s.promise c).exit (s.ambient i) (.leaving i) with handshake := 0, attached := true }
    .leaving which nofun rfl (inv.top_holds here)
  exact inv.restages here which (.inl rfl) .leaving _ _ rfl rfl (.inl ⟨rfl,rfl⟩) holds restored

theorem finish_inv {s : State} (inv : s.Inv) (allowed : (s.top i .inside).isSome = true) : (s.finish i).Inv := by
  obtain ⟨c,top⟩ := Option.isSome_iff_exists.mp allowed
  obtain ⟨f,rest,here,which⟩ := State.top_some top
  unfold State.finish
  simp only [top]
  obtain ⟨holds,restored⟩ := exit_restores ((s.promise c).exit (s.ambient i) .finished) .completing which nofun rfl
    (inv.top_holds here)
  refine inv.restages here which (.inl rfl) .completing _ _ rfl rfl ?_ holds restored
  have phase := inv.running_at (by rw [here]; exact List.mem_cons_self) which
  have hands := inv.hands c
  rw [Promise.Hands,phase] at hands
  exact hands

theorem tail_inv {s : State} (inv : s.Inv) (allowed : (s.top i .leaving).isSome = true) : (s.tail i).Inv := by
  obtain ⟨c,top⟩ := Option.isSome_iff_exists.mp allowed
  obtain ⟨f,rest,here,which⟩ := State.top_some top
  have phase := inv.leaving_at (by rw [here]; exact List.mem_cons_self) which
  have hands := inv.hands c
  rw [Promise.Hands,phase] at hands
  unfold State.tail
  simp only [top]
  by_cases fired : (s.promise c).handshake = 1
  · rw [if_pos fired]
    obtain ⟨holds,restored⟩ := enter_restores { (s.promise c).enter i (s.ambient i) with handshake := 2 } which rfl
      ⟨rfl,rfl,rfl⟩ (inv.top_holds here)
    refine inv.restages here which (.inr rfl) .inside _ _ rfl rfl ?_ holds restored
    obtain first | second := hands
    · rw [fired] at first
      cases first.1
    · exact second.2
  · rw [if_neg fired]
    obtain ⟨holds,restored⟩ := left_restores { s.promise c with handshake := 2, phase := .suspended } which rfl
      (inv.top_holds here)
    have same : s.setPromise c { s.promise c with handshake := 2, phase := .suspended } =
        (s.setPromise c { s.promise c with handshake := 2, phase := .suspended }).setAmbient i (s.ambient i) := by
      simp [State.setAmbient,State.setPromise]
    rw [same]
    refine inv.restages here which (.inr rfl) .left _ _ rfl rfl ?_ holds restored
    obtain first | second := hands
    · exact ⟨rfl,first.2⟩
    · exact absurd second.1 fired

-- A new frame of a coroutine nobody has goes on top, in its body.
theorem State.Inv.enters {s u : State} (inv : s.Inv) (i : Nat) (c : BlockId) (q : Promise) (f : Frame)
    (pending : List BlockId) (stacked : u.stack = Function.update s.stack i (f :: s.stack i))
    (ambients : ∀ j, j ≠ i → u.ambient j = s.ambient j) (queues : u.pending = Function.update s.pending i pending)
    (promises : u.promise = Function.update s.promise c q) (which : f.coroutine = some (c,.inside))
    (holds : f.Holds u.promise (u.ambient i)) (restored : f.restore u.promise (u.ambient i) = s.ambient i)
    (context : q.accessCtx = (s.promise c).accessCtx ∨ (s.promise c).phase = .unborn) (phase : q.phase = .running i)
    (free : (s.promise c).phase = .unborn ∨ (s.promise c).phase = .queued i)
    (waiting : queued pending (s.stack i) c = 0)
    (others : ∀ d, d ≠ c → queued pending (s.stack i) d = queued (s.pending i) (s.stack i) d)
    (hands : q.attached = false) : u.Inv := by
  have nowhere : ∀ j, (s.promise c).phase ≠ .running j ∧ (s.promise c).phase ≠ .leaving j := by
    intro j
    obtain phase | phase := free <;> rw [phase] <;> exact ⟨nofun,nofun⟩
  have running : standing .inside (s.stack i) c = if (s.promise c).phase = .running i then 1 else 0 := inv.running i c
  have leaving : standing .leaving (s.stack i) c = if (s.promise c).phase = .leaving i then 1 else 0 := inv.leaving i c
  rw [if_neg (nowhere i).1] at running
  rw [if_neg (nowhere i).2] at leaving
  refine inv.moves i c q (f :: s.stack i) pending stacked ambients queues promises ?_ context (.inr ?_) ?_ ?_ ?_ ?_ ?_ ?_ ?_ ?_
  · refine ⟨holds,?_⟩
    rw [restored,promises]
    refine held_congr _ ?_ (inv.held i)
    intro g d stage member found
    by_cases same : d = c
    · subst same
      rw [Function.update_self]
      refine ⟨context.resolve_right (inv.known i g d stage member found),?_⟩
      intro inside
      subst inside
      exact absurd found (none_inside running member)
    · rw [Function.update_of_ne same]
      exact ⟨rfl,fun _ => ⟨rfl,rfl,rfl⟩⟩
  · exact fun j _ => (nowhere j).1
  · intro j other
    have apart : i ≠ j := fun same => other same.symm
    rw [phase]
    obtain free | free := free <;> rw [free] <;> simp [apart]
  · intro d other
    have apart : c ≠ d := fun same => other same.symm
    rw [standing_cons,standing_cons,queued_cons,which,coroutine_parked which,others d other]
    simp [apart]
  · rw [standing_cons,which,running,phase]
    simp
  · rw [standing_cons,which,leaving,phase]
    simp
  · rw [queued_cons,coroutine_parked which,waiting,phase]
    simp
  · rw [Promise.Hands,phase]
    exact hands
  · intro g d stage member found
    cases List.mem_cons.mp member with
    | inl same =>
      rw [same,which] at found
      cases found
      exact .inl rfl
    | inr below => exact .inr (.inl below)
  · rw [phase]
    exact nofun

theorem create_inv {s : State} (inv : s.Inv) (unborn : (s.promise c).phase = .unborn) : (s.create i c).Inv := by
  have waiting : queued (s.pending i) (s.stack i) c = if (s.promise c).phase = .queued i then 1 else 0 := inv.waiting i c
  rw [unborn] at waiting
  refine inv.enters i c
    (({ Promise.unborn with accessCtx := (s.ambient i).access, relaxedBits := (s.ambient i).relaxed } : Promise).enter i
      (s.ambient i)) (.eager c .inside (s.ambient i)) (s.pending i) rfl (update_other _ _) (Function.update_eq_self ..).symm rfl rfl
    ?_ ?_ (.inr unborn) rfl (.inl unborn) waiting (fun _ _ => rfl) rfl
  · simp [State.create,State.setStack,State.setAmbient,State.setPromise,Frame.Holds,Frame.restore,Ambient.exit,Ambient.enter,
      Promise.enter]
  · simp [State.create,State.setStack,State.setAmbient,State.setPromise,Frame.restore,Ambient.exit,Ambient.enter,
      Promise.enter]

theorem fire_inv {s : State} (inv : s.Inv) (attached : (s.promise c).attached = true) : (s.fire i c).Inv := by
  have running : ∀ j, standing .inside (s.stack j) c = if (s.promise c).phase = .running j then 1 else 0 :=
    fun j => inv.running j c
  have leaving : ∀ j, standing .leaving (s.stack j) c = if (s.promise c).phase = .leaving j then 1 else 0 :=
    fun j => inv.leaving j c
  have waiting : ∀ j, queued (s.pending j) (s.stack j) c = if (s.promise c).phase = .queued j then 1 else 0 :=
    fun j => inv.waiting j c
  have hands := inv.hands c
  have kept : ∀ a stack q, q.accessCtx = (s.promise c).accessCtx → q.prevTask = (s.promise c).prevTask →
      q.prevScope = (s.promise c).prevScope → q.relaxedPrev = (s.promise c).relaxedPrev → Held s.promise a stack →
        Held (Function.update s.promise c q) a stack := by
    intro a stack q context task scope relaxed held
    refine held_congr a ?_ held
    intro g d stage _ _
    by_cases same : d = c
    · rw [same,Function.update_self]
      exact ⟨context,fun _ => ⟨task,scope,relaxed⟩⟩
    · rw [Function.update_of_ne same]
      exact ⟨rfl,fun _ => ⟨rfl,rfl,rfl⟩⟩
  unfold State.fire
  cases phase : (s.promise c).phase with
  | leaving k =>
    rw [Promise.Hands,phase] at hands
    obtain first | second := hands
    · simp only [first.1]
      refine inv.moves i c { s.promise c with handshake := 1, attached := false } (s.stack i) (s.pending i)
        (Function.update_eq_self ..).symm (fun _ _ => rfl) (Function.update_eq_self ..).symm rfl
        (kept _ _ _ rfl rfl rfl rfl (inv.held i)) (.inl rfl) (.inl ⟨rfl,rfl,rfl⟩) (fun _ _ => ⟨.rfl,.rfl,.rfl⟩)
        (fun _ _ => ⟨rfl,rfl,rfl⟩) (running i) (leaving i) (waiting i) ?_ (fun _ _ _ member _ => .inr (.inl member)) ?_
      · simp [Promise.Hands,phase]
      · simp [phase]
    · rw [attached] at second
      cases second.2
  | suspended =>
    rw [Promise.Hands,phase] at hands
    rw [phase] at running leaving waiting
    rw [if_pos hands.1]
    unfold State.scheduleResume
    have grown : ∀ d, d ≠ c → queued (s.pending i++[c]) (s.stack i) d = queued (s.pending i) (s.stack i) d := by
      intro d other
      simp [queued,List.count_append,other.symm]
    have added : queued (s.pending i++[c]) (s.stack i) c = 1 := by
      have none := waiting i
      simp only [queued,List.count_append,List.count_singleton_self] at none ⊢
      simp at none
      omega
    by_cases busy : s.draining i = true
    · rw [if_pos (by exact busy)]
      refine inv.moves i c { s.promise c with handshake := 1, attached := false, phase := .queued i } (s.stack i) (s.pending i++[c])
        (Function.update_eq_self ..).symm (fun _ _ => rfl) rfl rfl
        (kept _ _ _ rfl rfl rfl rfl (inv.held i)) (.inl rfl) (.inl ⟨rfl,rfl,rfl⟩) ?_ ?_ ?_ ?_ ?_ rfl
        (fun _ _ _ member _ => .inr (.inl member)) nofun
      · intro j other
        have apart : i ≠ j := fun same => other same.symm
        simp [phase,apart]
      · exact fun d other => ⟨rfl,rfl,grown d other⟩
      · exact running i
      · exact leaving i
      · rw [added]
        simp
    · rw [if_neg (by exact busy)]
      refine inv.moves i c { s.promise c with handshake := 1, attached := false, phase := .queued i } (.drain :: s.stack i)
        (s.pending i++[c]) rfl (fun _ _ => rfl) rfl rfl
        ⟨trivial,kept _ _ _ rfl rfl rfl rfl (inv.held i)⟩ (.inl rfl) (.inl ⟨rfl,rfl,rfl⟩) ?_ ?_ ?_ ?_ ?_ rfl ?_ nofun
      · intro j other
        have apart : i ≠ j := fun same => other same.symm
        simp [phase,apart]
      · intro d other
        rw [standing_cons,standing_cons,queued_cons,grown d other]
        simp [Frame.coroutine,Frame.parked]
      · rw [standing_cons,running i]
        simp [Frame.coroutine]
      · rw [standing_cons,leaving i]
        simp [Frame.coroutine]
      · rw [queued_cons,added]
        simp [Frame.parked]
      · intro g d stage member found
        cases List.mem_cons.mp member with
        | inl same => rw [same] at found; cases found
        | inr below => exact .inr (.inl below)
  | _ =>
    rw [Promise.Hands,phase] at hands
    simp only at hands
    rw [attached] at hands
    cases hands

theorem drain_inv {s : State} (inv : s.Inv) (allowed : (s.stack i).head? = some .drain) : (s.drain i).Inv := by
  obtain ⟨rest,here⟩ := List.head?_eq_some_iff.mp allowed
  unfold State.drain
  cases line : s.pending i with
  | nil =>
    simp only
    refine inv.plain i rest ?_ (fun _ _ => rfl) (update_other _ _) rfl ?_ ?_ ?_
    · simp [State.setStack,State.setQueue,here]
    · have held := inv.held i
      rw [here] at held
      exact held.2
    · intro d
      rw [here,standing_cons,standing_cons,queued_cons,line]
      simp [State.setStack,State.setQueue,Frame.coroutine,Frame.parked]
    · intro g d stage member _
      rw [here]
      exact List.mem_cons_of_mem _ member
  | cons c later =>
    have waiting : queued (s.pending i) (s.stack i) c = if (s.promise c).phase = .queued i then 1 else 0 := inv.waiting i c
    have phase : (s.promise c).phase = .queued i := by
      apply Decidable.byContradiction
      intro other
      rw [if_neg other,line] at waiting
      simp [queued] at waiting
    rw [if_pos phase,line] at waiting
    have gone : queued later (s.stack i) c = 0 := by
      simp only [queued,List.count_cons_self] at waiting ⊢
      omega
    have others : ∀ d, d ≠ c → queued later (s.stack i) d = queued (s.pending i) (s.stack i) d := by
      intro d other
      rw [line]
      simp [queued,other.symm]
    have hands := inv.hands c
    rw [Promise.Hands,phase] at hands
    simp only
    cases snapshot : (s.promise c).accessCtx with
    | none =>
      refine inv.enters i c ((s.promise c).enter i (s.ambient i)) (.segment c .inside false none (s.ambient i)) later rfl
        (update_other _ _) rfl rfl rfl ?_ ?_ (.inl rfl) rfl (.inr phase) gone others hands
      · simp [State.setStack,State.setAmbient,State.setPromise,State.setQueue,Frame.Holds,Frame.restore,Ambient.exit,
          Ambient.enter,Promise.enter,snapshot]
      · simp [State.setStack,State.setAmbient,State.setPromise,State.setQueue,Frame.restore,Ambient.exit,Ambient.enter,
          Promise.enter]
    | some ctx =>
      refine inv.enters i c ((s.promise c).enter i (s.ambient i))
        (.segment c .inside true (s.ambient i).access (s.ambient i)) later rfl
        (update_other _ _) rfl rfl rfl ?_ ?_ (.inl rfl) rfl (.inr phase) gone others hands
      · simp [State.setStack,State.setAmbient,State.setPromise,State.setQueue,Frame.Holds,Frame.restore,Ambient.exit,
          Ambient.enter,Promise.enter,snapshot]
      · simp [State.setStack,State.setAmbient,State.setPromise,State.setQueue,Frame.restore,Ambient.exit,Ambient.enter,
          Promise.enter]

theorem ret_inv {s : State} (inv : s.Inv)
    (allowed : (s.top i .left).isSome = true ∨ (s.top i .completing).isSome = true) : (s.ret i).Inv := by
  obtain ⟨stage,c,out,top⟩ : ∃ stage c, (stage = .left ∨ stage = .completing) ∧ s.top i stage = some c := by
    cases allowed with
    | inl left => obtain ⟨c,top⟩ := Option.isSome_iff_exists.mp left; exact ⟨_,c,.inl rfl,top⟩
    | inr completing => obtain ⟨c,top⟩ := Option.isSome_iff_exists.mp completing; exact ⟨_,c,.inr rfl,top⟩
  obtain ⟨f,rest,here,which⟩ := State.top_some top
  have past : stage ≠ .inside ∧ stage ≠ .leaving := by obtain rfl | rfl := out <;> exact ⟨nofun,nofun⟩
  have done : ∀ d, f.coroutine ≠ some (d,.inside) ∧ f.coroutine ≠ some (d,.leaving) := by
    intro d
    rw [which]
    exact ⟨fun same => past.1 (congrArg Prod.snd (Option.some.inj same)),
      fun same => past.2 (congrArg Prod.snd (Option.some.inj same))⟩
  have still : s.setStack i rest = (s.setAmbient i (s.ambient i)).setStack i rest := by
    simp [State.setAmbient,State.setStack]
  unfold State.ret
  rw [here]
  cases f with
  | eager d at_ before =>
    cases which
    simp only
    rw [still]
    exact inv.pops i here _ (fun _ => rfl) (by simp [Frame.restore,past.1]) done
  | segment d at_ active prev before =>
    cases which
    cases active with
    | false =>
      simp only
      rw [still]
      exact inv.pops i here _ (fun _ => rfl) (by simp [Frame.restore,past.1]) done
    | true =>
      simp only
      exact inv.pops i here _ (fun _ => rfl) (by simp [Frame.restore,past.1]) done
  | _ => cases which

theorem close_inv {s : State} (inv : s.Inv) : (s.close i).Inv := by
  unfold State.close
  split
  · next prev rest here => exact inv.pops i here _ (fun _ => rfl) rfl (fun _ => ⟨nofun,nofun⟩)
  · next prev rest here => exact inv.pops i here _ (fun _ => rfl) rfl (fun _ => ⟨nofun,nofun⟩)
  · next prev rest here => exact inv.pops i here _ (fun _ => rfl) rfl (fun _ => ⟨nofun,nofun⟩)
  · exact inv

theorem yield_inv {s : State} (inv : s.Inv) : (s.yield i).Inv := by
  refine inv.plain i _ rfl (update_other _ _) (update_other _ _) rfl ⟨trivial,inv.held i⟩ ?_ ?_
  · intro d
    rw [standing_cons,standing_cons,queued_cons]
    simp [State.yield,State.setStack,State.setAmbient,State.setQueue,Frame.coroutine,Frame.parked,queued,Nat.add_comm]
  · intro g d stage member found
    cases List.mem_cons.mp member with
    | inl same => rw [same] at found; cases found
    | inr below => exact below

theorem unyield_inv {s : State} (inv : s.Inv) (empty : s.pending i = []) : (s.unyield i).Inv := by
  unfold State.unyield
  split
  · next saved pending draining rest here =>
    have held := inv.held i
    rw [here] at held
    refine inv.plain i rest rfl (update_other _ _) (update_other _ _) rfl ?_ ?_ ?_
    · simp only [State.setStack,State.setAmbient,Function.update_self]
      exact held.2
    · intro d
      rw [here,standing_cons,standing_cons,queued_cons,empty]
      simp [State.setStack,State.setAmbient,State.setQueue,Frame.coroutine,Frame.parked,queued,Nat.add_comm]
    · intro g d stage member _
      rw [here]
      exact List.mem_cons_of_mem _ member
  · exact inv

-- A coroutine moves its own relaxation inside its bracket.
theorem relax_inv {s : State} (inv : s.Inv) (bits : Nat) (allowed : (s.top i .inside).isSome = true) :
    (s.setAmbient i { s.ambient i with relaxed := bits }).Inv := by
  obtain ⟨c,top⟩ := Option.isSome_iff_exists.mp allowed
  obtain ⟨f,rest,here,which⟩ := State.top_some top
  have held := inv.held i
  rw [here] at held
  have unread : f.restore s.promise { s.ambient i with relaxed := bits } = f.restore s.promise (s.ambient i) := by
    cases f <;> cases which <;> rfl
  refine inv.plain i (s.stack i) (Function.update_eq_self ..).symm (update_other _ _) (fun _ _ => rfl) rfl ?_
    (fun _ => ⟨rfl,rfl,rfl⟩) (fun _ _ _ member _ => member)
  rw [here]
  simp only [State.setAmbient,Function.update_self]
  refine ⟨?_,by rw [unread]; exact held.2⟩
  have holds := held.1
  cases f <;> cases which <;> exact holds

theorem segment_apply_inv {s : State} (inv : s.Inv) (allowed : s.Allowed action) : (s.apply action).Inv := by
  cases action with
  | begin i task => exact inv.opens i _ _ rfl (fun _ => rfl) rfl
  | grant i ctx => exact inv.opens i _ _ rfl (fun _ => rfl) rfl
  | relaxFor i bits => exact inv.opens i _ _ rfl (fun _ => rfl) rfl
  | close i => exact close_inv inv
  | create i c => exact create_inv inv allowed.2
  | relax i bits => exact relax_inv inv bits allowed
  | suspend i => exact suspend_inv inv allowed
  | fire i c => exact fire_inv inv allowed.2
  | tail i => exact tail_inv inv allowed
  | finish i => exact finish_inv inv allowed
  | drain i => exact drain_inv inv allowed
  | ret i => exact ret_inv inv allowed
  | yield i => exact yield_inv inv
  | unyield i => exact unyield_inv inv allowed.2.1

theorem idle_inv : State.idle.Inv where
  held := fun _ => trivial
  running := fun _ _ => rfl
  leaving := fun _ _ => rfl
  waiting := fun _ _ => rfl
  hands := fun _ => rfl
  known := fun _ _ _ _ member => absurd member List.not_mem_nil

def Frame.before : Frame → Option Ambient
  | .eager _ _ before => some before
  | .segment _ _ _ _ before => some before
  | _ => none

-- While a segment's own code runs, its thread has the coroutine's task and
-- exactly the grants of the coroutine's snapshot: none, where there is none.
def State.Isolated (s : State) : Prop :=
  ∀ i c, s.top i .inside = some c →
    (s.ambient i).task = some c ∧ (s.ambient i).access = (s.promise c).accessCtx

-- The call into the coroutine leaves the thread as it found it.
def State.Restored (s : State) : Prop :=
  ∀ i f rest before, s.stack i = f :: rest → f.before = some before →
    (s.top i .left).isSome = true ∨ (s.top i .completing).isSome = true → (s.ret i).ambient i = before

def State.Law (s : State) : Prop := s.Isolated ∧ s.Restored

-- The drain takes up a coroutine that has a snapshot, or does so on a thread
-- with no access context in force.
def Careful (s : State) : Action → Prop
  | .drain i => ∀ c rest, s.pending i = c :: rest → (s.promise c).accessCtx ≠ none ∨ (s.ambient i).access = none
  | _ => True

def Frame.sound : Frame → Bool
  | .segment _ _ active _ before => active || before.access.isNone
  | _ => true

def State.Clean (s : State) : Prop := ∀ i f, f ∈ s.stack i → f.sound = true

theorem State.Inv.restored {s : State} (inv : s.Inv) : s.Restored := by
  intro i f rest before here found allowed
  obtain ⟨stage,c,out,top⟩ : ∃ stage c, (stage = .left ∨ stage = .completing) ∧ s.top i stage = some c := by
    cases allowed with
    | inl left => obtain ⟨c,top⟩ := Option.isSome_iff_exists.mp left; exact ⟨_,c,.inl rfl,top⟩
    | inr completing => obtain ⟨c,top⟩ := Option.isSome_iff_exists.mp completing; exact ⟨_,c,.inr rfl,top⟩
  obtain ⟨g,more,stands,which⟩ := State.top_some top
  rw [here] at stands
  cases stands
  have past : stage ≠ .inside := by obtain rfl | rfl := out <;> exact nofun
  have holds := inv.top_holds here
  unfold State.ret
  rw [here]
  cases f with
  | eager d at_ start =>
    cases which
    cases found
    have back := holds.1
    simpa [Frame.restore,past,State.setStack] using back
  | segment d at_ active prev start =>
    cases which
    cases found
    have back := holds.1
    cases active with
    | false => simpa [Frame.restore,past,State.setStack] using back
    | true => simpa [Frame.restore,past,State.setStack,State.setAmbient] using back
  | _ => cases which

theorem State.Inv.isolated {s : State} (inv : s.Inv) (clean : s.Clean) : s.Isolated := by
  intro i c top
  obtain ⟨f,rest,here,which⟩ := State.top_some top
  have holds := inv.top_holds here
  have sound := clean i f (by rw [here]; exact List.mem_cons_self)
  cases f with
  | eager d stage before =>
    cases which
    exact ⟨(holds.2.2 rfl).1,holds.2.1⟩
  | segment d stage active prev before =>
    cases which
    obtain ⟨back,snapshot,access,own⟩ := holds
    refine ⟨(own rfl).1,?_⟩
    cases active with
    | true => exact access rfl
    | false =>
      -- no snapshot and no scope: the context is still the resuming thread's
      have nothing : before.access = none := by simpa [Frame.sound] using sound
      have empty : (s.promise c).accessCtx = none := by simpa using snapshot.symm
      rw [empty,← nothing,← back]
      rfl
  | _ => cases which

theorem clean_stack {s u : State} (clean : s.Clean) (stacked : u.stack = Function.update s.stack i stack)
    (sound : ∀ f, f ∈ stack → f.sound = true ∨ f ∈ s.stack i) : u.Clean := by
  intro j f member
  rw [stacked] at member
  by_cases here : j = i
  · rw [here,Function.update_self] at member
    exact (sound f member).elim id (clean i f)
  · rw [Function.update_of_ne here] at member
    exact clean j f member

theorem clean_same {s u : State} (clean : s.Clean) (stacked : u.stack = s.stack) : u.Clean := by
  intro j f member
  rw [stacked] at member
  exact clean j f member

theorem clean_push {s u : State} (clean : s.Clean) (f : Frame) (sound : f.sound = true)
    (stacked : u.stack = Function.update s.stack i (f :: s.stack i)) : u.Clean := by
  refine clean_stack clean stacked ?_
  intro g member
  cases List.mem_cons.mp member with
  | inl same => exact .inl (same ▸ sound)
  | inr below => exact .inr below

theorem clean_pop {s u : State} (clean : s.Clean) (here : s.stack i = f :: rest)
    (stacked : u.stack = Function.update s.stack i rest) : u.Clean := by
  refine clean_stack clean stacked ?_
  intro g member
  right
  rw [here]
  exact List.mem_cons_of_mem _ member

theorem clean_restage {s : State} (clean : s.Clean) (next : Stage) : (s.restage i next).Clean := by
  unfold State.restage
  cases here : s.stack i with
  | nil => exact clean
  | cons f rest =>
    refine clean_stack (s := s) (i := i) clean rfl ?_
    intro g member
    cases List.mem_cons.mp member with
    | inl same =>
      left
      have sound := clean i f (by rw [here]; exact List.mem_cons_self)
      rw [same]
      cases f <;> exact sound
    | inr below =>
      right
      rw [here]
      exact List.mem_cons_of_mem _ below

theorem segment_apply_clean {s : State} (clean : s.Clean) (allowed : s.Allowed action) (careful : Careful s action) :
    (s.apply action).Clean := by
  cases action with
  | begin i task => exact clean_push clean _ rfl rfl
  | grant i ctx => exact clean_push clean _ rfl rfl
  | relaxFor i bits => exact clean_push clean _ rfl rfl
  | close i =>
    change (s.close i).Clean
    unfold State.close
    split
    · next here => exact clean_pop clean here rfl
    · next here => exact clean_pop clean here rfl
    · next here => exact clean_pop clean here rfl
    · exact clean
  | create i c => exact clean_push clean _ rfl rfl
  | relax i bits => exact clean_same clean rfl
  | suspend i =>
    change (s.suspend i).Clean
    unfold State.suspend
    split
    · refine clean_restage ?_ _
      exact clean_same clean rfl
    · exact clean
  | fire i c =>
    change (s.fire i c).Clean
    unfold State.fire
    simp only
    split
    · unfold State.scheduleResume
      split
      · exact clean_same clean rfl
      · exact clean_push clean .drain rfl rfl
    · exact clean_same clean rfl
  | tail i =>
    change (s.tail i).Clean
    unfold State.tail
    split
    · simp only
      split
      · refine clean_restage ?_ _
        exact clean_same clean rfl
      · refine clean_restage ?_ _
        exact clean_same clean rfl
    · exact clean
  | finish i =>
    change (s.finish i).Clean
    unfold State.finish
    split
    · refine clean_restage ?_ _
      exact clean_same clean rfl
    · exact clean
  | drain i =>
    change (s.drain i).Clean
    unfold State.drain
    cases line : s.pending i with
    | nil =>
      obtain ⟨rest,here⟩ := List.head?_eq_some_iff.mp allowed
      exact clean_pop clean here (by simp [State.setStack,State.setQueue,here])
    | cons c rest =>
      simp only
      refine clean_push clean _ ?_ rfl
      have covered := careful c rest line
      cases snapshot : (s.promise c).accessCtx with
      | some ctx => rfl
      | none =>
        have nothing : (s.ambient i).access = none := covered.resolve_left (fun some => some snapshot)
        simp [Frame.sound,nothing]
  | ret i =>
    change (s.ret i).Clean
    unfold State.ret
    split
    · next here => exact clean_pop clean here rfl
    · next here => exact clean_pop clean here rfl
    · exact clean
  | yield i => exact clean_push clean _ rfl rfl
  | unyield i =>
    change (s.unyield i).Clean
    unfold State.unyield
    split
    · next here => exact clean_pop clean here rfl
    · exact clean

-- A careless resume shows at once: the body starts under the resumer's grants.
theorem careless_shows {s : State} (isolated : (s.apply action).Isolated) : Careful s action := by
  cases action with
  | drain i =>
    intro c rest line
    cases snapshot : (s.promise c).accessCtx with
    | some ctx => exact .inl nofun
    | none =>
      right
      have now : (s.apply (.drain i)).top i .inside = some c := by
        simp [State.apply,State.drain,line,State.top,State.setStack,Frame.coroutine]
      have access := (isolated i c now).2
      simpa [State.apply,State.drain,line,State.setStack,State.setAmbient,State.setPromise,State.setQueue,snapshot,
        Ambient.enter,Promise.enter] using access
  | _ => trivial

-- Exactly the runs in which every resume is careful keep every segment isolated;
-- in every run the calls leave the threads as they found them.
theorem segment_isolation_iff (schedule : List Action) (run : segmentSystem.Each segmentSystem.allowed .idle schedule) :
    (segmentSystem.Throughout State.Law .idle schedule ↔ segmentSystem.Each Careful .idle schedule) ∧
      segmentSystem.Throughout State.Restored .idle schedule := by
  refine ⟨?_,?_⟩
  · exact throughout_iff_each State.Inv State.Clean (fun _ _ inv allowed => segment_apply_inv inv allowed)
      (fun _ _ _ clean allowed careful => segment_apply_clean clean allowed careful)
      (fun _ inv clean => ⟨inv.isolated clean,inv.restored⟩) (fun _ _ _ _ law => careless_shows law.1)
      idle_inv (fun _ _ member => absurd member List.not_mem_nil) run
  · exact throughout_of State.Inv (fun _ _ inv allowed => segment_apply_inv inv allowed) (fun _ inv => inv.restored)
      idle_inv run

instance State.decideAllowed (s : State) : (action : Action) → Decidable (s.Allowed action)
  | .begin i _ => inferInstanceAs (Decidable (s.runs i = true))
  | .grant i _ => inferInstanceAs (Decidable (s.runs i = true))
  | .relaxFor i _ => inferInstanceAs (Decidable (s.runs i = true))
  | .close i => inferInstanceAs (Decidable ((s.stack i).head?.any Frame.isScope = true))
  | .create i c => inferInstanceAs (Decidable (s.runs i = true ∧ (s.promise c).phase = .unborn))
  | .relax i _ => inferInstanceAs (Decidable ((s.top i .inside).isSome = true))
  | .suspend i => inferInstanceAs (Decidable ((s.top i .inside).isSome = true))
  | .fire i c => inferInstanceAs (Decidable (s.runs i = true ∧ (s.promise c).attached = true))
  | .tail i => inferInstanceAs (Decidable ((s.top i .leaving).isSome = true))
  | .finish i => inferInstanceAs (Decidable ((s.top i .inside).isSome = true))
  | .drain i => inferInstanceAs (Decidable ((s.stack i).head? = some .drain))
  | .ret i => inferInstanceAs (Decidable ((s.top i .left).isSome = true ∨ (s.top i .completing).isSome = true))
  | .yield i => inferInstanceAs (Decidable (s.runs i = true ∧ (s.stack i).all (!·.isNested) = true))
  | .unyield i => inferInstanceAs (Decidable ((s.stack i).head?.any Frame.isNested = true ∧ s.pending i = [] ∧
      s.draining i = false))

instance decideSegments (s : State) (action : Action) : Decidable (segmentSystem.allowed s action) :=
  inferInstanceAs (Decidable (s.Allowed action))

def writeGrant : AccessContext := ⟨[⟨7,.readWrite,none,0,0⟩],by decide⟩

-- A coroutine made on a plain thread awaits something that a task on thread 1
-- completes from inside its body, under a write grant on object 7.
def resumedInGrant : List Action :=
  [.create 0 1,.suspend 0,.tail 0,.ret 0,.begin 1 50,.grant 1 writeGrant,.fire 1 1,.drain 1]

-- The same, but the task has closed its access scope before it triggers.
def resumedAfterGrant : List Action :=
  [.create 0 1,.suspend 0,.tail 0,.ret 0,.begin 1 50,.grant 1 writeGrant,.close 1,.fire 1 1,.drain 1,
   .finish 1,.ret 1]

theorem segment_isolation_iff_plain :
    (segmentSystem.Throughout State.Law .idle resumedAfterGrant ↔ segmentSystem.Each Careful .idle resumedAfterGrant) ∧
      segmentSystem.Throughout State.Restored .idle resumedAfterGrant :=
  segment_isolation_iff resumedAfterGrant (each_of_admits (by decide +kernel))

theorem segment_runs_under_resumer : ¬∀ schedule, segmentSystem.Each segmentSystem.allowed .idle schedule →
    segmentSystem.Throughout State.Law .idle schedule := by
  intro always
  have law := throughout_last (always resumedInGrant (each_of_admits (by decide +kernel)))
  have access := (law.1 1 1 (by decide +kernel)).2
  have given : (segmentSystem.follow .idle resumedInGrant).ambient 1 = ⟨some 1,some writeGrant,some 1,0⟩ := by
    decide +kernel
  rw [given] at access
  have none : ((segmentSystem.follow .idle resumedInGrant).promise 1).accessCtx = none := by decide +kernel
  rw [none] at access
  cases access

end Macrame.Segments

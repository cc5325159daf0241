import Macrame.Lib.Inside
import Macrame.NestedDispatch
import Mathlib.Data.List.Basic
import Mathlib.Tactic.Linarith

namespace Macrame.NestedDispatch
open Machines

-- The part of a log that belongs to one drain.
def ofDrain (queue : DrainQueue) (drain : Nat) (log : List Item) : List Item :=
  log.filter (fun item => item.entry.queue == queue && item.entry.drain == drain)

section Logs

variable {q : DrainQueue} {d : Nat} {one two : List Item}

@[simp] theorem ofDrain_nil : ofDrain q d [] = [] := rfl

@[simp] theorem ofDrain_append : ofDrain q d (one++two) = ofDrain q d one++ofDrain q d two := List.filter_append ..

theorem mem_ofDrain : item ∈ ofDrain q d one ↔ item ∈ one ∧ item.entry.queue = q ∧ item.entry.drain = d := by
  simp [ofDrain]

theorem ofDrain_empty (apart : ∀ item ∈ one, item.entry.queue = q → item.entry.drain ≠ d) : ofDrain q d one = [] :=
  List.eq_nil_iff_forall_not_mem.mpr fun item member =>
    let ⟨inside,queue,drain⟩ := mem_ofDrain.mp member
    apart item inside queue drain

-- Two logs that share no drain may change places.
theorem ofDrain_swap (apart : ∀ a ∈ one, ∀ b ∈ two, a.entry.queue = b.entry.queue → a.entry.drain ≠ b.entry.drain) :
    ofDrain q d one++ofDrain q d two = ofDrain q d two++ofDrain q d one := by
  by_cases none : ofDrain q d one = []
  · rw [none,List.nil_append,List.append_nil]
  · obtain ⟨a,member⟩ := List.exists_mem_of_ne_nil _ none
    obtain ⟨inside,rfl,rfl⟩ := mem_ofDrain.mp member
    have empty : ofDrain a.entry.queue a.entry.drain two = [] := by
      refine ofDrain_empty ?_
      intro b there queue drain
      exact apart a inside b there queue.symm drain.symm
    rw [empty,List.nil_append,List.append_nil]

end Logs

def Item.what (item : Item) : DrainQueue×List Op := (item.entry.queue,item.body)

-- What waiting items are still to push.
def due (c : Setting) (nested : Bool) (items : List Item) : List (DrainQueue×List Op) :=
  items.flatMap (fun item => pushesOf c nested item.body)

-- What a piece of the run pushed and what the items it left waiting are to push
-- come to what it was to push.
def Paid (c : Setting) (nested : Bool) (pushed : List Item) (new : DrainQueue → List Item) (owed : List (DrainQueue×List Op)) : Prop :=
  ∀ p : DrainQueue×List Op → Bool,
    (pushed.map Item.what).countP p+(due c nested (new .resume)).countP p+(due c nested (new .inline)).countP p = owed.countP p

section Payments

variable {c : Setting} {nested : Bool}

@[simp] theorem due_nil : due c nested [] = [] := rfl

@[simp] theorem due_append (one two : List Item) : due c nested (one++two) = due c nested one++due c nested two := List.flatMap_append

@[simp] theorem due_cons (item : Item) (items : List Item) :
    due c nested (item :: items) = pushesOf c nested item.body++due c nested items := List.flatMap_cons

theorem Paid.none : Paid c nested [] (fun _ => []) [] := fun _ => rfl

theorem Paid.trans {new newer : DrainQueue → List Item} (first : Paid c nested pushed new owed) (second : Paid c nested more newer later) :
    Paid c nested (pushed++more) (fun q => new q++newer q) (owed++later) := by
  intro p
  have one := first p
  have two := second p
  simp only [List.map_append,due_append,List.countP_append]
  omega

-- A drain pays for the items that waited with those it was given meanwhile, and
-- leaves none behind in its own queue.
theorem Paid.turn {new newer : DrainQueue → List Item} (first : Paid c nested pushed new (pushesOf c nested item.body))
    (second : Paid c nested more newer (due c nested (items++new q))) (none : newer q = []) :
    Paid c nested (pushed++more) (Function.update (fun o => new o++newer o) q []) (due c nested (item :: items)) := by
  intro p
  have one := first p
  have two := second p
  cases q <;> simp [none] at one two ⊢ <;> omega

theorem pushes_yield (own : Priority) (high normal : Option (List Op)) :
    Op.pushes c nested (.yieldPoint own high normal) = match popped c nested own high normal with
      | some task => pushesOf c true task
      | none => [] := by
  unfold Op.pushes popped
  split
  · rfl
  · cases high with
    | some task => rfl
    | none => cases normal <;> cases own <;> rfl

end Payments

def height (s : Thread) : Nat := s.frames.length

-- How much code waits in a list of items.
noncomputable def weight (items : List Item) : Nat := (items.map (fun item => 1+sizeOf item.body)).sum

@[simp] theorem weight_append (one two : List Item) : weight (one++two) = weight one+weight two := by
  simp [weight]

-- A queue that no drain runs is empty; a drain that runs has its name already.
structure Slots.Proper (count : Nat) (s : Slots) : Prop where
  idle : s.draining = false → s.pending = []
  named : s.draining = true → s.drain < count

def Thread.Proper (s : Thread) : Prop := ∀ q, (s.queues q).Proper s.pushed.length

-- A queue between two moments of one level: items are appended, to the drain
-- that runs all the while.
structure Kept (q : DrainQueue) (s t : Slots) (new : List Item) : Prop where
  draining : t.draining = s.draining
  drain : s.draining = true → t.drain = s.drain
  pending : t.pending = s.pending++new.map some
  idle : s.draining = false → new = []
  owned : ∀ item ∈ new, item.entry.queue = q ∧ item.entry.drain = s.drain

-- What a piece of the run pushed and ran, `items` waiting when it began and `new`
-- when it ended. It runs nothing of the other drains it found.
structure Outcome (items : List Item) (s t : Thread) (new : DrainQueue → List Item) (pushed ran : List Item) : Prop where
  nesting : t.nesting = s.nesting
  stopped : t.stopped = none
  pushes : t.pushed = s.pushed++pushed
  runs : t.ran = s.ran++ran
  account : ∀ q d, ofDrain q d items++ofDrain q d pushed = ofDrain q d ran++ofDrain q d (new q)
  quiet : ∀ e ∈ ran, s.pushed.length ≤ e.entry.drain ∨
    ∃ item ∈ items, item.entry.queue = e.entry.queue ∧ item.entry.drain = e.entry.drain

structure Executed (c : Setting) (floor : Nat) (s t : Thread) (new : DrainQueue → List Item) (pushed ran : List Item) :
    Prop where
  inside : Inside (Thread.step c) height floor s t
  outcome : Outcome [] s t new pushed ran
  kept : ∀ q, Kept q (s.queues q) (t.queues q) (new q)

section Pieces

variable {c : Setting} {floor : Nat} {s t u : Thread} {q : DrainQueue} {items : List Item}
  {new newer : DrainQueue → List Item} {pushed ran : List Item}

theorem Kept.refl (s : Slots) : Kept q s s [] := ⟨rfl,fun _ => rfl,by simp,fun _ => rfl,by simp⟩

theorem Kept.trans {s t u : Slots} {one two : List Item} (first : Kept q s t one) (second : Kept q t u two) :
    Kept q s u (one++two) := by
  refine ⟨second.draining.trans first.draining,?_,?_,?_,?_⟩
  · intro busy
    rw [second.drain (first.draining.trans busy),first.drain busy]
  · rw [second.pending,first.pending,List.map_append,List.append_assoc]
  · intro idle
    rw [first.idle idle,second.idle (first.draining.trans idle),List.append_nil]
  · intro item member
    rcases List.mem_append.mp member with early | late
    · exact first.owned item early
    · obtain ⟨queue,drain⟩ := second.owned item late
      refine ⟨queue,?_⟩
      cases busy : s.draining with
      | true => rw [drain,first.drain busy]
      | false =>
        rw [second.idle (first.draining.trans busy)] at late
        cases late

theorem Kept.proper {s t : Slots} {one : List Item} (kept : Kept q s t one) (proper : s.Proper count) (more : count ≤ later) :
    t.Proper later := by
  refine ⟨fun idle => ?_,fun busy => ?_⟩
  · have before : s.draining = false := kept.draining.symm.trans idle
    rw [kept.pending,proper.idle before,kept.idle before]
    rfl
  · have before : s.draining = true := kept.draining.symm.trans busy
    rw [kept.drain before]
    exact Nat.lt_of_lt_of_le (proper.named before) more

-- The items a queue was given belong to a drain that was there before.
theorem Kept.earlier {s t : Slots} {one : List Item} (kept : Kept q s t one) (proper : s.Proper count)
    (member : item ∈ one) : item.entry.drain < count := by
  rw [(kept.owned item member).2]
  refine proper.named ?_
  by_contra idle
  rw [kept.idle (by simpa using idle)] at member
  cases member

theorem Outcome.refl (sound : s.stopped = none) : Outcome [] s s (fun _ => []) [] [] :=
  ⟨rfl,sound,by simp,by simp,by simp,by simp⟩

theorem Outcome.later (outcome : Outcome items s t new pushed ran) : s.pushed.length ≤ t.pushed.length := by
  rw [outcome.pushes,List.length_append]
  omega

theorem Outcome.trans {more : List Item} (first : Outcome [] s t new pushed ran)
    (kept : ∀ q, Kept q (s.queues q) (t.queues q) (new q)) (proper : s.Proper)
    (second : Outcome [] t u newer morePushed more) :
    Outcome [] s u (fun q => new q++newer q) (pushed++morePushed) (ran++more) := by
  refine ⟨second.nesting.trans first.nesting,second.stopped,?_,?_,?_,?_⟩
  · rw [second.pushes,first.pushes,List.append_assoc]
  · rw [second.runs,first.runs,List.append_assoc]
  · intro q d
    have one := first.account q d
    have two := second.account q d
    have swap : ofDrain q d (new q)++ofDrain q d more = ofDrain q d more++ofDrain q d (new q) := by
      refine ofDrain_swap ?_
      intro a waiting b late _ same
      have early := (kept q).earlier (proper q) waiting
      have fresh := (second.quiet b late).resolve_right (by simp)
      have longer := first.later
      omega
    simp only [ofDrain_nil,List.nil_append,ofDrain_append] at one two ⊢
    rw [one,two,List.append_assoc,← List.append_assoc _ (ofDrain q d more),swap]
    simp only [List.append_assoc]
  · intro e member
    have longer := first.later
    rcases List.mem_append.mp member with early | late
    · exact first.quiet e early
    · have fresh := (second.quiet e late).resolve_right (by simp)
      exact .inl (by omega)

theorem Executed.trans {more : List Item} (first : Executed c floor s t new pushed ran) (proper : s.Proper)
    (second : Executed c floor t u newer morePushed more) :
    Executed c floor s u (fun q => new q++newer q) (pushed++morePushed) (ran++more) :=
  ⟨first.inside.trans second.inside,first.outcome.trans first.kept proper second.outcome,
    fun q => (first.kept q).trans (second.kept q)⟩

theorem Executed.proper (executed : Executed c floor s t new pushed ran) (proper : s.Proper) : t.Proper :=
  fun q => (executed.kept q).proper (proper q) executed.outcome.later

end Pieces

section Steps

variable {c : Setting} {s : Thread} {q : DrainQueue} {ops : List Op} {caller : List StackFrame}

theorem step_code_nil (sound : s.stopped = none) (frames : s.frames = .code [] :: caller) :
    s.step c = { s with frames := caller } := by
  simp [Thread.step,sound,frames]

theorem step_push (sound : s.stopped = none) (frames : s.frames = .code (.push q body :: ops) :: caller) :
    s.step c = s.pushAndDrain q body (.code ops :: caller) := by
  simp [Thread.step,sound,frames]

theorem step_yield_on (sound : s.stopped = none) (frames : s.frames = .code (.yieldPoint own high normal :: ops) :: caller)
    (none : popped c s.nesting own high normal = none) : s.step c = { s with frames := .code ops :: caller } := by
  simp [Thread.step,sound,frames,none]

theorem step_yield (sound : s.stopped = none) (frames : s.frames = .code (.yieldPoint own high normal :: ops) :: caller)
    (taken : popped c s.nesting own high normal = some task) : s.step c = s.enterScope task (.code ops :: caller) := by
  simp [Thread.step,sound,frames,taken]

theorem step_drain (sound : s.stopped = none) (frames : s.frames = .drain q head :: caller) :
    s.step c = s.loop q head caller := by
  simp [Thread.step,sound,frames]

theorem step_scope {resume inline : DrainState} (sound : s.stopped = none) (frames : s.frames = .scope resume inline :: caller) :
    s.step c = s.leaveScope c resume inline caller := by
  simp [Thread.step,sound,frames]

theorem popped_nesting (taken : popped c nested own high normal = some task) : nested = false := by
  unfold popped at taken
  split at taken
  · cases taken
  · rename_i free
    simp only [Bool.or_eq_true,not_or] at free
    exact Bool.not_eq_true _ ▸ free.1.2

theorem popped_from (taken : popped c nested own high normal = some task) : high = some task ∨ normal = some task := by
  unfold popped at taken
  split at taken
  · cases taken
  · cases high with
    | some entry => exact .inl taken
    | none =>
      simp only [Option.orElse_none] at taken
      split at taken
      · exact .inr taken
      · cases taken

theorem reattach_idle {slots : Slots} (checks : Bool) (state : DrainState) (idle : slots.draining = false) (empty : slots.pending = []) :
    slots.reattach checks state = some ⟨state.pending,[],state.draining,state.drain⟩ := by
  simp [Slots.reattach,idle,empty]

theorem one_step (sound : s.frames.length = caller.length+1) : Inside (Thread.step c) height caller.length s (s.step c) :=
  Inside.head (by unfold height; omega) .refl

end Steps

section Pushes

variable {c : Setting} {s : Thread} {q : DrainQueue} {body ops : List Op} {caller : List StackFrame}

-- What a push gives its queue where a drain runs.
def pushedItem (s : Thread) (q : DrainQueue) (body : List Op) : Item := ⟨⟨q,(s.queues q).drain,s.pushed.length⟩,body⟩

theorem push_waits (sound : s.stopped = none) (frames : s.frames = .code (.push q body :: ops) :: caller)
    (busy : (s.queues q).draining = true) :
    (s.step c).frames = .code ops :: caller ∧
      Executed c caller.length s (s.step c) (Function.update (fun _ => []) q [pushedItem s q body])
        [pushedItem s q body] [] := by
  have inside : Inside (Thread.step c) height caller.length s (s.step c) := one_step (by simp [frames])
  rw [step_push sound frames] at inside ⊢
  refine ⟨by simp [Thread.pushAndDrain,busy],inside,⟨rfl,sound,?_,by simp [Thread.pushAndDrain,Thread.setSlots],?_,by simp⟩,?_⟩
  · simp [Thread.pushAndDrain,busy,pushedItem]
  · intro o d
    by_cases same : o = q
    · subst same
      simp
    · have apart : ofDrain o d [pushedItem s q body] = [] := by
        refine ofDrain_empty ?_
        intro e member queue
        rw [List.mem_singleton.mp member] at queue
        exact absurd queue.symm same
      simp [same,apart]
  · intro o
    by_cases same : o = q
    · subst same
      rw [Function.update_self]
      refine ⟨?_,?_,?_,?_,?_⟩ <;> simp [Thread.pushAndDrain,Thread.setSlots,busy,pushedItem]
    · rw [Function.update_of_ne same]
      have others : (s.pushAndDrain q body (.code ops :: caller)).queues o = s.queues o := by
        simp [Thread.pushAndDrain,Thread.setSlots,same]
      rw [others]
      exact Kept.refl _

end Pushes

-- A drain from the top of its loop to its return.
structure Drained (c : Setting) (q : DrainQueue) (items : List Item) (floor : Nat) (s t : Thread)
    (new : DrainQueue → List Item) (pushed ran : List Item) : Prop where
  inside : Inside (Thread.step c) height floor s t
  outcome : Outcome items s t new pushed ran
  ended : (t.queues q).draining = false
  empty : (t.queues q).pending = []
  none : new q = []
  kept : ∀ o, o ≠ q → Kept o (s.queues o) (t.queues o) (new o)

-- The loop of a running drain, `items` still to come from its index on.
structure Looping (q : DrainQueue) (head : Nat) (items : List Item) (caller : List StackFrame) (s : Thread) : Prop where
  sound : s.stopped = none
  frames : s.frames = .drain q head :: caller
  proper : s.Proper
  busy : (s.queues q).draining = true
  waiting : (s.queues q).pending.drop head = items.map some
  owned : ∀ item ∈ items, item.entry.queue = q ∧ item.entry.drain = (s.queues q).drain

section Drains

variable {c : Setting} {s : Thread} {q : DrainQueue} {head : Nat} {item : Item} {items : List Item} {caller : List StackFrame}

theorem Looping.ends (loop : Looping q head [] caller s) :
    (s.step c).frames = caller ∧ Drained c q [] caller.length s (s.step c) (fun _ => []) [] [] := by
  have inside : Inside (Thread.step c) height caller.length s (s.step c) := one_step (by simp [loop.frames])
  have past : (s.queues q).pending[head]? = none := by
    rw [List.getElem?_eq_none_iff]
    exact List.drop_eq_nil_iff.mp loop.waiting
  have after : s.step c = { s.setSlots q { s.queues q with pending := [], draining := false } with frames := caller } := by
    rw [step_drain loop.sound loop.frames]
    simp [Thread.loop,past]
  refine ⟨by rw [after],inside,?_,?_,?_,rfl,?_⟩
  · rw [after]
    exact ⟨rfl,loop.sound,by simp [Thread.setSlots],by simp [Thread.setSlots],by simp,by simp⟩
  · simp [after,Thread.setSlots]
  · simp [after,Thread.setSlots]
  · intro o other
    have same : (s.step c).queues o = s.queues o := by simp [after,Thread.setSlots,other]
    rw [same]
    exact Kept.refl _

theorem Looping.next (loop : Looping q head (item :: items) caller s) :
    s.step c = { s.setSlots q { s.queues q with pending := (s.queues q).pending.set head (Thread.leaves q item) } with
      frames := .code item.body :: .drain q (head+1) :: caller
      ran := s.ran++[item] } := by
  have here : (s.queues q).pending[head]? = some (some item) := by
    rw [← List.head?_drop,loop.waiting]
    rfl
  rw [step_drain loop.sound loop.frames]
  simp [Thread.loop,here]

theorem Looping.proper_next (loop : Looping q head (item :: items) caller s) : (s.step c).Proper := by
  intro o
  rw [loop.next]
  by_cases same : o = q
  · subst same
    exact ⟨fun idle => by simp [Thread.setSlots,loop.busy] at idle,
      fun _ => by simpa [Thread.setSlots] using (loop.proper o).named loop.busy⟩
  · simpa [Thread.setSlots,same] using loop.proper o

theorem Looping.waited (loop : Looping q head (item :: items) caller s)
    (executed : Executed c floor (s.step c) t new pushed ran) (member : x ∈ items++new q) :
    x.entry.queue = q ∧ x.entry.drain = (s.queues q).drain := by
  rcases List.mem_append.mp member with early | late
  · exact loop.owned x (List.mem_cons_of_mem _ early)
  · have owned := (executed.kept q).owned x late
    rw [loop.next] at owned
    simpa [Thread.setSlots] using owned

-- Back from an item's code: the vector has grown under the loop, its rest comes
-- before what was pushed meanwhile.
theorem Looping.back (loop : Looping q head (item :: items) caller s)
    (executed : Executed c (caller.length+1) (s.step c) t new pushed ran) (frames : t.frames = .drain q (head+1) :: caller) :
    Looping q (head+1) (items++new q) caller t := by
  have next := loop.next (c := c)
  have kept := executed.kept q
  have slots : (s.step c).queues q = { s.queues q with pending := (s.queues q).pending.set head (Thread.leaves q item) } := by
    rw [next]
    simp [Thread.setSlots]
  rw [slots] at kept
  have long : head < (s.queues q).pending.length := by
    by_contra short
    have waiting := loop.waiting
    rw [List.drop_eq_nil_of_le (by omega)] at waiting
    cases waiting
  refine ⟨executed.outcome.stopped,frames,executed.proper loop.proper_next,kept.draining.trans loop.busy,?_,?_⟩
  · have rest : (s.queues q).pending.drop (head+1) = items.map some := by
      rw [← List.tail_drop,loop.waiting]
      rfl
    rw [kept.pending,List.drop_append_of_le_length (by simp only [List.length_set]; omega),
      List.drop_set_of_lt (by omega),rest,List.map_append]
  · intro other member
    rw [kept.drain loop.busy]
    exact loop.waited executed member

end Drains

section Turns

variable {c : Setting} {s t u : Thread} {q : DrainQueue} {head : Nat} {item : Item} {items : List Item}
  {caller : List StackFrame} {new newer : DrainQueue → List Item} {pushed morePushed ran more : List Item}

-- One item and the drain after it: in each log of one drain the item's own pushes
-- come behind those that waited.
theorem Looping.account (loop : Looping q head (item :: items) caller s)
    (executed : Executed c (caller.length+1) (s.step c) t new pushed ran)
    (drained : Drained c q (items++new q) caller.length t u newer morePushed more) (o : DrainQueue) (d : Nat) :
    ofDrain o d (item :: items)++ofDrain o d (pushed++morePushed) =
      ofDrain o d (item :: (ran++more))++ofDrain o d (Function.update (fun o => new o++newer o) q [] o) := by
  have pushes : (s.step c).pushed = s.pushed := by
    rw [loop.next]
    rfl
  have one := executed.outcome.account o d
  have two := drained.outcome.account o d
  have first : ofDrain o d (item :: (ran++more)) = ofDrain o d [item]++(ofDrain o d ran++ofDrain o d more) := by
    rw [← ofDrain_append,← ofDrain_append]
    rfl
  have waits : ofDrain o d (item :: items) = ofDrain o d [item]++ofDrain o d items := by
    rw [← ofDrain_append]
    rfl
  simp only [ofDrain_nil,List.nil_append,ofDrain_append] at one two
  rw [first,waits,ofDrain_append,one]
  by_cases same : o = q
  · subst same
    have swap : ofDrain o d items++ofDrain o d ran = ofDrain o d ran++ofDrain o d items := by
      refine ofDrain_swap ?_
      intro a waiting b late _ equal
      have early := (loop.proper o).named loop.busy
      rw [← (loop.owned a (List.mem_cons_of_mem _ waiting)).2] at early
      have fresh := (executed.outcome.quiet b late).resolve_right (by simp)
      rw [pushes] at fresh
      omega
    rw [drained.none,ofDrain_nil,List.append_nil] at two
    simp only [Function.update_self,ofDrain_nil,List.append_nil]
    rw [← two]
    simp only [List.append_assoc]
    rw [← List.append_assoc (ofDrain o d items),swap]
    simp only [List.append_assoc]
  · have apart (xs : List Item) (owned : ∀ x ∈ xs, x.entry.queue = q) : ofDrain o d xs = [] := by
      refine ofDrain_empty ?_
      intro x inside queue
      exact absurd (queue.symm.trans (owned x inside)) same
    have waited : ∀ x ∈ items++new q, x.entry.queue = q := fun x member => (loop.waited executed member).1
    have swap : ofDrain o d (new o)++ofDrain o d more = ofDrain o d more++ofDrain o d (new o) := by
      refine ofDrain_swap ?_
      intro x member b late queue
      have early := (executed.kept o).earlier (loop.proper_next o) member
      have longer := executed.outcome.later
      rcases drained.outcome.quiet b late with fresh | ⟨i,inside,shares,_⟩
      · omega
      · exact absurd ((((executed.kept o).owned x member).1.symm.trans queue).trans (shares.symm.trans (waited i inside))) same
    have none := apart (items++new q) waited
    rw [ofDrain_append] at none
    rw [none,List.nil_append] at two
    rw [apart items (fun x member => waited x (List.mem_append_left _ member)),Function.update_of_ne same,two,ofDrain_append]
    simp only [List.append_nil,List.append_assoc]
    rw [← List.append_assoc (ofDrain o d (new o)),swap]
    simp only [List.append_assoc]

theorem Looping.turn (loop : Looping q head (item :: items) caller s)
    (executed : Executed c (caller.length+1) (s.step c) t new pushed ran)
    (drained : Drained c q (items++new q) caller.length t u newer morePushed more) :
    Drained c q (item :: items) caller.length s u (Function.update (fun o => new o++newer o) q []) (pushed++morePushed)
      (item :: (ran++more)) := by
  have next := loop.next (c := c)
  have pushes : (s.step c).pushed = s.pushed := by
    rw [next]
    rfl
  have runs : (s.step c).ran = s.ran++[item] := by rw [next]
  have longer := executed.outcome.later
  rw [pushes] at longer
  have inside : Inside (Thread.step c) height caller.length s u :=
    .head (by simp [height,loop.frames]) ((executed.inside.lower (Nat.le_succ _)).trans drained.inside)
  refine ⟨inside,⟨?_,drained.outcome.stopped,?_,?_,loop.account executed drained,?_⟩,drained.ended,drained.empty,by simp,?_⟩
  · rw [drained.outcome.nesting,executed.outcome.nesting,next]
    rfl
  · rw [drained.outcome.pushes,executed.outcome.pushes,pushes,List.append_assoc]
  · rw [drained.outcome.runs,executed.outcome.runs,runs]
    simp
  · intro e member
    rcases List.mem_cons.mp member with same | member
    · rw [same]
      exact .inr ⟨item,List.mem_cons_self,rfl,rfl⟩
    · rcases List.mem_append.mp member with early | late
      · have fresh := (executed.outcome.quiet e early).resolve_right (by simp)
        rw [pushes] at fresh
        exact .inl fresh
      · rcases drained.outcome.quiet e late with fresh | ⟨i,inside,queue,drain⟩
        · exact .inl (longer.trans fresh)
        · obtain ⟨mine,named⟩ := loop.owned item List.mem_cons_self
          obtain ⟨other,alike⟩ := loop.waited executed inside
          exact .inr ⟨item,List.mem_cons_self,(mine.trans other.symm).trans queue,(named.trans alike.symm).trans drain⟩
  · intro o other
    have same : (s.step c).queues o = s.queues o := by
      rw [next]
      simp [Thread.setSlots,other]
    have kept := executed.kept o
    rw [same] at kept
    rw [Function.update_of_ne other]
    exact kept.trans (drained.kept o other)

end Turns

-- Every run of code of size below `n`, and every drain of items that weigh less,
-- comes to its return.
def Executes (c : Setting) (n : Nat) : Prop :=
  ∀ ops s caller, sizeOf ops < n → s.stopped = none → s.Proper → s.frames = .code ops :: caller →
    ∃ t new pushed ran, t.frames = caller ∧ Executed c caller.length s t new pushed ran ∧
      Paid c s.nesting pushed new (pushesOf c s.nesting ops) ∧ weight (new .resume)+weight (new .inline) ≤ sizeOf ops

def Drains (c : Setting) (n : Nat) : Prop :=
  ∀ q head items s caller, weight items < n → Looping q head items caller s →
    ∃ t new pushed ran, t.frames = caller ∧ Drained c q items caller.length s t new pushed ran ∧
      Paid c s.nesting pushed new (due c s.nesting items) ∧ weight (new .resume)+weight (new .inline) ≤ weight items

section Calls

variable {c : Setting} {s t : Thread} {q : DrainQueue} {body ops task : List Op} {caller : List StackFrame}
  {new : DrainQueue → List Item} {pushed ran : List Item}

theorem drains_next (execute : Executes c n) (drain : Drains c n) : Drains c (n+1) := by
  intro q head items s caller short loop
  cases items with
  | nil =>
    obtain ⟨frames,drained⟩ := loop.ends (c := c)
    exact ⟨_,_,_,_,frames,drained,.none,Nat.le_refl 0⟩
  | cons item items =>
    have next := loop.next (c := c)
    have size : weight (item :: items) = 1+sizeOf item.body+weight items := by simp [weight]
    obtain ⟨t,new,pushed,ran,frames,executed,paid,room⟩ := execute item.body (s.step c) (.drain q (head+1) :: caller) (by omega)
      (by rw [next]; exact loop.sound) loop.proper_next (by rw [next])
    have queued : weight (new q) ≤ weight (new .resume)+weight (new .inline) := by cases q <;> omega
    have rest : weight (items++new q) < n := by
      rw [weight_append]
      omega
    obtain ⟨u,newer,morePushed,more,back,drained,also,left⟩ := drain q (head+1) (items++new q) t caller rest (loop.back executed frames)
    have nesting : (s.step c).nesting = s.nesting := by
      rw [next]
      rfl
    rw [executed.outcome.nesting] at also
    rw [nesting] at paid also
    refine ⟨u,_,_,_,back,loop.turn executed drained,paid.turn also drained.none,?_⟩
    rw [weight_append] at left
    cases q <;> simp [weight] at * <;> omega

-- A push that finds no drain runs one: the call returns with its queue empty.
theorem push_drains (drain : Drains c n) (short : sizeOf body+1 < n) (sound : s.stopped = none) (proper : s.Proper)
    (frames : s.frames = .code (.push q body :: ops) :: caller) (idle : (s.queues q).draining = false) :
    ∃ t new pushed ran, t.frames = .code ops :: caller ∧ Inside (Thread.step c) height (caller.length+1) (s.step c) t ∧
      Executed c caller.length s t new pushed ran ∧ new q = [] ∧
      Paid c s.nesting pushed new ((q,body) :: pushesOf c s.nesting body) ∧
      weight (new .resume)+weight (new .inline) ≤ 1+sizeOf body := by
  let item : Item := ⟨⟨q,s.pushed.length,s.pushed.length⟩,body⟩
  have entered : s.step c = { s.setSlots q { s.queues q with pending := [some item], draining := true, drain := s.pushed.length } with
      frames := .drain q 0 :: .code ops :: caller
      pushed := s.pushed++[item] } := by
    rw [step_push sound frames]
    simp [Thread.pushAndDrain,idle,(proper q).idle idle,item]
  have others (o : DrainQueue) (other : o ≠ q) : (s.step c).queues o = s.queues o := by
    rw [entered]
    simp [Thread.setSlots,other]
  have loop : Looping q 0 [item] (.code ops :: caller) (s.step c) := by
    refine ⟨by rw [entered]; exact sound,by rw [entered],?_,?_,?_,?_⟩
    · intro o
      by_cases same : o = q
      · subst same
        rw [entered]
        exact ⟨fun none => by simp [Thread.setSlots] at none,fun _ => by simp [Thread.setSlots]⟩
      · rw [others o same]
        refine ⟨(proper o).idle,fun busy => ?_⟩
        rw [entered]
        simp only [List.length_append]
        exact Nat.lt_of_lt_of_le ((proper o).named busy) (Nat.le_add_right _ _)
    all_goals simp [entered,Thread.setSlots,item]
  obtain ⟨t,new,pushed,ran,back,drained,paid,room⟩ := drain q 0 [item] (s.step c) (.code ops :: caller) (by simp [weight,item]; omega) loop
  have nesting : (s.step c).nesting = s.nesting := by
    rw [entered]
    rfl
  refine ⟨t,new,item :: pushed,ran,back,drained.inside,⟨?_,⟨?_,drained.outcome.stopped,?_,?_,?_,?_⟩,?_⟩,drained.none,?_,?_⟩
  · exact .head (by simp [height,frames]) (drained.inside.lower (by simp))
  · exact drained.outcome.nesting.trans nesting
  · rw [drained.outcome.pushes,entered]
    simp
  · rw [drained.outcome.runs,entered]
    rfl
  · intro o d
    have account := drained.outcome.account o d
    rw [← account]
    rw [ofDrain_nil,List.nil_append,← ofDrain_append]
    rfl
  · intro e member
    left
    rcases drained.outcome.quiet e member with fresh | ⟨i,inside,_,drain⟩
    · rw [entered] at fresh
      simp only [List.length_append] at fresh
      omega
    · rw [← drain,List.mem_singleton.mp inside]
  · intro o
    by_cases same : o = q
    · subst same
      rw [drained.none]
      refine ⟨drained.ended.trans idle.symm,fun busy => absurd (idle.symm.trans busy) Bool.false_ne_true,?_,fun _ => rfl,by simp⟩
      rw [drained.empty,(proper o).idle idle]
      rfl
    · rw [← others o same]
      exact drained.kept o same
  · intro p
    have sum := paid p
    have whole : due c s.nesting [item] = pushesOf c s.nesting body := by simp [item]
    rw [nesting,whole] at sum
    change ((q,body) :: pushed.map Item.what).countP p+_+_ = _
    rw [List.countP_cons,List.countP_cons]
    omega
  · simpa [weight,item] using room

theorem enterScope_slots (s : Thread) (task : List Op) (caller : List StackFrame) (q : DrainQueue) :
    (s.enterScope task caller).queues q = (s.queues q).detach.2 := by
  cases q <;> simp [Thread.enterScope,Thread.setSlots]

-- Over two idle queues both reattaches pass their check.
theorem leaveScope_idle {resume inline : DrainState} (idle : ∀ q, (t.queues q).draining = false ∧ (t.queues q).pending = []) :
    t.leaveScope c resume inline caller =
      { (t.setSlots .inline ⟨inline.pending,[],inline.draining,inline.drain⟩).setSlots .resume
          ⟨resume.pending,[],resume.draining,resume.drain⟩ with
        frames := caller
        nesting := false } := by
  have one := reattach_idle c.safetyChecks inline (idle .inline).1 (idle .inline).2
  have two := reattach_idle c.safetyChecks resume (idle .resume).1 (idle .resume).2
  simp [Thread.leaveScope,one,two]

-- A yield point that finds an entry runs it to its end, and puts both queues back
-- as they were.
theorem yield_returns (execute : Executes c n) (short : sizeOf task < n) (sound : s.stopped = none)
    (frames : s.frames = .code (.yieldPoint own high normal :: ops) :: caller) (taken : popped c s.nesting own high normal = some task) :
    ∃ t pushed ran, t.frames = .code ops :: caller ∧ Inside (Thread.step c) height (caller.length+1) (s.step c) t ∧
      Executed c caller.length s t (fun _ => []) pushed ran ∧ Paid c s.nesting pushed (fun _ => []) (pushesOf c true task) := by
  have entered := step_yield (c := c) sound frames taken
  have detached (q : DrainQueue) : (s.step c).queues q = ⟨[],[],false,(s.queues q).drain⟩ := by
    rw [entered,enterScope_slots]
    rfl
  have inner : (s.step c).Proper := by
    intro q
    rw [detached]
    exact ⟨fun _ => rfl,nofun⟩
  obtain ⟨t,new,pushed,ran,back,executed,paid,_⟩ := execute task (s.step c)
    (.scope (s.queues .resume).detach.1 (s.queues .inline).detach.1 :: .code ops :: caller) short
    (by rw [entered]; exact sound) inner (by rw [entered]; rfl)
  have none (q : DrainQueue) : new q = [] := (executed.kept q).idle (by rw [detached])
  have idle (q : DrainQueue) : (t.queues q).draining = false ∧ (t.queues q).pending = [] := by
    refine ⟨(executed.kept q).draining.trans (by rw [detached]),?_⟩
    rw [(executed.kept q).pending,none,detached]
    rfl
  have left : t.step c = _ := (step_scope executed.outcome.stopped back).trans (leaveScope_idle idle)
  have restored (q : DrainQueue) : (t.step c).queues q = ⟨(s.queues q).pending,[],(s.queues q).draining,(s.queues q).drain⟩ := by
    rw [left]
    cases q <;> simp [Thread.setSlots,Slots.detach]
  have steps : Inside (Thread.step c) height (caller.length+1) (s.step c) (t.step c) :=
    (executed.inside.lower (by simp)).trans (.head (by simp [height,back]) .refl)
  refine ⟨t.step c,pushed,ran,by rw [left],steps,⟨.head (by simp [height,frames]) (steps.lower (Nat.le_succ _)),?_,?_⟩,?_⟩
  · refine ⟨?_,?_,?_,?_,?_,?_⟩
    · rw [left]
      exact (popped_nesting taken).symm
    · rw [left]
      exact executed.outcome.stopped
    · rw [left]
      exact executed.outcome.pushes.trans (by rw [entered]; rfl)
    · rw [left]
      exact executed.outcome.runs.trans (by rw [entered]; rfl)
    · intro q d
      have account := executed.outcome.account q d
      rwa [none] at account
    · intro e member
      have fresh := executed.outcome.quiet e member
      rwa [entered] at fresh
  · intro q
    rw [restored]
    exact ⟨rfl,fun _ => rfl,by simp,fun _ => rfl,by simp⟩
  · intro p
    have sum := paid p
    rw [none,none,entered] at sum
    exact sum

-- A step that only returns or goes on.
theorem frames_step {frames : List StackFrame} (sound : s.stopped = none) (above : floor < height s)
    (after : s.step c = { s with frames }) : Executed c floor s (s.step c) (fun _ => []) [] [] := by
  refine ⟨.head above .refl,?_,?_⟩
  · rw [after]
    exact ⟨rfl,sound,by simp,by simp,by simp,by simp⟩
  · rw [after]
    exact fun q => .refl _

theorem op_executes (execute : Executes c n) (drain : Drains c n) (short : sizeOf op < n) (sound : s.stopped = none)
    (proper : s.Proper) (frames : s.frames = .code (op :: ops) :: caller) :
    ∃ t new pushed ran, t.frames = .code ops :: caller ∧ Executed c caller.length s t new pushed ran ∧
      Paid c s.nesting pushed new (op.pushes c s.nesting) ∧ weight (new .resume)+weight (new .inline) ≤ sizeOf op := by
  cases op with
  | push q body =>
    have size : sizeOf (Op.push q body) = 1+sizeOf q+sizeOf body := by simp
    cases busy : (s.queues q).draining with
    | true =>
      obtain ⟨back,executed⟩ := push_waits (c := c) sound frames busy
      refine ⟨_,_,_,_,back,executed,?_,?_⟩
      · intro p
        cases q <;> simp [pushedItem,Item.what,Op.pushes,List.countP_cons] <;> omega
      · cases q <;> simp [weight,pushedItem]
    | false =>
      obtain ⟨t,new,pushed,ran,back,_,executed,_,paid,room⟩ := push_drains drain (by omega) sound proper frames busy
      exact ⟨t,new,pushed,ran,back,executed,paid,by omega⟩
  | yieldPoint own high normal =>
    cases taken : popped c s.nesting own high normal with
    | none =>
      have on := step_yield_on (c := c) sound frames taken
      refine ⟨s.step c,_,[],[],by rw [on],frames_step sound (by simp [height,frames]) on,?_,by simp [weight]⟩
      rw [pushes_yield,taken]
      exact .none
    | some task =>
      have size : sizeOf task < n := by
        have whole : sizeOf (Op.yieldPoint own high normal) = 1+sizeOf own+sizeOf high+sizeOf normal := by simp
        rcases popped_from taken with rfl | rfl
        · have part : sizeOf (some task) = 1+sizeOf task := by simp
          omega
        · have part : sizeOf (some task) = 1+sizeOf task := by simp
          omega
      obtain ⟨t,pushed,ran,back,_,executed,paid⟩ := yield_returns execute size sound frames taken
      refine ⟨t,_,pushed,ran,back,executed,?_,by simp [weight]⟩
      rw [pushes_yield,taken]
      exact paid

theorem executes_next (execute : Executes c n) (drain : Drains c n) : Executes c (n+1) := by
  intro ops s caller short sound proper frames
  cases ops with
  | nil =>
    have done := step_code_nil (c := c) sound frames
    exact ⟨s.step c,_,[],[],by rw [done],frames_step sound (by simp [height,frames]) done,.none,by simp [weight]⟩
  | cons op ops =>
    have size : sizeOf (op :: ops) = 1+sizeOf op+sizeOf ops := by simp
    obtain ⟨t,new,pushed,ran,back,executed,paid,room⟩ := op_executes execute drain (by omega) sound proper frames
    obtain ⟨u,newer,morePushed,more,home,rest,also,left⟩ := execute ops t caller (by omega) executed.outcome.stopped
      (executed.proper proper) back
    rw [executed.outcome.nesting] at also
    refine ⟨u,_,_,_,home,executed.trans proper rest,paid.trans also,?_⟩
    simp only [weight_append]
    omega

theorem calls_return (c : Setting) (n : Nat) : Executes c n ∧ Drains c n := by
  induction n with
  | zero => exact ⟨fun _ _ _ short => absurd short (Nat.not_lt_zero _),fun _ _ _ _ _ short => absurd short (Nat.not_lt_zero _)⟩
  | succ n ih => exact ⟨executes_next ih.1 ih.2,drains_next ih.1 ih.2⟩

end Calls

end Macrame.NestedDispatch

import Macrame.NestedDispatchLaws
import Mathlib.Data.List.Nodup
import Mathlib.Data.List.Count

namespace Macrame.NestedDispatch
open Machines

def StackFrame.isScope : StackFrame → Bool
  | .scope _ _ => true
  | _ => false

-- What a scope keeps, as a queue.
def DrainState.slots (state : DrainState) : Slots := ⟨state.pending,[],state.draining,state.drain⟩

-- What every step keeps, whoever runs.
structure Thread.Sound (s : Thread) : Prop where
  proper : s.Proper
  saved : ∀ resume inline, .scope resume inline ∈ s.frames →
    resume.slots.Proper s.pushed.length ∧ inline.slots.Proper s.pushed.length
  nested : s.frames.countP StackFrame.isScope = if s.nesting then 1 else 0
  numbered : s.pushed.map (fun item => item.entry.number) = List.range s.pushed.length

section Reached

variable {c : Setting} {s t : Thread} {q : DrainQueue} {body ops task : List Op} {caller : List StackFrame}

theorem Slots.Proper.mono {slots : Slots} (proper : slots.Proper count) (more : count ≤ later) : slots.Proper later :=
  ⟨proper.idle,fun busy => Nat.lt_of_lt_of_le (proper.named busy) more⟩

theorem Thread.Sound.onward (upper : List StackFrame) (sound : s.Sound) (frames : s.frames = top :: caller) (code : top.isScope = false)
    (after : t.frames = upper++caller) (plain : upper.countP StackFrame.isScope = 0) (nesting : t.nesting = s.nesting)
    (proper : t.Proper) (longer : s.pushed.length ≤ t.pushed.length)
    (numbered : t.pushed.map (fun item => item.entry.number) = List.range t.pushed.length) : t.Sound := by
  refine ⟨proper,?_,?_,numbered⟩
  · intro resume inline member
    rw [after] at member
    rcases List.mem_append.mp member with above | below
    · exact absurd rfl (List.countP_eq_zero.mp plain _ above)
    · obtain ⟨one,two⟩ := sound.saved resume inline (frames ▸ List.mem_cons_of_mem _ below)
      exact ⟨one.mono longer,two.mono longer⟩
  · have nested := sound.nested
    rw [frames,List.countP_cons,code] at nested
    rw [after,List.countP_append,plain,nesting,← nested]
    simp

theorem proper_update {queues : DrainQueue → Slots} {slots : Slots} (proper : ∀ o, (queues o).Proper count)
    (one : slots.Proper count) (o : DrainQueue) : (Function.update queues q slots o).Proper count := by
  by_cases same : o = q
  · subst same
    rwa [Function.update_self]
  · rw [Function.update_of_ne same]
    exact proper o

theorem Thread.Sound.pushes (sound : s.Sound) (frames : s.frames = .code (.push q body :: ops) :: caller) :
    (s.pushAndDrain q body (.code ops :: caller)).Sound := by
  have longer : s.pushed.length ≤ (s.pushAndDrain q body (.code ops :: caller)).pushed.length := by
    simp [Thread.pushAndDrain]
  have after : (s.pushAndDrain q body (.code ops :: caller)).frames =
      (if (s.queues q).draining then [.code ops] else [.drain q 0,.code ops])++caller := by
    simp only [Thread.pushAndDrain]
    split <;> rfl
  refine sound.onward _ frames rfl after (by split <;> rfl) rfl ?_ longer (by simp [Thread.pushAndDrain,List.range_succ,sound.numbered])
  refine proper_update (fun o => (sound.proper o).mono longer) ⟨(by rintro ⟨⟩),fun _ => ?_⟩
  simp only [Thread.pushAndDrain,List.length_append,List.length_singleton]
  split
  · rename_i busy
    exact Nat.lt_succ_of_lt ((sound.proper q).named busy)
  · exact Nat.lt_succ_self _

theorem Thread.Sound.loops (sound : s.Sound) (frames : s.frames = .drain q head :: caller) : (s.loop q head caller).Sound := by
  simp only [Thread.loop]
  split
  · rename_i item here
    refine sound.onward [.code item.body,.drain q (head+1)] frames rfl rfl rfl rfl ?_ (Nat.le_refl _) sound.numbered
    refine proper_update sound.proper ⟨fun idle => ?_,(sound.proper q).named⟩
    simp only [(sound.proper q).idle idle,List.set_nil]
  · exact ⟨sound.proper,sound.saved,sound.nested,sound.numbered⟩
  · refine sound.onward [] frames rfl rfl rfl rfl ?_ (Nat.le_refl _) sound.numbered
    exact proper_update sound.proper ⟨fun _ => rfl,(by rintro ⟨⟩)⟩

theorem Thread.Sound.enters (sound : s.Sound) (frames : s.frames = .code (op :: ops) :: caller) (free : s.nesting = false) :
    (s.enterScope task (.code ops :: caller)).Sound := by
  refine ⟨?_,?_,?_,sound.numbered⟩
  · intro q
    rw [enterScope_slots]
    exact ⟨fun _ => rfl,nofun⟩
  · intro resume inline member
    rcases List.mem_cons.mp member with same | member
    · cases same
    · rcases List.mem_cons.mp member with same | member
      · cases same
        exact ⟨⟨(sound.proper .resume).idle,(sound.proper .resume).named⟩,(sound.proper .inline).idle,(sound.proper .inline).named⟩
      · rcases List.mem_cons.mp member with same | below
        · cases same
        · exact sound.saved resume inline (frames ▸ List.mem_cons_of_mem _ below)
  · have nested := sound.nested
    rw [frames,free,List.countP_cons_of_neg Bool.false_ne_true] at nested
    have one : (s.enterScope task (.code ops :: caller)).frames.countP StackFrame.isScope = caller.countP StackFrame.isScope+1 := by
      simp [Thread.enterScope,List.countP_cons,StackFrame.isScope]
    rw [one,nested]
    rfl

theorem reattach_proper {slots next : Slots} {state : DrainState} (proper : state.slots.Proper count)
    (back : slots.reattach checks state = some next) : next.Proper count := by
  unfold Slots.reattach at back
  split at back
  · cases back
  · cases back
    exact ⟨proper.idle,proper.named⟩

theorem Thread.Sound.leaves {resume inline : DrainState} (sound : s.Sound) (frames : s.frames = .scope resume inline :: caller) :
    (s.leaveScope c resume inline caller).Sound := by
  obtain ⟨first,second⟩ := sound.saved resume inline (frames ▸ List.mem_cons_self)
  have nested := sound.nested
  unfold Thread.leaveScope
  split
  · exact ⟨sound.proper,sound.saved,sound.nested,sound.numbered⟩
  · rename_i inlineSlots one
    have inner := proper_update (q := .inline) sound.proper (reattach_proper second one)
    split
    · exact ⟨inner,sound.saved,sound.nested,sound.numbered⟩
    · rename_i resumeSlots two
      refine ⟨proper_update inner (reattach_proper first two),?_,?_,sound.numbered⟩
      · exact fun r i below => sound.saved r i (frames ▸ List.mem_cons_of_mem _ below)
      · rw [frames,List.countP_cons] at nested
        have most : (if s.nesting then 1 else 0) ≤ 1 := by split <;> decide
        simp only [StackFrame.isScope,if_true] at nested
        simp only [Bool.false_eq_true,if_false]
        omega

theorem Thread.Sound.steps (c : Setting) (s : Thread) (sound : s.Sound) : (s.step c).Sound := by
  unfold Thread.step
  split
  · exact sound
  · split
    · exact sound
    · rename_i caller frames
      exact sound.onward [] frames rfl rfl rfl rfl sound.proper (Nat.le_refl _) sound.numbered
    · rename_i q body ops caller frames
      exact sound.pushes frames
    · rename_i own high normal ops caller frames
      split
      · exact sound.onward [.code ops] frames rfl rfl rfl rfl sound.proper (Nat.le_refl _) sound.numbered
      · rename_i task taken
        exact sound.enters frames (popped_nesting taken)
    · rename_i q head caller frames
      exact sound.loops frames
    · rename_i resume inline caller frames
      exact sound.leaves frames

theorem start_sound (program : List Op) : (start program).Sound :=
  ⟨fun _ => ⟨fun _ => rfl,nofun⟩,by simp [start],rfl,rfl⟩

theorem run_sound (c : Setting) (program : List Op) (n : Nat) : (run c program n).Sound :=
  Function.Iterate.rec Thread.Sound (start_sound program) (Thread.Sound.steps c) n

end Reached

-- The end of a run: the items pushed are those the program has by its text, each
-- has run exactly once, and each drain has run its items in the order they were
-- pushed in.
structure Finished (c : Setting) (program : List Op) (t : Thread) : Prop where
  frames : t.frames = []
  stopped : t.stopped = none
  pushed : (t.pushed.map Item.what).Perm (pushesOf c false program)
  distinct : t.pushed.Nodup
  once : t.ran.Perm t.pushed
  ordered : ∀ q d, ofDrain q d t.ran = ofDrain q d t.pushed

-- A push that found its queue idle comes back: its chain has been pushed and has
-- run, up to the items that wait in a drain of the other queue that it found.
structure Returned (c : Setting) (q : DrainQueue) (body : List Op) (s t : Thread) (waiting : List Item) : Prop where
  idle : (t.queues q).draining = false
  empty : (t.queues q).pending = []
  pushed : ((t.pushed.drop s.pushed.length).map Item.what++due c s.nesting waiting).Perm ((q,body) :: pushesOf c s.nesting body)
  runs : ∀ item ∈ t.pushed.drop s.pushed.length, item ∈ t.ran ∨ item ∈ waiting
  waits : ∀ item ∈ waiting, (s.queues item.entry.queue).draining = true ∧ item.entry.drain = (s.queues item.entry.queue).drain

-- A moment of a run. A drain begins its item's code and goes on behind it, and
-- nothing else is noted as run. A yield point that takes an entry comes back to
-- code whose drains have what they had.
structure Survives (c : Setting) (s : Thread) : Prop where
  stopped : s.stopped = none
  nested : s.frames.countP StackFrame.isScope ≤ 1
  begins : ∀ q head caller item, s.frames = .drain q head :: caller → (s.queues q).pending[head]? = some (some item) →
    (s.step c).frames = .code item.body :: .drain q (head+1) :: caller ∧ (s.step c).ran = s.ran++[item] ∧
      ∃ t, Inside (Thread.step c) height (caller.length+1) (s.step c) t ∧ t.frames = .drain q (head+1) :: caller
  notes : (s.step c).ran = s.ran ∨
    ∃ q head caller item, s.frames = .drain q head :: caller ∧ (s.queues q).pending[head]? = some (some item)
  continues : ∀ own high normal ops caller task, s.frames = .code (.yieldPoint own high normal :: ops) :: caller →
    popped c s.nesting own high normal = some task →
    (∃ resume inline, (s.step c).frames = .code task :: .scope resume inline :: .code ops :: caller) ∧
      ∃ t, Inside (Thread.step c) height (caller.length+1) (s.step c) t ∧ t.frames = .code ops :: caller ∧ t.nesting = false ∧
        ∀ q, (t.queues q).pending = (s.queues q).pending ∧ (t.queues q).draining = (s.queues q).draining
  returns : ∀ q body ops caller, s.frames = .code (.push q body :: ops) :: caller → (s.queues q).draining = false →
    ∃ t waiting, Inside (Thread.step c) height (caller.length+1) (s.step c) t ∧ t.frames = .code ops :: caller ∧
      Returned c q body s t waiting

section Complete

variable {c : Setting} {s t : Thread} {q : DrainQueue} {item : Item} {body ops task : List Op} {caller : List StackFrame}

theorem perm_of_countP {α : Type} {one two : List α} (same : ∀ p : α → Bool, one.countP p = two.countP p) : one.Perm two := by
  classical
  exact List.perm_iff_count.mpr fun a => same (· == a)

theorem perm_of_drains (same : ∀ q d, ofDrain q d one = ofDrain q d two) : one.Perm two := by
  classical
  refine List.perm_iff_count.mpr ?_
  intro item
  have kept (log : List Item) : (ofDrain item.entry.queue item.entry.drain log).count item = log.count item :=
    List.count_filter (by simp)
  rw [← kept one,← kept two,same]

theorem run_finishes (c : Setting) (program : List Op) : ∃ n, Finished c program (run c program n) := by
  obtain ⟨t,new,pushed,ran,frames,executed,paid,_⟩ := (calls_return c (sizeOf program+1)).1 program (start program) []
    (Nat.lt_succ_self _) rfl (start_sound program).proper rfl
  obtain ⟨n,reached⟩ := executed.inside.runs
  have sound := run_sound c program n
  have after : run c program n = t := reached
  rw [after] at sound
  have pushes : t.pushed = pushed := executed.outcome.pushes
  have runs : t.ran = ran := executed.outcome.runs
  have none (q : DrainQueue) : new q = [] := (executed.kept q).idle rfl
  have ordered (q : DrainQueue) (d : Nat) : ofDrain q d t.ran = ofDrain q d t.pushed := by
    have account := executed.outcome.account q d
    rw [none] at account
    simpa [pushes,runs] using account.symm
  have numbers : (t.pushed.map (fun item => item.entry.number)).Nodup := by
    rw [sound.numbered]
    exact List.nodup_range
  refine ⟨n,?_⟩
  rw [after]
  refine ⟨frames,executed.outcome.stopped,perm_of_countP ?_,.of_map _ numbers,perm_of_drains ordered,ordered⟩
  intro p
  have sum := paid p
  rw [none,none] at sum
  rw [pushes]
  exact sum

theorem stops_stays (s : Thread) (stopped : s.stopped.isSome = true) : (s.step c).stopped.isSome = true := by
  simp [Thread.step,stopped]

theorem step_finished (frames : s.frames = []) : s.step c = s := by
  unfold Thread.step
  split
  · rfl
  · rw [frames]

-- A run that has come to its end stays there.
theorem run_rests (ended : (run c program m).frames = []) (later : m ≤ n) : run c program n = run c program m := by
  obtain ⟨k,rfl⟩ := Nat.exists_eq_add_of_le' later
  unfold run at ended ⊢
  rw [Function.iterate_add_apply]
  exact Function.iterate_fixed (step_finished ended) k

-- No moment of a run has stopped: the run would not come to its end.
theorem run_unstopped (c : Setting) (program : List Op) (n : Nat) : (run c program n).stopped = none := by
  obtain ⟨m,finished⟩ := run_finishes c program
  rcases Nat.le_total n m with early | late
  · have clear : ¬ (run c program m).stopped.isSome = true := by simp [finished.stopped]
    have before := iterate_before (fun s : Thread => s.stopped.isSome = true) stops_stays clear early
    exact Option.not_isSome_iff_eq_none.mp before
  · rw [run_rests finished.frames late]
    exact finished.stopped

theorem drain_begins (sound : s.Sound) (running : s.stopped = none) (frames : s.frames = .drain q head :: caller)
    (here : (s.queues q).pending[head]? = some (some item)) :
    (s.step c).frames = .code item.body :: .drain q (head+1) :: caller ∧ (s.step c).ran = s.ran++[item] ∧
      ∃ t, Inside (Thread.step c) height (caller.length+1) (s.step c) t ∧ t.frames = .drain q (head+1) :: caller := by
  have began : s.step c = { s.setSlots q { s.queues q with pending := (s.queues q).pending.set head (Thread.leaves q item) } with
      frames := .code item.body :: .drain q (head+1) :: caller
      ran := s.ran++[item] } := by
    rw [step_drain running frames]
    simp [Thread.loop,here]
  obtain ⟨t,_,_,_,back,executed,_⟩ := (calls_return c (sizeOf item.body+1)).1 item.body (s.step c) (.drain q (head+1) :: caller)
    (Nat.lt_succ_self _) (by rw [began]; exact running) (sound.steps c s).proper (by rw [began])
  exact ⟨by rw [began],by rw [began],t,executed.inside,back⟩

theorem step_notes (running : s.stopped = none) : (s.step c).ran = s.ran ∨
    ∃ q head caller item, s.frames = .drain q head :: caller ∧ (s.queues q).pending[head]? = some (some item) := by
  unfold Thread.step
  rw [if_neg (by simp [running])]
  split
  · exact .inl rfl
  · exact .inl rfl
  · exact .inl rfl
  · split <;> exact .inl rfl
  · rename_i q head caller frames
    cases here : (s.queues q).pending[head]? with
    | none => exact .inl (by simp [Thread.loop,here,Thread.setSlots])
    | some slot =>
      cases slot with
      | none => exact .inl (by simp [Thread.loop,here])
      | some item => exact .inr ⟨q,head,caller,item,frames,here⟩
  · unfold Thread.leaveScope
    split
    · exact .inl rfl
    · split <;> exact .inl rfl

theorem yield_continues (running : s.stopped = none)
    (frames : s.frames = .code (.yieldPoint own high normal :: ops) :: caller) (taken : popped c s.nesting own high normal = some task) :
    (∃ resume inline, (s.step c).frames = .code task :: .scope resume inline :: .code ops :: caller) ∧
      ∃ t, Inside (Thread.step c) height (caller.length+1) (s.step c) t ∧ t.frames = .code ops :: caller ∧ t.nesting = false ∧
        ∀ q, (t.queues q).pending = (s.queues q).pending ∧ (t.queues q).draining = (s.queues q).draining := by
  obtain ⟨t,pushed,ran,back,inside,executed,_⟩ := yield_returns (calls_return c (sizeOf task+1)).1 (Nat.lt_succ_self _) running frames taken
  refine ⟨⟨_,_,by rw [step_yield running frames taken]; rfl⟩,t,inside,back,executed.outcome.nesting.trans (popped_nesting taken),
    fun q => ⟨?_,(executed.kept q).draining⟩⟩
  simpa using (executed.kept q).pending

theorem push_returns (sound : s.Sound) (running : s.stopped = none) (frames : s.frames = .code (.push q body :: ops) :: caller)
    (idle : (s.queues q).draining = false) :
    ∃ t waiting, Inside (Thread.step c) height (caller.length+1) (s.step c) t ∧ t.frames = .code ops :: caller ∧
      Returned c q body s t waiting := by
  obtain ⟨t,new,pushed,ran,back,inside,executed,none,paid,_⟩ := push_drains (calls_return c (sizeOf body+2)).2 (Nat.lt_succ_self _)
    running sound.proper frames idle
  have given : t.pushed.drop s.pushed.length = pushed := by rw [executed.outcome.pushes,List.drop_left]
  have member (o : DrainQueue) (item : Item) (waits : item ∈ new o) : item ∈ new .resume++new .inline := by
    cases o with
    | resume => exact List.mem_append_left _ waits
    | inline => exact List.mem_append_right _ waits
  refine ⟨t,new .resume++new .inline,inside,back,(executed.kept q).draining.trans idle,?_,perm_of_countP ?_,?_,?_⟩
  · rw [(executed.kept q).pending,none,(sound.proper q).idle idle]
    rfl
  · intro p
    have sum := paid p
    rw [given,due_append,List.countP_append,List.countP_append]
    omega
  · intro item waited
    rw [given] at waited
    have account := executed.outcome.account item.entry.queue item.entry.drain
    have there : item ∈ ofDrain item.entry.queue item.entry.drain ran++ofDrain item.entry.queue item.entry.drain (new item.entry.queue) := by
      rw [← account]
      exact List.mem_append_right _ (mem_ofDrain.mpr ⟨waited,rfl,rfl⟩)
    rcases List.mem_append.mp there with done | waits
    · rw [executed.outcome.runs]
      exact .inl (List.mem_append_right _ (mem_ofDrain.mp done).1)
    · exact .inr (member _ item (mem_ofDrain.mp waits).1)
  · have found (o : DrainQueue) (item : Item) (waits : item ∈ new o) :
        (s.queues item.entry.queue).draining = true ∧ item.entry.drain = (s.queues item.entry.queue).drain := by
      have kept := executed.kept o
      obtain ⟨queue,drain⟩ := kept.owned item waits
      rw [queue]
      refine ⟨?_,drain⟩
      by_contra still
      rw [kept.idle (by simpa using still)] at waits
      cases waits
    intro item waits
    rcases List.mem_append.mp waits with resume | inline
    · exact found _ item resume
    · exact found _ item inline

end Complete

theorem trampolines_survive (c : Setting) (program : List Op) :
    (∃ n, Finished c program (run c program n)) ∧ ∀ n, Survives c (run c program n) := by
  refine ⟨run_finishes c program,fun n => ?_⟩
  have sound := run_sound c program n
  have running := run_unstopped c program n
  refine ⟨running,?_,?_,step_notes running,?_,?_⟩
  · rw [sound.nested]
    split <;> decide
  · intro q head caller item frames here
    exact drain_begins sound running frames here
  · intro own high normal ops caller task frames taken
    exact yield_continues running frames taken
  · intro q body ops caller frames idle
    exact push_returns sound running frames idle

-- The first item pushes one behind itself, then yields to a task whose push runs
-- at once, then pushes inline: the item behind comes last.
def yielding : List Op :=
  [.push .resume [.push .resume [.push .inline []],.yieldPoint .low (some [.push .resume []]) none,.push .inline []]]

theorem trampolines_survive_yield :
    Finished ⟨true,true⟩ yielding (run ⟨true,true⟩ yielding 40) ∧
      (run ⟨true,true⟩ yielding 40).ran.map (fun item => (item.entry.queue,item.entry.number)) =
        [(.resume,0),(.resume,2),(.inline,3),(.resume,1),(.inline,4)] := by
  obtain ⟨n,finished⟩ := (trampolines_survive ⟨true,true⟩ yielding).1
  have ended : (run ⟨true,true⟩ yielding 40).frames = [] := List.isEmpty_iff.mp (by decide +kernel)
  have same : run ⟨true,true⟩ yielding 40 = run ⟨true,true⟩ yielding n := by
    rcases Nat.le_total n 40 with early | late
    · exact run_rests finished.frames early
    · exact (run_rests ended late).symm
  refine ⟨?_,by decide +kernel⟩
  rw [same]
  exact finished

end Macrame.NestedDispatch

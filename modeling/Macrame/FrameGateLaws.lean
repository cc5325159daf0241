import Macrame.FrameGate

namespace Macrame.FrameGate

open Machines

-- The waiters on handles of the signals in a list.
def World.waitersOn (s : World) (ids : List SignalId) : List WaiterId :=
  (s.waits.filter (fun p => decide (p.1.signal ∈ ids))).map Prod.snd

def World.releasedSignals (s : World) : List SignalId := s.released.map Opening.signal

-- Every opening is in one stage, its signal numbered as the opening is.
structure Staged (s : World) : Prop where
  named : s.current = s.opened ∧ s.minted = s.opened+1
  handed : ∀ h ∈ s.handles, h.signal = h.frame ∧ h.frame ≤ s.opened
  stages : (s.opening++(s.launched.map Prod.fst++s.released)).Perm ((List.range s.opened).map (fun k => ⟨k,k⟩))

-- A signal is settled by its own release only, and its waiters go with it.
structure Parked (s : World) : Prop where
  settled : ∀ i, (s.signals i).completed = true ↔ i ∈ s.releasedSignals
  parked : ∀ i, (s.signals i).continuations = if (s.signals i).completed then [] else s.waitersOn [i]
  known : ∀ p ∈ s.waits, p.1 ∈ s.handles
  once : (s.waits.map Prod.snd).Nodup
  freed : (s.resuming++s.resumed).Perm (s.waitersOn s.releasedSignals)

-- The gate registers itself while its current handle has been taken.
structure Registered (s : World) : Prop where
  external : s.externalWaits = s.others+if s.pending then 1 else 0
  pending : s.pending = true ↔ ∃ h ∈ s.handles, h.frame = s.opened

structure Sound (s : World) : Prop where
  staged : Staged s
  parked : Parked s
  registered : Registered s

theorem filter_or_perm {l : List β} (p q : β → Bool) (apart : ∀ x ∈ l, ¬ (p x = true ∧ q x = true)) :
    (l.filter (fun x => p x || q x)).Perm (l.filter p++l.filter q) := by
  induction l with
  | nil => exact .nil
  | cons x l ih =>
    have rest := ih (fun y member => apart y (List.mem_cons_of_mem _ member))
    have here := apart x List.mem_cons_self
    cases first : p x <;> cases second : q x
    · simpa [List.filter_cons,first,second] using rest
    · simp only [List.filter_cons,first,second,Bool.or_true,if_true,if_false,Bool.false_eq_true]
      exact (List.Perm.cons x rest).trans List.perm_middle.symm
    · simpa [List.filter_cons,first,second] using rest
    · exact absurd ⟨first,second⟩ here

-- One more signal lets its own waiters go.
theorem waitersOn_add {s : World} (ids : List SignalId) (other : i ∉ ids) :
    (s.waitersOn (ids++[i])).Perm (s.waitersOn ids++s.waitersOn [i]) := by
  have split := filter_or_perm (l := s.waits) (fun p => decide (p.1.signal ∈ ids)) (fun p => decide (p.1.signal ∈ [i])) (by
    intro p _ both
    simp only [decide_eq_true_eq,List.mem_singleton] at both
    exact other (both.2 ▸ both.1))
  unfold World.waitersOn
  rw [← List.map_append]
  refine List.Perm.map _ (List.Perm.trans (.of_eq ?_) split)
  congr 1
  funext p
  simp [List.mem_append,Bool.decide_or]

theorem waitersOn_join (s : World) (h : Handle) (w : WaiterId) (ids : List SignalId) :
    ({s with waits := s.waits++[(h,w)]} : World).waitersOn ids =
      s.waitersOn ids++if h.signal ∈ ids then [w] else [] := by
  unfold World.waitersOn
  rw [List.filter_append,List.map_append]
  by_cases inside : h.signal ∈ ids <;> simp [inside]

section Steps

variable {s : World}

theorem Staged.released_lt (sound : Staged s) (o : Opening) (member : o ∈ s.released) : o.signal = o.frame ∧ o.frame < s.opened := by
  have listed := sound.stages.subset (List.mem_append_right _ (List.mem_append_right _ member))
  obtain ⟨k,within,rfl⟩ := List.mem_map.mp listed
  exact ⟨rfl,List.mem_range.mp within⟩

theorem staged_nodup (sound : Staged s) : (s.opening++(s.launched.map Prod.fst++s.released)).Nodup := by
  refine sound.stages.nodup_iff.mpr (List.Nodup.map ?_ List.nodup_range)
  intro a b same
  exact congrArg Opening.frame same

-- A launched release is for a signal that no other release has settled.
theorem Staged.launched_fresh (sound : Staged s) (member : task ∈ s.launched) : task.1.signal ∉ s.releasedSignals := by
  intro again
  obtain ⟨o,released,same⟩ := List.mem_map.mp again
  have listed := sound.stages.subset (List.mem_append_right _ (List.mem_append_left _ (List.mem_map_of_mem member)))
  obtain ⟨k,_,numbered⟩ := List.mem_map.mp listed
  have equal : o = task.1 := by
    obtain ⟨frame,signal⟩ := o
    obtain ⟨named,_⟩ : signal = frame ∧ _ := sound.released_lt _ released
    rw [← numbered] at same ⊢
    have other : signal = k := same
    rw [← named,other]
  have apart := (List.nodup_append.mp (List.nodup_append.mp (staged_nodup sound)).2.1).2.2
  exact apart _ (List.mem_map_of_mem member) _ released equal.symm

theorem next_sound (sound : Sound s) : Sound s.next := by
  obtain ⟨⟨named,handed,stages⟩,⟨settled,parked,known,once,freed⟩,⟨external,pending⟩⟩ := sound
  have registered : ∃ h ∈ s.handles++[⟨s.opened,s.current⟩], h.frame = s.opened :=
    ⟨⟨s.opened,s.current⟩,List.mem_append_right _ List.mem_cons_self,rfl⟩
  have given : ∀ h ∈ s.handles++[⟨s.opened,s.current⟩], h.signal = h.frame ∧ h.frame ≤ s.opened := by
    intro h member
    cases List.mem_append.mp member with
    | inl old => exact handed h old
    | inr new =>
      rw [List.mem_singleton.mp new]
      exact ⟨named.1,Nat.le_refl _⟩
  have kept : ∀ p ∈ s.waits, p.1 ∈ s.handles++[⟨s.opened,s.current⟩] :=
    fun p member => List.mem_append_left _ (known p member)
  unfold World.next
  cases armed : s.pending with
  | true =>
    exact ⟨⟨named,given,stages⟩,⟨settled,parked,kept,once,freed⟩,
      ⟨by simpa [armed] using external,iff_of_true armed registered⟩⟩
  | false =>
    refine ⟨⟨named,given,stages⟩,⟨settled,parked,kept,once,freed⟩,⟨?_,iff_of_true rfl registered⟩⟩
    simp only [armed,Bool.false_eq_true,if_false] at external ⊢
    simp [external]

theorem exchange_sound (sound : Sound s) : Sound s.exchange := by
  obtain ⟨⟨named,handed,stages⟩,parked,⟨external,pending⟩⟩ := sound
  have later : ∀ h ∈ s.handles, h.signal = h.frame ∧ h.frame ≤ s.opened+1 :=
    fun h member => ⟨(handed h member).1,Nat.le_succ_of_le (handed h member).2⟩
  have staged : (s.opening++[(⟨s.opened,s.current⟩ : Opening)]++(s.launched.map Prod.fst++s.released)).Perm
      ((List.range (s.opened+1)).map (fun k => (⟨k,k⟩ : Opening))) := by
    rw [List.range_succ,List.map_append,named.1]
    refine List.Perm.trans ?_ (List.Perm.append_right _ stages)
    rw [List.append_assoc,List.append_assoc]
    exact List.Perm.append_left _ List.perm_append_comm
  have none : ¬ ∃ h ∈ s.handles, h.frame = s.opened+1 := by
    rintro ⟨h,member,frame⟩
    have early := (handed h member).2
    omega
  unfold World.exchange
  cases armed : s.pending with
  | true =>
    refine ⟨⟨⟨named.2,by simp [named.2]⟩,later,staged⟩,⟨parked.settled,parked.parked,parked.known,parked.once,parked.freed⟩,
      ⟨?_,iff_of_false Bool.false_ne_true none⟩⟩
    simp only [armed,if_true] at external
    simp [external]
  | false =>
    refine ⟨⟨⟨named.2,by simp [named.2]⟩,later,staged⟩,⟨parked.settled,parked.parked,parked.known,parked.once,parked.freed⟩,
      ⟨?_,iff_of_false (by simp) none⟩⟩
    simpa [armed] using external

theorem launch_sound (sound : Sound s) (member : o ∈ s.opening) : Sound (s.launch o) := by
  obtain ⟨⟨named,handed,stages⟩,parked,registered⟩ := sound
  refine ⟨⟨named,handed,List.Perm.trans ?_ stages⟩,⟨parked.settled,parked.parked,parked.known,parked.once,parked.freed⟩,
    ⟨registered.external,registered.pending⟩⟩
  simp only [World.launch,List.map_append,List.map_cons,List.map_nil,List.append_assoc,List.singleton_append]
  refine List.Perm.trans ?_ (List.Perm.append_right _ (List.perm_cons_erase member).symm)
  rw [← List.append_assoc]
  exact List.perm_middle.trans (by rw [List.append_assoc]; exact .refl _)

theorem trigger_sound (sound : Sound s) (member : task ∈ s.launched) : Sound (s.trigger task) := by
  obtain ⟨staged,⟨settled,parked,known,once,freed⟩,registered⟩ := sound
  have fresh := staged.launched_fresh member
  have open_ : (s.signals task.1.signal).completed = false := by
    cases done : (s.signals task.1.signal).completed with
    | false => rfl
    | true => exact absurd ((settled _).mp done) fresh
  have waiting := parked task.1.signal
  rw [open_,if_neg Bool.false_ne_true] at waiting
  have first : (s.signals task.1.signal).settle = ({completed := true},s.waitersOn [task.1.signal]) := by
    simp [Signal.settle,open_,waiting]
  have now : (s.trigger task).releasedSignals = s.releasedSignals++[task.1.signal] := by
    simp [World.releasedSignals,World.trigger]
  refine ⟨⟨staged.named,staged.handed,List.Perm.trans ?_ staged.stages⟩,⟨?_,?_,known,once,?_⟩,
    ⟨registered.external,registered.pending⟩⟩
  · refine List.Perm.append_left _ ?_
    have taken : (s.launched.map Prod.fst).Perm (task.1 :: (s.launched.erase task).map Prod.fst) :=
      (List.perm_cons_erase member).map Prod.fst
    refine List.Perm.trans ?_ (List.Perm.append_right _ taken.symm)
    simp only [World.trigger]
    rw [← List.append_assoc]
    exact List.perm_append_singleton _ _
  · intro i
    rw [now]
    by_cases same : i = task.1.signal
    · subst same
      simp [World.trigger,first]
    · simp [World.trigger,settled i,same]
  · intro i
    by_cases same : i = task.1.signal
    · subst same
      simp [World.trigger,first]
    · simpa [World.trigger,Function.update_of_ne same,World.waitersOn] using parked i
  · rw [now]
    refine List.Perm.trans ?_ (waitersOn_add (s := s) s.releasedSignals fresh).symm
    have out : (s.trigger task).resuming = s.resuming++s.waitersOn [task.1.signal] := by simp [World.trigger,first]
    have before : (s.trigger task).resumed = s.resumed := rfl
    rw [out,before,List.append_assoc]
    refine (List.Perm.append_left _ List.perm_append_comm).trans ?_
    rw [← List.append_assoc]
    exact List.Perm.append_right _ freed

theorem attach_sound (sound : Sound s) (member : h ∈ s.handles) (new : w ∉ s.waits.map Prod.snd) : Sound (s.attach h w) := by
  obtain ⟨staged,⟨settled,parked,known,once,freed⟩,registered⟩ := sound
  have joined : ∀ ids, (s.attach h w).waitersOn ids = s.waitersOn ids++if h.signal ∈ ids then [w] else [] :=
    fun ids => waitersOn_join s h w ids
  have named : ((s.waits++[(h,w)]).map Prod.snd).Nodup := by
    rw [List.map_append]
    refine List.nodup_append.mpr ⟨once,List.nodup_singleton _,?_⟩
    intro a old b last equal
    have same : b = w := List.mem_singleton.mp last
    rw [equal,same] at old
    exact new old
  have kept : ∀ p ∈ s.waits++[(h,w)], p.1 ∈ s.handles := by
    intro p among
    cases List.mem_append.mp among with
    | inl old => exact known p old
    | inr last => rw [List.mem_singleton.mp last]; exact member
  have flag : ∀ i, ((s.attach h w).signals i).completed = (s.signals i).completed := by
    intro i
    by_cases same : i = h.signal
    · subst same
      cases done : (s.signals h.signal).completed <;> simp [World.attach,Signal.attach,done]
    · simp [World.attach,Function.update_of_ne same]
  refine ⟨⟨staged.named,staged.handed,staged.stages⟩,⟨?_,?_,kept,named,?_⟩,⟨registered.external,registered.pending⟩⟩
  · intro i
    rw [flag]
    exact settled i
  · intro i
    rw [flag,joined]
    by_cases same : i = h.signal
    · subst same
      cases done : (s.signals h.signal).completed with
      | true =>
        have empty := parked h.signal
        rw [done,if_pos rfl] at empty
        simp [World.attach,Signal.attach,done,empty]
      | false =>
        have waiting := parked h.signal
        rw [done,if_neg Bool.false_ne_true] at waiting
        simp [World.attach,Signal.attach,done,waiting]
    · have other : h.signal ≠ i := fun equal => same equal.symm
      simpa [World.attach,Function.update_of_ne same,other] using parked i
  · rw [joined]
    have before : (s.attach h w).releasedSignals = s.releasedSignals := rfl
    rw [before]
    cases done : (s.signals h.signal).completed with
    | true =>
      have inside := (settled h.signal).mp done
      have out : (s.attach h w).resuming = s.resuming++[w] := by simp [World.attach,Signal.attach,done]
      have ended : (s.attach h w).resumed = s.resumed := rfl
      rw [out,ended,if_pos inside,List.append_assoc]
      refine (List.Perm.append_left _ List.perm_append_comm).trans ?_
      rw [← List.append_assoc]
      exact List.Perm.append_right _ freed
    | false =>
      have outside : h.signal ∉ s.releasedSignals := fun inside => by
        rw [(settled h.signal).mpr inside] at done
        cases done
      have out : (s.attach h w).resuming = s.resuming := by simp [World.attach,Signal.attach,done]
      have ended : (s.attach h w).resumed = s.resumed := rfl
      rw [out,ended,if_neg outside,List.append_nil]
      exact freed

theorem resume_sound (sound : Sound s) (member : w ∈ s.resuming) : Sound (s.resume w) := by
  obtain ⟨staged,⟨settled,parked,known,once,freed⟩,registered⟩ := sound
  refine ⟨⟨staged.named,staged.handed,staged.stages⟩,⟨settled,parked,known,once,List.Perm.trans ?_ freed⟩,
    ⟨registered.external,registered.pending⟩⟩
  simp only [World.resume]
  refine List.Perm.trans ?_ (List.Perm.append_right _ (List.perm_cons_erase member).symm)
  rw [← List.append_assoc]
  exact List.perm_append_singleton _ _

theorem apply_sound (sound : Sound s) (allowed : Allowed s a) : Sound (apply s a) := by
  cases a with
  | next => exact next_sound sound
  | exchange => exact exchange_sound sound
  | launch o => exact launch_sound sound allowed
  | trigger task => exact trigger_sound sound allowed
  | attach h w => exact attach_sound sound allowed.1 allowed.2
  | resume w => exact resume_sound sound allowed
  | setReleasePriority priority =>
    exact ⟨⟨sound.staged.named,sound.staged.handed,sound.staged.stages⟩,
      ⟨sound.parked.settled,sound.parked.parked,sound.parked.known,sound.parked.once,sound.parked.freed⟩,
      ⟨sound.registered.external,sound.registered.pending⟩⟩
  | external change =>
    refine ⟨⟨sound.staged.named,sound.staged.handed,sound.staged.stages⟩,
      ⟨sound.parked.settled,sound.parked.parked,sound.parked.known,sound.parked.once,sound.parked.freed⟩,
      ⟨?_,sound.registered.pending⟩⟩
    have before := sound.registered.external
    show s.externalWaits+change = s.others+change+_
    rw [before]
    exact Int.add_right_comm _ _ _

theorem sound_reached (path : Reached gateSystem s) : Sound s := by
  refine reached_invariant Sound ?_ (fun _ _ sound allowed => apply_sound sound allowed) path
  rintro s ⟨others,rfl⟩
  refine ⟨⟨⟨rfl,rfl⟩,nofun,.nil⟩,⟨?_,?_,nofun,.nil,.nil⟩,⟨by simp,by simp⟩⟩
  · intro i
    simp [World.releasedSignals]
  · intro i
    simp [World.waitersOn]

end Steps

def World.releasedFrames (s : World) : List Nat := s.released.map Opening.frame

-- No call is under way and no release or continuation waits to run.
def World.Quiet (s : World) : Prop := s.opening = [] ∧ s.launched = [] ∧ s.resuming = []

instance (s : World) : Decidable s.Quiet := inferInstanceAs (Decidable (_ ∧ _))

section Gate

variable {s : World}

theorem Staged.released_frame (sound : Staged s) : s.releasedSignals = s.releasedFrames := by
  refine List.map_congr_left ?_
  intro o member
  exact (sound.released_lt o member).1

theorem Staged.frames_perm (sound : Staged s) :
    ((s.opening++(s.launched.map Prod.fst++s.released)).map Opening.frame).Perm (List.range s.opened) := by
  refine (sound.stages.map Opening.frame).trans (.of_eq ?_)
  rw [List.map_map]
  exact List.map_id _

theorem Sound.settled_iff (sound : Sound s) (member : h ∈ s.handles) :
    (s.signals h.signal).completed = true ↔ h.frame ∈ s.releasedFrames := by
  rw [sound.parked.settled,sound.staged.released_frame,(sound.staged.handed h member).1]

theorem Sound.waiter_parked (sound : Sound s) (member : (h,w) ∈ s.waits) (before : h.frame ∉ s.releasedFrames) :
    w ∈ (s.signals h.signal).continuations ∧ w ∉ s.resuming++s.resumed := by
  have open_ : ¬ (s.signals h.signal).completed = true := fun done =>
    before ((sound.settled_iff (sound.parked.known _ member)).mp done)
  constructor
  · rw [sound.parked.parked,if_neg open_]
    exact List.mem_map.mpr ⟨(h,w),List.mem_filter.mpr ⟨member,by simp⟩,rfl⟩
  · intro gone
    obtain ⟨⟨g,v⟩,among,same⟩ := List.mem_map.mp (sound.parked.freed.subset gone)
    obtain ⟨listed,freed⟩ := List.mem_filter.mp among
    -- a waiter has one handle only
    have equal := List.inj_on_of_nodup_map sound.parked.once listed member same
    rw [equal] at freed
    exact open_ ((sound.parked.settled _).mpr (of_decide_eq_true freed))

theorem Sound.waiter_freed (sound : Sound s) (member : (h,w) ∈ s.waits) (after : h.frame ∈ s.releasedFrames) :
    (s.resuming++s.resumed).count w = 1 := by
  have done := (sound.settled_iff (sound.parked.known _ member)).mpr after
  rw [sound.parked.freed.count_eq]
  have listed : w ∈ s.waitersOn s.releasedSignals :=
    List.mem_map.mpr ⟨(h,w),List.mem_filter.mpr ⟨member,decide_eq_true ((sound.parked.settled _).mp done)⟩,rfl⟩
  have once : (s.waitersOn s.releasedSignals).Nodup := sound.parked.once.sublist (List.filter_sublist.map _)
  exact List.count_eq_one_of_mem once listed

-- No waiter misses its boundary, whatever the order in which calls, releases and
-- continuations come. A handle settles by the release of the opening that ends
-- its frame and by nothing else, each opening has one release, and a waiter stays
-- on its handle until then and is resumed once.
theorem gate_never_misses (path : Reached gateSystem s) :
    (∀ h ∈ s.handles, (s.signals h.signal).completed = true ↔ h.frame ∈ s.releasedFrames) ∧
    ((s.opening++(s.launched.map Prod.fst++s.released)).map Opening.frame).Perm (List.range s.opened) ∧
    (∀ h w, (h,w) ∈ s.waits →
      (h.frame ∉ s.releasedFrames → w ∈ (s.signals h.signal).continuations ∧ w ∉ s.resuming++s.resumed) ∧
      (h.frame ∈ s.releasedFrames → (s.resuming++s.resumed).count w = 1)) ∧
    (s.Quiet → ∀ h w, (h,w) ∈ s.waits →
      (h.frame < s.opened → s.resumed.count w = 1) ∧ (s.opened ≤ h.frame → w ∉ s.resumed)) := by
  have sound := sound_reached path
  refine ⟨fun h member => sound.settled_iff member,sound.staged.frames_perm,
    fun h w member => ⟨sound.waiter_parked member,sound.waiter_freed member⟩,?_⟩
  intro quiet h w member
  obtain ⟨opening,launched,resuming⟩ := quiet
  have frames := sound.staged.frames_perm
  rw [opening,launched] at frames
  have ended : h.frame ∈ s.releasedFrames ↔ h.frame < s.opened := frames.mem_iff.trans List.mem_range
  constructor
  · intro closed
    have once := sound.waiter_freed member (ended.mpr closed)
    rwa [resuming] at once
  · intro current gone
    have parked := (sound.waiter_parked member (fun inside => absurd (ended.mp inside) (Nat.not_lt.mpr current))).2
    exact parked (List.mem_append_right _ gone)

-- The gate holds one registration exactly while its current handle is out, and a
-- parked waiter whose handle it no longer covers has its release under way.
theorem gate_registration (path : Reached gateSystem s) :
    s.externalWaits = s.others+(if ∃ h ∈ s.handles, h.frame = s.opened then 1 else 0) ∧
    ∀ h w, (h,w) ∈ s.waits → w ∈ (s.signals h.signal).continuations →
      s.externalWaits = s.others+1 ∨ ∃ o ∈ s.opening++s.launched.map Prod.fst, o.frame = h.frame := by
  have sound := sound_reached path
  have external : s.externalWaits = s.others+(if ∃ h ∈ s.handles, h.frame = s.opened then 1 else 0) := by
    rw [sound.registered.external]
    congr 1
    exact if_congr sound.registered.pending rfl rfl
  refine ⟨external,?_⟩
  intro h w member parked
  have taken := sound.parked.known _ member
  have before : h.frame ∉ s.releasedFrames := by
    intro after
    rw [sound.parked.parked,if_pos ((sound.settled_iff taken).mpr after)] at parked
    cases parked
  cases Nat.lt_or_eq_of_le (sound.staged.handed h taken).2 with
  | inr current =>
    refine .inl ?_
    rw [external,if_pos ⟨h,taken,current⟩]
  | inl closed =>
    have listed := sound.staged.frames_perm.symm.subset (List.mem_range.mpr closed)
    rw [← List.append_assoc,List.map_append] at listed
    obtain ⟨o,under,same⟩ := List.mem_map.mp ((List.mem_append.mp listed).resolve_right before)
    exact .inr ⟨o,under,same⟩

-- One waiter in each of two frames: the first opening's release is late, and the
-- second frame's handle is taken before it runs.
def gateRun : List GateAction :=
  [.next,.attach ⟨0,0⟩ 7,.exchange,.next,.launch ⟨0,0⟩,.attach ⟨1,1⟩ 8,.trigger (⟨0,0⟩,.low),.resume 7]

theorem gate_run_never_misses :
    (gateSystem.follow {externalWaits := 3,others := 3} gateRun).resumed.count 7 = 1 ∧
    8 ∉ (gateSystem.follow {externalWaits := 3,others := 3} gateRun).resumed := by
  have path : Reached gateSystem (gateSystem.follow {externalWaits := 3,others := 3} gateRun) :=
    reached_follow (.start ⟨3,rfl⟩) (by decide)
  have rest := (gate_never_misses path).2.2.2 (by decide)
  exact ⟨(rest ⟨0,0⟩ 7 (by decide)).1 (by decide),(rest ⟨1,1⟩ 8 (by decide)).2 (by decide)⟩

theorem gate_run_registered :
    (gateSystem.follow {externalWaits := 3,others := 3} gateRun).externalWaits = 4 := by
  have path : Reached gateSystem (gateSystem.follow {externalWaits := 3,others := 3} gateRun) :=
    reached_follow (.start ⟨3,rfl⟩) (by decide)
  exact (gate_registration path).1.trans (by decide)

end Gate

end Macrame.FrameGate

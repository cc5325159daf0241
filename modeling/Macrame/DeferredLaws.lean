import Macrame.Deferred

namespace Macrame

namespace Deferred

-- The batch under way has been cut, and is being applied, under the admission
-- that is out now.
structure Current (p : PipeId) (s : Deferred) : Prop where
  writer : (s.base.pipes p).writer = s.admission
  begun : s.journal.begun ≠ []
  together : ∀ e ∈ s.applied, e.batch = s.journal.batch → e.admission = s.admission

-- At most one task is inside the batch buffer, and it holds the grant.
inductive Working (p : PipeId) (s : Deferred) : Prop where
  | resting : (∀ c, (s.phases c).working = false) → s.commitBatch = [] → s.done = 0 → s.journal.position = none →
      Working p s
  | locking (b : BlockId) : s.base.Owns p b → s.phases b = .locking → (∀ c, c ≠ b → (s.phases c).working = false) →
      s.commitBatch = [] → s.done = 0 → s.journal.position = none → Working p s
  | cutting (b : BlockId) (next : SlotId) : s.base.Owns p b → s.phases b = .cutting →
      (∀ c, c ≠ b → (s.phases c).working = false) → s.done = 0 → s.journal.register = .cutting b next →
      Current p s → Working p s
  | applying (b : BlockId) (next : Nat) : s.base.Owns p b → s.phases b = .applying next →
      (∀ c, c ≠ b → (s.phases c).working = false) → s.done = next → next ≤ s.commitBatch.length →
      s.journal.position = none → Current p s → Working p s

-- An inline commit runs under the grant of its task; an enqueued one is about
-- to, as its block's only link is the write on the target.
def Called (p : PipeId) (s : State) (b : BlockId) : Prop :=
  s.Owns p b ∨ (s.blocks b).kind = .executable ∧ (s.blocks b).links = .single ⟨p,.readWrite⟩

structure Sound (p : PipeId) (s : Deferred) : Prop where
  base : Machines.Reached system s.base
  journal : s.journal.Sound
  taken : s.journal.taken = s.applied.map (fun e => (e.command,e.batch))++s.pending.map (fun c => (c,s.journal.batch))
  due : ∀ b, s.phases b = .due → Called p s.base b
  working : Working p s
  admitted : ∀ e ∈ s.applied, ∃ k, e.admission = some k ∧ k.link.mode = .readWrite
  together : ∀ e ∈ s.applied, ∀ f ∈ s.applied, e.batch = f.batch → e.admission = f.admission

variable {p : PipeId} {s : Deferred}

theorem sound_initial : Sound p {} where
  base := .start rfl
  journal := Journal.sound_empty
  taken := rfl
  due := fun _ due => by cases due
  working := .resting (fun _ => rfl) rfl rfl rfl
  admitted := fun _ member => by cases member
  together := fun _ member => by cases member

-- The batch of an applied command has begun.
theorem Sound.batch_lt (sound : Sound p s) (member : e ∈ s.applied) : e.batch < s.journal.begun.length := by
  have entered : (e.command,e.batch) ∈ s.journal.taken := by
    rw [sound.taken]
    exact List.mem_append_left _ (List.mem_map.mpr ⟨e,member,rfl⟩)
  exact sound.journal.row.numbered _ entered

section Base

variable {a : Action}

-- A task that is busy in `commit` goes on under the same admission.
theorem owns_on (sound : Sound p s) (allowed : s.base.Allowed a) (free : s.hinders a = false)
    (owns : s.base.Owns p b) (busy : s.phases b ≠ .idle) :
    (s.base.apply a).Owns p b ∧ ((s.base.apply a).pipes p).writer = (s.base.pipes p).writer := by
  have inside : s.busy b = true := by simp [Deferred.busy,owns.running,busy]
  refine owns.kept sound.base allowed ?_ ?_
  · rintro rfl
    rw [hinders,inside] at free
    cases free
  · rintro h m rfl held
    rw [hinders,held] at free
    change s.busy b = false at free
    rw [inside] at free
    cases free

theorem renewed_resting (allowed : s.base.Allowed a) (renews : a.renews = some b) :
    (s.base.progress b).status.resting = true := by
  cases a with
  | arm c kind links token => cases renews; exact allowed.1
  | createFrame c => cases renews; exact allowed
  | _ => cases renews

theorem Owns.unrenewed (owns : s.base.Owns p b) (allowed : s.base.Allowed a) : a.renews ≠ some b := by
  intro renews
  have resting := renewed_resting allowed renews
  rw [owns.running] at resting
  cases resting

theorem enterLink_kept (s : State) (b : BlockId) (i : Nat) :
    ((s.enterLink b i).blocks b).kind = (s.blocks b).kind ∧
      ((s.enterLink b i).blocks b).links = (s.blocks b).links := by
  unfold State.enterLink
  split
  · exact ⟨rfl,rfl⟩
  · dsimp only
    split <;> simp [State.setStatus]

-- A commit's block keeps its link until its identity is used anew.
theorem linked_on (allowed : s.base.Allowed a) (kind : (s.base.blocks b).kind = .executable)
    (links : (s.base.blocks b).links = .single ⟨p,.readWrite⟩) (unrenewed : a.renews ≠ some b) :
    ((s.base.apply a).blocks b).kind = .executable ∧ ((s.base.apply a).blocks b).links = .single ⟨p,.readWrite⟩ := by
  by_cases claimed : a.claims = some b
  · cases a with
    | arm c kind links token => exact absurd claimed unrenewed
    | createFrame c => exact absurd claimed unrenewed
    | rebind c links' =>
      cases claimed
      have other := allowed.2
      rw [kind] at other
      cases other
    | launch c =>
      cases claimed
      simp only [State.apply,State.launch]
      split
      · exact ⟨kind,links⟩
      · obtain ⟨same_kind,same_links⟩ := enterLink_kept s.base b 0
        exact ⟨same_kind.trans kind,same_links.trans links⟩
    | tryInline c =>
      cases claimed
      have other := allowed.2
      rw [kind] at other
      cases other
    | settleBare c cancel =>
      cases claimed
      have other := allowed.2
      rw [kind] at other
      cases other
    | _ => cases claimed
  · have keeps := State.apply_keeps s.base a b claimed
    exact ⟨keeps.kind.trans kind,keeps.links.trans links⟩

-- Steps that leave the batch buffer alone.
theorem Working.kept (working : Working p s) (t : Deferred)
    (owns : ∀ b, s.base.Owns p b → (s.phases b).working = true →
      t.base.Owns p b ∧ (t.base.pipes p).writer = (s.base.pipes p).writer)
    (phase : ∀ b, s.base.Owns p b → (s.phases b).working = true → t.phases b = s.phases b)
    (free : ∀ c, (s.phases c).working = false → (t.phases c).working = false)
    (buffer : t.commitBatch = s.commitBatch ∧ t.done = s.done ∧ t.admission = s.admission ∧ t.applied = s.applied)
    (begun : t.journal.begun = s.journal.begun)
    (register : t.journal.register = s.journal.register ∨ s.journal.position = none ∧ t.journal.position = none) :
    Working p t := by
  obtain ⟨batch,done,admission,applied⟩ := buffer
  have idle : s.journal.position = none → t.journal.position = none := by
    intro position
    rcases register with same | both
    · rw [← position]
      simp only [Journal.position,same]
    · exact both.2
  have others : ∀ b, (∀ c, c ≠ b → (s.phases c).working = false) → ∀ c, c ≠ b → (t.phases c).working = false :=
    fun b alone c other => free c (alone c other)
  have now : ∀ b, s.base.Owns p b → (s.phases b).working = true → Current p s → Current p t := by
    intro b own busy current
    refine ⟨?_,?_,?_⟩
    · rw [(owns b own busy).2,admission]; exact current.writer
    · rw [begun]; exact current.begun
    · simp only [applied,admission,Journal.batch,begun]; exact current.together
  cases working with
  | resting unused empty zero position =>
    exact .resting (fun c => free c (unused c)) (batch.trans empty) (done.trans zero) (idle position)
  | locking b own at_ alone empty zero position =>
    have busy : (s.phases b).working = true := by rw [at_]; rfl
    exact .locking b (owns b own busy).1 ((phase b own busy).trans at_) (others b alone) (batch.trans empty)
      (done.trans zero) (idle position)
  | cutting b next own at_ alone zero register' current =>
    have busy : (s.phases b).working = true := by rw [at_]; rfl
    refine .cutting b next (owns b own busy).1 ((phase b own busy).trans at_) (others b alone) (done.trans zero) ?_
      (now b own busy current)
    rcases register with same | both
    · exact same.trans register'
    · have cut := both.1
      simp [Journal.position,register'] at cut
  | applying b next own at_ alone counted below position current =>
    have busy : (s.phases b).working = true := by rw [at_]; rfl
    exact .applying b next (owns b own busy).1 ((phase b own busy).trans at_) (others b alone) (done.trans counted)
      (by rw [batch]; exact below) (idle position) (now b own busy current)

theorem base_step (p : PipeId) (checked : Bool) (workers : Nat) (s : Deferred) (a : Action) :
    ∃ phases, s.apply p checked workers (.base a) = {s with base := s.base.apply a,phases := phases} ∧
      (∀ c, a.renews ≠ some c → phases c = s.phases c) ∧ ∀ c, a.renews = some c → phases c = .idle := by
  cases renews : a.renews with
  | none => exact ⟨s.phases,by simp [apply,renews],fun _ _ => rfl,fun c now => by cases now⟩
  | some b =>
    refine ⟨Function.update s.phases b .idle,by simp [apply,renews,setPhase],?_,?_⟩
    · intro c other
      exact Function.update_of_ne (fun same => other (by rw [same])) _ _
    · intro c now
      cases now
      exact Function.update_self _ _ _

theorem base_sound (checked : Bool) (workers : Nat) (sound : Sound p s) (allowed : s.base.Allowed a) (free : s.hinders a = false) :
    Sound p (s.apply p checked workers (.base a)) := by
  obtain ⟨phases,shape,others,renewed⟩ := base_step p checked workers s a
  rw [shape]
  refine ⟨.step sound.base (show system.allowed s.base a from allowed),sound.journal,sound.taken,?_,?_,sound.admitted,
    sound.together⟩
  · intro b due
    change phases b = .due at due
    by_cases renews : a.renews = some b
    · rw [renewed b renews] at due
      cases due
    · rw [others b renews] at due
      rcases sound.due b due with owns | ⟨kind,links⟩
      · exact .inl (owns_on sound allowed free owns (by rw [due]; simp)).1
      · exact .inr (linked_on allowed kind links renews)
  · refine sound.working.kept _ ?_ ?_ ?_ ⟨rfl,rfl,rfl,rfl⟩ rfl (.inl rfl)
    · intro b owns busy
      refine owns_on sound allowed free owns ?_
      intro idle
      rw [idle] at busy
      cases busy
    · intro b owns _
      exact others b (Owns.unrenewed owns allowed)
    · intro c idle
      change (phases c).working = false
      by_cases renews : a.renews = some c
      · rw [renewed c renews]; rfl
      · rw [others c renews]; exact idle

theorem journal_sound (sound : Sound p s) {a : JournalAction} (allowed : s.journal.Allowed checked a)
    (outer : a.outer = true) : Sound p (s.apply p checked workers (.journal a)) := by
  obtain ⟨taken,begun,register⟩ := Journal.outer_kept workers allowed outer
  refine ⟨sound.base,Journal.apply_sound sound.journal allowed,?_,sound.due,?_,sound.admitted,sound.together⟩
  · change (s.journal.apply checked workers a).taken = _++s.pending.map (fun c => (c,(s.journal.apply checked workers a).batch))
    rw [taken,Journal.batch,begun]
    exact sound.taken
  · exact sound.working.kept _ (fun _ owns _ => ⟨owns,rfl⟩) (fun _ _ _ => rfl) (fun _ idle => idle) ⟨rfl,rfl,rfl,rfl⟩
      begun register

end Base

section Commit

-- A task that is not inside the buffer may be called upon to commit.
theorem due_sound (sound : Sound p s) (idle : (s.phases b).working = false) (called : Called p s.base b) :
    Sound p (s.setPhase b .due) := by
  refine ⟨sound.base,sound.journal,sound.taken,?_,?_,sound.admitted,sound.together⟩
  · intro c due
    by_cases same : c = b
    · rw [same]; exact called
    · rw [setPhase_phases,Function.update_of_ne same] at due
      exact sound.due c due
  · refine sound.working.kept _ (fun _ owns _ => ⟨owns,rfl⟩) ?_ ?_ ⟨rfl,rfl,rfl,rfl⟩ rfl (.inl rfl)
    · intro c _ busy
      have other : c ≠ b := by
        rintro rfl
        rw [idle] at busy
        cases busy
      rw [setPhase_phases,Function.update_of_ne other]
    · intro c free
      by_cases same : c = b
      · rw [same,setPhase_phases,Function.update_self]; rfl
      · rw [setPhase_phases,Function.update_of_ne same]; exact free

theorem commit_sound (sound : Sound p s) (allowed : s.Allowed checked (.commit caller fresh token)) :
    Sound p (s.commit p caller fresh token) := by
  obtain ⟨calling,resting⟩ := allowed
  unfold commit
  split
  · rename_i held
    cases caller with
    | none => cases held.1
    | some b =>
      simp only [Option.all_some,Bool.and_eq_true,beq_iff_eq] at calling
      dsimp only
      split
      · exact sound
      · exact due_sound sound (by rw [calling.2]; rfl) (.inl ⟨calling.1,held.2⟩)
  · have armed := base_sound checked 0 sound
      (a := .arm fresh .executable (.single ⟨p,.readWrite⟩) token) ⟨resting,by simp,by simp⟩ rfl
    have idle : ((s.apply p checked 0 (.base (.arm fresh .executable (.single ⟨p,.readWrite⟩) token))).phases fresh).working =
        false := by
      simp [apply,Action.renews,Phase.working]
    have due := due_sound armed idle (.inr (by simp [apply,Action.renews,State.apply]))
    have same : (s.apply p checked 0 (.base (.arm fresh .executable (.single ⟨p,.readWrite⟩) token))).setPhase fresh .due =
        {s with base := s.base.apply (.arm fresh .executable (.single ⟨p,.readWrite⟩) token)}.setPhase fresh .due := by
      simp [apply,Action.renews,setPhase]
    rw [same] at due
    exact due

theorem only_worker (alone : ∀ c, c ≠ b → (s.phases c).working = false) (busy : (s.phases c).working = true) : c = b := by
  by_contra other
  rw [alone c other] at busy
  cases busy

-- The phase of the one task at work is not another one.
theorem other_phase (alone : ∀ c, c ≠ b → (s.phases c).working = false) (busy : (s.phases c).working = true)
    (here : s.phases b = phase) (other : s.phases c ≠ phase) : False := by
  obtain rfl := only_worker alone busy
  exact other here

-- What the phase of a task says of the buffer.
theorem Working.locked (working : Working p s) (at_ : s.phases b = .locking) :
    s.base.Owns p b ∧ (∀ c, c ≠ b → (s.phases c).working = false) ∧ s.commitBatch = [] ∧ s.done = 0 ∧
      s.journal.position = none := by
  have busy : (s.phases b).working = true := by rw [at_]; rfl
  cases working with
  | resting unused => rw [unused b] at busy; cases busy
  | locking c owns _ alone empty zero position =>
    obtain rfl := only_worker alone busy
    exact ⟨owns,alone,empty,zero,position⟩
  | cutting c next _ here alone =>
    exact (other_phase alone busy here (at_ ▸ nofun)).elim
  | applying c next _ here alone =>
    exact (other_phase alone busy here (at_ ▸ nofun)).elim

theorem Working.cut (working : Working p s) (at_ : s.phases b = .cutting) :
    s.base.Owns p b ∧ (∀ c, c ≠ b → (s.phases c).working = false) ∧ s.done = 0 ∧
      (∃ next, s.journal.register = .cutting b next) ∧ Current p s := by
  have busy : (s.phases b).working = true := by rw [at_]; rfl
  cases working with
  | resting unused => rw [unused b] at busy; cases busy
  | locking c _ here alone =>
    exact (other_phase alone busy here (at_ ▸ nofun)).elim
  | cutting c next owns _ alone zero register current =>
    obtain rfl := only_worker alone busy
    exact ⟨owns,alone,zero,⟨next,register⟩,current⟩
  | applying c next _ here alone =>
    exact (other_phase alone busy here (at_ ▸ nofun)).elim

theorem Working.applies (working : Working p s) (at_ : s.phases b = .applying next) :
    s.base.Owns p b ∧ (∀ c, c ≠ b → (s.phases c).working = false) ∧ s.done = next ∧ next ≤ s.commitBatch.length ∧
      s.journal.position = none ∧ Current p s := by
  have busy : (s.phases b).working = true := by rw [at_]; rfl
  cases working with
  | resting unused => rw [unused b] at busy; cases busy
  | locking c _ here alone =>
    exact (other_phase alone busy here (at_ ▸ nofun)).elim
  | cutting c _ _ here alone =>
    exact (other_phase alone busy here (at_ ▸ nofun)).elim
  | applying c _ owns here alone counted below position current =>
    obtain rfl := only_worker alone busy
    rw [at_] at here
    cases here
    exact ⟨owns,alone,counted,below,position,current⟩

-- A task that comes to its turn with the grant finds the buffer empty.
theorem Working.fresh (working : Working p s) (owns : s.base.Owns p b) (idle : (s.phases b).working = false) :
    (∀ c, (s.phases c).working = false) ∧ s.commitBatch = [] ∧ s.done = 0 ∧ s.journal.position = none := by
  have mine : ∀ c, s.base.Owns p c → (s.phases c).working ≠ true := by
    intro c other busy
    rw [owns.alone other] at idle
    rw [idle] at busy
    cases busy
  cases working with
  | resting unused empty zero position => exact ⟨unused,empty,zero,position⟩
  | locking c other here => exact absurd (by rw [here]; rfl) (mine c other)
  | cutting c next other here => exact absurd (by rw [here]; rfl) (mine c other)
  | applying c next other here => exact absurd (by rw [here]; rfl) (mine c other)

end Commit

section Apply

theorem setPhase_due (sound : Sound p s) (b : BlockId) (phase : Phase) (other : phase ≠ .due) :
    ∀ c, Function.update s.phases b phase c = .due → Called p s.base c := by
  intro c due
  by_cases same : c = b
  · rw [same,Function.update_self] at due
    exact absurd due other
  · rw [Function.update_of_ne same] at due
    exact sound.due c due

theorem setPhase_alone (alone : ∀ c, c ≠ b → (s.phases c).working = false) (phase : Phase) :
    ∀ c, c ≠ b → (Function.update s.phases b phase c).working = false := by
  intro c other
  rw [Function.update_of_ne other]
  exact alone c other

theorem clearBatch_sound (sound : Sound p s) (due : s.phases b = .due) (running : (s.base.progress b).status = .running) :
    Sound p (s.clearBatch b) := by
  have owns : s.base.Owns p b := by
    rcases sound.due b due with owns | ⟨_,links⟩
    · exact owns
    · exact State.linked_owns (i := 0) sound.base running (by rw [links]; rfl)
  obtain ⟨unused,empty,zero,position⟩ := sound.working.fresh owns (by rw [due]; rfl)
  refine ⟨sound.base,sound.journal,?_,setPhase_due sound b _ (by simp),?_,sound.admitted,sound.together⟩
  · have taken := sound.taken
    rw [pending,empty,zero] at taken
    exact taken
  · exact .locking b owns (Function.update_self _ _ _) (setPhase_alone (fun c _ => unused c) _) rfl rfl position

theorem cutBegin_sound (sound : Sound p s) (locking : s.phases b = .locking) : Sound p (s.cutBegin p b) := by
  obtain ⟨owns,alone,empty,zero,position⟩ := sound.working.locked locking
  refine ⟨sound.base,Journal.cutBegin_sound sound.journal position b,?_,setPhase_due sound b _ (by simp),?_,sound.admitted,
    sound.together⟩
  · have taken := sound.taken
    simp only [pending,empty,zero] at taken
    simpa [pending,cutBegin,Journal.cutBegin,empty,zero] using taken
  · refine .cutting b 0 owns (Function.update_self _ _ _) (setPhase_alone alone _) zero rfl ⟨rfl,?_,?_⟩
    · simp [cutBegin,Journal.cutBegin]
    · -- no command of this cut has been applied yet
      intro e member same
      have below := sound.batch_lt member
      have latest : (s.journal.cutBegin b).batch = s.journal.begun.length := by
        simp [Journal.cutBegin,Journal.batch]
      exact absurd (same.trans latest) (Nat.ne_of_lt below)

theorem cutNext_sound (sound : Sound p s) (cutting : s.phases b = .cutting) : Sound p (s.cutNext b) := by
  obtain ⟨owns,alone,zero,⟨next,register⟩,current⟩ := sound.working.cut cutting
  have here : s.journal.nextCut b = some next := by simp [Journal.nextCut,register]
  simp only [cutNext,here]
  refine ⟨sound.base,Journal.cutSlot_sound sound.journal (Journal.nextCut_position here).1 b,?_,sound.due,?_,
    sound.admitted,sound.together⟩
  · have taken := sound.taken
    simp only [pending,zero,List.drop_zero] at taken
    simp only [Journal.cutSlot,pending,zero,List.drop_zero,List.map_append,taken,List.append_assoc]
    rfl
  · exact .cutting b (next+1) owns cutting alone zero rfl ⟨current.writer,current.begun,current.together⟩

theorem cutEnd_sound (sound : Sound p s) (cutting : s.phases b = .cutting)
    (allowed : s.journal.Allowed checked (.cutEnd b)) : Sound p (s.cutEnd b) := by
  obtain ⟨owns,alone,zero,_,current⟩ := sound.working.cut cutting
  exact ⟨sound.base,Journal.cutEnd_sound sound.journal (Journal.nextCut_position allowed).1,sound.taken,
    setPhase_due sound b _ (by simp),
    .applying b 0 owns (Function.update_self _ _ _) (setPhase_alone alone _) zero (Nat.zero_le _) rfl
      ⟨current.writer,current.begun,current.together⟩,
    sound.admitted,sound.together⟩

theorem applyNext_sound (sound : Sound p s) (applying : s.phases b = .applying next)
    (inside : next < s.commitBatch.length) : Sound p (s.applyNext p b) := by
  obtain ⟨owns,alone,counted,below,position,current⟩ := sound.working.applies applying
  obtain ⟨k,_,mode,_,writer⟩ := owns.ticket sound.base
  have item : s.commitBatch[next]? = some s.commitBatch[next] := List.getElem?_eq_getElem inside
  simp only [applyNext,applying,item]
  have members : ∀ e ∈ s.applied++[Applied.mk s.commitBatch[next] s.journal.batch (s.base.pipes p).writer],
      e ∈ s.applied ∨ e = Applied.mk s.commitBatch[next] s.journal.batch (s.base.pipes p).writer := by
    intro e member
    simpa using member
  refine ⟨sound.base,sound.journal,?_,setPhase_due sound b _ (by simp),?_,?_,?_⟩
  · have split : s.pending = s.commitBatch[next] :: s.commitBatch.drop (next+1) := by
      rw [pending,counted,List.drop_eq_getElem_cons inside]
    have taken := sound.taken
    rw [split,List.map_cons,List.append_cons] at taken
    simpa [setPhase,pending,counted] using taken
  · refine .applying b (next+1) owns (Function.update_self _ _ _) (setPhase_alone alone _) ?_ inside position
      ⟨current.writer,current.begun,?_⟩
    · exact congrArg (·+1) counted
    · intro e member same
      rcases members e member with old | rfl
      · exact current.together e old same
      · exact current.writer
  · intro e member
    rcases members e member with old | rfl
    · exact sound.admitted e old
    · exact ⟨k,writer,mode⟩
  · intro e one f two same
    rcases members e one with old | rfl
    · rcases members f two with prior | rfl
      · exact sound.together e old f prior same
      · exact (current.together e old same).trans current.writer.symm
    · rcases members f two with prior | rfl
      · exact current.writer.trans (current.together f prior same.symm).symm
      · rfl

theorem applyEnd_sound (sound : Sound p s) (applying : s.phases b = .applying s.commitBatch.length) :
    Sound p (s.applyEnd b) := by
  obtain ⟨owns,alone,counted,below,position,current⟩ := sound.working.applies applying
  refine ⟨sound.base,sound.journal,?_,setPhase_due sound b _ (by simp),?_,sound.admitted,sound.together⟩
  · have taken := sound.taken
    simp only [pending,counted,List.drop_length] at taken
    simpa [applyEnd,setPhase,pending] using taken
  · refine .resting ?_ rfl rfl position
    intro c
    by_cases same : c = b
    · simp [applyEnd,same,Phase.working]
    · exact setPhase_alone alone .idle c same

theorem apply_sound (sound : Sound p s) (allowed : s.Allowed checked a) : Sound p (s.apply p checked workers a) := by
  cases a with
  | base a => exact base_sound checked workers sound allowed.1 allowed.2
  | journal a => exact journal_sound sound allowed.1 allowed.2
  | commit caller fresh token => exact commit_sound sound allowed
  | clearBatch b => exact clearBatch_sound sound allowed.1 allowed.2
  | cutBegin b => exact cutBegin_sound sound allowed.1
  | cutNext b => exact cutNext_sound sound allowed.1
  | cutEnd b => exact cutEnd_sound sound allowed.1 allowed.2
  | applyNext b =>
    obtain ⟨next,inside,applying⟩ := allowed
    exact applyNext_sound sound applying inside
  | applyEnd b => exact applyEnd_sound sound allowed

end Apply

end Deferred

theorem deferred_sound (path : Machines.Reached (deferredSystem p checked workers) s) : Deferred.Sound p s := by
  refine Machines.reached_invariant (Deferred.Sound p) ?_ ?_ path
  · rintro s rfl
    exact Deferred.sound_initial
  · intro s a sound allowed
    exact Deferred.apply_sound sound allowed

-- Its commands are being cut or applied.
def Phase.batching : Phase → Bool
  | .cutting => true
  | .applying _ => true
  | _ => false

namespace Deferred

-- In the batch of cut `n`: waiting there, or applied from it.
def TakenBy (s : Deferred) (n : Nat) (c : Command) : Prop :=
  c ∈ s.pending ∧ n = s.journal.batch ∨ ∃ e ∈ s.applied, e.command = c ∧ e.batch = n

-- The commit that made cut `n` has applied it.
def Over (s : Deferred) (n : Nat) : Prop := n+1 < s.journal.begun.length ∨ ∀ b, (s.phases b).batching = false

-- What holds of the commands staged so far. `inOrder` speaks of one recorder,
-- or of one lane of a parallel recorder; `byCut` of every slot a cut has been
-- at; `byCommit` of every commit that is over, whoever staged and whether the
-- recorder still exists.
structure Lossless (p : PipeId) (s : Deferred) : Prop where
  stamped : ∀ (n : Nat) c, s.journal.issued[n]? = some c → c.stamp = n
  once : ∀ c, s.journal.staged.count c+s.pending.count c+(s.applied.map Applied.command).count c+
    s.journal.discarded.count c = s.journal.issued.count c ∧ s.journal.issued.count c ≤ 1
  inOrder : (s.applied.map Applied.command).Pairwise
    (fun c d => c.recorder = d.recorder → c.lane = d.lane → c.stamp < d.stamp)
  byCut : ∀ k ∈ s.journal.cuts, ∀ c ∈ s.journal.issued, c.slot = k.bin →
    (c.stamp < k.stamp → c ∈ s.journal.discarded ∨ ∃ n ≤ k.batch, s.TakenBy n c) ∧
      (k.stamp ≤ c.stamp → ∀ n, s.TakenBy n c → k.batch < n)
  byCommit : ∀ (n : Nat) total, s.journal.begun[n]? = some total → s.Over n → ∀ c ∈ s.journal.issued, c.stamp < total →
    c ∈ s.journal.discarded ∨ ∃ e ∈ s.applied, e.command = c ∧ e.batch ≤ n
  admission : ∀ e ∈ s.applied, ∃ k, k.link.mode = .readWrite ∧
    ∀ f ∈ s.applied, f.batch = e.batch → f.admission = some k
  admitted : ∀ b, (s.phases b).batching = true → s.base.Owns p b ∧
    ∃ k ∈ (s.base.pipes p).outstanding, k.link.mode = .readWrite ∧
      ∀ e ∈ s.applied, e.batch = s.journal.batch → e.admission = some k

variable {p : PipeId} {s : Deferred}

theorem takenBy_iff (sound : Sound p s) : s.TakenBy n c ↔ (c,n) ∈ s.journal.taken := by
  rw [sound.taken,List.mem_append,List.mem_map,List.mem_map]
  constructor
  · rintro (⟨waiting,rfl⟩ | ⟨e,member,rfl,rfl⟩)
    · exact .inr ⟨c,waiting,rfl⟩
    · exact .inl ⟨e,member,rfl⟩
  · rintro (⟨e,member,same⟩ | ⟨d,waiting,same⟩)
    · cases same
      exact .inr ⟨e,member,rfl,rfl⟩
    · cases same
      exact .inl ⟨waiting,rfl⟩

theorem taken_names (sound : Sound p s) : s.journal.taken.map Prod.fst = s.applied.map Applied.command++s.pending := by
  rw [sound.taken]
  simp [Function.comp_def]

theorem gone_taken (sound : Sound p s) (gone : s.journal.row.Gone n c) :
    c ∈ s.journal.discarded ∨ ∃ m ≤ n, s.TakenBy m c := by
  rcases gone with dropped | ⟨m,low,taken⟩
  · exact .inl dropped
  · exact .inr ⟨m,low,(takenBy_iff sound).mpr taken⟩

theorem batching_current (sound : Sound p s) (batching : (s.phases b).batching = true) :
    s.base.Owns p b ∧ Current p s := by
  cases at_ : s.phases b with
  | cutting =>
    obtain ⟨owns,_,_,_,current⟩ := sound.working.cut at_
    exact ⟨owns,current⟩
  | applying next =>
    obtain ⟨owns,_,_,_,_,current⟩ := sound.working.applies at_
    exact ⟨owns,current⟩
  | _ => rw [at_] at batching; cases batching

-- Between commits nothing waits in the batch and no cut is under way.
theorem between_empty (sound : Sound p s) (still : ∀ b, (s.phases b).batching = false) :
    s.pending = [] ∧ s.journal.position = none := by
  have none_batching : ∀ b phase, s.phases b = phase → phase.batching = true → False := by
    rintro b phase rfl busy
    rw [still b] at busy
    cases busy
  cases sound.working with
  | resting _ empty zero position => exact ⟨by simp [pending,empty],position⟩
  | locking _ _ _ _ empty zero position => exact ⟨by simp [pending,empty],position⟩
  | cutting b _ _ at_ => exact (none_batching b _ at_ rfl).elim
  | applying b _ _ at_ => exact (none_batching b _ at_ rfl).elim

-- A batch that is over has been applied.
theorem over_applied (sound : Sound p s) (past : s.Over n) (taken : s.TakenBy n c) :
    ∃ e ∈ s.applied, e.command = c ∧ e.batch = n := by
  rcases taken with ⟨waiting,rfl⟩ | applied
  · rcases past with later | still
    · simp only [Journal.batch] at later
      omega
    · rw [(between_empty sound still).1] at waiting
      cases waiting
  · exact applied

theorem lossless (sound : Sound p s) : Lossless p s where
  stamped := sound.journal.row.stamped
  once := by
    intro c
    refine ⟨?_,sound.journal.row.once c⟩
    have counted := sound.journal.row.conserved c
    have names : s.journal.row.taken.map Prod.fst = _ := taken_names sound
    rw [names,List.count_append] at counted
    have staged : s.journal.row.bins.flatten = s.journal.staged := rfl
    have issued : s.journal.row.issued = s.journal.issued := rfl
    have dropped : s.journal.row.dropped = s.journal.discarded := rfl
    rw [staged,issued,dropped] at counted
    omega
  inOrder := by
    have drawn := sound.journal.row.drawn
    have names : s.journal.row.taken.map Prod.fst = _ := taken_names sound
    rw [names] at drawn
    refine List.Pairwise.imp_of_mem ?_ (List.pairwise_append.mp drawn).1
    intro c d one two lower mine lane
    have known : ∀ c ∈ s.applied.map Applied.command, c ∈ s.journal.issued := by
      intro c member
      refine sound.journal.row.known.mpr (.inr (.inl ?_))
      rw [names]
      exact List.mem_append_left _ member
    exact lower (sound.journal.homes.lanes c (known c one) d (known d two) mine lane)
  byCut := by
    intro k member c issued same
    refine ⟨?_,?_⟩
    · intro earlier
      exact gone_taken sound (sound.journal.row.before k member c issued same earlier)
    · intro later n taken
      exact sound.journal.row.after k member c n ((takenBy_iff sound).mp taken) same later
  byCommit := by
    intro n total begun past c issued earlier
    have below : n < s.journal.begun.length := (List.getElem?_eq_some_iff.mp begun).1
    have gone : s.journal.row.Gone n c := by
      refine sound.journal.row.swept n total begun c issued earlier ?_
      intro next position latest
      rcases past with later | still
      · exact absurd latest (Nat.ne_of_lt later)
      · have idle := (between_empty sound still).2
        rw [show s.journal.position = some next from position] at idle
        cases idle
    rcases gone_taken sound gone with dropped | ⟨m,low,taken⟩
    · exact .inl dropped
    · have overrun' : s.Over m := by
        rcases past with later | still
        · exact .inl (by omega)
        · exact .inr still
      obtain ⟨e,member,same,batch⟩ := over_applied sound overrun' taken
      exact .inr ⟨e,member,same,by rw [batch]; exact low⟩
  admission := by
    intro e member
    obtain ⟨k,admitted,mode⟩ := sound.admitted e member
    refine ⟨k,mode,?_⟩
    intro f other same
    exact (sound.together f other e member same).trans admitted
  admitted := by
    intro b batching
    obtain ⟨owns,current⟩ := batching_current sound batching
    obtain ⟨k,only,mode,_,writer⟩ := owns.ticket sound.base
    refine ⟨owns,k,by rw [only]; exact List.mem_singleton_self k,mode,?_⟩
    intro e member same
    rw [current.together e member same,← current.writer,writer]

-- What a cut has taken stays in its batch.
theorem taken_grows (allowed : s.Allowed checked a) (taken : e ∈ s.journal.taken) :
    e ∈ (s.apply p checked workers a).journal.taken := by
  cases a with
  | base a =>
    obtain ⟨phases,shape,_⟩ := base_step p checked workers s a
    rw [shape]
    exact taken
  | journal a =>
    change e ∈ (s.journal.apply checked workers a).taken
    rw [(Journal.outer_kept workers allowed.1 allowed.2).1]
    exact taken
  | commit caller fresh token =>
    simp only [apply,commit]
    split
    · split
      · split <;> exact taken
      · exact taken
    · exact taken
  | cutNext b =>
    simp only [apply,cutNext]
    split
    · exact List.mem_append_left _ taken
    · exact taken
  | applyNext b =>
    simp only [apply,applyNext]
    split
    · split <;> exact taken
    · exact taken
  | _ => exact taken

end Deferred

-- Nothing is lost and nothing is applied twice: in every reached state every
-- command is in one place and in order, and whatever a cut has taken stays in
-- that cut's batch.
theorem deferred_conserves {s : Deferred} (path : Machines.Reached (deferredSystem p checked workers) s) :
    Deferred.Lossless p s ∧
      ∀ actions t, Machines.Runs (deferredSystem p checked workers) s actions t →
        ∀ n c, s.TakenBy n c → t.TakenBy n c := by
  have sound := deferred_sound path
  refine ⟨Deferred.lossless sound,?_⟩
  intro actions t run n c taken
  have grows : ∀ e ∈ s.journal.taken, e ∈ t.journal.taken := by
    refine Machines.runs_related (fun s t : Deferred => ∀ e ∈ s.journal.taken, e ∈ t.journal.taken)
      (fun _ _ member => member) (fun _ _ _ one two e member => two e (one e member)) ?_ path run
    intro r a reached allowed e member
    exact Deferred.taken_grows allowed member
  exact (Deferred.takenBy_iff (deferred_sound (Machines.runs_reached path run))).mpr
    (grows _ ((Deferred.takenBy_iff sound).mp taken))

-- A recorder stages and dies, its slot goes to the next one; a parallel recorder
-- stages on two lanes; a commit is enqueued and one more command comes in behind
-- its cut.
def commitRun : List DeferredAction :=
  [.journal (.recorder 0),.journal (.stage 0 (-1)),.journal (.stage 0 2),.journal (.release 0),.journal (.releaseNext 0),
    .journal (.recorder 1),.journal (.stage 1 0),.journal (.parallelRecorder 2),.journal (.mintLane 2),
    .journal (.mintLane 2),.journal (.stage 2 (-1)),.journal (.stage 2 0),.commit none 5 none,.base (.launch 5),
    .base (.resume (.own 5 (.fireTurn 0))),.base (.resume (.own 5 .turnRelease)),.base (.resume (.own 5 .execute)),
    .clearBatch 5,.cutBegin 5,.cutNext 5,.journal (.stage 1 3),.cutNext 5,.cutNext 5,.cutEnd 5,.applyNext 5,
    .applyNext 5,.applyNext 5,.applyNext 5]

theorem deferred_conserves_straggler :
    let s := (deferredSystem 0 true 1).follow {} commitRun
    s.applied.map (·.command.stamp) = [0,1,2,3] ∧ s.pending.map Command.stamp = [4] ∧
      s.journal.staged.map Command.stamp = [5] ∧ Deferred.Lossless 0 s :=
  ⟨by decide,by decide,by decide,
    (deferred_conserves (p := 0) (Machines.reached_follow (.start rfl) (by decide))).1⟩

end Macrame

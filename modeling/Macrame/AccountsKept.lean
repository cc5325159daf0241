import Mathlib.Data.List.Nodup
import Macrame.BlockMoves

namespace Macrame
namespace Tracked

-- A pipe section on behalf of `l` moves `l` and leaves every other party where it is.
def Moves (l : PipeLink) (before after : Tracked) : Prop :=
  ∀ x, x ≠ l → after.pipe.queue.count x = before.pipe.queue.count x ∧ after.held.count x = before.held.count x

theorem enter_now {t : Tracked} (now : (t.enter l).2 = true) :
    (t.enter l).1.pipe.queue = t.pipe.queue ∧ (t.enter l).1.held = t.held++[l] := by
  simp only [enter,Pipe.enterLocked] at now ⊢
  split at now
  · rename_i free
    simp [free,held,noteAdmitted]
  · cases now

theorem enter_later {t : Tracked} (later : (t.enter l).2 = false) :
    (t.enter l).1.pipe.queue = t.pipe.queue++[l] ∧ (t.enter l).1.held = t.held := by
  simp only [enter,Pipe.enterLocked] at later ⊢
  split at later
  · cases later
  · rename_i busy
    simp [busy,held,Pipe.queuePush]

theorem count_append_other {x l : PipeLink} (links : List PipeLink) (apart : x ≠ l) :
    (links++[l]).count x = links.count x := by
  simp [List.count_append,Ne.symm apart]

theorem enter_moves (t : Tracked) (l : PipeLink) : Moves l t (t.enter l).1 := by
  intro x apart
  cases now : (t.enter l).2 with
  | true =>
    obtain ⟨queue,held⟩ := enter_now now
    rw [queue,held]
    exact ⟨rfl,count_append_other _ apart⟩
  | false =>
    obtain ⟨queue,held⟩ := enter_later now
    rw [queue,held]
    exact ⟨count_append_other _ apart,rfl⟩

theorem admitInline_parts (t : Tracked) (l : PipeLink) :
    (t.admitInline l).pipe.queue = t.pipe.queue ∧ (t.admitInline l).held = t.held++[l] := by
  simp [admitInline,held,noteAdmitted]

theorem admitInline_moves (t : Tracked) (l : PipeLink) : Moves l t (t.admitInline l) := by
  intro x apart
  obtain ⟨queue,held⟩ := admitInline_parts t l
  rw [queue,held]
  exact ⟨rfl,count_append_other _ apart⟩

theorem forget_moves (t : Tracked) (l : PipeLink) : Moves l t (t.forget l) := by
  intro x apart
  simp [List.count_erase_of_ne apart]

theorem admitHead_parts (t : Tracked) (l : PipeLink) (rest : List PipeLink) :
    (t.admitHead l rest).pipe.queue = rest ∧ (t.admitHead l rest).held = t.held++[l] := by
  simp [admitHead,held,noteAdmitted]

theorem admitHead_moves {t : Tracked} (queue : t.pipe.queue = l :: rest) : Moves l t (t.admitHead l rest) := by
  intro x apart
  obtain ⟨left,held⟩ := admitHead_parts t l rest
  rw [left,held,queue]
  exact ⟨by simp [Ne.symm apart],count_append_other _ apart⟩

end Tracked

namespace State

section Pipes

variable {s : State} {p : PipeId} {t : Tracked} {l : PipeLink}

theorem moved_footprint (moves : Tracked.Moves l (s.pipes p) t) (apart : ∀ i, l.party ≠ .link c i) :
    (s.setPipe p t).footprint c = s.footprint c := by
  have away : ∀ i m, (⟨.link c i,m⟩ : PipeLink) ≠ l := by
    intro i m same; exact apart i (by rw [← same])
  exact setPipe_footprint s p t c (fun i m => (moves _ (away i m)).1) (fun i m => (moves _ (away i m)).2)

theorem moved_holdprint (moves : Tracked.Moves l (s.pipes p) t) (apart : ∀ o, l.party ≠ .hold h o) :
    (s.setPipe p t).holdprint h = s.holdprint h := by
  have away : ∀ o m, (⟨.hold h o,m⟩ : PipeLink) ≠ l := by
    intro o m same; exact apart o (by rw [← same])
  exact setPipe_holdprint s p t h (fun o m => (moves _ (away o m)).1) (fun o m => (moves _ (away o m)).2)

end Pipes

-- The effect of a section on the party it is for.
theorem moved_own (s : State) (p : PipeId) (t : Tracked) (b : BlockId) (i : Nat) (m : Access)
    (moves : Tracked.Moves ⟨.link b i,m⟩ (s.pipes p) t) :
    (s.setPipe p t).footprint b = {s.footprint b with
      queued := fun q j n => if q = p ∧ j = i ∧ n = m then t.pipe.queue.count ⟨.link b i,m⟩ else (s.footprint b).queued q j n,
      held := fun q j n => if q = p ∧ j = i ∧ n = m then t.held.count ⟨.link b i,m⟩ else (s.footprint b).held q j n} := by
  have parts : ∀ q j n, ((s.setPipe p t).footprint b).queued q j n =
        (if q = p ∧ j = i ∧ n = m then t.pipe.queue.count ⟨.link b i,m⟩ else (s.footprint b).queued q j n) ∧
      ((s.setPipe p t).footprint b).held q j n =
        (if q = p ∧ j = i ∧ n = m then t.held.count ⟨.link b i,m⟩ else (s.footprint b).held q j n) := by
    intro q j n
    by_cases there : q = p
    · subst there
      by_cases here : j = i ∧ n = m
      · obtain ⟨rfl,rfl⟩ := here
        simp [footprint]
      · have away : (⟨.link b j,n⟩ : PipeLink) ≠ ⟨.link b i,m⟩ := by simpa using here
        simp [footprint,here,moves _ away]
    · simp [footprint,there]
  have queued := funext fun q => funext fun j => funext fun n => (parts q j n).1
  have held := funext fun q => funext fun j => funext fun n => (parts q j n).2
  rw [← queued,← held]
  rfl

theorem moved_receive (s : State) (moves : Tracked.Moves ⟨.link b i,m⟩ (s.pipes p) t)
    (queue : t.pipe.queue = (s.pipes p).pipe.queue) (held : t.held = (s.pipes p).held++[⟨.link b i,m⟩]) :
    (s.setPipe p t).footprint b = (s.footprint b).receive p i m := by
  rw [moved_own s p t b i m moves,queue,held]
  simp only [Footprint.receive,Footprint.mk.injEq,true_and,and_true]
  refine ⟨?_,?_⟩ <;> funext q j n <;> split <;> rename_i there <;> simp_all [footprint]

theorem moved_enqueue (s : State) (moves : Tracked.Moves ⟨.link b i,m⟩ (s.pipes p) t)
    (queue : t.pipe.queue = (s.pipes p).pipe.queue++[⟨.link b i,m⟩]) (held : t.held = (s.pipes p).held) :
    (s.setPipe p t).footprint b = (s.footprint b).enqueue p i m := by
  rw [moved_own s p t b i m moves,queue,held]
  simp only [Footprint.enqueue,Footprint.mk.injEq,true_and,and_true]
  refine ⟨?_,?_⟩ <;> funext q j n <;> split <;> rename_i there <;> simp_all [footprint]

theorem moved_leave (s : State) (moves : Tracked.Moves ⟨.link b i,m⟩ (s.pipes p) t)
    (queue : t.pipe.queue = (s.pipes p).pipe.queue) (held : t.held = (s.pipes p).held.erase ⟨.link b i,m⟩) :
    (s.setPipe p t).footprint b = (s.footprint b).leave p i m := by
  rw [moved_own s p t b i m moves,queue,held]
  simp only [Footprint.leave,Footprint.mk.injEq,true_and,and_true]
  refine ⟨?_,?_⟩ <;> funext q j n <;> split <;> rename_i there <;> simp_all [footprint]

theorem moved_head (s : State) (moves : Tracked.Moves ⟨.link b i,m⟩ (s.pipes p) t)
    (queue : (s.pipes p).pipe.queue = ⟨.link b i,m⟩ :: t.pipe.queue)
    (held : t.held = (s.pipes p).held++[⟨.link b i,m⟩]) :
    (s.setPipe p t).footprint b = ((s.footprint b).dequeue p i m).receive p i m := by
  rw [moved_own s p t b i m moves,held]
  simp only [Footprint.receive,Footprint.dequeue,Footprint.mk.injEq,true_and,and_true]
  refine ⟨?_,?_⟩ <;> funext q j n <;> split <;> rename_i there <;> simp_all [footprint]

end State

-- The accounts with block `b` left open: every step below works on one block and closes it again.
structure AccountsBut (s : State) (b : BlockId) : Prop where
  others : ∀ c, c ≠ b → (s.footprint c).Sound
  holds : ∀ h, (s.holdprint h).Sound
  nested : ∀ c d, (s.progress c).attached.count d = if (s.blocks d).nestedParent = some c then 1 else 0

theorem Accounts.but (acc : Accounts s) (b : BlockId) : AccountsBut s b :=
  ⟨fun c _ => acc.blocks c,acc.holds,acc.nested⟩

namespace AccountsBut

theorem close (acc : AccountsBut s b) (own : (s.footprint b).Sound) : Accounts s := by
  refine ⟨?_,acc.holds,acc.nested⟩
  intro c
  by_cases same : c = b
  · rw [same]; exact own
  · exact acc.others c same

theorem push (acc : AccountsBut s b) (f : LocalFrame) : AccountsBut (s.push (.own b f)) b := by
  refine ⟨?_,?_,acc.nested⟩
  · intro c apart; rw [State.push_other apart]; exact acc.others c apart
  · intro h; rw [State.push_holdprint]; exact acc.holds h

theorem drop (acc : AccountsBut s b) (f : LocalFrame) : AccountsBut (s.drop (.own b f)) b := by
  refine ⟨?_,?_,acc.nested⟩
  · intro c apart; rw [State.drop_other apart]; exact acc.others c apart
  · intro h; rw [State.drop_holdprint]; exact acc.holds h

theorem setBlock (acc : AccountsBut s b) (blk : Block) (parent : blk.nestedParent = (s.blocks b).nestedParent) :
    AccountsBut (s.setBlock b blk) b := by
  refine ⟨?_,acc.holds,?_⟩
  · intro c apart; rw [State.setBlock_other apart]; exact acc.others c apart
  · intro c d
    have same_parent : ((s.setBlock b blk).blocks d).nestedParent = (s.blocks d).nestedParent := by
      by_cases same : d = b
      · subst same; simpa using parent
      · simp [same]
    rw [same_parent]
    exact acc.nested c d

theorem setProgress (acc : AccountsBut s b) (pr : Progress) (attached : pr.attached = (s.progress b).attached) :
    AccountsBut (s.setProgress b pr) b := by
  refine ⟨?_,acc.holds,?_⟩
  · intro c apart; rw [State.setProgress_other apart]; exact acc.others c apart
  · intro c d
    have same_attached : ((s.setProgress b pr).progress c).attached = (s.progress c).attached := by
      by_cases same : c = b
      · subst same; simpa using attached
      · simp [same]
    rw [same_attached]
    exact acc.nested c d

theorem setStatus (acc : AccountsBut s b) (status : Status) : AccountsBut (s.setStatus b status) b :=
  acc.setProgress _ rfl

theorem setPipe (acc : AccountsBut s b) (moves : Tracked.Moves ⟨.link b i,m⟩ (s.pipes p) t) :
    AccountsBut (s.setPipe p t) b := by
  refine ⟨?_,?_,acc.nested⟩
  · intro c apart
    rw [State.moved_footprint moves (by intro j same; cases same; exact apart rfl)]
    exact acc.others c apart
  · intro h
    rw [State.moved_holdprint moves (by intro o same; cases same)]
    exact acc.holds h

end AccountsBut

namespace State

-- `pipe_enter_link`, from a state in which link `i` of `b` is the next to enter.
theorem enterLink_accounts (acc : AccountsBut s b) (entering : (s.footprint b).Entering i)
    (place : (s.blocks b).links.entries[i]? = some link) : Accounts (s.enterLink b i) := by
  have moves := Tracked.enter_moves (s.pipes link.pipe) ⟨.link b i,link.mode⟩
  have moved := (acc.setPipe moves).setBlock {s.blocks b with pipesEntered := i+1} rfl
  simp only [enterLink,place]
  cases now : ((s.pipes link.pipe).enter ⟨.link b i,link.mode⟩).2 with
  | true =>
    obtain ⟨queue,held⟩ := Tracked.enter_now now
    refine ((moved.setStatus _).push _).close ?_
    simp only [push_own,setStatus_own,setBlock_own,moved_receive s moves queue held]
    exact entering.sound_admitted place
  | false =>
    obtain ⟨queue,held⟩ := Tracked.enter_later now
    refine (moved.setStatus _).close ?_
    simp only [setStatus_own,setBlock_own,moved_enqueue s moves queue held]
    exact entering.sound_waiting place

theorem pending_frames {s : State} (pending : .own b f ∈ s.pending) : 0 < (s.footprint b).frames f :=
  List.count_pos_iff.mpr pending

theorem fireTurn_accounts (acc : Accounts s) (pending : .own b (.fireTurn i) ∈ s.pending) :
    Accounts (s.runFrame (.own b (.fireTurn i))) := by
  have sound := acc.blocks b
  have expects := sound.expected rfl (pending_frames pending)
  have status : (s.progress b).status = .admitted i := by
    cases shape : (s.progress b).status <;> simp_all [Status.expects]
  have entering := sound.entering_next status
  have begun := ((acc.but b).drop (.fireTurn i)).push .turnRelease
  simp only [runFrame,runOwn,fireTurn]
  by_cases more : i+1 < (s.blocks b).links.count
  · obtain ⟨link,place⟩ : ∃ link, (s.blocks b).links.entries[i+1]? = some link :=
      ⟨_,List.getElem?_eq_getElem more⟩
    simp only [drop_blocks,more,ite_true]
    refine enterLink_accounts begun ?_ place
    simpa using entering
  · simp only [drop_blocks,more,ite_false]
    refine (begun.setStatus .turned).close ?_
    simp only [setStatus_own,push_own,drop_own]
    have locks := sound.locks
    simp only [LocksSound,footprint_progress,status] at locks
    have last : i+1 = (s.blocks b).links.count := by
      have := locks.1
      simp only [footprint_block] at this
      omega
    refine entering.sound_turned last ?_ ?_
    · simp [Footprint.turns]
    · have entered := sound.entered
      rw [footprint_progress,status] at entered
      exact entered

theorem turnRelease_accounts (acc : Accounts s) (pending : .own b .turnRelease ∈ s.pending) :
    Accounts (s.runFrame (.own b .turnRelease)) := by
  have dropped := (acc.but b).drop .turnRelease
  have after := dropped.setBlock ((s.blocks b).release false).1 rfl
  simp only [runFrame,runOwn,releaseBlock,drop_blocks,drop_progress]
  rcases (acc.blocks b).turn_release (pending_frames pending) with ⟨branch,sound⟩ | ⟨branch,sound⟩
  · rw [footprint_block] at branch
    rw [branch]
    refine after.close ?_
    simpa using sound
  · rw [footprint_block] at branch
    rw [branch]
    refine ((after.setProgress _ ?_).push _).close ?_
    · rfl
    · simpa using sound

theorem childRelease_accounts (acc : Accounts s) (pending : .own b (.childRelease heard) ∈ s.pending) :
    Accounts (s.runFrame (.own b (.childRelease heard))) := by
  have dropped := (acc.but b).drop (.childRelease heard)
  have after := dropped.setBlock ((s.blocks b).release heard).1 rfl
  simp only [runFrame,runOwn,releaseBlock,drop_blocks,drop_progress]
  rcases (acc.blocks b).child_release (pending_frames pending) with ⟨branch,sound⟩ | ⟨branch,sound⟩
  · rw [footprint_block] at branch
    rw [branch]
    refine after.close ?_
    simpa using sound
  · rw [footprint_block] at branch
    rw [branch]
    refine ((after.setProgress _ ?_).push _).close ?_
    · rfl
    · simpa using sound

theorem execute_accounts (acc : Accounts s) (pending : .own b .execute ∈ s.pending) :
    Accounts (s.runFrame (.own b .execute)) := by
  have sound := acc.blocks b
  have expects := sound.expected rfl (pending_frames pending)
  have status : (s.progress b).status = .ready := by
    cases shape : (s.progress b).status <;> simp_all [Status.expects]
  have unclaimed : (s.blocks b).bodyClaimed = false := sound.cycle.unclaimed (.inr status)
  have dropped := (acc.but b).drop .execute
  simp only [runFrame,runOwn,execute,drop_blocks,drop_progress,unclaimed,Bool.false_eq_true,ite_false]
  split
  · refine (((dropped.setBlock _ ?_).setProgress _ ?_).push _).close ?_
    · rfl
    · rfl
    · simpa using sound.skipped status
  · refine ((dropped.setBlock _ ?_).setProgress _ ?_).close ?_
    · rfl
    · rfl
    · simpa using sound.ran status

-- The settle of a block that gates nobody.
theorem settleOrphan_accounts (acc : Accounts s) (status : (s.progress b).status = .finishing cancel)
    (kind : (s.blocks b).kind ≠ .callerOwned) (orphan : (s.blocks b).nestedParent = none) :
    Accounts ((s.drop (.own b (.complete cancel))).settle b cancel) := by
  refine (((((acc.but b).drop _).setBlock _ ?_).setProgress _ ?_).push _).close ?_
  · exact orphan.symm
  · rfl
  · simpa using (acc.blocks b).settledFirst status kind

-- The settle of a nested child: its parent's attachment becomes a pending release.
theorem settleChild_accounts (acc : Accounts s) (status : (s.progress b).status = .finishing cancel)
    (kind : (s.blocks b).kind ≠ .callerOwned) (parent : (s.blocks b).nestedParent = some q) :
    Accounts (((s.drop (.own b (.complete cancel))).settle b cancel).releaseParent q b cancel) := by
  have gates : (s.progress q).attached.count b = 1 := by
    rw [acc.nested q b,parent,if_pos rfl]
  have member : b ∈ (s.progress q).attached := List.count_pos_iff.mp (by omega)
  have apart : q ≠ b := by
    rintro rfl
    have unattached := ((acc.blocks q).unlocked (.inr (.inl ⟨_,status⟩))).2.2.1
    rw [footprint_progress] at unattached
    rw [unattached] at member
    cases member
  refine ⟨?_,?_,?_⟩
  · intro c
    by_cases child : c = b
    · subst child
      simpa [releaseParent,settle,Ne.symm apart] using (acc.blocks c).settledFirst status kind
    · by_cases gated : c = q
      · subst gated
        simpa [releaseParent,settle,child] using (acc.blocks c).child_settled member cancel
      · simpa [releaseParent,settle,child,gated] using acc.blocks c
  · intro h
    simpa [releaseParent,settle] using acc.holds h
  · intro c d
    have before := acc.nested c d
    by_cases gated : c = q
    · subst gated
      by_cases child : d = b
      · subst child
        simp [releaseParent,settle,apart,gates]
      · simpa [releaseParent,settle,apart,child,List.count_erase_of_ne] using before
    · have same : ((((s.drop (.own b (.complete cancel))).settle b cancel).releaseParent q b cancel).progress c).attached =
          (s.progress c).attached := by
        by_cases own : c = b
        · subst own; simp [releaseParent,settle,gated]
        · simp [releaseParent,settle,gated,own]
      rw [same,before]
      by_cases child : d = b
      · subst child
        simp [releaseParent,settle,parent,Ne.symm gated]
      · simp [releaseParent,settle,child]

theorem settleFirst_accounts (acc : Accounts s) (status : (s.progress b).status = .finishing cancel)
    (kind : (s.blocks b).kind ≠ .callerOwned) :
    Accounts (match (s.blocks b).nestedParent with
      | none => (s.drop (.own b (.complete cancel))).settle b cancel
      | some parent => ((s.drop (.own b (.complete cancel))).settle b cancel).releaseParent parent b cancel) := by
  cases parent : (s.blocks b).nestedParent with
  | none => exact settleOrphan_accounts acc status kind parent
  | some q => exact settleChild_accounts acc status kind parent

theorem complete_accounts (acc : Accounts s) (pending : .own b (.complete cancel) ∈ s.pending) :
    Accounts (s.runFrame (.own b (.complete cancel))) := by
  have sound := acc.blocks b
  have expects := sound.expected rfl (pending_frames pending)
  have status : (s.progress b).status = .finishing cancel := by
    cases shape : (s.progress b).status <;> simp_all [Status.expects]
  have incomplete : (s.blocks b).completed = false := by
    simpa [status,Status.settled] using sound.cycle.completed
  simp only [runFrame,runOwn,complete,drop_blocks,drop_progress,incomplete,Bool.false_eq_true,ite_false]
  cases kind : (s.blocks b).kind with
  | callerOwned =>
    refine ((((acc.but b).drop _).setStatus _).push _).close ?_
    simpa using sound.finished status kind
  | graphNode =>
    have orphan : (s.blocks b).nestedParent = none := by
      by_contra owned
      exact (sound.cycle.parent owned).2.2.1 kind
    have settled := settleOrphan_accounts acc status (by simp [kind]) orphan
    have same : {(s.blocks b).settled cancel with nestedParent := none} = (s.blocks b).settled cancel := by
      simp [Block.settled,orphan]
    simp only [settle,drop_blocks,same] at settled
    exact settled
  | bare => exact settleFirst_accounts acc status (by simp [kind])
  | executable => exact settleFirst_accounts acc status (by simp [kind])
  | coroutine => exact settleFirst_accounts acc status (by simp [kind])

theorem nodeComplete_accounts (acc : Accounts s) (pending : .own b .nodeComplete ∈ s.pending) :
    Accounts (s.runFrame (.own b .nodeComplete)) := by
  have sound := acc.blocks b
  have expects := sound.expected rfl (pending_frames pending)
  have status : (s.progress b).status = .concluding := by
    cases shape : (s.progress b).status <;> simp_all [Status.expects]
  simp only [runFrame,runOwn]
  refine (((acc.but b).drop .nodeComplete).setStatus .retired).close ?_
  simpa using sound.nodeCompleted status

theorem enterFirst_quiet (acc : Accounts s) : .own b .enterFirst ∉ s.pending := by
  intro pending
  have expects := (acc.blocks b).expected rfl (pending_frames pending)
  cases shape : (s.progress b).status <;> simp_all [Status.expects]

end State

-- The same with one hold left open.
structure AccountsButHold (s : State) (h : HoldId) : Prop where
  blocks : ∀ b, (s.footprint b).Sound
  others : ∀ g, g ≠ h → (s.holdprint g).Sound
  nested : ∀ c d, (s.progress c).attached.count d = if (s.blocks d).nestedParent = some c then 1 else 0

theorem Accounts.butHold (acc : Accounts s) (h : HoldId) : AccountsButHold s h :=
  ⟨acc.blocks,fun g _ => acc.holds g,acc.nested⟩

namespace AccountsButHold

theorem close (acc : AccountsButHold s h) (own : (s.holdprint h).Sound) : Accounts s := by
  refine ⟨acc.blocks,?_,acc.nested⟩
  intro g
  by_cases same : g = h
  · rw [same]; exact own
  · exact acc.others g same

theorem setHold (acc : AccountsButHold s h) (hold : Hold) : AccountsButHold (s.setHold h hold) h := by
  refine ⟨acc.blocks,?_,acc.nested⟩
  intro g apart
  have same : (s.setHold h hold).holdprint g = s.holdprint g := by simp [State.holdprint,apart]
  rw [same]
  exact acc.others g apart

theorem push (acc : AccountsButHold s h) : AccountsButHold (s.push (.fireHold h)) h := by
  refine ⟨?_,?_,acc.nested⟩
  · intro b; rw [State.push_hold_footprint]; exact acc.blocks b
  · intro g apart
    have same : (s.push (.fireHold h)).holdprint g = s.holdprint g := by
      simp [State.holdprint,State.push,Ne.symm apart]
    rw [same]
    exact acc.others g apart

theorem drop (acc : AccountsButHold s h) : AccountsButHold (s.drop (.fireHold h)) h := by
  refine ⟨?_,?_,acc.nested⟩
  · intro b; rw [State.drop_hold_footprint]; exact acc.blocks b
  · intro g apart
    have same : (s.drop (.fireHold h)).holdprint g = s.holdprint g := by
      simp [State.holdprint,State.drop,List.count_erase_of_ne,apart]
    rw [same]
    exact acc.others g apart

theorem setPipe (acc : AccountsButHold s h) (moves : Tracked.Moves ⟨.hold h o,m⟩ (s.pipes p) t) :
    AccountsButHold (s.setPipe p t) h := by
  refine ⟨?_,?_,acc.nested⟩
  · intro b
    rw [State.moved_footprint moves (by intro j same; cases same)]
    exact acc.blocks b
  · intro g apart
    rw [State.moved_holdprint moves (by intro j same; cases same; exact apart rfl)]
    exact acc.others g apart

end AccountsButHold

-- What one hold is once its entry for pipe `p` stands `queued` times in the
-- queue and `held` times among the admissions, and nowhere else.
def Holdprint.at (hold : Hold) (p : PipeId) (o : Option BlockId) (m : Access) (queued held fired : Nat) : Holdprint where
  hold := hold
  queued q o' n := if q = p ∧ o' = o ∧ n = m then queued else 0
  held q o' n := if q = p ∧ o' = o ∧ n = m then held else 0
  fired := fired

theorem holdprint_at_sound (shape : (hold = .queued p m o ∧ queued = 1 ∧ held = 0 ∧ fired = 0) ∨
    (hold = .granted p m o ∧ queued = 0 ∧ held = 1 ∧ fired = 1) ∨
    (hold = .held p m o ∧ queued = 0 ∧ held = 1 ∧ fired = 0) ∨
    (hold = .idle ∧ queued = 0 ∧ held = 0 ∧ fired = 0)) : (Holdprint.at hold p o m queued held fired).Sound := by
  rcases shape with ⟨rfl,rfl,rfl,rfl⟩ | ⟨rfl,rfl,rfl,rfl⟩ | ⟨rfl,rfl,rfl,rfl⟩ | ⟨rfl,rfl,rfl,rfl⟩
  all_goals
    refine ⟨?_,?_,rfl⟩ <;> intro q o' n <;> simp [Holdprint.at,eq_comm,and_comm]

namespace State

theorem moved_hold (s : State) (sound : (s.holdprint h).Sound) (moves : Tracked.Moves ⟨.hold h o,m⟩ (s.pipes p) t)
    (here : s.holds h = .idle ∨ s.holds h = .queued p m o ∨ s.holds h = .granted p m o ∨ s.holds h = .held p m o)
    (hold : Hold) :
    ((s.setPipe p t).setHold h hold).holdprint h =
      Holdprint.at hold p o m (t.pipe.queue.count ⟨.hold h o,m⟩) (t.held.count ⟨.hold h o,m⟩) (s.holdprint h).fired := by
  have elsewhere : ∀ q o' n, ¬ (q = p ∧ o' = o ∧ n = m) →
      (s.holdprint h).queued q o' n = 0 ∧ (s.holdprint h).held q o' n = 0 := by
    intro q o' n apart
    rw [sound.queued,sound.held,holdprint_hold]
    rcases here with here | here | here | here <;> rw [here] <;> simp <;> tauto
  have parts : ∀ q o' n, (((s.setPipe p t).setHold h hold).holdprint h).queued q o' n =
        (if q = p ∧ o' = o ∧ n = m then t.pipe.queue.count ⟨.hold h o,m⟩ else 0) ∧
      (((s.setPipe p t).setHold h hold).holdprint h).held q o' n =
        (if q = p ∧ o' = o ∧ n = m then t.held.count ⟨.hold h o,m⟩ else 0) := by
    intro q o' n
    by_cases there : q = p
    · subst there
      by_cases same : o' = o ∧ n = m
      · obtain ⟨rfl,rfl⟩ := same
        simp [holdprint]
      · have away : (⟨.hold h o',n⟩ : PipeLink) ≠ ⟨.hold h o,m⟩ := by simpa using same
        have none_here := elsewhere q o' n (by simpa using same)
        simp only [holdprint] at none_here
        simp [holdprint,same,moves _ away,none_here]
    · have none_here := elsewhere q o' n (by simp [there])
      simp only [holdprint] at none_here
      simp [holdprint,there,none_here]
  have queued := funext fun q => funext fun o' => funext fun n => (parts q o' n).1
  have held := funext fun q => funext fun o' => funext fun n => (parts q o' n).2
  simp only [Holdprint.at]
  rw [← queued,← held]
  simp [holdprint]

theorem counted_once [Decidable p] (positive : 0 < if p then 1 else 0) : p := by
  by_contra elsewhere
  rw [if_neg elsewhere] at positive
  exact Nat.lt_irrefl 0 positive

theorem queued_status (acc : Accounts s) (queued : ⟨.link b i,m⟩ ∈ (s.pipes p).pipe.queue) :
    (s.progress b).status = .waiting i ∧ (s.blocks b).links.entries[i]? = some ⟨p,m⟩ := by
  have counted := (acc.blocks b).queued p i m
  have positive : 0 < (s.footprint b).queued p i m := List.count_pos_iff.mpr queued
  rw [counted] at positive
  exact counted_once positive

theorem queued_hold (acc : Accounts s) (queued : ⟨.hold h o,m⟩ ∈ (s.pipes p).pipe.queue) :
    s.holds h = .queued p m o := by
  have counted := (acc.holds h).queued p o m
  have positive : 0 < (s.holdprint h).queued p o m := List.count_pos_iff.mpr queued
  rw [counted] at positive
  exact counted_once positive

-- One turn of the admission loop: the head is admitted and its firing handed on.
theorem grant_accounts (acc : Accounts s) (queue : (s.pipes p).pipe.queue = l :: rest) :
    Accounts ((s.setPipe p ((s.pipes p).admitHead l rest)).grant l) := by
  have moves := Tracked.admitHead_moves queue
  obtain ⟨left,held⟩ := Tracked.admitHead_parts (s.pipes p) l rest
  have head : l ∈ (s.pipes p).pipe.queue := by simp [queue]
  obtain ⟨party,m⟩ := l
  cases party with
  | link b i =>
    obtain ⟨status,place⟩ := queued_status acc head
    refine ((((acc.but b).setPipe moves).setStatus _).push _).close ?_
    rw [push_own,setStatus_own,moved_head s moves (by rw [left]; exact queue) held]
    exact (acc.blocks b).granted status place
  | hold h o =>
    have waiting := queued_hold acc head
    have sound := acc.holds h
    have unfired : (s.holdprint h).fired = 0 := by rw [sound.fired,holdprint_hold,waiting]
    have once : (s.pipes p).pipe.queue.count ⟨.hold h o,m⟩ = 1 := by
      have counted := sound.queued p o m
      rw [holdprint_hold,waiting,if_pos rfl] at counted
      exact counted
    have never : (s.pipes p).held.count ⟨.hold h o,m⟩ = 0 := by
      have counted := sound.held p o m
      rw [holdprint_hold,waiting] at counted
      exact counted.trans (by simp)
    rw [queue,List.count_cons_self] at once
    simp only [grant,setPipe_holds,waiting]
    refine ((((acc.butHold h).setPipe moves).setHold _).push).close ?_
    have shown := moved_hold s sound moves (.inr (.inl waiting)) (.granted p m o)
    rw [left,held,unfired,List.count_append,never] at shown
    have fired : ((((s.setPipe p ((s.pipes p).admitHead ⟨.hold h o,m⟩ rest)).setHold h (.granted p m o)).push
        (.fireHold h)).holdprint h) = Holdprint.at (.granted p m o) p o m 0 1 1 := by
      have zero : rest.count ⟨.hold h o,m⟩ = 0 := by omega
      rw [zero] at shown
      simp only [holdprint,Holdprint.at,Holdprint.mk.injEq] at shown ⊢
      refine ⟨shown.1,shown.2.1,?_,?_⟩
      · simpa using shown.2.2.1
      · simpa using shown.2.2.2
    rw [fired]
    exact holdprint_at_sound (.inr (.inl ⟨rfl,rfl,rfl,rfl⟩))

-- The admission pass entry by entry over the whole state.
def admitPass (p : PipeId) : List PipeLink → State → State
  | [],s => s
  | l :: rest,s =>
    if (s.pipes p).pipe.admissible l.mode then
      admitPass p rest ((s.setPipe p ((s.pipes p).admitHead l rest)).grant l)
    else s

theorem grant_setPipe (s : State) (p : PipeId) (t : Tracked) (l : PipeLink) :
    (s.setPipe p t).grant l = (s.grant l).setPipe p t := by
  obtain ⟨party,m⟩ := l
  cases party with
  | link b i => rfl
  | hold h o =>
    simp only [grant,setPipe_holds]
    cases s.holds h <;> rfl

@[simp] theorem grant_pipes (s : State) (l : PipeLink) : (s.grant l).pipes = s.pipes := by
  obtain ⟨party,m⟩ := l
  cases party with
  | link b i => rfl
  | hold h o =>
    simp only [grant]
    cases s.holds h <;> rfl

theorem setPipe_again (s : State) (p : PipeId) (t u : Tracked) : (s.setPipe p t).setPipe p u = s.setPipe p u := by
  simp [setPipe]

theorem granted_pass (p : PipeId) (queue : List PipeLink) (s : State) (t : Tracked) :
    (Pipe.collectFrom queue t.pipe).2.foldl grant (s.setPipe p (Tracked.pass queue t)) =
      admitPass p queue (s.setPipe p t) := by
  induction queue generalizing s t with
  | nil => rfl
  | cons l rest ih =>
    by_cases admitted : t.pipe.admissible l.mode = true
    · have next := ih (s.grant l) (t.admitHead l rest)
      simp only [Pipe.collectFrom,Tracked.pass,admitPass,admitted,ite_true,List.foldl_cons,setPipe_pipes,
        Function.update_self,setPipe_again,grant_setPipe]
      exact next
    · simp [Pipe.collectFrom,Tracked.pass,admitPass,admitted]

theorem releasePipe_pass (s : State) (p : PipeId) (l : PipeLink) :
    s.releasePipe p l = admitPass p (s.pipes p).pipe.queue (s.setPipe p ((s.pipes p).forget l)) := by
  rw [← granted_pass,← Tracked.release_pass]
  simp [releasePipe,Tracked.release,Pipe.releaseLocked,Pipe.collectAdmissions,Tracked.forget]

theorem admitPass_accounts (acc : Accounts s) (queue : (s.pipes p).pipe.queue = rest) :
    Accounts (admitPass p rest s) := by
  induction rest generalizing s with
  | nil => exact acc
  | cons l rest ih =>
    simp only [admitPass]
    split
    · refine ih (grant_accounts acc queue) ?_
      simp
    · exact acc

theorem advancing_status (acc : Accounts s) (pending : .own b (.advance i cancel) ∈ s.pending) :
    (s.progress b).status = .advancing i cancel := by
  have expects := (acc.blocks b).expected rfl (pending_frames pending)
  cases shape : (s.progress b).status <;> simp_all [Status.expects]

-- The link that an advance gives back is an admission of this block.
theorem advancing_held (acc : Accounts s) (status : (s.progress b).status = .advancing i cancel)
    (place : (s.blocks b).links.entries[i]? = some link) : ⟨.link b i,link.mode⟩ ∈ (s.pipes link.pipe).held := by
  have counted := (acc.blocks b).held link.pipe i link.mode
  simp only [footprint_progress,footprint_block,status,place,Status.holds,Nat.le_refl,decide_true,and_self,
    ite_true] at counted
  have once : (s.pipes link.pipe).held.count ⟨.link b i,link.mode⟩ = 1 := counted
  exact List.count_pos_iff.mp (by omega)

theorem advance_accounts (acc : Accounts s) (pending : .own b (.advance i cancel) ∈ s.pending) :
    Accounts (s.runFrame (.own b (.advance i cancel))) := by
  have sound := acc.blocks b
  have status := advancing_status acc pending
  have whole : (s.blocks b).pipesEntered = (s.blocks b).links.count := sound.whole (by simp [status,Status.entered])
  have dropped := (acc.but b).drop (.advance i cancel)
  simp only [runFrame,runOwn,advance,drop_blocks,drop_progress]
  by_cases more : i < (s.blocks b).pipesEntered
  · obtain ⟨link,place⟩ : ∃ link, (s.blocks b).links.entries[i]? = some link :=
      ⟨_,List.getElem?_eq_getElem (by rw [whole] at more; exact more)⟩
    simp only [more,ite_true,place]
    rw [releasePipe_pass]
    have moves := Tracked.forget_moves (s.pipes link.pipe) ⟨.link b i,link.mode⟩
    refine admitPass_accounts ?_ (by simp)
    refine (((dropped.setStatus _).push _).setPipe moves).close ?_
    rw [moved_leave (((s.drop (.own b (.advance i cancel))).setStatus b (.advancing (i+1) cancel)).push
      (.own b (.advance (i+1) cancel))) moves (by simp) (by simp)]
    simpa using sound.left status place
  · have done : (s.blocks b).pipesEntered ≤ i := Nat.le_of_not_lt more
    simp only [more,ite_false]
    cases kind : (s.blocks b).kind with
    | callerOwned =>
      refine ((dropped.setBlock _ ?_).setProgress _ ?_).close ?_
      · rfl
      · rfl
      · simpa using sound.settledLast status done kind
    | graphNode =>
      refine ((dropped.setStatus _).push _).close ?_
      simpa using sound.concluded status done kind
    | _ =>
      refine (dropped.setStatus _).close ?_
      simpa using sound.retired status done (by simp [kind])

theorem fireHold_accounts (acc : Accounts s) (pending : .fireHold h ∈ s.pending) :
    Accounts (s.runFrame (.fireHold h)) := by
  have sound := acc.holds h
  have fired : 0 < (s.holdprint h).fired := List.count_pos_iff.mpr pending
  have once := sound.fired
  simp only [runFrame,fireHold,drop_holds]
  rw [holdprint_hold] at once
  cases shape : s.holds h with
  | granted p m o =>
    rw [shape] at once
    refine (((acc.butHold h).drop).setHold _).close ?_
    have queued := sound.queued
    have held := sound.held
    simp only [holdprint_hold,shape] at queued held
    refine ⟨?_,?_,?_⟩
    · intro q o' n
      exact (queued q o' n).trans (by simp)
    · intro q o' n
      exact (held q o' n).trans (by simp)
    · have count : s.pending.count (.fireHold h) = 1 := once
      simp [holdprint,count]
  | _ =>
    rw [shape] at once
    rw [once] at fired
    exact absurd fired (Nat.lt_irrefl 0)

theorem resume_accounts (acc : Accounts s) (pending : f ∈ s.pending) : Accounts (s.runFrame f) := by
  cases f with
  | fireHold h => exact fireHold_accounts acc pending
  | own b f =>
    cases f with
    | fireTurn i => exact fireTurn_accounts acc pending
    | turnRelease => exact turnRelease_accounts acc pending
    | childRelease heard => exact childRelease_accounts acc pending
    | enterFirst => exact absurd pending (enterFirst_quiet acc)
    | execute => exact execute_accounts acc pending
    | complete cancel => exact complete_accounts acc pending
    | advance i cancel => exact advance_accounts acc pending
    | nodeComplete => exact nodeComplete_accounts acc pending

theorem inlined_accounts (acc : AccountsBut s b) (entries : List (Link × Nat)) :
    AccountsBut (entries.foldl (admitInline · b) s) b := by
  induction entries generalizing s with
  | nil => exact acc
  | cons entry rest ih => exact ih (acc.setPipe (Tracked.admitInline_moves _ _))

theorem inlined_own (s : State) (b : BlockId) (entries : List (Link × Nat)) :
    (entries.foldl (admitInline · b) s).footprint b = {s.footprint b with
      held := fun q j n => (s.footprint b).held q j n+entries.count (⟨q,n⟩,j)} := by
  induction entries generalizing s with
  | nil => rfl
  | cons entry rest ih =>
    obtain ⟨⟨p,m⟩,i⟩ := entry
    obtain ⟨queue,held⟩ := Tracked.admitInline_parts (s.pipes p) ⟨.link b i,m⟩
    have first : (s.admitInline b (⟨p,m⟩,i)).footprint b = (s.footprint b).receive p i m :=
      moved_receive s (Tracked.admitInline_moves _ _) queue held
    rw [List.foldl_cons,ih,first]
    simp only [Footprint.receive,Footprint.mk.injEq,true_and,and_true]
    funext q j n
    by_cases here : q = p ∧ j = i ∧ n = m
    · obtain ⟨rfl,rfl,rfl⟩ := here
      simp; omega
    · have away : ((⟨p,m⟩,i) : Link × Nat) ≠ (⟨q,n⟩,j) := by
        intro same; cases same; exact here ⟨rfl,rfl,rfl⟩
      simp [here,away]

theorem zipIdx_count (entries : List Link) (link : Link) (i : Nat) :
    entries.zipIdx.count (link,i) = if entries[i]? = some link then 1 else 0 := by
  have distinct : entries.zipIdx.Nodup := by
    refine List.Nodup.of_map Prod.snd ?_
    rw [List.zipIdx_map_snd]
    exact List.nodup_range'
  by_cases place : entries[i]? = some link
  · rw [if_pos place]
    exact List.count_eq_one_of_mem distinct (List.mk_mem_zipIdx_iff_getElem?.mpr place)
  · rw [if_neg place]
    exact List.count_eq_zero.mpr (fun member => place (List.mk_mem_zipIdx_iff_getElem?.mp member))

@[simp] theorem inlined_blocks (s : State) (b : BlockId) (entries : List (Link × Nat)) :
    (entries.foldl (admitInline · b) s).blocks = s.blocks := by
  induction entries generalizing s with
  | nil => rfl
  | cons entry rest ih => exact ih _
@[simp] theorem inlined_progress (s : State) (b : BlockId) (entries : List (Link × Nat)) :
    (entries.foldl (admitInline · b) s).progress = s.progress := by
  induction entries generalizing s with
  | nil => rfl
  | cons entry rest ih => exact ih _

theorem tryInline_accounts (acc : Accounts s) (status : (s.progress b).status = .armed)
    (kind : (s.blocks b).kind ≠ .bare) : Accounts (s.tryInline b) := by
  simp only [tryInline]
  split
  · have admitted := inlined_accounts (acc.but b) (s.blocks b).links.entries.zipIdx
    refine (((admitted.setBlock _ ?_).setProgress _ ?_).push _).close ?_
    · simp
    · simp
    · have unheld : ∀ p i m, (s.footprint b).held p i m = 0 := by
        intro p i m
        rw [(acc.blocks b).held p i m]
        simp [status,Status.holds]
      have inlined := (acc.blocks b).inlined status kind
        (fun p i m => (s.blocks b).links.entries.zipIdx.count (⟨p,m⟩,i))
        (fun p i m => zipIdx_count _ _ _)
      simp only [push_own,setProgress_own,setBlock_own,inlined_own,unheld,Nat.zero_add]
      simpa using inlined
  · exact acc

theorem launch_accounts (acc : Accounts s) (status : (s.progress b).status = .armed)
    (kind : (s.blocks b).kind ≠ .bare) : Accounts (s.launch b) := by
  have sound := acc.blocks b
  simp only [launch]
  split
  · rename_i linkless
    refine (((acc.but b).setProgress _ ?_).push _).close ?_
    · rfl
    · simpa using sound.created status kind linkless
  · rename_i linked
    obtain ⟨link,place⟩ : ∃ link, (s.blocks b).links.entries[0]? = some link :=
      ⟨_,List.getElem?_eq_getElem (Nat.pos_of_ne_zero linked)⟩
    exact enterLink_accounts (acc.but b) (sound.entering_first status linked) place

theorem acquire_accounts (acc : Accounts s) (free : s.holds h = .idle) : Accounts (s.acquire h p m o) := by
  have sound := acc.holds h
  have moves := Tracked.enter_moves (s.pipes p) ⟨.hold h o,m⟩
  have unfired : (s.holdprint h).fired = 0 := by rw [sound.fired,holdprint_hold,free]
  have unqueued : (s.pipes p).pipe.queue.count ⟨.hold h o,m⟩ = 0 := by
    have counted := sound.queued p o m
    rw [holdprint_hold,free] at counted
    exact counted.trans (by simp)
  have unheld : (s.pipes p).held.count ⟨.hold h o,m⟩ = 0 := by
    have counted := sound.held p o m
    rw [holdprint_hold,free] at counted
    exact counted.trans (by simp)
  refine (((acc.butHold h).setPipe moves).setHold _).close ?_
  rw [moved_hold s sound moves (.inl free),unfired]
  cases now : ((s.pipes p).enter ⟨.hold h o,m⟩).2 with
  | true =>
    obtain ⟨queue,held⟩ := Tracked.enter_now now
    rw [queue,held,List.count_append,unqueued,unheld]
    exact holdprint_at_sound (.inr (.inr (.inl ⟨rfl,rfl,by simp,rfl⟩)))
  | false =>
    obtain ⟨queue,held⟩ := Tracked.enter_later now
    rw [queue,held,List.count_append,unqueued,unheld]
    exact holdprint_at_sound (.inl ⟨rfl,by simp,rfl,rfl⟩)

theorem releaseHold_accounts (acc : Accounts s) (held : s.holds h = .held p m o) : Accounts (s.releaseHold h) := by
  have sound := acc.holds h
  have moves := Tracked.forget_moves (s.pipes p) ⟨.hold h o,m⟩
  have unfired : (s.holdprint h).fired = 0 := by rw [sound.fired,holdprint_hold,held]
  have unqueued : (s.pipes p).pipe.queue.count ⟨.hold h o,m⟩ = 0 := by
    have counted := sound.queued p o m
    rw [holdprint_hold,held] at counted
    exact counted.trans (by simp)
  have once : (s.pipes p).held.count ⟨.hold h o,m⟩ = 1 := by
    have counted := sound.held p o m
    rw [holdprint_hold,held] at counted
    exact counted.trans (by simp)
  simp only [releaseHold,held]
  rw [releasePipe_pass]
  refine admitPass_accounts ?_ (by simp)
  have swapped : (s.setHold h .idle).setPipe p (((s.setHold h .idle).pipes p).forget ⟨.hold h o,m⟩) =
      (s.setPipe p ((s.pipes p).forget ⟨.hold h o,m⟩)).setHold h .idle := rfl
  rw [swapped]
  refine (((acc.butHold h).setPipe moves).setHold _).close ?_
  rw [moved_hold s sound moves (.inr (.inr (.inr held))),unfired,Tracked.forget_queue,Tracked.forget_held,
    List.count_erase_self,unqueued,once]
  exact holdprint_at_sound (.inr (.inr (.inr ⟨rfl,rfl,rfl,rfl⟩)))

end State
end Macrame

import Macrame.BlockCycle

namespace Macrame
namespace Footprint

theorem Sound.quiet (sound : Sound fp) (f : LocalFrame) (control : f.control = true)
    (unexpected : fp.progress.status.expects ≠ some f) : fp.frames f = 0 := by
  rw [sound.control f control,if_neg unexpected]

-- A pending control frame says where its block stands.
theorem Sound.expected (sound : Sound fp) (control : f.control = true) (pending : 0 < fp.frames f) :
    fp.progress.status.expects = some f := by
  by_contra unexpected
  rw [sound.quiet f control unexpected] at pending
  exact absurd pending (Nat.lt_irrefl 0)

-- Between two links: the first `k` are admitted, nothing is queued, no control
-- frame is pending, and link `k` is to be entered next.
structure Entering (fp : Footprint) (k : Nat) : Prop where
  queued : ∀ p i m, fp.queued p i m = 0
  held : ∀ p i m, fp.held p i m = if i < k ∧ fp.block.links.entries[i]? = some ⟨p,m⟩ then 1 else 0
  control : ∀ f, f.control = true → fp.frames f = 0
  within : k ≤ fp.block.links.count
  locks : fp.block.numLocks = fp.block.links.count-k+fp.turns
  turns : fp.turns ≤ k
  children : fp.children = 0
  attached : fp.progress.attached = []
  bare : fp.block.kind ≠ .bare
  coroutine : fp.block.kind ≠ .coroutine
  unclaimed : fp.block.bodyClaimed = false
  completed : fp.block.completed = false
  parent : fp.block.nestedParent ≠ none → fp.block.kind ≠ .graphNode ∧ fp.block.kind ≠ .callerOwned
  fresh : fp.progress.Fresh

theorem Sound.entering_first (sound : Sound fp) (status : fp.progress.status = .armed)
    (linked : fp.block.links.count ≠ 0) : Entering fp 0 := by
  have cycle := sound.cycle
  have locks := sound.locks
  simp only [LocksSound,status] at locks
  obtain ⟨turns,children,attached,_,seeded⟩ := locks
  have kinds : fp.block.kind ≠ .bare ∧ fp.block.kind ≠ .coroutine :=
    ⟨fun bare => linked (cycle.linkless (.inl bare)),fun frame => linked (cycle.linkless (.inr frame))⟩
  refine ⟨?_,?_,?_,Nat.zero_le _,?_,?_,children,attached,kinds.1,kinds.2,?_,?_,?_,?_⟩
  · intro p i m; simpa [status] using sound.queued p i m
  · intro p i m; simpa [status,Status.holds] using sound.held p i m
  · intro f control; exact sound.quiet f control (by simp [status,Status.expects])
  · have := seeded linked; omega
  · omega
  · exact cycle.unclaimed (.inl (by simp [status,Status.started]))
  · simpa [status,Status.settled] using cycle.completed
  · intro owned; exact (cycle.parent owned).2.2
  · exact cycle.fresh (by simp [status,Status.started])

theorem frames_push (fp : Footprint) (f g : LocalFrame) :
    (fp.push f).frames g = fp.frames g+if g = f then 1 else 0 := by
  by_cases same : g = f
  · simp [push,same]
  · simp [push,same]
theorem frames_drop (fp : Footprint) (f g : LocalFrame) :
    (fp.drop f).frames g = fp.frames g-if g = f then 1 else 0 := by
  by_cases same : g = f
  · simp [drop,same]
  · simp [drop,same]

theorem control_turns (fp : Footprint) (control : f.control = true) :
    (fp.push f).turns = fp.turns ∧ (fp.drop f).turns = fp.turns := by
  cases f <;> simp_all [LocalFrame.control,turns]
theorem control_children (fp : Footprint) (control : f.control = true) :
    (fp.push f).children = fp.children ∧ (fp.drop f).children = fp.children := by
  cases f <;> simp_all [LocalFrame.control,children]

-- The turn of link `k` fired, its release handed on.
theorem Sound.entering_next (sound : Sound fp) (status : fp.progress.status = .admitted k) :
    Entering ((fp.drop (.fireTurn k)).push .turnRelease) (k+1) := by
  have cycle := sound.cycle
  have locks := sound.locks
  simp only [LocksSound,status] at locks
  obtain ⟨within,counted,few,children,attached⟩ := locks
  have turned : ((fp.drop (.fireTurn k)).push .turnRelease).turns = fp.turns+1 := by
    simp [turns]
  have quiet : ((fp.drop (.fireTurn k)).push .turnRelease).children = fp.children := by
    simp [Footprint.children]
  have fits := cycle.fits
  refine ⟨?_,?_,?_,within,?_,?_,?_,attached,?_,?_,?_,?_,?_,?_⟩
  · intro p i m; simpa [status] using sound.queued p i m
  · intro p i m; simpa [status,Status.holds,Nat.lt_succ_iff] using sound.held p i m
  · intro f control
    have known := sound.control f control
    rw [status] at known
    simp only [Status.expects,Option.some.injEq] at known
    rw [frames_push,frames_drop,known]
    by_cases fired : f = .fireTurn k
    · simp [fired]
    · have apart : f ≠ .turnRelease := by rintro rfl; cases control
      simp [fired,apart,Ne.symm fired]
  · rw [turned]
    show fp.block.numLocks = _
    rw [counted]
    push_cast
    show _ = (fp.block.links.count : Int)-(k+1)+(fp.turns+1)
    omega
  · rw [turned]; omega
  · rw [quiet]; exact children
  · intro bare
    rw [status,show fp.block.kind = .bare from bare] at fits
    simp [Status.fits,Status.ended] at fits
  · intro frame
    rw [status,show fp.block.kind = .coroutine from frame] at fits
    simp [Status.fits,Status.ended] at fits
  · exact cycle.unclaimed (.inl (by simp [status,Status.started]))
  · show fp.block.completed = false
    simpa [status,Status.settled] using cycle.completed
  · intro owned; exact (cycle.parent owned).2.2
  · exact cycle.fresh (by simp [status,Status.started])

-- What `Entering` says of the cycle, for each status a block can enter into.
theorem Entering.cycle (entering : Entering fp k) (status : Status) (unstarted : status.started = false)
    (live : status.resting = false) : CycleSound {fp.block with pipesEntered := n} {fp.progress with status := status} := by
  have unended : status.ended = false := by
    cases ended : status.ended with
    | false => rfl
    | true => rw [Status.started_of_ended ended] at unstarted; cases unstarted
  have unsettled : status.settled fp.block.kind = false := by
    cases settled : status.settled fp.block.kind with
    | false => rfl
    | true => rw [Status.started_of_settled settled] at unended; cases unended
  obtain ⟨startedBy,inlined,found,bodies,settles,zeroes,flags,thresholds⟩ := entering.fresh
  have bare := entering.bare
  have frame := entering.coroutine
  refine ⟨?_,?_,fun _ => entering.unclaimed,?_,?_,?_,?_,?_,?_,thresholds,?_,?_,?_⟩
  · show status.fits fp.block.kind = true
    cases status <;> cases shape : fp.block.kind <;>
      simp_all [Status.fits,Status.resting,Status.started,Status.ended]
  · rintro (is_bare | is_frame)
    · exact absurd is_bare bare
    · exact absurd is_frame frame
  · simpa [unstarted] using startedBy
  · simp [inlined]
  · simp [found]
  · simpa [unstarted] using bodies
  · simpa [unstarted] using zeroes
  · simpa [unended] using flags
  · simpa [unsettled] using settles
  · show fp.block.completed = status.settled fp.block.kind
    rw [entering.completed,unsettled]
  · intro owned
    exact ⟨live,entering.completed,entering.parent owned⟩

theorem Entering.sound_waiting (entering : Entering fp k) (place : fp.block.links.entries[k]? = some ⟨p,m⟩) :
    Sound (((fp.enqueue p k m).setBlock {fp.block with pipesEntered := k+1}).setStatus (.waiting k)) := by
  obtain ⟨bounded,_⟩ := List.getElem?_eq_some_iff.mp place
  refine ⟨?_,?_,?_,?_,rfl,entering.cycle _ rfl rfl⟩
  · intro q i n
    simp only [setStatus,setProgress_queued,setBlock_queued,enqueue_queued,entering.queued,setProgress_progress,
      setProgress_block,setBlock_block,Status.waiting.injEq,Nat.zero_add]
    by_cases here : k = i
    · subst here
      simp [place,eq_comm]
    · simp [here,Ne.symm here]
  · intro q i n
    simpa [setStatus,Status.holds] using entering.held q i n
  · intro f control
    simpa [setStatus,Status.expects] using entering.control f control
  · exact ⟨bounded,entering.locks,entering.turns,entering.children,entering.attached⟩

theorem Entering.sound_admitted (entering : Entering fp k) (place : fp.block.links.entries[k]? = some ⟨p,m⟩) :
    Sound ((((fp.receive p k m).setBlock {fp.block with pipesEntered := k+1}).setStatus (.admitted k)).push
      (.fireTurn k)) := by
  obtain ⟨bounded,_⟩ := List.getElem?_eq_some_iff.mp place
  refine ⟨?_,?_,?_,?_,rfl,entering.cycle _ rfl rfl⟩
  · intro q i n
    simpa [setStatus] using entering.queued q i n
  · intro q i n
    simp only [setStatus,push_held,setProgress_held,setBlock_held,receive_held,entering.held,push_progress,
      setProgress_progress,push_block,setProgress_block,setBlock_block,Status.holds,decide_eq_true_eq]
    rcases Nat.lt_trichotomy i k with before | equal | after
    · simp [before,Nat.le_of_lt before,Nat.ne_of_lt before]
    · subst equal
      simp [place,eq_comm]
    · simp [Nat.not_lt_of_lt after,Nat.not_le_of_lt after,Nat.ne_of_gt after]
  · intro f control
    rw [frames_push]
    simp [setStatus,Status.expects,entering.control f control,eq_comm]
  · refine ⟨bounded,?_,?_,?_,entering.attached⟩
    · rw [(control_turns _ rfl).1]; exact entering.locks
    · rw [(control_turns _ rfl).1]; exact entering.turns
    · rw [(control_children _ rfl).1]; exact entering.children

theorem Entering.sound_turned (entering : Entering fp k) (last : k = fp.block.links.count) (turned : 1 ≤ fp.turns)
    (entered : fp.block.pipesEntered = k) : Sound (fp.setStatus .turned) := by
  refine ⟨?_,?_,?_,?_,entered.trans last,?_⟩
  · intro q i n
    simpa [setStatus] using entering.queued q i n
  · intro q i n
    simp only [setStatus,setProgress_held,entering.held,setProgress_progress,setProgress_block,Status.holds,true_and]
    by_cases placed : fp.block.links.entries[i]? = some ⟨q,n⟩
    · obtain ⟨bounded,_⟩ := List.getElem?_eq_some_iff.mp placed
      simp [last,LinkTable.count,bounded]
    · simp [placed]
  · intro f control
    simpa [setStatus,Status.expects] using entering.control f control
  · refine ⟨?_,turned,?_,entering.children,entering.attached⟩
    · have := entering.locks
      show fp.block.numLocks = fp.turns
      omega
    · have := entering.turns
      show fp.turns ≤ fp.block.links.count
      omega
  · exact entering.cycle .turned rfl rfl

theorem Sound.unqueued (sound : Sound fp) (elsewhere : ∀ k, fp.progress.status ≠ .waiting k) :
    ∀ p i m, fp.queued p i m = 0 := by
  intro p i m
  rw [sound.queued p i m,if_neg (fun both => elsewhere i both.1)]

theorem Sound.dropped (sound : Sound fp) (old : fp.progress.status.expects = some f) :
    ∀ g, g.control = true → (fp.drop f).frames g = 0 := by
  intro g control
  rw [frames_drop,sound.control g control,old]
  by_cases same : g = f
  · simp [same]
  · simp [same,Ne.symm same]

theorem Sound.undisturbed (sound : Sound fp) (old : fp.progress.status.expects = none) :
    ∀ g, g.control = true → fp.frames g = 0 :=
  fun g control => sound.quiet g control (by simp [old])

theorem frames_next {fp : Footprint} (quiet : ∀ g, g.control = true → fp.frames g = 0) (f : LocalFrame) :
    ∀ g, g.control = true → (fp.push f).frames g = if some f = some g then 1 else 0 := by
  intro g control
  rw [frames_push,quiet g control]
  simp [eq_comm]

theorem frames_aside {f g : LocalFrame} (fp : Footprint) (aside : f.control = false) (control : g.control = true) :
    (fp.push f).frames g = fp.frames g ∧ (fp.drop f).frames g = fp.frames g := by
  have apart : g ≠ f := by rintro rfl; rw [aside] at control; cases control
  exact ⟨by simp [apart],by simp [apart]⟩

-- A move that touches no pipe: the links that count as admitted stay the same.
theorem Sound.next (sound : Sound fp) (fp' : Footprint) (queued : fp'.queued = fp.queued) (held : fp'.held = fp.held)
    (links : fp'.block.links = fp.block.links) (unqueued : ∀ k, fp.progress.status ≠ .waiting k)
    (still_unqueued : ∀ k, fp'.progress.status ≠ .waiting k)
    (holds : ∀ i, i < fp.block.links.count → fp'.progress.status.holds i = fp.progress.status.holds i)
    (control : ∀ f, f.control = true → fp'.frames f = if fp'.progress.status.expects = some f then 1 else 0)
    (locks : LocksSound fp'.block fp'.progress fp'.turns fp'.children)
    (entered : fp'.block.pipesEntered = fp'.progress.status.entered fp'.block.links.count)
    (cycle : CycleSound fp'.block fp'.progress) : Sound fp' := by
  refine ⟨?_,?_,control,locks,entered,cycle⟩
  · intro p i m
    rw [queued,sound.unqueued unqueued p i m,if_neg (fun both => still_unqueued i both.1)]
  · intro p i m
    rw [held,sound.held p i m,links]
    by_cases placed : fp.block.links.entries[i]? = some ⟨p,m⟩
    · obtain ⟨bounded,_⟩ := List.getElem?_eq_some_iff.mp placed
      rw [holds i bounded]
    · simp [placed]

-- A pipe-turn release: the counter goes down, and its last drop dispatches.
theorem Sound.turn_release (sound : Sound fp) (pending : 0 < fp.turns) :
    let released := fp.block.release false
    let after := (fp.drop .turnRelease).setBlock released.1
    (released.2 = .waiting ∧ Sound after) ∨
    (released.2 = .dispatch ∧ Sound ((after.setProgress {fp.progress with
      status := .ready,startedBy := fp.progress.startedBy++[.dispatch],
      zeroCrossings := fp.progress.zeroCrossings+1}).push .execute)) := by
  intro released after
  have locks := sound.locks
  have counted : fp.block.links.count ≤ 255 := fp.block.links.counted
  have fewer : after.turns = fp.turns-1 := by simp [after,Footprint.turns]
  have same_children : after.children = fp.children := by simp [after,Footprint.children]
  have kept : ∀ f, f.control = true → after.frames f = fp.frames f :=
    fun f control => (frames_aside fp rfl control).2
  -- as long as the status stays, only the counter and the turns have moved
  have stays : LocksSound released.1 fp.progress after.turns after.children → Sound after := by
    intro relocked
    refine ⟨sound.queued,sound.held,?_,relocked,sound.entered,sound.cycle.relocked⟩
    intro f control
    rw [kept f control]
    exact sound.control f control
  have numbered : released.1.numLocks = fp.block.numLocks-1 := rfl
  have linked : released.1.links.count = fp.block.links.count := rfl
  rw [fewer,same_children] at stays
  cases status : fp.progress.status with
  | waiting k =>
    simp only [LocksSound,status,linked,numbered] at locks stays
    obtain ⟨within,total,few,children,attached⟩ := locks
    refine .inl ⟨Block.release_waiting ?_ ?_ ?_,stays ⟨within,?_,?_,children,attached⟩⟩
    all_goals try simp only [executionFlag]
    all_goals omega
  | admitted k =>
    simp only [LocksSound,status,linked,numbered] at locks stays
    obtain ⟨within,total,few,children,attached⟩ := locks
    refine .inl ⟨Block.release_waiting ?_ ?_ ?_,stays ⟨within,?_,?_,children,attached⟩⟩
    all_goals try simp only [executionFlag]
    all_goals omega
  | turned =>
    simp only [LocksSound,status,linked,numbered] at locks stays
    obtain ⟨total,_,few,children,attached⟩ := locks
    by_cases last : fp.turns = 1
    · refine .inr ⟨Block.release_dispatch (by omega),?_⟩
      have quiet : ∀ f, f.control = true → after.frames f = 0 :=
        fun f control => (kept f control).trans (sound.undisturbed (by simp [status,Status.expects]) f control)
      refine sound.next _ rfl rfl rfl (by simp [status]) (by simp) (by simp [status,Status.holds]) ?_ ?_ ?_ ?_
      · exact frames_next quiet .execute
      · refine ⟨?_,?_,attached,?_⟩
        · rw [(control_turns _ rfl).1]; exact fewer.trans (by omega)
        · rw [(control_children _ rfl).1]; exact same_children.trans children
        · show 0 ≤ fp.block.numLocks-1; omega
      · show fp.block.pipesEntered = fp.block.links.count
        simpa [status,Status.entered] using sound.entered
      · exact sound.cycle.dispatched status (by omega)
    · refine .inl ⟨Block.release_waiting ?_ ?_ ?_,stays ⟨?_,?_,?_,children,attached⟩⟩
      all_goals try simp only [executionFlag]
      all_goals omega
  | _ =>
    simp only [LocksSound,status] at locks
    omega

theorem Sound.whole (sound : Sound fp) (status : ∀ n, fp.progress.status.entered n = n) :
    fp.block.pipesEntered = fp.block.links.count := sound.entered.trans (status _)

-- A nested child lets go. The last one to do so after the body completes the block.
theorem Sound.child_release (sound : Sound fp) (pending : 0 < fp.frames (.childRelease heard)) :
    let released := fp.block.release heard
    let after := (fp.drop (.childRelease heard)).setBlock released.1
    (released.2 = .waiting ∧ Sound after) ∨
    (released.2 = .complete ∧ Sound ((after.setProgress {fp.progress with
      status := .finishing false,flagCrossings := fp.progress.flagCrossings+1}).push (.complete false))) := by
  intro released after
  have locks := sound.locks
  have counted : fp.block.links.count ≤ 255 := fp.block.links.counted
  have same_turns : after.turns = fp.turns := by simp [after,Footprint.turns]
  have fewer : after.children = fp.children-1 ∧ 0 < fp.children := by
    cases heard <;> simp [after,Footprint.children] <;> omega
  have kept : ∀ f, f.control = true → after.frames f = fp.frames f :=
    fun f control => (frames_aside fp rfl control).2
  have stays : LocksSound released.1 fp.progress after.turns after.children → Sound after := by
    intro relocked
    refine ⟨sound.queued,sound.held,?_,relocked,sound.entered,sound.cycle.relocked⟩
    intro f control
    rw [kept f control]
    exact sound.control f control
  have numbered : released.1.numLocks = fp.block.numLocks-1 := rfl
  have linked : released.1.links.count = fp.block.links.count := rfl
  rw [same_turns,fewer.1] at stays
  cases status : fp.progress.status with
  | running =>
    simp only [LocksSound,status,numbered] at locks stays
    obtain ⟨turns,total⟩ := locks
    refine .inl ⟨Block.release_waiting ?_ ?_ ?_,stays ⟨turns,?_⟩⟩
    all_goals simp only [executionFlag] at *
    all_goals omega
  | draining =>
    simp only [LocksSound,status,numbered] at locks stays
    obtain ⟨turns,total,more⟩ := locks
    by_cases last : fp.progress.attached.length+fp.children = 1
    · refine .inr ⟨Block.release_complete (by omega),?_⟩
      have quiet : ∀ f, f.control = true → after.frames f = 0 :=
        fun f control => (kept f control).trans (sound.undisturbed (by simp [status,Status.expects]) f control)
      refine sound.next _ rfl rfl rfl (by simp [status]) (by simp) (by simp [status,Status.holds]) ?_ ?_ ?_ ?_
      · exact frames_next quiet (.complete false)
      · have detached : fp.progress.attached = [] := List.length_eq_zero_iff.mp (by omega)
        refine ⟨?_,?_,detached,?_⟩
        · rw [(control_turns _ rfl).1]; exact same_turns.trans turns
        · rw [(control_children _ rfl).1]; exact fewer.1.trans (by omega)
        · show 0 ≤ fp.block.numLocks-1
          simp only [executionFlag] at total; omega
      · exact sound.whole (by simp [status,Status.entered])
      · exact sound.cycle.unlocked (.inr status)
    · refine .inl ⟨Block.release_waiting ?_ ?_ ?_,stays ⟨turns,?_,?_⟩⟩
      all_goals simp only [executionFlag] at *
      all_goals omega
  | _ =>
    simp only [LocksSound,status] at locks
    omega

-- The locks of a status outside the counter's two regimes.
theorem Sound.unlocked (sound : Sound fp)
    (status : fp.progress.status = .ready ∨ (∃ c, fp.progress.status = .finishing c) ∨
      (∃ i c, fp.progress.status = .advancing i c) ∨ fp.progress.status = .concluding ∨
      fp.progress.status.resting = true) :
    fp.turns = 0 ∧ fp.children = 0 ∧ fp.progress.attached = [] ∧ 0 ≤ fp.block.numLocks := by
  have locks := sound.locks
  rcases status with status | ⟨c,status⟩ | ⟨i,c,status⟩ | status | status
  · simpa only [LocksSound,status] using locks
  · simpa only [LocksSound,status] using locks
  · simpa only [LocksSound,status] using locks
  · simpa only [LocksSound,status] using locks
  · cases shape : fp.progress.status <;> rw [shape] at status <;>
      first | simpa only [LocksSound,shape] using locks | cases status

theorem Sound.ran (sound : Sound fp) (status : fp.progress.status = .ready) :
    Sound (((fp.drop .execute).setBlock {fp.block.beginBody with bodyClaimed := true}).setProgress
      {fp.progress with status := .running,bodies := fp.progress.bodies+1}) := by
  obtain ⟨turns,children,attached,_⟩ := sound.unlocked (.inl status)
  refine sound.next _ rfl rfl rfl (by simp [status]) (by simp) (by simp [status,Status.holds]) ?_ ?_ ?_ ?_
  · exact fun f control => sound.dropped (by simp [status,Status.expects]) f control
  · refine ⟨?_,?_⟩
    · exact (control_turns (f := .execute) fp rfl).2.trans turns
    · show executionFlag+1 = executionFlag+1+fp.progress.attached.length+(fp.drop .execute).children
      rw [(control_children fp rfl).2,children,attached]
      rfl
  · exact sound.whole (by simp [status,Status.entered])
  · exact sound.cycle.ran status

-- Moves to a status whose locks are settled, behind a control frame that was expected.
theorem Sound.handed (sound : Sound fp) (old : fp.progress.status.expects = some f) (control : f.control = true)
    (g : LocalFrame) (next_control : g.control = true) (blk : Block) (pr : Progress) (new : pr.status.expects = some g)
    (links : blk.links = fp.block.links)
    (holds : ∀ i, i < fp.block.links.count → pr.status.holds i = fp.progress.status.holds i)
    (locks : LocksSound blk pr fp.turns fp.children)
    (entered : blk.pipesEntered = pr.status.entered blk.links.count) (cycle : CycleSound blk pr) :
    Sound ((((fp.drop f).setBlock blk).setProgress pr).push g) := by
  have unqueued : ∀ k, fp.progress.status ≠ .waiting k := by
    intro k at_queue; rw [at_queue] at old; cases old
  have still : ∀ k, pr.status ≠ .waiting k := by
    intro k at_queue; rw [at_queue] at new; cases new
  refine sound.next _ rfl rfl links unqueued still holds ?_ ?_ entered cycle
  · intro x x_control
    show _ = if pr.status.expects = some x then 1 else 0
    rw [new]
    exact frames_next (fun y y_control => sound.dropped old y y_control) g x x_control
  · rw [(control_turns _ next_control).1,(control_children _ next_control).1]
    show LocksSound blk pr (fp.drop f).turns (fp.drop f).children
    rw [(control_turns _ control).2,(control_children _ control).2]
    exact locks

theorem Sound.skipped (sound : Sound fp) (status : fp.progress.status = .ready) :
    Sound ((((fp.drop .execute).setBlock {fp.block with bodyClaimed := true}).setProgress
      {fp.progress with status := .finishing true,foundCancelled := true}).push (.complete true)) := by
  refine sound.handed (by simp [status,Status.expects]) rfl _ rfl _ _ rfl rfl (by simp [status,Status.holds])
    (sound.unlocked (.inl status)) ?_ (sound.cycle.skipped status)
  exact sound.whole (by simp [status,Status.entered])

theorem Sound.finished (sound : Sound fp) (status : fp.progress.status = .finishing cancel)
    (kind : fp.block.kind = .callerOwned) :
    Sound (((fp.drop (.complete cancel)).setStatus (.advancing 0 cancel)).push (.advance 0 cancel)) := by
  refine sound.handed (by simp [status,Status.expects]) rfl _ rfl fp.block _ rfl rfl (by simp [status,Status.holds])
    (sound.unlocked (.inr (.inl ⟨_,status⟩))) ?_ (sound.cycle.finished status kind)
  exact sound.whole (by simp [status,Status.entered])

theorem Sound.settledFirst (sound : Sound fp) (status : fp.progress.status = .finishing cancel)
    (kind : fp.block.kind ≠ .callerOwned) :
    Sound ((((fp.drop (.complete cancel)).setBlock {fp.block.settled cancel with nestedParent := none}).setProgress
      {fp.progress with status := .advancing 0 cancel,settles := fp.progress.settles+1}).push (.advance 0 cancel)) := by
  refine sound.handed (by simp [status,Status.expects]) rfl _ rfl _ _ rfl rfl (by simp [status,Status.holds])
    (sound.unlocked (.inr (.inl ⟨_,status⟩))) ?_ (sound.cycle.settledFirst status kind)
  exact sound.whole (by simp [status,Status.entered])

-- One turn of the advance loop gives link `i` back.
theorem Sound.left (sound : Sound fp) (status : fp.progress.status = .advancing i cancel)
    (place : fp.block.links.entries[i]? = some ⟨p,m⟩) :
    Sound ((((fp.drop (.advance i cancel)).setStatus (.advancing (i+1) cancel)).push
      (.advance (i+1) cancel)).leave p i m) := by
  have locks := sound.unlocked (.inr (.inr (.inl ⟨_,_,status⟩)))
  refine ⟨?_,?_,?_,?_,?_,sound.cycle.advanced status⟩
  · intro q j n
    simpa [setStatus] using sound.unqueued (by simp [status]) q j n
  · intro q j n
    simp only [setStatus,leave_held,push_held,setProgress_held,drop_held,sound.held,status,Status.holds,
      leave_progress,push_progress,setProgress_progress,leave_block,push_block,setProgress_block,drop_block,
      decide_eq_true_eq]
    rcases Nat.lt_trichotomy i j with before | equal | after
    · simp [Nat.le_of_lt before,Nat.succ_le_of_lt before,Nat.ne_of_gt before]
    · subst equal
      simp [place,eq_comm]
    · simp [Nat.not_le_of_lt after,show ¬ i+1 ≤ j by omega]
  · intro f control
    exact frames_next (fun g g_control => sound.dropped (by simp [status,Status.expects]) g g_control) _ f control
  · refine ⟨?_,?_,locks.2.2⟩
    · show ((fp.drop (.advance i cancel)).push (.advance (i+1) cancel)).turns = 0
      rw [(control_turns _ rfl).1,(control_turns _ rfl).2,locks.1]
    · show ((fp.drop (.advance i cancel)).push (.advance (i+1) cancel)).children = 0
      rw [(control_children _ rfl).1,(control_children _ rfl).2,locks.2.1]
  · exact sound.whole (by simp [status,Status.entered])

-- Leaving the cycle: the last control frame is spent and nothing is admitted any more.
theorem Sound.rested (sound : Sound fp) (old : fp.progress.status.expects = some f) (control : f.control = true)
    (blk : Block) (pr : Progress) (status : pr.status = .retired) (links : blk.links = fp.block.links)
    (holds : ∀ i, i < fp.block.links.count → fp.progress.status.holds i = false)
    (locks : LocksSound blk pr fp.turns fp.children) (entered : blk.pipesEntered = blk.links.count)
    (cycle : CycleSound blk pr) : Sound (((fp.drop f).setBlock blk).setProgress pr) := by
  have unqueued : ∀ k, fp.progress.status ≠ .waiting k := by
    intro k at_queue; rw [at_queue] at old; cases old
  refine sound.next _ rfl rfl links unqueued (by simp [status]) ?_ ?_ ?_ ?_ cycle
  · intro i within
    rw [holds i within]
    simp [status,Status.holds]
  · intro g g_control
    simpa [status,Status.expects] using sound.dropped old g g_control
  · show LocksSound blk pr (fp.drop f).turns (fp.drop f).children
    rw [(control_turns _ control).2,(control_children _ control).2]
    exact locks
  · simpa [status,Status.entered] using entered

theorem Sound.settledLast (sound : Sound fp) (status : fp.progress.status = .advancing i cancel)
    (done : fp.block.pipesEntered ≤ i) (kind : fp.block.kind = .callerOwned) :
    Sound (((fp.drop (.advance i cancel)).setBlock (fp.block.settled cancel)).setProgress
      {fp.progress with status := .retired,settles := fp.progress.settles+1}) := by
  have whole := sound.whole (by simp [status,Status.entered])
  refine sound.rested (by simp [status,Status.expects]) rfl _ _ rfl rfl ?_
    (sound.unlocked (.inr (.inr (.inl ⟨_,_,status⟩)))) whole (sound.cycle.settledLast status kind)
  intro j within
  rw [status]
  simp only [Status.holds,decide_eq_false_iff_not]
  omega

theorem Sound.concluded (sound : Sound fp) (status : fp.progress.status = .advancing i cancel)
    (done : fp.block.pipesEntered ≤ i) (kind : fp.block.kind = .graphNode) :
    Sound (((fp.drop (.advance i cancel)).setStatus .concluding).push .nodeComplete) := by
  have whole := sound.whole (by simp [status,Status.entered])
  refine sound.handed (by simp [status,Status.expects]) rfl _ rfl fp.block _ rfl rfl ?_
    (sound.unlocked (.inr (.inr (.inl ⟨_,_,status⟩)))) whole (sound.cycle.concluded status kind)
  intro j within
  rw [status]
  simp only [Status.holds]
  rw [eq_comm,decide_eq_false_iff_not]
  omega

theorem Sound.retired (sound : Sound fp) (status : fp.progress.status = .advancing i cancel)
    (done : fp.block.pipesEntered ≤ i) (kind : fp.block.kind ≠ .callerOwned) :
    Sound ((fp.drop (.advance i cancel)).setStatus .retired) := by
  have whole := sound.whole (by simp [status,Status.entered])
  refine sound.rested (by simp [status,Status.expects]) rfl fp.block _ rfl rfl ?_
    (sound.unlocked (.inr (.inr (.inl ⟨_,_,status⟩)))) whole (sound.cycle.retired (.inl ⟨⟨_,_,status⟩,kind⟩))
  intro j within
  rw [status]
  simp only [Status.holds,decide_eq_false_iff_not]
  omega

theorem Sound.nodeCompleted (sound : Sound fp) (status : fp.progress.status = .concluding) :
    Sound ((fp.drop .nodeComplete).setStatus .retired) :=
  sound.rested (by simp [status,Status.expects]) rfl fp.block _ rfl rfl (by simp [status,Status.holds])
    (sound.unlocked (.inr (.inr (.inr (.inl status))))) (sound.whole (by simp [status,Status.entered]))
    (sound.cycle.retired (.inr status))

-- A queued link that the admission pass lets in.
theorem Sound.granted (sound : Sound fp) (status : fp.progress.status = .waiting i)
    (place : fp.block.links.entries[i]? = some ⟨p,m⟩) :
    Sound ((((fp.dequeue p i m).receive p i m).setStatus (.admitted i)).push (.fireTurn i)) := by
  have locks := sound.locks
  simp only [LocksSound,status] at locks
  refine ⟨?_,?_,?_,?_,?_,?_⟩
  · intro q j n
    simp only [setStatus,push_queued,setProgress_queued,receive_queued,dequeue_queued,sound.queued,status,
      Status.waiting.injEq,push_progress,setProgress_progress,reduceCtorEq,false_and,ite_false]
    by_cases here : i = j
    · subst here
      simp [place,eq_comm]
    · simp [here,Ne.symm here]
  · intro q j n
    simp only [setStatus,push_held,setProgress_held,receive_held,dequeue_held,sound.held,status,Status.holds,
      push_progress,setProgress_progress,push_block,setProgress_block,receive_block,dequeue_block,decide_eq_true_eq]
    rcases Nat.lt_trichotomy j i with before | equal | after
    · simp [before,Nat.le_of_lt before,Nat.ne_of_lt before]
    · subst equal
      simp [place,eq_comm]
    · simp [Nat.not_lt_of_lt after,Nat.not_le_of_lt after,Nat.ne_of_gt after]
  · intro f control
    exact frames_next (fun g g_control => sound.undisturbed (by simp [status,Status.expects]) g g_control) _ f control
  · simp only [LocksSound,setStatus,push_progress,setProgress_progress]
    rw [(control_turns _ rfl).1,(control_children _ rfl).1]
    exact locks
  · have entered := sound.entered
    rw [status] at entered
    exact entered
  · exact sound.cycle.granted status

-- A resting block leaves nothing behind, so a new cycle starts clean.
theorem Sound.clean (sound : Sound fp) (resting : fp.progress.status.resting = true) :
    (∀ p i m, fp.queued p i m = 0) ∧ (∀ p i m, fp.held p i m = 0) ∧ (∀ f, f.control = true → fp.frames f = 0) ∧
      fp.turns = 0 ∧ fp.children = 0 := by
  have locks := sound.unlocked (.inr (.inr (.inr (.inr resting))))
  have shape : fp.progress.status = .idle ∨ fp.progress.status = .retired := by
    simpa [Status.resting] using resting
  refine ⟨?_,?_,?_,locks.1,locks.2.1⟩
  · intro p i m
    exact sound.unqueued (by rcases shape with shape | shape <;> simp [shape]) p i m
  · intro p i m
    rw [sound.held p i m]
    rcases shape with shape | shape <;> simp [shape,Status.holds]
  · intro f control
    exact sound.undisturbed (by rcases shape with shape | shape <;> simp [shape,Status.expects]) f control

theorem Sound.armed (sound : Sound fp) (resting : fp.progress.status.resting = true) (kind : Kind)
    (links : LinkTable) (token : Option TokenId) (body : kind ≠ .coroutine) (bare : kind = .bare → links.count = 0) :
    Sound ((fp.setBlock {kind := kind,links := links,numLocks := links.count,token := token}).setProgress
      {status := .armed}) := by
  obtain ⟨queued,held,frames,turns,children⟩ := sound.clean resting
  refine ⟨?_,?_,?_,⟨turns,children,rfl,?_,fun _ => rfl⟩,rfl,?_⟩
  · intro p i m; simpa using queued p i m
  · intro p i m; simpa [Status.holds] using held p i m
  · intro f control; simpa [Status.expects] using frames f control
  · exact Int.natCast_nonneg _
  · refine ⟨?_,?_,fun _ => rfl,?_,?_,?_,?_,?_,?_,rfl,?_,rfl,?_⟩
    · cases kind <;> simp_all [Status.fits]
    · rintro (is_bare | is_frame)
      · exact bare is_bare
      · exact absurd is_frame body
    all_goals simp [Status.started,Status.ended,Status.settled]

theorem Sound.rebound (sound : Sound fp) (status : fp.progress.status = .armed) (kind : fp.block.kind = .callerOwned)
    (links : LinkTable) :
    Sound (fp.setBlock {fp.block with
      links := links,numLocks := if links.count = 0 then fp.block.numLocks else links.count}) := by
  have locks := sound.locks
  have cycle := sound.cycle
  have fresh := cycle.fresh (by simp [status,Status.started])
  simp only [LocksSound,status] at locks
  obtain ⟨turns,children,attached,positive,_⟩ := locks
  refine ⟨?_,?_,?_,?_,?_,?_⟩
  · intro p i m; simpa [status] using sound.unqueued (by simp [status]) p i m
  · intro p i m
    have unheld := sound.held p i m
    simpa [status,Status.holds] using unheld
  · exact sound.control
  · simp only [LocksSound,setBlock_progress,status]
    refine ⟨turns,children,attached,?_,?_⟩
    · show 0 ≤ if links.count = 0 then fp.block.numLocks else links.count
      split
      · exact positive
      · exact Int.natCast_nonneg _
    · intro linked
      exact if_neg linked
  · have entered := sound.entered
    rw [status] at entered
    simpa [status,Status.entered] using entered
  · refine ⟨cycle.fits,?_,cycle.unclaimed,?_,cycle.inlined,cycle.cancelled,cycle.bodies,?_,cycle.flagCrossings,
      cycle.thresholds,cycle.settles,cycle.completed,cycle.parent⟩
    · rintro (is_bare | is_frame)
      · simp [kind] at is_bare
      · simp [kind] at is_frame
    · simpa [status,Status.started] using fresh.startedBy
    · simpa [status,Status.started] using fresh.zeroCrossings

theorem Sound.created (sound : Sound fp) (status : fp.progress.status = .armed) (kind : fp.block.kind ≠ .bare)
    (linkless : fp.block.links.count = 0) :
    Sound ((fp.setProgress {fp.progress with
      status := .ready,startedBy := fp.progress.startedBy++[.creator]}).push .execute) := by
  have locks := sound.locks
  simp only [LocksSound,status] at locks
  obtain ⟨turns,children,attached,positive,_⟩ := locks
  have entered := sound.entered
  rw [status] at entered
  refine sound.next _ rfl rfl rfl (by simp [status]) (by simp) ?_ ?_ ?_ ?_ ?_
  · intro i within; omega
  · exact frames_next (fun g control => sound.undisturbed (by simp [status,Status.expects]) g control) .execute
  · refine ⟨?_,?_,attached,positive⟩
    · exact (control_turns (f := .execute) _ rfl).1.trans turns
    · exact (control_children (f := .execute) _ rfl).1.trans children
  · exact entered.trans linkless.symm
  · exact sound.cycle.created status kind (.inl linkless) fp.block.pipesEntered

-- The inline probe admitted every link at once.
theorem Sound.inlined (sound : Sound fp) (status : fp.progress.status = .armed) (kind : fp.block.kind ≠ .bare)
    (held : PipeId → Nat → Access → Nat)
    (whole : ∀ p i m, held p i m = if fp.block.links.entries[i]? = some ⟨p,m⟩ then 1 else 0) :
    Sound (((({fp with held := held} : Footprint).setBlock {fp.block with
      pipesEntered := fp.block.links.count}).setProgress {fp.progress with
      status := .ready,startedBy := fp.progress.startedBy++[.creator],inlined := true}).push .execute) := by
  have locks := sound.locks
  simp only [LocksSound,status] at locks
  obtain ⟨turns,children,attached,positive,_⟩ := locks
  refine ⟨?_,?_,?_,⟨?_,?_,attached,positive⟩,rfl,sound.cycle.created status kind (.inr rfl) _⟩
  · intro p i m; simpa using sound.unqueued (by simp [status]) p i m
  · intro p i m; simpa [Status.holds] using whole p i m
  · exact frames_next (fun g control => sound.undisturbed (by simp [status,Status.expects]) g control) .execute
  · exact (control_turns (f := .execute) _ rfl).1.trans turns
  · exact (control_children (f := .execute) _ rfl).1.trans children

theorem Sound.framed (sound : Sound fp) (resting : fp.progress.status.resting = true) :
    Sound ((fp.setBlock {kind := .coroutine,numLocks := executionFlag+1}).setProgress
      {status := .running,startedBy := [.creator],bodies := 1}) := by
  obtain ⟨queued,held,frames,turns,children⟩ := sound.clean resting
  refine ⟨?_,?_,?_,⟨turns,?_⟩,rfl,?_⟩
  · intro p i m; simpa using queued p i m
  · intro p i m; simpa [LinkTable.empty] using held p i m
  · intro f control; simpa [Status.expects] using frames f control
  · show executionFlag+1 = executionFlag+1+0+fp.children
    rw [children]
    rfl
  · refine ⟨rfl,fun _ => rfl,?_,rfl,?_,?_,rfl,?_,rfl,rfl,rfl,rfl,?_⟩
    all_goals simp [Status.started,starter]

theorem Sound.settledBare (sound : Sound fp) (status : fp.progress.status = .armed) (kind : fp.block.kind = .bare) :
    Sound ((fp.setStatus (.finishing cancel)).push (.complete cancel)) := by
  have locks := sound.locks
  have linkless := sound.cycle.linkless (.inl kind)
  simp only [LocksSound,status] at locks
  obtain ⟨turns,children,attached,positive,_⟩ := locks
  have entered := sound.entered
  rw [status] at entered
  refine sound.next _ rfl rfl rfl (by simp [status]) (by simp [setStatus]) ?_ ?_ ?_ ?_ (sound.cycle.settledBare status kind)
  · intro i within; omega
  · exact frames_next (fun g control => sound.undisturbed (by simp [status,Status.expects]) g control) _
  · refine ⟨?_,?_,attached,positive⟩
    · exact (control_turns (f := .complete cancel) _ rfl).1.trans turns
    · exact (control_children (f := .complete cancel) _ rfl).1.trans children
  · exact entered.trans linkless.symm

-- The body drops its self-lock: it completes when no child is left, else it drains.
theorem Sound.body_ended (sound : Sound fp) (status : fp.progress.status = .running) :
    let unlocked := fp.setBlock {fp.block with numLocks := fp.block.numLocks-1}
    (fp.block.numLocks = executionFlag+1 → Sound ((unlocked.setProgress {fp.progress with
      status := .finishing false,flagCrossings := fp.progress.flagCrossings+1}).push (.complete false))) ∧
    (fp.block.numLocks ≠ executionFlag+1 → Sound (unlocked.setStatus .draining)) := by
  intro unlocked
  have locks := sound.locks
  simp only [LocksSound,status] at locks
  obtain ⟨turns,total⟩ := locks
  have quiet : ∀ f, f.control = true → fp.frames f = 0 :=
    fun f control => sound.undisturbed (by simp [status,Status.expects]) f control
  refine ⟨?_,?_⟩
  · intro last
    have alone : fp.progress.attached.length = 0 ∧ fp.children = 0 := by omega
    refine sound.next _ rfl rfl rfl (by simp [status]) (by simp) (by simp [status,Status.holds]) ?_ ?_ ?_ ?_
    · exact frames_next quiet (.complete false)
    · refine ⟨?_,?_,List.length_eq_zero_iff.mp alone.1,?_⟩
      · exact (control_turns (f := .complete false) _ rfl).1.trans turns
      · exact (control_children (f := .complete false) _ rfl).1.trans alone.2
      · show 0 ≤ fp.block.numLocks-1
        rw [last]; simp [executionFlag]
    · exact sound.whole (by simp [status,Status.entered])
    · exact sound.cycle.unlocked (.inl status)
  · intro more
    refine sound.next _ rfl rfl rfl (by simp [status]) (by simp [setStatus]) (by simp [status,setStatus,Status.holds])
      ?_ ?_ ?_ ?_
    · intro f control
      show fp.frames f = _
      rw [quiet f control]
      rfl
    · refine ⟨turns,?_,?_⟩
      · show fp.block.numLocks-1 = executionFlag+fp.progress.attached.length+fp.children
        omega
      · show 1 ≤ fp.progress.attached.length+fp.children
        omega
    · exact sound.whole (by simp [status,Status.entered])
    · exact sound.cycle.drained status

-- Only the counter and the children moved, and they still agree.
theorem Sound.regated (sound : Sound fp) (fp' : Footprint) (queued : fp'.queued = fp.queued)
    (held : fp'.held = fp.held) (blk : fp'.block = {fp.block with numLocks := fp'.block.numLocks})
    (pr : fp'.progress = {fp.progress with attached := fp'.progress.attached})
    (control : ∀ f, f.control = true → fp'.frames f = fp.frames f)
    (locks : LocksSound fp'.block fp'.progress fp'.turns fp'.children) : Sound fp' := by
  have same_links : fp'.block.links = fp.block.links := by rw [blk]
  have same_status : fp'.progress.status = fp.progress.status := by rw [pr]
  refine ⟨?_,?_,?_,locks,?_,?_⟩
  · intro p i m; rw [queued,same_links,same_status]; exact sound.queued p i m
  · intro p i m; rw [held,same_links,same_status]; exact sound.held p i m
  · intro f f_control; rw [control f f_control,same_status]; exact sound.control f f_control
  · rw [same_links,same_status,blk]; exact sound.entered
  · rw [blk,pr]
    have cycle := sound.cycle
    exact ⟨cycle.fits,cycle.linkless,cycle.unclaimed,cycle.startedBy,cycle.inlined,cycle.cancelled,cycle.bodies,
      cycle.zeroCrossings,cycle.flagCrossings,cycle.thresholds,cycle.settles,cycle.completed,cycle.parent⟩

theorem push_child (fp : Footprint) (heard : Bool) :
    (fp.push (.childRelease heard)).children = fp.children+1 ∧ (fp.push (.childRelease heard)).turns = fp.turns := by
  cases heard <;> simp [children,turns] <;> omega

theorem Sound.gated (sound : Sound fp) (status : fp.progress.status = .running) (c : BlockId) :
    Sound ((fp.setBlock {fp.block with numLocks := fp.block.numLocks+1}).setProgress
      {fp.progress with attached := fp.progress.attached++[c]}) := by
  have locks := sound.locks
  simp only [LocksSound,status] at locks
  refine sound.regated _ rfl rfl rfl rfl (fun f control => rfl) ?_
  simp only [LocksSound,setProgress_progress,status]
  refine ⟨locks.1,?_⟩
  show fp.block.numLocks+1 = executionFlag+1+(fp.progress.attached++[c]).length+fp.children
  rw [List.length_append,locks.2]
  simp only [List.length_cons,List.length_nil]
  omega

theorem Sound.ungated (sound : Sound fp) (status : fp.progress.status = .running) :
    Sound ((fp.setBlock {fp.block with numLocks := fp.block.numLocks+1}).push (.childRelease false)) := by
  have locks := sound.locks
  simp only [LocksSound,status] at locks
  refine sound.regated _ rfl rfl rfl rfl (fun f control => (frames_aside _ rfl control).1) ?_
  rw [(push_child _ false).1,(push_child _ false).2]
  simp only [LocksSound,push_progress,setBlock_progress,status]
  refine ⟨locks.1,?_⟩
  show fp.block.numLocks+1 = executionFlag+1+fp.progress.attached.length+((fp.children+1 : Nat) : Int)
  omega

-- A settled child turns from an attachment into a release on its way.
theorem Sound.child_settled (sound : Sound fp) (attached : c ∈ fp.progress.attached) (heard : Bool) :
    Sound ((fp.setProgress {fp.progress with attached := fp.progress.attached.erase c}).push (.childRelease heard)) := by
  have locks := sound.locks
  have shorter := List.length_erase_of_mem attached
  have some_child : 0 < fp.progress.attached.length := List.length_pos_of_mem attached
  have gates : (fp.progress.attached.erase c).length+(fp.children+1) = fp.progress.attached.length+fp.children := by
    omega
  refine sound.regated _ rfl rfl rfl rfl (fun f control => (frames_aside _ rfl control).1) ?_
  rw [(push_child _ heard).1,(push_child _ heard).2]
  show LocksSound fp.block {fp.progress with attached := fp.progress.attached.erase c} fp.turns (fp.children+1)
  have nonempty : fp.progress.attached ≠ [] := List.ne_nil_of_mem attached
  cases status : fp.progress.status with
  | running =>
    simp only [LocksSound,status] at locks ⊢
    exact ⟨locks.1,by omega⟩
  | draining =>
    simp only [LocksSound,status] at locks ⊢
    exact ⟨locks.1,by omega,by omega⟩
  | _ =>
    simp only [LocksSound,status] at locks
    exact absurd (by tauto) nonempty

theorem Sound.adopted (sound : Sound fp) (parent : BlockId) (live : fp.progress.status.resting = false)
    (open_yet : fp.block.completed = false) (kind : fp.block.kind ≠ .graphNode ∧ fp.block.kind ≠ .callerOwned) :
    Sound (fp.setBlock {fp.block with nestedParent := some parent}) := by
  have cycle := sound.cycle
  exact ⟨sound.queued,sound.held,sound.control,sound.locks,sound.entered,
    cycle.fits,cycle.linkless,cycle.unclaimed,cycle.startedBy,cycle.inlined,cycle.cancelled,cycle.bodies,
    cycle.zeroCrossings,cycle.flagCrossings,cycle.thresholds,cycle.settles,cycle.completed,
    fun _ => ⟨live,open_yet,kind⟩⟩

end Footprint
end Macrame

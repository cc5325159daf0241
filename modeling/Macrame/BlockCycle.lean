import Macrame.Accounts

namespace Macrame

-- Nothing of the cycle has happened yet.
structure Progress.Fresh (pr : Progress) : Prop where
  startedBy : pr.startedBy = []
  inlined : pr.inlined = false
  foundCancelled : pr.foundCancelled = false
  bodies : pr.bodies = 0
  settles : pr.settles = 0
  zeroCrossings : pr.zeroCrossings = 0
  flagCrossings : pr.flagCrossings = 0
  thresholds : pr.thresholds = 0

theorem Status.started_of_ended {status : Status} (ended : status.ended = true) : status.started = true := by
  cases status <;> first | rfl | cases ended

theorem Status.started_of_settled {status : Status} (settled : status.settled kind = true) :
    status.ended = true := by
  cases status <;> first | rfl | cases settled

theorem CycleSound.fresh (cycle : CycleSound blk pr) (unstarted : pr.status.started = false) : pr.Fresh := by
  have unended : pr.status.ended = false := by
    cases ended : pr.status.ended with
    | false => rfl
    | true => rw [Status.started_of_ended ended] at unstarted; cases unstarted
  have unsettled : pr.status.settled blk.kind = false := by
    cases settled : pr.status.settled blk.kind with
    | false => rfl
    | true => rw [Status.started_of_settled settled] at unended; cases unended
  refine ⟨?_,?_,?_,?_,?_,?_,?_,cycle.thresholds⟩
  · simpa [unstarted] using cycle.startedBy
  · simpa [unstarted] using cycle.inlined
  · simpa [unended] using cycle.cancelled
  · simpa [unstarted] using cycle.bodies
  · simpa [unsettled] using cycle.settles
  · simpa [unstarted] using cycle.zeroCrossings
  · simpa [unended] using cycle.flagCrossings

-- The cycle does not read the counter.
theorem CycleSound.relocked (cycle : CycleSound blk pr) :
    CycleSound {blk with numLocks := locks,prereqCancelled := heard} pr :=
  ⟨cycle.fits,cycle.linkless,cycle.unclaimed,cycle.startedBy,cycle.inlined,cycle.cancelled,cycle.bodies,
    cycle.zeroCrossings,cycle.flagCrossings,cycle.thresholds,cycle.settles,cycle.completed,cycle.parent⟩

theorem CycleSound.kinds (cycle : CycleSound blk pr) (status : pr.status = .turned ∨ pr.status = .ready) :
    blk.kind ≠ .bare ∧ blk.kind ≠ .coroutine := by
  have fits := cycle.fits
  refine ⟨?_,?_⟩
  · intro shape
    rcases status with status | status <;> rw [status,shape] at fits <;> simp [Status.fits,Status.ended] at fits
  · intro shape
    rcases status with status | status <;> rw [status,shape] at fits <;> simp [Status.fits,Status.ended] at fits

theorem CycleSound.granted (cycle : CycleSound blk pr) (status : pr.status = .waiting i) :
    CycleSound blk {pr with status := .admitted i} := by
  have fresh := cycle.fresh (by simp [status,Status.started])
  have fits := cycle.fits
  have completed := cycle.completed
  have parent := cycle.parent
  refine ⟨?_,cycle.linkless,fun _ => cycle.unclaimed (.inl (by simp [status,Status.started])),
    ?_,?_,?_,?_,?_,?_,fresh.thresholds,?_,?_,?_⟩
  · cases shape : blk.kind <;> simp_all [Status.fits,Status.ended]
  all_goals simp_all [Status.started,Status.ended,Status.settled,Status.resting,fresh.startedBy,fresh.inlined,
    fresh.foundCancelled,fresh.bodies,fresh.settles,fresh.zeroCrossings,fresh.flagCrossings]

theorem CycleSound.dispatched (cycle : CycleSound blk pr) (status : pr.status = .turned)
    (linked : blk.links.count ≠ 0) :
    CycleSound {blk with numLocks := locks,prereqCancelled := heard} {pr with
      status := .ready,startedBy := pr.startedBy++[.dispatch],zeroCrossings := pr.zeroCrossings+1} := by
  have fresh := cycle.fresh (by simp [status,Status.started])
  have fits := cycle.fits
  have completed := cycle.completed
  have parent := cycle.parent
  have kinds := cycle.kinds (.inl status)
  have who : starter blk pr = .dispatch := by simp [starter,kinds,linked,fresh.inlined]
  refine ⟨?_,cycle.linkless,fun _ => cycle.unclaimed (.inl (by simp [status,Status.started])),
    ?_,?_,?_,?_,?_,?_,fresh.thresholds,?_,?_,?_⟩
  · cases shape : blk.kind <;> simp_all [Status.fits,Status.ended]
  all_goals simp_all [Status.started,Status.ended,Status.settled,Status.resting,starter,
    fresh.startedBy,fresh.inlined,fresh.foundCancelled,fresh.bodies,fresh.settles,fresh.zeroCrossings,fresh.flagCrossings]

-- Started by the creating call: no link, or all of them admitted at once.
theorem CycleSound.created (cycle : CycleSound blk pr) (status : pr.status = .armed) (kind : blk.kind ≠ .bare)
    (direct : blk.links.count = 0 ∨ whole = true) (entered : Nat) :
    CycleSound {blk with pipesEntered := entered} {pr with
      status := .ready,startedBy := pr.startedBy++[.creator],inlined := whole} := by
  have fresh := cycle.fresh (by simp [status,Status.started])
  have fits := cycle.fits
  have completed := cycle.completed
  have parent := cycle.parent
  have who : starter blk {pr with inlined := whole} = .creator := by
    rcases direct with direct | direct <;> simp [starter,direct]
  refine ⟨?_,cycle.linkless,fun _ => cycle.unclaimed (.inl (by simp [status,Status.started])),
    ?_,?_,?_,?_,?_,?_,fresh.thresholds,?_,?_,?_⟩
  · cases shape : blk.kind <;> simp_all [Status.fits,Status.ended]
  all_goals simp_all [Status.started,Status.ended,Status.settled,Status.resting,starter,
    fresh.startedBy,fresh.foundCancelled,fresh.bodies,fresh.settles,fresh.zeroCrossings,fresh.flagCrossings]

theorem CycleSound.ran (cycle : CycleSound blk pr) (status : pr.status = .ready) :
    CycleSound {blk with numLocks := locks,bodyClaimed := true} {pr with status := .running,bodies := pr.bodies+1} := by
  have kinds := cycle.kinds (.inr status)
  obtain ⟨fits,linkless,unclaimed,startedBy,inlined,found,bodies,zeroes,flags,thresholds,settles,completed,parent⟩ := cycle
  refine ⟨?_,linkless,?_,?_,?_,?_,?_,?_,?_,thresholds,?_,?_,?_⟩
  · cases shape : blk.kind <;> simp_all [Status.fits,Status.ended]
  all_goals simp_all [Status.started,Status.ended,Status.settled,Status.resting,starter]

theorem CycleSound.skipped (cycle : CycleSound blk pr) (status : pr.status = .ready) :
    CycleSound {blk with bodyClaimed := true} {pr with status := .finishing true,foundCancelled := true} := by
  have kinds := cycle.kinds (.inr status)
  obtain ⟨fits,linkless,unclaimed,startedBy,inlined,found,bodies,zeroes,flags,thresholds,settles,completed,parent⟩ := cycle
  refine ⟨?_,linkless,?_,?_,?_,?_,?_,?_,?_,thresholds,?_,?_,?_⟩
  · cases shape : blk.kind <;> simp_all [Status.fits,Status.ended]
  all_goals simp_all [Status.started,Status.ended,Status.settled,Status.resting,starter]

theorem CycleSound.drained (cycle : CycleSound blk pr) (status : pr.status = .running) :
    CycleSound {blk with numLocks := locks} {pr with status := .draining} := by
  obtain ⟨fits,linkless,unclaimed,startedBy,inlined,found,bodies,zeroes,flags,thresholds,settles,completed,parent⟩ := cycle
  refine ⟨?_,linkless,?_,?_,?_,?_,?_,?_,?_,thresholds,?_,?_,?_⟩
  · cases shape : blk.kind <;> simp_all [Status.fits,Status.ended]
  all_goals simp_all [Status.started,Status.ended,Status.settled,Status.resting,starter]

theorem CycleSound.unlocked (cycle : CycleSound blk pr) (status : pr.status = .running ∨ pr.status = .draining) :
    CycleSound {blk with numLocks := locks,prereqCancelled := heard} {pr with
      status := .finishing false,flagCrossings := pr.flagCrossings+1} := by
  obtain ⟨fits,linkless,unclaimed,startedBy,inlined,found,bodies,zeroes,flags,thresholds,settles,completed,parent⟩ := cycle
  rcases status with status | status
  all_goals
    refine ⟨?_,linkless,?_,?_,?_,?_,?_,?_,?_,thresholds,?_,?_,?_⟩
    · cases shape : blk.kind <;> simp_all [Status.fits,Status.ended]
    all_goals simp_all [Status.started,Status.ended,Status.settled,Status.resting,starter]
    try cases shape : blk.kind <;> simp_all [Status.fits,Status.ended]

theorem CycleSound.settledBare (cycle : CycleSound blk pr) (status : pr.status = .armed) (kind : blk.kind = .bare) :
    CycleSound blk {pr with status := .finishing cancel} := by
  have fresh := cycle.fresh (by simp [status,Status.started])
  have completed := cycle.completed
  have parent := cycle.parent
  refine ⟨?_,cycle.linkless,?_,?_,?_,?_,?_,?_,?_,fresh.thresholds,?_,?_,?_⟩
  all_goals simp_all [Status.fits,Status.started,Status.ended,Status.settled,Status.resting,starter,
    fresh.startedBy,fresh.inlined,fresh.foundCancelled,fresh.bodies,fresh.settles,fresh.zeroCrossings,fresh.flagCrossings]

theorem CycleSound.finished (cycle : CycleSound blk pr) (status : pr.status = .finishing cancel)
    (kind : blk.kind = .callerOwned) : CycleSound blk {pr with status := .advancing 0 cancel} := by
  obtain ⟨fits,linkless,unclaimed,startedBy,inlined,found,bodies,zeroes,flags,thresholds,settles,completed,parent⟩ := cycle
  refine ⟨?_,linkless,?_,?_,?_,?_,?_,?_,?_,thresholds,?_,?_,?_⟩
  all_goals simp_all [Status.fits,Status.started,Status.ended,Status.settled,Status.resting,starter]

theorem CycleSound.settledFirst (cycle : CycleSound blk pr) (status : pr.status = .finishing cancel)
    (kind : blk.kind ≠ .callerOwned) :
    CycleSound {blk with completed := true,cancelled := verdict,nestedParent := none}
      {pr with status := .advancing 0 cancel,settles := pr.settles+1} := by
  obtain ⟨fits,linkless,unclaimed,startedBy,inlined,found,bodies,zeroes,flags,thresholds,settles,completed,_⟩ := cycle
  refine ⟨?_,linkless,?_,?_,?_,?_,?_,?_,?_,thresholds,?_,?_,?_⟩
  · cases shape : blk.kind <;> simp_all [Status.fits,Status.ended]
  all_goals simp_all [Status.started,Status.ended,Status.settled,Status.resting,starter]

theorem CycleSound.advanced (cycle : CycleSound blk pr) (status : pr.status = .advancing i cancel) :
    CycleSound blk {pr with status := .advancing (i+1) cancel} := by
  obtain ⟨fits,linkless,unclaimed,startedBy,inlined,found,bodies,zeroes,flags,thresholds,settles,completed,parent⟩ := cycle
  refine ⟨?_,linkless,?_,?_,?_,?_,?_,?_,?_,thresholds,?_,?_,fun owned => ⟨rfl,(parent owned).2⟩⟩
  · cases shape : blk.kind <;> simp_all [Status.fits,Status.ended]
  all_goals simp_all [Status.started,Status.ended,Status.settled,Status.resting,starter]

theorem CycleSound.settledLast (cycle : CycleSound blk pr) (status : pr.status = .advancing i cancel)
    (kind : blk.kind = .callerOwned) :
    CycleSound {blk with completed := true,cancelled := verdict} {pr with status := .retired,settles := pr.settles+1} := by
  obtain ⟨fits,linkless,unclaimed,startedBy,inlined,found,bodies,zeroes,flags,thresholds,settles,completed,parent⟩ := cycle
  refine ⟨?_,linkless,?_,?_,?_,?_,?_,?_,?_,thresholds,?_,?_,?_⟩
  all_goals simp_all [Status.fits,Status.started,Status.ended,Status.settled,Status.resting,starter]

theorem CycleSound.concluded (cycle : CycleSound blk pr) (status : pr.status = .advancing i cancel)
    (kind : blk.kind = .graphNode) : CycleSound blk {pr with status := .concluding} := by
  obtain ⟨fits,linkless,unclaimed,startedBy,inlined,found,bodies,zeroes,flags,thresholds,settles,completed,parent⟩ := cycle
  refine ⟨?_,linkless,?_,?_,?_,?_,?_,?_,?_,thresholds,?_,?_,?_⟩
  all_goals simp_all [Status.fits,Status.started,Status.ended,Status.settled,Status.resting,starter]

theorem CycleSound.retired (cycle : CycleSound blk pr)
    (status : (∃ i cancel, pr.status = .advancing i cancel) ∧ blk.kind ≠ .callerOwned ∨ pr.status = .concluding) :
    CycleSound blk {pr with status := .retired} := by
  have completed := cycle.completed
  have unowned : blk.nestedParent = none := by
    by_contra owned
    have unsettled := (cycle.parent owned).2.1
    rcases status with ⟨⟨i,cancel,status⟩,kind⟩ | status
    · simp_all [Status.settled]
    · simp_all [Status.settled]
  obtain ⟨fits,linkless,unclaimed,startedBy,inlined,found,bodies,zeroes,flags,thresholds,settles,_,_⟩ := cycle
  rcases status with ⟨⟨i,cancel,status⟩,kind⟩ | status
  all_goals
    refine ⟨?_,linkless,?_,?_,?_,?_,?_,?_,?_,thresholds,?_,?_,?_⟩
    · cases shape : blk.kind <;> simp_all [Status.fits,Status.ended]
    all_goals simp_all [Status.started,Status.ended,Status.settled,Status.resting,starter]

end Macrame

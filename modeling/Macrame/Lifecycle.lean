import Macrame.PipeLaws

namespace Macrame

-- One cycle of a block that carries a body, in every state of it.
structure Lifecycle (s : State) (b : BlockId) : Prop where
  -- started once: by the creating call when there is nothing to wait for, else
  -- by the drop of the last pre-execution lock
  started : (s.progress b).startedBy =
    if (s.progress b).status.started = true then
      [if (s.blocks b).kind = .coroutine ∨ (s.blocks b).links.count = 0 ∨ (s.progress b).inlined = true
        then .creator else .dispatch]
    else []
  bodies : (s.progress b).bodies ≤ 1
  skipped : (s.progress b).status.ended = true →
    ((s.progress b).bodies = 0 ↔ (s.progress b).foundCancelled = true)
  settles : (s.progress b).settles ≤ 1 ∧ ((s.blocks b).completed = true ↔ (s.progress b).settles = 1)
  -- settled only past the body, with every attached child let go
  gated : (s.blocks b).completed = true → (s.progress b).status.ended = true ∧ (s.progress b).attached = [] ∧
    ∀ heard, .own b (.childRelease heard) ∉ s.pending
  whole : (s.progress b).status = .retired → (s.progress b).startedBy.length = 1 ∧ (s.progress b).settles = 1 ∧
    (s.progress b).bodies = if (s.progress b).foundCancelled = true then 0 else 1
  locks : 0 ≤ (s.blocks b).numLocks
  crossings : (s.progress b).zeroCrossings ≤ 1 ∧ (s.progress b).flagCrossings ≤ 1 ∧ (s.progress b).thresholds = 0
  -- nothing is lost on the way: a live block has a frame pending, or stands in
  -- a queue, or is with its creator, its body or a child that has not settled
  carried : (s.progress b).status.resting = false →
    (∃ f, .own b f ∈ s.pending) ∨ (s.progress b).status = .armed ∨
    (∃ i p m, (s.progress b).status = .waiting i ∧ ⟨.link b i,m⟩ ∈ (s.pipes p).pipe.queue) ∨
    (s.progress b).status = .running ∨
    (∃ c, (s.blocks c).nestedParent = some b ∧ (s.blocks c).completed = false)

namespace State

theorem not_pending {s : State} (none_left : (s.footprint b).frames f = 0) : .own b f ∉ s.pending :=
  List.count_eq_zero.mp none_left

theorem some_pending {s : State} (some_left : 0 < (s.footprint b).frames f) : .own b f ∈ s.pending :=
  List.count_pos_iff.mp some_left

theorem expected_pending (acc : Accounts s) (expects : (s.progress b).status.expects = some f)
    (control : f.control = true) : .own b f ∈ s.pending := by
  refine some_pending ?_
  rw [(acc.blocks b).control f control,footprint_progress,if_pos expects]
  exact Nat.zero_lt_one

theorem attached_child (acc : Accounts s) (member : c ∈ (s.progress b).attached) :
    (s.blocks c).nestedParent = some b ∧ (s.blocks c).completed = false := by
  have parent : (s.blocks c).nestedParent = some b := by
    by_contra other
    have counted := acc.nested b c
    rw [if_neg other] at counted
    exact List.count_eq_zero.mp counted member
  refine ⟨parent,?_⟩
  exact ((acc.blocks c).cycle.parent (by rw [footprint_block,parent]; simp)).2.1

theorem numLocks_nonneg (acc : Accounts s) (b : BlockId) : 0 ≤ (s.blocks b).numLocks := by
  have locks := (acc.blocks b).locks
  simp only [LocksSound,footprint_block,footprint_progress] at locks
  cases status : (s.progress b).status <;> simp only [status,executionFlag] at locks <;> omega

theorem carried (acc : Accounts s) (live : (s.progress b).status.resting = false) :
    (∃ f, .own b f ∈ s.pending) ∨ (s.progress b).status = .armed ∨
    (∃ i p m, (s.progress b).status = .waiting i ∧ ⟨.link b i,m⟩ ∈ (s.pipes p).pipe.queue) ∨
    (s.progress b).status = .running ∨
    (∃ c, (s.blocks c).nestedParent = some b ∧ (s.blocks c).completed = false) := by
  have locks := (acc.blocks b).locks
  simp only [LocksSound,footprint_block,footprint_progress] at locks
  have framed : ∀ f, f.control = true → (s.progress b).status.expects = some f → ∃ f, .own b f ∈ s.pending :=
    fun f control expects => ⟨f,expected_pending acc expects control⟩
  cases status : (s.progress b).status with
  | idle => rw [status] at live; cases live
  | retired => rw [status] at live; cases live
  | armed => exact .inr (.inl rfl)
  | waiting i =>
    simp only [status] at locks
    obtain ⟨⟨p,m⟩,place⟩ : ∃ link, (s.blocks b).links.entries[i]? = some link := ⟨_,List.getElem?_eq_getElem locks.1⟩
    exact .inr (.inr (.inl ⟨i,p,m,rfl,(waiting_iff acc).mpr ⟨status,place⟩⟩))
  | turned =>
    simp only [status] at locks
    exact .inl ⟨.turnRelease,some_pending locks.2.1⟩
  | running => exact .inr (.inr (.inr (.inl rfl)))
  | draining =>
    simp only [status] at locks
    obtain ⟨_,_,more⟩ := locks
    cases shape : (s.progress b).attached with
    | cons c rest => exact .inr (.inr (.inr (.inr ⟨c,attached_child acc (by simp [shape])⟩)))
    | nil =>
      -- no child attached: a release of one is on its way
      simp only [shape,List.length_nil,Nat.zero_add,Footprint.children] at more
      by_cases quiet : (s.footprint b).frames (.childRelease false) = 0
      · exact .inl ⟨.childRelease true,some_pending (by omega)⟩
      · exact .inl ⟨.childRelease false,some_pending (by omega)⟩
  | admitted i => exact .inl (framed (.fireTurn i) rfl (by simp [status,Status.expects]))
  | ready => exact .inl (framed .execute rfl (by simp [status,Status.expects]))
  | finishing cancel => exact .inl (framed (.complete cancel) rfl (by simp [status,Status.expects]))
  | advancing i cancel => exact .inl (framed (.advance i cancel) rfl (by simp [status,Status.expects]))
  | concluding => exact .inl (framed .nodeComplete rfl (by simp [status,Status.expects]))

-- A block past its body has no child left, attached or letting go.
theorem ended_alone (acc : Accounts s) (ended : (s.progress b).status.ended = true) :
    (s.progress b).attached = [] ∧ ∀ heard, .own b (.childRelease heard) ∉ s.pending := by
  have locks : (s.footprint b).turns = 0 ∧ (s.footprint b).children = 0 ∧ (s.progress b).attached = [] ∧
      0 ≤ (s.blocks b).numLocks := by
    refine (acc.blocks b).unlocked ?_
    cases status : (s.progress b).status <;> simp_all [Status.ended,Status.resting]
  obtain ⟨_,children,attached,_⟩ := locks
  refine ⟨attached,?_⟩
  intro heard
  refine not_pending ?_
  unfold Footprint.children at children
  cases heard <;> omega

end State

theorem once {c : Prop} [Decidable c] : (if c then 1 else 0) ≤ 1 := by split <;> simp

theorem reached_lifecycle (path : Machines.Reached system s) (b : BlockId) (body : (s.blocks b).kind ≠ .bare) :
    Lifecycle s b := by
  have acc := reached_accounts path
  have cycle : CycleSound (s.blocks b) (s.progress b) := (acc.blocks b).cycle
  obtain ⟨_,_,_,startedBy,_,_,bodies,zeroes,flags,thresholds,settles,completed,_⟩ := cycle
  refine ⟨?_,?_,?_,?_,?_,?_,State.numLocks_nonneg acc b,?_,State.carried acc⟩
  · simpa [body,starter] using startedBy
  · rw [bodies]; exact once
  · intro ended
    have begun := Status.started_of_ended ended
    have unready : (s.progress b).status ≠ .ready := by intro ready; rw [ready] at ended; cases ended
    rw [bodies]
    simp [begun,unready,body]
  · rw [settles,completed]
    exact ⟨once,by simp⟩
  · intro settled
    rw [completed] at settled
    have ended := Status.started_of_settled settled
    exact ⟨ended,State.ended_alone acc ended⟩
  · intro retired
    rw [startedBy,settles,bodies]
    by_cases cancelled : (s.progress b).foundCancelled = true <;>
      simp [retired,Status.started,Status.settled,body,cancelled]
  · rw [zeroes,flags]
    exact ⟨once,once,thresholds⟩

-- The lifecycle holds in every reachable state for every block with a body.
theorem block_lifecycle (path : Machines.Reached system s) (b : BlockId) (body : (s.blocks b).kind ≠ .bare) :
    Lifecycle s b := reached_lifecycle path b body

-- A parent whose only child settles after its body ended.
def gatedParent : List Action :=
  [.arm 0 .executable .empty none,.launch 0,.resume (.own 0 .execute),.arm 1 .bare .empty none,.addNested 0 1,
    .bodyEnd 0,.settleBare 1 false,.resume (.own 1 (.complete false)),.resume (.own 0 (.childRelease false)),
    .resume (.own 0 (.complete false)),.resume (.own 0 (.advance 0 false))]

theorem block_lifecycle_gated :
    ((system.follow .initial gatedParent).progress 0).status = .retired ∧
    ((system.follow .initial gatedParent).blocks 0).numLocks = executionFlag ∧
    Lifecycle (system.follow .initial gatedParent) 0 :=
  ⟨by decide,by decide,block_lifecycle (Machines.reached_follow (.start rfl) (by decide)) 0 (by decide)⟩

end Macrame

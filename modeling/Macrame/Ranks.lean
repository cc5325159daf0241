import Macrame.Lib.WaitFor
import Macrame.Coroutines

namespace Macrame
namespace RankWorld

variable {rank : PipeId → Nat}

-- What a participant keeps: its links, its guards and the links of the body it gates.
def Holds (w : RankWorld) (x : BlockId) (p : PipeId) : Prop :=
  (∃ i m, ⟨.link x i,m⟩ ∈ (w.base.pipes p).held) ∨ (∃ h m, ⟨.hold h (some x),m⟩ ∈ (w.base.pipes p).held) ∨
    ∃ b i m, (w.base.blocks x).nestedParent = some b ∧ ⟨.link b i,m⟩ ∈ (w.base.pipes p).held

-- What it stands in line for: its next turn, a guard, or the turns of the op it awaits.
def WaitsFor (w : RankWorld) (x : BlockId) (p : PipeId) : Prop :=
  (∃ i m, ⟨.link x i,m⟩ ∈ (w.base.pipes p).pipe.queue) ∨ (∃ h m, ⟨.hold h (some x),m⟩ ∈ (w.base.pipes p).pipe.queue) ∨
    ∃ o i m, (w.frames x).suspended = some (.op o) ∧ ⟨.link o i,m⟩ ∈ (w.base.pipes p).pipe.queue

-- A cycle of participants, each in line for a pipe that the next one holds.
-- Whoever is queued on a pipe is behind every admission that is out on it.
def Deadlocked (w : RankWorld) : Prop := ∃ x, Relation.TransGen (fun x y => ∃ p, w.WaitsFor x p ∧ w.Holds y p) x x

-- Ranked objects stand in memory in the order of their ranks.
def Agrees (rank : PipeId → Nat) : Prop := ∀ p q, 0 < rank p → rank p < rank q → p < q

theorem linked_kind {i : Nat} {link : Link} (acc : Accounts s) (place : (s.blocks b).links.entries[i]? = some link) :
    (s.blocks b).kind ≠ .coroutine := by
  intro kind
  have unlinked : (s.blocks b).links.count = 0 := (acc.blocks b).cycle.linkless (.inr kind)
  have bounded := (List.getElem?_eq_some_iff.mp place).1
  simp only [LinkTable.count] at unlinked
  omega

-- A coroutine in line has only lower pipes: in rank by the rule, in address
-- because the two agree.
theorem grasp_lower {w : RankWorld} (agrees : Agrees rank) (sound : SoundBut rank w none) (climbs : Climbs rank w x q)
    (none_granted : ∀ h p m, w.base.holds h ≠ .granted p m (some x)) (kind : (w.base.blocks x).kind = .coroutine)
    (held : w.Holds x p) : p < q := by
  have acc := reached_accounts sound.base
  have grasped : w.Grasps x p := by
    rcases held with ⟨i,m,link⟩ | ⟨h,m,hold⟩ | ⟨b,i,m,child,link⟩
    · exact absurd kind (linked_kind acc ((State.holding_iff acc).mp link).2)
    · rcases (State.hold_holding_iff acc).mp hold with granted | held
      · exact absurd granted (none_granted h p m)
      · exact .inl ⟨h,m,held⟩
    · exact .inr ⟨b,_,child,List.mem_of_getElem? ((State.holding_iff acc).mp link).2,rfl⟩
  obtain ⟨ranked,lower⟩ := climbs p grasped
  exact agrees p q ranked lower

theorem waits_above {w : RankWorld} (agrees : Agrees rank) (sound : SoundBut rank w none) (held : w.Holds x p)
    (waits : w.WaitsFor x q) : p < q := by
  have acc := reached_accounts sound.base
  rcases waits with ⟨i,m,queued⟩ | ⟨h,m,queued⟩ | ⟨o,i,m,suspended,queued⟩
  · -- a cascade: what it holds are earlier links of its own
    obtain ⟨status,place⟩ := (State.waiting_iff acc).mp queued
    have task := linked_kind acc place
    rcases held with ⟨j,n,link⟩ | ⟨g,n,hold⟩ | ⟨b,j,n,child,_⟩
    · obtain ⟨holds,taken⟩ := (State.holding_iff acc).mp link
      rw [status] at holds
      have higher : (⟨p,n⟩ : Link).pipe < (⟨q,m⟩ : Link).pipe :=
        LinkTable.place_lt taken place (by simpa [Status.holds] using holds)
      exact higher
    · have old := sound.holds g (by simp)
      rcases (State.hold_holding_iff acc).mp hold with granted | held
      · rw [granted] at old
        cases old with
        | granted runs _ => exact absurd runs.kind task
      · rw [held] at old
        cases old with
        | held runs _ _ => exact absurd runs.kind task
    · exact absurd (sound.hosted b x child).kind task
  · have old := sound.holds h (by simp)
    rw [State.queued_hold acc queued] at old
    cases old with
    | queued runs suspended climbs =>
      refine grasp_lower agrees sound climbs ?_ runs.kind held
      intro g p' m' granted
      rcases sound.pending (.inr granted) with opened | waiting
      · cases opened
      · cases suspended.symm.trans waiting
        cases (State.queued_hold acc queued).symm.trans granted
  · obtain ⟨runs,_,_,climbs⟩ := sound.ops x o suspended
    have place := ((State.waiting_iff acc).mp queued).2
    refine grasp_lower agrees sound (climbs _ (List.mem_of_getElem? place)) ?_ runs.kind held
    intro g p' m' granted
    rcases sound.pending (.inr granted) with opened | waiting
    · cases opened
    · cases suspended.symm.trans waiting

end RankWorld

-- The same machine for programs whose awaits ask for further objects only.
def furtherSystem (rank : PipeId → Nat) : Machines.Machine RankWorld RankAction :=
  ⟨(rankSystem rank).start,fun w a => w.Allowed rank a ∧ w.further a,RankWorld.apply rank⟩

theorem reached_ranked (path : Machines.Reached (furtherSystem rank) w) : RankWorld.SoundBut rank w none := by
  refine Machines.reached_invariant (fun w => RankWorld.SoundBut rank w none) ?_ ?_ path
  · rintro w rfl
    refine ⟨.start rfl,fun _ _ => .idle,?_,?_⟩
    · intro b c child; cases child
    · intro c o suspended; cases suspended
  · intro w a sound allowed
    exact RankWorld.apply_sound sound allowed.1 allowed.2

theorem ranked_no_cycle (agrees : RankWorld.Agrees rank) (path : Machines.Reached (furtherSystem rank) w) :
    ¬ w.Deadlocked := by
  rintro ⟨x,cycle⟩
  have climbs : ∀ x (p q : Nat), w.Holds x p → w.WaitsFor x q → p < q :=
    fun x p q => RankWorld.waits_above agrees (reached_ranked path)
  exact WaitFor.no_cycle climbs x cycle

instance furtherDecidable (rank : PipeId → Nat) (w : RankWorld) (a : RankAction) :
    Decidable ((furtherSystem rank).allowed w a) :=
  haveI : Decidable (w.further a) := by
    cases a <;> unfold RankWorld.further <;> infer_instance
  inferInstanceAs (Decidable (w.Allowed rank a ∧ w.further a))

def crossTable (low high : PipeId) (below : low < high) : LinkTable where
  entries := [⟨low,.readWrite⟩,⟨high,.readWrite⟩]
  canonical := by simpa using below
  counted := by simp

-- A node holds the higher pipe and its coroutine awaits the lower one; a batch
-- takes the lower one and waits for the higher.
def crossing (low high : PipeId) (below : low < high) : List RankAction :=
  [.base (.arm 1 .graphNode (.single ⟨high,.readWrite⟩) none),.base (.launch 1),.base (.resume (.own 1 (.fireTurn 0))),
    .base (.resume (.own 1 .turnRelease)),.base (.resume (.own 1 .execute)),.node 1 2,
    .base (.arm 0 .executable (crossTable low high below) none),.base (.launch 0),
    .base (.resume (.own 0 (.fireTurn 0))),.guard 2 0 low .readWrite]

-- The batch is in line for the higher pipe, behind the node whose coroutine is
-- in line for the lower one, behind the batch.
def Crossed (w : RankWorld) (low high : PipeId) : Prop :=
  ⟨.link 0 1,.readWrite⟩ ∈ (w.base.pipes high).pipe.queue ∧ ⟨.link 0 0,.readWrite⟩ ∈ (w.base.pipes low).held ∧
    ⟨.hold 0 (some 2),.readWrite⟩ ∈ (w.base.pipes low).pipe.queue ∧ (w.base.blocks 2).nestedParent = some 1 ∧
    ⟨.link 1 0,.readWrite⟩ ∈ (w.base.pipes high).held

instance crossedDecidable (w : RankWorld) (low high : PipeId) : Decidable (Crossed w low high) :=
  inferInstanceAs (Decidable (_ ∧ _ ∧ _ ∧ _ ∧ _))

-- The run, symbolically executed for any two pipes.
theorem crossing_run (below : low < high) (ranked : 0 < rank high) (crossed : rank high < rank low) :
    (furtherSystem rank).admits {} (crossing low high below) = true ∧
      Crossed ((furtherSystem rank).follow {} (crossing low high below)) low high := by
  have apart : low ≠ high := Nat.ne_of_lt below
  have apart' : high ≠ low := Nat.ne_of_gt below
  have ranked' : rank high ≠ 0 := Nat.ne_of_gt ranked
  simp [Crossed,crossing,crossTable,furtherSystem,Machines.Machine.admits,Machines.Machine.follow,RankWorld.Allowed,RankWorld.further,
    RankWorld.outside,RankWorld.awaits,RankWorld.apply,RankWorld.setFrame,RankWorld.declares,Coroutine.full,
    Coroutine.inheriting,Coroutine.context,maxEntries,AccessContext.checkAccessRank,AccessContext.rankState,
    AccessContext.RankState.add,AccessContext.check,AccessContext.checkFrom,Entry.capture,Entry.current,State.initial,
    State.epochs,State.Allowed,State.apply,State.launch,State.enterLink,State.runFrame,State.runOwn,State.fireTurn,
    State.releaseBlock,State.execute,State.addNested,State.acquire,State.setStatus,Status.resting,Action.claims,
    Block.release,Block.beginBody,Block.foundCancelled,LinkTable.single,LinkTable.count,Tracked.enter,Tracked.noteAdmitted,
    Tracked.held,Pipe.enterLocked,Pipe.admissible,Pipe.admitLocked,Pipe.queuePush,apart,apart',ranked,ranked']
  omega

theorem Crossed.deadlocked (low high : PipeId) (crossed : Crossed w low high) : w.Deadlocked := by
  obtain ⟨queued,held,awaited,child,kept⟩ := crossed
  refine ⟨0,.tail (.single (b := 2) ⟨high,.inl ⟨1,.readWrite,queued⟩,.inr (.inr ⟨1,0,.readWrite,child,kept⟩)⟩) ?_⟩
  exact ⟨low,.inr (.inl ⟨0,.readWrite,awaited⟩),.inl ⟨0,.readWrite,held⟩⟩

-- The rank rule closes every cycle, batches included, exactly for the
-- assignments of ranks that go with the addresses.
theorem ranks_close_iff_agrees (rank : PipeId → Nat) :
    (∀ w, Machines.Reached (furtherSystem rank) w → ¬ w.Deadlocked) ↔ RankWorld.Agrees rank := by
  refine ⟨?_,fun agrees w path => ranked_no_cycle agrees path⟩
  intro closed high low ranked crossed
  by_contra above
  have below : low < high := by
    refine Nat.lt_of_le_of_ne (Nat.not_lt.mp above) ?_
    rintro rfl
    exact Nat.lt_irrefl _ crossed
  obtain ⟨admitted,cycle⟩ := crossing_run below ranked crossed
  exact closed _ (Machines.reached_follow (.start rfl) admitted) (cycle.deadlocked low high)

-- The object at the lower address has the higher rank.
def crossedRank (p : PipeId) : Nat := if p = 0 then 2 else if p = 1 then 1 else 0

theorem ranks_crossed_deadlock :
    (rankSystem crossedRank).admits {} (crossing 0 1 (by decide)) = true ∧
    ((rankSystem crossedRank).follow {} (crossing 0 1 (by decide))).Deadlocked :=
  ⟨by decide,Crossed.deadlocked 0 1 (by decide)⟩

end Macrame

import Macrame.DeferredLaws
import Macrame.GraphCoherence

namespace Macrame

-- A `Deferred` with `last_commit_`. `enqueued` is history: the blocks that its
-- commits have made. The recorded handle pins its block, so while it is there
-- that identity is not used anew.
structure Recorded where
  deferred : Deferred := {}
  lastCommit : Option BlockId := none
  enqueued : BlockId → Bool := fun _ => false

def DeferredAction.renews : DeferredAction → Option BlockId
  | .base a => a.renews
  | .commit _ fresh _ => some fresh
  | _ => none

-- The caller finds itself in `writer_owner`: the arm of `commit` that enqueues nothing.
def Deferred.inlines (p : PipeId) (s : Deferred) (caller : Option BlockId) : Bool :=
  caller.isSome && decide ((s.base.pipes p).pipe.writerOwner = caller)

namespace Recorded

-- `pipe_enter_link` records the block of a commit in the section that enters it.
def record (w : Recorded) : DeferredAction → Option BlockId
  | .base (.launch b) => if w.enqueued b then some b else w.lastCommit
  | _ => w.lastCommit

def note (p : PipeId) (w : Recorded) : DeferredAction → BlockId → Bool
  | .base a => fun b => w.enqueued b && decide (a.renews ≠ some b)
  | .commit caller fresh _ => if w.deferred.inlines p caller then w.enqueued else Function.update w.enqueued fresh true
  | _ => w.enqueued

def Allowed (checked : Bool) (w : Recorded) (a : DeferredAction) : Prop :=
  w.deferred.Allowed checked a ∧ a.renews.all (fun b => w.lastCommit != some b) = true

def apply (p : PipeId) (checked : Bool) (workers : Nat) (w : Recorded) (a : DeferredAction) : Recorded :=
  ⟨w.deferred.apply p checked workers a,w.record a,w.note p a⟩

-- What the destructor asks: no commit recorded, or the recorded one is ready.
def settled (w : Recorded) : Bool := w.lastCommit.all (fun b => (w.deferred.base.blocks b).completed)

end Recorded

def recordedSystem (p : PipeId) (checked : Bool) (workers : Nat) : Machines.Machine Recorded DeferredAction :=
  ⟨(· = {}),Recorded.Allowed checked,Recorded.apply p checked workers⟩

instance Recorded.decideStep (p : PipeId) (checked : Bool) (workers : Nat) (w : Recorded) (a : DeferredAction) :
    Decidable ((recordedSystem p checked workers).allowed w a) :=
  inferInstanceAs (Decidable (_ ∧ _))

namespace State

-- A commit's block whose body is still to run, or running: it is in the queue
-- of the target, admitted, or at work.
def InFlight (s : State) (enqueued : BlockId → Bool) (b : BlockId) : Prop :=
  enqueued b = true ∧ ((s.progress b).status.ahead = true ∨ (s.progress b).status = .running)

-- The block of a commit, with its one link.
structure Commits (s : State) (p : PipeId) (b : BlockId) : Prop where
  kind : (s.blocks b).kind = .executable
  links : (s.blocks b).links = .single ⟨p,.readWrite⟩

-- The commit has entered the pipe, and still waits there or holds it.
def Stays (s : State) (p : PipeId) (e : Nat) (b : BlockId) : Prop := Tracked.Stands (s.pipes p) ⟨.link b 0,.readWrite⟩ e

-- Either nothing is in flight and the recorded commit has settled, or the
-- recorded commit is still to settle and stands behind all that are in flight.
inductive Latest (s : State) (p : PipeId) (last : Option BlockId) (enqueued : BlockId → Bool) : Prop where
  | quiet : (∀ b, ¬ s.InFlight enqueued b) → (∀ b, last = some b → (s.blocks b).completed = true) →
      Latest s p last enqueued
  | standing (b : BlockId) (e : Nat) : last = some b → (s.progress b).status.unsettled = true → s.Stays p e b →
      (∀ c, s.InFlight enqueued c → ∃ f, f ≤ e ∧ s.Stays p f c) → Latest s p last enqueued

end State

-- A step of the tasks takes no block into flight but the one it launches, and
-- settles a block in one step.
namespace Status

theorem Next.inFlight (next : Next ends kind before after) (after_flight : after.ahead = true ∨ after = .running) :
    before.ahead = true ∨ before = .running := by
  cases next <;> simp_all [Status.ahead]

theorem Next.unsettled (next : Next ends kind before after) (unsettled : before.unsettled = true) :
    after.unsettled = true ∨ ∃ cancel, before = .finishing cancel ∧ after = .advancing 0 cancel := by
  cases next <;> simp_all [Status.ahead,Status.unsettled]

theorem Next.settled_on (next : Next ends .executable before after) (settled : before.settled .executable = true) :
    after.settled .executable = true := by
  cases next <;> simp_all [Status.settled]

theorem inFlight_unsettled {status : Status} (flight : status.ahead = true ∨ status = .running) :
    status.unsettled = true := by
  cases status <;> simp_all [Status.ahead,Status.unsettled]

theorem unsettled_incomplete {status : Status} (unsettled : status.unsettled = true) : status.settled kind = false := by
  cases status <;> simp_all [Status.ahead,Status.unsettled,Status.settled]

end Status

namespace State

variable {s : State} {a : Action} {p : PipeId} {b c : BlockId}

theorem completed_status (acc : Accounts s) (b : BlockId) :
    (s.blocks b).completed = (s.progress b).status.settled (s.blocks b).kind := by
  have completed := (acc.blocks b).cycle.completed
  simpa only [footprint_block,footprint_progress] using completed

-- Outside calls take a commit's block only to use its identity anew, or to launch it.
theorem Commits.claimed (commits : s.Commits p b) (allowed : s.Allowed a) (claimed : a.claims = some b) :
    a.renews = some b ∨ a = .launch b := by
  have kind := commits.kind
  cases a <;> cases claimed <;> simp_all [Action.renews,State.Allowed]

theorem Commits.kept (commits : s.Commits p b) (allowed : s.Allowed a) (unrenewed : a.renews ≠ some b) :
    (s.apply a).Commits p b := by
  have keeps := Deferred.linked_on (s := {base := s}) allowed commits.kind commits.links unrenewed
  exact ⟨keeps.1,keeps.2⟩

theorem Commits.place (commits : s.Commits p b) : (s.blocks b).links.entries[0]? = some ⟨p,.readWrite⟩ := by
  rw [commits.links]
  rfl

-- When a commit settles it still holds the pipe, so no other stands before it.
theorem Stays.alone (stays : s.Stays p e b) (path : Machines.Reached system s) (commits : s.Commits p b)
    (finishing : (s.progress b).status = .finishing cancel) (other : s.Stays p f c) (before : f ≤ e) : c = b := by
  have acc := reached_accounts path
  have valid := reached_valid path p
  have held : ⟨.link b 0,.readWrite⟩ ∈ (s.pipes p).held :=
    (holding_iff acc).mpr ⟨by rw [finishing]; rfl,commits.place⟩
  have out : ⟨e,⟨.link b 0,.readWrite⟩⟩ ∈ (s.pipes p).outstanding := by
    rcases stays.there with waits | out
    · have queued : ⟨.link b 0,.readWrite⟩ ∈ (s.pipes p).pipe.queue := by
        have entry := stays.entry
        rw [valid.fifo,List.getElem?_append_right waits] at entry
        exact List.mem_of_getElem? entry
      obtain ⟨k,there,named⟩ := List.mem_map.mp held
      exact absurd (named ▸ queued) (ticket_once acc there).2
    · exact out
  have after : e ≤ f := valid.passed out rfl other
  have entry := other.entry
  rw [Nat.le_antisymm before after,stays.entry] at entry
  cases entry
  rfl

-- What the commits already made come to in a step that launches none of them:
-- one that is in flight was so before, and keeps its place.
theorem InFlight.before (flight : (s.apply a).InFlight enqueued b) (path : Machines.Reached system s) (allowed : s.Allowed a)
    (unclaimed : a.claims ≠ some b) : s.InFlight enqueued b :=
  ⟨flight.1,(apply_next (reached_accounts path) allowed b unclaimed).inFlight flight.2⟩

theorem Stays.kept (stays : s.Stays p e b) (path : Machines.Reached system s) (allowed : s.Allowed a)
    (unclaimed : a.claims ≠ some b) (commits : s.Commits p b)
    (going : ((s.apply a).progress b).status.unsettled = true) : (s.apply a).Stays p e b :=
  linked_stands path allowed unclaimed going commits.place stays

theorem Latest.step (latest : s.Latest p last enqueued) (path : Machines.Reached system s) (allowed : s.Allowed a)
    (commits : ∀ b, enqueued b = true → s.Commits p b) (recorded : ∀ b, last = some b → enqueued b = true)
    (unlaunched : ∀ b, enqueued b = true → a ≠ .launch b) (pinned : ∀ b, last = some b → a.renews ≠ some b)
    (later : ∀ b, (s.apply a).InFlight now b → enqueued b = true ∧ a.renews ≠ some b) :
    (s.apply a).Latest p last now := by
  have acc := reached_accounts path
  have after := apply_accounts acc allowed
  have unclaimed : ∀ b, enqueued b = true → a.renews ≠ some b → a.claims ≠ some b := by
    intro b member unrenewed claimed
    rcases (commits b member).claimed allowed claimed with renews | launches
    · exact unrenewed renews
    · exact unlaunched b member launches
  have earlier : ∀ b, (s.apply a).InFlight now b → s.InFlight enqueued b ∧ a.claims ≠ some b := by
    intro b flight
    obtain ⟨member,unrenewed⟩ := later b flight
    have own := unclaimed b member unrenewed
    exact ⟨InFlight.before ⟨member,flight.2⟩ path allowed own,own⟩
  cases latest with
  | quiet none_left ready =>
    refine .quiet (fun b flight => none_left b (earlier b flight).1) ?_
    intro b here
    have member := recorded b here
    have still := (commits b member).kept allowed (pinned b here)
    have done := ready b here
    rw [completed_status acc,(commits b member).kind] at done
    rw [completed_status after,still.kind]
    have next := apply_next acc allowed b (unclaimed b member (pinned b here))
    rw [(commits b member).kind] at next
    exact next.settled_on done
  | standing b e here unsettled stays behind =>
    have member := recorded b here
    have own := unclaimed b member (pinned b here)
    rcases (apply_next acc allowed b own).unsettled unsettled with still | ⟨cancel,finishing,settled⟩
    · refine .standing b e here still (stays.kept path allowed own (commits b member) still) ?_
      intro c flight
      obtain ⟨inflight,free⟩ := earlier c flight
      obtain ⟨f,before,there⟩ := behind c inflight
      exact ⟨f,before,there.kept path allowed free (commits c inflight.1) (Status.inFlight_unsettled flight.2)⟩
    · refine .quiet ?_ ?_
      · intro c flight
        obtain ⟨inflight,_⟩ := earlier c flight
        obtain ⟨f,before,there⟩ := behind c inflight
        obtain rfl := stays.alone path (commits b member) finishing there before
        have at_work := inflight.2
        rw [finishing] at at_work
        rcases at_work with ahead | running
        · cases ahead
        · cases running
      · intro c also
        cases here.symm.trans also
        rw [completed_status after,((commits b member).kept allowed (pinned b here)).kind,settled]
        rfl

-- The commit that is launched is recorded behind all others.
theorem Latest.launched (latest : s.Latest p last enqueued) (path : Machines.Reached system s) (allowed : s.Allowed (.launch b))
    (commits : ∀ b, enqueued b = true → s.Commits p b) (member : enqueued b = true) :
    (s.apply (.launch b)).Latest p (some b) enqueued := by
  have own := commits b member
  have entered : (s.apply (.launch b)).pipes p = ((s.pipes p).enter ⟨.link b 0,.readWrite⟩).1 := by
    have linked : (s.blocks b).links.count ≠ 0 := by simp [own.links,LinkTable.single,LinkTable.count]
    simp only [apply,launch,if_neg linked,enterLink,own.place]
    split <;> simp [setStatus]
  have unsettled : ((s.apply (.launch b)).progress b).status.unsettled = true := by
    rcases launch_status s b with ready | admitted | waiting
    · simp only [apply,ready]; rfl
    · simp only [apply,admitted]; rfl
    · simp only [apply,waiting]; rfl
  refine .standing b (s.pipes p).entered.length rfl unsettled ?_ ?_
  · rw [Stays,entered]
    exact Tracked.enter_stands (reached_valid path p) _
  · intro c flight
    by_cases same : c = b
    · subst same
      refine ⟨(s.pipes p).entered.length,Nat.le_refl _,?_⟩
      rw [Stays,entered]
      exact Tracked.enter_stands (reached_valid path p) _
    · have unclaimed : Action.claims (.launch b) ≠ some c := fun claimed => same (Option.some.inj claimed).symm
      have inflight := flight.before path allowed unclaimed
      cases latest with
      | quiet none_left => exact absurd inflight (none_left c)
      | standing b' e _ _ _ behind =>
        obtain ⟨f,_,there⟩ := behind c inflight
        obtain ⟨inside,_⟩ := List.getElem?_eq_some_iff.mp there.entry
        exact ⟨f,Nat.le_of_lt inside,
          there.kept path allowed unclaimed (commits c inflight.1) (Status.inFlight_unsettled flight.2)⟩

end State

namespace Recorded

structure Sound (p : PipeId) (checked : Bool) (workers : Nat) (w : Recorded) : Prop where
  deferred : Machines.Reached (deferredSystem p checked workers) w.deferred
  commits : ∀ b, w.enqueued b = true → w.deferred.base.Commits p b
  recorded : ∀ b, w.lastCommit = some b → w.enqueued b = true
  latest : w.deferred.base.Latest p w.lastCommit w.enqueued

variable {p : PipeId} {checked : Bool} {workers : Nat} {w : Recorded}

theorem Sound.next (sound : Sound p checked workers w) (allowed : w.Allowed checked a) :
    Machines.Reached (deferredSystem p checked workers) (w.deferred.apply p checked workers a) :=
  .step sound.deferred (show (deferredSystem p checked workers).allowed w.deferred a from allowed.1)

-- A step of the Deferred is at most one step of the tasks.
theorem apply_base (p : PipeId) (checked : Bool) (workers : Nat) (s : Deferred) (a : DeferredAction) :
    (s.apply p checked workers a).base = match a with
      | .base x => s.base.apply x
      | .commit caller fresh token =>
        if s.inlines p caller then s.base else s.base.apply (.arm fresh .executable (.single ⟨p,.readWrite⟩) token)
      | _ => s.base := by
  cases a with
  | base x =>
    obtain ⟨phases,shape,_⟩ := Deferred.base_step p checked workers s x
    rw [shape]
  | commit caller fresh token =>
    simp only [Deferred.apply,Deferred.commit,Deferred.inlines,Bool.and_eq_true,decide_eq_true_eq]
    split
    · cases caller with
      | none => rfl
      | some b =>
        dsimp only
        split <;> rfl
    · rfl
  | cutNext b =>
    simp only [Deferred.apply,Deferred.cutNext]
    split <;> rfl
  | applyNext b =>
    simp only [Deferred.apply,Deferred.applyNext]
    split
    · split <;> rfl
    · rfl
  | _ => rfl

-- The tasks take a step that is no launch of a commit; at most a commit that
-- is only armed is new.
theorem Sound.moved (sound : Sound p checked workers w) {x : Action} (allowed : w.deferred.base.Allowed x)
    (next : Machines.Reached (deferredSystem p checked workers) d) (base : d.base = w.deferred.base.apply x)
    (unlaunched : ∀ b, w.enqueued b = true → x ≠ .launch b) (pinned : ∀ b, w.lastCommit = some b → x.renews ≠ some b)
    (kept : ∀ b, w.enqueued b = true → x.renews ≠ some b → now b = true)
    (from_ : ∀ b, now b = true → w.enqueued b = true ∧ x.renews ≠ some b ∨
      (w.deferred.base.apply x).Commits p b ∧ ((w.deferred.base.apply x).progress b).status = .armed) :
    Sound p checked workers ⟨d,w.lastCommit,now⟩ := by
  refine ⟨next,?_,?_,?_⟩
  · intro b member
    rw [base]
    rcases from_ b member with ⟨old,unrenewed⟩ | ⟨fresh,_⟩
    · exact (sound.commits b old).kept allowed unrenewed
    · exact fresh
  · intro b here
    exact kept b (sound.recorded b here) (pinned b here)
  · simp only [base]
    refine sound.latest.step (deferred_sound sound.deferred).base allowed sound.commits sound.recorded unlaunched pinned ?_
    intro b flight
    rcases from_ b flight.1 with old | ⟨_,armed⟩
    · exact old
    · have at_work := flight.2
      rw [armed] at at_work
      rcases at_work with ahead | running
      · cases ahead
      · cases running

theorem Sound.base_step (sound : Sound p checked workers w) {x : Action} (allowed : w.Allowed checked (.base x)) :
    Sound p checked workers (w.apply p checked workers (.base x)) := by
  have next := sound.next allowed
  obtain ⟨⟨step,_⟩,free⟩ := allowed
  have base := apply_base p checked workers w.deferred (.base x)
  have pinned : ∀ b, w.lastCommit = some b → x.renews ≠ some b := by
    intro b here renews
    simp [DeferredAction.renews,renews,here] at free
  have noted : ∀ b, w.note p (.base x) b = true ↔ w.enqueued b = true ∧ x.renews ≠ some b := by
    intro b
    simp [note]
  by_cases launches : ∃ b, x = .launch b ∧ w.enqueued b = true
  · obtain ⟨b,rfl,member⟩ := launches
    have same : w.note p (.base (.launch b)) = w.enqueued := by
      funext c
      simp [note,Action.renews]
    have recorded : w.record (.base (.launch b)) = some b := by simp [record,member]
    simp only [apply,same,recorded]
    refine ⟨next,?_,?_,?_⟩
    · intro c old
      rw [base]
      exact (sound.commits c old).kept step (by simp [Action.renews])
    · intro c here
      cases here
      exact member
    · simp only [base]
      exact sound.latest.launched (deferred_sound sound.deferred).base step sound.commits member
  · have recorded : w.record (.base x) = w.lastCommit := by
      cases x with
      | launch b =>
        have other : w.enqueued b = false := by
          cases member : w.enqueued b with
          | false => rfl
          | true => exact absurd ⟨b,rfl,member⟩ launches
        simp [record,other]
      | _ => rfl
    simp only [apply,recorded]
    refine sound.moved step next base ?_ pinned ?_ ?_
    · rintro b member rfl
      exact launches ⟨b,rfl,member⟩
    · exact fun b member unrenewed => (noted b).mpr ⟨member,unrenewed⟩
    · exact fun b member => .inl ((noted b).mp member)

theorem Sound.commit_step (sound : Sound p checked workers w) (allowed : w.Allowed checked (.commit caller fresh token)) :
    Sound p checked workers (w.apply p checked workers (.commit caller fresh token)) := by
  have next := sound.next allowed
  obtain ⟨moves,free⟩ := allowed
  have base := apply_base p checked workers w.deferred (.commit caller fresh token)
  by_cases inlines : w.deferred.inlines p caller = true
  · -- an inline commit makes no block and leaves the record alone
    simp only [inlines,if_true] at base
    simp only [apply,note,inlines,if_true,record]
    refine ⟨next,?_,sound.recorded,?_⟩
    · rw [base]
      exact sound.commits
    · simp only [base]
      exact sound.latest
  · simp only [if_neg inlines] at base
    simp only [apply,note,if_neg inlines,record]
    have pinned : ∀ b, w.lastCommit = some b → b ≠ fresh := by
      rintro b here rfl
      simp [DeferredAction.renews,here] at free
    refine sound.moved (x := .arm fresh .executable (.single ⟨p,.readWrite⟩) token) ⟨moves.2,by simp,by simp⟩ next base
      (by simp) ?_ ?_ ?_
    · intro b here same
      exact pinned b here (Option.some.inj same).symm
    · intro b member unrenewed
      by_cases same : b = fresh
      · rw [same,Function.update_self]
      · rw [Function.update_of_ne same]
        exact member
    · intro b member
      by_cases same : b = fresh
      · right
        subst same
        refine ⟨⟨?_,?_⟩,?_⟩ <;> simp [State.apply]
      · left
        rw [Function.update_of_ne same] at member
        exact ⟨member,fun renews => same (Option.some.inj renews).symm⟩

theorem apply_sound (sound : Sound p checked workers w) (a : DeferredAction) (allowed : w.Allowed checked a) :
    Sound p checked workers (w.apply p checked workers a) := by
  have next := sound.next allowed
  have unmoved : (w.deferred.apply p checked workers a).base = w.deferred.base → w.record a = w.lastCommit →
      w.note p a = w.enqueued → Sound p checked workers (w.apply p checked workers a) := by
    intro base recorded noted
    simp only [apply,recorded,noted]
    refine ⟨next,?_,sound.recorded,?_⟩
    · rw [base]
      exact sound.commits
    · simp only [base]
      exact sound.latest
  have base := apply_base p checked workers w.deferred a
  cases a with
  | base x => exact sound.base_step allowed
  | commit caller fresh token => exact sound.commit_step allowed
  | _ => exact unmoved base rfl rfl

end Recorded

theorem recorded_sound (path : Machines.Reached (recordedSystem p checked workers) w) :
    Recorded.Sound p checked workers w := by
  refine Machines.reached_invariant (Recorded.Sound p checked workers) ?_ ?_ path
  · rintro w rfl
    refine ⟨.start rfl,?_,?_,.quiet ?_ ?_⟩
    · intro b member
      cases member
    · intro b here
      cases here
    · rintro b ⟨member,_⟩
      cases member
    · intro b here
      cases here
  · intro w a sound allowed
    exact Recorded.apply_sound sound a allowed

-- The destructor's check is exact, in every reached state: past it no enqueued
-- commit is in flight, and while one is the recorded block is not ready.
theorem destructor_check_exact (path : Machines.Reached (recordedSystem p checked workers) w) :
    (w.settled = true → ∀ b, ¬ w.deferred.base.InFlight w.enqueued b) ∧
    (∀ b, w.deferred.base.InFlight w.enqueued b →
      ∃ last, w.lastCommit = some last ∧ (w.deferred.base.blocks last).completed = false) := by
  have sound := recorded_sound path
  have acc := reached_accounts (deferred_sound sound.deferred).base
  have open_ : ∀ b, w.deferred.base.InFlight w.enqueued b →
      ∃ last, w.lastCommit = some last ∧ (w.deferred.base.blocks last).completed = false := by
    intro b flight
    cases sound.latest with
    | quiet none_left => exact absurd flight (none_left b)
    | standing last e here unsettled =>
      refine ⟨last,here,?_⟩
      rw [State.completed_status acc]
      exact Status.unsettled_incomplete unsettled
  refine ⟨?_,open_⟩
  intro settled b flight
  obtain ⟨last,here,incomplete⟩ := open_ b flight
  simp [Recorded.settled,here,incomplete] at settled

-- Two commits; the first is cancelled while it holds the pipe, and settles
-- without its body before it has let the second in.
def cancelledFirst : List DeferredAction :=
  [.commit none 1 (some 0),.base (.launch 1),.commit none 2 none,.base (.launch 2),.base (.requestCancel 0),
    .base (.resume (.own 1 (.fireTurn 0))),.base (.resume (.own 1 .turnRelease)),.base (.resume (.own 1 .execute)),
    .base (.resume (.own 1 (.complete true)))]

theorem destructor_check_exact_cancelled :
    let w := (recordedSystem 0 true 1).follow {} cancelledFirst
    ((w.deferred.base.blocks 1).completed,w.lastCommit,w.settled) = (true,some 2,false) ∧
    ¬ w.deferred.base.InFlight w.enqueued 1 ∧
    ∃ last, w.lastCommit = some last ∧ (w.deferred.base.blocks last).completed = false := by
  intro w
  have exact_check := destructor_check_exact (w := w) (Machines.reached_follow (.start rfl) (by decide))
  refine ⟨by decide,?_,exact_check.2 2 ?_⟩
  · unfold State.InFlight
    decide
  · unfold State.InFlight
    decide

end Macrame

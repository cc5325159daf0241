import Macrame.Lib.WaitFor
import Macrame.Tenure
import Macrame.GraphLaws

namespace Macrame

def Status.inLine : Status → Bool
  | .waiting _ => true
  | _ => false

theorem Status.inLine_iff : Status.inLine status = true ↔ ∃ i, status = .waiting i := by
  cases status <;> simp [inLine]

namespace State

section Finite

theorem next_idle (next : Status.Next ends kind .idle status) : status = .idle := by
  cases next
  rfl

-- Only finitely many blocks have ever been used.
theorem reached_finite (path : Machines.Reached system s) : ∃ bound, ∀ b, bound ≤ b → (s.progress b).status = .idle := by
  induction path with
  | start begun => exact ⟨0,fun b _ => by rw [begun]; rfl⟩
  | step prior allowed ih =>
    rename_i s a
    obtain ⟨bound,idle⟩ := ih
    have acc := reached_accounts prior
    refine ⟨Nat.max bound ((a.claims.getD 0)+1),?_⟩
    intro b above
    have unclaimed : a.claims ≠ some b := by
      intro claimed
      rw [claimed,Option.getD_some] at above
      exact Nat.not_succ_le_self b (Nat.le_trans (Nat.le_max_right _ _) above)
    have next := apply_next acc allowed b unclaimed
    rw [idle b (Nat.le_trans (Nat.le_max_left _ _) above)] at next
    exact next_idle next

end Finite

section Quiet

-- No hold is taken and no block gates another.
structure Quiet (s : State) : Prop where
  holds : ∀ h, s.holds h = .idle
  orphans : ∀ b, (s.blocks b).nestedParent = none

-- What a task set without dynamic holds, nesting and coroutines does.
def Plain (a : Action) : Bool :=
  match a with
  | .addNested _ _ => false
  | .createFrame _ => false
  | _ => a.handles == none

theorem Quiet.apply (quiet : Quiet s) (plain : Plain a = true) : Quiet (s.apply a) := by
  have unhandled : a.handles = none := by
    cases a <;> simp_all [Plain,Action.handles]
  have unattached : ∀ b c, a ≠ .addNested b c := by
    rintro b c rfl
    cases plain
  refine ⟨?_,?_⟩
  · intro h
    have next := apply_hold s a h (by simp [unhandled])
    rw [quiet.holds h] at next
    generalize (s.apply a).holds h = after at next ⊢
    cases next
    rfl
  · intro c
    cases child : ((s.apply a).blocks c).nestedParent with
    | none => rfl
    | some b =>
      have before := parent_before child (unattached b c)
      rw [quiet.orphans c] at before
      cases before

end Quiet

section Progress

variable {s : State}

-- Every turn of the block has been admitted.
structure AllAdmitted (s : State) (b : BlockId) : Prop where
  entered : (s.blocks b).pipesEntered = (s.blocks b).links.count
  unqueued : ∀ p i m, ⟨.link b i,m⟩ ∉ (s.pipes p).pipe.queue

-- The pipe a block stands in line for.
def awaitedPipe (s : State) (b : BlockId) : Nat :=
  match (s.progress b).status with
  | .waiting i => ((s.blocks b).links.entries[i]?.map Link.pipe).getD 0
  | _ => 0

theorem awaitedPipe_of (waiting : (s.progress b).status = .waiting i)
    (place : (s.blocks b).links.entries[i]? = some link) : s.awaitedPipe b = link.pipe := by
  simp [awaitedPipe,waiting,place]

theorem waiting_place (acc : Accounts s) (waiting : (s.progress b).status = .waiting i) :
    ∃ link, (s.blocks b).links.entries[i]? = some link := by
  have locks := (acc.blocks b).locks
  simp only [LocksSound,footprint_block,footprint_progress,waiting] at locks
  exact ⟨_,List.getElem?_eq_getElem locks.1⟩

-- Whoever stands in a queue stands behind an admission: the head of the queue
-- waits for one, whatever is queued in between.
theorem queued_behind (valid : Tracked.Valid t) (queued : l ∈ t.pipe.queue) : ∃ k, k ∈ t.held := by
  cases queue : t.pipe.queue with
  | nil => rw [queue] at queued; cases queued
  | cons head rest =>
    obtain ⟨k,out,_⟩ := valid.blocker queue
    exact ⟨k.link,List.mem_map.mpr ⟨k,out,rfl⟩⟩

theorem waiting_behind (path : Machines.Reached system s) (quiet : Quiet s) (waiting : (s.progress b).status = .waiting i)
    (place : (s.blocks b).links.entries[i]? = some ⟨p,m⟩) :
    ∃ c j n, (s.progress c).status.holds j = true ∧ (s.blocks c).links.entries[j]? = some ⟨p,n⟩ := by
  have acc := reached_accounts path
  obtain ⟨⟨party,n⟩,out⟩ := queued_behind (reached_valid path p) ((waiting_iff acc).mpr ⟨waiting,place⟩)
  cases party with
  | link c j => exact ⟨c,j,n,(holding_iff acc).mp out⟩
  | hold h o =>
    rcases (hold_holding_iff acc).mp out with granted | held
    · rw [quiet.holds h] at granted; cases granted
    · rw [quiet.holds h] at held; cases held

theorem linked_task (acc : Accounts s) (linked : j < (s.blocks b).links.count) : (s.blocks b).kind ≠ .bare := by
  intro bare
  have unlinked := (acc.blocks b).cycle.linkless (.inl bare)
  rw [footprint_block] at unlinked
  omega

-- The block that waits for the highest pipe waits for a holder that waits for
-- none: a holder in line would, in canonical order, be in line further up.
theorem waiting_leads (path : Machines.Reached system s) (quiet : Quiet s) (waiting : (s.progress b).status = .waiting i) :
    ∃ c j, j < (s.blocks c).links.count ∧ (s.progress c).status.holds j = true ∧ ∀ k, (s.progress c).status ≠ .waiting k := by
  have acc := reached_accounts path
  obtain ⟨bound,idle⟩ := reached_finite path
  let inLine := (Finset.range bound).filter (fun b => (s.progress b).status.inLine = true)
  have joined : ∀ c k, (s.progress c).status = .waiting k → c ∈ inLine := by
    intro c k here
    refine Finset.mem_filter.mpr ⟨Finset.mem_range.mpr ?_,by rw [here]; rfl⟩
    by_contra above
    have resting := idle c (Nat.not_lt.mp above)
    rw [here] at resting
    cases resting
  have climbs : ∀ c ∈ inLine, ∃ e, (∃ j, j < (s.blocks e).links.count ∧ (s.progress e).status.holds j = true) ∧
      (e ∈ inLine → s.awaitedPipe c < s.awaitedPipe e) := by
    intro c member
    obtain ⟨k,here⟩ := Status.inLine_iff.mp (Finset.mem_filter.mp member).2
    obtain ⟨link,place⟩ := waiting_place acc here
    obtain ⟨e,j,n,holds,taken⟩ := waiting_behind path quiet here place
    refine ⟨e,⟨j,(List.getElem?_eq_some_iff.mp taken).1,holds⟩,?_⟩
    intro member
    obtain ⟨k',there⟩ := Status.inLine_iff.mp (Finset.mem_filter.mp member).2
    obtain ⟨next,further⟩ := waiting_place acc there
    rw [awaitedPipe_of here place,awaitedPipe_of there further]
    rw [there] at holds
    have higher : (⟨link.pipe,n⟩ : Link).pipe < next.pipe :=
      LinkTable.place_lt taken further (by simpa [Status.holds] using holds)
    exact higher
  obtain ⟨_,_,c,free,j,linked,holds⟩ := WaitFor.leads_out climbs ⟨b,joined b i waiting⟩
  exact ⟨c,j,linked,holds,fun k here => free (joined c k here)⟩

-- A block that is in its cycle, and neither with its creator nor in line, has a
-- step of its own to take.
theorem steps_own (path : Machines.Reached system s) (quiet : Quiet s) (live : (s.progress b).status.resting = false)
    (launched : (s.progress b).status ≠ .armed) (unqueued : ∀ i, (s.progress b).status ≠ .waiting i) :
    (∃ f, .own b f ∈ s.pending) ∨ (s.progress b).status = .running := by
  rcases carried (reached_accounts path) live with pending | armed | ⟨i,_,_,waiting,_⟩ | running | ⟨c,child,_⟩
  · exact .inl pending
  · exact absurd armed launched
  · exact absurd waiting (unqueued i)
  · exact .inr running
  · rw [quiet.orphans c] at child; cases child

theorem all_admitted (acc : Accounts s) (live : (s.progress b).status.resting = false)
    (launched : (s.progress b).status ≠ .armed) (unqueued : ∀ i, (s.progress b).status ≠ .waiting i)
    (turned : ∀ i, (s.progress b).status ≠ .admitted i) : AllAdmitted s b := by
  have entered := (acc.blocks b).entered
  simp only [footprint_block,footprint_progress] at entered
  refine ⟨?_,fun p i m queued => unqueued i ((waiting_iff acc).mp queued).1⟩
  cases status : (s.progress b).status <;> simp_all [Status.entered,Status.resting]

end Progress

end State

namespace World

variable {d : Deployment}

-- Multi-object tasks alone: no dynamic hold, no nested work, no lent object.
def batch : WorldAction d → Bool
  | .base a => State.Plain a
  | .execute _ _ _ lent parent => lent.isEmpty && parent.isNone
  | _ => true

-- An action that carries `c` on: its next piece of code, or the end of its body.
def serves (c : BlockId) : WorldAction d → Prop
  | .base (.resume (.own b _)) => b = c
  | .base (.bodyEnd b) => b = c
  | .nodeComplete g i => d.block g i = c
  | _ => False

end World

def batchSystem (d : Deployment) : Machines.Machine (World d) (WorldAction d) :=
  ⟨(· = {}),fun w a => w.Allowed a ∧ World.batch a = true,World.apply⟩

instance (d : Deployment) (w : World d) (a : WorldAction d) : Decidable ((batchSystem d).allowed w a) :=
  inferInstanceAs (Decidable (w.Allowed a ∧ World.batch a = true))

theorem batch_restricts (d : Deployment) : Machines.Restricts (batchSystem d) (graphSystem d) :=
  ⟨fun _ begun => begun,fun _ _ allowed => allowed.1,fun _ _ => rfl⟩

namespace World

variable {d : Deployment} {w : World d}

theorem rearmNodes_quiet (g : d.GraphId) (token : Option TokenId) (lent : List PipeId) (nodes : List Nat) (s : State)
    (quiet : State.Quiet s) : State.Quiet (rearmNodes g token lent s nodes) := by
  unfold rearmNodes
  induction nodes generalizing s with
  | nil => exact quiet
  | cons i rest ih => exact ih _ (quiet.apply rfl)

theorem apply_quiet (quiet : State.Quiet w.base) (plain : batch a = true) : State.Quiet (w.apply a).base := by
  cases a with
  | base a => exact quiet.apply plain
  | execute g done token lent parent =>
    simp only [batch,Bool.and_eq_true,List.isEmpty_iff,Option.isNone_iff_eq_none] at plain
    obtain ⟨rfl,rfl⟩ := plain
    have armed : State.Quiet ((rearmNodes g token [] w.base (List.range (d.graph g).size)).apply (.arm done .bare .empty none)) :=
      (rearmNodes_quiet g token [] _ _ quiet).apply rfl
    simp only [apply,setRun,executeBase,join]
    split
    · exact armed.apply rfl
    · exact armed
  | nodeComplete g i => exact quiet.apply (a := .resume (.own (d.block g i) .nodeComplete)) rfl
  | tail g t =>
    cases t with
    | kick roots => cases roots with
      | nil => exact quiet
      | cons i rest => exact quiet.apply (a := .launch (d.block g i)) rfl
    | lower i left ready => exact quiet
    | fire i ready => cases ready with
      | nil => exact quiet
      | cons j rest => exact quiet.apply (a := .launch (d.block g j)) rfl
    | conclude =>
      simp only [apply,setRun,tailBase]
      split
      · exact quiet
      · exact quiet.apply rfl

theorem reached_quiet (path : Machines.Reached (batchSystem d) w) : State.Quiet w.base := by
  refine Machines.reached_invariant (fun w : World d => State.Quiet w.base) ?_ ?_ path
  · rintro w rfl
    exact ⟨fun _ => rfl,fun _ => rfl⟩
  · intro w a quiet allowed
    exact apply_quiet quiet allowed.2

-- What a task set can still do for an unfinished task `b`.
inductive Moves (w : World d) (b : BlockId) : Prop where
  -- some task has been admitted everywhere and goes on
  | through (c : BlockId) (a : WorldAction d) : (w.base.blocks c).kind ≠ .bare → State.AllAdmitted w.base c →
    (batchSystem d).allowed w a → serves c a → Moves w b
  -- some task has its turn and enters its next pipe
  | entering (c : BlockId) (i : Nat) : (w.base.blocks c).kind ≠ .bare → (w.base.progress c).status = .admitted i →
    (batchSystem d).allowed w (.base (.resume (.own c (.fireTurn i)))) → Moves w b
  -- its creator launches it
  | starting : (batchSystem d).allowed w (.base (.launch b)) → Moves w b
  -- its graph makes nodes data-ready
  | readying (g : d.GraphId) (i : Nat) (t : Tail) : i < (d.graph g).size → d.block g i = b → t ≠ .conclude →
    (batchSystem d).allowed w (.tail g t) → Moves w b

-- A task with a step of its own may take it.
theorem own_allowed (pending : .own c f ∈ w.base.pending) : ∃ a, (batchSystem d).allowed w a ∧ serves c a := by
  by_cases node : f = .nodeComplete ∧ d.isNode c = true
  · obtain ⟨rfl,node⟩ := node
    obtain ⟨g,i,rfl⟩ := of_decide_eq_true node
    exact ⟨.nodeComplete g i,⟨⟨i.isLt,pending⟩,rfl⟩,rfl⟩
  · refine ⟨.base (.resume (.own c f)),⟨⟨pending,?_⟩,rfl⟩,rfl⟩
    cases f <;> simp_all [outside]

theorem moves_on (sound : Sound w) (quiet : State.Quiet w.base) (task : (w.base.blocks c).kind ≠ .bare)
    (live : (w.base.progress c).status.resting = false) (launched : (w.base.progress c).status ≠ .armed)
    (unqueued : ∀ i, (w.base.progress c).status ≠ .waiting i) : Moves w b := by
  have acc := reached_accounts sound.base
  by_cases turn : ∃ i, (w.base.progress c).status = .admitted i
  · obtain ⟨i,turn⟩ := turn
    have pending := State.expected_pending acc (f := .fireTurn i) (by rw [turn]; rfl) rfl
    exact .entering c i task turn ⟨⟨pending,rfl⟩,rfl⟩
  · have admitted := State.all_admitted acc live launched unqueued (fun i here => turn ⟨i,here⟩)
    rcases State.steps_own sound.base quiet live launched unqueued with ⟨f,pending⟩ | running
    · obtain ⟨a,allowed,served⟩ := own_allowed pending
      exact .through c a task admitted allowed served
    · exact .through c (.base (.bodyEnd c)) task admitted ⟨⟨running,rfl⟩,rfl⟩ rfl

theorem launched_moves (sound : Sound w) (quiet : State.Quiet w.base) (task : (w.base.blocks c).kind ≠ .bare)
    (live : (w.base.progress c).status.resting = false) (launched : (w.base.progress c).status ≠ .armed) : Moves w b := by
  by_cases queued : ∃ i, (w.base.progress c).status = .waiting i
  · obtain ⟨i,waiting⟩ := queued
    obtain ⟨e,j,linked,holds,unqueued⟩ := State.waiting_leads sound.base quiet waiting
    refine moves_on (c := e) sound quiet (State.linked_task (reached_accounts sound.base) linked) ?_ ?_ unqueued
    · cases status : (w.base.progress e).status <;> simp_all [Status.holds,Status.resting]
    · intro armed
      rw [armed] at holds
      cases holds
  · exact moves_on sound quiet task live launched (fun i here => queued ⟨i,here⟩)

-- An armed node waits for its predecessors: its graph has work to do for it, or
-- a node under way.
theorem node_moves (sound : Sound w) (quiet : State.Quiet w.base) (within : i < (d.graph g).size)
    (armed : (w.base.progress (d.block g i)).status = .armed) : Moves w (d.block g i) := by
  rcases sound.graphs g with fresh | ⟨done,live⟩
  · have resting := fresh.nodes i within
    rw [armed] at resting
    cases resting
  · have uncounted : (w.runs g).stage i ≠ .counted := by
      intro counted
      have shown := (live.nodes i within).status
      rw [counted,armed] at shown
      cases shown
    rcases Run.moves (c := d.graphs g) live.books with decided | pending | ⟨k,below,launched⟩
    · exact absurd (Run.finished (c := d.graphs g) live.books decided within) uncounted
    · obtain ⟨t,member⟩ := List.exists_mem_of_ne_nil _ pending
      refine .readying g i t within rfl ?_ ⟨member,rfl⟩
      rintro rfl
      have expects : (w.runs g).expects (d.graph g) .conclude := by
        by_contra unexpected
        have counted := live.books.pending .conclude
        rw [if_neg unexpected] at counted
        exact List.count_eq_zero.mp counted member
      exact uncounted (Run.all_counted (c := d.graphs g) live.books expects.1 within)
    · have shown := (live.nodes k below).status
      rw [launched] at shown
      have task : (w.base.blocks (d.block g k)).kind ≠ .bare := by rw [(live.nodes k below).kind]; simp
      exact launched_moves sound quiet task shown.2 shown.1

theorem unowned (sound : Sound w) (task : (w.base.blocks b).kind ≠ .bare) (free : d.isNode b = false) :
    w.owned b = false := by
  have unkept : ¬ ∃ g : d.GraphId, (w.runs g).done = some b := by
    rintro ⟨g,done⟩
    rcases sound.graphs g with fresh | ⟨c,live⟩
    · rw [fresh.unused] at done
      cases done
    · obtain rfl : c = b := Option.some.inj (live.done.symm.trans done)
      cases decided : (w.runs g).verdict with
      | none => exact task (live.handle.waiting decided).2
      | some cancel => exact task (live.handle.told cancel decided).kind
  simp [owned,free,unkept]

end World

-- No reachable state of a set of multi-object tasks is stuck: whatever is
-- queued, and however readers and writers stand behind each other, every
-- unfinished task leaves something to do.
theorem batch_never_stuck {w : World d} (path : Machines.Reached (batchSystem d) w)
    (task : (w.base.blocks b).kind ≠ .bare) (unfinished : (w.base.progress b).status.resting = false) : w.Moves b := by
  have sound := reached_sound ((batch_restricts d).reached path)
  have quiet := World.reached_quiet path
  by_cases armed : (w.base.progress b).status = .armed
  · by_cases node : d.isNode b = true
    · obtain ⟨g,i,rfl⟩ := of_decide_eq_true node
      exact World.node_moves sound quiet i.isLt armed
    · have free : d.isNode b = false := by simpa using node
      refine .starting ⟨⟨⟨armed,task⟩,?_⟩,rfl⟩
      simp [World.outside,World.unowned sound task free]
  · exact World.launched_moves sound quiet task unfinished armed

-- Beside a run of the pair graph: a task that holds pipe 0 and waits for pipe 1,
-- a reader behind it on pipe 0 and the writer it waits for.
def batchRun : List (WorldAction pairDeployment) :=
  [.base (.arm 2 .callerOwned (.single ⟨1,.readWrite⟩) none),.base (.tryInline 2),
    .base (.arm 0 .executable (.sorted [⟨1,.readOnly⟩,⟨0,.readWrite⟩] (by decide) (by decide)) none),.base (.launch 0),
    .base (.resume (.own 0 (.fireTurn 0))),.base (.arm 1 .executable (.single ⟨0,.readOnly⟩) none),.base (.launch 1),
    .execute pairId 5 none [] none,.tail pairId (.kick [0])]

theorem batch_never_stuck_queued :
    (((batchSystem pairDeployment).follow {} batchRun).base.progress 0).status = .waiting 1 ∧
    ((batchSystem pairDeployment).follow {} batchRun).Moves 0 :=
  ⟨by decide,batch_never_stuck (Machines.reached_follow (.start rfl) (by decide)) (by decide) (by decide)⟩

end Macrame

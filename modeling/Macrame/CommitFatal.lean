import Macrame.DeferredLaws
import Macrame.Lending

namespace Macrame

-- Any write entry under the given source, whatever epoch it was captured at.
def AccessContext.holdsWriteEpoch (ctx : AccessContext) (p : PipeId) : Bool :=
  ctx.entries.any (fun e => e.epoch == some p && e.mode == .readWrite)

-- The ways a `commit` goes: with the token cancelled the batch is kept.
inductive CommitArm where
  | retained
  | inlined
  | nestedFatal
  | enqueued
  deriving DecidableEq, Repr

namespace Deferred

-- `commit` up to the choice of its arm. `caller` is the running task, `ctx` the
-- access context that is installed; only the checked build looks at that.
def commitArm (build : Build) (p : PipeId) (s : Deferred) (caller : Option BlockId) (ctx : Option AccessContext)
    (token : Option TokenId) : CommitArm :=
  if caller.isSome = true ∧ (s.base.pipes p).pipe.writerOwner = caller then
    if token.any s.base.tokens = true then .retained else .inlined
  else if build = .checked ∧ ctx.any (·.holdsWriteEpoch p) = true then .nestedFatal
  else .enqueued

-- What the arms come to; after the fatal there is no step.
theorem commit_arms (build : Build) (p : PipeId) (s : Deferred) (caller : Option BlockId) (ctx : Option AccessContext)
    (fresh : BlockId) (token : Option TokenId) :
    match s.commitArm build p caller ctx token with
    | .retained => s.commit p caller fresh token = s
    | .inlined => ∃ b, caller = some b ∧ s.commit p caller fresh token = s.setPhase b .due
    | .nestedFatal => True
    | .enqueued => s.commit p caller fresh token =
        {s with base := s.base.apply (.arm fresh .executable (.single ⟨p,.readWrite⟩) token)}.setPhase fresh .due := by
  unfold commitArm commit
  by_cases owner : caller.isSome = true ∧ (s.base.pipes p).pipe.writerOwner = caller
  · obtain ⟨b,rfl⟩ := Option.isSome_iff_exists.mp owner.1
    simp only [if_pos owner]
    by_cases cancelled : token.any s.base.tokens = true
    · simp only [if_pos cancelled]
    · simp only [if_neg cancelled]
      exact ⟨b,rfl,rfl⟩
  · simp only [if_neg owner]
    by_cases nested : build = .checked ∧ ctx.any (·.holdsWriteEpoch p) = true
    · simp only [if_pos nested]
    · simp only [if_neg nested]

end Deferred

namespace Snapshot

variable {s : State} (snap : Snapshot s)

-- The context of a caller: the entries the snapshot accounts for, and maybe
-- some that no pipe backs.
def Accounts (ctx : Option AccessContext) : Prop :=
  ∀ e, (∃ c, ctx = some c ∧ e ∈ c.entries ∧ e.epoch.isSome = true) ↔ e ∈ snap.declared.map Prod.fst

def WriteEntry (p : PipeId) (d : Entry × Ticket) : Prop := d.1.target = p ∧ d.1.mode = .readWrite

-- A write window on the pipe that the caller runs under.
def WritesUnder (p : PipeId) : Prop := ∃ d ∈ snap.declared, WriteEntry p d ∧ Open s d

theorem declared_source (member : d ∈ snap.declared) : d.1.epoch = some d.1.target := by
  obtain ⟨_,_,_,inside,_⟩ := snap.carried d member
  rw [inside.entry]
  rfl

-- A write entry answers exactly while its window is open.
theorem write_open_iff (member : d ∈ snap.declared) (mode : d.1.mode = .readWrite) :
    Open s d ↔ d.1.current s.epochs = true := by
  constructor
  · exact (snap.carried d member).current
  · intro current
    obtain ⟨origin,actions,before,inside,run⟩ := snap.carried d member
    have write : d.2.link.mode = .readWrite := by
      have covers := inside.covers
      rw [mode] at covers
      cases held : d.2.link.mode with
      | readWrite => rfl
      | readOnly => rw [held] at covers; cases covers
    refine inside.write_out write before run ?_
    rw [Entry.current,snap.declared_source member] at current
    simp only [beq_iff_eq] at current
    rw [current,inside.captured]

-- A write enqueued under it waits.
theorem under_waits (path : Machines.Reached system s) (under : snap.WritesUnder p) :
    (s.pipes p).pipe.free .readWrite = false := by
  obtain ⟨d,_,⟨rfl,_⟩,out⟩ := under
  have valid := reached_valid path d.1.target
  have admits : (s.pipes d.1.target).pipe.admissible .readWrite = false := by
    by_contra free
    have empty := valid.write_alone (by simpa using free)
    have listed : d.2 ∈ (s.pipes d.1.target).outstanding := out
    rw [empty] at listed
    cases listed
  simp [Pipe.free,admits]

theorem holdsWrite_iff (ctx : Option AccessContext) (accounts : snap.Accounts ctx) :
    ctx.any (·.holdsWriteEpoch p) = true ↔ ∃ d ∈ snap.declared, WriteEntry p d := by
  rw [Option.any_eq_true]
  constructor
  · rintro ⟨c,rfl,holds⟩
    simp only [AccessContext.holdsWriteEpoch,List.any_eq_true,Bool.and_eq_true,beq_iff_eq] at holds
    obtain ⟨e,member,source,mode⟩ := holds
    obtain ⟨d,declared,rfl⟩ := List.mem_map.mp ((accounts e).mp ⟨c,rfl,member,by rw [source]; rfl⟩)
    rw [snap.declared_source declared] at source
    exact ⟨d,declared,Option.some.inj source,mode⟩
  · rintro ⟨d,declared,rfl,mode⟩
    obtain ⟨c,rfl,member,_⟩ := (accounts d.1).mpr (List.mem_map_of_mem declared)
    refine ⟨c,rfl,?_⟩
    simp only [AccessContext.holdsWriteEpoch,List.any_eq_true,Bool.and_eq_true,beq_iff_eq]
    exact ⟨d.1,member,snap.declared_source declared,mode⟩

end Snapshot

-- The fatal of a commit says exactly that the caller runs under an open write
-- window on the target; stale entries stop nobody.
structure FatalExact (p : PipeId) (s : Deferred) (snap : Snapshot s.base) (caller : Option BlockId)
    (ctx : Option AccessContext) : Prop where
  raised : ∀ token, s.commitArm .checked p caller ctx token = .nestedFatal ↔ snap.WritesUnder p
  stale : (∀ d ∈ snap.declared, Snapshot.WriteEntry p d → d.1.current s.base.epochs = false) →
    ∀ token, s.commitArm .checked p caller ctx token = .enqueued

-- In every reached state, for every caller but the write owner: the fatal is
-- exact where the caller's context has no write entry on the target, or one
-- whose window is open. What it is raised for would wait.
theorem commit_fatal_exact_iff {s : Deferred} (path : Machines.Reached (deferredSystem p true workers) s)
    (snap : Snapshot s.base) (ctx : Option AccessContext) (accounts : snap.Accounts ctx) (caller : Option BlockId)
    (other : ¬ (caller.isSome = true ∧ (s.base.pipes p).pipe.writerOwner = caller)) :
    (snap.WritesUnder p → (s.base.pipes p).pipe.free .readWrite = false) ∧
    (FatalExact p s snap caller ctx ↔
      ((∃ d ∈ snap.declared, Snapshot.WriteEntry p d) → snap.WritesUnder p)) := by
  have arm : ∀ token, s.commitArm .checked p caller ctx token =
      if ctx.any (·.holdsWriteEpoch p) = true then .nestedFatal else .enqueued := by
    intro token
    simp [Deferred.commitArm,if_neg other]
  have lists := snap.holdsWrite_iff (p := p) ctx accounts
  refine ⟨snap.under_waits (deferred_sound path).base,?_⟩
  constructor
  · intro exact_fatal listed
    refine (exact_fatal.raised none).mp ?_
    rw [arm,if_pos (lists.mpr listed)]
  · intro settled
    refine ⟨?_,?_⟩
    · intro token
      rw [arm]
      by_cases holds : ctx.any (·.holdsWriteEpoch p) = true
      · rw [if_pos holds]
        exact ⟨fun _ => settled (lists.mp holds),fun _ => rfl⟩
      · rw [if_neg holds]
        refine ⟨fun raised => absurd raised (by decide),?_⟩
        rintro ⟨d,declared,write,_⟩
        exact absurd (lists.mpr ⟨d,declared,write⟩) holds
    · intro closed token
      rw [arm,if_neg]
      intro holds
      obtain ⟨d,declared,write,out⟩ := settled (lists.mp holds)
      have current := (snap.write_open_iff declared write.2).mp out
      rw [closed d declared write] at current
      cases current

-- A helper of task 0 commits while task 0 holds the write grant.
def helperEntry : Snapshot ((deferredSystem 0 true 1).follow {} (twoWindows.map .base)).base where
  declared := [(Entry.capture (system.follow .initial twoWindows).epochs 0 .readWrite (some 0) 0,
    ⟨0,⟨.link 0 0,.readWrite⟩⟩)]
  bounded := Nat.le_add_left 1 7
  carried := by
    intro d member
    rw [List.mem_singleton.mp member]
    exact ⟨_,[],Machines.reached_follow (.start rfl) (by decide),⟨by decide,rfl,by decide⟩,.nil⟩

theorem commit_fatal_exact_helper :
    let s := (deferredSystem 0 true 1).follow {} (twoWindows.map .base)
    helperEntry.WritesUnder 0 ∧ FatalExact 0 s helperEntry none (some helperEntry.context) := by
  intro s
  have under : helperEntry.WritesUnder 0 :=
    ⟨_,List.mem_singleton_self _,⟨rfl,rfl⟩,by unfold Snapshot.Open; decide⟩
  refine ⟨under,(commit_fatal_exact_iff (Machines.reached_follow (.start rfl) (by decide)) helperEntry
    (some helperEntry.context) ?_ none (by decide)).2.mpr (fun _ => under)⟩
  intro e
  constructor
  · rintro ⟨c,same,member,_⟩
    cases same
    exact member
  · intro member
    refine ⟨_,rfl,member,?_⟩
    rw [List.mem_singleton.mp member]
    rfl

-- Task 0's write window has closed and task 1 writes; a coroutine that task 0
-- left behind with its entry commits.
def outlivedRun : List DeferredAction := (twoWindows++handedOver).map .base

def leftBehind : Snapshot ((deferredSystem 0 true 1).follow {} outlivedRun).base := outlivedSnapshot

theorem commit_fatal_stale :
    let s := (deferredSystem 0 true 1).follow {} outlivedRun
    Machines.Reached (deferredSystem 0 true 1) s ∧
    (s.base.pipes 0).pipe.writerOwner = some 1 ∧
    (∀ d ∈ leftBehind.declared, ¬ Snapshot.Open s.base d) ∧
    s.commitArm .checked 0 (some 2) (some leftBehind.context) none = .nestedFatal ∧
    ¬ FatalExact 0 s leftBehind (some 2) (some leftBehind.context) := by
  intro s
  have closed : ∀ d ∈ leftBehind.declared, ¬ Snapshot.Open s.base d := by
    intro d member
    rw [List.mem_singleton.mp member]
    unfold Snapshot.Open
    decide
  have raised : s.commitArm .checked 0 (some 2) (some leftBehind.context) none = .nestedFatal := by decide
  refine ⟨Machines.reached_follow (.start rfl) (by decide),by decide,closed,raised,?_⟩
  intro exact_fatal
  obtain ⟨d,member,_,out⟩ := (exact_fatal.raised none).mp raised
  exact closed d member out

end Macrame

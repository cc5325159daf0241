import Mathlib.Algebra.GroupWithZero.Nat
import Mathlib.Algebra.Order.BigOperators.Group.List
import Mathlib.Algebra.Order.Group.Nat
import Macrame.Coroutines
import Macrame.Lending

namespace Macrame

-- The pipes as one thread finds them.
abbrev Pipes := PipeId → Pipe

def Pipes.epochs (σ : Pipes) : PipeId → Nat := fun p => (σ p).writeEpoch

-- Who awaits: the installed access context, the running task (null outside of
-- one) and the guards it has live.
structure Caller where
  context : Option AccessContext := none
  running : Option BlockId := none
  guardDepth : Nat := 0
  deriving DecidableEq, Repr

-- The objects of an `Access_op` in canonical order; `queued` never runs inline.
structure AccessOp where
  targets : LinkTable
  queued : Bool := false
  deriving DecidableEq, Repr

inductive Arm where
  | inlined
  | lent
  | enqueued
  deriving DecidableEq, Repr

-- What a fire leaves for the await to look at: the links it bound.
structure Fired where
  arm : Arm
  links : LinkTable
  deriving DecidableEq, Repr

-- `bind_links` sets it each time it binds.
def Fired.allLent (fired : Fired) : Bool := fired.links.count == 0

-- The probe of `pipe_try_inline`.
def Pipes.tryInline (σ : Pipes) (links : LinkTable) : Bool := links.entries.all (fun l => (σ l.pipe).free l.mode)

namespace AccessOp

-- `fire` once something is busy, or never-inline was asked for.
def fireLent (op : AccessOp) (caller : Caller) (σ : Pipes) : Except Fatal Fired :=
  match bindLinks .checked σ.epochs caller.context true op.targets with
  | .error fatal => .error fatal
  | .ok bound =>
    if bound.count = 0 then .ok ⟨.lent,bound⟩
    else if !op.queued && decide (bound.count < op.targets.count) && σ.tryInline bound then .ok ⟨.inlined,bound⟩
    else .ok ⟨.enqueued,bound⟩

def fire (op : AccessOp) (caller : Caller) (σ : Pipes) : Except Fatal Fired :=
  if op.queued then op.fireLent caller σ
  else
    match bindLinks .checked σ.epochs caller.context false op.targets with
    | .error fatal => .error fatal
    | .ok bound => if σ.tryInline bound then .ok ⟨.inlined,bound⟩ else op.fireLent caller σ

end AccessOp

inductive Verdict where
  | exempt
  | awaitUnderGuard
  | accessRank
  | passed
  deriving DecidableEq, Repr

namespace Caller

variable (caller : Caller)

-- Outside a task `running` is null, and so is the `writer_owner` of a pipe that
-- nobody writes.
def reentrantUnderHeldGrant (fired : Fired) (τ : Pipes) : Bool :=
  fired.allLent || fired.links.count != 0 && fired.links.entries.all (fun l => (τ l.pipe).writerOwner == caller.running)

-- `check_access_rank` for one link of an awaited block: no instance is named.
def violates (rank epochs : PipeId → Nat) (l : Link) : Bool :=
  match caller.context with
  | none => false
  | some ctx => !ctx.checkAccessRank epochs rank l.pipe false

-- `Task_awaiter::await_ready` on the op.
def awaitReady (rank : PipeId → Nat) (fired : Fired) (τ : Pipes) : Verdict :=
  if caller.reentrantUnderHeldGrant fired τ then .exempt
  else if caller.guardDepth > 0 then .awaitUnderGuard
  else if fired.links.entries.any (caller.violates rank τ.epochs) then .accessRank
  else .passed

-- `co_await ts::access(..)`: fired among `σ`, looked at among `τ`.
def verdict (rank : PipeId → Nat) (op : AccessOp) (σ τ : Pipes) : Except Fatal Verdict :=
  match op.fire caller σ with
  | .error fatal => .error fatal
  | .ok fired => .ok (caller.awaitReady rank fired τ)

end Caller

-- What holds of a pipe between any two mutex sections.
structure Pipe.Sound (p : Pipe) : Prop where
  parity : p.writeEpoch % 2 = 1 ↔ p.writerActive = true
  alone : p.writerActive = true → p.activeReaders = 0
  readers : 0 ≤ p.activeReaders
  owner : p.writerActive = false → p.writerOwner = none
  blocked : ∀ l rest, p.queue = l :: rest → p.admissible l.mode = false

-- An entry backed by a pipe is an entry on the object of that pipe.
def AccessContext.Grounded (ctx : AccessContext) : Prop := ∀ e ∈ ctx.entries, ∀ p, e.epoch = some p → e.target = p

namespace Caller

-- The pipes may differ in anything but what the caller itself has of them: its
-- entries answer as before, and it owns the write grants it owned.
structure Alike (caller : Caller) (known σ : Pipes) : Prop where
  sound : ∀ p, (σ p).Sound
  entries : ∀ ctx, caller.context = some ctx → ∀ e ∈ ctx.entries, e.current σ.epochs = e.current known.epochs
  owned : ∀ r, caller.running = some r → ∀ p, (σ p).writerOwner = some r ↔ (known p).writerOwner = some r

-- The verdict does not turn on contention, and an access that the caller's
-- grants cover is not reported.
structure Unswayed (caller : Caller) (rank : PipeId → Nat) (op : AccessOp) (known : Pipes) : Prop where
  same : ∀ σ τ σ' τ', caller.Alike known σ → caller.Alike known τ → caller.Alike known σ' → caller.Alike known τ' →
    ∀ v v', caller.verdict rank op σ τ = .ok v → caller.verdict rank op σ' τ' = .ok v' → (v = .accessRank ↔ v' = .accessRank)
  covered : (∀ l ∈ op.targets.entries, lends .checked known.epochs caller.context l = true) →
    ∀ σ τ, caller.Alike known σ → caller.Alike known τ → caller.verdict rank op σ τ ≠ .ok .accessRank

-- The caller's context lists a grant of the pipe whose window is open.
def Backed (caller : Caller) (known : Pipes) (p : PipeId) : Prop :=
  ∃ ctx, caller.context = some ctx ∧ ∃ e ∈ ctx.entries, e.epoch = some p ∧ e.current known.epochs = true

-- The pipe is in a write window of the caller's.
def Writes (caller : Caller) (known : Pipes) (p : PipeId) : Prop :=
  (caller.Backed known p ∧ (known p).writerActive = true) ∨ ∃ r, caller.running = some r ∧ (known p).writerOwner = some r

-- Whether the probe that asks for no lend may pass, and whether the lend may.
def MayProbe (caller : Caller) (op : AccessOp) (known : Pipes) : Prop :=
  op.queued = false ∧ ∀ l ∈ op.targets.entries, ¬ caller.Writes known l.pipe

def MayLend (caller : Caller) (op : AccessOp) (known : Pipes) : Prop :=
  ∀ l ∈ op.targets.entries, refuses .checked known.epochs caller.context l = false

-- The two ways to bind come to one verdict. Outside a task a free pipe passes
-- for an owned one, so there only what is never reported is safe.
structure Settled (caller : Caller) (rank : PipeId → Nat) (op : AccessOp) (known : Pipes) : Prop where
  within : caller.running ≠ none → caller.MayProbe op known → caller.MayLend op known →
    (∃ l ∈ op.targets.entries, caller.violates rank known.epochs l = true) →
    ∃ l ∈ op.targets.entries, lends .checked known.epochs caller.context l = false ∧ caller.violates rank known.epochs l = true
  probed : caller.running = none → caller.MayProbe op known →
    (∃ l ∈ op.targets.entries, caller.violates rank known.epochs l = true) → ∀ l ∈ op.targets.entries, caller.Backed known l.pipe
  bound : caller.running = none → caller.MayLend op known → ∀ l ∈ op.targets.entries,
    lends .checked known.epochs caller.context l = false → caller.violates rank known.epochs l = false

end Caller

namespace AccessContext

variable {ctx : AccessContext} (alike : ∀ e ∈ ctx.entries, e.current epochs = e.current epochs')
include alike

theorem grants_same (target : PipeId) (mode : Access) :
    ctx.grants .checked epochs target mode = ctx.grants .checked epochs' target mode := by
  rw [Bool.eq_iff_iff,grants_iff,grants_iff]
  refine exists_congr fun e => and_congr_right fun member => ?_
  simp only [Answers,alike e member]

theorem checkAccessRank_same (rank : PipeId → Nat) (p : PipeId) :
    ctx.checkAccessRank epochs rank p false = ctx.checkAccessRank epochs' rank p false := by
  have counted : ctx.rankState epochs = ctx.rankState epochs' := by
    refine List.foldl_ext _ _ _ ?_
    intro state e member
    simp only [RankState.add,alike e member]
  simp only [checkAccessRank,counted,Bool.false_and]

end AccessContext

namespace Caller

variable {caller : Caller} {known σ τ : Pipes} {op : AccessOp} {rank : PipeId → Nat}

namespace Alike

variable (alike : caller.Alike known σ)
include alike

theorem lends_same : lends .checked σ.epochs caller.context = lends .checked known.epochs caller.context := by
  funext l
  unfold lends
  split
  · rfl
  · rename_i ctx context
    exact AccessContext.grants_same (alike.entries ctx context) l.pipe l.mode

theorem refuses_same : refuses .checked σ.epochs caller.context = refuses .checked known.epochs caller.context := by
  funext l
  unfold refuses
  split
  · rfl
  · rename_i ctx context
    simp only [AccessContext.grants_same (alike.entries ctx context)]

theorem violates_same : caller.violates rank σ.epochs = caller.violates rank known.epochs := by
  funext l
  unfold violates
  split
  · rfl
  · rename_i ctx context
    rw [AccessContext.checkAccessRank_same (alike.entries ctx context)]

theorem backed (backs : caller.Backed known p) : caller.Backed σ p ∧ σ.epochs p = known.epochs p := by
  obtain ⟨ctx,context,e,member,source,current⟩ := backs
  have still : e.current σ.epochs = true := by rw [alike.entries ctx context e member,current]
  refine ⟨⟨ctx,context,e,member,source,still⟩,?_⟩
  simp only [Entry.current,source,beq_iff_eq] at current still
  rw [current,still]

-- A pipe in the caller's write window is never free.
theorem written (sound : ∀ p, (known p).Sound) (writes : caller.Writes known p) : (σ p).writerActive = true := by
  rcases writes with ⟨backs,active⟩ | ⟨r,running,owner⟩
  · have same := (alike.backed backs).2
    refine (alike.sound p).parity.mp ?_
    rw [← (sound p).parity] at active
    rwa [show (σ p).writeEpoch = (known p).writeEpoch from same]
  · have owns := (alike.owned r running p).mpr owner
    by_contra idle
    have unowned := (alike.sound p).owner (by simpa using idle)
    rw [owns] at unowned
    cases unowned

theorem mayProbe (sound : ∀ p, (known p).Sound) (unqueued : op.queued = false) (passes : σ.tryInline op.targets = true) :
    caller.MayProbe op known := by
  refine ⟨unqueued,?_⟩
  intro l member writes
  simp only [Pipes.tryInline,List.all_eq_true] at passes
  have free := passes l member
  simp only [Pipe.free,Bool.and_eq_true] at free
  have inactive := Pipe.admissible_inactive free.2
  rw [alike.written sound writes] at inactive
  cases inactive

end Alike

theorem bindLinks_unlent (caller : Caller) (op : AccessOp) (σ : Pipes) :
    bindLinks .checked σ.epochs caller.context false op.targets = .ok op.targets := by
  have kept : op.targets.keep (fun l => !lends .checked σ.epochs none l) = op.targets :=
    LinkTable.same_entries (List.filter_eq_self.mpr (fun _ _ => rfl))
  simp [bindLinks,refuses,kept]

-- What was bound: every object, after the probe that asks for no lend, or the
-- objects that are not lent.
theorem fired_links (fired : op.fire caller σ = .ok left) :
    (op.queued = false ∧ σ.tryInline op.targets = true ∧ left.links = op.targets) ∨
    ((∀ l ∈ op.targets.entries, refuses .checked σ.epochs caller.context l = false) ∧
      left.links = op.targets.keep (fun l => !lends .checked σ.epochs caller.context l)) := by
  have lent : op.fireLent caller σ = .ok left →
      (∀ l ∈ op.targets.entries, refuses .checked σ.epochs caller.context l = false) ∧
        left.links = op.targets.keep (fun l => !lends .checked σ.epochs caller.context l) := by
    intro bound
    simp only [AccessOp.fireLent,bindLinks,if_true] at bound
    split at bound
    · cases bound
    · rename_i table kept
      split at kept
      · cases kept
      · rename_i willing
        cases kept
        refine ⟨by simpa using willing,?_⟩
        split at bound
        · cases bound; rfl
        · split at bound <;> (cases bound; rfl)
  unfold AccessOp.fire at fired
  split at fired
  · exact .inr (lent fired)
  · rename_i unqueued
    rw [bindLinks_unlent] at fired
    simp only at fired
    split at fired
    · rename_i passes
      cases fired
      exact .inl ⟨by simpa using unqueued,passes,rfl⟩
    · exact .inr (lent fired)

theorem fire_probes (unqueued : op.queued = false) (passes : σ.tryInline op.targets = true) :
    op.fire caller σ = .ok ⟨.inlined,op.targets⟩ := by
  simp [AccessOp.fire,unqueued,bindLinks_unlent,passes]

theorem fire_lends (fails : op.queued = true ∨ σ.tryInline op.targets = false)
    (willing : ∀ l ∈ op.targets.entries, refuses .checked σ.epochs caller.context l = false) :
    ∃ left, op.fire caller σ = .ok left ∧
      left.links = op.targets.keep (fun l => !lends .checked σ.epochs caller.context l) := by
  have bound : bindLinks .checked σ.epochs caller.context true op.targets =
      .ok (op.targets.keep (fun l => !lends .checked σ.epochs caller.context l)) := by
    simpa [bindLinks] using willing
  have lent : op.fire caller σ = op.fireLent caller σ := by
    unfold AccessOp.fire
    rcases fails with queued | busy
    · simp [queued]
    · simp [bindLinks_unlent,busy]
  rw [lent,AccessOp.fireLent,bound]
  simp only
  split
  · exact ⟨_,rfl,rfl⟩
  · split <;> exact ⟨_,rfl,rfl⟩

-- A block with no links is an all-lent one, and no link of it violates.
theorem reported_iff (caller : Caller) (rank : PipeId → Nat) (left : Fired) (τ : Pipes) :
    caller.awaitReady rank left τ = .accessRank ↔ caller.guardDepth = 0 ∧
      (∃ l ∈ left.links.entries, (τ l.pipe).writerOwner ≠ caller.running) ∧
      ∃ l ∈ left.links.entries, caller.violates rank τ.epochs l = true := by
  have held : caller.reentrantUnderHeldGrant left τ = true ↔
      ∀ l ∈ left.links.entries, (τ l.pipe).writerOwner = caller.running := by
    simp only [reentrantUnderHeldGrant,Fired.allLent,LinkTable.count,Bool.or_eq_true,beq_iff_eq,Bool.and_eq_true,bne_iff_ne,
      List.all_eq_true,List.length_eq_zero_iff]
    constructor
    · rintro (none_bound | ⟨_,owned⟩)
      · simp [none_bound]
      · exact owned
    · intro owned
      by_cases none_bound : left.links.entries = []
      · exact .inl none_bound
      · exact .inr ⟨by simpa using none_bound,owned⟩
  unfold awaitReady
  by_cases exempt : caller.reentrantUnderHeldGrant left τ = true
  · rw [if_pos exempt]
    refine ⟨fun reported => absurd reported (by decide),?_⟩
    rintro ⟨_,⟨l,member,other⟩,_⟩
    exact absurd (held.mp exempt l member) other
  · rw [if_neg exempt]
    have other : ∃ l ∈ left.links.entries, (τ l.pipe).writerOwner ≠ caller.running := by
      by_contra none_other
      push Not at none_other
      exact exempt (held.mpr none_other)
    by_cases guarded : caller.guardDepth > 0
    · simp [guarded,Nat.ne_of_gt guarded]
    · rw [if_neg guarded]
      have depth : caller.guardDepth = 0 := by omega
      split
      · rename_i some_violates
        exact ⟨fun _ => ⟨depth,other,List.any_eq_true.mp some_violates⟩,fun _ => rfl⟩
      · rename_i none_violates
        refine ⟨fun reported => absurd reported (by decide),?_⟩
        rintro ⟨_,_,some_violates⟩
        exact absurd (List.any_eq_true.mpr some_violates) none_violates

-- Which links the check saw, and what it takes for it to report.
theorem verdict_parts (alike : caller.Alike known σ) (later : caller.Alike known τ) (sound : ∀ p, (known p).Sound)
    (decided : caller.verdict rank op σ τ = .ok v) : ∃ links : List Link,
      ((caller.MayProbe op known ∧ links = op.targets.entries) ∨
        (caller.MayLend op known ∧ links = op.targets.entries.filter (fun l => !lends .checked known.epochs caller.context l))) ∧
      (v = .accessRank ↔ caller.guardDepth = 0 ∧ (∃ l ∈ links, (τ l.pipe).writerOwner ≠ caller.running) ∧
        ∃ l ∈ links, caller.violates rank known.epochs l = true) := by
  unfold verdict at decided
  split at decided
  · cases decided
  · rename_i left fired
    cases decided
    refine ⟨left.links.entries,?_,?_⟩
    · rcases fired_links fired with ⟨unqueued,passes,all⟩ | ⟨willing,kept⟩
      · exact .inl ⟨alike.mayProbe sound unqueued passes,by rw [all]⟩
      · rw [alike.refuses_same] at willing
        refine .inr ⟨willing,?_⟩
        rw [kept,alike.lends_same]
        rfl
    · rw [reported_iff,later.violates_same]

-- Where no pipe is written by the caller, no link is its own.
theorem unwritten_other (later : caller.Alike known τ) (task : caller.running ≠ none)
    (unwritten : ¬ caller.Writes known p) : (τ p).writerOwner ≠ caller.running := by
  intro owned
  cases running : caller.running with
  | none => exact task running
  | some r =>
    rw [running] at owned
    exact unwritten (.inr ⟨r,running,(later.owned r running p).mp owned⟩)

theorem guarded_unswayed (sound : ∀ p, (known p).Sound) (guarded : 0 < caller.guardDepth) :
    caller.Unswayed rank op known := by
  have never : ∀ σ τ v, caller.Alike known σ → caller.Alike known τ → caller.verdict rank op σ τ = .ok v → v ≠ .accessRank := by
    intro σ τ v alike later decided reported
    obtain ⟨_,_,reports⟩ := verdict_parts alike later sound decided
    have depth := (reports.mp reported).1
    omega
  refine ⟨?_,?_⟩
  · intro σ τ σ' τ' a b a' b' v v' one two
    exact ⟨fun reported => absurd reported (never σ τ v a b one),fun reported => absurd reported (never σ' τ' v' a' b' two)⟩
  · intro _ σ τ a b reported
    exact never σ τ _ a b reported rfl

-- Outside a task a settled access is never reported.
theorem Settled.silent (settled : caller.Settled rank op known) (sound : ∀ p, (known p).Sound) (outside : caller.running = none)
    (alike : caller.Alike known σ) (later : caller.Alike known τ) (decided : caller.verdict rank op σ τ = .ok v) :
    v ≠ .accessRank := by
  intro reported
  obtain ⟨links,taken,reports⟩ := verdict_parts alike later sound decided
  obtain ⟨_,⟨l,member,other⟩,⟨l',member',violates⟩⟩ := reports.mp reported
  rcases taken with ⟨probes,rfl⟩ | ⟨willing,rfl⟩
  · -- every pipe is backed and unwritten, so nobody writes it now either
    have backs := settled.probed outside probes ⟨l',member',violates⟩ l member
    have same := (later.backed backs).2
    have inactive : (known l.pipe).writerActive = false := by
      by_contra active
      exact probes.2 l member (.inl ⟨backs,by simpa using active⟩)
    have still : (τ l.pipe).writerActive = false := by
      by_contra active
      have odd := (later.sound l.pipe).parity.mpr (by simpa using active)
      rw [show (τ l.pipe).writeEpoch = (known l.pipe).writeEpoch from same,(sound l.pipe).parity,inactive] at odd
      cases odd
    rw [(later.sound l.pipe).owner still,outside] at other
    exact other rfl
  · obtain ⟨target,unlent⟩ := List.mem_filter.mp member'
    have passes := settled.bound outside willing l' target (by simpa using unlent)
    rw [violates] at passes
    cases passes

-- Inside one the two ways to bind report alike.
theorem Settled.reports (settled : caller.Settled rank op known) (sound : ∀ p, (known p).Sound) (task : caller.running ≠ none)
    (unguarded : caller.guardDepth = 0) (alike : caller.Alike known σ) (later : caller.Alike known τ)
    (decided : caller.verdict rank op σ τ = .ok v) (probes : caller.MayProbe op known) (willing : caller.MayLend op known) :
    v = .accessRank ↔ ∃ l ∈ op.targets.entries, lends .checked known.epochs caller.context l = false ∧
      caller.violates rank known.epochs l = true := by
  obtain ⟨links,taken,reports⟩ := verdict_parts alike later sound decided
  have others : ∀ l ∈ op.targets.entries, (τ l.pipe).writerOwner ≠ caller.running := by
    intro l member
    exact unwritten_other later task (probes.2 l member)
  rw [reports]
  rcases taken with ⟨_,rfl⟩ | ⟨_,rfl⟩
  · constructor
    · rintro ⟨_,_,violates⟩
      exact settled.within task probes willing violates
    · rintro ⟨l,member,_,violates⟩
      exact ⟨unguarded,⟨l,member,others l member⟩,⟨l,member,violates⟩⟩
  · constructor
    · rintro ⟨_,_,⟨l,member,violates⟩⟩
      obtain ⟨target,unlent⟩ := List.mem_filter.mp member
      exact ⟨l,target,by simpa using unlent,violates⟩
    · rintro ⟨l,member,unlent,violates⟩
      have kept : l ∈ op.targets.entries.filter (fun l => !lends .checked known.epochs caller.context l) :=
        List.mem_filter.mpr ⟨member,by simpa using unlent⟩
      exact ⟨unguarded,⟨l,kept,others l member⟩,⟨l,kept,violates⟩⟩

-- What a task owns it owns in every alike state.
theorem other_iff (later : caller.Alike known τ) (task : caller.running ≠ none) (links : List Link) :
    (∃ l ∈ links, (τ l.pipe).writerOwner ≠ caller.running) ↔ ∃ l ∈ links, (known l.pipe).writerOwner ≠ caller.running := by
  cases running : caller.running with
  | none => exact absurd running task
  | some r =>
    refine exists_congr fun l => and_congr_right fun _ => ?_
    rw [ne_eq,ne_eq,later.owned r running]

theorem Settled.unswayed (settled : caller.Settled rank op known) (sound : ∀ p, (known p).Sound) :
    caller.Unswayed rank op known := by
  by_cases guarded : 0 < caller.guardDepth
  · exact guarded_unswayed sound guarded
  have unguarded : caller.guardDepth = 0 := by omega
  by_cases task : caller.running = none
  · refine ⟨?_,?_⟩
    · intro σ τ σ' τ' a b a' b' v v' one two
      exact ⟨fun reported => absurd reported (settled.silent sound task a b one),
        fun reported => absurd reported (settled.silent sound task a' b' two)⟩
    · intro _ σ τ a b reported
      exact settled.silent sound task a b reported rfl
  · refine ⟨?_,?_⟩
    · intro σ τ σ' τ' a b a' b' v v' one two
      obtain ⟨links,taken,reports⟩ := verdict_parts a b sound one
      obtain ⟨links',taken',reports'⟩ := verdict_parts a' b' sound two
      have alike : links = links' → (v = .accessRank ↔ v' = .accessRank) := by
        rintro rfl
        rw [reports,reports',other_iff b task,other_iff b' task]
      have settles : caller.MayProbe op known → caller.MayLend op known → (v = .accessRank ↔ v' = .accessRank) := by
        intro probes willing
        rw [settled.reports sound task unguarded a b one probes willing,
          settled.reports sound task unguarded a' b' two probes willing]
      rcases taken with ⟨probes,all⟩ | ⟨willing,kept⟩ <;> rcases taken' with ⟨probes',all'⟩ | ⟨willing',kept'⟩
      · exact alike (all.trans all'.symm)
      · exact settles probes willing'
      · exact settles probes' willing
      · exact alike (kept.trans kept'.symm)
    · intro covered σ τ a b reported
      obtain ⟨links,taken,reports⟩ := verdict_parts a b sound reported
      have willing : caller.MayLend op known := by
        intro l member
        have granted := covered l member
        unfold lends at granted
        unfold refuses
        split
        · rfl
        · rename_i context
          simp only [context] at granted
          simp [granted]
      rcases taken with ⟨probes,_⟩ | ⟨_,rfl⟩
      · obtain ⟨l,member,unlent,_⟩ := (settled.reports sound task unguarded a b reported probes willing).mp rfl
        rw [covered l member] at unlent
        cases unlent
      · obtain ⟨_,_,l,member,_⟩ := reports.mp rfl
        obtain ⟨target,unlent⟩ := List.mem_filter.mp member
        rw [covered l target] at unlent
        cases unlent

end Caller

-- The states that contention may bring a pipe into: nobody on it; a reader on
-- it and a writer behind; another task writing. `fresh` is an epoch that no
-- entry of the caller's was captured at.
namespace Pipe

def calm (p : Pipe) (fresh : Nat) : Pipe := {writeEpoch := if p.writerActive then 2*fresh else p.writeEpoch}

def contended (p : Pipe) (fresh : Nat) : Pipe :=
  {p.calm fresh with queue := [⟨.link 0 0,.readWrite⟩],activeReaders := 1}

def written (fresh : Nat) (writer : BlockId) : Pipe :=
  {writerActive := true,writerOwner := some writer,writeEpoch := 2*fresh+1}

theorem calm_even {p : Pipe} (sound : p.Sound) (fresh : Nat) : (p.calm fresh).writeEpoch % 2 = 0 := by
  have parity := sound.parity
  unfold calm
  cases active : p.writerActive with
  | true => simp
  | false =>
    rw [active] at parity
    simp only [Bool.false_eq_true,iff_false] at parity
    simp only [Bool.false_eq_true,if_false]
    omega

theorem calm_sound {p : Pipe} (sound : p.Sound) (fresh : Nat) : (p.calm fresh).Sound := by
  refine ⟨?_,?_,Int.le_refl 0,fun _ => rfl,?_⟩
  · have even := calm_even sound fresh
    rw [even]
    simp [calm]
  · simp [calm]
  · intro l rest queue
    cases queue

theorem contended_sound {p : Pipe} (sound : p.Sound) (fresh : Nat) : (p.contended fresh).Sound := by
  refine ⟨?_,?_,?_,fun _ => rfl,?_⟩
  · have even := calm_even sound fresh
    simp only [contended]
    rw [even]
    simp [calm]
  · simp [contended,calm]
  · simp [contended]
  · intro l rest queue
    cases queue
    rfl

theorem written_sound (fresh : Nat) (writer : BlockId) : (written fresh writer).Sound := by
  refine ⟨?_,fun _ => rfl,Int.le_refl 0,fun idle => Bool.noConfusion idle,?_⟩
  · have odd : (2*fresh+1) % 2 = 1 := by omega
    exact ⟨fun _ => rfl,fun _ => odd⟩
  · intro l rest queue
    cases queue

end Pipe

def Pipes.calmed (known : Pipes) (ps : List PipeId) (fresh : Nat) : Pipes :=
  fun p => if p ∈ ps then (known p).calm fresh else known p

namespace Caller

variable {caller : Caller} {known σ τ : Pipes} {op : AccessOp} {rank : PipeId → Nat}

-- Twice this is above every epoch an entry of the context was captured at.
def fresh (caller : Caller) : Nat :=
  match caller.context with
  | none => 0
  | some ctx => (ctx.entries.map Entry.captured).sum+1

theorem below_fresh (context : caller.context = some ctx) (member : e ∈ ctx.entries) : e.captured < 2*caller.fresh := by
  have bounded : e.captured ≤ (ctx.entries.map Entry.captured).sum :=
    List.single_le_sum (fun x _ => Nat.zero_le x) _ (List.mem_map_of_mem member)
  simp only [fresh,context]
  omega

-- A pipe may change where the caller's entries answer as before and it owns what it owned.
structure Kept (caller : Caller) (known σ : Pipes) (p : PipeId) : Prop where
  sound : (σ p).Sound
  entries : ∀ ctx, caller.context = some ctx → ∀ e ∈ ctx.entries, e.epoch = some p →
    (σ.epochs p == e.captured) = (known.epochs p == e.captured)
  owned : ∀ r, caller.running = some r → ((σ p).writerOwner = some r ↔ (known p).writerOwner = some r)

theorem alike_of (kept : ∀ p, caller.Kept known σ p) : caller.Alike known σ := by
  refine ⟨fun p => (kept p).sound,?_,fun r running p => (kept p).owned r running⟩
  intro ctx context e member
  unfold Entry.current
  cases source : e.epoch with
  | none => rfl
  | some p => exact (kept p).entries ctx context e member source

theorem unchanged_kept (sound : ∀ p, (known p).Sound) (same : σ p = known p) : caller.Kept known σ p := by
  refine ⟨?_,?_,?_⟩
  · rw [same]
    exact sound p
  · intro _ _ e _ _
    rw [show σ.epochs p = known.epochs p from congrArg Pipe.writeEpoch same]
  · intro r _
    rw [same]

theorem alike_refl (caller : Caller) (sound : ∀ p, (known p).Sound) : caller.Alike known known :=
  alike_of (fun _ => unchanged_kept sound rfl)

-- Where the caller does not write the others may come and go.
theorem calm_kept (unwritten : ¬ caller.Writes known p) (sound : (σ p).Sound) (idle : (σ p).writerOwner = none)
    (epoch : (σ p).writeEpoch = ((known p).calm caller.fresh).writeEpoch) : caller.Kept known σ p := by
  refine ⟨sound,?_,?_⟩
  · intro ctx context e member source
    show ((σ p).writeEpoch == e.captured) = ((known p).writeEpoch == e.captured)
    rw [epoch]
    unfold Pipe.calm
    cases active : (known p).writerActive with
    | false => rfl
    | true =>
      have bounded := below_fresh context member
      have unbacked : (known p).writeEpoch ≠ e.captured := by
        intro same
        refine unwritten (.inl ⟨⟨ctx,context,e,member,source,?_⟩,active⟩)
        simpa [Entry.current,source,Pipes.epochs] using same
      rw [if_pos rfl,beq_eq_false_iff_ne.mpr unbacked,beq_eq_false_iff_ne]
      exact Nat.ne_of_gt bounded
  · intro r running
    rw [idle]
    constructor
    · intro impossible
      cases impossible
    · intro owner
      exact absurd (.inr ⟨r,running,owner⟩) unwritten

theorem calmed_alike (ps : List PipeId) (sound : ∀ p, (known p).Sound) (unwritten : ∀ p ∈ ps, ¬ caller.Writes known p) :
    caller.Alike known (known.calmed ps caller.fresh) := by
  refine alike_of fun p => ?_
  by_cases member : p ∈ ps
  · have here : known.calmed ps caller.fresh p = (known p).calm caller.fresh := if_pos member
    refine calm_kept (unwritten p member) ?_ ?_ ?_
    · rw [here]
      exact Pipe.calm_sound (sound p) _
    · rw [here]
      rfl
    · rw [here]
  · exact unchanged_kept sound (if_neg member)

theorem contended_alike (sound : ∀ p, (known p).Sound) (unwritten : ¬ caller.Writes known p) :
    caller.Alike known (Function.update known p ((known p).contended caller.fresh)) := by
  refine alike_of fun q => ?_
  by_cases same : q = p
  · subst same
    refine calm_kept unwritten ?_ ?_ ?_
    · rw [Function.update_self]
      exact Pipe.contended_sound (sound q) _
    · rw [Function.update_self]
      rfl
    · rw [Function.update_self]
      rfl
  · exact unchanged_kept sound (Function.update_of_ne same _ _)

-- Another task may write where the caller has no open grant.
theorem written_alike (sound : ∀ p, (known p).Sound) (outside : caller.running = none) (unbacked : ¬ caller.Backed known p)
    (writer : BlockId) : caller.Alike known (Function.update known p (Pipe.written caller.fresh writer)) := by
  refine alike_of fun q => ?_
  by_cases same : q = p
  · subst same
    refine ⟨?_,?_,?_⟩
    · rw [Function.update_self]
      exact Pipe.written_sound _ _
    · intro ctx context e member source
      have bounded := below_fresh context member
      have stale : (known q).writeEpoch ≠ e.captured := by
        intro same
        refine unbacked ⟨ctx,context,e,member,source,?_⟩
        simpa [Entry.current,source,Pipes.epochs] using same
      show ((Function.update known q (Pipe.written caller.fresh writer) q).writeEpoch == e.captured) = ((known q).writeEpoch == e.captured)
      rw [Function.update_self,beq_eq_false_iff_ne.mpr stale,beq_eq_false_iff_ne]
      simp only [Pipe.written]
      omega
    · intro r running
      rw [outside] at running
      cases running
  · exact unchanged_kept sound (Function.update_of_ne same _ _)

theorem calmed_passes (known : Pipes) (targets : LinkTable) (fresh : Nat) :
    (known.calmed (targets.entries.map Link.pipe) fresh).tryInline targets = true := by
  simp only [Pipes.tryInline,List.all_eq_true]
  intro l member
  have here : known.calmed (targets.entries.map Link.pipe) fresh l.pipe = (known l.pipe).calm fresh :=
    if_pos (List.mem_map_of_mem member)
  rw [here]
  cases mode : l.mode <;> rfl

theorem contended_fails {targets : LinkTable} (known : Pipes) (member : l ∈ targets.entries) (fresh : Nat) :
    Pipes.tryInline (Function.update known l.pipe ((known l.pipe).contended fresh)) targets = false := by
  rw [Pipes.tryInline,List.all_eq_false]
  refine ⟨l,member,?_⟩
  rw [Function.update_self]
  simp [Pipe.free,Pipe.contended]

-- A grant of the caller's on an object it awaits is lent, or stops the lend.
theorem unlent_unbacked (grounded : ∀ ctx, caller.context = some ctx → ctx.Grounded) (willing : caller.MayLend op known)
    (member : l ∈ op.targets.entries) (unlent : lends .checked known.epochs caller.context l = false) :
    ¬ caller.Backed known l.pipe := by
  rintro ⟨ctx,context,e,listed,source,current⟩
  have target := grounded ctx context e listed l.pipe source
  have granted : ∀ mode, e.mode.covers mode = true → ctx.grants .checked known.epochs l.pipe mode = true := by
    intro mode covers
    exact (AccessContext.grants_iff ctx).mpr ⟨e,listed,target,covers,fun _ => current⟩
  have refused := willing l member
  simp only [lends,context] at unlent
  cases wanted : l.mode with
  | readOnly =>
    rw [wanted,granted .readOnly (by cases e.mode <;> rfl)] at unlent
    cases unlent
  | readWrite =>
    rw [wanted] at unlent
    have reads := granted .readOnly (by cases e.mode <;> rfl)
    simp [refuses,context,wanted,unlent,reads] at refused

theorem verdict_of (fired : op.fire caller σ = .ok left) : caller.verdict rank op σ τ = .ok (caller.awaitReady rank left τ) := by
  rw [verdict,fired]

-- Nobody writes a calmed pipe.
theorem calmed_owner {links : List Link} {fresh : Nat} (member : l ∈ links) : (known.calmed (links.map Link.pipe) fresh l.pipe).writerOwner = none := by
  have here : known.calmed (links.map Link.pipe) fresh l.pipe = (known l.pipe).calm fresh :=
    if_pos (List.mem_map_of_mem member)
  rw [here]
  rfl

-- Bound to every object, or to those that are not lent, whichever the pipes bring about.
theorem probed_verdict (probes : caller.MayProbe op known) (later : caller.Alike known τ) :
    ∃ v, caller.verdict rank op (known.calmed (op.targets.entries.map Link.pipe) caller.fresh) τ = .ok v ∧
      (v = .accessRank ↔ caller.guardDepth = 0 ∧ (∃ l ∈ op.targets.entries, (τ l.pipe).writerOwner ≠ caller.running) ∧
        ∃ l ∈ op.targets.entries, caller.violates rank known.epochs l = true) := by
  refine ⟨_,verdict_of (fire_probes probes.1 (calmed_passes known op.targets caller.fresh)),?_⟩
  rw [reported_iff,later.violates_same]

theorem lent_verdict (sound : ∀ p, (known p).Sound) (willing : caller.MayLend op known) (member : l ∈ op.targets.entries)
    (unwritten : ¬ caller.Writes known l.pipe) (later : caller.Alike known τ) :
    ∃ v, caller.verdict rank op (Function.update known l.pipe ((known l.pipe).contended caller.fresh)) τ = .ok v ∧
      (v = .accessRank ↔ caller.guardDepth = 0 ∧
        (∃ l ∈ op.targets.entries.filter (fun l => !lends .checked known.epochs caller.context l),
          (τ l.pipe).writerOwner ≠ caller.running) ∧
        ∃ l ∈ op.targets.entries.filter (fun l => !lends .checked known.epochs caller.context l),
          caller.violates rank known.epochs l = true) := by
  have alike := contended_alike sound unwritten
  have still := willing
  unfold MayLend at still
  rw [← alike.refuses_same] at still
  obtain ⟨left,fired,bound⟩ := fire_lends (.inr (contended_fails known member caller.fresh)) still
  refine ⟨_,verdict_of fired,?_⟩
  rw [reported_iff,later.violates_same,bound,alike.lends_same]
  rfl

theorem Unswayed.within (unswayed : caller.Unswayed rank op known) (sound : ∀ p, (known p).Sound)
    (unguarded : caller.guardDepth = 0) (task : caller.running ≠ none) (probes : caller.MayProbe op known)
    (willing : caller.MayLend op known) (member : l ∈ op.targets.entries)
    (violates : caller.violates rank known.epochs l = true) :
    ∃ l ∈ op.targets.entries, lends .checked known.epochs caller.context l = false ∧
      caller.violates rank known.epochs l = true := by
  by_contra none_unlent
  have calm := calmed_alike (op.targets.entries.map Link.pipe) sound (by
    intro p listed
    obtain ⟨l,target,rfl⟩ := List.mem_map.mp listed
    exact probes.2 l target)
  have busy := contended_alike sound (probes.2 l member)
  obtain ⟨v,one,reports⟩ := probed_verdict probes calm
  obtain ⟨v',two,reports'⟩ := lent_verdict sound willing member (probes.2 l member) busy
  have reported := reports.mpr ⟨unguarded,⟨l,member,by rw [calmed_owner member]; exact Ne.symm task⟩,⟨l,member,violates⟩⟩
  obtain ⟨_,_,l',kept,violates'⟩ := reports'.mp ((unswayed.same _ _ _ _ calm calm busy busy v v' one two).mp reported)
  obtain ⟨target,unlent⟩ := List.mem_filter.mp kept
  exact none_unlent ⟨l',target,by simpa using unlent,violates'⟩

theorem Unswayed.probed (unswayed : caller.Unswayed rank op known) (sound : ∀ p, (known p).Sound)
    (unguarded : caller.guardDepth = 0) (outside : caller.running = none) (probes : caller.MayProbe op known)
    (violates : ∃ l ∈ op.targets.entries, caller.violates rank known.epochs l = true) (member : l ∈ op.targets.entries) :
    caller.Backed known l.pipe := by
  by_contra unbacked
  have calm := calmed_alike (op.targets.entries.map Link.pipe) sound (by
    intro p listed
    obtain ⟨l,target,rfl⟩ := List.mem_map.mp listed
    exact probes.2 l target)
  have taken := written_alike sound outside unbacked 0
  obtain ⟨v,one,reports⟩ := probed_verdict probes calm
  obtain ⟨v',two,reports'⟩ := probed_verdict probes taken
  have reported := reports'.mpr ⟨unguarded,⟨l,member,by simp [Pipe.written,outside]⟩,violates⟩
  obtain ⟨_,⟨l',target,other⟩,_⟩ := reports.mp ((unswayed.same _ _ _ _ calm calm calm taken v v' one two).mpr reported)
  rw [calmed_owner target,outside] at other
  exact other rfl

theorem Unswayed.bound (unswayed : caller.Unswayed rank op known) (sound : ∀ p, (known p).Sound)
    (grounded : ∀ ctx, caller.context = some ctx → ctx.Grounded) (unguarded : caller.guardDepth = 0)
    (outside : caller.running = none) (willing : caller.MayLend op known) (member : l ∈ op.targets.entries)
    (unlent : lends .checked known.epochs caller.context l = false) : caller.violates rank known.epochs l = false := by
  by_contra violates
  rw [Bool.not_eq_false] at violates
  have unwritten : ∀ l ∈ op.targets.entries, lends .checked known.epochs caller.context l = false →
      ¬ caller.Writes known l.pipe := by
    intro l target free writes
    rcases writes with ⟨backs,_⟩ | ⟨r,running,_⟩
    · exact unlent_unbacked grounded willing target free backs
    · rw [outside] at running
      cases running
  have kept : l ∈ op.targets.entries.filter (fun l => !lends .checked known.epochs caller.context l) :=
    List.mem_filter.mpr ⟨member,by simpa using unlent⟩
  have calm := calmed_alike
    ((op.targets.entries.filter (fun l => !lends .checked known.epochs caller.context l)).map Link.pipe) sound (by
      intro p listed
      obtain ⟨l,target,rfl⟩ := List.mem_map.mp listed
      obtain ⟨target,free⟩ := List.mem_filter.mp target
      exact unwritten l target (by simpa using free))
  have taken := written_alike sound outside (unlent_unbacked grounded willing member unlent) 0
  have busy := contended_alike sound (unwritten l member unlent)
  obtain ⟨v,one,reports⟩ := lent_verdict sound willing member (unwritten l member unlent) calm
  obtain ⟨v',two,reports'⟩ := lent_verdict sound willing member (unwritten l member unlent) taken
  have reported := reports'.mpr ⟨unguarded,⟨l,kept,by simp [Pipe.written,outside]⟩,⟨l,kept,violates⟩⟩
  obtain ⟨_,⟨l',target,other⟩,_⟩ := reports.mp ((unswayed.same _ _ _ _ busy calm busy taken v v' one two).mpr reported)
  rw [calmed_owner target,outside] at other
  exact other rfl

theorem unswayed_iff (caller : Caller) (rank : PipeId → Nat) (op : AccessOp) (known : Pipes)
    (sound : ∀ p, (known p).Sound) (grounded : ∀ ctx, caller.context = some ctx → ctx.Grounded) :
    caller.Unswayed rank op known ↔ 0 < caller.guardDepth ∨ caller.Settled rank op known := by
  constructor
  · intro unswayed
    rcases Nat.eq_zero_or_pos caller.guardDepth with unguarded | guarded
    · refine .inr ⟨?_,?_,?_⟩
      · rintro task probes willing ⟨l,member,violates⟩
        exact unswayed.within sound unguarded task probes willing member violates
      · intro outside probes violates l member
        exact unswayed.probed sound unguarded outside probes violates member
      · intro outside willing l member unlent
        exact unswayed.bound sound grounded unguarded outside willing member unlent
    · exact .inl guarded
  · rintro (guarded | settled)
    · exact Caller.guarded_unswayed sound guarded
    · exact settled.unswayed sound

end Caller

-- The rank verdict is free of contention exactly where another rule stops the
-- await first, or the access is settled.
theorem rank_verdict_impartial_iff (caller : Caller) (rank : PipeId → Nat) (op : AccessOp) (known : Pipes)
    (sound : ∀ p, (known p).Sound) (grounded : ∀ ctx, caller.context = some ctx → ctx.Grounded) :
    caller.Unswayed rank op known ↔ 0 < caller.guardDepth ∨ caller.Settled rank op known :=
  caller.unswayed_iff rank op known sound grounded

def State.pipesNow (s : State) : Pipes := fun p => (s.pipes p).pipe

theorem reached_pipe_sound (path : Machines.Reached system s) (p : PipeId) : (s.pipesNow p).Sound := by
  have valid := reached_valid path p
  refine ⟨valid.parity,?_,?_,fun idle => (valid.reading idle).1,valid.blocked⟩
  · intro active
    obtain ⟨k,only,mode,_⟩ := valid.writing active
    show (s.pipes p).pipe.activeReaders = 0
    rw [valid.readers]
    simp [Tracked.held,Tracked.reads,only,mode]
  · show 0 ≤ (s.pipes p).pipe.activeReaders
    rw [valid.readers]
    exact Int.natCast_nonneg _

theorem Snapshot.grounded (snap : Snapshot s) : snap.context.Grounded := by
  intro e member p source
  obtain ⟨d,declared,rfl⟩ := List.mem_map.mp member
  obtain ⟨_,_,_,inside,_⟩ := snap.carried d declared
  rw [inside.entry] at source
  exact Option.some.inj source

-- Whatever grants a caller of a run has taken along.
theorem reached_unswayed_iff (path : Machines.Reached system s) (snap : Snapshot s) (running : Option BlockId)
    (guardDepth : Nat) (rank : PipeId → Nat) (op : AccessOp) :
    (⟨some snap.context,running,guardDepth⟩ : Caller).Unswayed rank op s.pipesNow ↔
      0 < guardDepth ∨ (⟨some snap.context,running,guardDepth⟩ : Caller).Settled rank op s.pipesNow := by
  refine Caller.unswayed_iff _ rank op s.pipesNow (reached_pipe_sound path) ?_
  intro ctx same
  cases same
  exact snap.grounded

-- Task 0 reads object 0, of rank 1, and awaits a read access to it.
def readerRuns : List Action :=
  [.arm 0 .executable (.single ⟨0,.readOnly⟩) none,.launch 0,.resume (.own 0 (.fireTurn 0)),.resume (.own 0 .turnRelease),
    .resume (.own 0 .execute)]

def writerBehind : List Action := [.arm 1 .executable (.single ⟨0,.readWrite⟩) none,.launch 1]

def readerCaller : Caller :=
  ⟨some (.single (Entry.capture (system.follow .initial readerRuns).epochs 0 .readOnly (some 0) 1)),some 0,0⟩

def readAgain : AccessOp := ⟨.single ⟨0,.readOnly⟩,false⟩

-- With nobody behind it the covered await is reported, with a writer queued it is lent.
theorem rank_verdict_turns :
    let free := system.follow .initial readerRuns
    let busy := system.follow free writerBehind
    Machines.Reached system free ∧ Machines.Runs system free writerBehind busy ∧
    lends .checked free.epochs readerCaller.context ⟨0,.readOnly⟩ = true ∧
    readerCaller.verdict (fun _ => 1) readAgain free.pipesNow free.pipesNow = .ok .accessRank ∧
    readerCaller.verdict (fun _ => 1) readAgain busy.pipesNow busy.pipesNow = .ok .exempt ∧
    ¬ readerCaller.Unswayed (fun _ => 1) readAgain free.pipesNow := by
  intro free busy
  have path : Machines.Reached system free := Machines.reached_follow (.start rfl) (by decide)
  have reported : readerCaller.verdict (fun _ => 1) readAgain free.pipesNow free.pipesNow = .ok .accessRank := by rfl
  refine ⟨path,Machines.runs_follow (by decide),by decide,reported,by rfl,?_⟩
  intro unswayed
  have same := readerCaller.alike_refl (reached_pipe_sound path)
  refine unswayed.covered ?_ _ _ same same reported
  intro l member
  rw [List.mem_singleton.mp member]
  decide

theorem rank_verdict_impartial_free :
    readerCaller.Unswayed (fun p => p+1) ⟨.single ⟨1,.readOnly⟩,false⟩ (system.follow .initial readerRuns).pipesNow := by
  have path : Machines.Reached system (system.follow .initial readerRuns) := Machines.reached_follow (.start rfl) (by decide)
  refine (rank_verdict_impartial_iff readerCaller _ _ _ (reached_pipe_sound path) ?_).mpr (.inr ⟨?_,?_,?_⟩)
  · intro ctx same e member p source
    cases same
    rw [List.mem_singleton.mp member] at source ⊢
    exact Option.some.inj source
  · rintro _ _ _ ⟨l,member,violates⟩
    rw [List.mem_singleton.mp member] at violates
    exact absurd violates (by decide)
  · intro outside
    cases outside
  · intro outside
    cases outside

end Macrame

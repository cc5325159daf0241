import Macrame.Tenure

namespace Macrame

-- `check_access_rank` for one awaited pipe, with the rule enforced. A guard
-- names the object as well; an object that the context lists is then skipped.
def AccessContext.checkAccessRank (ctx : AccessContext) (epochs rank : PipeId → Nat) (p : PipeId) (named : Bool) : Bool :=
  let held := ctx.rankState epochs
  (named && ctx.check .checked epochs p .readOnly != .none) || held.held == 0 ||
    !(held.anyUnranked || rank p == 0 || rank p ≤ held.max)

-- What a suspended coroutine is suspended on.
inductive Await where
  | guard (h : HoldId)
  | op (o : BlockId)
  deriving DecidableEq, Repr

-- A coroutine's access context: what it inherited at its creation, and one
-- entry for each guard it has live. Guards are scoped locals, so the context a
-- guard restores at its end is the one without its own entry.
structure Coroutine where
  declared : List (Option HoldId × Entry) := []
  bounded : declared.length ≤ maxEntries := by decide
  suspended : Option Await := none
  deriving DecidableEq, Repr

namespace Coroutine

def context (co : Coroutine) : AccessContext := ⟨co.declared.map Prod.snd,by simpa using co.bounded⟩

def full (co : Coroutine) : Bool := co.declared.length == maxEntries

-- A ninth entry is fatal.
def declare (co : Coroutine) (h : HoldId) (e : Entry) : Coroutine :=
  if room : co.declared.length < maxEntries then
    {declared := co.declared++[(some h,e)],bounded := by simpa using Nat.succ_le_of_lt room}
  else co

def undeclare (co : Coroutine) (h : HoldId) : Coroutine :=
  {co with
    declared := co.declared.filter (fun d => d.1 != some h)
    bounded := Nat.le_trans (List.length_filter_le _ _) co.bounded}

def suspend (co : Coroutine) (on : Option Await) : Coroutine := {co with suspended := on}

def inheriting (ctx : AccessContext) : Coroutine where
  declared := ctx.entries.map (fun e => (none,e))
  bounded := by simpa using ctx.bounded

-- Neither suspended nor inside a guard's scope: it may end.
def free (co : Coroutine) : Bool := co.suspended == none && co.declared.all (fun d => d.1 == none)

end Coroutine

-- The task system with its coroutines, and with the coroutine that awaits each `Access_op`.
structure RankWorld where
  base : State := .initial
  frames : BlockId → Coroutine := fun _ => {}
  awaiter : BlockId → Option BlockId := fun _ => none

inductive RankAction where
  | base (a : Action)
  | node (b c : BlockId)
  | detached (c : BlockId) (snapshot : AccessContext)
  | guard (c : BlockId) (h : HoldId) (p : PipeId) (mode : Access)
  | resumeGuard (c : BlockId) (h : HoldId)
  | dropGuard (c : BlockId) (h : HoldId)
  | awaitOp (c o : BlockId)
  | resumeOp (c o : BlockId)
  deriving DecidableEq, Repr

namespace Hold

def owner : Hold → Option BlockId
  | .idle => none
  | .queued _ _ o => o
  | .granted _ _ o => o
  | .held _ _ o => o

end Hold

namespace RankWorld

variable (rank : PipeId → Nat)

-- The entries a body declares for the links of its block.
def declares (s : State) (b : BlockId) : AccessContext :=
  if room : (s.blocks b).links.count ≤ maxEntries then
    ⟨(s.blocks b).links.entries.map (fun link => Entry.capture s.epochs link.pipe link.mode (some link.pipe) (rank link.pipe)),
      by simpa using show (s.blocks b).links.entries.length ≤ maxEntries from room⟩
  else {}

def setFrame (w : RankWorld) (base : State) (c : BlockId) (co : Coroutine) : RankWorld :=
  {w with base := base,frames := Function.update w.frames c co}

-- The entry of a guard, declared when it is built.
def guardEntry (s : State) (h : HoldId) : Entry :=
  match s.holds h with
  | .held p mode _ => Entry.capture s.epochs p mode (some p) (rank p)
  | _ => Entry.capture s.epochs 0 .readOnly none 0

-- What the rest of the program may do. Holds, frames and nesting have calls of
-- their own; an awaited op is not used again, and a coroutine ends outside its
-- guards.
def outside (w : RankWorld) : Action → Bool
  | .acquire _ _ _ _ => false
  | .releaseHold _ => false
  | .resume (.fireHold _) => false
  | .addNested _ _ => false
  | .createFrame _ => false
  | .bodyEnd c => (w.frames c).free
  | a => match a.claims with
    | none => true
    | some o => w.awaiter o == none

def awaits (w : RankWorld) (c : BlockId) : Prop :=
  (w.base.blocks c).kind = .coroutine ∧ (w.base.progress c).status = .running ∧ (w.frames c).suspended = none

instance awaitsDecidable (w : RankWorld) (c : BlockId) : Decidable (w.awaits c) := inferInstanceAs (Decidable (_ ∧ _ ∧ _))

def Allowed (w : RankWorld) : RankAction → Prop
  | .base a => w.base.Allowed a ∧ w.outside a = true
  | .node b c =>
    (w.base.progress b).status = .running ∧ (w.base.blocks b).kind ≠ .coroutine ∧
      (w.base.blocks b).links.count ≤ maxEntries ∧ (w.base.progress c).status.resting = true ∧ w.awaiter c = none
  | .detached c _ => (w.base.progress c).status.resting = true ∧ w.awaiter c = none
  | .guard c h p _ =>
    w.awaits c ∧ (w.frames c).full = false ∧ w.base.holds h = .idle ∧
      (w.frames c).context.checkAccessRank w.base.epochs rank p true = true
  | .resumeGuard c h => (w.base.holds h).owner = some c ∧ (w.frames c).full = false ∧ .fireHold h ∈ w.base.pending
  | .dropGuard c h => w.awaits c ∧ (w.base.holds h).taken = true ∧ (w.base.holds h).owner = some c
  | .awaitOp c o =>
    w.awaits c ∧ (w.base.blocks o).kind = .callerOwned ∧ (w.base.progress o).status ≠ .armed ∧ w.awaiter o = none ∧
      ∀ link ∈ (w.base.blocks o).links.entries,
        (w.frames c).context.checkAccessRank w.base.epochs rank link.pipe false = true
  | .resumeOp c o => (w.frames c).suspended = some (.op o) ∧ (w.base.blocks o).completed = true

def apply (w : RankWorld) : RankAction → RankWorld
  | .base a => {w with base := w.base.apply a}
  | .node b c =>
    w.setFrame ((w.base.apply (.createFrame c)).apply (.addNested b c)) c (.inheriting (declares rank w.base b))
  | .detached c snapshot => w.setFrame (w.base.apply (.createFrame c)) c (.inheriting snapshot)
  | .guard c h p mode =>
    let taken := w.base.apply (.acquire h p mode (some c))
    w.setFrame taken c (if (taken.holds h).taken then (w.frames c).declare h (guardEntry rank taken h)
      else (w.frames c).suspend (some (.guard h)))
  | .resumeGuard c h =>
    let taken := w.base.apply (.resume (.fireHold h))
    w.setFrame taken c ((w.frames c).declare h (guardEntry rank taken h))
  | .dropGuard c h => w.setFrame (w.base.apply (.releaseHold h)) c ((w.frames c).undeclare h)
  | .awaitOp c o =>
    {w.setFrame w.base c ((w.frames c).suspend (some (.op o))) with awaiter := Function.update w.awaiter o (some c)}
  | .resumeOp c o =>
    {w.setFrame w.base c ((w.frames c).suspend none) with awaiter := Function.update w.awaiter o none}

end RankWorld

instance rankDecidable (rank : PipeId → Nat) (w : RankWorld) : (a : RankAction) → Decidable (w.Allowed rank a)
  | .base _ => inferInstanceAs (Decidable (_ ∧ _))
  | .node _ _ => inferInstanceAs (Decidable (_ ∧ _ ∧ _ ∧ _ ∧ _))
  | .detached _ _ => inferInstanceAs (Decidable (_ ∧ _))
  | .guard _ _ _ _ => inferInstanceAs (Decidable (_ ∧ _ ∧ _ ∧ _))
  | .resumeGuard _ _ => inferInstanceAs (Decidable (_ ∧ _ ∧ _))
  | .dropGuard _ _ => inferInstanceAs (Decidable (_ ∧ _ ∧ _))
  | .awaitOp _ _ => inferInstanceAs (Decidable (_ ∧ _ ∧ _ ∧ _ ∧ _))
  | .resumeOp _ _ => inferInstanceAs (Decidable (_ ∧ _))

def rankSystem (rank : PipeId → Nat) : Machines.Machine RankWorld RankAction :=
  ⟨(· = {}),RankWorld.Allowed rank,RankWorld.apply rank⟩

instance rankSystemDecidable (rank : PipeId → Nat) (w : RankWorld) (a : RankAction) :
    Decidable ((rankSystem rank).allowed w a) :=
  inferInstanceAs (Decidable (w.Allowed rank a))

namespace AccessContext

-- The scan has counted a current entry: as held, and with its rank.
structure RankState.Counts (state : RankState) (e : Entry) : Prop where
  held : 0 < state.held
  max : e.rank ≤ state.max
  unranked : e.rank = 0 → state.anyUnranked = true

theorem RankState.add_counts (state : RankState) (source : e.epoch = some p) (current : e.current epochs = true) :
    (state.add epochs e).Counts e := by
  have backed : (e.epoch == none) = false := by simp [source]
  simp only [RankState.add,backed,current,Bool.not_true,Bool.false_eq_true,if_false]
  split
  · rename_i zero
    exact ⟨Nat.succ_pos _,by simp_all,fun _ => rfl⟩
  · rename_i ranked
    split
    · exact ⟨Nat.succ_pos _,Nat.le_refl _,fun zero => absurd (by simpa using zero) ranked⟩
    · exact ⟨Nat.succ_pos _,by simp only; omega,fun zero => absurd (by simpa using zero) ranked⟩

theorem RankState.Counts.add (counts : RankState.Counts state e) (f : Entry) : (state.add epochs f).Counts e := by
  obtain ⟨held,max,unranked⟩ := counts
  simp only [RankState.add]
  split
  · exact ⟨held,max,unranked⟩
  · split
    · exact ⟨held,max,unranked⟩
    · split
      · exact ⟨Nat.succ_pos _,max,fun _ => rfl⟩
      · split
        · exact ⟨Nat.succ_pos _,by simp only; omega,unranked⟩
        · exact ⟨Nat.succ_pos _,max,unranked⟩

theorem rankState_counts (ctx : AccessContext) (epochs : PipeId → Nat) (member : e ∈ ctx.entries)
    (source : e.epoch = some p) (current : e.current epochs = true) : (ctx.rankState epochs).Counts e := by
  have kept : ∀ (entries : List Entry) (state : RankState), state.Counts e → (entries.foldl (RankState.add epochs) state).Counts e := by
    intro entries
    induction entries with
    | nil => exact fun _ counts => counts
    | cons f rest ih => exact fun _ counts => ih _ (counts.add f)
  have counted : ∀ (entries : List Entry) (state : RankState), e ∈ entries → (entries.foldl (RankState.add epochs) state).Counts e := by
    intro entries
    induction entries with
    | nil => exact fun _ none_left => absurd none_left List.not_mem_nil
    | cons f rest ih =>
      intro state member
      rcases List.mem_cons.mp member with rfl | later
      · exact kept rest _ (state.add_counts source current)
      · exact ih _ later
  exact counted ctx.entries {} member

-- An await that is not skipped climbs away from everything its context holds.
theorem checkAccessRank_climbs {ctx : AccessContext} (passed : ctx.checkAccessRank epochs rank p named = true)
    (unskipped : named = true → ctx.check .checked epochs p .readOnly = .none) (member : e ∈ ctx.entries)
    (source : e.epoch = some q) (current : e.current epochs = true) : 0 < e.rank ∧ e.rank < rank p := by
  obtain ⟨some_held,below,unranked⟩ := ctx.rankState_counts epochs member source current
  simp only [checkAccessRank,Bool.or_eq_true,Bool.and_eq_true,beq_iff_eq,bne_iff_ne,ne_eq,Bool.not_eq_true',
    Bool.or_eq_false_iff,decide_eq_false_iff_not,not_le,beq_eq_false_iff_ne] at passed
  rcases passed with (⟨names,listed⟩ | none_held) | ⟨⟨ranked,_⟩,above⟩
  · exact absurd (unskipped names) listed
  · omega
  · refine ⟨?_,by omega⟩
    by_contra zero
    rw [unranked (by omega)] at ranked
    cases ranked

end AccessContext

namespace RankWorld

variable {rank : PipeId → Nat}

-- `e` is the current entry of the object of `p`, with its rank.
structure Backs (rank : PipeId → Nat) (s : State) (p : PipeId) (e : Entry) : Prop where
  source : e.epoch = some p
  rank : e.rank = rank p
  captured : e.captured = s.epochs p

-- What a coroutine keeps from others: its guards, and the links of the body it gates.
def Grasps (w : RankWorld) (c : BlockId) (p : PipeId) : Prop :=
  (∃ h m, w.base.holds h = .held p m (some c)) ∨
    ∃ b link, (w.base.blocks c).nestedParent = some b ∧ link ∈ (w.base.blocks b).links.entries ∧ link.pipe = p

structure Runs (s : State) (c : BlockId) : Prop where
  kind : (s.blocks c).kind = .coroutine
  running : (s.progress c).status = .running

-- Everything `c` has in its grasp ranks below `q`.
def Climbs (rank : PipeId → Nat) (w : RankWorld) (c : BlockId) (q : PipeId) : Prop :=
  ∀ p, w.Grasps c p → 0 < rank p ∧ rank p < rank q

-- What a taken or wanted hold says about the coroutine that owns it.
inductive HoldAt (rank : PipeId → Nat) (w : RankWorld) (h : HoldId) : Hold → Prop where
  | idle : HoldAt rank w h .idle
  | queued : Runs w.base c → (w.frames c).suspended = some (.guard h) → Climbs rank w c q → HoldAt rank w h (.queued q m (some c))
  | granted : Runs w.base c → (w.frames c).suspended = some (.guard h) → HoldAt rank w h (.granted q m (some c))
  | held : Runs w.base c → (some h,e) ∈ (w.frames c).declared → Backs rank w.base p e → HoldAt rank w h (.held p m (some c))

structure Hosted (rank : PipeId → Nat) (w : RankWorld) (b c : BlockId) : Prop where
  kind : (w.base.blocks c).kind = .coroutine
  listed : ∀ link ∈ (w.base.blocks b).links.entries, ∃ e, (none,e) ∈ (w.frames c).declared ∧ Backs rank w.base link.pipe e

structure OpAt (rank : PipeId → Nat) (w : RankWorld) (c o : BlockId) : Prop where
  runs : Runs w.base c
  awaiter : w.awaiter o = some c
  launched : (w.base.progress o).status ≠ .armed
  climbs : ∀ link ∈ (w.base.blocks o).links.entries, Climbs rank w c link.pipe

-- The books of the coroutines, the hold `h` left open.
structure SoundBut (rank : PipeId → Nat) (w : RankWorld) (open_ : Option HoldId) : Prop where
  base : Machines.Reached system w.base
  holds : ∀ h, open_ ≠ some h → HoldAt rank w h (w.base.holds h)
  hosted : ∀ b c, (w.base.blocks c).nestedParent = some b → Hosted rank w b c
  ops : ∀ c o, (w.frames c).suspended = some (.op o) → OpAt rank w c o

section Step

variable {w : RankWorld} {a : Action}

def step (w : RankWorld) (a : Action) : RankWorld := {w with base := w.base.apply a}

theorem Runs.kept (runs : Runs s c) (acc : Accounts s) (allowed : s.Allowed a) (goes_on : a ≠ .bodyEnd c) :
    Runs (s.apply a) c := by
  have active : (s.progress c).status.active = true := by rw [runs.running]; rfl
  exact ⟨(State.apply_keeps s a c (State.active_unclaimed allowed active)).kind.trans runs.kind,
    State.running_kept acc allowed runs.running goes_on⟩

theorem hosted_unclaimed (acc : Accounts s) (allowed : s.Allowed a) (child : (s.blocks c).nestedParent = some b)
    (kind : (s.blocks c).kind = .coroutine) : a.claims ≠ some c := by
  have cycle := (acc.blocks c).cycle
  have live := (cycle.parent (by simp [child])).1
  have fits := cycle.fits
  simp only [State.footprint_progress,State.footprint_block,kind] at live fits
  intro claimed
  cases a <;> cases claimed <;> simp_all [State.Allowed]
  all_goals simp [Status.fits,Status.ended] at fits

theorem Backs.kept (backs : Backs rank s p e) (path : Machines.Reached system s) (allowed : s.Allowed a)
    (before : l ∈ (s.pipes p).held) (after : l ∈ ((s.apply a).pipes p).held) : Backs rank (s.apply a) p e := by
  obtain ⟨k,out,rfl⟩ := List.mem_map.mp before
  exact ⟨backs.source,backs.rank,backs.captured.trans (State.apply_epoch path allowed out after).symm⟩

-- The links of a body that is under way are all held.
theorem link_held (acc : Accounts s) (active : (s.progress b).status.active = true)
    (member : link ∈ (s.blocks b).links.entries) : ∃ i, ⟨.link b i,link.mode⟩ ∈ (s.pipes link.pipe).held := by
  obtain ⟨i,place⟩ := List.mem_iff_getElem?.mp member
  exact ⟨i,(State.holding_iff acc).mpr ⟨State.active_holds active i,place⟩⟩

-- What one step of the task system asks of the coroutines around it.
structure Fits (rank : PipeId → Nat) (w : RankWorld) (a : Action) : Prop where
  ends : ∀ c, a = .bodyEnd c → (w.frames c).free = true
  unawaited : ∀ o, a.claims = some o → w.awaiter o = none
  attaches : ∀ b c, a = .addNested b c → (w.frames c).suspended = none ∧ Hosted rank w b c
  lone : ∀ h p m c, a.handles = some h → (w.base.apply a).holds h = .held p m (some c) →
    (w.frames c).suspended = none ∨ (w.frames c).suspended = some (.guard h)

-- A suspended coroutine grasps nothing new.
theorem grasps_before (acc : Accounts w.base) (allowed : w.base.Allowed a) (fits : Fits rank w a)
    (suspended : (w.frames c).suspended = some on) (other : ∀ h, a.handles = some h → on ≠ .guard h)
    (grasps : (w.step a).Grasps c p) : w.Grasps c p := by
  rcases grasps with ⟨h,m,held⟩ | ⟨b,link,child,member,pipe⟩
  · by_cases handled : a.handles = some h
    · rcases fits.lone h p m c handled held with none_left | guard
      · rw [suspended] at none_left; cases none_left
      · rw [suspended] at guard
        exact absurd (Option.some.inj guard) (other h handled)
    · have next := State.apply_hold w.base a h handled
      rw [show (w.base.apply a).holds h = _ from held] at next
      refine .inl ⟨h,m,?_⟩
      generalize w.base.holds h = before at next ⊢
      cases next
      rfl
  · have child' : (w.base.blocks c).nestedParent = some b := by
      refine State.parent_before child ?_
      intro attaches
      rw [(fits.attaches b c attaches).1] at suspended
      cases suspended
    have links := (State.apply_keeps w.base a b (State.active_unclaimed allowed (State.child_active acc child'))).links
    refine .inr ⟨b,link,child',?_,pipe⟩
    rw [← links]
    exact member

theorem Climbs.kept (climbs : Climbs rank w c q) (acc : Accounts w.base) (allowed : w.base.Allowed a)
    (fits : Fits rank w a) (suspended : (w.frames c).suspended = some on)
    (other : ∀ h, a.handles = some h → on ≠ .guard h) : Climbs rank (w.step a) c q :=
  fun p grasps => climbs p (grasps_before acc allowed fits suspended other grasps)

theorem holdAt_kept (sound : SoundBut rank w none) (allowed : w.base.Allowed a) (fits : Fits rank w a)
    (unhandled : a.handles ≠ some h) : HoldAt rank (w.step a) h ((w.base.apply a).holds h) := by
  have acc := reached_accounts sound.base
  have next := State.apply_hold w.base a h unhandled
  have goes_on : ∀ c, (w.frames c).free = false → a ≠ .bodyEnd c := by
    intro c busy ends
    rw [fits.ends c ends] at busy
    cases busy
  have waits : ∀ c, (w.frames c).suspended = some (.guard h) → a ≠ .bodyEnd c := by
    intro c suspended
    exact goes_on c (by simp [Coroutine.free,suspended])
  have other : ∀ g, a.handles = some g → Await.guard h ≠ .guard g := by
    rintro g handled same
    cases same
    exact unhandled handled
  have old := sound.holds h (by simp)
  have held_before : ∀ p m o, w.base.holds h = .held p m o → ⟨.hold h o,m⟩ ∈ (w.base.pipes p).held :=
    fun p m o held => (State.hold_holding_iff acc).mpr (.inr held)
  have held_after : ∀ p m o, (w.base.apply a).holds h = .held p m o → ⟨.hold h o,m⟩ ∈ ((w.base.apply a).pipes p).held :=
    fun p m o held => (State.hold_holding_iff (State.apply_accounts acc allowed)).mpr (.inr held)
  generalize before : w.base.holds h = hold at old next held_before
  generalize after : (w.base.apply a).holds h = hold' at next held_after ⊢
  cases old with
  | idle => cases next; exact .idle
  | queued runs suspended climbs =>
    have kept := runs.kept acc allowed (waits _ suspended)
    cases next with
    | same => exact .queued kept suspended (climbs.kept acc allowed fits suspended other)
    | granted => exact .granted kept suspended
  | granted runs suspended =>
    cases next with
    | same => exact .granted (runs.kept acc allowed (waits _ suspended)) suspended
  | held runs listed backs =>
    cases next with
    | same =>
      rename_i c e p m
      have busy : (w.frames c).free = false := by
        rw [Coroutine.free,Bool.and_eq_false_iff]
        exact .inr (List.all_eq_false.mpr ⟨_,listed,by simp⟩)
      exact .held (runs.kept acc allowed (goes_on c busy)) listed
        (backs.kept sound.base allowed (held_before p m _ rfl) (held_after p m _ rfl))

theorem hosted_kept (sound : SoundBut rank w none) (allowed : w.base.Allowed a) (fits : Fits rank w a)
    (child : ((w.base.apply a).blocks c).nestedParent = some b) : Hosted rank (w.step a) b c := by
  have acc := reached_accounts sound.base
  have later := State.apply_accounts acc allowed
  have before : Hosted rank w b c ∧ (w.base.progress b).status.active = true ∧ a.claims ≠ some c := by
    by_cases attaches : a = .addNested b c
    · subst attaches
      refine ⟨(fits.attaches b c rfl).2,?_,by simp [Action.claims]⟩
      rw [show (w.base.progress b).status = .running from allowed.1]
      rfl
    · have child' := State.parent_before child attaches
      have hosted := sound.hosted b c child'
      exact ⟨hosted,State.child_active acc child',hosted_unclaimed acc allowed child' hosted.kind⟩
  obtain ⟨hosted,active,unclaimed⟩ := before
  have active' : ((w.base.apply a).progress b).status.active = true := State.child_active later child
  have links := (State.apply_keeps w.base a b (State.active_unclaimed allowed active)).links
  refine ⟨(State.apply_keeps w.base a c unclaimed).kind.trans hosted.kind,?_⟩
  intro link member
  have member' : link ∈ (w.base.blocks b).links.entries := by
    rw [← links]
    exact member
  obtain ⟨e,listed,backs⟩ := hosted.listed link member'
  obtain ⟨i,held⟩ := link_held acc active member'
  exact ⟨e,listed,backs.kept sound.base allowed held (State.active_held acc allowed active active' held)⟩

theorem opAt_kept (sound : SoundBut rank w none) (allowed : w.base.Allowed a) (fits : Fits rank w a)
    (suspended : (w.frames c).suspended = some (.op o)) : OpAt rank (w.step a) c o := by
  have acc := reached_accounts sound.base
  obtain ⟨runs,awaiter,launched,climbs⟩ := sound.ops c o suspended
  have goes_on : a ≠ .bodyEnd c := by
    intro ends
    have free := fits.ends c ends
    simp [Coroutine.free,suspended] at free
  have unclaimed : a.claims ≠ some o := by
    intro claimed
    rw [fits.unawaited o claimed] at awaiter
    cases awaiter
  refine ⟨runs.kept acc allowed goes_on,awaiter,?_,?_⟩
  · have next := State.apply_next acc allowed o unclaimed
    intro armed
    rw [show ((w.base.apply a).progress o).status = .armed from armed] at next
    generalize (w.base.progress o).status = before at next launched
    cases next
    exact launched rfl
  · intro link member
    have links := (State.apply_keeps w.base a o unclaimed).links
    have member' : link ∈ (w.base.blocks o).links.entries := by
      rw [← links]
      exact member
    exact (climbs link member').kept acc allowed fits suspended (by simp)

-- One step of the task system keeps the books of the coroutines, but for the
-- hold it handles.
theorem step_sound (sound : SoundBut rank w none) (allowed : w.base.Allowed a) (fits : Fits rank w a) :
    SoundBut rank (w.step a) a.handles :=
  ⟨.step sound.base (show system.allowed w.base a from allowed),fun _ unhandled => holdAt_kept sound allowed fits unhandled,
    fun _ _ child => hosted_kept sound allowed fits child,fun _ _ suspended => opAt_kept sound allowed fits suspended⟩

end Step

section Calls

variable {w w' : RankWorld}

theorem Climbs.same (climbs : Climbs rank w c q) (base : w'.base = w.base) : Climbs rank w' c q := by
  intro p grasps
  refine climbs p ?_
  unfold Grasps at grasps ⊢
  rwa [base] at grasps

-- A call that changes only what is known of one coroutine keeps the books, if
-- it keeps the entries in use and the coroutine had no other hold on its way.
theorem SoundBut.reframe (sound : SoundBut rank w open_) (base : w'.base = w.base)
    (others : ∀ c', c' ≠ c → w'.frames c' = w.frames c')
    (guards : ∀ g p m e, w.base.holds g = .held p m (some c) → open_ ≠ some g → (some g,e) ∈ (w.frames c).declared →
      (some g,e) ∈ (w'.frames c).declared)
    (inherited : ∀ b e, (w.base.blocks c).nestedParent = some b → (none,e) ∈ (w.frames c).declared →
      (none,e) ∈ (w'.frames c).declared)
    (idle : ∀ g q m, w.base.holds g = .queued q m (some c) ∨ w.base.holds g = .granted q m (some c) → open_ = some g)
    (closes : ∀ h, open_ = some h → HoldAt rank w' h (w.base.holds h))
    (ops : ∀ c' o, (w'.frames c').suspended = some (.op o) → OpAt rank w' c' o) : SoundBut rank w' none := by
  refine ⟨by rw [base]; exact sound.base,?_,?_,ops⟩
  · intro h _
    rw [base]
    by_cases opened : open_ = some h
    · exact closes h opened
    have old := sound.holds h opened
    have used := guards h
    have pending := idle h
    generalize w.base.holds h = hold at old used pending ⊢
    cases old with
    | idle => exact .idle
    | @queued c' q m runs suspended climbs =>
      by_cases here : c' = c
      · subst here; exact absurd (pending q m (.inl rfl)) opened
      · exact .queued (by rw [base]; exact runs) (by rw [others c' here]; exact suspended) (climbs.same base)
    | @granted c' q m runs suspended =>
      by_cases here : c' = c
      · subst here; exact absurd (pending q m (.inr rfl)) opened
      · exact .granted (by rw [base]; exact runs) (by rw [others c' here]; exact suspended)
    | @held c' e p m runs listed backs =>
      have listed' : (some h,e) ∈ (w'.frames c').declared := by
        by_cases here : c' = c
        · subst here; exact used p m e rfl opened listed
        · rw [others c' here]; exact listed
      exact .held (by rw [base]; exact runs) listed' (by rw [base]; exact backs)
  · intro b c' child
    rw [base] at child
    obtain ⟨kind,listed⟩ := sound.hosted b c' child
    refine ⟨by rw [base]; exact kind,?_⟩
    intro link member
    rw [base] at member
    obtain ⟨e,listed,backs⟩ := listed link member
    refine ⟨e,?_,by rw [base]; exact backs⟩
    by_cases here : c' = c
    · subst here; exact inherited b e child listed
    · rw [others c' here]; exact listed

-- A coroutine with a hold on its way is suspended on it.
theorem SoundBut.pending (sound : SoundBut rank w open_)
    (pending : w.base.holds g = .queued q m (some c) ∨ w.base.holds g = .granted q m (some c)) :
    open_ = some g ∨ (w.frames c).suspended = some (.guard g) := by
  by_cases opened : open_ = some g
  · exact .inl opened
  have old := sound.holds g opened
  rcases pending with queued | granted
  · rw [queued] at old
    cases old with
    | queued _ suspended _ => exact .inr suspended
  · rw [granted] at old
    cases old with
    | granted _ suspended => exact .inr suspended

-- A block at rest owns no hold.
theorem SoundBut.none_owned (sound : SoundBut rank w none) (resting : (w.base.progress c).status.resting = true) :
    ∀ g, (w.base.holds g).owner ≠ some c := by
  intro g owned
  have awake : ∀ c', Runs w.base c' → c' ≠ c := by
    rintro c' runs rfl
    rw [runs.running] at resting
    cases resting
  have old := sound.holds g (by simp)
  generalize w.base.holds g = hold at old owned
  cases old with
  | idle => cases owned
  | queued runs _ _ => exact awake _ runs (Option.some.inj owned)
  | granted runs _ => exact awake _ runs (Option.some.inj owned)
  | held runs _ _ => exact awake _ runs (Option.some.inj owned)

theorem setFrame_own (w : RankWorld) (base : State) (c : BlockId) (co : Coroutine) : (w.setFrame base c co).frames c = co := by
  simp [setFrame]

theorem setFrame_other (w : RankWorld) (base : State) (co : Coroutine) (apart : c' ≠ c) :
    (w.setFrame base c co).frames c' = w.frames c' := by
  simp [setFrame,apart]

-- Calls that leave the nesting and the bodies alone.
theorem fits_handling (calm : a.claims = none) (unattached : ∀ b c, a ≠ .addNested b c) (goes_on : ∀ c, a ≠ .bodyEnd c)
    (lone : ∀ h p m c, a.handles = some h → (w.base.apply a).holds h = .held p m (some c) →
      (w.frames c).suspended = none ∨ (w.frames c).suspended = some (.guard h)) : Fits rank w a :=
  ⟨fun c ends => absurd ends (goes_on c),fun o claimed => absurd (calm.symm.trans claimed) (by simp),
    fun b c attaches => absurd attaches (unattached b c),lone⟩

theorem outside_fits (rank : PipeId → Nat) (outside : w.outside a = true) : Fits rank w a ∧ a.handles = none := by
  refine ⟨⟨?_,?_,?_,?_⟩,?_⟩
  · rintro c rfl
    exact outside
  · intro o claimed
    cases a <;> cases claimed <;> simp_all [RankWorld.outside,Action.claims]
  · rintro b c rfl
    cases outside
  · intro h p m c handled
    cases a with
    | resume f => cases f with
      | own b f => cases handled
      | fireHold h => cases outside
    | _ => cases handled <;> cases outside
  · cases a with
    | resume f => cases f with
      | own b f => rfl
      | fireHold h => cases outside
    | _ => first | rfl | cases outside

theorem base_sound (sound : SoundBut rank w none) (allowed : w.base.Allowed a) (outside : w.outside a = true) :
    SoundBut rank (w.apply rank (.base a)) none := by
  obtain ⟨fits,unhandled⟩ := outside_fits rank outside
  have stepped := step_sound sound allowed fits
  rw [unhandled] at stepped
  exact stepped

-- A new frame starts with what it was handed.
theorem framed_sound (sound : SoundBut rank w none) (resting : (w.base.progress c).status.resting = true)
    (unused : w.awaiter c = none) (ctx : AccessContext) :
    SoundBut rank (w.setFrame (w.base.apply (.createFrame c)) c (.inheriting ctx)) none := by
  have fits : Fits rank w (.createFrame c) := by
    refine ⟨?_,?_,?_,?_⟩
    · intro _ ends; cases ends
    · intro o claimed; cases claimed; exact unused
    · intro _ _ attaches; cases attaches
    · intro _ _ _ _ handled; cases handled
  have stepped := step_sound sound (a := .createFrame c) resting fits
  have unowned : ∀ g, ((w.step (.createFrame c)).base.holds g).owner ≠ some c := sound.none_owned resting
  refine stepped.reframe (c := c) rfl (fun c' apart => setFrame_other _ _ _ apart) ?_ ?_ ?_ ?_ ?_
  · intro g p m e held
    exact absurd (by rw [held]; rfl) (unowned g)
  · intro b e child
    simp [step,State.apply] at child
  · intro g q m pending
    rcases pending with queued | granted
    · exact absurd (by rw [queued]; rfl) (unowned g)
    · exact absurd (by rw [granted]; rfl) (unowned g)
  · intro h opened
    cases opened
  · intro c' o suspended
    by_cases here : c' = c
    · subst here
      rw [setFrame_own] at suspended
      cases suspended
    · rw [setFrame_other _ _ _ here] at suspended
      obtain ⟨runs,awaiter,launched,climbs⟩ := stepped.ops c' o suspended
      exact ⟨runs,awaiter,launched,fun link member => (climbs link member).same rfl⟩

theorem declares_listed (rank : PipeId → Nat) (s : State) (room : (s.blocks b).links.count ≤ maxEntries) (member : link ∈ (s.blocks b).links.entries) :
    ∃ e, (none,e) ∈ (Coroutine.inheriting (declares rank s b)).declared ∧ Backs rank s link.pipe e := by
  refine ⟨Entry.capture s.epochs link.pipe link.mode (some link.pipe) (rank link.pipe),?_,⟨rfl,rfl,rfl⟩⟩
  simp only [Coroutine.inheriting,declares,room,dif_pos]
  exact List.mem_map.mpr ⟨_,List.mem_map.mpr ⟨link,member,rfl⟩,rfl⟩

theorem node_sound (sound : SoundBut rank w none) (allowed : w.Allowed rank (.node b c)) :
    SoundBut rank (w.apply rank (.node b c)) none := by
  obtain ⟨running,_,room,resting,unused⟩ := allowed
  have apart : b ≠ c := by
    rintro rfl
    rw [running] at resting
    cases resting
  have framed := framed_sound sound resting unused (declares rank w.base b)
  generalize shape : w.setFrame (w.base.apply (.createFrame c)) c (.inheriting (declares rank w.base b)) = v at framed
  have base : v.base = w.base.apply (.createFrame c) := by rw [← shape]; rfl
  have frame : v.frames c = .inheriting (declares rank w.base b) := by rw [← shape,setFrame_own]
  have fits : Fits rank v (.addNested b c) := by
    refine ⟨?_,?_,?_,?_⟩
    · intro _ ends; cases ends
    · intro o claimed; cases claimed
    · intro _ _ attaches
      cases attaches
      refine ⟨by rw [frame]; rfl,⟨by simp [base,State.apply],?_⟩⟩
      intro link member
      rw [base] at member ⊢
      rw [frame]
      obtain ⟨e,listed,backs⟩ := declares_listed rank w.base room (by simpa [State.apply,apart] using member)
      exact ⟨e,listed,backs.source,backs.rank,backs.captured⟩
    · intro _ _ _ _ handled; cases handled
  have attaches : v.base.Allowed (.addNested b c) := by
    rw [base]
    refine ⟨?_,apart,?_⟩
    · simpa [State.apply,apart] using running
    · simp [State.apply,Status.resting]
  have stepped := step_sound framed attaches fits
  rw [← shape] at stepped
  exact stepped

theorem declare_declared (co : Coroutine) (room : co.full = false) (h : HoldId) (e : Entry) :
    (co.declare h e).declared = co.declared++[(some h,e)] ∧ (co.declare h e).suspended = none := by
  have lower : co.declared.length < maxEntries :=
    Nat.lt_of_le_of_ne co.bounded (by simpa [Coroutine.full] using room)
  simp [Coroutine.declare,lower]

theorem acquire_hold (s : State) (h : HoldId) (p : PipeId) (mode : Access) (owner : Option BlockId) :
    (s.apply (.acquire h p mode owner)).holds h = .held p mode owner ∨
      (s.apply (.acquire h p mode owner)).holds h = .queued p mode owner := by
  simp only [State.apply,State.acquire,State.setHold_holds,Function.update_self]
  split
  · exact .inl rfl
  · exact .inr rfl

theorem guardEntry_backs (rank : PipeId → Nat) (held : s.holds h = .held p mode owner) :
    Backs rank s p (guardEntry rank s h) := by
  simp only [guardEntry,held]
  exact ⟨rfl,rfl,rfl⟩

-- Whatever a coroutine grasps is current in its context.
theorem grasps_listed (sound : SoundBut rank w none) (grasps : w.Grasps c p) :
    ∃ e ∈ (w.frames c).context.entries, Backs rank w.base p e := by
  rcases grasps with ⟨h,m,held⟩ | ⟨b,link,child,member,rfl⟩
  · have old := sound.holds h (by simp)
    rw [held] at old
    cases old with
    | held _ listed backs => exact ⟨_,List.mem_map.mpr ⟨_,listed,rfl⟩,backs⟩
  · obtain ⟨e,listed,backs⟩ := (sound.hosted b c child).listed link member
    exact ⟨e,List.mem_map.mpr ⟨_,listed,rfl⟩,backs⟩

theorem check_climbs (sound : SoundBut rank w none)
    (passed : (w.frames c).context.checkAccessRank w.base.epochs rank q named = true)
    (unskipped : named = true → (w.frames c).context.check .checked w.base.epochs q .readOnly = .none) :
    Climbs rank w c q := by
  intro p grasps
  obtain ⟨e,member,backs⟩ := grasps_listed sound grasps
  have current : e.current w.base.epochs = true := by simp [Entry.current,backs.source,backs.captured]
  have climbs := AccessContext.checkAccessRank_climbs passed unskipped member backs.source current
  rwa [backs.rank] at climbs

-- Where a step has taken or given up a hold, the coroutine's entries follow.
theorem closed_sound (stepped : SoundBut rank w (some h)) (co : Coroutine)
    (resumed : (w.frames c).suspended = none ∨ (w.frames c).suspended = some (.guard h))
    (kept : ∀ d ∈ (w.frames c).declared, d.1 ≠ some h → d ∈ co.declared) (awake : ∀ o, co.suspended ≠ some (.op o))
    (closes : HoldAt rank (w.setFrame w.base c co) h (w.base.holds h)) : SoundBut rank (w.setFrame w.base c co) none := by
  refine stepped.reframe (c := c) rfl (fun c' apart => setFrame_other _ _ _ apart) ?_ ?_ ?_ ?_ ?_
  · intro g p m e _ apart listed
    rw [setFrame_own]
    refine kept _ listed ?_
    rintro same
    exact apart same.symm
  · intro b e _ listed
    rw [setFrame_own]
    exact kept _ listed (by simp)
  · intro g q m pending
    rcases stepped.pending pending with opened | suspended
    · exact opened
    · rcases resumed with none_left | guard
      · rw [suspended] at none_left; cases none_left
      · rw [suspended] at guard
        cases guard
        rfl
  · intro g opened
    cases opened
    exact closes
  · intro c' o suspended
    by_cases here : c' = c
    · subst here
      rw [setFrame_own] at suspended
      exact absurd suspended (awake o)
    · rw [setFrame_other _ _ _ here] at suspended
      obtain ⟨runs,awaiter,launched,climbs⟩ := stepped.ops c' o suspended
      exact ⟨runs,awaiter,launched,fun link member => (climbs link member).same rfl⟩

theorem guard_sound (sound : SoundBut rank w none) (allowed : w.Allowed rank (.guard c h p mode))
    (further : (w.frames c).context.check .checked w.base.epochs p .readOnly = .none) :
    SoundBut rank (w.apply rank (.guard c h p mode)) none := by
  obtain ⟨⟨kind,running,awake⟩,room,idle,passed⟩ := allowed
  have fits : Fits rank w (.acquire h p mode (some c)) := by
    refine fits_handling rfl (by simp) (by simp) ?_
    rintro g q m c' handled held
    cases handled
    rcases acquire_hold w.base h p mode (some c) with now | later
    · rw [now] at held
      cases held
      exact .inl awake
    · rw [later] at held
      cases held
  have stepped := step_sound sound (a := .acquire h p mode (some c)) idle fits
  have runs : Runs (w.base.apply (.acquire h p mode (some c))) c := ⟨kind,running⟩
  simp only [apply]
  rcases acquire_hold w.base h p mode (some c) with now | later
  · rw [if_pos (by rw [now]; rfl)]
    obtain ⟨declared,suspended⟩ := declare_declared (w.frames c) room h (guardEntry rank (w.base.apply (.acquire h p mode (some c))) h)
    refine closed_sound stepped _ (.inl awake) ?_ (by simp [suspended]) ?_
    · intro d listed _
      rw [declared]
      exact List.mem_append_left _ listed
    · rw [show (w.step (.acquire h p mode (some c))).base.holds h = _ from now]
      refine .held runs ?_ (guardEntry_backs rank now)
      rw [setFrame_own,declared]
      exact List.mem_append_right _ (List.mem_singleton.mpr rfl)
  · rw [if_neg (by rw [later]; simp [Hold.taken])]
    refine closed_sound stepped _ (.inl awake) (fun d listed _ => listed) (by simp [Coroutine.suspend]) ?_
    rw [show (w.step (.acquire h p mode (some c))).base.holds h = _ from later]
    refine .queued runs (by rw [setFrame_own]; rfl) ?_
    intro q grasps
    refine check_climbs sound passed (fun _ => further) q ?_
    rcases grasps with ⟨g,m,held⟩ | hosted
    · by_cases same : g = h
      · subst same
        cases later.symm.trans held
      · refine .inl ⟨g,m,?_⟩
        rw [← held]
        simp [step,setFrame,State.apply,State.acquire,same]
    · exact .inr hosted

theorem resumeGuard_sound (sound : SoundBut rank w none) (allowed : w.Allowed rank (.resumeGuard c h)) :
    SoundBut rank (w.apply rank (.resumeGuard c h)) none := by
  obtain ⟨owned,room,pending⟩ := allowed
  have acc := reached_accounts sound.base
  have fired := (acc.holds h).fired
  rw [State.holdprint_hold,show (w.base.holdprint h).fired = w.base.pending.count (.fireHold h) from rfl] at fired
  have positive := List.count_pos_iff.mpr pending
  have old := sound.holds h (by simp)
  generalize before : w.base.holds h = hold at old owned fired
  cases old with
  | idle => cases owned
  | queued _ _ _ => simp only at fired; omega
  | held _ _ _ => simp only at fired; omega
  | @granted c' p mode runs suspended =>
    cases owned
    have after : (w.base.apply (.resume (.fireHold h))).holds h = .held p mode (some c) := by
      simp [State.apply,State.runFrame,State.fireHold,before]
    have fits : Fits rank w (.resume (.fireHold h)) := by
      refine fits_handling rfl (by simp) (by simp) ?_
      rintro g q m c' handled held
      cases handled
      cases after.symm.trans held
      exact .inr suspended
    have stepped := step_sound sound (a := .resume (.fireHold h)) pending fits
    obtain ⟨declared,awake⟩ := declare_declared (w.frames c) room h (guardEntry rank (w.base.apply (.resume (.fireHold h))) h)
    refine closed_sound stepped _ (.inr suspended) ?_ (by simp [awake]) ?_
    · intro d listed _
      rw [declared]
      exact List.mem_append_left _ listed
    · rw [show (w.step (.resume (.fireHold h))).base.holds h = _ from after]
      refine .held (runs.kept (a := .resume (.fireHold h)) acc pending (by simp)) ?_ (guardEntry_backs rank after)
      rw [setFrame_own,declared]
      exact List.mem_append_right _ (List.mem_singleton.mpr rfl)

theorem dropGuard_sound (sound : SoundBut rank w none) (allowed : w.Allowed rank (.dropGuard c h)) :
    SoundBut rank (w.apply rank (.dropGuard c h)) none := by
  obtain ⟨⟨_,_,awake⟩,taken,_⟩ := allowed
  obtain ⟨p,mode,owner,held⟩ := State.taken_held taken
  have after : (w.base.apply (.releaseHold h)).holds h = .idle := by
    have next := State.releasePipe_hold (w.base.setHold h .idle) p ⟨.hold h owner,mode⟩ h
    simp only [State.apply,State.releaseHold,held]
    generalize ((w.base.setHold h .idle).releasePipe p ⟨.hold h owner,mode⟩).holds h = hold at next ⊢
    simp only [State.setHold_holds,Function.update_self] at next
    cases next
    rfl
  have fits : Fits rank w (.releaseHold h) := by
    refine fits_handling rfl (by simp) (by simp) ?_
    rintro g q m c' handled held
    cases handled
    cases after.symm.trans held
  have stepped := step_sound sound (a := .releaseHold h) taken fits
  refine closed_sound stepped _ (.inl awake) ?_ ?_ ?_
  · intro d listed apart
    exact List.mem_filter.mpr ⟨listed,by simpa using apart⟩
  · intro o suspended
    cases awake.symm.trans suspended
  · rw [show (w.step (.releaseHold h)).base.holds h = _ from after]
    exact .idle

-- A coroutine starts or stops to wait for the op `o`.
theorem switched_sound (sound : SoundBut rank w none) (on : Option Await) (by_ : Option BlockId)
    (awake : ∀ g, (w.frames c).suspended ≠ some (.guard g)) (alone : ∀ c', w.awaiter o = some c' → c' = c)
    (own : ∀ o', on = some (.op o') → o' = o ∧ by_ = some c ∧ Runs w.base c ∧ (w.base.progress o').status ≠ .armed ∧
      ∀ link ∈ (w.base.blocks o').links.entries, Climbs rank w c link.pipe) :
    SoundBut rank {w.setFrame w.base c ((w.frames c).suspend on) with awaiter := Function.update w.awaiter o by_} none := by
  refine sound.reframe (c := c) rfl (fun c' apart => setFrame_other w w.base _ apart) ?_ ?_ ?_ ?_ ?_
  · intro g p m e _ _ listed
    simpa [setFrame,Coroutine.suspend] using listed
  · intro b e _ listed
    simpa [setFrame,Coroutine.suspend] using listed
  · intro g q m pending
    rcases sound.pending pending with opened | suspended
    · exact opened
    · exact absurd suspended (awake g)
  · intro h opened
    cases opened
  · intro c' o' suspended
    by_cases here : c' = c
    · subst here
      obtain ⟨rfl,rfl,runs,launched,climbs⟩ := own o' (by simpa [setFrame,Coroutine.suspend] using suspended)
      exact ⟨runs,by simp,launched,fun link member => (climbs link member).same rfl⟩
    · obtain ⟨runs,awaiter,launched,climbs⟩ := sound.ops c' o' (by simpa [setFrame,here] using suspended)
      have apart : o' ≠ o := by
        rintro rfl
        exact here (alone c' awaiter)
      exact ⟨runs,by simpa [apart] using awaiter,launched,fun link member => (climbs link member).same rfl⟩

theorem awaitOp_sound (sound : SoundBut rank w none) (allowed : w.Allowed rank (.awaitOp c o)) :
    SoundBut rank (w.apply rank (.awaitOp c o)) none := by
  obtain ⟨⟨kind,running,awake⟩,_,launched,unawaited,passed⟩ := allowed
  refine switched_sound sound (some (.op o)) (some c) (by simp [awake]) (by simp [unawaited]) ?_
  rintro o' same
  cases same
  exact ⟨rfl,rfl,⟨kind,running⟩,launched,fun link member => check_climbs sound (passed link member) (by simp)⟩

theorem resumeOp_sound (sound : SoundBut rank w none) (allowed : w.Allowed rank (.resumeOp c o)) :
    SoundBut rank (w.apply rank (.resumeOp c o)) none := by
  obtain ⟨waiting,_⟩ := allowed
  have awaited := (sound.ops c o waiting).awaiter
  refine switched_sound sound none none (by simp [waiting]) ?_ (by simp)
  intro c' other
  exact Option.some.inj (other.symm.trans awaited)

end Calls

-- An await asks for an object that its context does not list.
def further (w : RankWorld) : RankAction → Prop
  | .guard c _ p _ => (w.frames c).context.check .checked w.base.epochs p .readOnly = .none
  | _ => True

theorem apply_sound {w : RankWorld} (sound : SoundBut rank w none) (allowed : w.Allowed rank a) (further : w.further a) :
    SoundBut rank (w.apply rank a) none := by
  cases a with
  | base a => exact base_sound sound allowed.1 allowed.2
  | node b c => exact node_sound sound allowed
  | detached c snapshot => exact framed_sound sound allowed.1 allowed.2 snapshot
  | guard c h p mode => exact guard_sound sound allowed further
  | resumeGuard c h => exact resumeGuard_sound sound allowed
  | dropGuard c h => exact dropGuard_sound sound allowed
  | awaitOp c o => exact awaitOp_sound sound allowed
  | resumeOp c o => exact resumeOp_sound sound allowed

end RankWorld
end Macrame

import Macrame.BlockSteps
import Macrame.Lifecycle

namespace Macrame

-- `release`, cut where a thread can stall in it: the drop of its lock, and the
-- read of `pipe_count` the result is held against. Where the result is 0 or the
-- flag no field is read to decide, and what it leads to is the frame pending then.
-- The store of `prereq_cancelled` comes before the drop, under the lock to be dropped.
structure Comparison where
  block : BlockId
  now : Int
  -- meanwhile the last lock has been dropped, and the block can settle
  late : Bool := false
  deriving DecidableEq, Repr

-- By whose doing the first link of a block has been entered.
inductive Entrant where
  | start
  | release
  deriving DecidableEq, Repr

def LocalFrame.releases : LocalFrame → Option Bool
  | .turnRelease => some false
  | .childRelease cancelled => some cancelled
  | _ => none

def Action.releases : Action → Bool
  | .resume (.own _ f) => f.releases.isSome
  | _ => false

-- Nodes and ops are armed again in place. The other blocks are counted, and a
-- releaser has a reference of its own: the block is not made anew under it.
def Kind.lasting : Kind → Bool
  | .graphNode => true
  | .callerOwned => true
  | _ => false

-- The kind and the links an action gives a block.
def Action.rekinds : Action → BlockId → Option Kind
  | .arm c kind _ _,b => if c = b then some kind else none
  | .createFrame c,b => if c = b then some .coroutine else none
  | _,_ => none

def Action.binds : Action → BlockId → Option LinkTable
  | .arm c _ links _,b => if c = b then some links else none
  | .rebind c links,b => if c = b then some links else none
  | _,_ => none

-- `entrants` are those of the present cycle; a stray is a read of the block of
-- an op that its owner may have destroyed or fired again.
structure Stepped where
  base : State := .initial
  comparing : List Comparison := []
  entrants : BlockId → List Entrant := fun _ => []
  strays : List Comparison := []

inductive SteppedAction where
  | base (a : Action)
  | decrement (b : BlockId) (f : LocalFrame)
  | compare (k : Comparison)
  deriving DecidableEq, Repr

namespace Stepped

def now (s : Stepped) (b : BlockId) : Int := (s.base.blocks b).numLocks-1

-- The block an action takes the last lock from, ahead of the body or behind it.
def frees (s : Stepped) : SteppedAction → Option BlockId
  | .base (.bodyEnd b) => if s.now b = executionFlag then some b else none
  | .decrement b _ => if s.now b = 0 ∨ s.now b = executionFlag then some b else none
  | _ => none

def enters (s : Stepped) : Action → BlockId → List Entrant
  | .arm b _ _ _ => Function.update s.entrants b []
  | .createFrame b => Function.update s.entrants b []
  | .launch b =>
    if (s.base.blocks b).links.count = 0 then s.entrants
    else Function.update s.entrants b (s.entrants b++[.start])
  | .tryInline b =>
    if (s.base.blocks b).links.count ≠ 0 ∧
      (s.base.blocks b).links.entries.all (fun link => (s.base.pipes link.pipe).pipe.free link.mode)
    then Function.update s.entrants b (s.entrants b++[.start])
    else s.entrants
  | .resume (.own b .enterFirst) => Function.update s.entrants b (s.entrants b++[.release])
  | _ => s.entrants

def decrement (s : Stepped) (b : BlockId) (f : LocalFrame) : Stepped :=
  if s.now b = 0 ∨ s.now b = executionFlag then {s with base := s.base.runFrame (.own b f)}
  else {s with
    base := (s.base.drop (.own b f)).setBlock b ((s.base.blocks b).release (f.releases.getD false)).1
    comparing := ⟨b,s.now b,false⟩ :: s.comparing}

def compare (s : Stepped) (k : Comparison) : Stepped :=
  let blk := s.base.blocks k.block
  let pr := s.base.progress k.block
  {s with
    base :=
      if k.now = blk.links.count then
        (s.base.setProgress k.block {pr with thresholds := pr.thresholds+1}).push (.own k.block .enterFirst)
      else s.base
    comparing := s.comparing.erase k
    strays := if k.late = true ∧ blk.kind = .callerOwned then k :: s.strays else s.strays}

def step (s : Stepped) : SteppedAction → Stepped
  | .base a => {s with base := s.base.apply a,entrants := s.enters a}
  | .decrement b f => s.decrement b f
  | .compare k => s.compare k

def apply (s : Stepped) (a : SteppedAction) : Stepped :=
  {s.step a with
    comparing := (s.step a).comparing.map (fun k => if s.frees a = some k.block then {k with late := true} else k)}

def Allowed (s : Stepped) : SteppedAction → Prop
  | .base a => s.base.Allowed a ∧ a.releases = false ∧
    ∀ k ∈ s.comparing, ∀ kind ∈ a.rekinds k.block, kind = (s.base.blocks k.block).kind ∧ kind.lasting = true
  | .decrement b f => .own b f ∈ s.base.pending ∧ f.releases.isSome = true
  | .compare k => k ∈ s.comparing

instance (s : Stepped) : (a : SteppedAction) → Decidable (s.Allowed a)
  | .base a => inferInstanceAs (Decidable (s.base.Allowed a ∧ a.releases = false ∧
    ∀ k ∈ s.comparing, ∀ kind ∈ a.rekinds k.block, kind = (s.base.blocks k.block).kind ∧ kind.lasting = true))
  | .decrement b f => inferInstanceAs (Decidable (.own b f ∈ s.base.pending ∧ f.releases.isSome = true))
  | .compare k => inferInstanceAs (Decidable (k ∈ s.comparing))

-- No thread stands ahead of its read when the block is bound to as many links
-- as the thread's result, nor when the last lock of an op is dropped.
def Fits (s : Stepped) (a : SteppedAction) : Prop :=
  ∀ k ∈ s.comparing,
    (∀ c, a = .base c → ∀ links ∈ c.binds k.block, k.now ≠ links.count) ∧
    (s.frees a = some k.block → (s.base.blocks k.block).kind ≠ .callerOwned)

instance (s : Stepped) (a : SteppedAction) : Decidable (s.Fits a) :=
  match a with
  | .base c => decidable_of_iff (∀ k ∈ s.comparing, (∀ links ∈ c.binds k.block, k.now ≠ links.count) ∧
      (s.frees (.base c) = some k.block → (s.base.blocks k.block).kind ≠ .callerOwned))
    (by simp [Fits])
  | .decrement b f => decidable_of_iff (∀ k ∈ s.comparing,
      s.frees (.decrement b f) = some k.block → (s.base.blocks k.block).kind ≠ .callerOwned)
    (by simp [Fits])
  | .compare j => .isTrue (fun _ _ => ⟨fun _ other => (by cases other),fun freed => (by cases freed)⟩)

-- What a cycle has to itself.
structure Separate (s : Stepped) : Prop where
  entrants : ∀ b, s.entrants b =
    if (s.base.progress b).status ≠ .idle ∧ (s.base.progress b).status ≠ .armed ∧ (s.base.blocks b).links.count ≠ 0
    then [.start] else []
  unbidden : ∀ b, .own b .enterFirst ∉ s.base.pending
  fresh : ∀ b f, (s.base.progress b).status = .armed → .own b f ∉ s.base.pending
  once : ∀ b, (s.base.progress b).zeroCrossings ≤ 1 ∧ (s.base.progress b).flagCrossings ≤ 1
  strays : s.strays = []

end Stepped

def steppedSystem : Machines.Machine Stepped SteppedAction := ⟨(· = {}),Stepped.Allowed,Stepped.apply⟩

instance (s : Stepped) (a : SteppedAction) : Decidable (steppedSystem.allowed s a) :=
  inferInstanceAs (Decidable (s.Allowed a))

theorem Block.release_open {blk : Block} (early : blk.numLocks-1 ≠ 0) (unflagged : blk.numLocks-1 ≠ executionFlag) :
    (blk.release heard).2 ≠ .dispatch ∧ (blk.release heard).2 ≠ .complete := by
  simp only [release,early,unflagged,ite_false]
  split <;> simp

namespace State

-- A block's kind and links come from the actions that say so.
theorem kind_kept (s : State) (a : Action) (b : BlockId) (unkinded : a.rekinds b = none) :
    ((s.apply a).blocks b).kind = (s.blocks b).kind ∧
      (a.binds b = none → ((s.apply a).blocks b).links = (s.blocks b).links) := by
  by_cases claimed : a.claims = some b
  · cases a with
    | arm c kind links token =>
      cases claimed
      simp [Action.rekinds] at unkinded
    | rebind c links =>
      cases claimed
      simp [apply,Action.binds]
    | launch c =>
      cases claimed
      have keeps : Keeps (s.blocks b) ((s.enterLink b 0).blocks b) := (enterLink_change (a := .launch b) s b b 0).keeps
      simp only [apply,launch]
      split
      · exact ⟨rfl,fun _ => rfl⟩
      · exact ⟨keeps.kind,fun _ => keeps.links⟩
    | tryInline c =>
      cases claimed
      simp only [apply,tryInline]
      split <;> simp
    | createFrame c =>
      cases claimed
      simp [Action.rekinds] at unkinded
    | settleBare c cancel => exact ⟨rfl,fun _ => rfl⟩
    | _ => cases claimed
  · exact ⟨(apply_keeps s a b claimed).kind,fun _ => (apply_keeps s a b claimed).links⟩

theorem links_bound (s : State) (a : Action) (b : BlockId) (bound : a.binds b = some links) :
    ((s.apply a).blocks b).links = links := by
  cases a <;> simp only [Action.binds,reduceCtorEq] at bound
  all_goals
    split at bound
    · rename_i same
      cases bound
      subst same
      simp [apply]
    · cases bound

-- A release under way counts among the turns or the children of its block, so
-- its result is not the count of the links: that is the sum of the turns ahead
-- of the first, whose lock nobody gives back twice.
theorem releasing_result (acc : Accounts s) (pending : .own b f ∈ s.pending) (releases : f.releases = some heard)
    (early : (s.blocks b).numLocks-1 ≠ 0) (unflagged : (s.blocks b).numLocks-1 ≠ executionFlag) :
    (s.blocks b).numLocks-1 ≠ (s.blocks b).links.count ∧
      s.runFrame (.own b f) = (s.drop (.own b f)).setBlock b ((s.blocks b).release heard).1 := by
  have branch : ((s.blocks b).release heard).2 = .waiting := by
    cases f with
    | turnRelease =>
      cases releases
      rcases (acc.blocks b).turn_release (pending_frames pending) with ⟨branch,_⟩ | ⟨branch,_⟩
      · exact branch
      · exact absurd branch (Block.release_open early unflagged).1
    | childRelease cancelled =>
      cases releases
      rcases (acc.blocks b).child_release (pending_frames pending) with ⟨branch,_⟩ | ⟨branch,_⟩
      · exact branch
      · exact absurd branch (Block.release_open early unflagged).2
    | _ => cases releases
  refine ⟨?_,?_⟩
  · intro same
    simp only [Block.release,early,unflagged,ite_false,if_pos same] at branch
    cases branch
  · cases f <;> cases releases <;> simp only [runFrame,runOwn,releaseBlock,drop_blocks,branch]

theorem enterLink_own (s : State) (b : BlockId) (within : i < (s.blocks b).links.count) :
    ((s.enterLink b i).progress b).status = .admitted i ∨ ((s.enterLink b i).progress b).status = .waiting i := by
  obtain ⟨link,place⟩ : ∃ link, (s.blocks b).links.entries[i]? = some link := ⟨_,List.getElem?_eq_getElem within⟩
  simp only [enterLink,place]
  split
  · exact .inl (by rw [push_progress,setStatus_status,if_pos rfl])
  · exact .inr (by rw [setStatus_status,if_pos rfl])

theorem armed_alone (acc : Accounts s) (armed : (s.progress b).status = .armed) : .own b f ∉ s.pending := by
  intro pending
  have positive := pending_frames pending
  by_cases control : f.control = true
  · rw [(acc.blocks b).control f control,footprint_progress,armed] at positive
    simp [Status.expects] at positive
  · have locks := (acc.blocks b).locks
    simp only [LocksSound,footprint_progress,armed,Footprint.turns,Footprint.children] at locks
    cases f with
    | turnRelease => omega
    | childRelease heard => cases heard <;> omega
    | _ => simp [LocalFrame.control] at control

end State

-- Who has entered the first link of a block that stands where it does.
def entered (s : State) (b : BlockId) : List Entrant :=
  if (s.progress b).status ≠ .idle ∧ (s.progress b).status ≠ .armed ∧ (s.blocks b).links.count ≠ 0 then [.start] else []

theorem Status.Next.launched (next : Next ends kind before after) :
    (after = .idle ↔ before = .idle) ∧ (after = .armed ↔ before = .armed) := by
  cases next <;> simp

namespace Stepped

variable {s : Stepped}

-- What holds as long as every step fits.
structure Clean (s : Stepped) : Prop where
  reached : Machines.Reached system s.base
  entrants : ∀ b, s.entrants b = entered s.base b
  apart : ∀ k ∈ s.comparing, k.now ≠ (s.base.blocks k.block).links.count
  early : ∀ k ∈ s.comparing, k.late = true → (s.base.blocks k.block).kind ≠ .callerOwned
  strays : s.strays = []

theorem entered_alike {s t : State} (links : (t.blocks b).links = (s.blocks b).links)
    (idle : (t.progress b).status = .idle ↔ (s.progress b).status = .idle)
    (armed : (t.progress b).status = .armed ↔ (s.progress b).status = .armed) : entered t b = entered s b := by
  simp only [entered,links,ne_eq,idle,armed]

-- The record of the entrants keeps step with the base.
theorem enters_entered (clean : s.Clean) (allowed : s.base.Allowed a) (b : BlockId) :
    s.enters a b = entered (s.base.apply a) b := by
  have acc := reached_accounts clean.reached
  have here := clean.entrants b
  by_cases claimed : a.claims = some b
  · cases a with
    | arm c kind links token =>
      cases claimed
      simp [enters,entered,State.apply]
    | rebind c links =>
      cases claimed
      have armed : (s.base.progress b).status = .armed := allowed.1
      simpa [enters,entered,State.apply,armed] using here
    | launch c =>
      cases claimed
      have armed : (s.base.progress b).status = .armed := allowed.1
      simp only [entered,armed,ne_eq,not_true_eq_false,false_and,and_false,ite_false] at here
      have links := (State.kind_kept s.base (.launch b) b rfl).2 rfl
      by_cases linkless : (s.base.blocks b).links.count = 0
      · simp [enters,entered,links,linkless,here]
      · have begun := State.enterLink_own s.base b (Nat.pos_of_ne_zero linkless)
        simp only [enters,entered,links,linkless,ite_false,Function.update_self,here]
        simp only [State.apply,State.launch,linkless,ite_false]
        rcases begun with status | status <;> simp [status,linkless]
    | tryInline c =>
      cases claimed
      have armed : (s.base.progress b).status = .armed := allowed.1
      simp only [entered,armed,ne_eq,not_true_eq_false,false_and,and_false,ite_false] at here
      have links := (State.kind_kept s.base (.tryInline b) b rfl).2 rfl
      simp only [enters,entered,links]
      simp only [State.apply,State.tryInline]
      by_cases free : (s.base.blocks b).links.entries.all (fun link => (s.base.pipes link.pipe).pipe.free link.mode) = true
      · by_cases linkless : (s.base.blocks b).links.count = 0 <;> simp [free,linkless,here]
      · simp [free,here,armed]
    | createFrame c =>
      cases claimed
      simp [enters,entered,State.apply,LinkTable.empty,LinkTable.count]
    | settleBare c cancel =>
      cases claimed
      have linkless : (s.base.blocks b).links.count = 0 := (acc.blocks b).cycle.linkless (.inl allowed.2)
      simpa [enters,entered,linkless,State.apply] using here
    | _ => cases claimed
  · have next := State.apply_next acc allowed b claimed
    have links := (State.apply_keeps s.base a b claimed).links
    rw [entered_alike links next.launched.1 next.launched.2,← here]
    cases a with
    | arm c kind links token => exact Function.update_of_ne (fun same => claimed (by rw [same]; rfl)) _ _
    | createFrame c => exact Function.update_of_ne (fun same => claimed (by rw [same]; rfl)) _ _
    | launch c =>
      simp only [enters]
      split
      · rfl
      · exact Function.update_of_ne (fun same => claimed (by rw [same]; rfl)) _ _
    | tryInline c =>
      simp only [enters]
      split
      · exact Function.update_of_ne (fun same => claimed (by rw [same]; rfl)) _ _
      · rfl
    | resume f =>
      cases f with
      | fireHold h => rfl
      | own c f =>
        cases f with
        | enterFirst => exact absurd allowed (State.enterFirst_quiet acc)
        | _ => rfl
    | _ => rfl

-- The base has moved by one of its own steps, which `comparing` has met.
theorem Clean.moved {t : Stepped} (clean : s.Clean) (allowed : s.base.Allowed a) (base : t.base = s.base.apply a)
    (entrants : t.entrants = s.enters a) (strays : t.strays = s.strays)
    (apart : ∀ k ∈ t.comparing, k.now ≠ (t.base.blocks k.block).links.count)
    (early : ∀ k ∈ t.comparing, k.late = true → (t.base.blocks k.block).kind ≠ .callerOwned) : t.Clean where
  reached := by rw [base]; exact .step clean.reached allowed
  entrants := fun b => by rw [entrants,base]; exact enters_entered clean allowed b
  apart := apart
  early := early
  strays := strays.trans clean.strays

-- Marking a comparison as late is all that is done to those of the others.
theorem comparing_step (member : k ∈ (s.apply a).comparing) : ∃ j ∈ (s.step a).comparing,
    k.block = j.block ∧ k.now = j.now ∧ (k.late = true → j.late = true ∨ s.frees a = some j.block) := by
  obtain ⟨j,there,shape⟩ := List.mem_map.mp member
  refine ⟨j,there,?_⟩
  subst shape
  by_cases freed : s.frees a = some j.block
  · simp [freed]
  · simp [freed]

theorem kind_renewed (s : State) (a : Action) (b : BlockId)
    (lasting : ∀ kind ∈ a.rekinds b, kind = (s.blocks b).kind ∧ kind.lasting = true) :
    ((s.apply a).blocks b).kind = (s.blocks b).kind := by
  cases rekinded : a.rekinds b with
  | none => exact (State.kind_kept s a b rekinded).1
  | some kind =>
    have renewed := lasting kind rekinded
    cases a with
    | arm c shape links token =>
      simp only [Action.rekinds] at rekinded
      split at rekinded
      · rename_i here
        cases rekinded
        subst here
        simpa [State.apply] using renewed.1
      · cases rekinded
    | createFrame c =>
      simp only [Action.rekinds] at rekinded
      split at rekinded
      · cases rekinded
        exact absurd renewed.2 (by decide)
      · cases rekinded
    | _ => cases rekinded

theorem links_renewed (s : State) (a : Action) (b : BlockId) (unbound : a.binds b = none)
    (lasting : ∀ kind ∈ a.rekinds b, kind = (s.blocks b).kind ∧ kind.lasting = true) :
    ((s.apply a).blocks b).links = (s.blocks b).links := by
  refine (State.kind_kept s a b ?_).2 unbound
  cases a with
  | arm c kind links token =>
    simp only [Action.binds] at unbound
    simp only [Action.rekinds]
    split at unbound
    · cases unbound
    · rename_i other
      exact if_neg other
  | createFrame c =>
    by_contra rekinded
    have here : c = b := by
      by_contra other
      exact rekinded (if_neg other)
    exact absurd (lasting .coroutine (if_pos here)).2 (by decide)
  | _ => rfl

theorem apply_clean (clean : s.Clean) (allowed : s.Allowed a) (fits : s.Fits a) : (s.apply a).Clean := by
  have acc := reached_accounts clean.reached
  cases a with
  | base a =>
    obtain ⟨may,_,lasting⟩ := allowed
    refine clean.moved may rfl rfl rfl ?_ ?_
    · intro k member
      obtain ⟨j,there,block,now,_⟩ := comparing_step member
      rw [block,now]
      show j.now ≠ ((s.base.apply a).blocks j.block).links.count
      cases bound : a.binds j.block with
      | none =>
        rw [links_renewed s.base a j.block bound (lasting j there)]
        exact clean.apart j there
      | some links =>
        rw [State.links_bound s.base a j.block bound]
        exact (fits j there).1 a rfl links bound
    · intro k member late
      obtain ⟨j,there,block,_,marked⟩ := comparing_step member
      rw [block]
      show ((s.base.apply a).blocks j.block).kind ≠ .callerOwned
      rw [kind_renewed s.base a j.block (lasting j there)]
      rcases marked late with before | freed
      · exact clean.early j there before
      · exact (fits j there).2 freed
  | decrement b f =>
    obtain ⟨pending,releases⟩ := allowed
    obtain ⟨heard,releases⟩ := Option.isSome_iff_exists.mp releases
    have entrants : s.enters (.resume (.own b f)) = s.entrants := by cases f <;> first | rfl | cases releases
    -- either way the base makes the step it makes in one, and a thread that has
    -- to compare is one whose result is not the count of the links
    have stepped : (s.decrement b f).base = s.base.apply (.resume (.own b f)) ∧
        (s.decrement b f).entrants = s.entrants ∧ (s.decrement b f).strays = s.strays ∧
        ∀ j ∈ (s.decrement b f).comparing, j ∈ s.comparing ∨
          j.late = false ∧ s.frees (.decrement b f) = none ∧ j.now ≠ (s.base.blocks j.block).links.count := by
      by_cases last : s.now b = 0 ∨ s.now b = executionFlag
      · simp only [decrement,if_pos last]
        exact ⟨rfl,trivial,trivial,fun j member => .inl member⟩
      · obtain ⟨early,unflagged⟩ := not_or.mp last
        obtain ⟨apart,base⟩ := State.releasing_result acc pending releases early unflagged
        simp only [decrement,if_neg last,releases,Option.getD_some]
        refine ⟨base.symm,trivial,trivial,?_⟩
        intro j member
        rcases List.mem_cons.mp member with here | there
        · subst here
          exact .inr ⟨rfl,if_neg last,apart⟩
        · exact .inl there
    obtain ⟨base,entrants',strays,comparing⟩ := stepped
    have keeps : ∀ c, State.Keeps (s.base.blocks c) ((s.base.apply (.resume (.own b f))).blocks c) :=
      fun c => State.apply_keeps s.base (.resume (.own b f)) c (by simp [Action.claims])
    have moved : (s.apply (.decrement b f)).base = s.base.apply (.resume (.own b f)) := base
    have may : s.base.Allowed (.resume (.own b f)) := pending
    refine clean.moved may moved (entrants'.trans entrants.symm) strays ?_ ?_
    · intro k member
      obtain ⟨j,there,block,now,_⟩ := comparing_step member
      rw [moved,block,now,(keeps j.block).links]
      rcases comparing j there with old | ⟨_,_,apart⟩
      · exact clean.apart j old
      · exact apart
    · intro k member late
      obtain ⟨j,there,block,_,marked⟩ := comparing_step member
      rw [moved,block,(keeps j.block).kind]
      rcases comparing j there with old | ⟨fresh,unfreed,_⟩
      · rcases marked late with before | freed
        · exact clean.early j old before
        · exact (fits j old).2 freed
      · rcases marked late with before | freed
        · rw [fresh] at before
          cases before
        · rw [unfreed] at freed
          cases freed
  | compare k =>
    have apart := clean.apart k allowed
    have early := clean.early k allowed
    have still : (s.apply (.compare k)).base = s.base := if_neg apart
    have kept : ∀ j ∈ (s.apply (.compare k)).comparing, j ∈ s.comparing := by
      intro j member
      obtain ⟨i,there,shape⟩ := List.mem_map.mp member
      subst shape
      exact List.mem_of_mem_erase there
    refine ⟨by rw [still]; exact clean.reached,fun b => ?_,?_,?_,?_⟩
    · rw [still]
      exact clean.entrants b
    · intro j member
      rw [still]
      exact clean.apart j (kept j member)
    · intro j member
      rw [still]
      exact clean.early j (kept j member)
    · have unstrayed : ¬ (k.late = true ∧ (s.base.blocks k.block).kind = .callerOwned) := fun both => early both.1 both.2
      exact (if_neg unstrayed).trans clean.strays

theorem Clean.separate (clean : s.Clean) : s.Separate := by
  have acc := reached_accounts clean.reached
  refine ⟨clean.entrants,fun b => State.enterFirst_quiet acc,fun b f armed => State.armed_alone acc armed,?_,clean.strays⟩
  intro b
  have cycle : CycleSound (s.base.blocks b) (s.base.progress b) := (acc.blocks b).cycle
  rw [cycle.zeroCrossings,cycle.flagCrossings]
  exact ⟨once,once⟩

theorem initial_clean : Clean {} :=
  ⟨.start rfl,fun _ => rfl,fun _ member => (by cases member),fun _ member => (by cases member),rfl⟩

theorem freed_kind (freed : s.frees a = some b) : ((s.apply a).base.blocks b).kind = (s.base.blocks b).kind := by
  cases a with
  | base c =>
    cases c with
    | bodyEnd e => exact (State.apply_keeps s.base (.bodyEnd e) b (by simp [Action.claims])).kind
    | _ => cases freed
  | decrement c f =>
    simp only [frees] at freed
    split at freed
    · rename_i last
      have base : (s.apply (.decrement c f)).base = s.base.apply (.resume (.own c f)) := by
        simp only [apply,step,decrement,if_pos last]
        rfl
      rw [base]
      exact (State.apply_keeps s.base (.resume (.own c f)) b (by simp [Action.claims])).kind
    · cases freed
  | compare k => cases freed

theorem freed_comparing (freed : s.frees a = some b) : (s.step a).comparing = s.comparing := by
  cases a with
  | base c => rfl
  | decrement c f =>
    simp only [frees] at freed
    split at freed
    · rename_i last
      simp only [step,decrement,if_pos last]
    · cases freed
  | compare k => cases freed

-- A step that does not fit leaves a thread whose read spoils the cycle.
theorem unfit_spoils (unfit : ¬ s.Fits a) :
    ∃ k, (s.apply a).Allowed (.compare k) ∧ ¬ ((s.apply a).apply (.compare k)).Separate := by
  simp only [Fits,not_forall] at unfit
  obtain ⟨j,there,broken⟩ := unfit
  by_cases freed : s.frees a = some j.block ∧ (s.base.blocks j.block).kind = .callerOwned
  · obtain ⟨freed,owned⟩ := freed
    have member : {j with late := true} ∈ (s.apply a).comparing := by
      refine List.mem_map.mpr ⟨j,?_,if_pos freed⟩
      rw [freed_comparing freed]
      exact there
    refine ⟨{j with late := true},member,?_⟩
    intro separate
    have stray : ((s.apply a).apply (.compare {j with late := true})).strays = {j with late := true} :: (s.apply a).strays :=
      if_pos ⟨rfl,(freed_kind freed).trans owned⟩
    rw [separate.strays] at stray
    cases stray
  · have rebound : ∃ c, a = .base c ∧ ∃ links, c.binds j.block = some links ∧ j.now = links.count := by
      by_contra none_such
      refine broken ⟨?_,fun here owned => freed ⟨here,owned⟩⟩
      intro c base links bound same
      exact none_such ⟨c,base,links,bound,same⟩
    obtain ⟨c,rfl,links,bound,same⟩ := rebound
    have unfreed : s.frees (.base c) = none := by
      cases c <;> first | rfl | cases bound
    have member : j ∈ (s.apply (.base c)).comparing := by
      refine List.mem_map.mpr ⟨j,there,if_neg ?_⟩
      rw [unfreed]
      simp
    refine ⟨j,member,?_⟩
    intro separate
    have count : j.now = ((s.apply (.base c)).base.blocks j.block).links.count :=
      same.trans (congrArg (fun table => (LinkTable.count table : Int)) (State.links_bound s.base c j.block bound).symm)
    refine separate.unbidden j.block ?_
    have base : ((s.apply (.base c)).apply (.compare j)).base =
        ((s.apply (.base c)).base.setProgress j.block _).push (.own j.block .enterFirst) := if_pos count
    rw [base]
    exact List.mem_cons_self

end Stepped

-- In every run whose steps all fit the cycles stay apart, and nothing less than
-- that condition will do: past any other step one read is enough to break it.
theorem releases_stay_apart (run : steppedSystem.Each steppedSystem.allowed {} schedule)
    (careful : steppedSystem.Each Stepped.Fits {} schedule) :
    steppedSystem.Throughout Stepped.Separate {} schedule ∧
      ∀ a, steppedSystem.allowed (steppedSystem.follow {} schedule) a → ¬ (steppedSystem.follow {} schedule).Fits a →
        ∃ k, steppedSystem.allowed (steppedSystem.follow {} (schedule++[a])) (.compare k) ∧
          ¬ (steppedSystem.follow {} (schedule++[a,.compare k])).Separate := by
  refine ⟨?_,?_⟩
  · exact Machines.throughout_while Stepped.Clean (fun s a clean allowed fits => Stepped.apply_clean clean allowed fits)
      (fun s clean => clean.separate) Stepped.initial_clean run careful
  · intro a _ unfit
    obtain ⟨k,may,spoilt⟩ := Stepped.unfit_spoils unfit
    refine ⟨k,?_,?_⟩
    · simp only [Machines.Machine.follow,List.foldl_append,List.foldl_cons,List.foldl_nil]
      exact may
    · simp only [Machines.Machine.follow,List.foldl_append,List.foldl_cons,List.foldl_nil]
      exact spoilt

def twoLinks : LinkTable := ⟨[⟨0,.readWrite⟩,⟨1,.readWrite⟩],by decide,by decide⟩

-- Two links, the second behind a guard: the releaser of the first turn has its
-- result, 1, and reads `pipe_count` only where `reads` is.
def guardedCycle (kind : Kind) (reads : List SteppedAction) : List SteppedAction :=
  [SteppedAction.base (.acquire 0 1 .readWrite none),.base (.arm 0 kind twoLinks none),.base (.launch 0),
    .base (.resume (.own 0 (.fireTurn 0))),.decrement 0 .turnRelease]++reads++
  [SteppedAction.base (.releaseHold 0),.base (.resume (.own 0 (.fireTurn 1))),.decrement 0 .turnRelease,
    .base (.resume (.own 0 .execute)),.base (.bodyEnd 0),.base (.resume (.own 0 (.complete false))),
    .base (.resume (.own 0 (.advance 0 false))),.base (.resume (.own 0 (.advance 1 false))),
    .base (.resume (.own 0 (.advance 2 false)))]

-- The node's next run has its second object lent: one link, the stalled result.
def lentAgain : List SteppedAction :=
  [.base (.resume (.own 0 .nodeComplete)),.base (.arm 0 .graphNode (.single ⟨0,.readWrite⟩) none),.base (.launch 0)]

def stalledNode : List SteppedAction :=
  guardedCycle .graphNode []++lentAgain++[.compare ⟨0,1,true⟩,.base (.resume (.own 0 .enterFirst))]

def stalledOp : List SteppedAction := guardedCycle .callerOwned []++[.compare ⟨0,1,true⟩]

theorem releases_leak :
    (steppedSystem.Each steppedSystem.allowed {} stalledNode ∧
      (steppedSystem.follow {} stalledNode).entrants 0 = [.start,.release] ∧
      ¬ steppedSystem.Throughout Stepped.Separate {} stalledNode) ∧
    (steppedSystem.Each steppedSystem.allowed {} stalledOp ∧
      ((steppedSystem.follow {} stalledOp).base.progress 0).status = .retired ∧
      (steppedSystem.follow {} stalledOp).strays = [⟨0,1,true⟩] ∧
      ¬ steppedSystem.Throughout Stepped.Separate {} stalledOp) := by
  refine ⟨⟨Machines.each_of_admits (by decide +kernel),by decide +kernel,?_⟩,
    Machines.each_of_admits (by decide +kernel),by decide +kernel,by decide +kernel,?_⟩
  · intro all
    exact absurd ((Machines.throughout_last all).entrants 0) (by decide +kernel)
  · intro all
    exact absurd (Machines.throughout_last all).strays (by decide +kernel)

-- The same node with the read made in time.
theorem releases_stay_apart_lent : steppedSystem.Throughout Stepped.Separate {}
    (guardedCycle .graphNode [.compare ⟨0,1,false⟩]++lentAgain) :=
  (releases_stay_apart (Machines.each_of_admits (by decide +kernel)) (by decide +kernel)).1

end Macrame

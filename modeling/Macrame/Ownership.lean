import Macrame.Tenure
import Macrame.Lifecycle

namespace Macrame

-- The write admission that is out on a pipe.
def Tracked.writer (t : Tracked) : Option Ticket := t.outstanding.find? (·.link.mode == .readWrite)

namespace State

-- The body of `b` is under way and `Pipe::writer_owner` is `b`: what a caller
-- that is task `b` finds when it asks whether it holds the write grant.
structure Owns (s : State) (p : PipeId) (b : BlockId) : Prop where
  running : (s.progress b).status = .running
  owner : (s.pipes p).pipe.writerOwner = some b

variable {s : State} {p : PipeId} {b c : BlockId}

theorem Owns.alone (one : s.Owns p b) (two : s.Owns p c) : b = c :=
  Option.some.inj (one.owner.symm.trans two.owner)

-- Such a task is behind the one admission of the pipe.
theorem Owns.ticket (owns : s.Owns p b) (path : Machines.Reached system s) :
    ∃ k, (s.pipes p).outstanding = [k] ∧ k.link.mode = .readWrite ∧ k.link.grantee = some b ∧
      (s.pipes p).writer = some k := by
  have valid := reached_valid path p
  cases active : (s.pipes p).pipe.writerActive with
  | true =>
    obtain ⟨k,only,mode,owner⟩ := valid.writing active
    refine ⟨k,only,mode,owner.symm.trans owns.owner,?_⟩
    simp [Tracked.writer,only,mode]
  | false =>
    have unowned := (valid.reading active).1
    rw [owns.owner] at unowned
    cases unowned

-- A task that runs on a write link of its own holds the grant.
theorem linked_owns {i : Nat} (path : Machines.Reached system s) (running : (s.progress b).status = .running)
    (linked : (s.blocks b).links.entries[i]? = some ⟨p,.readWrite⟩) : s.Owns p b := by
  refine ⟨running,?_⟩
  have held : ⟨.link b i,.readWrite⟩ ∈ (s.pipes p).held :=
    (holding_iff (reached_accounts path)).mpr ⟨by rw [running]; rfl,linked⟩
  exact (reached_valid path p).toCounted.exclusive.owner _ held rfl

-- The grant lasts, and its admission with it, while the task neither ends its
-- body nor gives back a hold of its own on the pipe.
theorem Owns.kept (owns : s.Owns p b) (path : Machines.Reached system s) (allowed : s.Allowed a)
    (goes_on : a ≠ .bodyEnd b) (keeps : ∀ h m, a = .releaseHold h → s.holds h ≠ .held p m (some b)) :
    (s.apply a).Owns p b ∧ ((s.apply a).pipes p).writer = (s.pipes p).writer := by
  have acc := reached_accounts path
  have later : Machines.Reached system (s.apply a) := .step path (show system.allowed s a from allowed)
  have running := running_kept acc allowed owns.running goes_on
  obtain ⟨k,only,mode,grantee,writer⟩ := owns.ticket path
  have out : k ∈ (s.pipes p).outstanding := by rw [only]; exact List.mem_singleton_self k
  have held := ticket_held out
  have still : k.link ∈ ((s.apply a).pipes p).held := by
    obtain ⟨number,⟨party,m⟩⟩ := k
    cases party with
    | link c i =>
      cases grantee
      exact active_held acc allowed (by rw [owns.running]; rfl) (by rw [running]; rfl) held
    | hold h o =>
      cases grantee
      have after := reached_accounts later
      refine (hold_holding_iff after).mpr ?_
      have before := (hold_holding_iff acc).mp held
      by_cases handled : a.handles = some h
      · cases a with
        | acquire g q n o =>
          cases handled
          have free : s.holds h = .idle := allowed
          rw [free] at before
          simp at before
        | releaseHold g =>
          cases handled
          rcases before with granted | taken
          · have taken : (s.holds h).taken = true := allowed
            rw [granted] at taken
            cases taken
          · exact absurd taken (keeps h m rfl)
        | resume f =>
          cases f with
          | own c f => cases handled
          | fireHold g =>
            cases handled
            right
            rcases before with granted | taken
            · simp [apply,runFrame,fireHold,granted]
            · simp [apply,runFrame,fireHold,taken]
        | _ => cases handled
      · have next := apply_hold s a h handled
        rcases before with granted | taken
        · rw [granted] at next
          generalize (s.apply a).holds h = after at next ⊢
          cases next
          exact .inl rfl
        · rw [taken] at next
          generalize (s.apply a).holds h = after at next ⊢
          cases next
          exact .inr rfl
  have kept := apply_tenure acc allowed out still
  have owner : ((s.apply a).pipes p).pipe.writerOwner = some b :=
    ((reached_valid later p).toCounted.exclusive.owner k.link still mode).trans grantee
  have there : (s.apply a).Owns p b := ⟨running,owner⟩
  refine ⟨there,?_⟩
  obtain ⟨k',only',_,_,writer'⟩ := there.ticket later
  rw [only'] at kept
  rw [writer,writer',List.mem_singleton.mp kept]

section Assured

variable {s : State} {a : Action} {b c : BlockId}

theorem enterLink_heard (s : State) (b c : BlockId) (i : Nat) :
    ((s.enterLink b i).blocks c).prereqCancelled = (s.blocks c).prereqCancelled := by
  by_cases same : c = b
  · subst same
    simp only [enterLink]
    split
    · rfl
    · split <;> simp
  · simp only [enterLink]
    split
    · rfl
    · split <;> simp [same]

theorem runOwn_heard (s : State) (b c : BlockId) (f : LocalFrame) (other : c = b → f ≠ .childRelease true) :
    ((s.runOwn b f).blocks c).prereqCancelled = (s.blocks c).prereqCancelled := by
  have own : ∀ blk : Block, (c = b → blk.prereqCancelled = (s.blocks b).prereqCancelled) →
      ((s.setBlock b blk).blocks c).prereqCancelled = (s.blocks c).prereqCancelled := by
    intro blk kept
    by_cases same : c = b
    · rw [setBlock_blocks,same,Function.update_self]
      exact kept same
    · rw [setBlock_blocks,Function.update_of_ne same]
  have released : ∀ heard, (c = b → heard = false) →
      ((s.releaseBlock b heard).blocks c).prereqCancelled = (s.blocks c).prereqCancelled := by
    intro heard unheard
    have kept := own ((s.blocks b).release heard).1 (fun same => by simp [Block.release,unheard same])
    simp only [releaseBlock]
    split <;> exact kept
  cases f with
  | fireTurn i =>
    simp only [runOwn,fireTurn]
    split
    · exact enterLink_heard _ b c (i+1)
    · rfl
  | turnRelease => exact released false (fun _ => rfl)
  | childRelease heard =>
    refine released heard ?_
    intro same
    cases heard with
    | false => rfl
    | true => exact absurd rfl (other same)
  | enterFirst => exact enterLink_heard s b c 0
  | execute =>
    simp only [runOwn,execute]
    split
    · rfl
    · split
      · exact own _ (fun _ => rfl)
      · exact own _ (fun _ => rfl)
  | complete cancel =>
    simp only [runOwn,complete]
    split
    · rfl
    · exact own _ (fun _ => rfl)
    · split
      · rfl
      · split
        · exact own _ (fun _ => rfl)
        · exact own _ (fun _ => rfl)
  | advance i cancel =>
    simp only [runOwn,advance]
    split
    · split
      · rfl
      · rw [releasePipe_blocks]; rfl
    · split
      · exact own _ (fun _ => rfl)
      · rfl
      · rfl
  | nodeComplete => rfl

-- Only a child that was cancelled tells its parent so.
theorem apply_heard (unclaimed : a.claims ≠ some c) (other : a ≠ .resume (.own c (.childRelease true))) :
    ((s.apply a).blocks c).prereqCancelled = (s.blocks c).prereqCancelled := by
  have apart : ∀ b, a.claims = some b → c ≠ b := by
    rintro b claimed rfl
    exact unclaimed claimed
  have own : ∀ (b : BlockId) (blk : Block), blk.prereqCancelled = (s.blocks b).prereqCancelled →
      ((s.setBlock b blk).blocks c).prereqCancelled = (s.blocks c).prereqCancelled := by
    intro b blk kept
    by_cases same : c = b
    · rw [setBlock_blocks,same,Function.update_self]
      exact kept
    · rw [setBlock_blocks,Function.update_of_ne same]
  cases a with
  | arm b kind links token => simp [apply,apart b rfl]
  | rebind b links => simp [apply,apart b rfl]
  | launch b =>
    simp only [apply,launch]
    split
    · rfl
    · exact enterLink_heard s b c 0
  | tryInline b =>
    simp only [apply,tryInline]
    split
    · simp [apart b rfl]
    · rfl
  | createFrame b => simp [apply,apart b rfl]
  | releaseHold h =>
    simp only [apply,releaseHold]
    split
    · rw [releasePipe_blocks]; rfl
    · rfl
  | bodyEnd b =>
    simp only [apply,bodyEnd]
    split <;> exact own b _ rfl
  | addNested b child =>
    simp only [apply,addNested]
    split
    · exact own b _ rfl
    · by_cases same : c = child
      · subst same
        by_cases mine : c = b
        · subst mine; simp
        · simp [mine]
      · simp only [setProgress_blocks,setBlock_blocks,Function.update_of_ne same]
        exact own b _ rfl
  | resume f =>
    cases f with
    | own b f =>
      refine runOwn_heard (s.drop (.own b f)) b c f ?_
      rintro rfl rfl
      exact other rfl
    | fireHold h =>
      simp only [apply,runFrame,fireHold]
      split <;> rfl
  | _ => rfl

end Assured

end State

-- Launched, and not yet at its body.
def Status.ahead : Status → Bool
  | .waiting _ => true
  | .admitted _ => true
  | .turned => true
  | .ready => true
  | _ => false

theorem Status.Next.ahead (next : Next ends kind before after) (ahead : before.ahead = true)
    (unskipped : before = .ready → after ≠ .finishing true) : after.ahead = true ∨ after = .running := by
  cases next <;> simp_all [Status.ahead]

-- Launched, and not yet settled.
def Status.unsettled : Status → Bool
  | .running => true
  | .draining => true
  | .finishing _ => true
  | status => status.ahead

-- What a launched task has been granted it keeps until it settles.
theorem Status.Next.holds (next : Next ends kind before after) (holds : before.holds i = true)
    (going : after.unsettled = true) : after.holds i = true := by
  cases next <;> simp_all [Status.ahead,Status.unsettled,Status.holds] <;> omega

namespace State

-- A task no token and no child of which can cancel it before its body.
structure Assured (s : State) (b : BlockId) : Prop where
  token : (s.blocks b).token = none
  unheard : (s.blocks b).prereqCancelled = false
  ahead : (s.progress b).status.ahead = true

variable {s : State} {a : Action} {b : BlockId}

theorem Assured.unclaimed (assured : s.Assured b) (allowed : s.Allowed a) : a.claims ≠ some b := by
  have ahead := assured.ahead
  intro claimed
  cases a <;> cases claimed <;> cases status : (s.progress b).status <;>
    simp_all [State.Allowed,Status.resting,Status.ahead]

-- It has no children yet, so the only release that could tell of a
-- cancellation is not due.
theorem Assured.childless (assured : s.Assured b) (acc : Accounts s) (heard : Bool) :
    Frame.own b (.childRelease heard) ∉ s.pending := by
  intro pending
  have ahead := assured.ahead
  have positive := pending_frames pending
  have locks := (acc.blocks b).locks
  have children : 0 < (s.footprint b).children := by
    cases heard <;> simp only [Footprint.children] <;> omega
  simp only [LocksSound,footprint_block,footprint_progress] at locks
  cases status : (s.progress b).status <;> simp_all [Status.ahead]

theorem ready_executes (acc : Accounts s) (token : (s.blocks b).token = none) (heard : (s.blocks b).prereqCancelled = false)
    (ready : (s.progress b).status = .ready) :
    ((s.apply (.resume (.own b .execute))).progress b).status = .running := by
  have unclaimed : (s.blocks b).bodyClaimed = false := (acc.blocks b).cycle.unclaimed (.inr ready)
  have found : (s.blocks b).foundCancelled (s.drop (.own b .execute)).tokens = false := by
    simp [Block.foundCancelled,token,heard]
  simp [apply,runFrame,runOwn,execute,unclaimed,found]

-- So the next thing that happens to it, if anything, leads on to its body.
theorem Assured.next (assured : s.Assured b) (acc : Accounts s) (allowed : s.Allowed a) :
    (s.apply a).Assured b ∨ ((s.apply a).progress b).status = .running := by
  have unclaimed := assured.unclaimed allowed
  have unheard : a ≠ .resume (.own b (.childRelease true)) := by
    rintro rfl
    exact assured.childless acc true allowed
  have heard := (apply_heard unclaimed unheard).trans assured.unheard
  have token := ((apply_keeps s a b unclaimed).token).trans assured.token
  by_cases executes : a = .resume (.own b .execute) ∧ (s.progress b).status = .ready
  · obtain ⟨rfl,ready⟩ := executes
    exact .inr (ready_executes acc assured.token assured.unheard ready)
  · have ahead := assured.ahead
    have next := apply_next acc allowed b unclaimed
    -- the frame of the execution is still pending, so the block has not been skipped
    have unskipped : (s.progress b).status = .ready → ((s.apply a).progress b).status ≠ .finishing true := by
      intro ready skipped
      have pending : Frame.own b .execute ∈ s.pending := expected_pending acc (by rw [ready]; rfl) rfl
      have other : a ≠ .resume (.own b .execute) := fun same => executes ⟨same,ready⟩
      have still := execute_status (apply_accounts acc allowed) (apply_pending pending other)
      rw [skipped] at still
      cases still
    rcases next.ahead ahead unskipped with still | running
    · exact .inl ⟨token,heard,still⟩
    · exact .inr running

-- A task made for one purpose: a task block with these links and no token,
-- launched, and somewhere between its launch and the end of its body.
structure Posted (s : State) (b : BlockId) (links : LinkTable) : Prop where
  there : s.Assured b ∨ (s.progress b).status = .running
  kind : (s.blocks b).kind = .executable
  links : (s.blocks b).links = links

def submit (s : State) (b : BlockId) (links : LinkTable) : State :=
  (s.apply (.arm b .executable links none)).apply (.launch b)

theorem submit_allowed (links : LinkTable) (resting : (s.progress b).status.resting = true) :
    s.Allowed (.arm b .executable links none) ∧ (s.apply (.arm b .executable links none)).Allowed (.launch b) := by
  refine ⟨⟨resting,by simp,by simp⟩,?_⟩
  simp [State.Allowed,apply]

theorem Posted.unclaimed {links : LinkTable} (posted : s.Posted b links) (allowed : s.Allowed a) : a.claims ≠ some b := by
  rcases posted.there with assured | running
  · exact assured.unclaimed allowed
  · exact active_unclaimed allowed (by rw [running]; rfl)

theorem Posted.unsettled {links : LinkTable} (posted : s.Posted b links) : (s.progress b).status.unsettled = true := by
  rcases posted.there with assured | running
  · have ahead := assured.ahead
    cases status : (s.progress b).status <;> simp_all [Status.ahead,Status.unsettled]
  · rw [running]
    rfl

theorem Posted.kept {links : LinkTable} (posted : s.Posted b links) (acc : Accounts s) (allowed : s.Allowed a)
    (goes_on : (s.progress b).status = .running → a ≠ .bodyEnd b) : (s.apply a).Posted b links := by
  have keeps := apply_keeps s a b (posted.unclaimed allowed)
  refine ⟨?_,keeps.kind.trans posted.kind,keeps.links.trans posted.links⟩
  rcases posted.there with assured | running
  · exact assured.next acc allowed
  · exact .inr (running_kept acc allowed running (goes_on running))

theorem submit_posted (s : State) (b : BlockId) (links : LinkTable) : (s.submit b links).Posted b links := by
  by_cases linkless : links.count = 0
  · refine ⟨.inl ⟨?_,?_,?_⟩,?_,?_⟩ <;> simp [submit,apply,launch,linkless,Status.ahead]
  · have linked : ∃ link, links.entries[0]? = some link :=
      ⟨_,List.getElem?_eq_getElem (Nat.pos_of_ne_zero linkless)⟩
    obtain ⟨link,place⟩ := linked
    refine ⟨.inl ⟨?_,?_,?_⟩,?_,?_⟩ <;> simp only [submit,apply,launch,enterLink,setProgress_blocks,setBlock_blocks,
      Function.update_self,linkless,if_false,place] <;> split <;> simp [Status.ahead,setStatus]

theorem Posted.owns (posted : s.Posted b (.single ⟨p,.readWrite⟩)) (path : Machines.Reached system s)
    (running : (s.progress b).status = .running) : s.Owns p b :=
  linked_owns (i := 0) path running (by rw [posted.links]; rfl)

theorem enterLink_out (s : State) (b : BlockId) (i : Nat) (q : PipeId) (out : k ∈ (s.pipes q).outstanding) :
    k ∈ ((s.enterLink b i).pipes q).outstanding := by
  have entered : ∀ l : PipeLink, k ∈ ((s.pipes q).enter l).1.outstanding := by
    intro l
    simp only [Tracked.enter]
    split
    · exact List.mem_append_left _ out
    · exact out
  simp only [enterLink]
  split
  · exact out
  · rename_i link _
    have piped : k ∈ ((s.setPipe link.pipe ((s.pipes link.pipe).enter ⟨.link b i,link.mode⟩).1).pipes q).outstanding := by
      by_cases same : q = link.pipe
      · subst same
        rw [setPipe_pipes,Function.update_self]
        exact entered _
      · rw [setPipe_pipes,Function.update_of_ne same]
        exact out
    split <;> exact piped

-- Making a task takes no admission away.
theorem submit_out (s : State) (b : BlockId) (links : LinkTable) (q : PipeId) (out : k ∈ (s.pipes q).outstanding) :
    k ∈ ((s.submit b links).pipes q).outstanding := by
  have launched : ∀ t : State, k ∈ (t.pipes q).outstanding → k ∈ ((t.launch b).pipes q).outstanding := by
    intro t there
    simp only [launch]
    split
    · exact there
    · exact enterLink_out t b 0 q there
  exact launched _ out

-- The link of a launched task stands in the pipe's ledger until the task settles.
theorem linked_stands {i : Nat} (path : Machines.Reached system s) (allowed : s.Allowed a) (unclaimed : a.claims ≠ some b)
    (going : ((s.apply a).progress b).status.unsettled = true) (place : (s.blocks b).links.entries[i]? = some ⟨p,m⟩)
    (stands : Tracked.Stands (s.pipes p) ⟨.link b i,m⟩ e) : Tracked.Stands ((s.apply a).pipes p) ⟨.link b i,m⟩ e := by
  have acc := reached_accounts path
  refine (apply_section acc allowed p).stands (reached_valid path p) stands ?_
  intro out
  refine ⟨(ticket_once acc out).1,(ticket_once acc out).2,?_⟩
  have holds := (apply_next acc allowed b unclaimed).holds ((holding_iff acc).mp (ticket_held out)).1 going
  refine (holding_iff (apply_accounts acc allowed)).mpr ⟨holds,?_⟩
  rw [(apply_keeps s a b unclaimed).links]
  exact place

theorem Posted.stands (posted : s.Posted b (.single ⟨p,m⟩)) (path : Machines.Reached system s) (allowed : s.Allowed a)
    (goes_on : (s.progress b).status = .running → a ≠ .bodyEnd b)
    (stands : Tracked.Stands (s.pipes p) ⟨.link b 0,m⟩ e) : Tracked.Stands ((s.apply a).pipes p) ⟨.link b 0,m⟩ e := by
  have after := posted.kept (reached_accounts path) allowed goes_on
  exact linked_stands path allowed (posted.unclaimed allowed) after.unsettled (by rw [posted.links]; rfl) stands

theorem Posted.stands_beside (posted : s.Posted b (.single ⟨p,m⟩)) (path : Machines.Reached system s)
    (links : LinkTable) (resting : (s.progress c).status.resting = true)
    (stands : Tracked.Stands (s.pipes p) ⟨.link b 0,m⟩ e) :
    Tracked.Stands ((s.submit c links).pipes p) ⟨.link b 0,m⟩ e := by
  obtain ⟨arms,launches⟩ := submit_allowed links resting
  have armed : Machines.Reached system (s.apply (.arm c .executable links none)) :=
    .step path (show system.allowed s (.arm c .executable links none) from arms)
  have first := posted.stands path arms (by simp) stands
  have still := posted.kept (reached_accounts path) arms (by simp)
  exact still.stands armed launches (by simp) first

theorem submit_stands (path : Machines.Reached system s) (c : BlockId) (p : PipeId) (m : Access) :
    Tracked.Stands ((s.submit c (.single ⟨p,m⟩)).pipes p) ⟨.link c 0,m⟩ (s.pipes p).entered.length := by
  have entered : (s.submit c (.single ⟨p,m⟩)).pipes p = ((s.pipes p).enter ⟨.link c 0,m⟩).1 := by
    have linked : (LinkTable.single ⟨p,m⟩).count ≠ 0 := by simp [LinkTable.single,LinkTable.count]
    have place : (LinkTable.single ⟨p,m⟩).entries[0]? = some ⟨p,m⟩ := rfl
    simp only [submit,apply,launch,enterLink,setProgress_blocks,setBlock_blocks,Function.update_self,if_neg linked,place]
    split <;> simp [setStatus]
  rw [entered]
  exact Tracked.enter_stands (reached_valid path p) _

end State
end Macrame

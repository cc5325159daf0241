import Macrame.Coherence

namespace Macrame

-- Where one atomic step can take a block that is not armed, launched or
-- settled from outside by it; `ends` says that it is the end of its body.
inductive Status.Next (ends : Prop) (kind : Kind) : Status → Status → Prop where
  | same : Next ends kind status status
  | granted : Next ends kind (.waiting i) (.admitted i)
  | queued : Next ends kind (.admitted i) (.waiting (i+1))
  | passed : Next ends kind (.admitted i) (.admitted (i+1))
  | turned : Next ends kind (.admitted i) .turned
  | dispatched : Next ends kind .turned .ready
  | begun : Next ends kind .ready .running
  | skipped : Next ends kind .ready (.finishing true)
  | ended : ends → Next ends kind .running (.finishing false)
  | draining : ends → Next ends kind .running .draining
  | drained : Next ends kind .draining (.finishing false)
  | settled : Next ends kind (.finishing cancel) (.advancing 0 cancel)
  | advanced : Next ends kind (.advancing i cancel) (.advancing (i+1) cancel)
  | retired : kind ≠ .graphNode → Next ends kind (.advancing i cancel) .retired
  | concluding : kind = .graphNode → Next ends kind (.advancing i cancel) .concluding
  | completed : Next ends kind .concluding .retired

-- The calls that start a cycle of a block or take it out of `armed`.
def Action.claims : Action → Option BlockId
  | .arm b _ _ _ => some b
  | .rebind b _ => some b
  | .launch b => some b
  | .tryInline b => some b
  | .createFrame b => some b
  | .settleBare b _ => some b
  | _ => none

namespace State

theorem setStatus_status (s : State) (b c : BlockId) (status : Status) :
    ((s.setStatus b status).progress c).status = if c = b then status else (s.progress c).status := by
  by_cases same : c = b
  · subst same; simp [setStatus]
  · simp [setStatus,same]

theorem setProgress_status (s : State) (b c : BlockId) (pr : Progress) :
    ((s.setProgress b pr).progress c).status = if c = b then pr.status else (s.progress c).status := by
  by_cases same : c = b
  · subst same; simp
  · simp [same]

section Granting

@[simp] theorem grant_blocks (s : State) (l : PipeLink) : (s.grant l).blocks = s.blocks := by
  obtain ⟨party,m⟩ := l
  cases party with
  | link b i => rfl
  | hold h o =>
    simp only [grant]
    cases s.holds h <;> rfl

theorem grant_status (s : State) (l : PipeLink) (b : BlockId) :
    ((s.grant l).progress b).status = (s.progress b).status ∨
      ∃ i m, l = ⟨.link b i,m⟩ ∧ ((s.grant l).progress b).status = .admitted i := by
  obtain ⟨party,m⟩ := l
  cases party with
  | hold h o =>
    simp only [grant]
    cases s.holds h <;> exact .inl rfl
  | link c i =>
    simp only [grant,push_progress,setStatus_status]
    by_cases same : b = c
    · subst same; exact .inr ⟨i,m,rfl,if_pos rfl⟩
    · exact .inl (if_neg same)

theorem granted_blocks (granted : List PipeLink) (s : State) : (granted.foldl grant s).blocks = s.blocks := by
  induction granted generalizing s with
  | nil => rfl
  | cons l rest ih => rw [List.foldl_cons,ih,grant_blocks]

theorem granted_status (granted : List PipeLink) (s : State) (b : BlockId)
    (one : ∀ i m, ⟨.link b i,m⟩ ∈ granted → i = k) :
    ((granted.foldl grant s).progress b).status = (s.progress b).status ∨
      (∃ m, ⟨.link b k,m⟩ ∈ granted) ∧ ((granted.foldl grant s).progress b).status = .admitted k := by
  induction granted generalizing s with
  | nil => exact .inl rfl
  | cons l rest ih =>
    rw [List.foldl_cons]
    have later := ih (s.grant l) (fun i m member => one i m (List.mem_cons_of_mem _ member))
    rcases later with kept | ⟨⟨m,member⟩,moved⟩
    · rw [kept]
      rcases grant_status s l b with same | ⟨i,m,rfl,moved⟩
      · exact .inl same
      · have here := one i m List.mem_cons_self
        subst here
        exact .inr ⟨⟨m,List.mem_cons_self⟩,moved⟩
    · exact .inr ⟨⟨m,List.mem_cons_of_mem _ member⟩,moved⟩

theorem collectFrom_subset (queue : List PipeLink) (pipe : Pipe) : (Pipe.collectFrom queue pipe).2 ⊆ queue := by
  induction queue generalizing pipe with
  | nil => simp [Pipe.collectFrom]
  | cons l rest ih =>
    unfold Pipe.collectFrom
    split
    · exact List.cons_subset_cons l (ih _)
    · simp

@[simp] theorem releasePipe_blocks (s : State) (p : PipeId) (l : PipeLink) : (s.releasePipe p l).blocks = s.blocks := by
  simp only [releasePipe,granted_blocks]
  rfl

-- A release moves on the blocks that waited for the pipe, and no others.
theorem releasePipe_status (acc : Accounts s) (t : State) (pipes : t.pipes = s.pipes) (p : PipeId) (l : PipeLink)
    (b : BlockId) : ((t.releasePipe p l).progress b).status = (t.progress b).status ∨
      ∃ i, (s.progress b).status = .waiting i ∧ ((t.releasePipe p l).progress b).status = .admitted i := by
  have waits : ∀ i m, ⟨.link b i,m⟩ ∈ ((t.pipes p).release l).2 → (s.progress b).status = .waiting i := by
    intro i m member
    have queued := collectFrom_subset _ _ member
    rw [Pipe.releaseMode_queue,pipes] at queued
    exact (queued_status acc queued).1
  by_cases waiting : ∃ k, (s.progress b).status = .waiting k
  · obtain ⟨k,waiting⟩ := waiting
    have one : ∀ i m, ⟨.link b i,m⟩ ∈ ((t.pipes p).release l).2 → i = k := by
      intro i m member
      have here := waits i m member
      rw [waiting] at here
      exact (Status.waiting.inj here).symm
    rcases granted_status _ (t.setPipe p ((t.pipes p).release l).1) b one with kept | ⟨_,moved⟩
    · exact .inl kept
    · exact .inr ⟨k,waiting,moved⟩
  · have none_here : ∀ i m, ⟨.link b i,m⟩ ∈ ((t.pipes p).release l).2 → i = 0 := by
      intro i m member
      exact absurd ⟨i,waits i m member⟩ waiting
    rcases granted_status _ (t.setPipe p ((t.pipes p).release l).1) b none_here with kept | ⟨⟨m,member⟩,_⟩
    · exact .inl kept
    · exact absurd ⟨0,waits 0 m member⟩ waiting

end Granting

theorem enterLink_status (s : State) (b c : BlockId) (i : Nat) : ((s.enterLink b i).progress c).status =
    (s.progress c).status ∨ c = b ∧ (((s.enterLink b i).progress c).status = .admitted i ∨
      ((s.enterLink b i).progress c).status = .waiting i) := by
  simp only [enterLink]
  split
  · exact .inl rfl
  · split
    · rw [push_progress,setStatus_status]
      split
      · rename_i here; exact .inr ⟨here,.inl rfl⟩
      · exact .inl rfl
    · rw [setStatus_status]
      split
      · rename_i here; exact .inr ⟨here,.inr rfl⟩
      · exact .inl rfl

theorem expected_status (acc : Accounts s) (control : f.control = true) (pending : .own b f ∈ s.pending) :
    (s.progress b).status.expects = some f := (acc.blocks b).expected control (pending_frames pending)

theorem fireTurn_status (acc : Accounts s) (pending : .own b (.fireTurn i) ∈ s.pending) :
    (s.progress b).status = .admitted i := by
  have expects := expected_status acc rfl pending
  cases shape : (s.progress b).status <;> simp_all [Status.expects]

theorem execute_status (acc : Accounts s) (pending : .own b .execute ∈ s.pending) : (s.progress b).status = .ready := by
  have expects := expected_status acc rfl pending
  cases shape : (s.progress b).status <;> simp_all [Status.expects]

theorem complete_status (acc : Accounts s) (pending : .own b (.complete cancel) ∈ s.pending) :
    (s.progress b).status = .finishing cancel := by
  have expects := expected_status acc rfl pending
  cases shape : (s.progress b).status <;> simp_all [Status.expects]

theorem nodeComplete_status (acc : Accounts s) (pending : .own b .nodeComplete ∈ s.pending) :
    (s.progress b).status = .concluding := by
  have expects := expected_status acc rfl pending
  cases shape : (s.progress b).status <;> simp_all [Status.expects]

theorem release_dispatch_iff {blk : Block} : (blk.release heard).2 = .dispatch ↔ blk.numLocks = 1 := by
  simp only [Block.release]
  split
  · simp; omega
  · split
    · simp; omega
    · split <;> simp <;> omega

theorem release_complete_iff {blk : Block} : (blk.release heard).2 = .complete ↔ blk.numLocks = executionFlag+1 := by
  simp only [Block.release]
  split
  · simp [executionFlag]; omega
  · split
    · simp; omega
    · split <;> simp <;> omega

-- A turn's release dispatches only the block that has fired every turn.
theorem turnRelease_moves (acc : Accounts s) (pending : .own b .turnRelease ∈ s.pending) :
    ((s.blocks b).release false).2 = .waiting ∨
      ((s.blocks b).release false).2 = .dispatch ∧ (s.progress b).status = .turned := by
  have sound := acc.blocks b
  have turns : 0 < (s.footprint b).turns := pending_frames pending
  rcases sound.turn_release turns with ⟨branch,_⟩ | ⟨branch,_⟩
  · exact .inl branch
  · refine .inr ⟨branch,?_⟩
    have last := release_dispatch_iff.mp branch
    have locks := sound.locks
    simp only [footprint_block] at last
    cases shape : (s.progress b).status <;>
      simp only [LocksSound,footprint_progress,footprint_block,shape] at locks <;> first | rfl | omega

theorem childRelease_moves (acc : Accounts s) (pending : .own b (.childRelease heard) ∈ s.pending) :
    ((s.blocks b).release heard).2 = .waiting ∨
      ((s.blocks b).release heard).2 = .complete ∧ (s.progress b).status = .draining := by
  have sound := acc.blocks b
  have children : 0 < (s.footprint b).children := by
    have positive := pending_frames pending
    cases heard <;> simp only [Footprint.children] <;> omega
  rcases sound.child_release (pending_frames pending) with ⟨branch,_⟩ | ⟨branch,_⟩
  · exact .inl branch
  · refine .inr ⟨branch,?_⟩
    have last := release_complete_iff.mp branch
    have locks := sound.locks
    simp only [footprint_block] at last
    cases shape : (s.progress b).status <;>
      simp only [LocksSound,footprint_progress,footprint_block,shape] at locks <;> first | rfl | omega

theorem releaseBlock_other (s : State) (b c : BlockId) (heard : Bool) (apart : c ≠ b) :
    ((s.releaseBlock b heard).progress c) = s.progress c := by
  simp only [releaseBlock]
  split <;> simp [apart]

theorem turnRelease_next (acc : Accounts s) (pending : .own b .turnRelease ∈ s.pending) (c : BlockId) :
    Status.Next ends (s.blocks c).kind (s.progress c).status ((s.runFrame (.own b .turnRelease)).progress c).status := by
  simp only [runFrame,runOwn]
  by_cases same : c = b
  · subst same
    rcases turnRelease_moves acc pending with stays | ⟨starts,turned⟩
    · simp only [releaseBlock,drop_blocks,stays,setBlock_progress,drop_progress]
      exact .same
    · simp only [releaseBlock,drop_blocks,starts,push_progress,setProgress_progress,Function.update_self,turned]
      exact .dispatched
  · rw [releaseBlock_other _ b c false same]
    exact .same

theorem childRelease_next (acc : Accounts s) (pending : .own b (.childRelease heard) ∈ s.pending) (c : BlockId) :
    Status.Next ends (s.blocks c).kind (s.progress c).status
      ((s.runFrame (.own b (.childRelease heard))).progress c).status := by
  simp only [runFrame,runOwn]
  by_cases same : c = b
  · subst same
    rcases childRelease_moves acc pending with stays | ⟨last,draining⟩
    · simp only [releaseBlock,drop_blocks,stays,setBlock_progress,drop_progress]
      exact .same
    · simp only [releaseBlock,drop_blocks,last,push_progress,setProgress_progress,Function.update_self,draining]
      exact .drained
  · rw [releaseBlock_other _ b c heard same]
    exact .same

theorem fireTurn_next (acc : Accounts s) (pending : .own b (.fireTurn i) ∈ s.pending) (c : BlockId) :
    Status.Next ends (s.blocks c).kind (s.progress c).status ((s.runFrame (.own b (.fireTurn i))).progress c).status := by
  have status := fireTurn_status acc pending
  simp only [runFrame,runOwn,fireTurn]
  split
  · rcases enterLink_status ((s.drop (.own b (.fireTurn i))).push (.own b .turnRelease)) b c (i+1) with
      kept | ⟨rfl,admitted | waiting⟩
    · rw [kept]; exact .same
    · rw [admitted,status]; exact .passed
    · rw [waiting,status]; exact .queued
  · rw [setStatus_status]
    split
    · rename_i here
      rw [here,status]
      exact .turned
    · exact .same

theorem execute_next (acc : Accounts s) (pending : .own b .execute ∈ s.pending) (c : BlockId) :
    Status.Next ends (s.blocks c).kind (s.progress c).status ((s.runFrame (.own b .execute)).progress c).status := by
  have status := execute_status acc pending
  simp only [runFrame,runOwn,execute]
  split
  · exact .same
  · split
    · rw [push_progress,setProgress_status]
      split
      · rename_i here
        rw [here,status]
        exact .skipped
      · exact .same
    · rw [setProgress_status]
      split
      · rename_i here
        rw [here,status]
        exact .begun
      · exact .same

theorem settle_status (s : State) (b c : BlockId) (cancel : Bool) :
    ((s.settle b cancel).progress c).status = if c = b then .advancing 0 cancel else (s.progress c).status := by
  simp only [settle,push_progress,setProgress_status]
  rfl

theorem releaseParent_status (s : State) (parent b c : BlockId) (cancel : Bool) :
    ((s.releaseParent parent b cancel).progress c).status = (s.progress c).status := by
  simp only [releaseParent,push_progress,setProgress_status]
  split
  · rename_i here; rw [here]
  · rfl

theorem complete_next (acc : Accounts s) (pending : .own b (.complete cancel) ∈ s.pending) (c : BlockId) :
    Status.Next ends (s.blocks c).kind (s.progress c).status
      ((s.runFrame (.own b (.complete cancel))).progress c).status := by
  have status := complete_status acc pending
  have moved : ∀ result : Status, result = (if c = b then .advancing 0 cancel else (s.progress c).status) →
      Status.Next ends (s.blocks c).kind (s.progress c).status result := by
    intro result shape
    rw [shape]
    split
    · rename_i here
      rw [here,status]
      exact .settled
    · exact .same
  simp only [runFrame,runOwn,complete,drop_blocks]
  split
  · exact moved _ (by rw [push_progress,setStatus_status]; rfl)
  · exact moved _ (by rw [push_progress,setProgress_status]; rfl)
  · split
    · exact .same
    · split
      · exact moved _ (settle_status _ b c cancel)
      · exact moved _ (by rw [releaseParent_status]; exact settle_status _ b c cancel)

theorem advance_next (acc : Accounts s) (pending : .own b (.advance i cancel) ∈ s.pending) (c : BlockId) :
    Status.Next ends (s.blocks c).kind (s.progress c).status
      ((s.runFrame (.own b (.advance i cancel))).progress c).status := by
  have status := advancing_status acc pending
  simp only [runFrame,runOwn,advance,drop_blocks]
  split
  · have moved : (((((s.drop (.own b (.advance i cancel))).setStatus b (.advancing (i+1) cancel)).push
        (.own b (.advance (i+1) cancel))).progress c).status) =
          if c = b then .advancing (i+1) cancel else (s.progress c).status := by
      rw [push_progress,setStatus_status]; rfl
    have own : Status.Next ends (s.blocks c).kind (s.progress c).status
        (if c = b then .advancing (i+1) cancel else (s.progress c).status) := by
      split
      · rename_i here
        rw [here,status]
        exact .advanced
      · exact .same
    split
    · rw [moved]; exact own
    · rename_i link place
      rcases releasePipe_status acc (((s.drop (.own b (.advance i cancel))).setStatus b (.advancing (i+1) cancel)).push
          (.own b (.advance (i+1) cancel))) rfl link.pipe ⟨.link b i,link.mode⟩ c with kept | ⟨k,waiting,granted⟩
      · rw [kept,moved]; exact own
      · rw [granted,waiting]; exact .granted
  · split
    · rename_i kind
      rw [setProgress_status]
      split
      · rename_i here
        rw [here,status,kind]
        exact .retired (by simp)
      · exact .same
    · rename_i kind
      rw [push_progress,setStatus_status]
      split
      · rename_i here
        rw [here,status,kind]
        exact .concluding rfl
      · exact .same
    · rename_i other node
      rw [setStatus_status]
      split
      · rename_i here
        rw [here,status]
        exact .retired node
      · exact .same

theorem resume_next (acc : Accounts s) (pending : f ∈ s.pending) (c : BlockId) :
    Status.Next ends (s.blocks c).kind (s.progress c).status ((s.runFrame f).progress c).status := by
  cases f with
  | fireHold h =>
    simp only [runFrame,fireHold]
    split <;> exact .same
  | own b f =>
    cases f with
    | fireTurn i => exact fireTurn_next acc pending c
    | turnRelease => exact turnRelease_next acc pending c
    | childRelease heard => exact childRelease_next acc pending c
    | enterFirst => exact absurd pending (enterFirst_quiet acc)
    | execute => exact execute_next acc pending c
    | complete cancel => exact complete_next acc pending c
    | advance i cancel => exact advance_next acc pending c
    | nodeComplete =>
      simp only [runFrame,runOwn,setStatus_status]
      split
      · rename_i here
        rw [here,nodeComplete_status acc pending]
        exact .completed
      · exact .same

-- What any action does to any block it does not claim.
theorem apply_next (acc : Accounts s) (allowed : s.Allowed a) (c : BlockId) (unclaimed : a.claims ≠ some c) :
    Status.Next (a = .bodyEnd c) (s.blocks c).kind (s.progress c).status ((s.apply a).progress c).status := by
  have apart : ∀ b, a.claims = some b → c ≠ b := by
    rintro b claimed rfl
    exact unclaimed claimed
  cases a with
  | arm b kind links token =>
    simp only [apply,setProgress_status,if_neg (apart b rfl)]
    exact .same
  | rebind b links => exact .same
  | launch b =>
    simp only [apply,launch]
    split
    · rw [push_progress,setProgress_status,if_neg (apart b rfl)]
      exact .same
    · rcases enterLink_status s b c 0 with kept | ⟨here,_⟩
      · rw [kept]; exact .same
      · exact absurd here (apart b rfl)
  | tryInline b =>
    simp only [apply,tryInline]
    split
    · rw [push_progress,setProgress_status,if_neg (apart b rfl)]
      simp only [setBlock_progress,inlined_progress]
      exact .same
    · exact .same
  | createFrame b =>
    simp only [apply,setProgress_status,if_neg (apart b rfl)]
    exact .same
  | settleBare b cancel =>
    simp only [apply,push_progress,setStatus_status,if_neg (apart b rfl)]
    exact .same
  | acquire h p mode owner => exact .same
  | releaseHold h =>
    obtain ⟨p,mode,owner,held⟩ := taken_held allowed
    simp only [apply,releaseHold,held]
    rcases releasePipe_status acc (s.setHold h .idle) rfl p ⟨.hold h owner,mode⟩ c with kept | ⟨k,waiting,granted⟩
    · rw [kept]; exact .same
    · rw [granted,waiting]; exact .granted
  | requestCancel token => exact .same
  | bodyEnd b =>
    have status : (s.progress b).status = .running := allowed
    simp only [apply,bodyEnd]
    split
    · rw [push_progress,setProgress_status]
      split
      · rename_i here
        rw [here,status]
        exact .ended rfl
      · exact .same
    · rw [setStatus_status]
      split
      · rename_i here
        rw [here,status]
        exact .draining rfl
      · exact .same
  | addNested b child =>
    simp only [apply,addNested]
    split
    · exact .same
    · rw [setProgress_status]
      split
      · rename_i here
        rw [here]
        exact .same
      · exact .same
  | resume f => exact resume_next acc allowed c

section Pending

variable {s : State} {f : Frame}

theorem inlined_pending (s : State) (b : BlockId) (entries : List (Link × Nat)) :
    (entries.foldl (admitInline · b) s).pending = s.pending := by
  induction entries generalizing s with
  | nil => rfl
  | cons entry rest ih => rw [List.foldl_cons,ih]; rfl

theorem enterLink_pending (b : BlockId) (i : Nat) (pending : f ∈ s.pending) : f ∈ (s.enterLink b i).pending := by
  simp only [enterLink]
  split
  · exact pending
  · split
    · exact List.mem_cons_of_mem _ pending
    · exact pending

theorem grant_pending (l : PipeLink) (pending : f ∈ s.pending) : f ∈ (s.grant l).pending := by
  obtain ⟨party,m⟩ := l
  cases party with
  | link b i => exact List.mem_cons_of_mem _ pending
  | hold h o =>
    simp only [grant]
    cases s.holds h <;> exact List.mem_cons_of_mem _ pending

theorem releasePipe_pending (p : PipeId) (l : PipeLink) (pending : f ∈ s.pending) : f ∈ (s.releasePipe p l).pending := by
  have folded : ∀ (granted : List PipeLink) (t : State), f ∈ t.pending → f ∈ (granted.foldl grant t).pending := by
    intro granted
    induction granted with
    | nil => exact fun _ here => here
    | cons l rest ih => exact fun t here => ih _ (grant_pending l here)
  exact folded _ _ pending

theorem releaseBlock_pending (b : BlockId) (heard : Bool) (pending : f ∈ s.pending) :
    f ∈ (s.releaseBlock b heard).pending := by
  simp only [releaseBlock]
  split <;> first | exact pending | exact List.mem_cons_of_mem _ pending

theorem runOwn_pending (b : BlockId) (own : LocalFrame) (pending : f ∈ s.pending) : f ∈ (s.runOwn b own).pending := by
  have pushed : ∀ g : Frame, f ∈ g :: s.pending := fun g => List.mem_cons_of_mem g pending
  cases own with
  | fireTurn i =>
    simp only [runOwn,fireTurn]
    split
    · exact enterLink_pending b (i+1) (pushed _)
    · exact pushed _
  | turnRelease => exact releaseBlock_pending b false pending
  | childRelease heard => exact releaseBlock_pending b heard pending
  | enterFirst => exact enterLink_pending b 0 pending
  | execute =>
    simp only [runOwn,execute]
    split
    · exact pending
    · split
      · exact pushed _
      · exact pending
  | complete cancel =>
    simp only [runOwn,complete]
    split
    · exact pushed _
    · exact pushed _
    · split
      · exact pending
      · split
        · exact pushed _
        · exact List.mem_cons_of_mem _ (pushed _)
  | advance i cancel =>
    simp only [runOwn,advance]
    split
    · split
      · exact pushed _
      · exact releasePipe_pending _ _ (pushed _)
    · split
      · exact pending
      · exact pushed _
      · exact pending
  | nodeComplete => exact pending

-- Only its own resumption takes a frame away.
theorem apply_pending (pending : f ∈ s.pending) (other : a ≠ .resume f) : f ∈ (s.apply a).pending := by
  have pushed : ∀ g : Frame, f ∈ g :: s.pending := fun g => List.mem_cons_of_mem g pending
  cases a with
  | arm b kind links token => exact pending
  | rebind b links => exact pending
  | launch b =>
    simp only [apply,launch]
    split
    · exact pushed _
    · exact enterLink_pending b 0 pending
  | tryInline b =>
    simp only [apply,tryInline]
    split
    · refine List.mem_cons_of_mem _ ?_
      simpa [setBlock,setProgress,inlined_pending] using pending
    · exact pending
  | createFrame b => exact pending
  | settleBare b cancel => exact pushed _
  | acquire h p mode owner => exact pending
  | releaseHold h =>
    simp only [apply,releaseHold]
    split
    · exact releasePipe_pending _ _ pending
    · exact pending
  | requestCancel token => exact pending
  | bodyEnd b =>
    simp only [apply,bodyEnd]
    split
    · exact pushed _
    · exact pending
  | addNested b child =>
    simp only [apply,addNested]
    split
    · exact pushed _
    · exact pending
  | resume g =>
    have kept : f ∈ s.pending.erase g := (List.mem_erase_of_ne (fun same => other (by rw [same]))).mpr pending
    cases g with
    | own b own => exact runOwn_pending (s := s.drop (.own b own)) b own kept
    | fireHold h =>
      simp only [apply,runFrame,fireHold]
      split <;> exact kept

end Pending

-- What one step can do to a block it does not claim: move its counters and
-- marks, settle it, or attach it to a parent.
inductive Change (a : Action) (c : BlockId) (blk : Block) : Block → Prop where
  | edited : blk' = {blk with numLocks := locks,pipesEntered := entered,bodyClaimed := claimed,prereqCancelled := heard} →
    Change a c blk blk'
  | settled : a = .resume (.own c (.complete cancel)) ∨ blk.kind = .callerOwned → parent = none ∨ parent = blk.nestedParent →
    blk' = {blk.settled cancel with nestedParent := parent} → Change a c blk blk'
  | adopted : a = .addNested b c → blk' = {blk with numLocks := locks,nestedParent := some b} → Change a c blk blk'

section Changes

variable {s : State} {a : Action} {b c : BlockId}

theorem Change.same (blk : Block) : Change a c blk blk := .edited rfl

theorem setBlock_change (changed : c = b → Change a c (s.blocks c) blk) :
    Change a c (s.blocks c) ((s.setBlock b blk).blocks c) := by
  by_cases same : c = b
  · simpa [same] using changed same
  · simpa [same] using Change.same (s.blocks c)

theorem setBlock_edited : Change a c (s.blocks c) ((s.setBlock b {s.blocks b with
    numLocks := locks,pipesEntered := entered,bodyClaimed := claimed,prereqCancelled := heard}).blocks c) :=
  setBlock_change (fun same => .edited (by rw [same]))

theorem enterLink_change (s : State) (b c : BlockId) (i : Nat) : Change a c (s.blocks c) ((s.enterLink b i).blocks c) := by
  simp only [enterLink]
  split
  · exact .same _
  · split <;> exact setBlock_edited

theorem releaseBlock_change (s : State) (b c : BlockId) (heard : Bool) :
    Change a c (s.blocks c) ((s.releaseBlock b heard).blocks c) := by
  have released : Change a c (s.blocks c) ((s.setBlock b ((s.blocks b).release heard).1).blocks c) := setBlock_edited
  simp only [releaseBlock]
  split <;> exact released

theorem runOwn_change (s : State) (b c : BlockId) (f : LocalFrame) :
    Change (.resume (.own b f)) c (s.blocks c) ((s.runOwn b f).blocks c) := by
  cases f with
  | fireTurn i =>
    simp only [runOwn,fireTurn]
    split
    · exact enterLink_change (s.push (.own b .turnRelease)) b c (i+1)
    · exact .same _
  | turnRelease => exact releaseBlock_change s b c false
  | childRelease heard => exact releaseBlock_change s b c heard
  | enterFirst => exact enterLink_change s b c 0
  | execute =>
    simp only [runOwn,execute]
    split
    · exact .same _
    · split <;> exact setBlock_edited
  | complete cancel =>
    simp only [runOwn,complete]
    split
    · exact .same _
    · refine setBlock_change ?_
      rintro rfl
      exact .settled (.inl rfl) (.inr rfl) rfl
    · split
      · exact .same _
      · split <;>
        · refine setBlock_change ?_
          rintro rfl
          exact .settled (.inl rfl) (.inl rfl) rfl
  | advance i cancel =>
    simp only [runOwn,advance]
    split
    · split
      · exact .same _
      · rw [releasePipe_blocks]; exact .same _
    · split
      · rename_i kind
        refine setBlock_change ?_
        rintro rfl
        exact .settled (.inr kind) (.inr rfl) rfl
      · exact .same _
      · exact .same _
  | nodeComplete => exact .same _

theorem apply_change (s : State) (a : Action) (c : BlockId) (unclaimed : a.claims ≠ some c) :
    Change a c (s.blocks c) ((s.apply a).blocks c) := by
  have apart : ∀ b, a.claims = some b → c ≠ b := by
    rintro b claimed rfl
    exact unclaimed claimed
  cases a with
  | arm b kind links token => exact setBlock_change (fun same => absurd same (apart b rfl))
  | rebind b links => exact setBlock_change (fun same => absurd same (apart b rfl))
  | launch b =>
    simp only [apply,launch]
    split
    · exact .same _
    · exact enterLink_change s b c 0
  | tryInline b =>
    simp only [apply,tryInline]
    split
    · simpa [apart b rfl] using Change.same (s.blocks c)
    · exact .same _
  | createFrame b => exact setBlock_change (fun same => absurd same (apart b rfl))
  | settleBare b cancel => exact .same _
  | acquire h p mode owner => exact .same _
  | releaseHold h =>
    simp only [apply,releaseHold]
    split
    · rw [releasePipe_blocks]; exact .same _
    · exact .same _
  | requestCancel token => exact .same _
  | bodyEnd b =>
    simp only [apply,bodyEnd]
    split <;> exact setBlock_edited
  | addNested b child =>
    simp only [apply,addNested]
    split
    · exact setBlock_edited
    · by_cases same : c = child
      · subst same
        refine .adopted rfl (show _ = {s.blocks c with
          numLocks := if c = b then (s.blocks b).numLocks+1 else (s.blocks c).numLocks,nestedParent := some b} from ?_)
        by_cases own : c = b
        · subst own; simp
        · simp [own]
      · simp only [setProgress_blocks,setBlock_blocks,Function.update_of_ne same]
        exact setBlock_edited
  | resume f =>
    cases f with
    | own b f => exact runOwn_change (s.drop (.own b f)) b c f
    | fireHold h =>
      simp only [apply,runFrame,fireHold]
      split <;> exact .same _

-- The fields of a block that its cycle does not write.
structure Keeps (before after : Block) : Prop where
  kind : after.kind = before.kind
  links : after.links = before.links
  token : after.token = before.token

theorem Change.keeps (change : Change a c blk blk') : Keeps blk blk' := by
  cases change with
  | edited shape => subst shape; exact ⟨rfl,rfl,rfl⟩
  | settled _ _ shape => subst shape; exact ⟨rfl,rfl,rfl⟩
  | adopted _ shape => subst shape; exact ⟨rfl,rfl,rfl⟩

theorem apply_keeps (s : State) (a : Action) (c : BlockId) (unclaimed : a.claims ≠ some c) :
    Keeps (s.blocks c) ((s.apply a).blocks c) := (apply_change s a c unclaimed).keeps

-- Whether and how a block has settled.
def outcome (s : State) (b : BlockId) : Bool × Bool := ((s.blocks b).completed,(s.blocks b).cancelled)

theorem apply_outcome (s : State) (a : Action) (c : BlockId) (unclaimed : a.claims ≠ some c)
    (settles : ∀ cancel, a ≠ .resume (.own c (.complete cancel))) (last : (s.blocks c).kind ≠ .callerOwned) :
    (s.apply a).outcome c = s.outcome c := by
  simp only [outcome]
  cases apply_change s a c unclaimed with
  | edited shape => rw [shape]
  | settled cause _ shape =>
    rcases cause with completes | kind
    · exact absurd completes (settles _)
    · exact absurd kind last
  | adopted _ shape => rw [shape]

-- A child stays with its parent until it settles.
theorem apply_parent (allowed : s.Allowed a) (child : (s.blocks c).nestedParent = some b) (unclaimed : a.claims ≠ some c) :
    ((s.apply a).blocks c).nestedParent = some b ∨ ((s.apply a).blocks c).completed = true := by
  cases apply_change s a c unclaimed with
  | edited shape => rw [shape]; exact .inl child
  | settled _ _ shape => rw [shape]; exact .inr rfl
  | adopted call _ =>
    subst call
    rw [allowed.2.2.1] at child
    cases child

theorem enterLink_parent (s : State) (b c : BlockId) (i : Nat) :
    ((s.enterLink b i).blocks c).nestedParent = (s.blocks c).nestedParent := by
  simp only [enterLink]
  split
  · rfl
  · split <;> by_cases same : c = b <;> simp [setStatus,same]

-- And a new one is attached by its parent's body alone.
theorem parent_before (child : ((s.apply a).blocks c).nestedParent = some b) (attaches : a ≠ .addNested b c) :
    (s.blocks c).nestedParent = some b := by
  by_cases claimed : a.claims = some c
  · cases a with
    | arm b kind links token => cases Option.some.inj claimed; simp [apply] at child
    | rebind b links => cases Option.some.inj claimed; simpa [apply] using child
    | launch b =>
      cases Option.some.inj claimed
      simp only [apply,launch] at child
      split at child
      · exact child
      · rwa [enterLink_parent] at child
    | tryInline b =>
      cases Option.some.inj claimed
      simp only [apply,tryInline] at child
      split at child
      · simpa using child
      · exact child
    | createFrame b => cases Option.some.inj claimed; simp [apply] at child
    | settleBare b cancel => exact child
    | _ => cases claimed
  · cases apply_change s a c claimed with
    | edited shape => rw [shape] at child; exact child
    | settled _ parent shape =>
      rw [shape] at child
      rcases parent with rfl | rfl
      · cases child
      · exact child
    | adopted call shape =>
      rw [shape] at child
      cases child
      exact absurd call attaches

end Changes

-- A block that was told how to settle settles so.
structure Verdict (s : State) (b : BlockId) (cancel : Bool) : Prop where
  kind : (s.blocks b).kind = .bare
  told : (s.progress b).status = .finishing cancel ∨ s.outcome b = (true,cancel)

theorem complete_outcome (acc : Accounts s) (kind : (s.blocks b).kind = .bare)
    (pending : .own b (.complete cancel) ∈ s.pending) : (s.apply (.resume (.own b (.complete cancel)))).outcome b = (true,cancel) := by
  have incomplete : (s.blocks b).completed = false := by
    simpa [complete_status acc pending,Status.settled] using (acc.blocks b).cycle.completed
  simp only [apply,runFrame,runOwn,complete,drop_blocks,kind,incomplete,Bool.false_eq_true,ite_false]
  split <;> simp [outcome,settle,releaseParent,Block.settled]

theorem Verdict.kept (verdict : Verdict s b cancel) (acc : Accounts s) (allowed : s.Allowed a)
    (unclaimed : a.claims ≠ some b) : Verdict (s.apply a) b cancel := by
  obtain ⟨kind,told⟩ := verdict
  refine ⟨((apply_keeps s a b unclaimed).kind).trans kind,?_⟩
  by_cases settles : ∃ how, a = .resume (.own b (.complete how))
  · obtain ⟨how,rfl⟩ := settles
    have status := complete_status acc allowed
    have same : how = cancel := by
      rcases told with finishing | settled
      · rw [finishing] at status
        exact (Status.finishing.inj status).symm
      · have incomplete : (s.blocks b).completed = false := by
          simpa [status,Status.settled] using (acc.blocks b).cycle.completed
        rw [outcome,incomplete] at settled
        cases settled
    subst same
    exact .inr (complete_outcome acc kind allowed)
  · have other : ∀ how, a ≠ .resume (.own b (.complete how)) := fun how same => settles ⟨how,same⟩
    have kept := apply_outcome s a b unclaimed other (by simp [kind])
    rcases told with finishing | settled
    · -- settled by this step is what the unchanged outcome excludes
      left
      have incomplete : (s.blocks b).completed = false := by
        simpa [finishing,Status.settled] using (acc.blocks b).cycle.completed
      have after : ((s.apply a).blocks b).completed = ((s.apply a).progress b).status.settled ((s.apply a).blocks b).kind :=
        ((apply_accounts acc allowed).blocks b).cycle.completed
      have still : ((s.apply a).blocks b).completed = false := by
        rw [← incomplete]
        exact congrArg Prod.fst kept
      have next := apply_next acc allowed b unclaimed
      rw [finishing] at next
      cases shape : ((s.apply a).progress b).status <;> rw [shape] at next <;> cases next
      · rfl
      · rw [still,shape,(apply_keeps s a b unclaimed).kind,kind] at after
        cases after
    · exact .inr (kept.trans settled)

end State
end Macrame

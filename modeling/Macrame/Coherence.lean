import Macrame.AccountsKept

namespace Macrame
namespace State

-- A block that rests has no parent and no children.
theorem resting_alone (acc : Accounts s) (resting : (s.progress b).status.resting = true) :
    (s.blocks b).nestedParent = none ∧ (s.progress b).attached = [] := by
  have sound := acc.blocks b
  refine ⟨?_,(sound.unlocked (.inr (.inr (.inr (.inr resting))))).2.2.1⟩
  by_contra owned
  have live := (sound.cycle.parent owned).1
  rw [footprint_progress,resting] at live
  cases live

theorem arm_accounts (acc : Accounts s) (resting : (s.progress b).status.resting = true) (body : kind ≠ .coroutine)
    (bare : kind = .bare → links.count = 0) : Accounts (s.apply (.arm b kind links token)) := by
  have sound := acc.blocks b
  obtain ⟨orphan,unattached⟩ := resting_alone acc resting
  refine (((acc.but b).setBlock _ ?_).setProgress _ ?_).close ?_
  · exact orphan.symm
  · exact unattached.symm
  · simpa using sound.armed resting kind links token body bare

theorem createFrame_accounts (acc : Accounts s) (resting : (s.progress b).status.resting = true) :
    Accounts (s.apply (.createFrame b)) := by
  have sound := acc.blocks b
  obtain ⟨orphan,unattached⟩ := resting_alone acc resting
  refine (((acc.but b).setBlock _ ?_).setProgress _ ?_).close ?_
  · exact orphan.symm
  · exact unattached.symm
  · simpa using sound.framed resting

theorem rebind_accounts (acc : Accounts s) (status : (s.progress b).status = .armed)
    (kind : (s.blocks b).kind = .callerOwned) : Accounts (s.apply (.rebind b links)) := by
  refine ((acc.but b).setBlock _ ?_).close ?_
  · rfl
  · simpa using (acc.blocks b).rebound status kind links

theorem settleBare_accounts (acc : Accounts s) (status : (s.progress b).status = .armed)
    (kind : (s.blocks b).kind = .bare) : Accounts (s.apply (.settleBare b cancel)) := by
  refine (((acc.but b).setStatus _).push _).close ?_
  simpa using (acc.blocks b).settledBare status kind

theorem bodyEnd_accounts (acc : Accounts s) (status : (s.progress b).status = .running) :
    Accounts (s.bodyEnd b) := by
  obtain ⟨last,more⟩ := (acc.blocks b).body_ended status
  have unlocked := (acc.but b).setBlock {s.blocks b with numLocks := (s.blocks b).numLocks-1} rfl
  simp only [bodyEnd]
  split
  · rename_i alone
    refine ((unlocked.setProgress _ ?_).push _).close ?_
    · rfl
    · simpa using last alone
  · rename_i gated
    refine (unlocked.setStatus _).close ?_
    simpa using more gated

-- Attaching moves two blocks: the parent's counter, and the child's parent slot.
theorem addNested_accounts (acc : Accounts s) (status : (s.progress b).status = .running) (apart : b ≠ c)
    (orphan : (s.blocks c).nestedParent = none)
    (kind : (s.blocks c).kind ≠ .graphNode ∧ (s.blocks c).kind ≠ .callerOwned)
    (known : (s.blocks c).completed = true ∨ (s.progress c).status.resting = false) : Accounts (s.addNested b c) := by
  simp only [addNested]
  split
  · refine (((acc.but b).setBlock _ ?_).push _).close ?_
    · rfl
    · simpa using (acc.blocks b).ungated status
  · rename_i unsettled
    have open_yet : (s.blocks c).completed = false := by simpa using unsettled
    have live : (s.progress c).status.resting = false := by
      rcases known with settled | live
      · rw [open_yet] at settled; cases settled
      · exact live
    refine ⟨?_,?_,?_⟩
    · intro d
      by_cases child : d = c
      · subst child
        simpa [Ne.symm apart] using (acc.blocks d).adopted b live open_yet kind
      · by_cases parent : d = b
        · subst parent
          simpa [child] using (acc.blocks d).gated status c
        · simpa [child,parent] using acc.blocks d
    · intro h
      simpa using acc.holds h
    · intro d e
      have before := acc.nested d e
      by_cases parent : d = b
      · subst parent
        by_cases child : e = c
        · subst child
          rw [orphan] at before
          simpa using before
        · by_cases own : e = d
          · subst own; simpa [child,Ne.symm child] using before
          · simpa [child,Ne.symm child,own] using before
      · by_cases child : e = c
        · subst child
          rw [orphan] at before
          simpa [parent,Ne.symm parent] using before
        · by_cases own : e = b
          · subst own; simpa [child,parent] using before
          · simpa [child,parent,own] using before

theorem taken_held {hold : Hold} (taken : hold.taken = true) : ∃ p mode owner, hold = .held p mode owner := by
  cases hold <;> simp_all [Hold.taken]

theorem apply_accounts (acc : Accounts s) (allowed : s.Allowed a) : Accounts (s.apply a) := by
  cases a with
  | arm b kind links token => exact arm_accounts acc allowed.1 allowed.2.1 allowed.2.2
  | rebind b links => exact rebind_accounts acc allowed.1 allowed.2
  | launch b => exact launch_accounts acc allowed.1 allowed.2
  | tryInline b => exact tryInline_accounts acc allowed.1 (by rw [allowed.2]; decide)
  | createFrame b => exact createFrame_accounts acc allowed
  | settleBare b cancel => exact settleBare_accounts acc allowed.1 allowed.2
  | acquire h p mode owner => exact acquire_accounts acc allowed
  | releaseHold h =>
    obtain ⟨p,mode,owner,held⟩ := taken_held allowed
    exact releaseHold_accounts acc held
  | requestCancel token => exact ⟨acc.blocks,acc.holds,acc.nested⟩
  | bodyEnd b => exact bodyEnd_accounts acc allowed
  | addNested b c =>
    obtain ⟨status,apart,orphan,node,owned,known⟩ := allowed
    exact addNested_accounts acc status apart orphan ⟨node,owned⟩ known
  | resume f => exact resume_accounts acc allowed

theorem initial_accounts : Accounts initial := by
  refine ⟨?_,?_,?_⟩
  · intro b
    refine ⟨?_,?_,?_,⟨rfl,rfl,rfl,Int.le_refl 0⟩,rfl,?_⟩
    · intro p i m; rfl
    · intro p i m; rfl
    · intro f control; rfl
    · exact ⟨rfl,fun _ => rfl,fun _ => rfl,rfl,by simp [initial],by simp [initial],rfl,rfl,rfl,rfl,rfl,rfl,
        by simp [initial]⟩
  · intro h
    exact ⟨fun _ _ _ => rfl,fun _ _ _ => rfl,rfl⟩
  · intro b c; rfl

section Sections

variable {s : State}

theorem setPipe_section (sect : Tracked.Section (s.pipes p) t) (q : PipeId) :
    Tracked.Section (s.pipes q) ((s.setPipe p t).pipes q) := by
  by_cases here : q = p
  · subst here; simpa using sect
  · simpa [here] using Tracked.Section.same

theorem enterLink_section (s : State) (b : BlockId) (i : Nat) (q : PipeId) :
    Tracked.Section (s.pipes q) ((s.enterLink b i).pipes q) := by
  simp only [enterLink]
  split
  · exact .same
  · rename_i link place
    have entered := setPipe_section (s := s) (p := link.pipe) (.entered ⟨.link b i,link.mode⟩) q
    split <;> exact entered

@[simp] theorem granted_pipes (granted : List PipeLink) (s : State) : (granted.foldl grant s).pipes = s.pipes := by
  induction granted generalizing s with
  | nil => rfl
  | cons l rest ih => rw [List.foldl_cons,ih,grant_pipes]

theorem releasePipe_section (out : l ∈ (s.pipes p).held) (q : PipeId) :
    Tracked.Section (s.pipes q) ((s.releasePipe p l).pipes q) := by
  simp only [releasePipe,granted_pipes]
  exact setPipe_section (.released l out) q

theorem releaseBlock_pipes (s : State) (b : BlockId) (heard : Bool) : (s.releaseBlock b heard).pipes = s.pipes := by
  simp only [releaseBlock]
  split <;> rfl

theorem execute_pipes (s : State) (b : BlockId) : (s.execute b).pipes = s.pipes := by
  simp only [execute]
  split
  · rfl
  · split <;> rfl

theorem complete_pipes (s : State) (b : BlockId) (cancel : Bool) : (s.complete b cancel).pipes = s.pipes := by
  simp only [complete]
  split
  · rfl
  · rfl
  · split
    · rfl
    · split <;> rfl

theorem advance_section (acc : Accounts s) (pending : .own b (.advance i cancel) ∈ s.pending) (q : PipeId) :
    Tracked.Section (s.pipes q) ((s.runFrame (.own b (.advance i cancel))).pipes q) := by
  have status := advancing_status acc pending
  simp only [runFrame,runOwn,advance,drop_blocks,drop_progress]
  split
  · cases place : (s.blocks b).links.entries[i]? with
    | none => exact .same
    | some link =>
      have out := advancing_held acc status place
      exact releasePipe_section (s := ((s.drop (.own b (.advance i cancel))).setStatus b
        (.advancing (i+1) cancel)).push (.own b (.advance (i+1) cancel))) out q
  · split <;> exact .same

theorem resume_section (acc : Accounts s) (pending : f ∈ s.pending) (q : PipeId) :
    Tracked.Section (s.pipes q) ((s.runFrame f).pipes q) := by
  cases f with
  | fireHold h =>
    simp only [runFrame,fireHold]
    split <;> exact .same
  | own b f =>
    cases f with
    | fireTurn i =>
      simp only [runFrame,runOwn,fireTurn]
      split
      · exact enterLink_section ((s.drop (.own b (.fireTurn i))).push (.own b .turnRelease)) b (i+1) q
      · exact .same
    | turnRelease => simp only [runFrame,runOwn,releaseBlock_pipes]; exact .same
    | childRelease heard => simp only [runFrame,runOwn,releaseBlock_pipes]; exact .same
    | enterFirst => exact enterLink_section (s.drop (.own b .enterFirst)) b 0 q
    | execute => simp only [runFrame,runOwn,execute_pipes]; exact .same
    | complete cancel => simp only [runFrame,runOwn,complete_pipes]; exact .same
    | advance i cancel => exact advance_section acc pending q
    | nodeComplete => exact .same

theorem inlined_untouched (entries : List (Link × Nat)) (away : ∀ e ∈ entries, e.1.pipe ≠ q) :
    (entries.foldl (admitInline · b) s).pipes q = s.pipes q := by
  induction entries generalizing s with
  | nil => rfl
  | cons entry rest ih =>
    obtain ⟨apart,away⟩ := List.forall_mem_cons.mp away
    rw [List.foldl_cons,ih away]
    simp [admitInline,Ne.symm apart]

-- The probe passed on every pipe and the pipes differ, so each admit meets the
-- pipe as it was probed.
theorem inlined_section (entries : List (Link × Nat))
    (distinct : entries.Pairwise (fun a b => a.1.pipe < b.1.pipe))
    (free : ∀ e ∈ entries, (s.pipes e.1.pipe).pipe.free e.1.mode = true) (q : PipeId) :
    Tracked.Section (s.pipes q) ((entries.foldl (admitInline · b) s).pipes q) := by
  induction entries generalizing s with
  | nil => exact .same
  | cons entry rest ih =>
    obtain ⟨above,distinct⟩ := List.pairwise_cons.mp distinct
    rw [List.foldl_cons]
    by_cases here : q = entry.1.pipe
    · subst here
      rw [inlined_untouched rest (fun e member => Nat.ne_of_gt (above e member))]
      simpa [admitInline] using Tracked.Section.inlined ⟨.link b entry.2,entry.1.mode⟩ (free entry (by simp))
    · have untouched : ∀ e ∈ rest, (s.admitInline b entry).pipes e.1.pipe = s.pipes e.1.pipe := by
        intro e member
        have apart : e.1.pipe ≠ entry.1.pipe := Nat.ne_of_gt (above e member)
        simp [admitInline,apart]
      have later := ih (s := s.admitInline b entry) distinct
        (fun e member => by rw [untouched e member]; exact free e (List.mem_cons_of_mem _ member))
      have same : (s.admitInline b entry).pipes q = s.pipes q := by simp [admitInline,here]
      rwa [same] at later

theorem zipIdx_pairwise (table : LinkTable) :
    table.entries.zipIdx.Pairwise (fun a b => a.1.pipe < b.1.pipe) := by
  rw [List.pairwise_iff_getElem]
  intro i j first second before
  have ascending := List.pairwise_iff_getElem.mp table.canonical
  simpa using ascending i j (by simpa using first) (by simpa using second) before

theorem tryInline_section (s : State) (b : BlockId) (q : PipeId) :
    Tracked.Section (s.pipes q) ((s.tryInline b).pipes q) := by
  simp only [tryInline]
  split
  · rename_i probed
    refine inlined_section _ (zipIdx_pairwise _) ?_ q
    intro e member
    exact List.all_eq_true.mp probed e.1 (List.fst_mem_of_mem_zipIdx member)
  · exact .same

-- What any action does to any pipe.
theorem apply_section (acc : Accounts s) (allowed : s.Allowed a) (q : PipeId) :
    Tracked.Section (s.pipes q) ((s.apply a).pipes q) := by
  cases a with
  | launch b =>
    simp only [apply,launch]
    split
    · exact .same
    · exact enterLink_section s b 0 q
  | tryInline b => exact tryInline_section s b q
  | acquire h p mode owner => exact setPipe_section (.entered ⟨.hold h owner,mode⟩) q
  | releaseHold h =>
    obtain ⟨p,mode,owner,held⟩ := taken_held allowed
    have counted := (acc.holds h).held p owner mode
    rw [holdprint_hold,held] at counted
    have once : (s.pipes p).held.count ⟨.hold h owner,mode⟩ = 1 := counted.trans (by simp)
    simp only [apply,releaseHold,held]
    exact releasePipe_section (s := s.setHold h .idle) (List.count_pos_iff.mp (by rw [setHold_pipes]; omega)) q
  | bodyEnd b =>
    simp only [apply,bodyEnd]
    split <;> exact .same
  | addNested b c =>
    simp only [apply,addNested]
    split <;> exact .same
  | resume f => exact resume_section acc allowed q
  | _ => exact .same

end Sections

end State

theorem reached_accounts (path : Machines.Reached system s) : Accounts s :=
  Machines.reached_invariant Accounts (fun _ begun => by rw [begun]; exact State.initial_accounts)
    (fun _ _ acc allowed => State.apply_accounts acc allowed) path

theorem reached_valid (path : Machines.Reached system s) (p : PipeId) : Tracked.Valid (s.pipes p) :=
  Machines.reached_invariant_from (m := system) Accounts (fun s => Tracked.Valid (s.pipes p))
    (fun _ => reached_accounts) (fun s begun => by cases begun; exact Tracked.initial_valid)
    (fun _ _ acc valid allowed => (State.apply_section acc allowed p).valid valid) path

theorem runs_extends (path : Machines.Reached system s) (run : Machines.Runs system s actions t) (p : PipeId) :
    Tracked.Extends (s.pipes p) (t.pipes p) :=
  Machines.runs_related (fun s t => Tracked.Extends (s.pipes p) (t.pipes p))
    (fun s => Tracked.Extends.refl (s.pipes p)) (fun _ _ _ => Tracked.Extends.trans)
    (fun _ _ reached allowed => (State.apply_section (reached_accounts reached) allowed p).extends) path run

end Macrame

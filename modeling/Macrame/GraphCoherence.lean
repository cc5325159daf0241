import Macrame.GraphSystem
import Macrame.Lifecycle
import Macrame.RunAccounts

namespace Macrame

-- How the stage of a node shows in the status of its block.
def Stage.shows : Stage → Status → Prop
  | .blocked,status => status = .armed
  | .readied,status => status = .armed
  | .launched,status => status ≠ .armed ∧ status.resting = false
  | _,status => status = .retired

structure NodeAt (s : State) (b : BlockId) (stage : Stage) : Prop where
  kind : (s.blocks b).kind = .graphNode
  status : stage.shows (s.progress b).status

namespace State

-- A concluding node waits for its own `node_complete` alone.
theorem concluding_kept (acc : Accounts s) (allowed : s.Allowed a) (status : (s.progress b).status = .concluding)
    (other : a ≠ .resume (.own b .nodeComplete)) : ((s.apply a).progress b).status = .concluding := by
  have pending : .own b .nodeComplete ∈ s.pending := expected_pending acc (by rw [status]; rfl) rfl
  exact nodeComplete_status (apply_accounts acc allowed) (apply_pending pending other)

theorem nodeAt_kept (node : NodeAt s b stage) (acc : Accounts s) (allowed : s.Allowed a)
    (unclaimed : a.claims ≠ some b) (other : a ≠ .resume (.own b .nodeComplete)) : NodeAt (s.apply a) b stage := by
  obtain ⟨kind,status⟩ := node
  refine ⟨(apply_keeps s a b unclaimed).kind.trans kind,?_⟩
  have next := apply_next acc allowed b unclaimed
  by_cases concluding : (s.progress b).status = .concluding
  · rw [concluding_kept acc allowed concluding other,← concluding]
    exact status
  generalize (s.progress b).status = before at status next concluding
  generalize ((s.apply a).progress b).status = after at next ⊢
  rw [kind] at next
  cases stage <;> cases next <;> simp_all [Stage.shows,Status.resting]

theorem launch_status (s : State) (b : BlockId) : ((s.launch b).progress b).status = .ready ∨
    ((s.launch b).progress b).status = .admitted 0 ∨ ((s.launch b).progress b).status = .waiting 0 := by
  unfold launch
  split
  · left
    simp
  · rename_i linked
    right
    have place : (s.blocks b).links.entries[0]? ≠ none := by
      simp only [ne_eq,List.getElem?_eq_none_iff,Nat.le_zero_eq]
      exact linked
    unfold enterLink
    cases first : (s.blocks b).links.entries[0]? with
    | none => exact absurd first place
    | some link =>
      simp only
      split
      · left; simp [setStatus]
      · right; simp [setStatus]

theorem launch_links (s : State) (b : BlockId) : ((s.launch b).blocks b).links = (s.blocks b).links ∧
    ((s.launch b).blocks b).kind = (s.blocks b).kind := by
  unfold launch
  split
  · exact ⟨rfl,rfl⟩
  · unfold enterLink
    split
    · exact ⟨rfl,rfl⟩
    · dsimp only
      split <;> simp [setStatus]

theorem tryInline_links (s : State) (b : BlockId) : ((s.tryInline b).blocks b).links = (s.blocks b).links ∧
    ((s.tryInline b).blocks b).kind = (s.blocks b).kind := by
  simp only [tryInline]
  split <;> simp

theorem launch_node (node : NodeAt s b .readied) : s.Allowed (.launch b) ∧ NodeAt (s.apply (.launch b)) b .launched := by
  have armed : (s.progress b).status = .armed := node.status
  refine ⟨⟨armed,by rw [node.kind]; simp⟩,?_,?_⟩
  · simp only [apply,launch]
    split
    · exact node.kind
    · exact (enterLink_change (a := .launch b) s b b 0).keeps.kind.trans node.kind
  · simp only [apply,Stage.shows]
    rcases launch_status s b with ready | admitted | waiting
    · rw [ready]; exact ⟨by simp,rfl⟩
    · rw [admitted]; exact ⟨by simp,rfl⟩
    · rw [waiting]; exact ⟨by simp,rfl⟩

end State

namespace World

variable {d : Deployment}

-- The handle of a run: armed until it is told how to settle.
structure DoneAt (s : State) (run : Run) (b : BlockId) : Prop where
  apart : d.isNode b = false
  waiting : run.verdict = none → (s.progress b).status = .armed ∧ (s.blocks b).kind = .bare
  told : ∀ cancel, run.verdict = some cancel → State.Verdict s b cancel

-- A graph that runs, or has run.
structure Live (w : World d) (g : d.GraphId) (b : BlockId) : Prop where
  done : (w.runs g).done = some b
  books : (w.runs g).Sound (d.graph g)
  nodes : ∀ i, i < (d.graph g).size → NodeAt w.base (d.block g i) ((w.runs g).stage i)
  handle : DoneAt (d := d) w.base (w.runs g) b

structure Fresh (w : World d) (g : d.GraphId) : Prop where
  unused : w.runs g = {}
  nodes : ∀ i, i < (d.graph g).size → (w.base.progress (d.block g i)).status.resting = true

structure Sound (w : World d) : Prop where
  base : Machines.Reached system w.base
  graphs : ∀ g, w.Fresh g ∨ ∃ b, w.Live g b
  handles : ∀ g h b, (w.runs g).done = some b → (w.runs h).done = some b → g = h

section Kept

variable {w w' : World d}

theorem isNode_block (g : d.GraphId) (within : i < (d.graph g).size) : d.isNode (d.block g i) = true :=
  decide_eq_true ⟨g,⟨i,within⟩,rfl⟩

theorem DoneAt.kept (handle : DoneAt (d := d) s run b) (acc : Accounts s) (allowed : s.Allowed a)
    (unclaimed : a.claims ≠ some b) : DoneAt (d := d) (s.apply a) run b := by
  obtain ⟨apart,waiting,told⟩ := handle
  refine ⟨apart,?_,fun cancel decided => (told cancel decided).kept acc allowed unclaimed⟩
  intro undecided
  obtain ⟨armed,kind⟩ := waiting undecided
  have next := State.apply_next acc allowed b unclaimed
  rw [armed] at next
  refine ⟨?_,(State.apply_keeps s a b unclaimed).kind.trans kind⟩
  generalize ((s.apply a).progress b).status = after at next ⊢
  cases next
  rfl

-- A step that leaves the blocks of a graph alone leaves the graph alone.
theorem Live.kept (live : w.Live g b) (acc : Accounts w.base) (allowed : w.base.Allowed a)
    (nodes : ∀ i, i < (d.graph g).size → a.claims ≠ some (d.block g i) ∧ a ≠ .resume (.own (d.block g i) .nodeComplete))
    (handle : a.claims ≠ some b) (run : w'.runs g = w.runs g) (base : w'.base = w.base.apply a) : w'.Live g b := by
  obtain ⟨done,books,places,held⟩ := live
  rw [← run] at done books places held
  refine ⟨done,books,?_,by rw [base]; exact held.kept acc allowed handle⟩
  intro i within
  rw [base]
  exact State.nodeAt_kept (places i within) acc allowed (nodes i within).1 (nodes i within).2

theorem Fresh.kept (fresh : w.Fresh g) (acc : Accounts w.base) (allowed : w.base.Allowed a)
    (nodes : ∀ i, i < (d.graph g).size → a.claims ≠ some (d.block g i)) (run : w'.runs g = w.runs g)
    (base : w'.base = w.base.apply a) : w'.Fresh g := by
  refine ⟨run.trans fresh.unused,?_⟩
  intro i within
  have resting := fresh.nodes i within
  have next := State.apply_next acc allowed (d.block g i) (nodes i within)
  rw [base]
  generalize (w.base.progress (d.block g i)).status = before at resting next
  generalize ((w.base.apply a).progress (d.block g i)).status = after at next ⊢
  cases next <;> first | exact resting | cases resting

theorem outside_claims (outside : w.outside a = true) (claimed : a.claims = some b) : w.owned b = false := by
  cases a <;> simp_all [World.outside,Action.claims]

theorem outside_complete (outside : w.outside a = true) (g : d.GraphId) (within : i < (d.graph g).size) :
    a ≠ .resume (.own (d.block g i) .nodeComplete) := by
  rintro rfl
  simp [World.outside,isNode_block g within] at outside

theorem unowned_node (unowned : w.owned b = false) (g : d.GraphId) (within : i < (d.graph g).size) : b ≠ d.block g i := by
  rintro rfl
  simp [World.owned,isNode_block g within] at unowned

theorem unowned_done (unowned : w.owned b = false) (g : d.GraphId) : (w.runs g).done ≠ some b := by
  intro done
  simp only [World.owned,Bool.or_eq_false_iff,decide_eq_false_iff_not] at unowned
  exact unowned.2 ⟨g,done⟩

theorem base_sound (sound : w.Sound) (allowed : w.Allowed (.base a)) : (w.apply (.base a)).Sound := by
  obtain ⟨may,outside⟩ := allowed
  have acc := reached_accounts sound.base
  refine ⟨.step sound.base may,?_,sound.handles⟩
  intro g
  have nodes : ∀ i, i < (d.graph g).size → a.claims ≠ some (d.block g i) := by
    intro i within claimed
    exact unowned_node (outside_claims outside claimed) g within rfl
  rcases sound.graphs g with fresh | ⟨b,live⟩
  · exact .inl (fresh.kept acc may nodes rfl rfl)
  · refine .inr ⟨b,live.kept acc may (fun i within => ⟨nodes i within,outside_complete outside g within⟩) ?_ rfl rfl⟩
    intro claimed
    exact unowned_done (outside_claims outside claimed) g live.done

-- The other graphs under a step that one graph takes on one of its own blocks.
theorem others_kept (sound : w.Sound) (allowed : w.base.Allowed a) (apart : h ≠ g)
    (owner : ∀ c, a.claims = some c ∨ a = .resume (.own c .nodeComplete) →
      (∃ i, i < (d.graph g).size ∧ c = d.block g i) ∨ (w.runs g).done = some c ∧ d.isNode c = false)
    (run : w'.runs h = w.runs h) (base : w'.base = w.base.apply a) : w'.Fresh h ∨ ∃ b, w'.Live h b := by
  have acc := reached_accounts sound.base
  have nodes : ∀ i, i < (d.graph h).size →
      a.claims ≠ some (d.block h i) ∧ a ≠ .resume (.own (d.block h i) .nodeComplete) := by
    intro i within
    have foreign : ¬ (a.claims = some (d.block h i) ∨ a = .resume (.own (d.block h i) .nodeComplete)) := by
      intro touched
      rcases owner _ touched with ⟨j,below,same⟩ | ⟨_,free⟩
      · exact apart (d.distinct h g i j within below same).1
      · rw [isNode_block h within] at free
        cases free
    exact ⟨fun claimed => foreign (.inl claimed),fun completes => foreign (.inr completes)⟩
  rcases sound.graphs h with fresh | ⟨b,live⟩
  · exact .inl (fresh.kept acc allowed (fun i within => (nodes i within).1) run base)
  · refine .inr ⟨b,live.kept acc allowed nodes ?_ run base⟩
    intro claimed
    rcases owner b (.inl claimed) with ⟨j,below,same⟩ | ⟨done,_⟩
    · have node := live.handle.apart
      rw [same,isNode_block g below] at node
      cases node
    · exact apart (sound.handles h g b live.done done)

end Kept

section Steps

variable {w : World d}

theorem handle_apart (live : w.Live g b) (h : d.GraphId) (within : i < (d.graph h).size) : b ≠ d.block h i := by
  rintro rfl
  have node := live.handle.apart
  rw [isNode_block h within] at node
  cases node

theorem setRun_own (w : World d) (g : d.GraphId) (run : Run) (base : State) : (w.setRun g run base).runs g = run := by
  simp [setRun]

theorem setRun_other (w : World d) (run : Run) (base : State) (apart : h ≠ g) :
    (w.setRun g run base).runs h = w.runs h := by
  simp [setRun,apart]

-- The handles stay apart while a graph keeps its own.
theorem setRun_handles (sound : w.Sound) (run : Run) (base : State) (done : run.done = (w.runs g).done) (h k : d.GraphId)
    (b : BlockId) (one : ((w.setRun g run base).runs h).done = some b) (two : ((w.setRun g run base).runs k).done = some b) :
    h = k := by
  have same : ∀ x, ((w.setRun g run base).runs x).done = (w.runs x).done := by
    intro x
    by_cases here : x = g
    · subst here; rw [setRun_own,done]
    · rw [setRun_other w run base here]
  rw [same] at one two
  exact sound.handles h k b one two

theorem nodeComplete_sound (sound : w.Sound) (allowed : w.Allowed (.nodeComplete g i)) :
    (w.apply (.nodeComplete g i)).Sound := by
  obtain ⟨within,pending⟩ := allowed
  have acc := reached_accounts sound.base
  have concluding := State.nodeComplete_status acc pending
  have may : w.base.Allowed (.resume (.own (d.block g i) .nodeComplete)) := pending
  refine ⟨.step sound.base may,?_,setRun_handles sound _ _ rfl⟩
  intro h
  by_cases here : h = g
  · subst here
    rcases sound.graphs h with fresh | ⟨b,live⟩
    · have resting := fresh.nodes i within
      rw [concluding] at resting
      cases resting
    · obtain ⟨kind,shown⟩ := live.nodes i within
      have launched : (w.runs h).stage i = .launched := by
        rw [concluding] at shown
        cases shape : (w.runs h).stage i <;> simp [shape,Stage.shows] at shown ⊢
      have own : ((w.apply (.nodeComplete h i)).runs h) = (w.runs h).nodeComplete (d.graph h) i := setRun_own ..
      refine .inr ⟨b,?_,?_,?_,?_⟩
      · rw [own]; exact live.done
      · rw [own]; exact Run.nodeComplete_sound live.books within launched
      · intro j inside
        rw [own]
        by_cases same : j = i
        · subst same
          refine ⟨(State.apply_keeps w.base (.resume (.own (d.block h j) .nodeComplete)) _
            (by simp [Action.claims])).kind.trans kind,?_⟩
          simp [World.apply,World.setRun,State.apply,State.runFrame,State.runOwn,State.setStatus,Run.nodeComplete,
            Run.push,Run.setStage,Stage.shows]
        · have unmoved : ((w.runs h).nodeComplete (d.graph h) i).stage j = (w.runs h).stage j := by
            simp [Run.nodeComplete,Run.push,Run.setStage,same]
          rw [unmoved]
          refine State.nodeAt_kept (live.nodes j inside) acc may (by simp [Action.claims]) ?_
          intro completes
          simp only [Action.resume.injEq,Frame.own.injEq,and_true] at completes
          exact same (d.distinct h h i j within inside completes).2.symm
      · have handle := live.handle.kept acc may (by simp [Action.claims])
        rw [own]
        exact ⟨handle.apart,handle.waiting,handle.told⟩
  · refine others_kept (g := g) sound may here ?_ (setRun_other w _ _ here) rfl
    rintro c (claimed | completes)
    · cases claimed
    · simp only [Action.resume.injEq,Frame.own.injEq,and_true] at completes
      exact .inl ⟨i,within,completes.symm⟩

-- A tail that triggers a ready node.
theorem trigger_sound (sound : w.Sound) (live : w.Live g b) (within : j < (d.graph g).size)
    (ready : (w.runs g).stage j = .readied) (run : Run) (books : run.Sound (d.graph g)) (done : run.done = (w.runs g).done)
    (verdict : run.verdict = (w.runs g).verdict) (own : run.stage j = .launched)
    (others : ∀ x, x ≠ j → ((w.runs g).stage x).shows = (run.stage x).shows) :
    (w.setRun g run (w.onDataReady g j)).Sound := by
  have acc := reached_accounts sound.base
  have node := live.nodes j within
  rw [ready] at node
  obtain ⟨may,launched⟩ := State.launch_node node
  refine ⟨.step sound.base may,?_,setRun_handles sound _ _ done⟩
  intro h
  by_cases here : h = g
  · subst here
    refine .inr ⟨b,?_,?_,?_,?_⟩
    · rw [setRun_own,done]; exact live.done
    · rw [setRun_own]; exact books
    · intro x inside
      rw [setRun_own]
      by_cases same : x = j
      · subst same
        rw [own]
        exact launched
      · have kept : NodeAt (w.base.apply (.launch (d.block h j))) (d.block h x) ((w.runs h).stage x) := by
          refine State.nodeAt_kept (live.nodes x inside) acc may ?_ (by simp)
          intro claimed
          exact same (d.distinct h h j x within inside (Option.some.inj claimed)).2.symm
        exact ⟨kept.kind,by rw [← others x same]; exact kept.status⟩
    · rw [setRun_own]
      have handle := live.handle.kept acc may
        (fun claimed => handle_apart live h within (Option.some.inj claimed).symm)
      exact ⟨handle.apart,by rw [verdict]; exact handle.waiting,by rw [verdict]; exact handle.told⟩
  · refine others_kept (g := g) sound may here ?_ (setRun_other w _ _ here) rfl
    rintro c (claimed | completes)
    · exact .inl ⟨j,within,(Option.some.inj claimed).symm⟩
    · cases completes

-- A tail that touches the counters alone.
theorem counting_sound (sound : w.Sound) (live : w.Live g b) (run : Run) (books : run.Sound (d.graph g))
    (done : run.done = (w.runs g).done) (verdict : run.verdict = (w.runs g).verdict)
    (shows : ∀ x, x < (d.graph g).size → ((w.runs g).stage x).shows = (run.stage x).shows) :
    (w.setRun g run w.base).Sound := by
  refine ⟨sound.base,?_,setRun_handles sound _ _ done⟩
  intro h
  by_cases here : h = g
  · subst here
    refine .inr ⟨b,?_,?_,?_,?_⟩
    · rw [setRun_own,done]; exact live.done
    · rw [setRun_own]; exact books
    · intro x inside
      rw [setRun_own]
      exact ⟨(live.nodes x inside).kind,by rw [← shows x inside]; exact (live.nodes x inside).status⟩
    · rw [setRun_own]
      exact ⟨live.handle.apart,by rw [verdict]; exact live.handle.waiting,by rw [verdict]; exact live.handle.told⟩
  · rcases sound.graphs h with fresh | ⟨c,other⟩
    · exact .inl ⟨(setRun_other w _ _ here).trans fresh.unused,fresh.nodes⟩
    · refine .inr ⟨c,?_,?_,?_,?_⟩
      · rw [setRun_other w _ _ here]; exact other.done
      · rw [setRun_other w _ _ here]; exact other.books
      · rw [setRun_other w _ _ here]; exact other.nodes
      · rw [setRun_other w _ _ here]; exact other.handle

-- The tail that settles the handle.
theorem conclude_sound (sound : w.Sound) (live : w.Live g b) (pending : .conclude ∈ (w.runs g).tails) :
    (w.apply (.tail g .conclude)).Sound := by
  have acc := reached_accounts sound.base
  obtain ⟨armed,kind⟩ := live.handle.waiting (Run.expected live.books pending).2
  have may : w.base.Allowed (.settleBare b (w.cancelRequested g)) := ⟨armed,kind⟩
  have base : (w.apply (.tail g .conclude)).base = w.base.apply (.settleBare b (w.cancelRequested g)) := by
    simp [World.apply,World.setRun,World.tailBase,live.done]
  have settles : system.allowed w.base (.settleBare b (w.cancelRequested g)) := may
  have path := Machines.Reached.step sound.base settles
  refine ⟨by rw [base]; exact path,?_,setRun_handles sound _ _ rfl⟩
  intro h
  by_cases here : h = g
  · subst here
    have own : ((w.apply (.tail h .conclude)).runs h) = (w.runs h).resume (w.cancelRequested h) .conclude := setRun_own ..
    refine .inr ⟨b,?_,?_,?_,?_⟩
    · rw [own]; exact live.done
    · rw [own]; exact Run.resume_sound live.books _ pending
    · intro x inside
      rw [own,base]
      exact State.nodeAt_kept (live.nodes x inside) acc may
        (fun claimed => handle_apart live h inside (Option.some.inj claimed)) (by simp)
    · rw [own,base]
      refine ⟨live.handle.apart,?_,?_⟩
      · intro undecided
        cases undecided
      · intro cancel decided
        cases decided
        exact ⟨kind,.inl (by simp [State.apply,State.setStatus])⟩
  · refine others_kept (g := g) sound may here ?_ (setRun_other w _ _ here) base
    rintro c (claimed | completes)
    · cases claimed
      exact .inr ⟨live.done,live.handle.apart⟩
    · cases completes

theorem tail_sound (sound : w.Sound) (allowed : w.Allowed (.tail g t)) : (w.apply (.tail g t)).Sound := by
  have pending : t ∈ (w.runs g).tails := allowed
  rcases sound.graphs g with fresh | ⟨b,live⟩
  · rw [fresh.unused] at pending
    cases pending
  have books := Run.resume_sound live.books (w.cancelRequested g) pending
  have expected := Run.expected live.books pending
  cases t with
  | conclude => exact conclude_sound sound live pending
  | kick roots =>
    cases roots with
    | nil => exact absurd rfl expected.2
    | cons j rest =>
      obtain ⟨within,ready⟩ := Run.kicked_readied live.books (j := j) (by rw [expected.1]; exact List.mem_cons_self)
      refine trigger_sound sound live within ready _ books rfl rfl ?_ ?_
      · simp [Run.resume,Run.advance,Run.kickTail,Run.launch,Run.setStage]
      · intro x other
        simp [Run.resume,Run.advance,Run.kickTail,Run.launch,Run.setStage,Run.drop,other]
  | lower i left ready =>
    obtain ⟨below,here⟩ := expected
    refine counting_sound sound live _ books ?_ ?_ ?_
    · cases left <;> rfl
    · cases left <;> rfl
    · intro x inside
      cases left with
      | nil =>
        by_cases same : x = i
        · subst same; simp only [Run.resume,Run.advance,Run.push,Run.setStage,here,Function.update_self]; rfl
        · simp [Run.resume,Run.advance,Run.push,Run.setStage,Run.drop,same]
      | cons j left =>
        obtain ⟨_,_,_,waiting⟩ := Run.lower_target live.books below here
        by_cases same : x = i
        · subst same; simp only [Run.resume,Run.advance,Run.lowerDep,here,Function.update_self]; rfl
        · rw [Run.lowerDep_stage _ _ i j left ready x same]
          split
          · rename_i target
            rw [target.1,waiting]
            rfl
          · rfl
  | fire i ready =>
    obtain ⟨below,here⟩ := expected
    cases ready with
    | nil =>
      refine counting_sound sound live _ books rfl rfl ?_
      intro x inside
      by_cases same : x = i
      · subst same; simp only [Run.resume,Run.advance,Run.countNode,Run.setStage,here,Function.update_self]; rfl
      · simp [Run.resume,Run.advance,Run.countNode,Run.setStage,Run.drop,same]
    | cons j rest =>
      obtain ⟨within,waiting⟩ := Run.carried_readied live.books below (j := j) (by rw [here]; exact List.mem_cons_self)
      have apart : j ≠ i := by
        rintro rfl
        rw [here] at waiting
        cases waiting
      refine trigger_sound sound live within waiting _ books rfl rfl ?_ ?_
      · simp [Run.resume,Run.advance,Run.push,Run.launch,Run.setStage,apart]
      · intro x other
        by_cases same : x = i
        · subst same; simp only [Run.resume,Run.advance,Run.push,Run.setStage,here,Function.update_self]; rfl
        · simp [Run.resume,Run.advance,Run.push,Run.launch,Run.setStage,Run.drop,other,same]

end Steps

section Execute

variable {w w' : World d}

-- What a graph's standing depends on: its run, its blocks and its handle.
theorem Live.same (live : w.Live g b) (run : w'.runs g = w.runs g)
    (nodes : ∀ i, i < (d.graph g).size → w'.base.blocks (d.block g i) = w.base.blocks (d.block g i) ∧
      w'.base.progress (d.block g i) = w.base.progress (d.block g i))
    (handle : w'.base.blocks b = w.base.blocks b ∧ w'.base.progress b = w.base.progress b) : w'.Live g b := by
  obtain ⟨done,books,places,⟨apart,waiting,told⟩⟩ := live
  rw [← run] at done books places waiting told
  refine ⟨done,books,?_,⟨apart,?_,?_⟩⟩
  · intro i within
    obtain ⟨kind,status⟩ := places i within
    exact ⟨by rw [(nodes i within).1]; exact kind,by rw [(nodes i within).2]; exact status⟩
  · rw [handle.1,handle.2]
    exact waiting
  · intro cancel decided
    obtain ⟨kind,heard⟩ := told cancel decided
    refine ⟨by rw [handle.1]; exact kind,?_⟩
    rw [handle.2,State.outcome,handle.1]
    exact heard

theorem Fresh.same (fresh : w.Fresh g) (run : w'.runs g = w.runs g)
    (nodes : ∀ i, i < (d.graph g).size → w'.base.progress (d.block g i) = w.base.progress (d.block g i)) : w'.Fresh g :=
  ⟨run.trans fresh.unused,fun i within => by rw [nodes i within]; exact fresh.nodes i within⟩

-- Between two runs every node of the graph rests.
theorem nodes_resting (sound : w.Sound) (settled : ∀ b ∈ (w.runs g).done, (w.base.blocks b).completed = true)
    (within : i < (d.graph g).size) : (w.base.progress (d.block g i)).status.resting = true := by
  rcases sound.graphs g with fresh | ⟨b,live⟩
  · exact fresh.nodes i within
  · have completed := settled b live.done
    have decided : (w.runs g).verdict ≠ none := by
      intro undecided
      obtain ⟨armed,_⟩ := live.handle.waiting undecided
      have cycle := ((reached_accounts sound.base).blocks b).cycle.completed
      rw [State.footprint_block,completed,State.footprint_progress,armed] at cycle
      cases cycle
    have none_left := live.books.last decided
    rw [live.books.nodes] at none_left
    have counted := Tally.tally_zero.mp (by exact_mod_cast none_left) i within
    have stage : (w.runs g).stage i = .counted := by
      by_contra other
      simp [uncounted,other] at counted
    have shown := (live.nodes i within).status
    rw [stage] at shown
    rw [show (w.base.progress (d.block g i)).status = .retired from shown]
    rfl

theorem rearmNodes_spec (g : d.GraphId) (token : Option TokenId) (lent : List PipeId) (nodes : List Nat) (s : State)
    (path : Machines.Reached system s) (inner : ∀ i ∈ nodes, i < (d.graph g).size) (distinct : nodes.Nodup)
    (resting : ∀ i ∈ nodes, (s.progress (d.block g i)).status.resting = true) :
    Machines.Reached system (rearmNodes g token lent s nodes) ∧
    (∀ i ∈ nodes, NodeAt (rearmNodes g token lent s nodes) (d.block g i) .readied) ∧
    ∀ b, (∀ i ∈ nodes, b ≠ d.block g i) → (rearmNodes g token lent s nodes).blocks b = s.blocks b ∧
      (rearmNodes g token lent s nodes).progress b = s.progress b := by
  induction nodes generalizing s with
  | nil => exact ⟨path,by simp,fun _ _ => ⟨rfl,rfl⟩⟩
  | cons i rest ih =>
    obtain ⟨fresh,distinct⟩ := List.nodup_cons.mp distinct
    have apart : ∀ j ∈ rest, d.block g j ≠ d.block g i := by
      intro j member same
      have equal := (d.distinct g g j i (inner j (List.mem_cons_of_mem _ member)) (inner i List.mem_cons_self) same).2
      exact fresh (by rwa [← equal])
    have may : system.allowed s (.arm (d.block g i) .graphNode
        (((d.graph g).nodeLinks i).keep (fun link => !lent.contains link.pipe)) token) :=
      ⟨resting i List.mem_cons_self,by simp,by simp⟩
    have elsewhere : ∀ b, b ≠ d.block g i → (rearmNode g token lent s i).blocks b = s.blocks b ∧
        (rearmNode g token lent s i).progress b = s.progress b := by
      intro b other
      simp [rearmNode,State.apply,other]
    have later := ih (rearmNode g token lent s i) (Machines.Reached.step path may)
      (fun j member => inner j (List.mem_cons_of_mem _ member)) distinct (fun j member => by
        rw [(elsewhere _ (apart j member)).2]
        exact resting j (List.mem_cons_of_mem _ member))
    obtain ⟨reached,armed,others⟩ := later
    refine ⟨reached,?_,?_⟩
    · intro j member
      rcases List.mem_cons.mp member with rfl | behind
      · obtain ⟨blocks,progress⟩ := others (d.block g j) (fun k inside => (apart k inside).symm)
        refine ⟨?_,?_⟩
        · rw [show rearmNodes g token lent s (j :: rest) = rearmNodes g token lent (rearmNode g token lent s j) rest from rfl,
            blocks]
          simp [rearmNode,State.apply]
        · rw [show rearmNodes g token lent s (j :: rest) = rearmNodes g token lent (rearmNode g token lent s j) rest from rfl,
            progress]
          simp [rearmNode,State.apply,Stage.shows]
      · exact armed j behind
    · intro b outside
      obtain ⟨blocks,progress⟩ := others b (fun j member => outside j (List.mem_cons_of_mem _ member))
      obtain ⟨one,two⟩ := elsewhere b (outside i List.mem_cons_self)
      exact ⟨blocks.trans one,progress.trans two⟩

-- The blocks of a run, armed and not yet joined to a parent.
structure Armed (w : World d) (g : d.GraphId) (done : BlockId) (s : State) : Prop where
  path : Machines.Reached system s
  nodes : ∀ i, i < (d.graph g).size → NodeAt s (d.block g i) .readied
  handle : (s.progress done).status = .armed ∧ (s.blocks done).kind = .bare ∧ (s.blocks done).nestedParent = none
  others : ∀ b, (∀ i, i < (d.graph g).size → b ≠ d.block g i) → b ≠ done →
    s.blocks b = w.base.blocks b ∧ s.progress b = w.base.progress b

theorem arm_run (sound : w.Sound) (allowed : w.Allowed (.execute g done token lent parent)) :
    w.Armed g done ((rearmNodes g token lent w.base (List.range (d.graph g).size)).apply (.arm done .bare .empty none)) := by
  obtain ⟨settled,resting,unowned,_⟩ := allowed
  have apart : ∀ i, i < (d.graph g).size → done ≠ d.block g i := fun i within => unowned_node unowned g within
  obtain ⟨path,armed,others⟩ := rearmNodes_spec g token lent (List.range (d.graph g).size) w.base sound.base
    (fun i member => List.mem_range.mp member) List.nodup_range
    (fun i member => nodes_resting sound settled (List.mem_range.mp member))
  have untouched := others done (fun i member => apart i (List.mem_range.mp member))
  have may : system.allowed (rearmNodes g token lent w.base (List.range (d.graph g).size))
      (.arm done .bare .empty none) := by
    refine ⟨?_,by simp,fun _ => rfl⟩
    rw [untouched.2]
    exact resting
  refine ⟨.step path may,?_,?_,?_⟩
  · intro i within
    obtain ⟨kind,status⟩ := armed i (List.mem_range.mpr within)
    have other := (apart i within).symm
    exact ⟨by simpa [State.apply,other] using kind,by simpa [State.apply,other] using status⟩
  · simp [State.apply]
  · intro b outside other
    obtain ⟨blocks,progress⟩ := others b (fun i member => outside i (List.mem_range.mp member))
    exact ⟨by simpa [State.apply,other] using blocks,by simpa [State.apply,other] using progress⟩

-- Joining the caller's scope is an `add_nested` of the handle by a running body.
theorem join_allowed (sound : w.Sound) (allowed : w.Allowed (.execute g done token lent (some parent)))
    (armed : w.Armed g done s) : s.Allowed (.addNested parent done) := by
  obtain ⟨settled,resting,unowned,running⟩ := allowed
  have runs : (w.base.progress parent).status = .running := running parent rfl
  have foreign : ∀ i, i < (d.graph g).size → parent ≠ d.block g i := by
    rintro i within rfl
    have rests := nodes_resting sound settled within
    rw [runs] at rests
    cases rests
  have other : parent ≠ done := by
    rintro rfl
    rw [runs] at resting
    cases resting
  obtain ⟨status,kind,orphan⟩ := armed.handle
  refine ⟨?_,other,orphan,by simp [kind],by simp [kind],.inr (by rw [status]; rfl)⟩
  rw [(armed.others parent foreign other).2]
  exact runs

theorem joined_run (sound : w.Sound) (allowed : w.Allowed (.execute g done token lent parent)) (armed : w.Armed g done s) :
    Machines.Reached system (join s done parent) ∧
    (∀ i, i < (d.graph g).size → NodeAt (join s done parent) (d.block g i) .readied) ∧
    ((join s done parent).progress done).status = .armed ∧ ((join s done parent).blocks done).kind = .bare ∧
    ∀ h, h ≠ g → (⟨join s done parent,w.runs⟩ : World d).Fresh h ∨ ∃ b, (⟨join s done parent,w.runs⟩ : World d).Live h b := by
  have unowned := allowed.2.2.1
  -- the arming left every other graph as it was
  have kept : ∀ h, h ≠ g → (⟨s,w.runs⟩ : World d).Fresh h ∨ ∃ b, (⟨s,w.runs⟩ : World d).Live h b := by
    intro h apart
    have foreign : ∀ i, i < (d.graph h).size → s.blocks (d.block h i) = w.base.blocks (d.block h i) ∧
        s.progress (d.block h i) = w.base.progress (d.block h i) := by
      intro i within
      refine armed.others _ ?_ (unowned_node unowned h within).symm
      intro j inside same
      exact apart (d.distinct h g i j within inside same).1
    rcases sound.graphs h with fresh | ⟨b,live⟩
    · exact .inl (fresh.same rfl (fun i within => (foreign i within).2))
    · refine .inr ⟨b,live.same rfl foreign (armed.others b ?_ ?_)⟩
      · intro i within
        exact handle_apart live g within
      · rintro rfl
        exact unowned_done unowned h live.done
  cases parent with
  | none => exact ⟨armed.path,armed.nodes,armed.handle.1,armed.handle.2.1,kept⟩
  | some p =>
    have may := join_allowed sound allowed armed
    have steps : system.allowed s (.addNested p done) := may
    have acc := reached_accounts armed.path
    have next := State.apply_next acc may done (by simp [Action.claims])
    rw [armed.handle.1] at next
    refine ⟨.step armed.path steps,?_,?_,?_,?_⟩
    · intro i within
      exact State.nodeAt_kept (armed.nodes i within) acc may (by simp [Action.claims]) (by simp)
    · show ((s.apply (.addNested p done)).progress done).status = .armed
      generalize ((s.apply (.addNested p done)).progress done).status = after at next ⊢
      cases next
      rfl
    · exact (State.apply_keeps s (.addNested p done) done (by simp [Action.claims])).kind.trans armed.handle.2.1
    · intro h apart
      rcases kept h apart with fresh | ⟨b,live⟩
      · exact .inl (fresh.kept acc may (by simp [Action.claims]) rfl rfl)
      · exact .inr ⟨b,live.kept acc may (by simp [Action.claims]) (by simp [Action.claims]) rfl rfl⟩

theorem execute_handles (sound : w.Sound) (unowned : w.owned done = false) (base : State) (h k : d.GraphId) (b : BlockId)
    (one : ((w.setRun g (.rearm (d.graph g) token done) base).runs h).done = some b)
    (two : ((w.setRun g (.rearm (d.graph g) token done) base).runs k).done = some b) : h = k := by
  have own : (Run.rearm (d.graph g) token done).done = some done := rfl
  by_cases first : h = g
  · by_cases second : k = g
    · rw [first,second]
    · subst first
      rw [setRun_own,own] at one
      rw [setRun_other w _ _ second,← Option.some.inj one] at two
      exact absurd two (unowned_done unowned k)
  · by_cases second : k = g
    · subst second
      rw [setRun_own,own] at two
      rw [setRun_other w _ _ first,← Option.some.inj two] at one
      exact absurd one (unowned_done unowned h)
    · rw [setRun_other w _ _ first] at one
      rw [setRun_other w _ _ second] at two
      exact sound.handles h k b one two

theorem firstStage_shows (g : Graph) (i : Nat) : (Run.firstStage g i).shows = Stage.readied.shows := by
  unfold Run.firstStage
  split <;> rfl

theorem execute_sound (sound : w.Sound) (allowed : w.Allowed (.execute g done token lent parent)) :
    (w.apply (.execute g done token lent parent)).Sound := by
  have unowned := allowed.2.2.1
  have armed := arm_run sound allowed
  obtain ⟨path,nodes,status,kind,others⟩ := joined_run sound allowed armed
  have foreign : ∀ h, ∀ i, i < (d.graph h).size → done ≠ d.block h i := fun h i within => unowned_node unowned h within
  have apart : d.isNode done = false := by
    simp only [World.owned,Bool.or_eq_false_iff] at unowned
    exact unowned.1
  have books := Run.rearm_sound (d.graph g) token done
  have shape : (w.apply (.execute g done token lent parent)).base = if (d.graph g).size = 0 then
      (join ((rearmNodes g token lent w.base (List.range (d.graph g).size)).apply (.arm done .bare .empty none)) done
        parent).apply (.settleBare done false)
      else join ((rearmNodes g token lent w.base (List.range (d.graph g).size)).apply (.arm done .bare .empty none)) done
        parent := rfl
  have own : (w.apply (.execute g done token lent parent)).runs g = .rearm (d.graph g) token done := setRun_own ..
  have rest : ∀ h, h ≠ g → (w.apply (.execute g done token lent parent)).runs h = w.runs h :=
    fun h other => setRun_other w _ _ other
  generalize join ((rearmNodes g token lent w.base (List.range (d.graph g).size)).apply (.arm done .bare .empty none)) done
    parent = s at path nodes status kind others shape
  have verdict : (Run.rearm (d.graph g) token done).verdict = if (d.graph g).size = 0 then some false else none := rfl
  by_cases empty : (d.graph g).size = 0
  · rw [if_pos empty] at shape verdict
    have may : s.Allowed (.settleBare done false) := ⟨status,kind⟩
    have steps : system.allowed s (.settleBare done false) := may
    have acc := reached_accounts path
    refine ⟨by rw [shape]; exact .step path steps,?_,execute_handles sound unowned _⟩
    intro h
    by_cases here : h = g
    · subst here
      refine .inr ⟨done,by rw [own]; rfl,by rw [own]; exact books,?_,?_⟩
      · intro i within
        rw [empty] at within
        cases within
      · rw [own,shape]
        refine ⟨apart,?_,?_⟩
        · intro undecided
          rw [verdict] at undecided
          cases undecided
        · intro cancel decided
          rw [verdict] at decided
          cases decided
          exact ⟨kind,.inl (by simp [State.apply,State.setStatus])⟩
    · rcases others h here with fresh | ⟨b,live⟩
      · refine .inl (fresh.kept acc may ?_ (rest h here) shape)
        intro i within claimed
        exact foreign h i within (Option.some.inj claimed)
      · refine .inr ⟨b,live.kept acc may ?_ ?_ (rest h here) shape⟩
        · intro i within
          exact ⟨fun claimed => foreign h i within (Option.some.inj claimed),by simp⟩
        · intro claimed
          exact unowned_done unowned h (live.done.trans claimed.symm)
  · rw [if_neg empty] at shape verdict
    refine ⟨by rw [shape]; exact path,?_,execute_handles sound unowned _⟩
    intro h
    by_cases here : h = g
    · subst here
      refine .inr ⟨done,by rw [own]; rfl,by rw [own]; exact books,?_,?_⟩
      · intro i within
        rw [own,shape]
        exact ⟨(nodes i within).kind,by
          rw [show (Run.rearm (d.graph h) token done).stage = Run.firstStage (d.graph h) from rfl,firstStage_shows]
          exact (nodes i within).status⟩
      · rw [own,shape]
        refine ⟨apart,fun _ => ⟨status,kind⟩,?_⟩
        intro cancel decided
        rw [verdict] at decided
        cases decided
    · rcases others h here with fresh | ⟨b,live⟩
      · exact .inl (fresh.same (rest h here) (fun i _ => by rw [shape]))
      · exact .inr ⟨b,live.same (rest h here) (fun i _ => by rw [shape]; exact ⟨rfl,rfl⟩) (by rw [shape]; exact ⟨rfl,rfl⟩)⟩

theorem apply_sound (sound : w.Sound) (allowed : w.Allowed a) : (w.apply a).Sound := by
  cases a with
  | base a => exact base_sound sound allowed
  | execute g done token lent parent => exact execute_sound sound allowed
  | nodeComplete g i => exact nodeComplete_sound sound allowed
  | tail g t => exact tail_sound sound allowed

end Execute

theorem initial_sound : ({} : World d).Sound :=
  ⟨.start rfl,fun _ => .inl ⟨rfl,fun _ _ => rfl⟩,by intro g h b done; cases done⟩

end World

theorem reached_sound (path : Machines.Reached (graphSystem d) w) : w.Sound :=
  Machines.reached_invariant World.Sound (fun _ begun => by rw [begun]; exact World.initial_sound)
    (fun _ _ sound allowed => World.apply_sound sound allowed) path

end Macrame

import Macrame.AccessOps
import Macrame.GraphCoherence

namespace Macrame
namespace Tracked

theorem noted_admitted (granted : List PipeLink) (t : Tracked) :
    (granted.foldl noteAdmitted t).admitted = t.admitted++granted := by
  induction granted generalizing t with
  | nil => simp
  | cons l rest ih =>
    rw [List.foldl_cons,ih]
    simp [noteAdmitted]

theorem noteAdmitted_admitted (t : Tracked) (l : PipeLink) : (t.noteAdmitted l).admitted = t.admitted++[l] := rfl

-- What a link that stands once at most gains in admissions, it gains among
-- those that are out.
theorem Section.admits (sect : Section t u) (x : PipeLink) (after : u.held.count x ≤ 1)
    (alone : 0 < t.held.count x → t.held.count x = 1 ∧ x ∉ t.pipe.queue) :
    u.admitted.count x = t.admitted.count x+(if t.held.count x = 0 then u.held.count x else 0) := by
  have noted : ∀ l v, (Tracked.noteAdmitted v l).held = v.held++[l] → v.held = t.held → v.admitted = t.admitted →
      (v.noteAdmitted l).held.count x ≤ 1 → (v.noteAdmitted l).admitted.count x =
        t.admitted.count x+(if t.held.count x = 0 then (v.noteAdmitted l).held.count x else 0) := by
    intro l v held same admitted bounded
    rw [noteAdmitted_admitted,admitted,List.count_append]
    rw [held,same,List.count_append] at bounded
    rw [held,same,List.count_append]
    split <;> omega
  cases sect with
  | same =>
    split <;> omega
  | entered l =>
    unfold enter at after ⊢
    dsimp only at after ⊢
    split
    · rename_i now
      rw [if_pos now] at after
      exact noted l _ (noteAdmitted_held _ _) rfl rfl after
    · show t.admitted.count x = t.admitted.count x+(if t.held.count x = 0 then t.held.count x else 0)
      split <;> omega
  | inlined l free => exact noted l _ (noteAdmitted_held _ _) rfl rfl after
  | released l out =>
    simp only [release] at after ⊢
    rw [noted_admitted,List.count_append]
    rw [noted_held,List.count_append] at after ⊢
    have left : ({t.forget l with pipe := (t.pipe.releaseLocked l.mode).1} : Tracked).held = t.held.erase l := forget_held t l
    have same : ({t.forget l with pipe := (t.pipe.releaseLocked l.mode).1} : Tracked).admitted = t.admitted := rfl
    rw [left] at after ⊢
    rw [same]
    by_cases held : 0 < t.held.count x
    · -- it is out already, so it is in no queue and is not granted
      obtain ⟨once,unqueued⟩ := alone held
      have ungranted : (t.pipe.releaseLocked l.mode).2.count x = 0 := by
        refine List.count_eq_zero.mpr fun granted => unqueued ?_
        have queued := State.collectFrom_subset _ _ granted
        rwa [Pipe.releaseMode_queue] at queued
      rw [ungranted,if_neg (by omega)]
    · have absent : x ∉ t.held := fun member => held (List.count_pos_iff.mpr member)
      have other : x ≠ l := fun same => absent (same ▸ out)
      rw [List.count_erase_of_ne other] at after ⊢
      rw [if_pos (by omega)]
      omega

theorem count_grown {earlier later : List PipeLink} {mark : Nat} (x : PipeLink) (grown : earlier <+: later)
    (marked : mark ≤ earlier.length) :
    (later.drop mark).count x+earlier.count x = (earlier.drop mark).count x+later.count x := by
  obtain ⟨more,rfl⟩ := grown
  rw [List.drop_append_of_le_length marked,List.count_append,List.count_append]
  omega

end Tracked

-- Whether link `i` of a block in this status has been admitted in this cycle.
def Status.got : Status → Nat → Bool
  | .idle,_ => false
  | .armed,_ => false
  | .waiting k,i => i < k
  | .admitted k,i => i ≤ k
  | _,_ => true

-- How many of the links have been given back.
def Status.returned : Status → Nat → Nat
  | .advancing k _,_ => k
  | .concluding,n => n
  | .retired,n => n
  | _,_ => 0

-- A link is taken once: what is no more out does not come back.
theorem Status.Next.once_got (next : Status.Next ends kind before after) (i : Nat) (got : before.got i = true)
    (left : before.holds i = false) : after.holds i = false := by
  cases next <;> grind [Status.got,Status.holds]

theorem Status.Next.armed (next : Status.Next ends kind before after) : after = .armed ↔ before = .armed := by
  cases next <;> simp

theorem Status.Next.got (next : Status.Next ends kind before after) (i : Nat) :
    after.got i = (before.got i || !before.holds i && after.holds i) := by
  rw [Bool.eq_iff_iff]
  cases next <;> grind [Status.got,Status.holds]

namespace State

section Admitting

variable {s : State} {a : Action} {b : BlockId} {i : Nat} {p : PipeId} {m : Access}

-- Any action that leaves a block's links: they gain an admission where they come to be out.
theorem apply_admits (path : Machines.Reached system s) (allowed : s.Allowed a)
    (kept : ((s.apply a).blocks b).links = (s.blocks b).links) {mark : Nat} (marked : mark ≤ (s.pipes p).admitted.length) :
    (((s.apply a).pipes p).admitted.drop mark).count ⟨.link b i,m⟩ = ((s.pipes p).admitted.drop mark).count ⟨.link b i,m⟩+
      (if ((s.progress b).status.holds i = false ∧ ((s.apply a).progress b).status.holds i = true) ∧
        (s.blocks b).links.entries[i]? = some ⟨p,m⟩ then 1 else 0) := by
  have acc := reached_accounts path
  have acc' := apply_accounts acc allowed
  have sect := apply_section acc allowed p
  have before : (s.pipes p).held.count ⟨.link b i,m⟩ = if (s.progress b).status.holds i = true ∧
      (s.blocks b).links.entries[i]? = some ⟨p,m⟩ then 1 else 0 := (acc.blocks b).held p i m
  have after : ((s.apply a).pipes p).held.count ⟨.link b i,m⟩ = if ((s.apply a).progress b).status.holds i = true ∧
      (s.blocks b).links.entries[i]? = some ⟨p,m⟩ then 1 else 0 := by
    rw [← kept]
    exact (acc'.blocks b).held p i m
  have bounded : ((s.apply a).pipes p).held.count ⟨.link b i,m⟩ ≤ 1 := by rw [after]; split <;> simp
  have alone : 0 < (s.pipes p).held.count ⟨.link b i,m⟩ →
      (s.pipes p).held.count ⟨.link b i,m⟩ = 1 ∧ ⟨.link b i,m⟩ ∉ (s.pipes p).pipe.queue := by
    intro held
    obtain ⟨holds,place⟩ := (holding_iff acc).mp (List.count_pos_iff.mp held)
    refine ⟨by rw [before,if_pos ⟨holds,place⟩],?_⟩
    intro queued
    rw [((waiting_iff acc).mp queued).1] at holds
    simp [Status.holds] at holds
  have gained := sect.admits _ bounded alone
  have counted := Tracked.count_grown ⟨.link b i,m⟩ sect.extends.2 marked
  rw [gained,before,after] at counted
  by_cases place : (s.blocks b).links.entries[i]? = some ⟨p,m⟩ <;>
    cases here : (s.progress b).status.holds i <;> cases there : ((s.apply a).progress b).status.holds i <;>
    simp only [here,there,place,and_true,and_false,and_self,if_true,if_false,reduceCtorEq] at counted ⊢ <;>
    omega

theorem advance_status (acc : Accounts s) (pending : .own b (.advance k cancel) ∈ s.pending) :
    ((s.apply (.resume (.own b (.advance k cancel)))).progress b).status =
      if k < (s.blocks b).pipesEntered then .advancing (k+1) cancel
      else if (s.blocks b).kind = .graphNode then .concluding else .retired := by
  have status := advancing_status acc pending
  simp only [apply,runFrame,runOwn,advance,drop_blocks]
  split
  · have moved : (((((s.drop (.own b (.advance k cancel))).setStatus b (.advancing (k+1) cancel)).push
        (.own b (.advance (k+1) cancel))).progress b).status) = .advancing (k+1) cancel := by
      rw [push_progress,setStatus_status,if_pos rfl]
    split
    · exact moved
    · rename_i link place
      rcases releasePipe_status acc (((s.drop (.own b (.advance k cancel))).setStatus b (.advancing (k+1) cancel)).push
          (.own b (.advance (k+1) cancel))) rfl link.pipe ⟨.link b k,link.mode⟩ b with kept | ⟨j,waiting,_⟩
      · rw [kept,moved]
      · rw [status] at waiting
        cases waiting
  · split
    · rename_i kind
      rw [setProgress_status,if_pos rfl,kind,if_neg (by decide)]
    · rename_i kind
      rw [push_progress,setStatus_status,if_pos rfl,kind,if_pos rfl]
    · rename_i node
      rw [setStatus_status,if_pos rfl,if_neg node]

-- What any action gives back of a block's links, its status counts.
theorem apply_returns (path : Machines.Reached system s) (allowed : s.Allowed a) (unclaimed : a.claims ≠ some b) :
    (s.blocks b).links.entries.take (((s.apply a).progress b).status.returned (s.blocks b).links.count) =
      (s.blocks b).links.entries.take ((s.progress b).status.returned (s.blocks b).links.count)++(s.returns b a).toList := by
  have acc := reached_accounts path
  by_cases advances : ∃ k cancel, a = .resume (.own b (.advance k cancel))
  · obtain ⟨k,cancel,rfl⟩ := advances
    have pending : .own b (.advance k cancel) ∈ s.pending := allowed
    have status := advancing_status acc pending
    have whole : (s.blocks b).pipesEntered = (s.blocks b).links.count :=
      (acc.blocks b).whole (by simp [status,Status.entered])
    rw [advance_status acc pending,status]
    simp only [returns,whole,true_and]
    by_cases more : k < (s.blocks b).links.count
    · rw [if_pos more,if_pos more]
      have place := List.getElem?_eq_getElem (show k < (s.blocks b).links.entries.length from more)
      simp only [Status.returned]
      rw [List.take_add_one]
    · rw [if_neg more,if_neg more]
      have all : (s.blocks b).links.entries.take k = (s.blocks b).links.entries :=
        List.take_of_length_le (Nat.le_of_not_lt more)
      have full : (s.blocks b).links.entries.take (s.blocks b).links.count = (s.blocks b).links.entries := List.take_length
      split <;> simp only [Status.returned,all,full,Option.toList_none,List.append_nil]
  · have none_back : s.returns b a = none := by
      unfold returns
      split
      · rename_i c k cancel
        refine if_neg ?_
        rintro ⟨rfl,_⟩
        exact advances ⟨k,cancel,rfl⟩
      · rfl
    rw [none_back,Option.toList_none,List.append_nil]
    by_cases advancing : ∃ k cancel, (s.progress b).status = .advancing k cancel
    · obtain ⟨k,cancel,status⟩ := advancing
      have pending := expected_pending acc (f := .advance k cancel) (by rw [status]; rfl) rfl
      have still := apply_pending pending (fun same => advances ⟨k,cancel,same⟩)
      rw [advancing_status (apply_accounts acc allowed) still,status]
    · have next := apply_next acc allowed b unclaimed
      push Not at advancing
      generalize (s.progress b).status = before at next advancing ⊢
      generalize ((s.apply a).progress b).status = after at next ⊢
      cases next <;> first | rfl | exact absurd rfl (advancing _ _)

theorem tryInline_fails (failed : s.passes b = false) : s.tryInline b = s := by
  simp only [tryInline]
  rw [if_neg]
  rw [passes] at failed
  simp [failed]

theorem tryInline_passes (passed : s.passes b = true) : ((s.tryInline b).progress b).status = .ready := by
  unfold passes at passed
  simp only [tryInline]
  rw [if_pos passed]
  simp

end Admitting

section Entering

-- The links of a block entered one at a time.
def enterEach (s : State) (b : BlockId) (indices : List Nat) : State := indices.foldl (enterLink · b) s

theorem enterLink_elsewhere (s : State) (b : BlockId) (i : Nat) (place : (s.blocks b).links.entries[i]? = some link)
    (apart : q ≠ link.pipe) : (s.enterLink b i).pipes q = s.pipes q := by
  simp only [enterLink,place]
  split <;> simp [apart,setStatus]

-- A link whose pipe passes its probe is admitted at once.
theorem enterLink_free (s : State) (b : BlockId) (i : Nat) (place : (s.blocks b).links.entries[i]? = some link)
    (free : (s.pipes link.pipe).pipe.free link.mode = true) :
    (s.enterLink b i).pipes link.pipe = (s.pipes link.pipe).admitInline ⟨.link b i,link.mode⟩ ∧
      .own b (.fireTurn i) ∈ (s.enterLink b i).pending := by
  have now : (s.pipes link.pipe).enter ⟨.link b i,link.mode⟩ = ((s.pipes link.pipe).admitInline ⟨.link b i,link.mode⟩,true) := by
    simp only [Pipe.free] at free
    simp [Tracked.enter,Pipe.enterLocked,Tracked.admitInline,free]
  simp only [enterLink,place,now]
  simp

theorem enterLink_entries (s : State) (b c : BlockId) (i : Nat) : ((s.enterLink b i).blocks c).links = (s.blocks c).links := by
  unfold enterLink
  split
  · rfl
  · dsimp only
    by_cases same : c = b
    · subst same
      split <;> simp
    · split <;> simp [same]

-- With the pipes apart and every probe passed, the inline admits are those enters.
theorem enterEach_inlines {entries : List (Link × Nat)} (distinct : entries.Pairwise (fun a b => a.1.pipe < b.1.pipe)) :
    ∀ {s t : State}, (∀ q, s.pipes q = t.pipes q) → (∀ e ∈ entries, (s.blocks b).links.entries[e.2]? = some e.1) →
      (∀ e ∈ entries, (s.pipes e.1.pipe).pipe.free e.1.mode = true) →
      ∀ q, (s.enterEach b (entries.map Prod.snd)).pipes q = (entries.foldl (admitInline · b) t).pipes q := by
  induction entries with
  | nil => exact fun same _ _ => same
  | cons e rest ih =>
    intro s t same placed free q
    obtain ⟨above,distinct⟩ := List.pairwise_cons.mp distinct
    have here := placed e List.mem_cons_self
    have entered := (enterLink_free s b e.2 here (free e List.mem_cons_self)).1
    have each : ∀ q, (s.enterLink b e.2).pipes q = (t.admitInline b e).pipes q := by
      intro q
      by_cases own : q = e.1.pipe
      · subst own
        rw [entered]
        simp [admitInline,same]
      · rw [enterLink_elsewhere s b e.2 here own,same]
        simp [admitInline,own]
    refine ih distinct each ?_ ?_ q
    · intro e' member
      rw [enterLink_entries]
      exact placed e' (List.mem_cons_of_mem _ member)
    · intro e' member
      rw [enterLink_elsewhere s b e.2 here (Nat.ne_of_gt (above e' member))]
      exact free e' (List.mem_cons_of_mem _ member)

theorem tryInline_enters {s : State} (passed : s.passes b = true) :
    (s.tryInline b).pipes = (s.enterEach b (List.range (s.blocks b).links.count)).pipes := by
  funext q
  have indices : List.range (s.blocks b).links.count = (s.blocks b).links.entries.zipIdx.map Prod.snd := by
    simp [LinkTable.count,List.range_eq_range']
  have placed : ∀ e ∈ (s.blocks b).links.entries.zipIdx, (s.blocks b).links.entries[e.2]? = some e.1 :=
    fun e member => List.mem_zipIdx_iff_getElem?.mp member
  have free : ∀ e ∈ (s.blocks b).links.entries.zipIdx, (s.pipes e.1.pipe).pipe.free e.1.mode = true :=
    fun e member => List.all_eq_true.mp passed e.1 (List.fst_mem_of_mem_zipIdx member)
  rw [indices,enterEach_inlines (zipIdx_pairwise _) (fun _ => rfl) placed free q]
  unfold passes at passed
  simp only [tryInline]
  rw [if_pos passed]
  rfl

end Entering

end State

-- How a fire and the block it is about stand to one another: the links bound
-- are the objects that are not lent, and what the pipes have seen of the block
-- since the fire began is what its status tells.
structure Firing (s : State) (b : BlockId) (f : Fire) : Prop where
  kind : (s.blocks b).kind = .callerOwned
  armed : (s.progress b).status = .armed ↔ f.step ≠ .fired
  unlent : f.step = .probing ∨ f.step = .lending → f.lent = []
  bound : f.step ≠ .lending → (s.blocks b).links.entries = f.op.targets.entries.filter (fun l => decide (l ∉ f.lent))
  marked : ∀ p, f.mark p ≤ (s.pipes p).admitted.length
  admissions : ∀ p i m, ((s.pipes p).admitted.drop (f.mark p)).count ⟨.link b i,m⟩ =
    if (s.progress b).status.got i = true ∧ (s.blocks b).links.entries[i]? = some ⟨p,m⟩ then 1 else 0
  returns : f.gaveBack = (s.blocks b).links.entries.take ((s.progress b).status.returned (s.blocks b).links.count)

namespace Firing

variable {s : State} {b : BlockId} {f : Fire} {a : Action}

-- A step that the block does not start itself.
theorem others (firing : Firing s b f) (path : Machines.Reached system s) (allowed : s.Allowed a)
    (unclaimed : a.claims ≠ some b) : Firing (s.apply a) b (f.note s b a) := by
  have kept := State.apply_keeps s a b unclaimed
  have next := State.apply_next (reached_accounts path) allowed b unclaimed
  refine ⟨kept.kind.trans firing.kind,next.armed.trans firing.armed,firing.unlent,?_,?_,?_,?_⟩
  · intro bound
    rw [kept.links]
    exact firing.bound bound
  · intro p
    have grown := (State.apply_section (reached_accounts path) allowed p).extends.2.length_le
    exact Nat.le_trans (firing.marked p) grown
  · intro p i m
    show (((s.apply a).pipes p).admitted.drop (f.mark p)).count ⟨.link b i,m⟩ = _
    rw [State.apply_admits path allowed kept.links (firing.marked p),firing.admissions p i m,kept.links]
    have once := next.once_got i
    have got := next.got i
    by_cases place : (s.blocks b).links.entries[i]? = some ⟨p,m⟩ <;>
      cases before : (s.progress b).status.holds i <;> cases after : ((s.apply a).progress b).status.holds i <;>
      cases taken : (s.progress b).status.got i <;> simp_all
  · rw [kept.links,State.apply_returns path allowed unclaimed,← firing.returns]
    rfl

-- A step of the fire itself leaves an armed block armed, or starts it.
theorem started (firing : Firing s b f) (path : Machines.Reached system s) (allowed : s.Allowed a)
    (unfired : f.step ≠ .fired) (unlending : f.step ≠ .lending)
    (links : ((s.apply a).blocks b).links = (s.blocks b).links ∧ ((s.apply a).blocks b).kind = (s.blocks b).kind)
    (begun : ((s.apply a).progress b).status = .ready ∨ ((s.apply a).progress b).status = .admitted 0 ∨
      ((s.apply a).progress b).status = .waiting 0) : Firing (s.apply a) b {f with step := .fired} := by
  have status := firing.armed.mpr unfired
  refine ⟨links.2.trans firing.kind,?_,?_,?_,?_,?_,?_⟩
  · rcases begun with here | here | here <;> simp [here]
  · intro impossible
    rcases impossible with here | here <;> cases here
  · intro _
    rw [links.1]
    exact firing.bound unlending
  · intro p
    have grown := (State.apply_section (reached_accounts path) allowed p).extends.2.length_le
    exact Nat.le_trans (firing.marked p) grown
  · intro p i m
    show (((s.apply a).pipes p).admitted.drop (f.mark p)).count ⟨.link b i,m⟩ = _
    rw [State.apply_admits path allowed links.1 (firing.marked p),firing.admissions p i m,links.1,status]
    rcases begun with here | here | here <;> simp [here,Status.got,Status.holds]
  · rw [links.1]
    have none_back := firing.returns
    rw [status] at none_back
    rcases begun with here | here | here <;> simpa [here,Status.returned] using none_back

-- The links may be bound anew while the block is armed.
theorem rebound (firing : Firing s b f) (unfired : f.step ≠ .fired) (step : FireStep) (still : step ≠ .fired)
    (later : step ≠ .probing ∧ step ≠ .lending) (links : LinkTable) (lent : List Link)
    (bound : links.entries = f.op.targets.entries.filter (fun l => decide (l ∉ lent))) :
    Firing (s.apply (.rebind b links)) b {f with step := step,lent := lent} := by
  have status := firing.armed.mpr unfired
  have kept : (((s.apply (.rebind b links)).blocks b).links = links) ∧
      ((s.apply (.rebind b links)).blocks b).kind = (s.blocks b).kind := by simp [State.apply]
  have armed : ((s.apply (.rebind b links)).progress b).status = .armed := status
  refine ⟨kept.2.trans firing.kind,?_,?_,?_,firing.marked,?_,?_⟩
  · exact ⟨fun _ => still,fun _ => armed⟩
  · rintro (here | here)
    · exact absurd here later.1
    · exact absurd here later.2
  · intro _
    rw [kept.1,bound]
  · intro p i m
    have counted := firing.admissions p i m
    rw [status] at counted
    show ((s.pipes p).admitted.drop (f.mark p)).count ⟨.link b i,m⟩ = _
    rw [armed]
    simpa [Status.got] using counted
  · have none_back := firing.returns
    rw [status] at none_back
    rw [armed]
    simpa [Status.returned] using none_back

-- And the fire may go on to another question.
theorem moved (firing : Firing s b f) (unfired : f.step ≠ .fired) (unlending : f.step ≠ .lending) (step : FireStep)
    (still : step ≠ .fired) (unlent : step = .probing ∨ step = .lending → f.lent = []) :
    Firing s b {f with step := step} :=
  ⟨firing.kind,⟨fun _ => still,fun _ => firing.armed.mpr unfired⟩,unlent,fun _ => firing.bound unlending,
    firing.marked,firing.admissions,firing.returns⟩

theorem begins (s : State) (b : BlockId) (op : AccessOp) (token : Option TokenId) :
    Firing (s.apply (.arm b .callerOwned (if op.queued then .empty else op.targets) token)) b
      {op := op,step := if op.queued then .lending else .probing,mark := fun p => (s.pipes p).admitted.length} := by
  have status : ((s.apply (.arm b .callerOwned (if op.queued then .empty else op.targets) token)).progress b).status = .armed := by
    simp [State.apply]
  have links : ((s.apply (.arm b .callerOwned (if op.queued then .empty else op.targets) token)).blocks b).links =
      if op.queued then .empty else op.targets := by simp [State.apply]
  refine ⟨by simp [State.apply],?_,fun _ => rfl,?_,fun p => Nat.le_refl _,?_,?_⟩
  · refine ⟨fun _ => ?_,fun _ => status⟩
    cases op.queued <;> simp
  · intro bound
    have queued : op.queued = false := by
      cases queued : op.queued with
      | true => simp [queued] at bound
      | false => rfl
    rw [links]
    simp [queued]
  · intro p i m
    rw [status]
    have fresh : ((s.pipes p).admitted.drop (s.pipes p).admitted.length).count ⟨.link b i,m⟩ = 0 := by
      rw [List.drop_length,List.count_nil]
    show ((s.pipes p).admitted.drop (s.pipes p).admitted.length).count ⟨.link b i,m⟩ = _
    rw [fresh]
    simp [Status.got]
  · rw [status]
    simp [Status.returned]

end Firing

structure OpSound (w : OpWorld) : Prop where
  base : Machines.Reached system w.base
  fires : ∀ b f, w.fires b = some f → Firing w.base b f

namespace OpSound

variable {w : OpWorld} {b : BlockId} {build : Build}

theorem at_fire (sound : OpSound w) (here : w.at_ b step = true) :
    ∃ f, w.fires b = some f ∧ f.step = step ∧ Firing w.base b f := by
  simp only [OpWorld.at_,Option.any_eq_true,beq_iff_eq] at here
  obtain ⟨f,fired,at_step⟩ := here
  exact ⟨f,fired,at_step,sound.fires b f fired⟩

-- A step of one fire, for the fires of the other blocks.
theorem beside (sound : OpSound w) {a : Action} (allowed : w.base.Allowed a) (claims : a.claims = some b)
    (quiet : ∀ c, w.base.returns c a = none) {c : BlockId} {f : Fire} (apart : c ≠ b) (fired : w.fires c = some f) :
    Firing (w.base.apply a) c f := by
  have others := (sound.fires c f fired).others sound.base allowed (by rw [claims]; exact fun same => apart (Option.some.inj same).symm)
  have same : f.note w.base c a = f := by simp [Fire.note,quiet c]
  rwa [same] at others

theorem updated (sound : OpSound w) {a : Action} (allowed : w.base.Allowed a) (claims : a.claims = some b)
    (quiet : ∀ c, w.base.returns c a = none) {g : Fire} (own : Firing (w.base.apply a) b g) :
    OpSound {base := w.base.apply a,fires := Function.update w.fires b (some g)} := by
  refine ⟨.step sound.base allowed,?_⟩
  intro c f fired
  by_cases same : c = b
  · subst same
    simp only [Function.update_self,Option.some.injEq] at fired
    exact fired ▸ own
  · simp only [Function.update_of_ne same] at fired
    exact sound.beside allowed claims quiet same fired

theorem base_step (sound : OpSound w) {a : Action} (allowed : w.base.Allowed a) : OpSound (w.others a) := by
  refine ⟨.step sound.base allowed,?_⟩
  intro c f fired
  simp only [OpWorld.others] at fired ⊢
  split at fired
  · cases fired
  · rename_i unclaimed
    obtain ⟨g,here,rfl⟩ := Option.map_eq_some_iff.mp fired
    exact (sound.fires c g here).others sound.base allowed unclaimed

theorem start_step (sound : OpSound w) (resting : (w.base.progress b).status.resting = true) (op : AccessOp)
    (token : Option TokenId) : OpSound (w.start b op token) := by
  have allowed : w.base.Allowed (.arm b .callerOwned (if op.queued then .empty else op.targets) token) :=
    ⟨resting,by simp,by simp⟩
  exact sound.updated allowed rfl (fun _ => rfl) (Firing.begins w.base b op token)

theorem probe_step (sound : OpSound w) (here : w.at_ b step = true) (asks : step = .probing ∨ step = .reprobing)
    (failed : FireStep) (next : failed = if step = .probing then .lending else .entering) : OpSound (w.probe b failed) := by
  obtain ⟨f,fired,rfl,firing⟩ := sound.at_fire here
  have unfired : f.step ≠ .fired := by rcases asks with at_ | at_ <;> simp [at_]
  have unlending : f.step ≠ .lending := by rcases asks with at_ | at_ <;> simp [at_]
  have allowed : w.base.Allowed (.tryInline b) := ⟨firing.armed.mpr unfired,firing.kind⟩
  have own : Firing (w.base.apply (.tryInline b)) b {f with step := if w.base.passes b then .fired else failed} := by
    cases passes : w.base.passes b with
    | true =>
      exact firing.started sound.base allowed unfired unlending (State.tryInline_links w.base b)
        (.inl (State.tryInline_passes passes))
    | false =>
      have unchanged : w.base.apply (.tryInline b) = w.base := State.tryInline_fails passes
      rw [unchanged]
      simp only [Bool.false_eq_true,if_false]
      refine firing.moved unfired unlending _ ?_ ?_
      · rw [next]
        split <;> simp
      · intro asks_lend
        rcases asks with at_ | at_
        · exact firing.unlent (.inl at_)
        · rw [next,at_] at asks_lend
          simp at asks_lend
  have whole := sound.updated allowed rfl (fun _ => rfl) own
  have shape : w.probe b failed = ⟨w.base.apply (.tryInline b),
      Function.update w.fires b (some {f with step := if w.base.passes b then .fired else failed})⟩ := by
    simp [OpWorld.probe,OpWorld.goTo,fired]
  rwa [shape]

theorem lend_step (sound : OpSound w) (here : w.at_ b .lending = true) (ctx : Option AccessContext) :
    OpSound (w.lend build b ctx) := by
  obtain ⟨f,fired,at_lending,firing⟩ := sound.at_fire here
  simp only [OpWorld.lend,fired]
  split
  · exact sound
  · rename_i bound decided
    have unfired : f.step ≠ .fired := by simp [at_lending]
    have allowed : w.base.Allowed (.rebind b bound) := ⟨firing.armed.mpr unfired,firing.kind⟩
    refine sound.updated allowed rfl (fun _ => rfl) (firing.rebound unfired _ ?_ ?_ bound _ ?_)
    · unfold OpWorld.afterLend
      split <;> simp
    · unfold OpWorld.afterLend
      split <;> simp
    · unfold bindLinks at decided
      simp only [if_true] at decided
      split at decided
      · cases decided
      · cases decided
        refine List.filter_congr ?_
        intro l member
        simp [List.mem_filter,member]

theorem enter_step (sound : OpSound w) (here : w.at_ b .entering = true) :
    OpSound ({w with base := w.base.apply (.launch b)}.goTo b .fired) := by
  obtain ⟨f,fired,at_entering,firing⟩ := sound.at_fire here
  have unfired : f.step ≠ .fired := by simp [at_entering]
  have allowed : w.base.Allowed (.launch b) := ⟨firing.armed.mpr unfired,by rw [firing.kind]; simp⟩
  have own := firing.started sound.base allowed unfired (by simp [at_entering]) (State.launch_links w.base b)
    (State.launch_status w.base b)
  have whole := sound.updated allowed rfl (fun _ => rfl) own
  have shape : {w with base := w.base.apply (.launch b)}.goTo b .fired =
      ⟨w.base.apply (.launch b),Function.update w.fires b (some {f with step := .fired})⟩ := by
    simp [OpWorld.goTo,fired]
  rwa [shape]

theorem apply (sound : OpSound w) (allowed : w.Allowed build a) : OpSound (w.apply build a) := by
  cases a with
  | base a => exact sound.base_step allowed.1
  | start b op token => exact sound.start_step allowed op token
  | probe b => exact sound.probe_step allowed (.inl rfl) .lending rfl
  | lend b ctx => exact sound.lend_step allowed.1 ctx
  | reprobe b => exact sound.probe_step allowed (.inr rfl) .entering rfl
  | enter b => exact sound.enter_step allowed

end OpSound

theorem op_sound (path : Machines.Reached (opSystem build) w) : OpSound w :=
  Machines.reached_invariant OpSound
    (fun _ begun => by cases begun; exact ⟨.start rfl,fun b f fired => nomatch fired⟩)
    (fun _ _ sound allowed => sound.apply allowed) path

def PipeLink.ofBlock (b : BlockId) (l : PipeLink) : Bool :=
  match l.party with
  | .link c _ => c == b
  | .hold _ _ => false

-- The admissions a pipe has made for a block since its fire began.
def Fire.seen (f : Fire) (s : State) (b : BlockId) (p : PipeId) : List PipeLink :=
  ((s.pipes p).admitted.drop (f.mark p)).filter (PipeLink.ofBlock b)

-- A cycle is balanced: the pipe of every object that was not lent has made one
-- admission, in the declared mode, and the links given back are these, each
-- once; the other pipes have made none; nothing is left behind.
structure OpBalanced (s : State) (b : BlockId) (f : Fire) : Prop where
  admitted : ∀ link ∈ f.op.targets.entries, link ∉ f.lent → ∃ i, f.seen s b link.pipe = [⟨.link b i,link.mode⟩]
  lent : ∀ p, (∀ link ∈ f.op.targets.entries, link.pipe = p → link ∈ f.lent) → f.seen s b p = []
  returned : f.gaveBack = f.op.targets.entries.filter (fun l => decide (l ∉ f.lent))
  out : ∀ p i m, ⟨.link b i,m⟩ ∉ (s.pipes p).held ∧ ⟨.link b i,m⟩ ∉ (s.pipes p).pipe.queue
  table : (s.blocks b).links.entries = f.gaveBack ∧ (s.blocks b).pipesEntered = f.gaveBack.length
  body : (s.progress b).bodies ≤ 1

theorem Firing.seen_placed (firing : Firing s b f) (member : l ∈ f.seen s b p) :
    ∃ i, l.party = .link b i ∧ (s.blocks b).links.entries[i]? = some ⟨p,l.mode⟩ := by
  obtain ⟨admitted,own⟩ := List.mem_filter.mp member
  obtain ⟨party,m⟩ := l
  cases party with
  | hold h o => cases own
  | link c i =>
    simp only [PipeLink.ofBlock,beq_iff_eq] at own
    subst own
    have counted := firing.admissions p i m
    have positive := List.count_pos_iff.mpr admitted
    rw [counted] at positive
    split at positive
    · rename_i here
      exact ⟨i,rfl,here.2⟩
    · omega

theorem Firing.balanced (firing : Firing s b f) (path : Machines.Reached system s)
    (retired : (s.progress b).status = .retired) : OpBalanced s b f := by
  have acc := reached_accounts path
  have fired : f.step ≠ .lending := by
    intro lending
    have armed := firing.armed.mpr (by rw [lending]; simp)
    rw [retired] at armed
    cases armed
  have bound := firing.bound fired
  have back : f.gaveBack = (s.blocks b).links.entries := by
    rw [firing.returns,retired]
    exact List.take_length
  have entered : (s.blocks b).pipesEntered = (s.blocks b).links.count := by
    have whole := (acc.blocks b).entered
    rwa [State.footprint_progress,State.footprint_block,retired] at whole
  refine ⟨?_,?_,back.trans bound,?_,⟨back.symm,?_⟩,?_⟩
  · intro link target unlent
    have linked : link ∈ (s.blocks b).links.entries := by
      rw [bound]
      exact List.mem_filter.mpr ⟨target,by simpa using unlent⟩
    obtain ⟨i,place⟩ := List.mem_iff_getElem?.mp linked
    refine ⟨i,?_⟩
    have same : ∀ l ∈ f.seen s b link.pipe, l = ⟨.link b i,link.mode⟩ := by
      intro l member
      obtain ⟨j,party,there⟩ := firing.seen_placed member
      obtain rfl := LinkTable.place_unique place there rfl
      have modes : link.mode = l.mode := by
        rw [place] at there
        exact congrArg Link.mode (Option.some.inj there)
      obtain ⟨who,how⟩ := l
      simp only at party modes
      rw [party,modes]
    have once : (f.seen s b link.pipe).count ⟨.link b i,link.mode⟩ = 1 := by
      unfold Fire.seen
      rw [List.count_filter (by simp [PipeLink.ofBlock]),firing.admissions,retired]
      exact if_pos ⟨rfl,place⟩
    have all := List.eq_replicate_of_mem same
    have length : (f.seen s b link.pipe).length = 1 := by rw [← once,List.count_eq_length.mpr (fun l member => (same l member).symm)]
    rw [all,length]
    rfl
  · intro p covered
    refine List.eq_nil_iff_forall_not_mem.mpr ?_
    intro l member
    obtain ⟨i,_,place⟩ := firing.seen_placed member
    have linked := List.mem_of_getElem? place
    rw [bound] at linked
    obtain ⟨target,unlent⟩ := List.mem_filter.mp linked
    exact absurd (covered _ target rfl) (by simpa using unlent)
  · intro p i m
    refine ⟨?_,?_⟩
    · intro held
      have holds := ((State.holding_iff acc).mp held).1
      rw [retired] at holds
      cases holds
    · intro queued
      have waits := ((State.waiting_iff acc).mp queued).1
      rw [retired] at waits
      cases waits
  · rw [entered,back]
    rfl
  · exact (reached_lifecycle path b (by rw [firing.kind]; simp)).bodies

-- The fire arms balance: a probe that fails changes nothing, one that passes
-- admits what entering the links one at a time admits, and every cycle of every
-- `Access_op`, whichever way it went and among whatever other steps, takes and
-- gives back one turn for each object that was not lent.
theorem access_op_balances (build : Build) :
    (∀ (s : State) b, s.passes b = false → s.tryInline b = s) ∧
    (∀ (s : State) b, s.passes b = true → (s.tryInline b).pipes = (s.enterEach b (List.range (s.blocks b).links.count)).pipes) ∧
    (∀ w b f, Machines.Reached (opSystem build) w → w.fires b = some f → (w.base.progress b).status = .retired →
      OpBalanced w.base b f) := by
  refine ⟨fun s b => State.tryInline_fails,fun s b => State.tryInline_enters,?_⟩
  intro w b f path fired retired
  have sound := op_sound path
  exact (sound.fires b f fired).balanced sound.base retired

-- Task 0 writes object 0 and accesses objects 0 and 1: object 0 is lent, object
-- 1 free, so the body runs inline. The op then fires once more.
def lendingRun : List OpAction :=
  twoWindows.map .base++[.start 2 ⟨.sorted [⟨0,.readWrite⟩,⟨1,.readOnly⟩] (by decide) (by decide),false⟩ none,.probe 2,
    .lend 2 (some (.single (Entry.capture (system.follow .initial twoWindows).epochs 0 .readWrite (some 0) 0))),.reprobe 2,
    .base (.resume (.own 2 .execute)),.base (.bodyEnd 2),.base (.resume (.own 2 (.complete false))),
    .base (.resume (.own 2 (.advance 0 false))),.base (.resume (.own 2 (.advance 1 false)))]

theorem access_op_balances_lent :
    let w := (opSystem .checked).follow {} lendingRun
    ∃ f, w.fires 2 = some f ∧ f.lent = [⟨0,.readWrite⟩] ∧ f.gaveBack = [⟨1,.readOnly⟩] ∧ OpBalanced w.base 2 f := by
  intro w
  have path : Machines.Reached (opSystem .checked) w := Machines.reached_follow (.start rfl) (by decide)
  have fired : (w.fires 2).isSome = true := by decide
  obtain ⟨f,here⟩ := Option.isSome_iff_exists.mp fired
  have lent : (w.fires 2).map Fire.lent = some [⟨0,.readWrite⟩] := by decide
  have back : (w.fires 2).map Fire.gaveBack = some [⟨1,.readOnly⟩] := by decide
  rw [here] at lent back
  exact ⟨f,here,Option.some.inj lent,Option.some.inj back,(access_op_balances .checked).2.2 w 2 f path here (by decide)⟩

end Macrame

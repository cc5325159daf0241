import Mathlib.Logic.Relation
import Macrame.BlockSteps
import Macrame.GrantEpochs

namespace Macrame

-- What a step may do to a hold that is not the one it acquires, hands over or
-- releases.
inductive Hold.Next : Hold → Hold → Prop where
  | same : Next hold hold
  | granted : Next (.queued p m o) (.granted p m o)

theorem Hold.Next.trans (one : Hold.Next a b) (two : Hold.Next b c) : Hold.Next a c := by
  cases one with
  | same => exact two
  | granted =>
    cases two with
    | same => exact .granted

-- The body has begun and the block has not completed.
def Status.active : Status → Bool
  | .running => true
  | .draining => true
  | _ => false

def Action.handles : Action → Option HoldId
  | .acquire h _ _ _ => some h
  | .releaseHold h => some h
  | .resume (.fireHold h) => some h
  | _ => none

namespace Tracked

theorem noted_held (granted : List PipeLink) (t : Tracked) : (granted.foldl noteAdmitted t).held = t.held++granted := by
  induction granted generalizing t with
  | nil => simp
  | cons l rest ih => rw [List.foldl_cons,ih,noteAdmitted_held,List.append_assoc,List.singleton_append]

theorem noted_out (granted : List PipeLink) (out : k ∈ t.outstanding) : k ∈ (granted.foldl noteAdmitted t).outstanding := by
  induction granted generalizing t with
  | nil => exact out
  | cons l rest ih => exact ih (List.mem_append_left _ out)

-- An admission whose link is held before and after a section is held through it.
theorem Section.tenure (sect : Section t u) (out : k ∈ t.outstanding) (alone : t.held.count k.link = 1)
    (unqueued : k.link ∉ t.pipe.queue) (still : k.link ∈ u.held) : k ∈ u.outstanding := by
  cases sect with
  | same => exact out
  | entered l =>
    simp only [enter]
    split
    · exact List.mem_append_left _ out
    · exact out
  | inlined l free => exact List.mem_append_left _ out
  | released l _ =>
    simp only [release] at still ⊢
    by_cases same : k.link = l
    · subst same
      rw [noted_held] at still
      rcases List.mem_append.mp still with left | granted
      · have gone : (t.held.erase k.link).count k.link = 0 := by rw [List.count_erase_self,alone]
        have erased : k.link ∈ t.held.erase k.link := by
          rw [← forget_held]
          exact left
        exact absurd erased (List.count_eq_zero.mp gone)
      · have queued := State.collectFrom_subset _ _ granted
        rw [Pipe.releaseMode_queue] at queued
        exact absurd queued unqueued
    · refine noted_out _ ?_
      exact (List.mem_eraseP_of_neg (by simpa using same)).mpr out

theorem prefix_place {earlier later : List PipeLink} {e : Nat} (extended : earlier <+: later) (place : earlier[e]? = some l) :
    later[e]? = some l := by
  obtain ⟨more,rfl⟩ := extended
  obtain ⟨inside,_⟩ := List.getElem?_eq_some_iff.mp place
  rw [List.getElem?_append_left inside]
  exact place

theorem noted_fresh (granted : List PipeLink) (t : Tracked) (later : t.admitted.length ≤ e)
    (place : (granted.foldl noteAdmitted t).admitted[e]? = some l) :
    ⟨e,l⟩ ∈ (granted.foldl noteAdmitted t).outstanding := by
  induction granted generalizing t with
  | nil =>
    obtain ⟨inside,_⟩ := List.getElem?_eq_some_iff.mp place
    exact absurd inside (Nat.not_lt.mpr later)
  | cons head rest ih =>
    rcases Nat.eq_or_lt_of_le later with rfl | beyond
    · have grown : (t.noteAdmitted head).admitted <+: (rest.foldl noteAdmitted (t.noteAdmitted head)).admitted :=
        (noted_extends rest (t.noteAdmitted head)).2
      have first : (t.noteAdmitted head).admitted[t.admitted.length]? = some head := by simp [noteAdmitted]
      have same := (prefix_place grown first).symm.trans place
      cases same
      exact noted_out rest (List.mem_append_right _ (List.mem_singleton_self _))
    · refine ih (t.noteAdmitted head) ?_ place
      simp only [noteAdmitted,List.length_append,List.length_singleton]
      exact beyond

-- What a section admits is out after it.
theorem Section.fresh (sect : Section t u) (later : t.admitted.length ≤ e) (place : u.admitted[e]? = some l) :
    ⟨e,l⟩ ∈ u.outstanding := by
  have unmoved : u.admitted = t.admitted → ⟨e,l⟩ ∈ u.outstanding := by
    intro same
    rw [same] at place
    obtain ⟨inside,_⟩ := List.getElem?_eq_some_iff.mp place
    exact absurd inside (Nat.not_lt.mpr later)
  cases sect with
  | same => exact unmoved rfl
  | entered l' =>
    simp only [enter] at place unmoved ⊢
    split
    · rename_i now
      rw [if_pos now] at place
      exact noted_fresh [l'] _ later place
    · rename_i queued
      rw [if_neg queued] at unmoved
      exact unmoved rfl
  | inlined l' free => exact noted_fresh [l'] _ later place
  | released l' out =>
    simp only [release] at place ⊢
    exact noted_fresh _ _ later place

-- The entry of this number is that link's, and still waits or is out.
structure Stands (t : Tracked) (l : PipeLink) (e : Nat) : Prop where
  entry : t.entered[e]? = some l
  there : t.admitted.length ≤ e ∨ ⟨e,l⟩ ∈ t.outstanding

theorem Section.stands (sect : Section t u) (valid : Valid t) (stands : Stands t l e)
    (kept : ⟨e,l⟩ ∈ t.outstanding → t.held.count l = 1 ∧ l ∉ t.pipe.queue ∧ l ∈ u.held) : Stands u l e := by
  have entry := prefix_place sect.extends.1 stands.entry
  refine ⟨entry,?_⟩
  rcases stands.there with waits | out
  · rcases Nat.lt_or_ge e u.admitted.length with inside | still
    · have place : u.admitted[e]? = some l := by
        rw [(sect.valid valid).fifo,List.getElem?_append_left inside] at entry
        exact entry
      exact .inr (sect.fresh waits place)
    · exact .inl still
  · obtain ⟨alone,unqueued,held⟩ := kept out
    exact .inr (sect.tenure out alone unqueued held)

theorem enter_stands (valid : Valid t) (l : PipeLink) : Stands (t.enter l).1 l t.entered.length := by
  unfold enter
  dsimp only
  split
  · rename_i now
    have empty : t.pipe.queue = [] := by
      by_contra queued
      simp [Pipe.enterLocked,queued] at now
    have fifo : t.entered.length = t.admitted.length := by rw [valid.fifo,empty,List.append_nil]
    refine ⟨by simp,.inr ?_⟩
    rw [fifo]
    exact List.mem_append_right _ (List.mem_singleton_self _)
  · refine ⟨by simp,.inl ?_⟩
    rw [valid.fifo,List.length_append]
    exact Nat.le_add_right _ _

-- A writer that is out keeps every other entry behind it or before it.
theorem Valid.passed (valid : Valid t) (out : k ∈ t.outstanding) (mode : k.link.mode = .readWrite) (stands : Stands t l e) :
    k.number ≤ e := by
  rcases stands.there with waits | also
  · exact Nat.le_trans (Nat.le_of_lt (valid.below out)) waits
  · cases active : t.pipe.writerActive with
    | true =>
      obtain ⟨writer,only,_⟩ := valid.writing active
      rw [only] at out also
      rw [List.mem_singleton.mp out,← List.mem_singleton.mp also]
    | false =>
      rw [(valid.reading active).2 k out] at mode
      cases mode

end Tracked

namespace State

section Tickets

variable {s : State} {p : PipeId} {k : Ticket}

theorem ticket_held (out : k ∈ (s.pipes p).outstanding) : k.link ∈ (s.pipes p).held := List.mem_map.mpr ⟨k,out,rfl⟩

theorem ticket_once (acc : Accounts s) (out : k ∈ (s.pipes p).outstanding) :
    (s.pipes p).held.count k.link = 1 ∧ k.link ∉ (s.pipes p).pipe.queue := by
  have held := ticket_held out
  obtain ⟨number,⟨party,m⟩⟩ := k
  cases party with
  | link b i =>
    obtain ⟨holds,place⟩ := (holding_iff acc).mp held
    refine ⟨?_,?_⟩
    · have counted := (acc.blocks b).held p i m
      rw [footprint_progress,footprint_block,if_pos ⟨holds,place⟩] at counted
      exact counted
    · intro queued
      rw [((waiting_iff acc).mp queued).1] at holds
      simp [Status.holds] at holds
  | hold h o =>
    have here := (hold_holding_iff acc).mp held
    refine ⟨?_,?_⟩
    · have counted := (acc.holds h).held p o m
      rw [holdprint_hold,if_pos here] at counted
      exact counted
    · intro queued
      rw [queued_hold acc queued] at here
      simp at here

-- An admission is given up only by giving up its link.
theorem apply_tenure (acc : Accounts s) (allowed : s.Allowed a) (out : k ∈ (s.pipes p).outstanding)
    (still : k.link ∈ ((s.apply a).pipes p).held) : k ∈ ((s.apply a).pipes p).outstanding :=
  (apply_section acc allowed p).tenure out (ticket_once acc out).1 (ticket_once acc out).2 still

-- And while it is out the epoch stands.
theorem apply_epoch (path : Machines.Reached system s) (allowed : s.Allowed a) (out : k ∈ (s.pipes p).outstanding)
    (still : k.link ∈ ((s.apply a).pipes p).held) : (s.apply a).epochs p = s.epochs p := by
  have before := reached_valid path p
  have after := reached_valid (.step path (show system.allowed s a from allowed)) p
  have sect := apply_section (reached_accounts path) allowed p
  have kept := apply_tenure (reached_accounts path) allowed out still
  calc (s.apply a).epochs p = Tracked.windowEpoch ((s.apply a).pipes p).admitted k := after.window kept
    _ = Tracked.windowEpoch (s.pipes p).admitted k := Tracked.windowEpoch_stable sect.extends.2 (before.below out)
    _ = s.epochs p := (before.window out).symm

end Tickets

section Holds

variable {s : State} {h : HoldId}

theorem grant_hold (s : State) (l : PipeLink) (h : HoldId) : Hold.Next (s.holds h) ((s.grant l).holds h) := by
  obtain ⟨party,m⟩ := l
  cases party with
  | link b i => exact .same
  | hold g o =>
    simp only [grant]
    split
    · rename_i queued
      by_cases same : h = g
      · subst same
        simp only [push_holds,setHold_holds,Function.update_self,queued]
        exact .granted
      · simpa [same] using Hold.Next.same
    · exact .same

theorem releasePipe_hold (s : State) (p : PipeId) (l : PipeLink) (h : HoldId) :
    Hold.Next (s.holds h) ((s.releasePipe p l).holds h) := by
  have folded : ∀ (granted : List PipeLink) (t : State), Hold.Next (t.holds h) ((granted.foldl grant t).holds h) := by
    intro granted
    induction granted with
    | nil => exact fun _ => .same
    | cons l rest ih => exact fun t => (grant_hold t l h).trans (ih _)
  exact folded _ (s.setPipe p ((s.pipes p).release l).1)

theorem enterLink_holds (s : State) (b : BlockId) (i : Nat) : (s.enterLink b i).holds = s.holds := by
  simp only [enterLink]
  split
  · rfl
  · split <;> rfl

theorem inlined_holds (s : State) (b : BlockId) (entries : List (Link × Nat)) :
    (entries.foldl (admitInline · b) s).holds = s.holds := by
  induction entries generalizing s with
  | nil => rfl
  | cons entry rest ih => exact ih _

theorem runOwn_hold (s : State) (b : BlockId) (f : LocalFrame) (h : HoldId) :
    Hold.Next (s.holds h) ((s.runOwn b f).holds h) := by
  cases f with
  | fireTurn i =>
    simp only [runOwn,fireTurn]
    split
    · rw [enterLink_holds]; exact .same
    · exact .same
  | turnRelease => simp only [runOwn,releaseBlock]; split <;> exact .same
  | childRelease heard => simp only [runOwn,releaseBlock]; split <;> exact .same
  | enterFirst => simp only [runOwn]; rw [enterLink_holds]; exact .same
  | execute => simp only [runOwn,execute]; split <;> [exact .same; split <;> exact .same]
  | complete cancel =>
    simp only [runOwn,complete]
    split
    · exact .same
    · exact .same
    · split <;> [exact .same; split <;> exact .same]
  | advance i cancel =>
    simp only [runOwn,advance]
    split
    · split
      · exact .same
      · have released := releasePipe_hold ((s.setStatus b (.advancing (i+1) cancel)).push (.own b (.advance (i+1) cancel)))
        exact released _ _ h
    · split <;> exact .same
  | nodeComplete => exact .same

theorem apply_hold (s : State) (a : Action) (h : HoldId) (unhandled : a.handles ≠ some h) :
    Hold.Next (s.holds h) ((s.apply a).holds h) := by
  have apart : ∀ g, a.handles = some g → h ≠ g := by
    rintro g handled rfl
    exact unhandled handled
  cases a with
  | launch b =>
    simp only [apply,launch]
    split
    · exact .same
    · rw [enterLink_holds]; exact .same
  | tryInline b =>
    simp only [apply,tryInline]
    split
    · simp only [push_holds,setProgress_holds,setBlock_holds,inlined_holds]; exact .same
    · exact .same
  | acquire g p mode owner => simpa [apply,acquire,apart g rfl] using Hold.Next.same
  | releaseHold g =>
    simp only [apply,releaseHold]
    split
    · rename_i p mode owner _
      have released := releasePipe_hold (s.setHold g .idle) p ⟨.hold g owner,mode⟩ h
      simpa [apart g rfl] using released
    · exact .same
  | bodyEnd b => simp only [apply,bodyEnd]; split <;> exact .same
  | addNested b c => simp only [apply,addNested]; split <;> exact .same
  | resume f =>
    cases f with
    | own b f => exact runOwn_hold (s.drop (.own b f)) b f h
    | fireHold g =>
      simp only [apply,runFrame,fireHold]
      split
      · simpa [apart g rfl] using Hold.Next.same
      · exact .same
  | _ => exact .same

end Holds

section Gating

variable {s : State} {a : Action} {b c : BlockId}

theorem child_active (acc : Accounts s) (child : (s.blocks c).nestedParent = some b) :
    (s.progress b).status.active = true := by
  have counted := acc.nested b c
  rw [if_pos child] at counted
  have attached : (s.progress b).attached ≠ [] := by
    intro none_left
    rw [none_left] at counted
    cases counted
  have locks := (acc.blocks b).locks
  simp only [LocksSound,footprint_block,footprint_progress] at locks
  cases status : (s.progress b).status <;> simp_all [Status.active]

theorem active_unclaimed (allowed : s.Allowed a) (active : (s.progress b).status.active = true) : a.claims ≠ some b := by
  intro claimed
  cases a <;> cases claimed <;> cases status : (s.progress b).status <;>
    simp_all [State.Allowed,Status.resting,Status.active]

theorem active_incomplete (acc : Accounts s) (active : (s.progress b).status.active = true) :
    (s.blocks b).completed = false := by
  have completed := (acc.blocks b).cycle.completed
  simp only [footprint_block,footprint_progress] at completed
  cases status : (s.progress b).status <;> simp_all [Status.active,Status.settled]

-- A body runs until it ends itself.
theorem running_kept (acc : Accounts s) (allowed : s.Allowed a) (running : (s.progress b).status = .running)
    (goes_on : a ≠ .bodyEnd b) : ((s.apply a).progress b).status = .running := by
  have next := apply_next acc allowed b (active_unclaimed allowed (by rw [running]; rfl))
  rw [running] at next
  generalize ((s.apply a).progress b).status = after at next ⊢
  cases next with
  | same => rfl
  | ended ends => exact absurd ends goes_on
  | draining ends => exact absurd ends goes_on

theorem active_holds (active : status.active = true) (i : Nat) : Status.holds status i = true := by
  cases status <;> simp_all [Status.active,Status.holds]

-- The link of an active block stays held, by the same admission.
theorem active_held (acc : Accounts s) (allowed : s.Allowed a) (before : (s.progress b).status.active = true)
    (after : ((s.apply a).progress b).status.active = true) (held : ⟨.link b i,m⟩ ∈ (s.pipes p).held) :
    ⟨.link b i,m⟩ ∈ ((s.apply a).pipes p).held := by
  have place := ((holding_iff acc).mp held).2
  refine (holding_iff (apply_accounts acc allowed)).mpr ⟨active_holds after i,?_⟩
  rw [(apply_keeps s a b (active_unclaimed allowed before)).links]
  exact place

end Gating

end State
end Macrame

import Macrame.Tenure
import Macrame.GraphLaws

namespace Macrame
namespace State

-- A block that can keep another one open: its body goes on or waits for its
-- children, or it is a handle that has not settled.
def Engaged (s : State) (b : BlockId) : Prop :=
  (s.progress b).status.active = true ∨ (s.progress b).status = .armed ∧ (s.blocks b).kind = .bare

section Engaged

variable {s : State} {a : Action} {b : BlockId}

theorem Engaged.live (engaged : s.Engaged b) : (s.progress b).status.resting = false := by
  rcases engaged with active | ⟨armed,_⟩
  · cases status : (s.progress b).status <;> simp_all [Status.active,Status.resting]
  · rw [armed]; rfl

theorem Engaged.incomplete (acc : Accounts s) (engaged : s.Engaged b) : (s.blocks b).completed = false := by
  rcases engaged with active | ⟨armed,_⟩
  · exact active_incomplete acc active
  · have completed := (acc.blocks b).cycle.completed
    simp only [footprint_block,footprint_progress,armed] at completed
    simpa [Status.settled] using completed

-- A handle leaves its place only by settling.
theorem Engaged.unclaimed (before : s.Engaged b) (allowed : s.Allowed a) (after : (s.apply a).Engaged b) :
    a.claims ≠ some b := by
  rcases before with active | ⟨armed,bare⟩
  · exact active_unclaimed allowed active
  · intro claimed
    cases a with
    | settleBare c cancel =>
      cases Option.some.inj claimed
      rcases after with active | ⟨still,_⟩
      · simp [apply,setStatus,Status.active] at active
      · simp [apply,setStatus] at still
    | _ => cases claimed <;> simp_all [State.Allowed,Status.resting]

theorem Engaged.parent_kept (acc : Accounts s) (allowed : s.Allowed a) (before : s.Engaged b)
    (after : (s.apply a).Engaged b) (child : (s.blocks b).nestedParent = some c) :
    ((s.apply a).blocks b).nestedParent = some c := by
  rcases apply_parent allowed child (before.unclaimed allowed after) with kept | completed
  · exact kept
  · rw [after.incomplete (apply_accounts acc allowed)] at completed
    cases completed

-- Only a body can hold a link here: a handle has none.
theorem Engaged.holds (acc : Accounts s) (engaged : s.Engaged b) (held : ⟨.link b i,m⟩ ∈ (s.pipes p).held) :
    (s.progress b).status.active = true := by
  rcases engaged with active | ⟨armed,_⟩
  · exact active
  · have holds := ((holding_iff acc).mp held).1
    rw [armed] at holds
    cases holds

-- And its admission stays while it stays engaged.
theorem Engaged.held_kept (acc : Accounts s) (allowed : s.Allowed a) (before : s.Engaged b)
    (after : (s.apply a).Engaged b) (held : ⟨.link b i,m⟩ ∈ (s.pipes p).held) :
    ⟨.link b i,m⟩ ∈ ((s.apply a).pipes p).held := by
  have active := before.holds acc held
  rcases after with going | ⟨armed,_⟩
  · exact active_held acc allowed active going held
  · have next := apply_next acc allowed b (active_unclaimed allowed active)
    rw [armed] at next
    generalize (s.progress b).status = status at active next
    cases next
    cases active

end Engaged

-- A hold is given back by its release alone.
theorem hold_kept (acc : Accounts s) (allowed : s.Allowed a) (held : ⟨.hold h o,m⟩ ∈ (s.pipes p).held)
    (unreleased : a ≠ .releaseHold h) : ⟨.hold h o,m⟩ ∈ ((s.apply a).pipes p).held := by
  have taken := (hold_holding_iff acc).mp held
  refine (hold_holding_iff (apply_accounts acc allowed)).mpr ?_
  by_cases handled : a.handles = some h
  · cases a with
    | acquire g q mode owner =>
      cases Option.some.inj handled
      rcases taken with granted | held <;> simp_all [State.Allowed]
    | releaseHold g =>
      cases Option.some.inj handled
      exact absurd rfl unreleased
    | resume f =>
      cases f with
      | own b f => cases handled
      | fireHold g =>
        cases Option.some.inj handled
        rcases taken with granted | held
        · right; simp [apply,runFrame,fireHold,granted]
        · right; simp [apply,runFrame,fireHold,held]
    | _ => cases handled
  · have next := apply_hold s a h handled
    rcases taken with granted | held
    · rw [granted] at next
      generalize (s.apply a).holds h = after at next ⊢
      cases next
      exact .inl rfl
    · rw [held] at next
      generalize (s.apply a).holds h = after at next ⊢
      cases next
      exact .inr rfl

end State

namespace World

variable {d : Deployment}

-- `b` belongs to the run whose handle is `c`.
def RunOf (w : World d) (b c : BlockId) : Prop :=
  ∃ g : d.GraphId, ∃ i, i < (d.graph g).size ∧ d.block g i = b ∧ (w.runs g).done = some c

-- `c` cannot complete before `b` has: `b` is a child of `c`, or a node of the
-- run whose handle is `c`.
def Up (w : World d) (b c : BlockId) : Prop := (w.base.blocks b).nestedParent = some c ∨ w.RunOf b c

def Gate (w : World d) : BlockId → BlockId → Prop := Relation.ReflTransGen w.Up

section Gates

variable {w : World d}

-- While a node is in its cycle the handle of its run is open.
theorem run_open (sound : w.Sound) (node : w.RunOf b c) (live : (w.base.progress b).status.resting = false) :
    (w.base.progress c).status = .armed ∧ (w.base.blocks c).kind = .bare := by
  obtain ⟨g,i,within,rfl,done⟩ := node
  rcases sound.graphs g with fresh | ⟨handle,run⟩
  · rw [fresh.nodes i within] at live
    cases live
  obtain rfl : handle = c := Option.some.inj (run.done.symm.trans done)
  refine run.handle.waiting ?_
  by_contra decided
  have shown := (run.nodes i within).status
  rw [Run.finished (c := d.graphs g) run.books decided within] at shown
  rw [show (w.base.progress (d.block g i)).status = .retired from shown] at live
  cases live

theorem up_engaged (sound : w.Sound) (up : w.Up b c) (engaged : w.base.Engaged b) : w.base.Engaged c := by
  rcases up with child | node
  · exact .inl (State.child_active (reached_accounts sound.base) child)
  · exact .inr (run_open sound node engaged.live)

theorem gate_engaged (sound : w.Sound) (gate : w.Gate b c) (engaged : w.base.Engaged b) : w.base.Engaged c := by
  induction gate with
  | refl => exact engaged
  | tail _ up ih => exact up_engaged sound up ih

end Gates

section Steps

variable {w : World d}

-- A step of the world other than a start of a run is one step of the tasks, or
-- none; `a` says which.
inductive Moved (w : World d) : WorldAction d → State → Prop where
  | task : w.base.Allowed a → Moved w (.base a) (w.base.apply a)
  | graph : w.base.Allowed a → a.handles = none → (∀ b, a ≠ .bodyEnd b) → Moved w act (w.base.apply a)
  | counted : Moved w act w.base

theorem tail_moved (sound : w.Sound) (allowed : w.Allowed (.tail g t)) : Moved w (.tail g t) (w.apply (.tail g t)).base := by
  have pending : t ∈ (w.runs g).tails := allowed
  rcases sound.graphs g with fresh | ⟨b,live⟩
  · rw [fresh.unused] at pending
    cases pending
  have expected := Run.expected live.books pending
  have launched : ∀ j, j < (d.graph g).size → (w.runs g).stage j = .readied →
      Moved w (.tail g t) (w.onDataReady g j) := by
    intro j within ready
    have node := live.nodes j within
    rw [ready] at node
    exact .graph (State.launch_node node).1 rfl (by simp)
  cases t with
  | kick roots =>
    cases roots with
    | nil => exact .counted
    | cons j rest =>
      obtain ⟨within,ready⟩ := Run.kicked_readied live.books (j := j) (by rw [expected.1]; exact List.mem_cons_self)
      exact launched j within ready
  | lower i left ready => exact .counted
  | fire i ready =>
    cases ready with
    | nil => exact .counted
    | cons j rest =>
      obtain ⟨below,here⟩ := expected
      obtain ⟨within,waiting⟩ := Run.carried_readied live.books below (j := j) (by rw [here]; exact List.mem_cons_self)
      exact launched j within waiting
  | conclude =>
    have open_yet := live.handle.waiting expected.2
    have base : (w.apply (.tail g .conclude)).base = w.base.apply (.settleBare b (w.cancelRequested g)) := by
      simp [World.apply,World.setRun,World.tailBase,live.done]
    rw [base]
    exact .graph open_yet rfl (by simp)

-- Only `execute` gives a run a new handle.
theorem done_kept (w : World d) (a : WorldAction d) (starts : ∀ h done token lent parent, a ≠ .execute h done token lent parent)
    (g : d.GraphId) : ((w.apply a).runs g).done = (w.runs g).done := by
  have same : ∀ (h : d.GraphId) (run : Run) (base : State), run.done = (w.runs h).done →
      ((w.setRun h run base).runs g).done = (w.runs g).done := by
    intro h run base done
    by_cases here : g = h
    · subst here; rw [setRun_own,done]
    · rw [setRun_other w run base here]
  cases a with
  | base a => rfl
  | execute h done token lent parent => exact absurd rfl (starts h done token lent parent)
  | nodeComplete h i => exact same h _ _ rfl
  | tail h t =>
    refine same h _ _ ?_
    cases t with
    | kick roots => cases roots <;> rfl
    | lower i left ready => cases left <;> rfl
    | fire i ready => cases ready <;> rfl
    | conclude => rfl

theorem moved (sound : w.Sound) (allowed : w.Allowed a)
    (starts : ∀ h done token lent parent, a ≠ .execute h done token lent parent) : Moved w a (w.apply a).base := by
  cases a with
  | base a => exact .task allowed.1
  | execute h done token lent parent => exact absurd rfl (starts h done token lent parent)
  | nodeComplete g i => exact .graph (a := .resume (.own (d.block g i) .nodeComplete)) allowed.2 rfl (by simp)
  | tail g t => exact tail_moved sound allowed

end Steps

section Starts

variable {w : World d}

-- What the start of a run leaves alone: the pipes, the holds, and all of a block
-- that is not armed for it but its counter.
structure Beside (s t : State) (b : BlockId) : Prop where
  status : (t.progress b).status = (s.progress b).status
  kind : (t.blocks b).kind = (s.blocks b).kind
  links : (t.blocks b).links = (s.blocks b).links
  parent : (t.blocks b).nestedParent = (s.blocks b).nestedParent

theorem join_beside (s : State) (parent : Option BlockId) (apart : b ≠ done) : Beside s (join s done parent) b := by
  cases parent with
  | none => exact ⟨rfl,rfl,rfl,rfl⟩
  | some p =>
    simp only [join,State.apply,State.addNested]
    by_cases same : b = p
    · subst same
      split <;> constructor <;> simp [apart]
    · split <;> constructor <;> simp [apart,same]

theorem execute_beside (sound : w.Sound) (allowed : w.Allowed (.execute g done token lent parent))
    (outside : ∀ i, i < (d.graph g).size → b ≠ d.block g i) (apart : b ≠ done) :
    Beside w.base (w.apply (.execute g done token lent parent)).base b := by
  obtain ⟨blocks,progress⟩ := (arm_run sound allowed).others b outside apart
  have joined := join_beside ((rearmNodes g token lent w.base (List.range (d.graph g).size)).apply
    (.arm done .bare .empty none)) parent apart
  obtain ⟨status,kind,links,up⟩ := joined
  rw [blocks] at kind links up
  rw [progress] at status
  simp only [World.apply,setRun,executeBase]
  split
  · refine ⟨?_,kind,links,up⟩
    simpa [State.apply,State.setStatus,apart] using status
  · exact ⟨status,kind,links,up⟩

-- A block in its cycle is none of those a new run arms.
theorem execute_other (sound : w.Sound) (allowed : w.Allowed (.execute g done token lent parent))
    (live : (w.base.progress b).status.resting = false) :
    (∀ i, i < (d.graph g).size → b ≠ d.block g i) ∧ b ≠ done := by
  obtain ⟨settled,resting,_,_⟩ := allowed
  refine ⟨?_,?_⟩
  · rintro i within rfl
    rw [nodes_resting sound settled within] at live
    cases live
  · rintro rfl
    rw [resting] at live
    cases live

theorem rearmNodes_pipes (g : d.GraphId) (token : Option TokenId) (lent : List PipeId) (nodes : List Nat) (s : State) :
    (rearmNodes g token lent s nodes).pipes = s.pipes ∧ (rearmNodes g token lent s nodes).holds = s.holds := by
  unfold rearmNodes
  induction nodes generalizing s with
  | nil => exact ⟨rfl,rfl⟩
  | cons i rest ih => exact ih _

theorem execute_pipes (w : World d) (g : d.GraphId) (done : BlockId) (token : Option TokenId) (lent : List PipeId)
    (parent : Option BlockId) : (w.apply (.execute g done token lent parent)).base.pipes = w.base.pipes := by
  have armed := (rearmNodes_pipes g token lent (List.range (d.graph g).size) w.base).1
  have joined : ∀ s : State, (join s done parent).pipes = s.pipes := by
    intro s
    cases parent with
    | none => rfl
    | some p => simp only [join,State.apply,State.addNested]; split <;> rfl
  simp only [World.apply,setRun,executeBase]
  split
  · exact (joined _).trans armed
  · exact (joined _).trans armed

theorem join_parent (s : State) (done t : BlockId) (open_yet : (s.blocks done).completed = false) :
    ((join s done (some t)).blocks done).nestedParent = some t := by
  simp [join,State.apply,State.addNested,open_yet]

theorem execute_joins (w : World d) (g : d.GraphId) (done : BlockId) (token : Option TokenId) (lent : List PipeId)
    (t : BlockId) : ((w.apply (.execute g done token lent (some t))).base.blocks done).nestedParent = some t := by
  have joined := join_parent ((rearmNodes g token lent w.base (List.range (d.graph g).size)).apply
    (.arm done .bare .empty none)) done t (by simp [State.apply])
  simp only [World.apply,setRun,executeBase]
  split
  · exact joined
  · exact joined

end Starts

section Kept

variable {w : World d} {a : WorldAction d}

theorem runOf_kept (sound : w.Sound) (allowed : w.Allowed a) (node : w.RunOf b c)
    (live : (w.base.progress b).status.resting = false) : (w.apply a).RunOf b c := by
  obtain ⟨g,i,within,rfl,done⟩ := node
  refine ⟨g,i,within,rfl,?_⟩
  cases a with
  | execute h handle token lent parent =>
    have other : g ≠ h := by
      rintro rfl
      exact (execute_other sound allowed live).1 i within rfl
    rw [show (w.apply (.execute h handle token lent parent)).runs g = w.runs g from setRun_other w _ _ other]
    exact done
  | _ => rw [done_kept w _ (by simp) g]; exact done

theorem up_kept (sound : w.Sound) (allowed : w.Allowed a) (up : w.Up b c) (before : w.base.Engaged b)
    (after : (w.apply a).base.Engaged b) : (w.apply a).Up b c := by
  rcases up with child | node
  · left
    have acc := reached_accounts sound.base
    by_cases starts : ∃ g done token lent parent, a = .execute g done token lent parent
    · obtain ⟨g,done,token,lent,parent,rfl⟩ := starts
      obtain ⟨outside,apart⟩ := execute_other sound allowed before.live
      exact (execute_beside sound allowed outside apart).parent.trans child
    · have step := moved sound allowed (fun g done token lent parent same => starts ⟨g,done,token,lent,parent,same⟩)
      generalize (w.apply a).base = next at step after ⊢
      cases step with
      | task may => exact before.parent_kept acc may after child
      | graph may _ _ => exact before.parent_kept acc may after child
      | counted => exact child
  · exact .inr (runOf_kept sound allowed node before.live)

-- While a block stays engaged it stays below everything it was below.
theorem gate_kept (sound : w.Sound) (allowed : w.Allowed a) (gate : w.Gate b c) (before : w.base.Engaged b)
    (after : (w.apply a).base.Engaged b) : (w.apply a).Gate b c := by
  have later := apply_sound sound allowed
  induction gate using Relation.ReflTransGen.head_induction_on with
  | refl => exact .refl
  | head up _ ih =>
    have still := up_kept sound allowed up before after
    exact .head still (ih (up_engaged sound up before) (up_engaged later still after))

-- A body runs until it ends itself, whatever runs start beside it.
theorem body_kept (sound : w.Sound) (allowed : w.Allowed a) (running : (w.base.progress b).status = .running)
    (goes_on : a ≠ .base (.bodyEnd b)) : ((w.apply a).base.progress b).status = .running := by
  have acc := reached_accounts sound.base
  by_cases starts : ∃ g done token lent parent, a = .execute g done token lent parent
  · obtain ⟨g,done,token,lent,parent,rfl⟩ := starts
    obtain ⟨outside,apart⟩ := execute_other sound allowed (by rw [running]; rfl)
    exact (execute_beside sound allowed outside apart).status.trans running
  · have step := moved sound allowed (fun g done token lent parent same => starts ⟨g,done,token,lent,parent,same⟩)
    generalize (w.apply a).base = next at step ⊢
    cases step with
    | task may =>
      refine State.running_kept acc may running ?_
      rintro rfl
      exact goes_on rfl
    | graph may _ continues => exact State.running_kept acc may running (continues b)
    | counted => exact running

-- What keeps an admission out through a step: its task stays engaged, or its
-- hold is not the one released.
theorem ticket_kept (sound : w.Sound) (allowed : w.Allowed a) (out : k ∈ (w.base.pipes p).outstanding)
    (tasks : ∀ x i, k.link.party = .link x i → w.base.Engaged x ∧ (w.apply a).base.Engaged x)
    (holds : ∀ h o, k.link.party = .hold h o → a ≠ .base (.releaseHold h)) :
    k ∈ ((w.apply a).base.pipes p).outstanding := by
  have acc := reached_accounts sound.base
  by_cases starts : ∃ g done token lent parent, a = .execute g done token lent parent
  · obtain ⟨g,done,token,lent,parent,rfl⟩ := starts
    rw [execute_pipes]
    exact out
  have stays : ∀ move, w.base.Allowed move → (w.apply a).base = w.base.apply move →
      (∀ h o, k.link.party = .hold h o → move ≠ .releaseHold h) → k ∈ ((w.apply a).base.pipes p).outstanding := by
    intro move may base unreleased
    have held := State.ticket_held out
    rw [base] at tasks ⊢
    refine State.apply_tenure acc may out ?_
    obtain ⟨number,⟨party,mode⟩⟩ := k
    cases party with
    | link x i => exact (tasks x i rfl).1.held_kept acc may (tasks x i rfl).2 held
    | hold h o => exact State.hold_kept acc may held (unreleased h o rfl)
  have step := moved sound allowed (fun g done token lent parent same => starts ⟨g,done,token,lent,parent,same⟩)
  generalize after : (w.apply a).base = next at step stays ⊢
  cases step with
  | task may =>
    refine stays _ may rfl ?_
    rintro h o party rfl
    exact holds h o party rfl
  | @graph move _ may unhandled _ =>
    refine stays _ may rfl ?_
    rintro h o party rfl
    cases unhandled
  | counted => exact out

end Kept

end World
end Macrame

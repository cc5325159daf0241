import Macrame.Gates
import Macrame.Lending

namespace Macrame

-- `e` can have been declared inside admission `k`: the admission took place, and
-- the epoch captured is the one of its window.
structure Declared (s : State) (e : Entry) (k : Ticket) : Prop where
  admitted : (s.pipes e.target).admitted[k.number]? = some k.link
  source : e.epoch = some e.target
  captured : e.captured = Tracked.windowEpoch (s.pipes e.target).admitted k
  covers : k.link.mode.covers e.mode = true

-- How a thread stands when it calls: the task whose body it works for, whether
-- that task is its `Current_task` (a `parallel_for` helper runs without one), and
-- the entries of the context installed, each with its admission.
structure Call where
  body : Option BlockId := none
  current : Bool := true
  declared : List (Entry × Ticket) := []
  bounded : declared.length ≤ maxEntries := by decide

namespace Call

def context (call : Call) : AccessContext := ⟨call.declared.map Prod.fst,by simpa using call.bounded⟩

def currentTask (call : Call) : Option BlockId := if call.current then call.body else none

structure Valid (s : State) (call : Call) : Prop where
  running : ∀ t ∈ call.body, (s.progress t).status = .running
  declared : ∀ e ∈ call.declared, Declared s e.1 e.2

-- The admission `k` is behind an entry that answers for the link.
def AnsweredBy (build : Build) (epochs : PipeId → Nat) (call : Call) (link : Link) (k : Ticket) : Prop :=
  ∃ e ∈ call.declared, e.2 = k ∧ AccessContext.Answers build epochs link.pipe link.mode e.1

end Call

-- A link that a call left unbound: the admission that answered for it, and the
-- block that has to settle before that admission may end, the handle of a run that
-- has joined its caller or else the calling body.
structure Loan where
  link : Link
  ticket : Ticket
  anchor : Option BlockId
  deriving DecidableEq, Repr

structure LendWorld (d : Deployment) where
  world : World d := {}
  bindings : d.GraphId → Binding := fun g => .compiled (d.graph g)
  loans : List (BlockId × Loan) := []

-- The calls that lend, with the admissions their contexts answer by, and
-- everything else.
inductive LendAction (d : Deployment) where
  | world (a : WorldAction d)
  | execute (g : d.GraphId) (done : BlockId) (token : Option TokenId) (detach quiet : Bool) (call : Call)
    (backing : PipeId → Ticket)
  | bindLinks (op : BlockId) (call : Call) (backing : PipeId → Ticket)

def WorldAction.lends : WorldAction d → Bool
  | .base (.rebind _ _) => true
  | .execute _ _ _ _ _ => true
  | _ => false

namespace LendWorld

variable {d : Deployment} (build : Build)

def lentPipes (w : LendWorld d) (g : d.GraphId) (detach : Bool) (call : Call) : List PipeId :=
  (d.graph g).distinctPipes.filter
    (lentTo build w.world.base.epochs (d.graph g) (if detach then none else some call.context))

-- `execute`, after `bind_links_for_run`.
def started (w : LendWorld d) (g : d.GraphId) (done : BlockId) (token : Option TokenId) (detach : Bool) (call : Call) :
    WorldAction d :=
  .execute g done token (w.lentPipes build g detach call) (if detach then none else call.currentTask)

def runAnchor (done : BlockId) (call : Call) : Option BlockId :=
  if call.currentTask.isSome then some done else call.body

def runLoans (g : d.GraphId) (lent : List PipeId) (anchor : Option BlockId) (backing : PipeId → Ticket) :
    List (BlockId × Loan) :=
  (List.range (d.graph g).size).flatMap (fun i =>
    (((d.graph g).nodeLinks i).entries.filter (fun link => lent.contains link.pipe)).map
      (fun link => (d.block g i,⟨link,backing link.pipe,anchor⟩)))

def bindsRun (w : LendWorld d) (g : d.GraphId) (detach quiet : Bool) (call : Call) : Except Fatal Binding :=
  bindLinksForRun build w.world.base.epochs (d.graph g) (some call.context) detach quiet (w.bindings g)

-- `bind_links(true)` of an armed op.
def bindsOp (w : LendWorld d) (op : BlockId) (call : Call) : Except Fatal LinkTable :=
  bindLinks build w.world.base.epochs (some call.context) true (w.world.base.blocks op).links

-- What a call that is not fatal leaves bound.
def runBinding (w : LendWorld d) (g : d.GraphId) (detach quiet : Bool) (call : Call) : Binding :=
  match w.bindsRun build g detach quiet call with
  | .error _ => w.bindings g
  | .ok next => next

def opTable (w : LendWorld d) (op : BlockId) (call : Call) : LinkTable :=
  match w.bindsOp build op call with
  | .error _ => (w.world.base.blocks op).links
  | .ok table => table

def opLent (w : LendWorld d) (op : BlockId) (call : Call) : List Link :=
  (w.world.base.blocks op).links.entries.filter (fun link => !(w.opTable build op call).entries.contains link)

-- What an action does to the tasks and graphs, to the links of the graphs' nodes,
-- and the loans it makes.
def step (w : LendWorld d) : LendAction d → WorldAction d
  | .world a => a
  | .execute g done token detach _ call _ => w.started build g done token detach call
  | .bindLinks op call _ => .base (.rebind op (w.opTable build op call))

def rebound (w : LendWorld d) : LendAction d → d.GraphId → Binding
  | .execute g _ _ detach quiet call _ => Function.update w.bindings g (w.runBinding build g detach quiet call)
  | _ => w.bindings

def made (w : LendWorld d) : LendAction d → List (BlockId × Loan)
  | .world _ => []
  | .execute g done _ detach _ call backing =>
    runLoans g (w.lentPipes build g detach call) (runAnchor done call) backing
  | .bindLinks op call backing => (w.opLent build op call).map (fun link => (op,⟨link,backing link.pipe,call.body⟩))

-- A loan ends with the cycle of the block it was made to.
def apply (w : LendWorld d) (a : LendAction d) : LendWorld d where
  world := w.world.apply (w.step build a)
  bindings := w.rebound build a
  loans := (w.loans++w.made build a).filter
    (fun loan => !((w.world.apply (w.step build a)).base.progress loan.1).status.resting)

-- A fatal call is no step.
def Allowed (w : LendWorld d) : LendAction d → Prop
  | .world a => w.world.Allowed a ∧ a.lends = false
  | .execute g done token detach quiet call backing =>
    w.world.Allowed (w.started build g done token detach call) ∧ (w.bindsRun build g detach quiet call).isOk = true ∧
      call.Valid w.world.base ∧ ∀ p ∈ w.lentPipes build g detach call,
        call.AnsweredBy build w.world.base.epochs ⟨p,(d.graph g).pipeMode p⟩ (backing p)
  | .bindLinks op call backing =>
    w.world.Allowed (.base (.rebind op (w.opTable build op call))) ∧ (w.bindsOp build op call).isOk = true ∧
      call.Valid w.world.base ∧ ∀ link ∈ w.opLent build op call,
        call.AnsweredBy build w.world.base.epochs link (backing link.pipe)

end LendWorld

section Decidable

instance (s : State) (e : Entry) (k : Ticket) : Decidable (Declared s e k) :=
  decidable_of_iff ((s.pipes e.target).admitted[k.number]? = some k.link ∧ e.epoch = some e.target ∧
    e.captured = Tracked.windowEpoch (s.pipes e.target).admitted k ∧ k.link.mode.covers e.mode = true)
    ⟨fun ⟨admitted,source,captured,covers⟩ => ⟨admitted,source,captured,covers⟩,
      fun ⟨admitted,source,captured,covers⟩ => ⟨admitted,source,captured,covers⟩⟩

instance (s : State) (call : Call) : Decidable (call.Valid s) :=
  decidable_of_iff ((∀ t ∈ call.body, (s.progress t).status = .running) ∧ ∀ e ∈ call.declared, Declared s e.1 e.2)
    ⟨fun ⟨running,declared⟩ => ⟨running,declared⟩,fun ⟨running,declared⟩ => ⟨running,declared⟩⟩

instance (build : Build) (epochs : PipeId → Nat) (target : PipeId) (mode : Access) (e : Entry) :
    Decidable (AccessContext.Answers build epochs target mode e) := inferInstanceAs (Decidable (_ ∧ _ ∧ (_ → _)))

instance (build : Build) (epochs : PipeId → Nat) (call : Call) (link : Link) (k : Ticket) :
    Decidable (call.AnsweredBy build epochs link k) := inferInstanceAs (Decidable (∃ e ∈ call.declared, _ ∧ _))

instance (build : Build) (w : LendWorld d) : (a : LendAction d) → Decidable (w.Allowed build a)
  | .world _ => inferInstanceAs (Decidable (_ ∧ _))
  | .execute _ _ _ _ _ _ _ => inferInstanceAs (Decidable (_ ∧ _ ∧ _ ∧ _))
  | .bindLinks _ _ _ => inferInstanceAs (Decidable (_ ∧ _ ∧ _ ∧ _))

end Decidable

def lendSystem (build : Build) (d : Deployment) : Machines.Machine (LendWorld d) (LendAction d) :=
  ⟨(· = {}),LendWorld.Allowed build,LendWorld.apply build⟩

instance (build : Build) (d : Deployment) (w : LendWorld d) (a : LendAction d) :
    Decidable ((lendSystem build d).allowed w a) := inferInstanceAs (Decidable (w.Allowed build a))

-- Whatever a run can carry into a context may be asked there.
theorem Carried.declared (carried : Carried s e k) : Declared s e k := by
  obtain ⟨origin,actions,path,inside,run⟩ := carried
  have valid := reached_valid path e.target
  obtain ⟨more,grown⟩ := (runs_extends path run e.target).2
  refine ⟨?_,by rw [inside.entry]; rfl,inside.captured.trans (inside.window path run),inside.covers⟩
  rw [← grown,List.getElem?_append_left (valid.below inside.out)]
  exact valid.numbered k inside.out

theorem covers_trans {one two three : Access} (first : one.covers two = true) (second : two.covers three = true) :
    one.covers three = true := by
  cases one <;> cases two <;> cases three <;> simp_all [Access.covers]

theorem Call.AnsweredBy.covers (answered : Call.AnsweredBy build epochs call link k) (valid : call.Valid s) :
    k.link.mode.covers link.mode = true := by
  obtain ⟨e,member,rfl,_,covers,_⟩ := answered
  exact covers_trans (valid.declared e member).covers covers

theorem nodeLinks_declared (g : Graph) (member : link ∈ (g.nodeLinks i).entries) : ∃ node ∈ g.nodes, link ∈ node.access := by
  simp only [Graph.nodeLinks] at member
  cases here : g.nodes[i]? with
  | none => rw [here] at member; cases member
  | some node =>
    rw [here] at member
    exact ⟨node,List.mem_of_getElem? here,(LinkTable.mem_sorted ..).mp member⟩

theorem nodeLinks_distinct (g : Graph) (member : link ∈ (g.nodeLinks i).entries) : link.pipe ∈ g.distinctPipes := by
  obtain ⟨node,known,declared⟩ := nodeLinks_declared g member
  simp only [Graph.distinctPipes,List.mem_insertionSort,List.mem_dedup,List.mem_flatMap,List.mem_map]
  exact ⟨node,known,link,declared,rfl⟩

-- The mode a graph asks for an object in serves each of its nodes.
theorem pipeMode_covers (g : Graph) (member : link ∈ (g.nodeLinks i).entries) :
    (g.pipeMode link.pipe).covers link.mode = true := by
  cases mode : link.mode with
  | readOnly => cases g.pipeMode link.pipe <;> rfl
  | readWrite =>
    obtain ⟨node,known,declared⟩ := nodeLinks_declared g member
    have wanted : g.nodes.any (fun node => node.access.any (fun l => l.pipe == link.pipe && l.mode == .readWrite)) = true := by
      simp only [List.any_eq_true]
      exact ⟨node,known,link,declared,by simp [mode]⟩
    simp [Graph.pipeMode,wanted,Access.covers]

namespace LendWorld

variable {d : Deployment} {build : Build} {w : LendWorld d} {a : LendAction d}

structure Sound (w : LendWorld d) : Prop where
  world : w.world.Sound
  bindings : ∀ g, Binding.Sound (d.graph g) (w.bindings g)
  live : ∀ b loan, (b,loan) ∈ w.loans → (w.world.base.progress b).status.resting = false

theorem step_allowed (allowed : w.Allowed build a) : w.world.Allowed (w.step build a) := by
  cases a with
  | world a => exact allowed.1
  | execute g done token detach quiet call backing => exact allowed.1
  | bindLinks op call backing => exact allowed.1

theorem runBinding_sound (sound : Binding.Sound (d.graph g) (w.bindings g)) (detach quiet : Bool) (call : Call) :
    Binding.Sound (d.graph g) (w.runBinding build g detach quiet call) := by
  unfold runBinding
  cases bound : w.bindsRun build g detach quiet call with
  | error _ => exact sound
  | ok next => exact (bindLinksForRun_links sound bound).1

theorem apply_sound (sound : w.Sound) (allowed : w.Allowed build a) : (w.apply build a).Sound := by
  refine ⟨World.apply_sound sound.world (step_allowed allowed),?_,?_⟩
  · intro g
    cases a with
    | execute h done token detach quiet call backing =>
      simp only [apply,rebound]
      by_cases here : g = h
      · subst here
        rw [Function.update_self]
        exact runBinding_sound (sound.bindings g) detach quiet call
      · rw [Function.update_of_ne here]
        exact sound.bindings g
    | _ => exact sound.bindings g
  · intro b loan member
    have live := (List.mem_filter.mp member).2
    simpa [apply] using live

theorem reached_sound (path : Machines.Reached (lendSystem build d) w) : w.Sound := by
  refine Machines.reached_invariant Sound ?_ ?_ path
  · rintro w rfl
    exact ⟨World.initial_sound,fun g => Binding.compiled_sound _,by simp⟩
  · intro w a sound allowed
    exact apply_sound sound allowed

end LendWorld

namespace World

variable {d : Deployment} {w : World d}

-- The links a run arms its nodes with.
theorem rearmNodes_links (g : d.GraphId) (token : Option TokenId) (lent : List PipeId) (within : i < (d.graph g).size)
    (nodes : List Nat) (inner : ∀ j ∈ nodes, j < (d.graph g).size) (s : State) :
    (i ∈ nodes → ((rearmNodes g token lent s nodes).blocks (d.block g i)).links =
      ((d.graph g).nodeLinks i).keep (fun link => !lent.contains link.pipe)) ∧
    (i ∉ nodes → (rearmNodes g token lent s nodes).blocks (d.block g i) = s.blocks (d.block g i)) := by
  induction nodes generalizing s with
  | nil =>
    refine ⟨?_,fun _ => rfl⟩
    intro member
    cases member
  | cons j rest ih =>
    obtain ⟨armed,untouched⟩ := ih (fun k member => inner k (List.mem_cons_of_mem _ member)) (rearmNode g token lent s j)
    have shape : rearmNodes g token lent s (j :: rest) = rearmNodes g token lent (rearmNode g token lent s j) rest := rfl
    rw [shape]
    refine ⟨?_,?_⟩
    · intro member
      by_cases again : i ∈ rest
      · exact armed again
      · obtain rfl : i = j := by simpa [again] using member
        rw [untouched again]
        simp [rearmNode,State.apply]
    · intro outside
      obtain ⟨apart,other⟩ := not_or.mp (fun member => outside (List.mem_cons.mpr member))
      rw [untouched other]
      have distinct : d.block g i ≠ d.block g j := fun same =>
        apart (d.distinct g g i j within (inner j List.mem_cons_self) same).2
      simp [rearmNode,State.apply,distinct]

theorem execute_links (allowed : w.Allowed (.execute g done token lent parent))
    (within : i < (d.graph g).size) : ((w.apply (.execute g done token lent parent)).base.blocks (d.block g i)).links =
      ((d.graph g).nodeLinks i).keep (fun link => !lent.contains link.pipe) := by
  have armed := (rearmNodes_links g token lent within (List.range (d.graph g).size)
    (fun j member => List.mem_range.mp member) w.base).1 (List.mem_range.mpr within)
  have apart : d.block g i ≠ done := (unowned_node allowed.2.2.1 g within).symm
  have joined := (join_beside ((rearmNodes g token lent w.base (List.range (d.graph g).size)).apply
    (.arm done .bare .empty none)) parent apart).links
  have occupied : (d.graph g).size ≠ 0 := Nat.ne_of_gt (Nat.lt_of_le_of_lt (Nat.zero_le i) within)
  simp only [World.apply,setRun,executeBase,if_neg occupied]
  rw [joined]
  simpa [State.apply,apart] using armed

theorem execute_nodes (sound : w.Sound) (allowed : w.Allowed (.execute g done token lent parent))
    (within : i < (d.graph g).size) :
    NodeAt (w.apply (.execute g done token lent parent)).base (d.block g i) .readied := by
  obtain ⟨_,nodes,_⟩ := joined_run sound allowed (arm_run sound allowed)
  have occupied : (d.graph g).size ≠ 0 := Nat.ne_of_gt (Nat.lt_of_le_of_lt (Nat.zero_le i) within)
  simp only [World.apply,setRun,executeBase,if_neg occupied]
  exact nodes i within

end World

namespace LendWorld

section Accounted

variable {d : Deployment} (build : Build) (w : LendWorld d) (a : LendAction d)

-- The links a call binds or lends: those of every node, or of the op.
def Asks : LendAction d → BlockId → Link → Prop
  | .world _,_,_ => False
  | .execute g _ _ _ _ _ _,b,link => ∃ i, i < (d.graph g).size ∧ b = d.block g i ∧ link ∈ ((d.graph g).nodeLinks i).entries
  | .bindLinks op _ _,b,link => b = op ∧ link ∈ (w.world.base.blocks op).links.entries

-- A node is armed with the links its run has bound, and a link that is not bound is
-- on loan, from before the body begins to after the block has come to rest.
structure Accounted : Prop where
  bound : ∀ g done token detach quiet call backing, a = .execute g done token detach quiet call backing →
    ∀ i, i < (d.graph g).size →
      ((w.apply build a).world.base.blocks (d.block g i)).links = ((w.apply build a).bindings g).links i
  recorded : ∀ b link, w.Asks a b link → link ∈ ((w.apply build a).world.base.blocks b).links.entries ∨
    ∃ loan, (b,loan) ∈ (w.apply build a).loans ∧ loan.link = link
  ready : ∀ b loan, (b,loan) ∈ (w.apply build a).loans → (b,loan) ∈ w.loans ∨
    ((w.apply build a).world.base.progress b).status = .armed
  kept : ∀ b loan, (b,loan) ∈ w.loans → (b,loan) ∈ (w.apply build a).loans ∨
    ((w.apply build a).world.base.progress b).status.resting = true

end Accounted

section Laws

variable {d : Deployment} {build : Build} {w : LendWorld d} {a : LendAction d}

theorem mem_runLoans (g : d.GraphId) (lent : List PipeId) (anchor : Option BlockId) (backing : PipeId → Ticket) :
    (b,loan) ∈ runLoans g lent anchor backing ↔ ∃ i link, i < (d.graph g).size ∧ b = d.block g i ∧
      link ∈ ((d.graph g).nodeLinks i).entries ∧ link.pipe ∈ lent ∧ loan = ⟨link,backing link.pipe,anchor⟩ := by
  simp only [runLoans,List.mem_flatMap,List.mem_range,List.mem_map,List.mem_filter,List.contains_iff_mem]
  constructor
  · rintro ⟨i,within,link,⟨member,lent⟩,same⟩
    cases same
    exact ⟨i,link,within,rfl,member,lent,rfl⟩
  · rintro ⟨i,link,within,rfl,member,lent,rfl⟩
    exact ⟨i,within,link,⟨member,lent⟩,rfl⟩

theorem mem_apply : (b,loan) ∈ (w.apply build a).loans ↔ ((b,loan) ∈ w.loans ∨ (b,loan) ∈ w.made build a) ∧
    ((w.apply build a).world.base.progress b).status.resting = false := by
  simp only [apply,List.mem_filter,List.mem_append,Bool.not_eq_true']

theorem made_armed (sound : w.Sound) (allowed : w.Allowed build a) (member : (b,loan) ∈ w.made build a) :
    ((w.apply build a).world.base.progress b).status = .armed := by
  cases a with
  | world a => cases member
  | execute g done token detach quiet call backing =>
    obtain ⟨i,link,within,rfl,_⟩ := (mem_runLoans _ _ _ _).mp member
    exact (World.execute_nodes sound.world allowed.1 within).status
  | bindLinks op call backing =>
    simp only [made,List.mem_map] at member
    obtain ⟨link,_,same⟩ := member
    cases same
    exact allowed.1.1.1

-- The links `execute` arms a node with are those `bind_links_for_run` has bound.
theorem run_links (sound : w.Sound) (allowed : w.Allowed build (.execute g done token detach quiet call backing))
    (within : i < (d.graph g).size) :
    ((w.apply build (.execute g done token detach quiet call backing)).world.base.blocks (d.block g i)).links =
      (w.runBinding build g detach quiet call).links i := by
  have armed := World.execute_links allowed.1 within
  have entries : ((w.runBinding build g detach quiet call).links i).entries = ((d.graph g).nodeLinks i).entries.filter
      (fun link => !lentTo build w.world.base.epochs (d.graph g) (if detach then none else some call.context) link.pipe) := by
    unfold runBinding
    have succeeds := allowed.2.1
    cases bound : w.bindsRun build g detach quiet call with
    | error _ => rw [bound] at succeeds; cases succeeds
    | ok next => exact (bindLinksForRun_links (sound.bindings g) bound).2 i
  show ((w.world.apply (w.started build g done token detach call)).base.blocks (d.block g i)).links = _
  rw [started,armed]
  refine LinkTable.same_entries ?_
  rw [entries]
  refine List.filter_congr ?_
  intro link member
  simp [lentPipes,nodeLinks_distinct (d.graph g) member]

theorem accounted (sound : w.Sound) (allowed : w.Allowed build a) : Accounted build w a := by
  have fresh : ∀ b loan, (b,loan) ∈ w.made build a → (b,loan) ∈ (w.apply build a).loans := by
    intro b loan member
    exact mem_apply.mpr ⟨.inr member,by rw [made_armed sound allowed member]; rfl⟩
  refine ⟨?_,?_,?_,?_⟩
  · rintro g done token detach quiet call backing rfl i within
    rw [run_links sound allowed within]
    simp [apply,rebound]
  · intro b link asked
    cases a with
    | world a => cases asked
    | execute g done token detach quiet call backing =>
      obtain ⟨i,within,rfl,member⟩ := asked
      have links := World.execute_links allowed.1 within
      by_cases lent : link.pipe ∈ w.lentPipes build g detach call
      · exact .inr ⟨_,fresh _ _ ((mem_runLoans _ _ _ _).mpr ⟨i,link,within,rfl,member,lent,rfl⟩),rfl⟩
      · left
        show link ∈ ((w.world.apply (w.started build g done token detach call)).base.blocks (d.block g i)).links.entries
        rw [started,links]
        simp [member,lent]
    | bindLinks op call backing =>
      obtain ⟨rfl,member⟩ := asked
      by_cases kept : link ∈ (w.opTable build b call).entries
      · left
        simpa [apply,step,World.apply,State.apply] using kept
      · refine .inr ⟨⟨link,backing link.pipe,call.body⟩,fresh _ _ ?_,rfl⟩
        simp [made,opLent,member,kept]
  · intro b loan member
    rcases (mem_apply.mp member).1 with old | new
    · exact .inl old
    · exact .inr (made_armed sound allowed new)
  · intro b loan member
    cases rests : ((w.apply build a).world.base.progress b).status.resting with
    | true => exact .inr rfl
    | false => exact .inl (mem_apply.mpr ⟨.inl member,rests⟩)

end Laws

end LendWorld

end Macrame

import Macrame.GraphCoherence

namespace Macrame
namespace Run

variable {c : Compiled} {run : Run}

theorem all_counted (sound : run.Sound c.graph) (none_left : run.remainingNodes = 0) (within : i < c.graph.size) :
    run.stage i = .counted := by
  rw [sound.nodes] at none_left
  have counted := Tally.tally_zero.mp (by exact_mod_cast none_left) i within
  by_contra other
  simp [uncounted,other] at counted

theorem finished (sound : run.Sound c.graph) (decided : run.verdict ≠ none) (within : i < c.graph.size) :
    run.stage i = .counted :=
  all_counted sound (sound.last decided) within

-- With nothing pending and no node under way the run is over: the first node
-- still blocked would have only counted predecessors, and so a count of zero.
theorem moves (sound : run.Sound c.graph) :
    run.verdict ≠ none ∨ run.tails ≠ [] ∨ ∃ i, i < c.graph.size ∧ run.stage i = .launched := by
  by_contra stuck
  simp only [ne_eq,not_or,not_not,not_exists,not_and] at stuck
  obtain ⟨undecided,quiet,idle⟩ := stuck
  have unexpected : ∀ t, ¬ run.expects c.graph t := by
    intro t expects
    have counted := sound.pending t
    rw [if_pos expects,quiet] at counted
    cases counted
  have rootless : run.kicked = [] := by
    by_contra more
    exact unexpected (.kick run.kicked) ⟨rfl,more⟩
  have still : ∀ i, i < c.graph.size → run.stage i = .blocked ∨ run.stage i = .readied ∨ run.stage i = .counted := by
    intro i within
    cases shape : run.stage i with
    | blocked => exact .inl rfl
    | readied => exact .inr (.inl rfl)
    | launched => exact absurd shape (idle i within)
    | lowering left ready => exact absurd ⟨within,shape⟩ (unexpected (.lower i left ready))
    | firing ready => exact absurd ⟨within,shape⟩ (unexpected (.fire i ready))
    | counted => exact .inr (.inr rfl)
  have unready : ∀ i, i < c.graph.size → run.stage i ≠ .readied := by
    intro i within ready
    have carried := sound.readied i within
    have none_carried : Tally.tally c.graph.size (carries i) run.stage = 0 := by
      refine Tally.tally_zero.mpr ?_
      intro k below
      rcases still k below with shape | shape | shape <;> simp [carries,shape,Stage.collected]
    rw [none_carried,rootless,if_pos ready] at carried
    cases carried
  by_cases waiting : ∃ j, j < c.graph.size ∧ run.stage j = .blocked
  · obtain ⟨order,topological⟩ := c.graph.detectCycles_iff.mp c.acyclic
    obtain ⟨j,within,blocked,behind⟩ := topological.first (fun j => run.stage j = .blocked) waiting
    have counted := (sound.blocked j within).mp blocked
    refine counted ?_
    rw [sound.deps j within]
    refine congrArg Nat.cast (Tally.tally_zero.mpr ?_)
    intro i below
    rcases still i below with shape | shape | shape
    · have apart : ¬ c.graph.edge i j = true := fun arc => behind i below arc shape
      simp [owes,shape,apart]
    · exact absurd shape (unready i below)
    · simp [owes,shape]
  · have all : run.remainingNodes = 0 := by
      rw [sound.nodes]
      refine congrArg Nat.cast (Tally.tally_zero.mpr ?_)
      intro i below
      rcases still i below with shape | shape | shape
      · exact absurd ⟨i,below,shape⟩ waiting
      · exact absurd shape (unready i below)
      · simp [uncounted,shape]
    exact unexpected .conclude ⟨all,undecided⟩

end Run

-- The current run of a graph, in every state of it; `b` is the block behind `done`.
structure RunLaw (w : World d) (g : d.GraphId) (b : BlockId) : Prop where
  -- every node is triggered and completed at most once, through one cycle of its block
  once : ∀ i, (w.runs g).launches.count i ≤ 1 ∧ (w.runs g).completions.count i ≤ 1
  cycles : ∀ i, i < (d.graph g).size → Lifecycle w.base (d.block g i)
  -- and not before its predecessors have completed
  behind : ∀ i j, (d.graph g).edge i j = true →
    j ∈ (w.runs g).launches ∨ (w.base.progress (d.block g j)).status ≠ .armed →
    i ∈ (w.runs g).completions ∧ (w.base.progress (d.block g i)).status = .retired ∧
      (w.base.blocks (d.block g i)).completed = true
  deps : ∀ j, j < (d.graph g).size → 0 ≤ (w.runs g).remainingDeps j
  nodes : 0 ≤ (w.runs g).remainingNodes
  -- a completed node, its body skipped or not, has left its pipes
  released : ∀ i ∈ (w.runs g).completions, ∀ p k m, ⟨.link (d.block g i) k,m⟩ ∉ (w.base.pipes p).held ∧
    ⟨.link (d.block g i) k,m⟩ ∉ (w.base.pipes p).pipe.queue
  -- and once the predecessors of a node are through, it is let go
  triggered : ∀ j, j < (d.graph g).size → (∀ i, (d.graph g).edge i j = true → (w.runs g).stage i = .counted) →
    (w.runs g).remainingDeps j = 0
  -- the handle settles once, after every node, as the token read then
  handle : (w.base.progress b).settles ≤ 1 ∧ ((w.base.blocks b).completed = true ↔ (w.base.progress b).settles = 1)
  settled : (w.base.blocks b).completed = true → (w.runs g).verdict = some (w.base.blocks b).cancelled
  told : ∀ cancel, (w.runs g).verdict = some cancel →
    (.own b (.complete cancel) ∈ w.base.pending ∨
      (w.base.blocks b).completed = true ∧ (w.base.blocks b).cancelled = cancel) ∧
    (d.graph g).Linearization (w.runs g).completions ∧
    ∀ i, i < (d.graph g).size → (w.runs g).launches.count i = 1 ∧ (w.runs g).completions.count i = 1 ∧
      (w.base.progress (d.block g i)).startedBy.length = 1 ∧ (w.base.progress (d.block g i)).settles = 1
  -- nothing is lost on the way
  moves : (w.runs g).verdict ≠ none ∨ (w.runs g).tails ≠ [] ∨
    ∃ i, i < (d.graph g).size ∧ (w.base.progress (d.block g i)).status ≠ .armed ∧
      (w.base.progress (d.block g i)).status.resting = false

namespace World

variable {d : Deployment} {w : World d}

theorem Live.lifecycle (live : w.Live g b) (base : Machines.Reached system w.base) (within : i < (d.graph g).size) :
    Lifecycle w.base (d.block g i) := by
  refine reached_lifecycle base _ ?_
  rw [(live.nodes i within).kind]
  simp

theorem Live.completed (live : w.Live g b) (ended : i ∈ (w.runs g).completions) :
    i < (d.graph g).size ∧ (w.base.progress (d.block g i)).status = .retired := by
  obtain ⟨within,completed⟩ := (live.books.ended i).mp ended
  refine ⟨within,?_⟩
  have shown := (live.nodes i within).status
  cases shape : (w.runs g).stage i <;> simp_all [Stage.completed,Stage.shows]

theorem Live.law (live : w.Live g b) (base : Machines.Reached system w.base) : RunLaw w g b := by
  have acc := reached_accounts base
  have books := live.books
  have settles : (w.base.progress b).settles = if (w.base.progress b).status.settled (w.base.blocks b).kind = true then 1
      else 0 := (acc.blocks b).cycle.settles
  have cycle : (w.base.blocks b).completed = (w.base.progress b).status.settled (w.base.blocks b).kind :=
    (acc.blocks b).cycle.completed
  have counts : ∀ i, i ∈ (w.runs g).completions → (w.runs g).completions.count i = 1 :=
    fun i member => List.count_eq_one_of_mem books.begun.distinct member
  refine ⟨?_,fun i within => live.lifecycle base within,?_,?_,?_,?_,?_,?_,?_,?_,?_⟩
  · intro i
    refine ⟨?_,List.nodup_iff_count_le_one.mp books.begun.distinct i⟩
    rw [books.launched i]
    split <;> omega
  · intro i j arc dispatched
    have within := ((d.graph g).edge_inner arc).2
    have passed : (w.runs g).stage j ≠ .blocked := by
      intro blocked
      rcases dispatched with launched | started
      · have counted := books.launched j
        rw [blocked,if_neg (by simp [Stage.started,Stage.completed])] at counted
        exact List.count_eq_zero.mp counted launched
      · have shown := (live.nodes j within).status
        rw [blocked] at shown
        exact started shown
    have ended := Run.behind books within passed arc
    obtain ⟨below,retired⟩ := live.completed ended
    refine ⟨ended,retired,?_⟩
    have settled : (w.base.blocks (d.block g i)).completed = (w.base.progress (d.block g i)).status.settled
        (w.base.blocks (d.block g i)).kind := (acc.blocks (d.block g i)).cycle.completed
    rw [settled,retired]
    rfl
  · intro j within
    rw [books.deps j within]
    exact Int.natCast_nonneg _
  · rw [books.nodes]
    exact Int.natCast_nonneg _
  · intro i ended p k m
    obtain ⟨_,retired⟩ := live.completed ended
    refine ⟨?_,?_⟩
    · rw [State.holding_iff acc,retired]
      simp [Status.holds]
    · rw [State.waiting_iff acc,retired]
      simp
  · intro j within through
    rw [books.deps j within]
    refine congrArg Nat.cast (Tally.tally_zero.mpr ?_)
    intro i below
    by_cases arc : (d.graph g).edge i j = true
    · simp [owes,through i arc]
    · cases shape : (w.runs g).stage i with
      | lowering left ready =>
        have unlisted : j ∉ left := fun member => arc ((books.lowering i left ready below shape).2 j member)
        simp [owes,unlisted]
      | _ => simp [owes,arc]
  · rw [settles,cycle]
    split <;> simp_all
  · intro completed
    cases decided : (w.runs g).verdict with
    | none =>
      obtain ⟨armed,_⟩ := live.handle.waiting decided
      rw [cycle,armed] at completed
      cases completed
    | some cancel =>
      obtain ⟨_,finishing | outcome⟩ := live.handle.told cancel decided
      · rw [cycle,finishing] at completed
        cases completed
      · rw [show (w.base.blocks b).cancelled = cancel from congrArg Prod.snd outcome]
  · intro cancel decided
    have some_decided : (w.runs g).verdict ≠ none := by simp [decided]
    have counted : ∀ i, i < (d.graph g).size → (w.runs g).stage i = .counted :=
      fun i within => Run.finished (c := d.graphs g) books some_decided within
    have ended : ∀ i, i < (d.graph g).size → i ∈ (w.runs g).completions :=
      fun i within => (books.ended i).mpr ⟨within,by rw [counted i within]; rfl⟩
    refine ⟨?_,?_,?_⟩
    · obtain ⟨_,finishing | outcome⟩ := live.handle.told cancel decided
      · exact .inl (State.expected_pending acc (by rw [finishing]; rfl) rfl)
      · exact .inr ⟨congrArg Prod.fst outcome,congrArg Prod.snd outcome⟩
    · refine (d.graph g).linearization_iff.mpr (Kahn.begun_all.mp ⟨books.begun,?_⟩)
      have all : (w.runs g).completions.Perm (List.range (d.graph g).size) := by
        refine (List.perm_ext_iff_of_nodup books.begun.distinct List.nodup_range).mpr ?_
        intro i
        rw [List.mem_range]
        exact ⟨books.begun.bounded i,ended i⟩
      simpa using all.length_eq
    · intro i within
      have whole := (live.lifecycle base within).whole (live.completed (ended i within)).2
      refine ⟨?_,counts i (ended i within),whole.1,whole.2.1⟩
      rw [books.launched i,counted i within]
      simp [within,Stage.started,Stage.completed]
  · rcases Run.moves (c := d.graphs g) books with decided | pending | ⟨i,within,launched⟩
    · exact .inl decided
    · exact .inr (.inl pending)
    · have shown := (live.nodes i within).status
      rw [launched] at shown
      exact .inr (.inr ⟨i,within,shown⟩)

-- The handle is told how to settle by the last node's `node_complete` alone,
-- and told what the token reads there; an empty graph has no node to do it.
theorem verdict_read (w : World d) (a : WorldAction d) (g : d.GraphId) (undecided : (w.runs g).verdict = none)
    (decided : ((w.apply a).runs g).verdict = some cancel) :
    (a = .tail g .conclude ∧ cancel = w.cancelRequested g) ∨
      (∃ done token lent parent, a = .execute g done token lent parent) ∧ (d.graph g).size = 0 ∧ cancel = false := by
  have other : ∀ (h : d.GraphId) (run : Run) (base : State), (h = g → run.verdict ≠ some cancel) →
      ((w.setRun h run base).runs g).verdict ≠ some cancel := by
    intro h run base unread
    by_cases here : h = g
    · subst here
      rw [setRun_own]
      exact unread rfl
    · rw [setRun_other w run base (Ne.symm here),undecided]
      simp
  cases a with
  | base a => exact absurd (undecided.symm.trans decided) (by simp)
  | execute h done token lent parent =>
    right
    by_cases here : h = g
    · subst here
      have read : (Run.rearm (d.graph h) token done).verdict = some cancel := by
        rw [← decided]
        exact congrArg Run.verdict (setRun_own ..).symm
      have shape : (if (d.graph h).size = 0 then some false else none) = some cancel := read
      split at shape
      · rename_i empty
        exact ⟨⟨done,token,lent,parent,rfl⟩,empty,(Option.some.inj shape).symm⟩
      · cases shape
    · exact absurd decided (other h _ _ (fun same => absurd same here))
  | nodeComplete h i =>
    refine absurd decided (other h _ _ ?_)
    rintro rfl read
    exact absurd (undecided.symm.trans read) (by simp)
  | tail h t =>
    by_cases here : h = g
    · subst here
      have read : ((w.runs h).resume (w.cancelRequested h) t).verdict = some cancel := by
        rw [← decided]
        exact congrArg Run.verdict (setRun_own ..).symm
      have silent : ∀ cancel', (w.runs h).verdict ≠ some cancel' := by simp [undecided]
      cases t with
      | conclude => exact .inl ⟨rfl,(Option.some.inj read).symm⟩
      | kick roots => cases roots <;> exact absurd read (silent cancel)
      | lower i left ready => cases left <;> exact absurd read (silent cancel)
      | fire i ready => cases ready <;> exact absurd read (silent cancel)
    · exact absurd decided (other h _ _ (fun same => absurd same here))

end World

-- Every run of every graph goes once through every node, in every interleaving
-- and under cancellation at any moment, and settles its handle once.
theorem graph_runs_once {w : World d} (path : Machines.Reached (graphSystem d) w) (g : d.GraphId)
    (running : (w.runs g).done = some b) :
    RunLaw w g b ∧
    ∀ a cancel, (w.runs g).verdict = none → ((w.apply a).runs g).verdict = some cancel →
      (a = .tail g .conclude ∧ cancel = w.cancelRequested g) ∨
        (∃ done token lent parent, a = .execute g done token lent parent) ∧ (d.graph g).size = 0 ∧ cancel = false := by
  have sound := reached_sound path
  refine ⟨?_,fun a cancel => World.verdict_read w a g⟩
  rcases sound.graphs g with fresh | ⟨c,live⟩
  · rw [fresh.unused] at running
    cases running
  · have same : c = b := Option.some.inj (live.done.symm.trans running)
    subst same
    exact live.law sound.base

-- Two nodes, the second object-free, in a declared order.
def pairGraph : Graph where
  nodes := [⟨[⟨0,.readWrite⟩],by decide,by decide⟩,⟨[],by decide,by decide⟩]
  explicitEdges := [(0,1)]

def pairDeployment : Deployment where
  count := 1
  graphs _ := ⟨pairGraph,by decide⟩
  block _ i := 10+i
  distinct := by
    intro g h i j _ _ same
    exact ⟨Subsingleton.elim g h,Nat.add_left_cancel same⟩

def pairId : pairDeployment.GraphId := ⟨0,by decide⟩

-- One run of it, cancelled while the first body runs.
def pairRun : List (WorldAction pairDeployment) :=
  [.execute pairId 5 (some 0) [] none,.tail pairId (.kick [0]),.base (.resume (.own 10 (.fireTurn 0))),
    .base (.resume (.own 10 .turnRelease)),.base (.resume (.own 10 .execute)),.base (.requestCancel 0),
    .base (.bodyEnd 10),.base (.resume (.own 10 (.complete false))),.base (.resume (.own 10 (.advance 0 false))),
    .base (.resume (.own 10 (.advance 1 false))),.nodeComplete pairId 0,.tail pairId (.lower 0 [1] []),.tail pairId (.lower 0 [] [1]),
    .tail pairId (.fire 0 [1]),.base (.resume (.own 11 .execute)),.tail pairId (.fire 0 []),
    .base (.resume (.own 11 (.complete true))),.base (.resume (.own 11 (.advance 0 true))),.nodeComplete pairId 1,
    .tail pairId (.lower 1 [] []),.tail pairId (.fire 1 []),.tail pairId .conclude,.base (.resume (.own 5 (.complete true)))]

theorem graph_runs_once_cancelled :
    let w := (graphSystem pairDeployment).follow {} pairRun
    (w.base.blocks 5).cancelled = true ∧ (w.base.progress 11).foundCancelled = true ∧ (w.runs pairId).completions = [0,1] ∧
    RunLaw w pairId 5 :=
  ⟨by decide,by decide,by decide,(graph_runs_once (Machines.reached_follow (.start rfl) (by decide)) pairId (by decide)).1⟩

end Macrame

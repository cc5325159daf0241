import Macrame.Graph

namespace Macrame
namespace Node

def declares (node : Node) (p : PipeId) : Bool := node.access.any (·.pipe == p)

def writes (node : Node) (p : PipeId) : Bool := node.access.any (fun link => link.pipe == p && link.mode == .readWrite)

theorem writes_declares {node : Node} (written : node.writes p = true) : node.declares p = true := by
  simp only [writes,declares,List.any_eq_true,Bool.and_eq_true] at written ⊢
  obtain ⟨link,member,same,_⟩ := written
  exact ⟨link,member,same⟩

end Node

theorem conflicts_symm (a b : Node) : conflicts a b = conflicts b a := by
  have half : ∀ a b : Node, conflicts a b = true → conflicts b a = true := by
    intro a b conflicting
    simp only [conflicts,List.any_eq_true,Bool.and_eq_true,Bool.or_eq_true,beq_iff_eq] at conflicting ⊢
    obtain ⟨one,left,two,right,same,mode⟩ := conflicting
    exact ⟨two,right,one,left,same.symm,mode.symm⟩
  exact Bool.eq_iff_iff.mpr ⟨half a b,half b a⟩

-- Nodes that do not conflict keep off each other's writes.
theorem unconflicted (apart : conflicts a b = false) (written : a.writes p = true) : b.declares p = false := by
  by_contra declared
  simp only [Node.declares,Node.writes,Bool.not_eq_false,List.any_eq_true,Bool.and_eq_true,beq_iff_eq] at declared written
  obtain ⟨one,left,here,mode⟩ := written
  obtain ⟨two,right,there⟩ := declared
  have conflicting : conflicts a b = true := by
    simp only [conflicts,List.any_eq_true,Bool.and_eq_true,Bool.or_eq_true,beq_iff_eq]
    exact ⟨one,left,two,right,by rw [here,there],.inl mode⟩
  rw [apart] at conflicting
  cases conflicting

abbrev Memory (Value : PipeId → Type) := (p : PipeId) → Value p

-- A node body: a function of the objects that reads only what its node
-- declares and changes only what it declares read_write.
structure Body (Value : PipeId → Type) (node : Node) where
  run : Memory Value → Memory Value
  frame : ∀ m p, node.writes p = false → run m p = m p
  reads : ∀ m n, (∀ p, node.declares p = true → m p = n p) → ∀ p, node.writes p = true → run m p = run n p

namespace Body

variable {Value : PipeId → Type} {a b : Node}

def view (node : Node) (m : Memory Value) (p : PipeId) : Option (Value p) := if node.declares p then some (m p) else none

-- What an unconflicted neighbour declares is as it was.
theorem undisturbed (one : Body Value a) (apart : conflicts a b = false) (m : Memory Value) (declared : b.declares p = true) :
    one.run m p = m p := by
  refine one.frame m p ?_
  by_contra written
  rw [unconflicted apart (by simpa using written)] at declared
  cases declared

theorem view_undisturbed (one : Body Value a) (apart : conflicts a b = false) (m : Memory Value) :
    view b (one.run m) = view b m := by
  funext p
  unfold view
  split
  · rename_i declared
    rw [one.undisturbed apart m declared]
  · rfl

theorem run_comm (one : Body Value a) (two : Body Value b) (apart : conflicts a b = false) (m : Memory Value) :
    two.run (one.run m) = one.run (two.run m) := by
  have mirrored : conflicts b a = false := by rw [conflicts_symm]; exact apart
  funext p
  by_cases left : a.writes p = true
  · have foreign := unconflicted apart left
    have unwritten : b.writes p = false := by
      by_contra written
      rw [Node.writes_declares (by simpa using written)] at foreign
      cases foreign
    rw [two.frame _ p unwritten]
    exact one.reads _ _ (fun q declared => (two.undisturbed mirrored m declared).symm) p left
  · by_cases right : b.writes p = true
    · rw [one.frame _ p (by simpa using left)]
      exact two.reads _ _ (fun q declared => one.undisturbed apart m declared) p right
    · rw [one.frame _ p (by simpa using left),two.frame _ p (by simpa using right),
        one.frame _ p (by simpa using left),two.frame _ p (by simpa using right)]

end Body

namespace Graph

variable {Value : PipeId → Type}

abbrev Bodies (g : Graph) (Value : PipeId → Type) := (i : Fin g.nodes.length) → Body Value (g.nodes.get i)

-- The objects, and what each body was given so far.
structure Outcome (Value : PipeId → Type) where
  memory : Memory Value
  inputs : Nat → Option (Memory (fun p => Option (Value p))) := fun _ => none

def runNode (g : Graph) (bodies : g.Bodies Value) (o : Outcome Value) (i : Nat) : Outcome Value :=
  if within : i < g.nodes.length then
    ⟨(bodies ⟨i,within⟩).run o.memory,
      Function.update o.inputs i (some (Body.view (g.nodes.get ⟨i,within⟩) o.memory))⟩
  else o

def runAll (g : Graph) (bodies : g.Bodies Value) (order : List Nat) (m : Memory Value) : Outcome Value :=
  order.foldl (g.runNode bodies) {memory := m}

-- `compile` has ordered every pair of nodes that conflict.
theorem unordered_apart (g : Graph) (i j : Fin g.nodes.length) (distinct : i ≠ j) (forth : ¬ g.edge i j = true)
    (back : ¬ g.edge j i = true) : conflicts (g.nodes.get i) (g.nodes.get j) = false := by
  by_contra conflicting
  rw [Bool.not_eq_false] at conflicting
  rcases Nat.lt_or_gt_of_ne (fun same => distinct (Fin.ext same)) with before | after
  · exact forth (by simp [edge,before]; right; simpa using conflicting)
  · rw [conflicts_symm] at conflicting
    exact back (by simp [edge,after]; right; simpa using conflicting)

theorem runNode_comm (g : Graph) (bodies : g.Bodies Value) (i j : Nat) (distinct : i ≠ j) (forth : ¬ g.edge i j = true)
    (back : ¬ g.edge j i = true) (o : Outcome Value) :
    g.runNode bodies (g.runNode bodies o i) j = g.runNode bodies (g.runNode bodies o j) i := by
  unfold runNode
  by_cases first : i < g.nodes.length
  · by_cases second : j < g.nodes.length
    · have apart := g.unordered_apart ⟨i,first⟩ ⟨j,second⟩ (by simpa using distinct) forth back
      have mirrored : conflicts (g.nodes.get ⟨j,second⟩) (g.nodes.get ⟨i,first⟩) = false := by
        rw [conflicts_symm]; exact apart
      simp only [first,second,dif_pos,Outcome.mk.injEq]
      refine ⟨Body.run_comm _ _ apart _,?_⟩
      rw [Body.view_undisturbed _ apart,Body.view_undisturbed _ mirrored,Function.update_comm distinct]
    · simp [first,second]
  · simp [first]

-- The orders in which `remaining_deps` lets bodies run: a node whose count is
-- zero may go, and counts down its successors.
def countDown (deps : Nat → Int) (targets : List Nat) : Nat → Int :=
  targets.foldl (fun deps s => Function.update deps s (deps s-1)) deps

inductive Counted (g : Graph) : List Nat → (Nat → Int) → Prop where
  | none : Counted g [] (fun j => g.indegree j)
  | next : Counted g done deps → i < g.size → i ∉ done → deps i = 0 →
      Counted g (done++[i]) (countDown deps (g.successors i))

def Linearization (g : Graph) (order : List Nat) : Prop := (∃ deps, Counted g order deps) ∧ order.length = g.size

theorem countDown_eq (deps : Nat → Int) (targets : List Nat) (distinct : targets.Nodup) (s : Nat) :
    countDown deps targets s = deps s-if s ∈ targets then 1 else 0 := by
  induction targets generalizing deps with
  | nil => simp [countDown]
  | cons t rest ih =>
    obtain ⟨fresh,distinct⟩ := List.nodup_cons.mp distinct
    have unfolded : countDown deps (t :: rest) = countDown (Function.update deps t (deps t-1)) rest := rfl
    rw [unfolded,ih _ distinct]
    by_cases here : s = t
    · subst here; simp [fresh]
    · simp [here]

def openCount (g : Graph) (done : List Nat) (s : Nat) : Int := (Kahn.openBefore g.size g.edge done s).card

theorem indegree_open (g : Graph) : (fun j => (g.indegree j : Int)) = g.openCount [] := by
  funext j
  by_cases within : j < g.size
  · rw [g.indegree_eq j within]; rfl
  · have none_into : g.indegree j = 0 := by
      refine List.countP_eq_zero.mpr ?_
      simp only [edges,List.mem_flatMap,List.mem_map,List.mem_filter,List.mem_range,beq_iff_eq]
      rintro e ⟨i,_,k,⟨inside,_⟩,rfl⟩ same
      exact within (by rw [← same]; exact inside)
    have none_open : Kahn.openBefore g.size g.edge [] j = ∅ := by
      refine Finset.filter_eq_empty_iff.mpr ?_
      rintro i _ ⟨arc,_⟩
      exact within (g.edge_inner arc).2
    simp [none_into,openCount,none_open]

theorem openCount_next (g : Graph) (fresh : i ∉ done) (within : i < g.size) :
    countDown (g.openCount done) (g.successors i) = g.openCount (done++[i]) := by
  funext s
  have once : (Kahn.successors g.size g.edge i).Nodup := List.nodup_range.filter _
  rw [g.successors_eq,countDown_eq _ _ once]
  unfold openCount
  rw [Kahn.openBefore_visit fresh within]
  have listed : s ∈ Kahn.successors g.size g.edge i ↔ g.edge i s = true := by
    simp only [Kahn.successors,List.mem_filter,List.mem_range,and_iff_right_iff_imp]
    exact fun arc => (g.edge_inner arc).2
  simp [listed]

-- What the counters let through is what the edges allow.
theorem counted_iff (g : Graph) : Counted g done deps ↔ Kahn.Begun g.size g.edge done ∧ deps = g.openCount done := by
  constructor
  · intro counted
    induction counted with
    | none => exact ⟨⟨.nil,by simp,.nil,by simp,by simp⟩,g.indegree_open⟩
    | next _ within fresh zero ih =>
      obtain ⟨begun,rfl⟩ := ih
      refine ⟨Kahn.begun_next.mpr ⟨begun,within,fresh,?_⟩,g.openCount_next fresh within⟩
      unfold openCount at zero
      exact Finset.card_eq_zero.mp (by exact_mod_cast zero)
  · rintro ⟨begun,rfl⟩
    induction done using List.reverseRecOn with
    | nil => rw [← g.indegree_open]; exact .none
    | append_singleton done v ih =>
      obtain ⟨begun,within,fresh,free⟩ := Kahn.begun_next.mp begun
      rw [← g.openCount_next fresh within]
      exact .next (ih begun) within fresh (by simp [openCount,free])

theorem linearization_iff (g : Graph) : g.Linearization order ↔ Kahn.Topological g.size g.edge order := by
  unfold Linearization
  rw [← Kahn.begun_all]
  simp [g.counted_iff]

end Graph

-- A run of a compiled graph leaves the objects as any other run does, and gives
-- every body what any other run gives it; there is a run.
theorem graph_deterministic {Value : PipeId → Type} (c : Compiled) (bodies : c.graph.Bodies Value) (m : Memory Value) :
    (∃ order, c.graph.Linearization order) ∧
    (∀ order, c.graph.Linearization order ↔ Kahn.Topological c.graph.size c.graph.edge order) ∧
    ∀ one two, c.graph.Linearization one → c.graph.Linearization two →
      c.graph.runAll bodies one m = c.graph.runAll bodies two m := by
  obtain ⟨order,topological⟩ := c.graph.detectCycles_iff.mp c.acyclic
  refine ⟨⟨order,c.graph.linearization_iff.mpr topological⟩,fun _ => c.graph.linearization_iff,?_⟩
  intro one two first second
  have left := c.graph.linearization_iff.mp first
  have right := c.graph.linearization_iff.mp second
  exact Commutation.foldl_orders _ (fun a b => c.graph.edge a b = true) (c.graph.runNode_comm bodies)
    (left.all.trans right.all.symm) (left.all.nodup_iff.mpr List.nodup_range) left.ordered right.ordered _

-- A body that gives each object its node writes a value computed from what the
-- node declares.
def Body.computing (node : Node) (f : Memory (fun _ => Int) → PipeId → Int) : Body (fun _ => Int) node where
  run m p := if node.writes p then f (fun q => if node.declares q then m q else 0) p else m p
  frame m p foreign := by simp [foreign]
  reads m n same p written := by
    have seen : (fun q => if node.declares q then m q else 0) = fun q => if node.declares q then n q else 0 := by
      funext q
      split
      · exact same q ‹_›
      · rfl
    simp only [written,if_true]
    rw [seen]

-- Two nodes between a first and a last one, with no edge between the two.
def diamond : Compiled where
  graph := {nodes := [⟨[⟨4,.readWrite⟩],by decide,by decide⟩,⟨[⟨4,.readOnly⟩,⟨5,.readWrite⟩],by decide,by decide⟩,
    ⟨[⟨4,.readOnly⟩,⟨6,.readWrite⟩],by decide,by decide⟩,⟨[⟨5,.readOnly⟩,⟨6,.readOnly⟩,⟨7,.readWrite⟩],by decide,by decide⟩]}
  acyclic := by decide

-- The first stores 5, the two its successor and its double, the last their product.
def diamondBodies : diamond.graph.Bodies (fun _ => Int) := fun _ =>
  Body.computing _ fun m p => match p with
    | 4 => 5
    | 5 => m 4+1
    | 6 => 2*m 4
    | _ => m 5*m 6

theorem graph_deterministic_diamond :
    let one := diamond.graph.runAll diamondBodies [0,1,2,3] (fun _ => 0)
    let two := diamond.graph.runAll diamondBodies [0,2,1,3] (fun _ => 0)
    diamond.graph.Linearization [0,1,2,3] ∧ diamond.graph.Linearization [0,2,1,3] ∧ one.memory 7 = 60 ∧ two = one := by
  obtain ⟨-,linear,same⟩ := graph_deterministic diamond diamondBodies (fun _ => 0)
  have first : diamond.graph.Linearization [0,1,2,3] := (linear _).mpr
    ⟨by decide,(by decide : List.Pairwise (fun a b => ¬ diamond.graph.edge b a = true) [0,1,2,3]),by decide⟩
  have second : diamond.graph.Linearization [0,2,1,3] := (linear _).mpr
    ⟨by decide,(by decide : List.Pairwise (fun a b => ¬ diamond.graph.edge b a = true) [0,2,1,3]),by decide⟩
  exact ⟨first,second,by decide,same _ _ second first⟩

end Macrame

import Macrame.Lib.Kahn
import Macrame.TaskBlock

namespace Macrame

-- A node as `add_node` records it: the instances it declares, each once, with
-- their modes. The instance stands under the name of its pipe.
structure Node where
  access : List Link
  distinct : (access.map Link.pipe).Nodup
  counted : access.length ≤ 255
  deriving Repr

instance : DecidableEq Node := fun a b => decidable_of_iff (a.access = b.access) (by cases a; cases b; simp)

-- A graph under construction. Edges are declared through node handles, so
-- both ends are nodes of it.
structure Graph where
  nodes : List Node := []
  explicitEdges : List (Nat × Nat) := []
  inner : ∀ e ∈ explicitEdges, e.1 < nodes.length ∧ e.2 < nodes.length := by simp

namespace Graph

def size (g : Graph) : Nat := g.nodes.length

-- A repeated object is fatal.
def addNode (g : Graph) (access : List Link) : Option Graph :=
  if declared : (access.map Link.pipe).Nodup ∧ access.length ≤ 255 then
    some {g with
      nodes := g.nodes++[⟨access,declared.1,declared.2⟩]
      inner := fun e member => by
        have within := g.inner e member
        simp only [List.length_append,List.length_singleton]
        omega}
  else none

def addEdge (g : Graph) (prerequisite successor : Fin g.nodes.length) : Graph :=
  {g with
    explicitEdges := g.explicitEdges++[(prerequisite.val,successor.val)]
    inner := fun e member => by
      rcases List.mem_append.mp member with earlier | new
      · exact g.inner e earlier
      · rw [List.mem_singleton.mp new]; exact ⟨prerequisite.isLt,successor.isLt⟩}

end Graph

-- Two nodes conflict if they touch a common instance and at least one wants write.
def conflicts (a b : Node) : Bool :=
  a.access.any (fun one => b.access.any (fun two =>
    one.pipe == two.pipe && (one.mode == .readWrite || two.mode == .readWrite)))

namespace Graph

-- The edge set of `compile`: the explicit edges, and every conflicting pair in
-- the order of declaration.
def edge (g : Graph) (i j : Nat) : Bool :=
  g.explicitEdges.contains (i,j) || (decide (i < j) && match g.nodes[i]?,g.nodes[j]? with
    | some a,some b => conflicts a b
    | _,_ => false)

-- The set in its iteration order.
def edges (g : Graph) : List (Nat × Nat) :=
  (List.range g.size).flatMap (fun i => ((List.range g.size).filter (g.edge i)).map (i,·))

def successors (g : Graph) (i : Nat) : List Nat := (g.edges.filter (·.1 == i)).map (·.2)

def indegree (g : Graph) (j : Nat) : Nat := g.edges.countP (·.2 == j)

def detectCycles (g : Graph) : Bool :=
  (Kahn.loop g.successors g.size (Kahn.begin g.size (fun j => (g.indegree j : Int)))).visited.length != g.size

-- The pipes a graph touches, in canonical order, and the strongest mode any node
-- uses on one.
def distinctPipes (g : Graph) : List PipeId :=
  (g.nodes.flatMap (fun node => node.access.map Link.pipe)).dedup.insertionSort (· ≤ ·)

def pipeMode (g : Graph) (p : PipeId) : Access :=
  if g.nodes.any (fun node => node.access.any (fun link => link.pipe == p && link.mode == .readWrite)) then .readWrite
  else .readOnly

-- The links `compile` binds for node `i`.
def nodeLinks (g : Graph) (i : Nat) : LinkTable :=
  match g.nodes[i]? with
  | none => .empty
  | some node => .sorted node.access node.distinct node.counted

theorem edge_inner (g : Graph) (arc : g.edge i j = true) : i < g.size ∧ j < g.size := by
  simp only [edge,Bool.or_eq_true,List.contains_iff_mem,Bool.and_eq_true] at arc
  rcases arc with explicit | ⟨_,conflicting⟩
  · exact g.inner (i,j) explicit
  · cases one : g.nodes[i]? with
    | none => simp [one] at conflicting
    | some a =>
      cases two : g.nodes[j]? with
      | none => simp [one,two] at conflicting
      | some b => exact ⟨(List.getElem?_eq_some_iff.mp one).1,(List.getElem?_eq_some_iff.mp two).1⟩

theorem edges_from (g : Graph) (i rows : Nat) :
    (((List.range rows).flatMap (fun k => ((List.range g.size).filter (g.edge k)).map (k,·))).filter (·.1 == i)).map (·.2) =
      if i < rows then (List.range g.size).filter (g.edge i) else [] := by
  induction rows with
  | zero => simp
  | succ rows ih =>
    rw [List.range_succ,List.flatMap_append,List.filter_append,List.map_append,ih]
    simp only [List.flatMap_singleton,List.filter_map,List.map_map]
    by_cases here : rows = i
    · subst here
      have all : ((fun e : Nat × Nat => e.1 == rows) ∘ fun j => (rows,j)) = fun _ => true := by funext j; simp
      simp [all,Function.comp_def]
    · have none_here : ((fun e : Nat × Nat => e.1 == i) ∘ fun j => (rows,j)) = fun _ => false := by funext j; simp [here]
      have bound : i < rows+1 ↔ i < rows := by omega
      simp [none_here,bound]

theorem successors_eq (g : Graph) : g.successors = Kahn.successors g.size g.edge := by
  funext i
  unfold successors edges Kahn.successors
  rw [edges_from]
  split
  · rfl
  · rename_i outside
    refine (List.filter_eq_nil_iff.mpr ?_).symm
    intro j _ arc
    exact outside (g.edge_inner arc).1

theorem edges_into (g : Graph) (j rows : Nat) (within : j < g.size) :
    ((List.range rows).flatMap (fun k => ((List.range g.size).filter (g.edge k)).map (k,·))).countP (·.2 == j) =
      ((Finset.range rows).filter (fun i => g.edge i j = true)).card := by
  induction rows with
  | zero => simp
  | succ rows ih =>
    rw [List.range_succ,List.flatMap_append,List.countP_append,ih,Finset.range_add_one,Finset.filter_insert]
    have outside : rows ∉ (Finset.range rows).filter (fun i => g.edge i j = true) := by simp
    have row : (((List.range g.size).filter (g.edge rows)).map (rows,·)).countP (·.2 == j) =
        if g.edge rows j = true then 1 else 0 := by
      have listed : ((List.range g.size).filter (g.edge rows)).count j = if g.edge rows j = true then 1 else 0 := by
        rw [(List.nodup_range.filter _).count]
        simp [within]
      rw [List.countP_map,← listed,List.count]
      rfl
    rw [List.flatMap_singleton,row]
    split
    · rw [Finset.card_insert_of_notMem outside]
    · rfl

theorem indegree_eq (g : Graph) (j : Nat) (within : j < g.size) :
    g.indegree j = (Kahn.openBefore g.size g.edge [] j).card := by
  unfold indegree edges
  rw [edges_into g j g.size within]
  simp [Kahn.openBefore]

end Graph

-- What `compile` accepts: a graph without a cycle.
structure Compiled where
  graph : Graph
  acyclic : graph.detectCycles = false

namespace Compiled

def compile (g : Graph) : Option Compiled := if acyclic : g.detectCycles = false then some ⟨g,acyclic⟩ else none

end Compiled

namespace Graph

theorem detect_sound (g : Graph) : Kahn.Sound g.size g.edge
    (Kahn.loop g.successors g.size (Kahn.begin g.size (fun j => (g.indegree j : Int)))) := by
  rw [g.successors_eq]
  refine Kahn.loop_sound (Kahn.begin_sound ?_) _
  intro j within
  rw [g.indegree_eq j within]

-- The cycle check accepts exactly the graphs that have an order along their edges.
theorem detectCycles_iff (g : Graph) : g.detectCycles = false ↔ ∃ order, Kahn.Topological g.size g.edge order := by
  unfold detectCycles
  rw [bne_eq_false_iff_eq]
  refine ⟨fun all => ⟨_,Kahn.begun_all.mp ⟨g.detect_sound.begun,all⟩⟩,?_⟩
  rintro ⟨order,topological⟩
  refine g.detect_sound.complete ?_ topological
  have started : Kahn.Sound g.size g.edge (Kahn.begin g.size (fun j => (g.indegree j : Int))) :=
    Kahn.begin_sound (fun j within => by rw [g.indegree_eq j within])
  rw [g.successors_eq]
  exact Kahn.loop_done started (Nat.le_add_left _ _)

end Graph
end Macrame

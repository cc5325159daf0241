import Mathlib.Data.Prod.Lex
import Macrame.Graph
import Macrame.Lib.SortedSet

namespace Macrame

-- What `compile` fills in, by node, and the pipes that are numbered for it.
structure Tables where
  successors : Nat → List Nat := fun _ => []
  indegree : Nat → Nat := fun _ => 0
  distinctPipes : List PipeId := []
  pipeModes : Nat → Access := fun _ => .readOnly
  nodeIndices : Nat → List Nat := fun _ => []
  nodeModes : Nat → List Access := fun _ => []

-- `detect_cycles` over the tables: the loop empties its queue, which no node
-- enters twice, so a turn for every node is enough.
def Tables.cyclic (t : Tables) (n : Nat) : Bool :=
  (Kahn.loop t.successors n (Kahn.begin n (fun j => (t.indegree j : Int)))).visited.length != n

namespace Graph

-- Pairs `i < j` of conflicting nodes, in the order of the two loops.
def conflictPairs (g : Graph) : List (Nat × Nat) :=
  (List.range g.size).flatMap (fun i =>
    ((List.range' (i+1) (g.size-(i+1))).filter (fun j => match g.nodes[i]?,g.nodes[j]? with
      | some a,some b => conflicts a b
      | _,_ => false)).map (i,·))

-- `std::set<std::pair<int, int>>`: both sources, each edge once.
def edgeSet (g : Graph) : List (Nat × Nat) :=
  SortedSet.collect toLex g.conflictPairs (SortedSet.collect toLex g.explicitEdges [])

-- One turn of the loop over the set.
def addSuccessor (t : Tables) (e : Nat × Nat) : Tables :=
  {t with
    successors := Function.update t.successors e.1 (t.successors e.1++[e.2])
    indegree := Function.update t.indegree e.2 (t.indegree e.2+1)}

def pipeSet (g : Graph) : List PipeId :=
  SortedSet.collect id (g.nodes.flatMap (fun node => node.access.map Link.pipe)) []

-- One declared access, for the strongest mode on its pipe.
def strengthen (t : Tables) (link : Link) : Tables :=
  if link.mode = .readWrite then
    {t with pipeModes := Function.update t.pipeModes (t.distinctPipes.idxOf link.pipe) .readWrite}
  else t

-- `mode_by_pipe`, a map from the index of a pipe to the mode.
def modeByPipe (pipes : List PipeId) (node : Node) : List (Nat × Access) :=
  SortedSet.collect Prod.fst (node.access.map (fun link => (pipes.idxOf link.pipe,link.mode))) []

def nodeTable (t : Tables) (entry : Node × Nat) : Tables :=
  {t with
    nodeIndices := Function.update t.nodeIndices entry.2 ((modeByPipe t.distinctPipes entry.1).map Prod.fst)
    nodeModes := Function.update t.nodeModes entry.2 ((modeByPipe t.distinctPipes entry.1).map Prod.snd)}

def tables (g : Graph) : Tables :=
  let ordered := g.edgeSet.foldl addSuccessor {}
  let numbered := {ordered with distinctPipes := g.pipeSet}
  let strengthened := (g.nodes.flatMap Node.access).foldl strengthen numbered
  g.nodes.zipIdx.foldl nodeTable strengthened

-- `compile`; none is the fatal of `detect_cycles`.
def compile (g : Graph) : Option Tables :=
  let t := g.tables
  if t.cyclic g.size then none else some t

end Graph

-- Two nodes share an object that one of them writes.
def Conflicting (a b : Node) : Prop :=
  ∃ one ∈ a.access, ∃ two ∈ b.access, one.pipe = two.pipe ∧ (one.mode = .readWrite ∨ two.mode = .readWrite)

theorem conflicts_iff : conflicts a b = true ↔ Conflicting a b := by
  simp [conflicts,Conflicting]

namespace Graph

-- The relation a run has to keep to: what has been declared explicitly, and
-- conflicting nodes by their declaration.
def Before (g : Graph) (i j : Nat) : Prop :=
  (i,j) ∈ g.explicitEdges ∨ i < j ∧ ∃ a b, g.nodes[i]? = some a ∧ g.nodes[j]? = some b ∧ Conflicting a b

theorem edge_iff (g : Graph) : g.edge i j = true ↔ g.Before i j := by
  simp only [edge,Before,Bool.or_eq_true,List.contains_iff_mem,Bool.and_eq_true,decide_eq_true_eq]
  cases one : g.nodes[i]? with
  | none => simp
  | some a =>
    cases two : g.nodes[j]? with
    | none => simp
    | some b => simp [conflicts_iff]

theorem mem_conflictPairs (g : Graph) : (i,j) ∈ g.conflictPairs ↔
    i < j ∧ ∃ a b, g.nodes[i]? = some a ∧ g.nodes[j]? = some b ∧ Conflicting a b := by
  simp only [conflictPairs,List.mem_flatMap,List.mem_range,List.mem_map,List.mem_filter,List.mem_range'_1,Prod.mk.injEq]
  constructor
  · rintro ⟨k,within,l,⟨between,conflicting⟩,rfl,rfl⟩
    cases one : g.nodes[k]? with
    | none => simp [one] at conflicting
    | some a =>
      cases two : g.nodes[l]? with
      | none => simp [one,two] at conflicting
      | some b =>
        simp only [one,two] at conflicting
        exact ⟨by omega,a,b,rfl,rfl,conflicts_iff.mp conflicting⟩
  · rintro ⟨less,a,b,one,two,conflicting⟩
    have low := (List.getElem?_eq_some_iff.mp one).1
    have high := (List.getElem?_eq_some_iff.mp two).1
    refine ⟨i,low,j,⟨?_,?_⟩,rfl,rfl⟩
    · simp only [size]
      omega
    · simp only [one,two]
      exact conflicts_iff.mpr conflicting

theorem mem_edgeSet (g : Graph) : (i,j) ∈ g.edgeSet ↔ g.Before i j := by
  simp only [edgeSet,SortedSet.mem_collect_injective toLex.injective,mem_conflictPairs,Before]
  simp [or_comm]

theorem edgeSet_ascending (g : Graph) : SortedSet.Ascending toLex g.edgeSet :=
  SortedSet.collect_ascending _ (SortedSet.collect_ascending _ .nil _) _

theorem edges_ascending (g : Graph) : SortedSet.Ascending toLex g.edges := by
  unfold edges SortedSet.Ascending
  refine List.pairwise_flatMap.mpr ⟨?_,?_⟩
  · intro i _
    refine List.pairwise_map.mpr ((List.pairwise_lt_range.filter _).imp ?_)
    intro a b less
    exact Prod.Lex.lt_iff.mpr (.inr ⟨rfl,less⟩)
  · refine List.pairwise_lt_range.imp ?_
    intro i k less one first two second
    obtain ⟨a,_,rfl⟩ := List.mem_map.mp first
    obtain ⟨b,_,rfl⟩ := List.mem_map.mp second
    exact Prod.Lex.lt_iff.mpr (.inl less)

-- The set is the relation, walked row by row.
theorem edgeSet_eq (g : Graph) : g.edgeSet = g.edges := by
  refine g.edgeSet_ascending.unique g.edges_ascending ?_
  rintro ⟨i,j⟩
  rw [mem_edgeSet,← edge_iff]
  simp only [edges,List.mem_flatMap,List.mem_range,List.mem_map,List.mem_filter,Prod.mk.injEq]
  constructor
  · intro arc
    obtain ⟨low,high⟩ := g.edge_inner arc
    exact ⟨i,low,j,⟨high,arc⟩,rfl,rfl⟩
  · rintro ⟨_,_,_,⟨_,arc⟩,rfl,rfl⟩
    exact arc

theorem addSuccessor_fold (es : List (Nat × Nat)) (t : Tables) :
    (es.foldl addSuccessor t).successors = (fun i => t.successors i++(es.filter (·.1 == i)).map (·.2)) ∧
    (es.foldl addSuccessor t).indegree = fun j => t.indegree j+es.countP (·.2 == j) := by
  induction es generalizing t with
  | nil => simp
  | cons e rest ih =>
    obtain ⟨successors,indegree⟩ := ih (addSuccessor t e)
    rw [List.foldl_cons,successors,indegree]
    refine ⟨?_,?_⟩
    · funext i
      by_cases here : e.1 = i
      · subst here; simp [addSuccessor]
      · simp [addSuccessor,here,Function.update_of_ne (Ne.symm here)]
    · funext j
      by_cases here : e.2 = j
      · subst here; simp [addSuccessor]; omega
      · simp [addSuccessor,here,Function.update_of_ne (Ne.symm here)]

-- The later loops leave the edges and the numbering alone.
structure Numbered (t u : Tables) : Prop where
  successors : u.successors = t.successors
  indegree : u.indegree = t.indegree
  pipes : u.distinctPipes = t.distinctPipes

theorem Numbered.trans (one : Numbered t u) (two : Numbered u v) : Numbered t v :=
  ⟨two.successors.trans one.successors,two.indegree.trans one.indegree,two.pipes.trans one.pipes⟩

theorem strengthen_numbered (links : List Link) (t : Tables) : Numbered t (links.foldl strengthen t) := by
  induction links generalizing t with
  | nil => exact ⟨rfl,rfl,rfl⟩
  | cons link rest ih =>
    have first : Numbered t (strengthen t link) := by
      unfold strengthen
      split <;> exact ⟨rfl,rfl,rfl⟩
    exact first.trans (ih _)

theorem nodeTable_numbered (entries : List (Node × Nat)) (t : Tables) : Numbered t (entries.foldl nodeTable t) := by
  induction entries generalizing t with
  | nil => exact ⟨rfl,rfl,rfl⟩
  | cons entry rest ih =>
    have first : Numbered t (nodeTable t entry) := ⟨rfl,rfl,rfl⟩
    exact first.trans (ih _)

theorem tables_numbered (g : Graph) :
    Numbered {g.edgeSet.foldl addSuccessor {} with distinctPipes := g.pipeSet} g.tables :=
  (strengthen_numbered _ _).trans (nodeTable_numbered _ _)

theorem tables_successors (g : Graph) : g.tables.successors = g.successors := by
  rw [g.tables_numbered.successors]
  show (g.edgeSet.foldl addSuccessor {}).successors = _
  rw [(addSuccessor_fold _ _).1,edgeSet_eq]
  funext i
  exact List.nil_append _

theorem tables_indegree (g : Graph) : g.tables.indegree = g.indegree := by
  rw [g.tables_numbered.indegree]
  show (g.edgeSet.foldl addSuccessor {}).indegree = _
  rw [(addSuccessor_fold _ _).2,edgeSet_eq]
  funext j
  exact Nat.zero_add _

theorem tables_cyclic (g : Graph) : g.tables.cyclic g.size = g.detectCycles := by
  unfold Tables.cyclic detectCycles
  rw [tables_successors,tables_indegree]

theorem compile_none (g : Graph) : g.compile = none ↔ ∃ i, Relation.TransGen g.Before i i := by
  have acyclic : g.detectCycles = false ↔ ∀ i, ¬ Relation.TransGen (fun a b => g.edge a b = true) i i :=
    g.detectCycles_iff.trans (Kahn.topological_iff_acyclic (fun _ _ arc => g.edge_inner arc))
  have same : (fun a b => g.edge a b = true) = g.Before := by
    funext a b
    exact propext g.edge_iff
  rw [same] at acyclic
  simp only [compile,tables_cyclic]
  cases found : g.detectCycles with
  | false =>
    have none_back := acyclic.mp found
    simp only [Bool.false_eq_true,ite_false,reduceCtorEq,false_iff,not_exists]
    exact none_back
  | true =>
    rw [found] at acyclic
    simpa using acyclic

theorem pipeSet_ascending (g : Graph) : g.pipeSet.Pairwise (· < ·) :=
  SortedSet.collect_ascending id .nil _

theorem mem_pipeSet (g : Graph) : p ∈ g.pipeSet ↔ ∃ node ∈ g.nodes, ∃ link ∈ node.access, link.pipe = p := by
  unfold pipeSet
  rw [SortedSet.mem_collect_injective Function.injective_id]
  simp

theorem pipeSet_eq (g : Graph) : g.pipeSet = g.distinctPipes := by
  have climbs : g.distinctPipes.Pairwise (· ≤ ·) := List.pairwise_insertionSort _ _
  have apart : g.distinctPipes.Nodup := (List.perm_insertionSort _ _).nodup_iff.mpr (List.nodup_dedup _)
  have ascending : SortedSet.Ascending id g.distinctPipes :=
    (climbs.and apart).imp (fun both => Nat.lt_of_le_of_ne both.1 both.2)
  refine SortedSet.Ascending.unique (SortedSet.collect_ascending _ .nil _) ascending ?_
  intro p
  rw [mem_pipeSet,distinctPipes,List.mem_insertionSort,List.mem_dedup]
  simp

theorem strengthen_fold (links : List Link) (t : Tables) (i : Nat) :
    (links.foldl strengthen t).pipeModes i =
      if links.any (fun link => t.distinctPipes.idxOf link.pipe == i && link.mode == .readWrite) then .readWrite
      else t.pipeModes i := by
  induction links generalizing t with
  | nil => rfl
  | cons link rest ih =>
    have pipes : (strengthen t link).distinctPipes = t.distinctPipes := (strengthen_numbered [link] t).pipes
    rw [List.foldl_cons,ih,pipes,List.any_cons]
    by_cases later : rest.any (fun link => t.distinctPipes.idxOf link.pipe == i && link.mode == .readWrite) = true
    · simp [later]
    · simp only [later,Bool.false_eq_true,ite_false,Bool.or_false,Bool.and_eq_true,beq_iff_eq]
      unfold strengthen
      by_cases writes : link.mode = .readWrite
      · by_cases here : t.distinctPipes.idxOf link.pipe = i
        · subst here; simp [writes]
        · simp [writes,here,Function.update_of_ne (Ne.symm here)]
      · simp [writes]

theorem nodeTable_modes (entries : List (Node × Nat)) (t : Tables) : (entries.foldl nodeTable t).pipeModes = t.pipeModes := by
  induction entries generalizing t with
  | nil => rfl
  | cons entry rest ih => exact ih (nodeTable t entry)

-- The mode under a pipe's number is the strongest any node asks for there.
theorem tables_pipeModes (g : Graph) (touched : p ∈ g.pipeSet) :
    g.tables.pipeModes (g.tables.distinctPipes.idxOf p) = g.pipeMode p := by
  have pipes : g.tables.distinctPipes = g.pipeSet := g.tables_numbered.pipes
  rw [pipes]
  unfold tables
  rw [nodeTable_modes,strengthen_fold]
  have unwritten : (g.edgeSet.foldl addSuccessor {}).pipeModes = fun _ => Access.readOnly := by
    have kept : ∀ (es : List (Nat × Nat)) (t : Tables), (es.foldl addSuccessor t).pipeModes = t.pipeModes := by
      intro es
      induction es with
      | nil => exact fun _ => rfl
      | cons e rest ih => exact fun t => ih (addSuccessor t e)
    exact kept _ _
  rw [unwritten]
  have same : ∀ link : Link, (g.pipeSet.idxOf link.pipe == g.pipeSet.idxOf p) = (link.pipe == p) := by
    intro link
    rw [Bool.eq_iff_iff,beq_iff_eq,beq_iff_eq]
    exact ⟨fun equal => ((List.idxOf_inj touched).mp equal.symm).symm,fun equal => by rw [equal]⟩
  simp only [same,List.any_flatMap]
  rfl

theorem nodeTable_fold (entries : List (Node × Nat)) (distinct : (entries.map Prod.snd).Nodup) (t : Tables)
    (member : (node,i) ∈ entries) :
    (entries.foldl nodeTable t).nodeIndices i = (modeByPipe t.distinctPipes node).map Prod.fst ∧
    (entries.foldl nodeTable t).nodeModes i = (modeByPipe t.distinctPipes node).map Prod.snd := by
  induction entries generalizing t with
  | nil => cases member
  | cons entry rest ih =>
    obtain ⟨fresh,distinct⟩ := List.nodup_cons.mp distinct
    rcases List.mem_cons.mp member with here | later
    · subst here
      -- no later entry has this index
      have kept : ∀ (others : List (Node × Nat)) (u : Tables), i ∉ others.map Prod.snd →
          (others.foldl nodeTable u).nodeIndices i = u.nodeIndices i ∧
          (others.foldl nodeTable u).nodeModes i = u.nodeModes i := by
        intro others
        induction others with
        | nil => exact fun _ _ => ⟨rfl,rfl⟩
        | cons other more ih =>
          intro u away
          simp only [List.map_cons,List.mem_cons,not_or] at away
          obtain ⟨indices,modes⟩ := ih (nodeTable u other) away.2
          rw [List.foldl_cons,indices,modes]
          exact ⟨Function.update_of_ne away.1 _ _,Function.update_of_ne away.1 _ _⟩
      obtain ⟨indices,modes⟩ := kept rest (nodeTable t (node,i)) fresh
      rw [List.foldl_cons,indices,modes]
      exact ⟨Function.update_self _ _ _,Function.update_self _ _ _⟩
    · exact ih distinct (nodeTable t entry) later

theorem number_inj {pipes : List PipeId} (p q : PipeId) (member : p ∈ pipes) (same : pipes.idxOf p = pipes.idxOf q) :
    p = q := (List.idxOf_inj member).mp same

-- The map of a node: its accesses, each under the number of its pipe.
theorem modeByPipe_entries (node : Node) (pipes : List PipeId) (known : ∀ link ∈ node.access, link.pipe ∈ pipes) :
    ((modeByPipe pipes node).map Prod.fst).Pairwise (· < ·) ∧
    ∀ k m, (k,m) ∈ modeByPipe pipes node ↔ ∃ link ∈ node.access, pipes.idxOf link.pipe = k ∧ link.mode = m := by
  refine ⟨?_,?_⟩
  · exact List.pairwise_map.mpr (SortedSet.collect_ascending Prod.fst .nil _)
  · intro k m
    unfold modeByPipe
    rw [SortedSet.mem_collect]
    · simp
    · intro x one y two same
      simp only [List.append_nil,List.mem_map] at one two
      obtain ⟨a,first,rfl⟩ := one
      obtain ⟨b,second,rfl⟩ := two
      have pipe : a.pipe = b.pipe := number_inj _ _ (known a first) same
      have equal : a = b := List.inj_on_of_nodup_map node.distinct first second pipe
      rw [equal]

theorem tables_pipes (g : Graph) : g.tables.distinctPipes = g.pipeSet := g.tables_numbered.pipes

theorem declared_pipes (g : Graph) {i : Nat} {node : Node} (here : g.nodes[i]? = some node) : ∀ link ∈ node.access, link.pipe ∈ g.pipeSet :=
  fun link member => g.mem_pipeSet.mpr ⟨node,List.mem_of_getElem? here,link,member,rfl⟩

theorem tables_row (g : Graph) {i : Nat} {node : Node} (here : g.nodes[i]? = some node) :
    g.tables.nodeIndices i = (modeByPipe g.pipeSet node).map Prod.fst ∧
    g.tables.nodeModes i = (modeByPipe g.pipeSet node).map Prod.snd := by
  have member : (node,i) ∈ g.nodes.zipIdx := List.mk_mem_zipIdx_iff_getElem?.mpr here
  have single : (g.nodes.zipIdx.map Prod.snd).Nodup := by
    rw [List.zipIdx_map_snd]
    exact List.nodup_range'
  have filled := nodeTable_fold g.nodes.zipIdx single
    ((g.nodes.flatMap Node.access).foldl strengthen {g.edgeSet.foldl addSuccessor {} with distinctPipes := g.pipeSet}) member
  rw [(strengthen_numbered _ _).pipes] at filled
  exact filled

-- What a run needs from the tables.
structure Compiles (g : Graph) (t : Tables) : Prop where
  successors : ∀ i j, j ∈ t.successors i ↔ g.Before i j
  distinct : ∀ i, (t.successors i).Nodup
  indegree : ∀ j, j < g.size → t.indegree j = ((Finset.range g.size).filter (fun i => j ∈ t.successors i)).card
  conflicts : ∀ (i j : Nat) (a b : Node), i < j → g.nodes[i]? = some a → g.nodes[j]? = some b → Conflicting a b → j ∈ t.successors i
  canonical : t.distinctPipes.Pairwise (· < ·) ∧ ∀ (i : Nat) (node : Node), g.nodes[i]? = some node → (t.nodeIndices i).Pairwise (· < ·)
  modes : ∀ (i : Nat) (node : Node), g.nodes[i]? = some node → (t.nodeModes i).length = (t.nodeIndices i).length ∧
    ∀ p m, ⟨p,m⟩ ∈ node.access ↔
      ∃ k index : Nat, (t.nodeIndices i)[k]? = some index ∧ t.distinctPipes[index]? = some p ∧ (t.nodeModes i)[k]? = some m

theorem tables_compiles (g : Graph) : g.Compiles g.tables := by
  have listed : ∀ i, g.tables.successors i = (List.range g.size).filter (g.edge i) := by
    intro i
    rw [tables_successors,successors_eq]
    rfl
  have successors : ∀ i j, j ∈ g.tables.successors i ↔ g.Before i j := by
    intro i j
    rw [listed,List.mem_filter,List.mem_range,← edge_iff]
    exact ⟨And.right,fun arc => ⟨(g.edge_inner arc).2,arc⟩⟩
  have pipes := g.tables_pipes
  have rows : ∀ (i : Nat) (node : Node), g.nodes[i]? = some node → _ := fun i node here => g.tables_row here
  have known : ∀ (i : Nat) (node : Node), g.nodes[i]? = some node → ∀ link ∈ node.access, link.pipe ∈ g.pipeSet :=
    fun i node here => g.declared_pipes here
  refine ⟨successors,?_,?_,?_,⟨?_,?_⟩,?_⟩
  · intro i
    rw [listed]
    exact List.nodup_range.filter _
  · intro j within
    rw [tables_indegree,g.indegree_eq j within]
    refine congrArg Finset.card (Finset.filter_congr ?_)
    intro i _
    rw [successors,← edge_iff]
    simp
  · intro i j a b less one two conflicting
    exact (successors i j).mpr (.inr ⟨less,a,b,one,two,conflicting⟩)
  · rw [pipes]
    exact g.pipeSet_ascending
  · intro i node here
    rw [(rows i node here).1]
    exact (modeByPipe_entries node g.pipeSet (known i node here)).1
  · intro i node here
    obtain ⟨indices,modes⟩ := rows i node here
    refine ⟨by rw [indices,modes]; simp,?_⟩
    intro p m
    have entries := (modeByPipe_entries node g.pipeSet (known i node here)).2
    rw [indices,modes,pipes]
    simp only [List.getElem?_map]
    constructor
    · intro declared
      have touched := known i node here _ declared
      obtain ⟨k,place⟩ := List.mem_iff_getElem?.mp ((entries (g.pipeSet.idxOf p) m).mpr ⟨_,declared,rfl,rfl⟩)
      refine ⟨k,g.pipeSet.idxOf p,by rw [place]; rfl,?_,by rw [place]; rfl⟩
      rw [List.getElem?_eq_getElem (List.idxOf_lt_length_of_mem touched),List.getElem_idxOf]
    · rintro ⟨k,index,first,second,third⟩
      obtain ⟨⟨index',m'⟩,place,rfl⟩ := Option.map_eq_some_iff.mp first
      obtain ⟨entry,again,rfl⟩ := Option.map_eq_some_iff.mp third
      rw [place] at again
      cases again
      obtain ⟨link,declared,numbered,mode⟩ := (entries index' m').mp (List.mem_of_getElem? place)
      have touched := known i node here _ declared
      have pipe : link.pipe = p := by
        rw [← numbered,List.getElem?_eq_getElem (List.idxOf_lt_length_of_mem touched),List.getElem_idxOf] at second
        exact Option.some.inj second
      have whole : link = ⟨p,m'⟩ := by
        cases link
        simp_all
      rw [← whole]
      exact declared

theorem compiled (g : Graph) (accepted : g.compile = some t) : g.Compiles t := by
  have same : t = g.tables := by
    unfold compile at accepted
    dsimp only at accepted
    split at accepted
    · cases accepted
    · exact (Option.some.inj accepted).symm
  rw [same]
  exact g.tables_compiles

-- `compile` ends in the cycle fatal exactly when the relation comes back to
-- where it began, and else has the relation and the canonical order in its tables.
theorem compile_exact (g : Graph) :
    (g.compile = none ↔ ∃ i, Relation.TransGen g.Before i i) ∧ ∀ t, g.compile = some t → g.Compiles t :=
  ⟨g.compile_none,fun _ accepted => g.compiled accepted⟩

end Graph
end Macrame

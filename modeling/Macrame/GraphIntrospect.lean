import Macrame.Compile

namespace Macrame

-- One call of `edge_fn`, and one of `node_fn` with what it passes of the node.
structure EdgeVisit where
  edge : Nat×Nat
  explicitOrdering : Bool
  detail : String

structure NodeVisit where
  index : Nat
  accesses : List (String×Bool)

-- `labels[instance]`, an object's name or nothing.
def labelOf (labels : List (PipeId×String)) (p : PipeId) : String := ((labels.find? (·.1 == p)).map Prod.snd).getD ""

def modeText (mode : Access) : String := if mode = .readWrite then "RW" else "RO"

def conflictEntry (label : String) (one two : Access) : String := label++": "++modeText one++"->"++modeText two

-- `conflict_detail`: an entry for each pair of accesses to one instance with a
-- writer among them.
def conflictDetail (labels : List (PipeId×String)) (a b : Node) : String :=
  a.access.foldl (fun detail one => b.access.foldl (fun detail two =>
    if one.pipe = two.pipe ∧ (one.mode = .readWrite ∨ two.mode = .readWrite) then
      (if detail = "" then detail else detail++"; ")++conflictEntry (labelOf labels one.pipe) one.mode two.mode
    else detail) detail) ""

namespace Graph

-- `object_labels`; `names` is the display form of each pipe's name.
def objectLabels (g : Graph) (names : PipeId → String) : List (PipeId×String) :=
  SortedSet.collect Prod.fst (g.nodes.flatMap (fun node => node.access.map (fun link => (link.pipe,names link.pipe)))) []

def detailOf (g : Graph) (labels : List (PipeId×String)) (i j : Nat) : String :=
  match g.nodes[i]?,g.nodes[j]? with
  | some a,some b => conflictDetail labels a b
  | _,_ => ""

def explicitSet (g : Graph) : List (Nat×Nat) := SortedSet.collect toLex g.explicitEdges []

-- `visit_structure`, its calls in order. A node's label and priority are handed on
-- unread.
def nodeVisits (g : Graph) (names : PipeId → String) : List NodeVisit :=
  g.nodes.zipIdx.map (fun (node,i) =>
    ⟨i,node.access.map (fun link => (labelOf (g.objectLabels names) link.pipe,decide (link.mode = .readWrite)))⟩)

def explicitVisits (g : Graph) (labels : List (PipeId×String)) : List EdgeVisit :=
  g.explicitSet.map (fun e => ⟨e,true,g.detailOf labels e.1 e.2⟩)

def derivedVisits (g : Graph) (labels : List (PipeId×String)) : List EdgeVisit :=
  (List.range g.size).flatMap (fun i => (List.range' (i+1) (g.size-(i+1))).filterMap (fun j =>
    if g.explicitSet.contains (i,j) then none
    else
      let detail := g.detailOf labels i j
      if detail = "" then none else some ⟨(i,j),false,detail⟩))

def edgeVisits (g : Graph) (names : PipeId → String) : List EdgeVisit :=
  g.explicitVisits (g.objectLabels names)++g.derivedVisits (g.objectLabels names)

end Graph

-- The pairs of accesses `conflict_detail` stops at.
def touching (a b : Node) : List (Link×Link) :=
  a.access.flatMap (fun one => (b.access.filter (fun two =>
    one.pipe = two.pipe ∧ (one.mode = .readWrite ∨ two.mode = .readWrite))).map (one,·))

def touchText (labels : List (PipeId×String)) (pair : Link×Link) : String :=
  conflictEntry (labelOf labels pair.1.pipe) pair.1.mode pair.2.mode

theorem conflictEntry_ne (label : String) (one two : Access) : conflictEntry label one two ≠ "" := by
  unfold conflictEntry
  intro empty
  simp only [String.append_eq_empty_iff] at empty
  exact absurd empty.1.1.1.2 (by decide)

theorem intercalate_ne {pieces : List String} (some_ : ∀ piece ∈ pieces, piece ≠ "") (more : pieces ≠ []) :
    String.intercalate "; " pieces ≠ "" := by
  intro empty
  cases pieces with
  | nil => exact more rfl
  | cons first rest =>
    have nonempty := some_ first List.mem_cons_self
    cases rest with
    | nil => exact nonempty (by simpa using empty)
    | cons second rest =>
      rw [String.intercalate_cons_cons,String.append_eq_empty_iff,String.append_eq_empty_iff] at empty
      exact nonempty empty.1.1

-- Pieces that are not empty, put together with a separator before all but the
-- first.
theorem foldl_pieces (pieces : List String) (some_ : ∀ piece ∈ pieces, piece ≠ "") :
    pieces.foldl (fun text piece => (if text = "" then text else text++"; ")++piece) "" = String.intercalate "; " pieces := by
  induction pieces using List.reverseRecOn with
  | nil => simp
  | append_singleton pieces last ih =>
    have before := ih (fun piece member => some_ piece (List.mem_append_left _ member))
    rw [List.foldl_append,before]
    simp only [List.foldl_cons,List.foldl_nil]
    by_cases none_ : pieces = []
    · simp [none_]
    · have started := intercalate_ne (fun piece member => some_ piece (List.mem_append_left _ member)) none_
      rw [if_neg started,String.intercalate_append_of_ne_nil none_ (by simp),String.intercalate_singleton]

theorem conflictDetail_eq (labels : List (PipeId×String)) (a b : Node) :
    conflictDetail labels a b = String.intercalate "; " ((touching a b).map (touchText labels)) := by
  rw [← foldl_pieces]
  · unfold conflictDetail touching
    rw [List.map_flatMap,List.foldl_flatMap]
    congr 1
    funext detail one
    rw [List.map_map,List.foldl_map,List.foldl_filter]
    congr 1
    funext detail two
    simp only [decide_eq_true_eq]
    rfl
  · intro piece member
    obtain ⟨pair,-,rfl⟩ := List.mem_map.mp member
    exact conflictEntry_ne _ _ _

theorem mem_touching : (one,two) ∈ touching a b ↔
    one ∈ a.access ∧ two ∈ b.access ∧ one.pipe = two.pipe ∧ (one.mode = .readWrite ∨ two.mode = .readWrite) := by
  unfold touching
  simp only [List.mem_flatMap,List.mem_map,List.mem_filter,decide_eq_true_eq,Prod.mk.injEq]
  constructor
  · rintro ⟨_,declared,_,⟨other,same⟩,rfl,rfl⟩
    exact ⟨declared,other,same⟩
  · rintro ⟨declared,other,same⟩
    exact ⟨one,declared,two,⟨other,same⟩,rfl,rfl⟩

theorem flatMap_map_sublist {f : α → List β} {g : β → γ} {h : α → List γ} {l : List α}
    (one : ∀ x ∈ l, ((f x).map g).Sublist (h x)) : ((l.flatMap f).map g).Sublist (l.flatMap h) := by
  induction l with
  | nil => exact .refl _
  | cons x l ih =>
    rw [List.flatMap_cons,List.map_append,List.flatMap_cons]
    exact (one x List.mem_cons_self).append (ih (fun y member => one y (List.mem_cons_of_mem _ member)))

-- Both nodes declare an instance once, so it is stopped at once.
theorem touching_once (a b : Node) : ((touching a b).map (fun pair => pair.1.pipe)).Nodup := by
  have pipes : a.access.flatMap (fun one => [one.pipe]) = a.access.map Link.pipe := (List.map_eq_flatMap).symm
  refine List.Nodup.sublist (flatMap_map_sublist ?_) (pipes ▸ a.distinct)
  intro one _
  rw [List.map_map]
  have apart : ((b.access.filter (fun two =>
      one.pipe = two.pipe ∧ (one.mode = .readWrite ∨ two.mode = .readWrite))).map Link.pipe).Nodup :=
    b.distinct.sublist (List.filter_sublist.map _)
  have same : ∀ two ∈ b.access.filter (fun two =>
      one.pipe = two.pipe ∧ (one.mode = .readWrite ∨ two.mode = .readWrite)), one.pipe = two.pipe :=
    fun two member => (of_decide_eq_true (List.mem_filter.mp member).2).1
  generalize b.access.filter _ = met at apart same
  match met with
  | [] => exact List.nil_sublist _
  | [two] => exact .refl _
  | two :: three :: rest =>
    have first := same two List.mem_cons_self
    have second := same three (by simp)
    simp [← first,← second] at apart

theorem labelOf_objectLabels (g : Graph) (names : PipeId → String) (here : node ∈ g.nodes) (declared : link ∈ node.access) :
    labelOf (g.objectLabels names) link.pipe = names link.pipe := by
  have named : ∀ entry ∈ g.nodes.flatMap (fun node => node.access.map (fun link => (link.pipe,names link.pipe))),
      entry.2 = names entry.1 := by
    intro entry member
    obtain ⟨_,_,inner⟩ := List.mem_flatMap.mp member
    obtain ⟨_,_,rfl⟩ := List.mem_map.mp inner
    rfl
  have known : ∀ entry, entry ∈ g.objectLabels names ↔
      entry ∈ g.nodes.flatMap (fun node => node.access.map (fun link => (link.pipe,names link.pipe))) := by
    intro entry
    unfold Graph.objectLabels
    rw [SortedSet.mem_collect]
    · simp
    · intro x one y two same
      rw [List.append_nil] at one two
      exact Prod.ext same ((named x one).trans (same ▸ (named y two).symm))
  have listed : (link.pipe,names link.pipe) ∈ g.objectLabels names :=
    (known _).mpr (List.mem_flatMap.mpr ⟨node,here,List.mem_map.mpr ⟨link,declared,rfl⟩⟩)
  unfold labelOf
  cases found : (g.objectLabels names).find? (·.1 == link.pipe) with
  | none => exact absurd (List.find?_eq_none.mp found _ listed) (by simp)
  | some entry =>
    have same : entry.1 = link.pipe := by simpa using List.find?_some found
    change entry.2 = names link.pipe
    rw [named entry ((known entry).mp (List.mem_of_find?_eq_some found)),same]

-- A node's accesses are told under the objects' own names.
theorem nodeVisits_named (g : Graph) (names : PipeId → String) : (g.nodeVisits names).map NodeVisit.accesses =
    g.nodes.map (fun node => node.access.map (fun link => (names link.pipe,decide (link.mode = .readWrite)))) := by
  unfold Graph.nodeVisits
  rw [List.map_map]
  have first : g.nodes.zipIdx.map Prod.fst = g.nodes := List.zipIdx_map_fst _ _
  conv => rhs; rw [← first,List.map_map]
  refine List.map_congr_left ?_
  rintro ⟨node,i⟩ member
  refine List.map_congr_left ?_
  intro link declared
  rw [labelOf_objectLabels g names (List.fst_mem_of_mem_zipIdx member) declared]

-- One entry for each instance that both nodes declare and one of them writes.
def Detailed (names : PipeId → String) (a b : Node) (detail : String) : Prop :=
  ∃ shared : List (PipeId×Access×Access), (shared.map Prod.fst).Nodup ∧
    (∀ p m n, (p,m,n) ∈ shared ↔ ⟨p,m⟩ ∈ a.access ∧ ⟨p,n⟩ ∈ b.access ∧ (m = .readWrite ∨ n = .readWrite)) ∧
      detail = String.intercalate "; " (shared.map (fun entry => conflictEntry (names entry.1) entry.2.1 entry.2.2))

theorem conflictDetail_detailed (g : Graph) (names : PipeId → String) (here : a ∈ g.nodes) (b : Node) :
    Detailed names a b (conflictDetail (g.objectLabels names) a b) := by
  refine ⟨(touching a b).map (fun pair => (pair.1.pipe,pair.1.mode,pair.2.mode)),?_,?_,?_⟩
  · rw [List.map_map]
    exact touching_once a b
  · intro p m n
    constructor
    · intro member
      obtain ⟨⟨one,two⟩,met,same⟩ := List.mem_map.mp member
      obtain ⟨declared,other,shared,writes⟩ := mem_touching.mp met
      cases same
      refine ⟨declared,?_,writes⟩
      rw [shared]
      exact other
    · rintro ⟨declared,other,writes⟩
      exact List.mem_map.mpr ⟨(⟨p,m⟩,⟨p,n⟩),mem_touching.mpr ⟨declared,other,rfl,writes⟩,rfl⟩
  · rw [conflictDetail_eq,List.map_map]
    congr 1
    refine List.map_congr_left ?_
    rintro ⟨one,two⟩ met
    have label := labelOf_objectLabels g names here (mem_touching.mp met).1
    change conflictEntry (labelOf _ one.pipe) _ _ = _
    rw [label]
    rfl

theorem conflictDetail_ne (labels : List (PipeId×String)) (a b : Node) :
    conflictDetail labels a b ≠ "" ↔ conflicts a b = true := by
  rw [conflictDetail_eq,conflicts_iff]
  constructor
  · intro some_
    cases met : touching a b with
    | nil =>
      rw [met] at some_
      exact absurd String.intercalate_nil some_
    | cons pair rest =>
      obtain ⟨one,two⟩ := pair
      obtain ⟨declared,other,same⟩ := mem_touching.mp (show (one,two) ∈ touching a b by rw [met]; exact List.mem_cons_self)
      exact ⟨one,declared,two,other,same⟩
  · rintro ⟨one,declared,two,other,same⟩
    refine intercalate_ne ?_ ?_
    · intro piece member
      obtain ⟨pair,-,rfl⟩ := List.mem_map.mp member
      exact conflictEntry_ne _ _ _
    · intro empty
      have met := mem_touching.mpr ⟨declared,other,same⟩
      rw [List.map_eq_nil_iff.mp empty] at met
      cases met

namespace Graph

theorem mem_explicitSet (g : Graph) : e ∈ g.explicitSet ↔ e ∈ g.explicitEdges := by
  unfold explicitSet
  rw [SortedSet.mem_collect_injective toLex.injective]
  simp

theorem mem_derivedVisits (g : Graph) (labels : List (PipeId×String)) : v ∈ g.derivedVisits labels ↔
    ∃ i j a b, i < j ∧ g.nodes[i]? = some a ∧ g.nodes[j]? = some b ∧ conflicts a b = true ∧ (i,j) ∉ g.explicitEdges ∧
      v = ⟨(i,j),false,conflictDetail labels a b⟩ := by
  unfold derivedVisits
  simp only [List.mem_flatMap,List.mem_range,List.mem_filterMap,List.mem_range'_1]
  constructor
  · rintro ⟨i,low,j,⟨after,high⟩,visited⟩
    split at visited
    · cases visited
    · rename_i derived
      rw [List.contains_iff_mem,mem_explicitSet] at derived
      split at visited
      · cases visited
      · rename_i some_
        have inside : j < g.nodes.length := by
          unfold size at high
          omega
        have one : g.nodes[i]? = some g.nodes[i] := List.getElem?_eq_getElem low
        have two : g.nodes[j]? = some g.nodes[j] := List.getElem?_eq_getElem inside
        have detail : g.detailOf labels i j = conflictDetail labels g.nodes[i] g.nodes[j] := by
          unfold detailOf
          rw [one,two]
        rw [detail] at some_ visited
        cases visited
        exact ⟨i,j,_,_,by omega,one,two,(conflictDetail_ne _ _ _).mp some_,derived,rfl⟩
  · rintro ⟨i,j,a,b,order,one,two,conflict,derived,rfl⟩
    have low := (List.getElem?_eq_some_iff.mp one).1
    have high := (List.getElem?_eq_some_iff.mp two).1
    have detail : g.detailOf labels i j = conflictDetail labels a b := by
      unfold detailOf
      rw [one,two]
    refine ⟨i,low,j,⟨order,?_⟩,?_⟩
    · unfold size
      omega
    · rw [if_neg (by rw [List.contains_iff_mem,mem_explicitSet]; exact derived),detail]
      exact if_neg ((conflictDetail_ne _ _ _).mpr conflict)

-- Rows of pairs, each row without repetition, have no pair twice.
theorem rows_nodup {row : Nat → List Nat} {l : List Nat} (apart : l.Nodup) (rows : ∀ i, (row i).Nodup) :
    (l.flatMap (fun i => (row i).map (i,·))).Nodup := by
  refine List.nodup_flatMap.mpr ⟨?_,?_⟩
  · intro i _
    exact (rows i).map (fun _ _ same => (Prod.mk.inj same).2)
  · refine apart.imp ?_
    intro i k other e one two
    obtain ⟨_,_,rfl⟩ := List.mem_map.mp one
    obtain ⟨_,_,same⟩ := List.mem_map.mp two
    exact other (Prod.mk.inj same).1.symm

theorem visits_sublist {visit : Nat → Option EdgeVisit} {l : List Nat} (kept : ∀ j v, visit j = some v → v.edge = (i,j)) :
    ((l.filterMap visit).map EdgeVisit.edge).Sublist (l.map (i,·)) := by
  induction l with
  | nil => exact .refl _
  | cons j l ih =>
    cases visited : visit j with
    | none =>
      rw [List.filterMap_cons_none visited]
      exact ih.cons _
    | some v =>
      rw [List.filterMap_cons_some visited,List.map_cons,List.map_cons,kept j v visited]
      exact ih.cons_cons _

theorem edgeVisits_once (g : Graph) (names : PipeId → String) : ((g.edgeVisits names).map EdgeVisit.edge).Nodup := by
  unfold edgeVisits
  rw [List.map_append]
  have declared : ((g.explicitVisits (g.objectLabels names)).map EdgeVisit.edge) = g.explicitSet := by
    unfold explicitVisits
    rw [List.map_map]
    exact List.map_id _
  rw [declared]
  refine List.nodup_append.mpr ⟨(SortedSet.collect_ascending _ .nil _).nodup,?_,?_⟩
  · have pairs : ((List.range g.size).flatMap (fun i => (List.range' (i+1) (g.size-(i+1))).map (i,·))).Nodup :=
      rows_nodup List.nodup_range (fun i => List.nodup_range')
    refine List.Nodup.sublist (flatMap_map_sublist ?_) pairs
    intro i _
    refine visits_sublist ?_
    intro j v visited
    dsimp only at visited
    split at visited
    · cases visited
    · split at visited
      · cases visited
      · cases visited
        rfl
  · intro e explicit f derived same
    obtain ⟨v,member,rfl⟩ := List.mem_map.mp derived
    obtain ⟨i,j,a,b,-,-,-,-,implied,rfl⟩ := (g.mem_derivedVisits _).mp member
    rw [same] at explicit
    exact implied (g.mem_explicitSet.mp explicit)

theorem mem_edgeVisits (g : Graph) (names : PipeId → String) :
    (i,j) ∈ (g.edgeVisits names).map EdgeVisit.edge ↔ g.Before i j := by
  unfold edgeVisits Before
  rw [List.map_append,List.mem_append]
  constructor
  · rintro (explicit | derived)
    · obtain ⟨v,member,same⟩ := List.mem_map.mp explicit
      obtain ⟨e,declared,rfl⟩ := List.mem_map.mp member
      cases same
      exact .inl (g.mem_explicitSet.mp declared)
    · obtain ⟨v,member,same⟩ := List.mem_map.mp derived
      obtain ⟨k,l,a,b,order,one,two,conflict,-,rfl⟩ := (g.mem_derivedVisits _).mp member
      cases same
      exact .inr ⟨order,a,b,one,two,conflicts_iff.mp conflict⟩
  · intro before
    by_cases declared : (i,j) ∈ g.explicitEdges
    · exact .inl (List.mem_map.mpr ⟨_,List.mem_map.mpr ⟨(i,j),g.mem_explicitSet.mpr declared,rfl⟩,rfl⟩)
    · obtain ⟨order,a,b,one,two,conflict⟩ := before.resolve_left declared
      refine .inr (List.mem_map.mpr ⟨_,(g.mem_derivedVisits _).mpr ⟨i,j,a,b,order,one,two,?_,declared,rfl⟩,rfl⟩)
      exact conflicts_iff.mpr conflict

-- What the consumers of a compiled graph are told of its edges.
structure Exported (g : Graph) (names : PipeId → String) (t : Tables) : Prop where
  edges : ((g.edgeVisits names).map EdgeVisit.edge).Perm
    ((List.range g.size).flatMap (fun i => (t.successors i).map (i,·)))
  once : ((g.edgeVisits names).map EdgeVisit.edge).Nodup
  flagged : ∀ v ∈ g.edgeVisits names, v.explicitOrdering = true ↔ v.edge ∈ g.explicitEdges
  detail : ∀ v ∈ g.edgeVisits names, ∃ a b, g.nodes[v.edge.1]? = some a ∧ g.nodes[v.edge.2]? = some b ∧
    (v.detail ≠ "" ↔ conflicts a b = true) ∧ Detailed names a b v.detail

theorem edgeVisits_detail (g : Graph) (names : PipeId → String) (member : v ∈ g.edgeVisits names) :
    ∃ a b, g.nodes[v.edge.1]? = some a ∧ g.nodes[v.edge.2]? = some b ∧
      v.detail = conflictDetail (g.objectLabels names) a b := by
  rcases List.mem_append.mp member with explicit | derived
  · obtain ⟨e,declared,rfl⟩ := List.mem_map.mp explicit
    obtain ⟨low,high⟩ := g.inner e (g.mem_explicitSet.mp declared)
    refine ⟨g.nodes[e.1],g.nodes[e.2],List.getElem?_eq_getElem low,List.getElem?_eq_getElem high,?_⟩
    change g.detailOf _ e.1 e.2 = _
    unfold detailOf
    rw [List.getElem?_eq_getElem low,List.getElem?_eq_getElem high]
  · obtain ⟨i,j,a,b,-,one,two,-,-,rfl⟩ := (g.mem_derivedVisits _).mp derived
    exact ⟨a,b,one,two,rfl⟩

theorem edgeVisits_flagged (g : Graph) (names : PipeId → String) (member : v ∈ g.edgeVisits names) :
    v.explicitOrdering = true ↔ v.edge ∈ g.explicitEdges := by
  rcases List.mem_append.mp member with explicit | derived
  · obtain ⟨e,declared,rfl⟩ := List.mem_map.mp explicit
    exact ⟨fun _ => g.mem_explicitSet.mp declared,fun _ => rfl⟩
  · obtain ⟨i,j,a,b,-,-,-,-,implied,rfl⟩ := (g.mem_derivedVisits _).mp derived
    exact ⟨nofun,fun declared => absurd declared implied⟩

-- For every graph that `compile` accepts and every naming of its objects.
theorem structure_exported (g : Graph) (names : PipeId → String) (accepted : g.compile = some t) : g.Exported names t := by
  have compiles := g.compiled accepted
  have rows : ((List.range g.size).flatMap (fun i => (t.successors i).map (i,·))).Nodup :=
    rows_nodup List.nodup_range compiles.distinct
  refine ⟨(List.perm_ext_iff_of_nodup (g.edgeVisits_once names) rows).mpr ?_,g.edgeVisits_once names,
    fun v member => g.edgeVisits_flagged names member,?_⟩
  · rintro ⟨i,j⟩
    rw [mem_edgeVisits,← compiles.successors]
    simp only [List.mem_flatMap,List.mem_range,List.mem_map,Prod.mk.injEq]
    constructor
    · intro successor
      have arc := g.edge_iff.mpr ((compiles.successors i j).mp successor)
      exact ⟨i,(g.edge_inner arc).1,j,successor,rfl,rfl⟩
    · rintro ⟨_,_,_,successor,rfl,rfl⟩
      exact successor
  · intro v member
    obtain ⟨a,b,one,two,detail⟩ := g.edgeVisits_detail names member
    refine ⟨a,b,one,two,?_,?_⟩
    · rw [detail]
      exact conflictDetail_ne _ a b
    · rw [detail]
      exact conflictDetail_detailed g names (List.mem_of_getElem? one) b

-- A writer, a reader and a second writer, with the first ordered before the second
-- also by hand.
def exportedGraph : Graph where
  nodes := [⟨[⟨1,.readWrite⟩],by decide,by decide⟩,⟨[⟨1,.readOnly⟩,⟨2,.readOnly⟩],by decide,by decide⟩,
    ⟨[⟨2,.readWrite⟩],by decide,by decide⟩]
  explicitEdges := [(0,1),(0,1)]
  inner := by decide

theorem structure_exported_ordered : ∃ t, exportedGraph.compile = some t ∧ exportedGraph.Exported (fun _ => "o") t ∧
    (exportedGraph.edgeVisits (fun _ => "o")).map (fun v => (v.edge,v.explicitOrdering,v.detail)) =
      [((0,1),true,"o: RW->RO"),((1,2),false,"o: RO->RW")] := by
  have accepted : exportedGraph.compile = some exportedGraph.tables := rfl
  exact ⟨_,accepted,structure_exported exportedGraph _ accepted,by decide⟩

end Graph
end Macrame

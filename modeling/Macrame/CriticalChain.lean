import Mathlib.Algebra.Order.BigOperators.Group.List
import Mathlib.Algebra.Order.Ring.Int
import Mathlib.Data.List.Chain
import Mathlib.Data.List.Induction
import Mathlib.Data.List.Nodup
import Mathlib.Data.List.Perm.Subperm
import Mathlib.Logic.Function.Basic
import Mathlib.Logic.Relation
import Macrame.Lib.WaitFor

namespace Macrame

-- `in_edges_`: the edges' indices by target.
def indexed (edges : List (Nat×Nat)) : Nat → List Nat :=
  edges.zipIdx.foldl (fun ins entry => Function.update ins entry.1.2 (ins entry.1.2++[entry.2])) (fun _ => [])

-- What `Graph_trace` keeps for the measured chain, each statistic as the samples
-- it was given, in ticks. The cached index is never stale: whoever changes the
-- edges marks it dirty.
structure GraphTrace where
  nodeCount : Nat
  edges : List (Nat×Nat)
  nodeRuns : Nat → Nat
  edgeRuns : Nat → Nat
  edgeGaps : Nat → List Int
  inEdges : Nat → List Nat
  inEdgesDirty : Bool
  criticalWork : List Int
  cached : inEdgesDirty = false → inEdges = indexed edges

namespace GraphTrace

def fresh : GraphTrace := ⟨0,[],fun _ => 0,fun _ => 0,fun _ => [],fun _ => [],true,[],nofun⟩

def beginStructure (s : GraphTrace) (nodeCount : Nat) : GraphTrace where
  nodeCount := nodeCount
  edges := []
  nodeRuns := fun _ => 0
  edgeRuns := fun _ => 0
  edgeGaps := fun _ => []
  inEdges := s.inEdges
  inEdgesDirty := true
  criticalWork := []
  cached := nofun

def addEdge (s : GraphTrace) (source target : Nat) : GraphTrace :=
  { s with edges := s.edges++[(source,target)], inEdgesDirty := true, cached := nofun }

def index (s : GraphTrace) : GraphTrace :=
  if s.inEdgesDirty = true then { s with inEdges := indexed s.edges, inEdgesDirty := false, cached := fun _ => rfl } else s

def source (s : GraphTrace) (e : Nat) : Nat := (s.edges.getD e (0,0)).1

-- The later of two, the first of them on a tie.
def later (key : Nat → Int) (cur i : Nat) : Nat := if key cur < key i then i else cur

def latest (ends : Nat → Int) (nodeCount : Nat) : Nat := (List.range' 1 (nodeCount-1)).foldl (later ends) 0

-- The incoming edge whose source ended last.
def bindingEdge (s : GraphTrace) (ends : Nat → Int) (cur : Nat) : Option Nat :=
  (s.inEdges cur).foldl (fun best e =>
    match best with
    | none => some e
    | some b => some (later (fun e => ends (s.source e)) b e)) none

end GraphTrace

-- The walk with what it has passed: the nodes, and each binding edge with its gap.
structure ChainWalk where
  trace : GraphTrace
  cur : Nat
  work : Int
  visited : List Nat
  bound : List (Nat×Int)

namespace ChainWalk

-- The node's own part of a turn.
def enter (starts ends : Nat → Int) (w : ChainWalk) : ChainWalk :=
  { w with
    trace := { w.trace with nodeRuns := Function.update w.trace.nodeRuns w.cur (w.trace.nodeRuns w.cur+1) }
    work := w.work+(ends w.cur-starts w.cur)
    visited := w.visited++[w.cur] }

-- The binding edge's part.
def bind (starts ends : Nat → Int) (w : ChainWalk) (e : Nat) : ChainWalk :=
  let gap := max 0 (starts w.cur-ends (w.trace.source e))
  { w with
    trace := { w.trace with
      edgeRuns := Function.update w.trace.edgeRuns e (w.trace.edgeRuns e+1)
      edgeGaps := Function.update w.trace.edgeGaps e (w.trace.edgeGaps e++[gap]) }
    cur := w.trace.source e
    bound := w.bound++[(e,gap)] }

-- The loop, which stops at a node without incoming edges.
def loop (starts ends : Nat → Int) : Nat → ChainWalk → Option ChainWalk
  | 0,_ => none
  | fuel+1,w =>
    match w.trace.bindingEdge ends w.cur with
    | none => some (w.enter starts ends)
    | some e => loop starts ends fuel ((w.enter starts ends).bind starts ends e)

end ChainWalk

def GraphTrace.foldCriticalChain (s : GraphTrace) (starts ends : Nat → Int) (fuel : Nat) : Option ChainWalk :=
  if s.nodeCount = 0 then some ⟨s,0,0,[],[]⟩
  else
    (ChainWalk.loop starts ends fuel ⟨s.index,GraphTrace.latest ends s.nodeCount,0,[],[]⟩).map fun w =>
      { w with trace := { w.trace with criticalWork := w.trace.criticalWork++[w.work] } }

theorem mem_indexed (edges : List (Nat×Nat)) (e v : Nat) : e ∈ indexed edges v ↔ ∃ u, edges[e]? = some (u,v) := by
  unfold indexed
  induction edges using List.reverseRecOn with
  | nil => simp
  | append_singleton edges last ih =>
    obtain ⟨a,b⟩ := last
    rw [List.zipIdx_append,List.foldl_append]
    simp only [List.zipIdx_cons,List.zipIdx_nil,List.foldl_cons,List.foldl_nil,Nat.zero_add]
    by_cases here : v = b
    · subst here
      rw [Function.update_self,List.mem_append,ih,List.mem_singleton]
      constructor
      · rintro (⟨u,old⟩ | rfl)
        · exact ⟨u,by rw [List.getElem?_append_left (List.getElem?_eq_some_iff.mp old).1]; exact old⟩
        · exact ⟨a,by simp⟩
      · rintro ⟨u,found⟩
        by_cases inside : e < edges.length
        · rw [List.getElem?_append_left inside] at found
          exact .inl ⟨u,found⟩
        · have short := (List.getElem?_eq_some_iff.mp found).1
          rw [List.length_append,List.length_singleton] at short
          exact .inr (by omega)
    · rw [Function.update_of_ne here,ih]
      constructor
      · rintro ⟨u,old⟩
        exact ⟨u,by rw [List.getElem?_append_left (List.getElem?_eq_some_iff.mp old).1]; exact old⟩
      · rintro ⟨u,found⟩
        by_cases inside : e < edges.length
        · rw [List.getElem?_append_left inside] at found
          exact ⟨u,found⟩
        · have short := (List.getElem?_eq_some_iff.mp found).1
          rw [List.length_append,List.length_singleton] at short
          have same : e = edges.length := by omega
          rw [same] at found
          simp at found
          exact absurd found.2.symm here

namespace GraphTrace

theorem foldl_later (key : Nat → Int) (rest : List Nat) : ∀ first,
    (rest.foldl (later key) first = first ∨ rest.foldl (later key) first ∈ rest) ∧
      ∀ i ∈ first :: rest, key i ≤ key (rest.foldl (later key) first) := by
  induction rest with
  | nil => simp
  | cons a rest ih =>
    intro first
    obtain ⟨among,most⟩ := ih (later key first a)
    have bigger : key first ≤ key (later key first a) ∧ key a ≤ key (later key first a) := by
      unfold later
      split <;> omega
    have one : later key first a = first ∨ later key first a = a := by
      unfold later
      split <;> simp
    have kept := most _ List.mem_cons_self
    refine ⟨?_,?_⟩
    · rw [List.foldl_cons]
      rcases among with same | member
      · rw [same]
        rcases one with same | same
        · exact .inl same
        · exact .inr (by rw [same]; exact List.mem_cons_self)
      · exact .inr (List.mem_cons_of_mem _ member)
    · intro i member
      rw [List.foldl_cons]
      rcases List.mem_cons.mp member with rfl | member
      · exact bigger.1.trans kept
      · rcases List.mem_cons.mp member with rfl | member
        · exact bigger.2.trans kept
        · exact most i (List.mem_cons_of_mem _ member)

theorem latest_spec (ends : Nat → Int) (some : 0 < n) : latest ends n < n ∧ ∀ i, i < n → ends i ≤ ends (latest ends n) := by
  obtain ⟨among,most⟩ := foldl_later ends (List.range' 1 (n-1)) 0
  refine ⟨?_,?_⟩
  · rcases among with same | member
    · rw [latest,same]
      exact some
    · have range := List.mem_range'_1.mp member
      change latest ends n < n
      unfold latest
      omega
  · intro i inside
    refine most i ?_
    cases i with
    | zero => exact List.mem_cons_self
    | succ i => exact List.mem_cons_of_mem _ (List.mem_range'_1.mpr ⟨by omega,by omega⟩)

theorem index_inEdges (s : GraphTrace) : s.index.inEdges = indexed s.edges := by
  unfold index
  split
  · rfl
  · rename_i clean
    exact s.cached (Bool.eq_false_iff.mpr clean)

theorem foldl_binding (s : GraphTrace) (ends : Nat → Int) (es : List Nat) : ∀ b,
    es.foldl (fun best e =>
      match best with
      | none => some e
      | some b => some (later (fun e => ends (s.source e)) b e)) (some b) =
        some (es.foldl (later (fun e => ends (s.source e))) b) := by
  induction es with
  | nil => exact fun _ => rfl
  | cons e es ih => exact fun b => ih _

-- No incoming edge, or one whose source no other incoming edge's source outlasts.
theorem bindingEdge_cases (s : GraphTrace) (ends : Nat → Int) (cur : Nat) :
    s.bindingEdge ends cur = none ∧ s.inEdges cur = [] ∨
      ∃ e, s.bindingEdge ends cur = some e ∧ e ∈ s.inEdges cur ∧
        ∀ f ∈ s.inEdges cur, ends (s.source f) ≤ ends (s.source e) := by
  unfold bindingEdge
  cases into : s.inEdges cur with
  | nil => exact .inl ⟨rfl,rfl⟩
  | cons e es =>
    right
    obtain ⟨among,most⟩ := foldl_later (fun e => ends (s.source e)) es e
    refine ⟨_,foldl_binding s ends es e,?_,most⟩
    rcases among with same | member
    · rw [same]
      exact List.mem_cons_self
    · exact List.mem_cons_of_mem _ member

end GraphTrace
-- The edges a path comes along.
def pathSteps (path : List Nat) : List (Nat×Nat) := path.zip path.tail

theorem pathSteps_append (path : List Nat) (a b : Nat) : pathSteps (path++[a]++[b]) = pathSteps (path++[a])++[(a,b)] := by
  unfold pathSteps
  induction path with
  | nil => rfl
  | cons c path ih =>
    cases path with
    | nil => rfl
    | cons d path =>
      simp only [List.cons_append,List.tail_cons,List.zip_cons_cons,List.cons.injEq,true_and] at ih ⊢
      exact ih

section
variable (s : GraphTrace) (starts ends : Nat → Int)

-- `u` is a predecessor of `v`, and none of them ended later.
def GraphTrace.Binds (v u : Nat) : Prop := (u,v) ∈ s.edges ∧ ∀ x, (x,v) ∈ s.edges → ends x ≤ ends u

def duration (v : Nat) : Int := ends v-starts v

-- The walk on its way, having come from `first` to the node it enters next.
structure Walking (first : Nat) (w : ChainWalk) : Prop where
  edges : w.trace.edges = s.edges
  inEdges : w.trace.inEdges = indexed s.edges
  inside : ∀ v ∈ w.visited++[w.cur], v < s.nodeCount
  path : (w.visited++[w.cur]).IsChain (s.Binds ends)
  head : (w.visited++[w.cur]).head? = some first
  taken : w.bound.map (fun b => (s.edges[b.1]?,b.2)) =
    (pathSteps (w.visited++[w.cur])).map (fun step => (some (step.2,step.1),starts step.1-ends step.2))
  work : w.work = (w.visited.map (duration starts ends)).sum
  sum : w.work+(w.bound.map Prod.snd).sum = ends first-ends w.cur
  nodeRuns : ∀ v, w.trace.nodeRuns v = s.nodeRuns v+w.visited.count v
  edgeRuns : ∀ e, w.trace.edgeRuns e = s.edgeRuns e+(w.bound.map Prod.fst).count e
  edgeGaps : ∀ e, w.trace.edgeGaps e = s.edgeGaps e++(w.bound.filter (fun b => b.1 = e)).map Prod.snd
  critical : w.trace.criticalWork = s.criticalWork

-- The walk at its end.
structure Walked (first : Nat) (w : ChainWalk) : Prop where
  last : w.visited.getLast? = some w.cur
  root : ∀ x, (x,w.cur) ∉ s.edges
  inside : ∀ v ∈ w.visited, v < s.nodeCount
  path : w.visited.IsChain (s.Binds ends)
  head : w.visited.head? = some first
  taken : w.bound.map (fun b => (s.edges[b.1]?,b.2)) =
    (pathSteps w.visited).map (fun step => (some (step.2,step.1),starts step.1-ends step.2))
  work : w.work = (w.visited.map (duration starts ends)).sum
  sum : w.work+(w.bound.map Prod.snd).sum = ends first-starts w.cur
  nodeRuns : ∀ v, w.trace.nodeRuns v = s.nodeRuns v+w.visited.count v
  edgeRuns : ∀ e, w.trace.edgeRuns e = s.edgeRuns e+(w.bound.map Prod.fst).count e
  edgeGaps : ∀ e, w.trace.edgeGaps e = s.edgeGaps e++(w.bound.filter (fun b => b.1 = e)).map Prod.snd
  critical : w.trace.criticalWork = s.criticalWork

variable {s : GraphTrace} {starts ends : Nat → Int} {w : ChainWalk}

theorem Walking.mem_inEdges (walking : Walking s starts ends first w) (e v : Nat) :
    e ∈ w.trace.inEdges v ↔ ∃ u, s.edges[e]? = some (u,v) := by
  rw [walking.inEdges]
  exact mem_indexed s.edges e v

theorem Walking.source (walking : Walking s starts ends first w) (found : s.edges[e]? = some (u,v)) : w.trace.source e = u := by
  unfold GraphTrace.source
  rw [walking.edges,List.getD_eq_getElem?_getD,found]
  rfl

theorem enter_work (walking : Walking s starts ends first w) :
    (w.enter starts ends).work = ((w.visited++[w.cur]).map (duration starts ends)).sum := by
  rw [List.map_append,List.sum_append,← walking.work]
  change w.work+_ = _
  rw [List.map_singleton,List.sum_singleton]
  rfl

theorem enter_runs (walking : Walking s starts ends first w) (v : Nat) :
    (w.enter starts ends).trace.nodeRuns v = s.nodeRuns v+(w.visited++[w.cur]).count v := by
  change Function.update w.trace.nodeRuns w.cur (w.trace.nodeRuns w.cur+1) v = _
  rw [List.count_append,List.count_singleton]
  by_cases here : v = w.cur
  · rw [here,Function.update_self,walking.nodeRuns]
    simp [Nat.add_assoc]
  · have other : (w.cur == v) = false := beq_eq_false_iff_ne.mpr (Ne.symm here)
    rw [Function.update_of_ne here,walking.nodeRuns,other]
    rfl

theorem Walking.rests (walking : Walking s starts ends first w) (none_ : w.trace.inEdges w.cur = []) :
    Walked s starts ends first (w.enter starts ends) where
  last := List.getLast?_concat
  root := by
    intro x edge
    obtain ⟨e,found⟩ := List.getElem?_of_mem edge
    have member := (walking.mem_inEdges e w.cur).mpr ⟨x,found⟩
    rw [none_] at member
    cases member
  inside := walking.inside
  path := walking.path
  head := walking.head
  taken := walking.taken
  work := enter_work walking
  sum := by
    have sum := walking.sum
    change w.work+(ends w.cur-starts w.cur)+(w.bound.map Prod.snd).sum = ends first-starts w.cur
    omega
  nodeRuns := enter_runs walking
  edgeRuns := walking.edgeRuns
  edgeGaps := walking.edgeGaps
  critical := walking.critical

theorem Walking.goes (walking : Walking s starts ends first w) (member : e ∈ w.trace.inEdges w.cur)
    (most : ∀ f ∈ w.trace.inEdges w.cur, ends (w.trace.source f) ≤ ends (w.trace.source e))
    (bounded : ∀ edge ∈ s.edges, edge.1 < s.nodeCount) (ordered : ∀ edge ∈ s.edges, ends edge.1 ≤ starts edge.2) :
    Walking s starts ends first ((w.enter starts ends).bind starts ends e) := by
  obtain ⟨u,found⟩ := (walking.mem_inEdges e w.cur).mp member
  have from_ : w.trace.source e = u := walking.source found
  have edge : (u,w.cur) ∈ s.edges := List.mem_of_getElem? found
  have gap : max 0 (starts w.cur-ends (w.trace.source e)) = starts w.cur-ends u := by
    have before : ends u ≤ starts w.cur := ordered _ edge
    rw [from_]
    omega
  have binds : s.Binds ends w.cur u := by
    refine ⟨edge,?_⟩
    intro x other
    obtain ⟨f,there⟩ := List.getElem?_of_mem other
    have latest := most f ((walking.mem_inEdges f w.cur).mpr ⟨x,there⟩)
    rw [walking.source there,from_] at latest
    exact latest
  have bound : ((w.enter starts ends).bind starts ends e).bound = w.bound++[(e,starts w.cur-ends u)] := by
    change w.bound++[(e,max 0 (starts w.cur-ends (w.trace.source e)))] = _
    rw [gap]
  have cur : ((w.enter starts ends).bind starts ends e).cur = u := from_
  have path : ((w.enter starts ends).bind starts ends e).visited = w.visited++[w.cur] := rfl
  refine ⟨walking.edges,walking.inEdges,?_,?_,?_,?_,enter_work walking,?_,enter_runs walking,?_,?_,walking.critical⟩
  · rw [cur,path]
    intro v member
    rcases List.mem_append.mp member with old | new
    · exact walking.inside v old
    · rw [List.mem_singleton.mp new]
      exact bounded _ edge
  · rw [cur,path]
    refine List.isChain_append.mpr ⟨walking.path,List.isChain_singleton _,?_⟩
    intro x last y first
    rw [List.getLast?_concat] at last
    cases last
    cases first
    exact binds
  · rw [cur,path,List.head?_append,walking.head]
    rfl
  · rw [cur,path,bound,pathSteps_append,List.map_append,List.map_append,walking.taken,List.map_singleton,List.map_singleton]
    simp only [found]
  · rw [cur,bound,List.map_append,List.sum_append]
    have sum := walking.sum
    change w.work+(ends w.cur-starts w.cur)+((w.bound.map Prod.snd).sum+(starts w.cur-ends u+0)) = ends first-ends u
    omega
  · intro f
    change Function.update w.trace.edgeRuns e (w.trace.edgeRuns e+1) f = _
    rw [bound,List.map_append,List.count_append]
    by_cases here : f = e
    · rw [here,Function.update_self,walking.edgeRuns]
      simp [Nat.add_assoc]
    · have other : e ≠ f := Ne.symm here
      rw [Function.update_of_ne here,walking.edgeRuns]
      simp [other]
  · intro f
    change Function.update w.trace.edgeGaps e
      (w.trace.edgeGaps e++[max 0 (starts w.cur-ends (w.trace.source e))]) f = _
    rw [bound,gap,List.filter_append,List.map_append]
    by_cases here : f = e
    · rw [here,Function.update_self,walking.edgeGaps]
      simp
    · have other : e ≠ f := Ne.symm here
      rw [Function.update_of_ne here,walking.edgeGaps]
      simp [other]

-- A path that runs backwards along an acyclic relation meets no node twice.
theorem path_nodup (acyclic : ∀ v, ¬Relation.TransGen (fun u v => (u,v) ∈ s.edges) v v) {path : List Nat}
    (chain : path.IsChain (s.Binds ends)) : path.Nodup := by
  have backwards : path.IsChain (fun v u => Relation.TransGen (fun u v => (u,v) ∈ s.edges) u v) :=
    chain.imp (fun _ _ binds => .single binds.1)
  have trans : IsTrans Nat (fun v u => Relation.TransGen (fun u v => (u,v) ∈ s.edges) u v) :=
    ⟨fun _ _ _ one two => two.trans one⟩
  refine backwards.pairwise.imp ?_
  rintro v u back rfl
  exact acyclic v back

-- `left` more turns than there are nodes left are never needed.
theorem loop_ends (acyclic : ∀ v, ¬Relation.TransGen (fun u v => (u,v) ∈ s.edges) v v)
    (bounded : ∀ edge ∈ s.edges, edge.1 < s.nodeCount) (ordered : ∀ edge ∈ s.edges, ends edge.1 ≤ starts edge.2) (left : Nat) :
    ∀ {w}, Walking s starts ends first w → s.nodeCount ≤ w.visited.length+left →
      ∃ u, (∀ fuel, left ≤ fuel → w.loop starts ends fuel = some u) ∧ Walked s starts ends first u := by
  induction left with
  | zero =>
    intro w walking few
    have within : (w.visited++[w.cur]).Subperm (List.range s.nodeCount) :=
      List.subperm_of_subset (path_nodup acyclic walking.path) (fun v member => List.mem_range.mpr (walking.inside v member))
    have long := within.length_le
    rw [List.length_append,List.length_range,List.length_singleton] at long
    omega
  | succ left ih =>
    intro w walking few
    rcases GraphTrace.bindingEdge_cases w.trace ends w.cur with ⟨root,into⟩ | ⟨e,binding,member,most⟩
    · refine ⟨_,?_,walking.rests into⟩
      intro fuel enough
      obtain ⟨fuel,rfl⟩ := Nat.exists_eq_add_of_le' (show 1 ≤ fuel by omega)
      simp only [ChainWalk.loop,root]
    · have goes := walking.goes member most bounded ordered
      have further : s.nodeCount ≤ ((w.enter starts ends).bind starts ends e).visited.length+left := by
        change s.nodeCount ≤ (w.visited++[w.cur]).length+left
        rw [List.length_append,List.length_singleton]
        omega
      obtain ⟨u,runs,walked⟩ := ih goes further
      refine ⟨u,?_,walked⟩
      intro fuel enough
      obtain ⟨fuel,rfl⟩ := Nat.exists_eq_add_of_le' (show 1 ≤ fuel by omega)
      simp only [ChainWalk.loop,binding]
      exact runs fuel (by omega)

end

-- The chain a run has folded into the trace: from the node that ended last, back
-- along edges, each time to the predecessor that ended last, to a node without one.
-- The work, in ticks, and the gaps between fill the time from the last end to the
-- chain's first start.
structure MeasuredChain (s : GraphTrace) (starts ends : Nat → Int) (w : ChainWalk) : Prop where
  begins : ∃ first, w.visited.head? = some first ∧ first < s.nodeCount ∧ ∀ i, i < s.nodeCount → ends i ≤ ends first
  once : w.visited.Nodup
  path : w.visited.IsChain (s.Binds ends)
  root : ∃ last, w.visited.getLast? = some last ∧ ∀ x, (x,last) ∉ s.edges
  taken : w.bound.map (fun b => (s.edges[b.1]?,b.2)) =
    (pathSteps w.visited).map (fun step => (some (step.2,step.1),starts step.1-ends step.2))
  sum : ∀ first last, w.visited.head? = some first → w.visited.getLast? = some last →
    (w.visited.map (duration starts ends)).sum+(w.bound.map Prod.snd).sum = ends first-starts last
  makespan : ∀ begun done, (∀ i, i < s.nodeCount → begun ≤ starts i ∧ ends i ≤ done) →
    (w.visited.map (duration starts ends)).sum ≤ done-begun
  work : w.trace.criticalWork = s.criticalWork++[(w.visited.map (duration starts ends)).sum]
  nodeRuns : ∀ v, w.trace.nodeRuns v = s.nodeRuns v+w.visited.count v
  edgeRuns : ∀ e, w.trace.edgeRuns e = s.edgeRuns e+(w.bound.map Prod.fst).count e
  edgeGaps : ∀ e, w.trace.edgeGaps e = s.edgeGaps e++(w.bound.filter (fun b => b.1 = e)).map Prod.snd

section
variable {s : GraphTrace} {starts ends : Nat → Int} {w : ChainWalk}

theorem index_start (s : GraphTrace) (starts ends : Nat → Int) (inside : first < s.nodeCount) :
    Walking s starts ends first ⟨s.index,first,0,[],[]⟩ := by
  have same : s.index.edges = s.edges ∧ s.index.nodeRuns = s.nodeRuns ∧ s.index.edgeRuns = s.edgeRuns ∧
      s.index.edgeGaps = s.edgeGaps ∧ s.index.criticalWork = s.criticalWork := by
    unfold GraphTrace.index
    split <;> exact ⟨rfl,rfl,rfl,rfl,rfl⟩
  obtain ⟨edges,nodeRuns,edgeRuns,edgeGaps,critical⟩ := same
  refine ⟨edges,s.index_inEdges,?_,List.isChain_singleton _,rfl,rfl,rfl,?_,?_,?_,?_,critical⟩
  · intro v member
    rw [List.mem_singleton.mp member]
    exact inside
  · exact (Int.sub_self _).symm
  · intro v
    rw [nodeRuns]
    rfl
  · intro e
    rw [edgeRuns]
    rfl
  · intro e
    rw [edgeGaps]
    exact (List.append_nil _).symm

theorem gaps_nonneg (walked : Walked s starts ends first w) (ordered : ∀ edge ∈ s.edges, ends edge.1 ≤ starts edge.2) :
    0 ≤ (w.bound.map Prod.snd).sum := by
  refine List.sum_nonneg ?_
  intro gap member
  obtain ⟨b,bound,rfl⟩ := List.mem_map.mp member
  have step := List.mem_map_of_mem (f := fun b : Nat×Int => (s.edges[b.1]?,b.2)) bound
  rw [walked.taken] at step
  obtain ⟨⟨v,u⟩,-,same⟩ := List.mem_map.mp step
  simp only [Prod.mk.injEq] at same
  have before : ends u ≤ starts v := ordered _ (List.mem_of_getElem? same.1.symm)
  rw [← same.2]
  omega

end

-- For every acyclic edge set between the graph's nodes and all stamps that respect
-- it. As many turns as there are nodes are enough, and more change nothing.
theorem critical_chain_measured (s : GraphTrace) (starts ends : Nat → Int)
    (acyclic : ∀ v, ¬Relation.TransGen (fun u v => (u,v) ∈ s.edges) v v)
    (between : ∀ edge ∈ s.edges, edge.1 < s.nodeCount ∧ edge.2 < s.nodeCount)
    (ordered : ∀ edge ∈ s.edges, ends edge.1 ≤ starts edge.2) :
    ∃ w, (∀ fuel, s.nodeCount ≤ fuel → s.foldCriticalChain starts ends fuel = some w) ∧
      (s.nodeCount = 0 → w.trace = s) ∧ (0 < s.nodeCount → MeasuredChain s starts ends w) := by
  by_cases empty : s.nodeCount = 0
  · refine ⟨⟨s,0,0,[],[]⟩,?_,fun _ => rfl,fun some => by omega⟩
    intro fuel _
    exact if_pos empty
  · obtain ⟨inside,latest⟩ := GraphTrace.latest_spec ends (Nat.pos_of_ne_zero empty)
    obtain ⟨w,runs,walked⟩ := loop_ends acyclic (fun edge member => (between edge member).1) ordered s.nodeCount
      (index_start s starts ends inside) (by simp)
    refine ⟨{ w with trace := { w.trace with criticalWork := w.trace.criticalWork++[w.work] } },?_,fun none => absurd none empty,?_⟩
    · intro fuel enough
      unfold GraphTrace.foldCriticalChain
      rw [if_neg empty,runs fuel enough]
      rfl
    · intro _
      refine ⟨⟨_,walked.head,inside,latest⟩,path_nodup acyclic walked.path,walked.path,⟨_,walked.last,walked.root⟩,walked.taken,
        ?_,?_,?_,walked.nodeRuns,walked.edgeRuns,walked.edgeGaps⟩
      · intro first last head end_
        rw [walked.head] at head
        rw [walked.last] at end_
        cases head
        cases end_
        rw [← walked.work]
        exact walked.sum
      · intro begun done window
        have sum := walked.sum
        have gaps := gaps_nonneg walked ordered
        have early := (window w.cur (walked.inside _ (List.mem_of_getLast? walked.last))).1
        have late := (window _ inside).2
        rw [← walked.work]
        omega
      · rw [← walked.work,← walked.critical]

-- Two nodes before a third, the second of them the later to end.
def forked : GraphTrace := ((GraphTrace.fresh.beginStructure 3).addEdge 0 2).addEdge 1 2

def forkStarts (v : Nat) : Int := [0,1,5].getD v 0

def forkEnds (v : Nat) : Int := [3,4,9].getD v 0

theorem critical_chain_measured_fork :
    (forked.foldCriticalChain forkStarts forkEnds 3).map (fun w => (w.visited,w.bound,w.trace.criticalWork)) =
        some ([2,1],[(1,1)],[7]) ∧
      ∃ w, forked.foldCriticalChain forkStarts forkEnds 3 = some w ∧ MeasuredChain forked forkStarts forkEnds w := by
  have upward : ∀ u v, (u,v) ∈ forked.edges → u < v := by
    intro u v edge
    have known : (u,v) = (0,2) ∨ (u,v) = (1,2) := by simpa [forked,GraphTrace.addEdge,GraphTrace.beginStructure] using edge
    rcases known with same | same <;> cases same <;> decide
  obtain ⟨w,runs,-,measured⟩ := critical_chain_measured forked forkStarts forkEnds
    (WaitFor.acyclic_of_climbs id upward) (by decide) (by decide)
  exact ⟨rfl,w,runs 3 (Nat.le_refl 3),measured (by decide)⟩

end Macrame

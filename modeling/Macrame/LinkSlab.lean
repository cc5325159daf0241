import Mathlib.Algebra.GroupWithZero.Nat
import Macrame.Compile
import Macrame.Lending

namespace Macrame

-- A `Pipe_link` of a graph: the node of its owner block, its pipe, its place in
-- the node's cascade and its mode.
structure SlabLink where
  owner : Nat
  pipe : PipeId
  index : Nat
  mode : Access
  deriving DecidableEq, Repr

-- `node_links_`, with what every node's block has of it: where its links start
-- (none for null) and how many are bound.
structure Slab where
  nodeLinks : Nat → Option SlabLink := fun _ => none
  pipeLinks : Nat → Option Nat := fun _ => none
  pipeCount : Nat → Nat := fun _ => 0
  linksLent : Bool := false

namespace Tables

-- `pipe_indices` and `pipe_modes` of a node, in step.
def entries (t : Tables) (i : Nat) : List (Nat × Access) := (t.nodeIndices i).zip (t.nodeModes i)

def pipe (t : Tables) (index : Nat) : PipeId := t.distinctPipes.getD index 0

end Tables

namespace Slab

def write (s : Slab) (t : Tables) (owner offset bound : Nat) (entry : Nat × Access) : Slab :=
  {s with nodeLinks := Function.update s.nodeLinks (offset+bound) (some ⟨owner,t.pipe entry.1,bound%256,entry.2⟩)}

-- One node of the loop of `compile` over the slab; both loops carry the offset.
def compileNode (t : Tables) (acc : Slab × Nat) (i : Nat) : Slab × Nat :=
  let pointed := {acc.1 with
    pipeLinks := Function.update acc.1.pipeLinks i (if t.nodeIndices i = [] then none else some acc.2)}
  let filled := (t.entries i).zipIdx.foldl (fun s entry => s.write t i acc.2 entry.2 entry.1) pointed
  ({filled with pipeCount := Function.update filled.pipeCount i ((t.nodeIndices i).length%256)},
    acc.2+(t.nodeIndices i).length)

def compiled (t : Tables) (n : Nat) : Slab := ((List.range n).foldl (compileNode t) ({},0)).1

-- One entry and one node of the loops of `bind_links_for_run`.
def bindNext (t : Tables) (lent : Nat → Bool) (owner offset : Nat) (acc : Slab × Nat) (entry : Nat × Access) : Slab × Nat :=
  if lent entry.1 then acc else (acc.1.write t owner offset acc.2 entry,acc.2+1)

def bindNode (t : Tables) (lent : Nat → Bool) (acc : Slab × Nat) (i : Nat) : Slab × Nat :=
  let filled := (t.entries i).foldl (bindNext t lent i acc.2) (acc.1,0)
  ({filled.1 with
      pipeLinks := Function.update filled.1.pipeLinks i (if filled.2 = 0 then none else some acc.2)
      pipeCount := Function.update filled.1.pipeCount i (filled.2%256)},
    acc.2+(t.nodeIndices i).length)

end Slab

-- What a run brings to `bind_links_for_run`: its caller's context with the
-- epochs as they stand, `detach`, and whether the caller's scope is quiet.
structure RunCall where
  epochs : PipeId → Nat
  ctx : Option AccessContext
  detach : Bool
  quiet : Bool

namespace RunCall

def asked (call : RunCall) : Option AccessContext := if call.detach then none else call.ctx

def demand (t : Tables) (index : Nat) : Link := ⟨t.pipe index,t.pipeModes index⟩

-- `lent_`, a row for every numbered pipe.
def lent (build : Build) (t : Tables) (call : RunCall) (index : Nat) : Bool :=
  lends build call.epochs call.asked (demand t index)

def any (build : Build) (t : Tables) (call : RunCall) : Bool := (List.range t.distinctPipes.length).any (call.lent build t)

end RunCall

-- `bind_links_for_run`. With nothing lent now or last time the slab stays as it is.
def Slab.bindLinksForRun (build : Build) (t : Tables) (n : Nat) (s : Slab) (call : RunCall) : Except Fatal Slab :=
  let any := call.any build t
  if (List.range t.distinctPipes.length).any (fun i => refuses build call.epochs call.asked (RunCall.demand t i)) then
    .error .readLentToWriter
  else if build == .checked && any && !call.quiet then .error .scopeNotQuiet
  else if !any && !s.linksLent then .ok s
  else .ok {((List.range n).foldl (Slab.bindNode t (fun i => any && call.lent build t i)) (s,0)).1 with linksLent := any}

-- A compiled graph and its runs, each of which binds before anything else.
def slabSystem (build : Build) (t : Tables) (n : Nat) : Machines.Machine Slab RunCall where
  start s := s = Slab.compiled t n
  allowed s call := ∃ next, s.bindLinksForRun build t n call = .ok next
  apply s call := (s.bindLinksForRun build t n call).toOption.getD s

namespace Tables

-- Where a node's range of the slab starts.
def offset (t : Tables) (i : Nat) : Nat := ((List.range i).map (fun j => (t.nodeIndices j).length)).sum

def bound (t : Tables) (lent : Nat → Bool) (i : Nat) : List (Nat × Access) := (t.entries i).filter (fun entry => !lent entry.1)

end Tables

-- The links a node has bound: the entries that are not lent, packed at the
-- front of its own range.
structure Slab.Bound (t : Tables) (lent : Nat → Bool) (s : Slab) (i : Nat) : Prop where
  count : s.pipeCount i = (t.bound lent i).length
  start : s.pipeLinks i = if t.bound lent i = [] then none else some (t.offset i)
  links : ∀ k entry, (t.bound lent i)[k]? = some entry →
    s.nodeLinks (t.offset i+k) = some ⟨i,t.pipe entry.1,k,entry.2⟩
  within : (t.bound lent i).length ≤ (t.nodeIndices i).length

namespace Slab

-- A run of writes leaves everything else alone.
structure Fills (low high : Nat) (s u : Slab) : Prop where
  pipeLinks : u.pipeLinks = s.pipeLinks
  pipeCount : u.pipeCount = s.pipeCount
  linksLent : u.linksLent = s.linksLent
  aside : ∀ place, place < low ∨ high ≤ place → u.nodeLinks place = s.nodeLinks place

theorem bindNext_fold (t : Tables) (lent : Nat → Bool) (owner offset : Nat) (entries : List (Nat × Access)) (s : Slab) (bound : Nat) :
    let kept := entries.filter (fun entry => !lent entry.1)
    let filled := entries.foldl (bindNext t lent owner offset) (s,bound)
    filled.2 = bound+kept.length ∧ Fills (offset+bound) (offset+bound+kept.length) s filled.1 ∧
    ∀ k entry, kept[k]? = some entry →
      filled.1.nodeLinks (offset+(bound+k)) = some ⟨owner,t.pipe entry.1,(bound+k)%256,entry.2⟩ := by
  induction entries generalizing s bound with
  | nil => exact ⟨rfl,⟨rfl,rfl,rfl,fun _ _ => rfl⟩,fun k entry place => by simp at place⟩
  | cons entry rest ih =>
    by_cases skipped : lent entry.1 = true
    · have still : bindNext t lent owner offset (s,bound) entry = (s,bound) := if_pos skipped
      simp only [List.foldl_cons,still,List.filter_cons,skipped,Bool.not_true,Bool.false_eq_true,ite_false]
      exact ih s bound
    · have written : bindNext t lent owner offset (s,bound) entry = (s.write t owner offset bound entry,bound+1) :=
        if_neg skipped
      obtain ⟨count,fills,links⟩ := ih (s.write t owner offset bound entry) (bound+1)
      simp only [Bool.not_eq_true] at skipped
      simp only [List.foldl_cons,written,List.filter_cons,skipped,Bool.not_false,ite_true,List.length_cons]
      refine ⟨by rw [count]; omega,⟨fills.pipeLinks,fills.pipeCount,fills.linksLent,?_⟩,?_⟩
      · intro place apart
        rw [fills.aside place (by omega)]
        exact Function.update_of_ne (by omega) _ _
      · intro k found place
        cases k with
        | zero =>
          cases place
          rw [fills.aside _ (.inl (by omega))]
          exact Function.update_self _ _ _
        | succ k =>
          have later := links k found (by simpa using place)
          rw [show bound+(k+1) = bound+1+k by omega]
          exact later

-- Every entry has its mode, and a byte counts them.
def Sized (t : Tables) (i : Nat) : Prop := (t.nodeModes i).length = (t.nodeIndices i).length ∧ (t.nodeIndices i).length ≤ 255

theorem entries_length (sized : Sized t i) : (t.entries i).length = (t.nodeIndices i).length := by
  simp [Tables.entries,sized.1]

theorem bound_length (sized : Sized t i) (lent : Nat → Bool) : (t.bound lent i).length ≤ (t.nodeIndices i).length := by
  rw [← entries_length sized]
  exact List.length_filter_le _ _

theorem offset_succ (t : Tables) (i : Nat) : t.offset (i+1) = t.offset i+(t.nodeIndices i).length := by
  simp [Tables.offset,List.range_succ]

theorem offset_mono (t : Tables) (ordered : i ≤ j) : t.offset i ≤ t.offset j := by
  induction ordered with
  | refl => exact Nat.le_refl _
  | step _ ih => exact ih.trans (by rw [offset_succ]; omega)

theorem bindNode_own (lent : Nat → Bool) (sized : Sized t i) (s : Slab) :
    Bound t lent (bindNode t lent (s,t.offset i) i).1 i := by
  have within := bound_length sized lent
  have byte := sized.2
  obtain ⟨count,fills,links⟩ := bindNext_fold t lent i (t.offset i) (t.entries i) s 0
  refine ⟨?_,?_,?_,within⟩
  · simp only [bindNode,Function.update_self,count,Nat.zero_add]
    exact Nat.mod_eq_of_lt (by simp only [Tables.bound] at within; omega)
  · simp only [bindNode,Function.update_self,count,Nat.zero_add,List.length_eq_zero_iff]
    rfl
  · intro k entry place
    have short : k < (t.bound lent i).length := (List.getElem?_eq_some_iff.mp place).1
    have written := links k entry place
    rw [Nat.zero_add,Nat.mod_eq_of_lt (by omega)] at written
    exact written

theorem bindNode_aside (lent : Nat → Bool) (s : Slab) (bound : Bound t lent s i) (earlier : i < j) :
    Bound t lent (bindNode t lent (s,t.offset j) j).1 i := by
  obtain ⟨_,fills,_⟩ := bindNext_fold t lent j (t.offset j) (t.entries j) s 0
  have apart := offset_mono t (Nat.succ_le_of_lt earlier)
  rw [offset_succ] at apart
  refine ⟨?_,?_,?_,bound.within⟩
  · simp only [bindNode,Function.update_of_ne earlier.ne]
    rw [fills.pipeCount]
    exact bound.count
  · simp only [bindNode,Function.update_of_ne earlier.ne]
    rw [fills.pipeLinks]
    exact bound.start
  · intro k entry place
    have short : k < (t.bound lent i).length := (List.getElem?_eq_some_iff.mp place).1
    have within := bound.within
    rw [← bound.links k entry place]
    exact fills.aside _ (.inl (by omega))

theorem bindNodes_fold (lent : Nat → Bool) (sized : ∀ i, i < n → Sized t i) (s : Slab) (rows : Nat) (few : rows ≤ n) :
    ((List.range rows).foldl (bindNode t lent) (s,0)).2 = t.offset rows ∧
      ∀ i, i < rows → Bound t lent ((List.range rows).foldl (bindNode t lent) (s,0)).1 i := by
  induction rows with
  | zero => exact ⟨rfl,fun _ none_such => absurd none_such (Nat.not_lt_zero _)⟩
  | succ rows ih =>
    obtain ⟨offset,bound⟩ := ih (by omega)
    rw [List.range_succ,List.foldl_append,List.foldl_cons,List.foldl_nil]
    generalize (List.range rows).foldl (bindNode t lent) (s,0) = acc at offset bound
    obtain ⟨u,place⟩ := acc
    simp only at offset bound
    subst offset
    refine ⟨(offset_succ t rows).symm,?_⟩
    intro i within
    by_cases last : i = rows
    · subst last
      exact bindNode_own lent (sized i (by omega)) u
    · exact bindNode_aside lent u (bound i (by omega)) (by omega)

theorem compileEntries_fold (t : Tables) (owner offset : Nat) (entries : List (Nat × Access)) (s : Slab) (from_ : Nat) :
    (entries.zipIdx from_).foldl (fun s entry => s.write t owner offset entry.2 entry.1) s =
      (entries.foldl (bindNext t (fun _ => false) owner offset) (s,from_)).1 := by
  induction entries generalizing s from_ with
  | nil => rfl
  | cons entry rest ih =>
    rw [List.zipIdx_cons,List.foldl_cons,ih]
    rfl

theorem bindNext_pointed (t : Tables) (lent : Nat → Bool) (owner offset : Nat) (entries : List (Nat × Access))
    (s : Slab) (bound : Nat) (links : Nat → Option Nat) :
    entries.foldl (bindNext t lent owner offset) ({s with pipeLinks := links},bound) =
      ({(entries.foldl (bindNext t lent owner offset) (s,bound)).1 with pipeLinks := links},
        (entries.foldl (bindNext t lent owner offset) (s,bound)).2) := by
  induction entries generalizing s bound with
  | nil => rfl
  | cons entry rest ih =>
    simp only [List.foldl_cons,bindNext]
    split
    · exact ih s bound
    · exact ih (s.write t owner offset bound entry) (bound+1)

-- Where nothing is lent the two loops do the same.
theorem compileNode_eq (sized : Sized t i) (acc : Slab × Nat) : compileNode t acc i = bindNode t (fun _ => false) acc i := by
  obtain ⟨s,offset⟩ := acc
  obtain ⟨count,fills,_⟩ := bindNext_fold t (fun _ => false) i offset (t.entries i) s 0
  have all : (t.entries i).filter (fun _ => true) = t.entries i := List.filter_true _
  simp only [Bool.not_false,all,Nat.zero_add,entries_length sized] at count
  unfold compileNode bindNode
  simp only [compileEntries_fold,bindNext_pointed,count,fills.pipeLinks,List.length_eq_zero_iff]

theorem compiled_fold (sized : ∀ i, i < n → Sized t i) (rows : Nat) (few : rows ≤ n) (acc : Slab × Nat) :
    (List.range rows).foldl (compileNode t) acc = (List.range rows).foldl (bindNode t (fun _ => false)) acc := by
  induction rows with
  | zero => rfl
  | succ rows ih =>
    rw [List.range_succ,List.foldl_append,List.foldl_append,ih (by omega)]
    exact compileNode_eq (sized rows (by omega)) _

-- What holds of the slab between runs: a slab left by a run without lends is
-- bound in full.
def Sound (t : Tables) (n : Nat) (s : Slab) : Prop := s.linksLent = false → ∀ i, i < n → Bound t (fun _ => false) s i

theorem Bound.lift (bound : Bound t lent s i) (nodeLinks : u.nodeLinks = s.nodeLinks) (pipeLinks : u.pipeLinks = s.pipeLinks)
    (pipeCount : u.pipeCount = s.pipeCount) : Bound t lent u i :=
  ⟨by rw [pipeCount]; exact bound.count,by rw [pipeLinks]; exact bound.start,
    fun k entry place => by rw [nodeLinks]; exact bound.links k entry place,bound.within⟩

theorem Bound.alike (bound : Bound t lent s i) (same : ∀ entry ∈ t.entries i, other entry.1 = lent entry.1) : Bound t other s i := by
  have kept : t.bound other i = t.bound lent i := by
    unfold Tables.bound
    refine List.filter_congr ?_
    intro entry member
    rw [same entry member]
  exact ⟨by rw [kept]; exact bound.count,by rw [kept]; exact bound.start,
    fun k entry place => bound.links k entry (by rwa [kept] at place),by rw [kept]; exact bound.within⟩

theorem compiled_sound (sized : ∀ i, i < n → Sized t i) : Sound t n (compiled t n) := by
  intro _ i within
  unfold compiled
  rw [compiled_fold sized n (Nat.le_refl n)]
  exact (bindNodes_fold (fun _ => false) sized {} n (Nat.le_refl n)).2 i within

-- One run's binding: what its lends leave, whatever the slab held before.
theorem bind_bound (sized : ∀ i, i < n → Sized t i) (numbered : ∀ i, i < n → ∀ entry ∈ t.entries i, entry.1 < t.distinctPipes.length)
    (sound : Sound t n s) (bound : s.bindLinksForRun build t n call = .ok next) :
    Sound t n next ∧ ∀ i, i < n → Bound t (call.lent build t) next i := by
  unfold bindLinksForRun at bound
  simp only at bound
  split at bound
  · cases bound
  split at bound
  · cases bound
  split at bound
  · rename_i still
    cases bound
    simp only [Bool.and_eq_true,Bool.not_eq_true'] at still
    refine ⟨sound,?_⟩
    intro i within
    refine (sound still.2 i within).alike ?_
    intro entry member
    have none_lent := still.1
    simp only [RunCall.any,List.any_eq_false,List.mem_range,Bool.not_eq_true] at none_lent
    exact none_lent entry.1 (numbered i within entry member)
  · cases bound
    have filled := (bindNodes_fold (fun i => call.any build t && call.lent build t i) sized s n (Nat.le_refl n)).2
    refine ⟨?_,?_⟩
    · intro none_lent i within
      simp only at none_lent
      refine ((filled i within).alike ?_).lift rfl rfl rfl
      intro entry _
      simp [none_lent]
    · intro i within
      refine ((filled i within).alike ?_).lift rfl rfl rfl
      intro entry member
      cases lent : call.lent build t entry.1 with
      | false => simp
      | true =>
        have some_lent : call.any build t = true :=
          List.any_eq_true.mpr ⟨entry.1,List.mem_range.mpr (numbered i within entry member),lent⟩
        simp [some_lent]

-- Whether a run may bind is not the slab's to say.
theorem bind_accepts (s u : Slab) (bound : s.bindLinksForRun build t n call = .ok next) :
    ∃ fresh, u.bindLinksForRun build t n call = .ok fresh := by
  unfold bindLinksForRun at bound ⊢
  simp only at bound ⊢
  by_cases refused : (List.range t.distinctPipes.length).any
      (fun i => refuses build call.epochs call.asked (RunCall.demand t i)) = true
  · simp [refused] at bound
  · by_cases noisy : (build == .checked && call.any build t && !call.quiet) = true
    · simp [refused,noisy] at bound
    · simp only [refused,noisy,Bool.false_eq_true,ite_false]
      split <;> exact ⟨_,rfl⟩

end Slab

namespace Graph

theorem compile_tables {g : Graph} (accepted : g.compile = some t) : t = g.tables := by
  simp only [compile] at accepted
  split at accepted
  · cases accepted
  · exact (Option.some.inj accepted).symm

theorem tables_entries (g : Graph) {i : Nat} {node : Node} (here : g.nodes[i]? = some node) : g.tables.entries i = modeByPipe g.pipeSet node := by
  unfold Tables.entries
  rw [(g.tables_row here).1,(g.tables_row here).2]
  exact (List.zip_of_prod rfl rfl).symm

theorem tables_sized (g : Graph) (i : Nat) (within : i < g.size) : Slab.Sized g.tables i ∧
    ∀ entry ∈ g.tables.entries i, entry.1 < g.tables.distinctPipes.length := by
  have here : g.nodes[i]? = some (g.nodes[i]) := List.getElem?_eq_getElem within
  obtain ⟨indices,modes⟩ := g.tables_row here
  refine ⟨⟨by rw [indices,modes]; simp,?_⟩,?_⟩
  · have short := SortedSet.collect_length Prod.fst
      ((g.nodes[i]).access.map (fun link => (g.pipeSet.idxOf link.pipe,link.mode))) []
    have counted := (g.nodes[i]).counted
    rw [indices,List.length_map]
    simp only [List.length_map,List.length_nil] at short
    exact short.trans (by omega)
  · rintro ⟨index,mode⟩ member
    rw [g.tables_entries here] at member
    obtain ⟨link,declared,rfl,_⟩ := ((modeByPipe_entries _ g.pipeSet (g.declared_pipes here)).2 index mode).mp member
    rw [g.tables_pipes]
    exact List.idxOf_lt_length_of_mem (g.declared_pipes here link declared)

end Graph

-- After any runs whatever, a run binds what its own lends leave, and just that
-- is what the slab of a newly compiled graph would have been bound to.
theorem rebinding_history_free {g : Graph} (accepted : g.compile = some t)
    (path : Machines.Reached (slabSystem build t g.size) s)
    (bound : s.bindLinksForRun build t g.size call = .ok next) :
    ∃ fresh, (Slab.compiled t g.size).bindLinksForRun build t g.size call = .ok fresh ∧
      ∀ i, i < g.size → next.Bound t (call.lent build t) i ∧
        next.pipeCount i = fresh.pipeCount i ∧ next.pipeLinks i = fresh.pipeLinks i ∧
        ∀ k, k < next.pipeCount i → next.nodeLinks (t.offset i+k) = fresh.nodeLinks (t.offset i+k) := by
  have same := g.compile_tables accepted
  subst same
  have sized : ∀ i, i < g.size → Slab.Sized g.tables i := fun i within => (g.tables_sized i within).1
  have numbered := fun i within => (g.tables_sized i within).2
  have sound : Slab.Sound g.tables g.size s := by
    refine Machines.reached_invariant (Slab.Sound g.tables g.size) ?_ ?_ path
    · rintro s rfl
      exact Slab.compiled_sound sized
    · rintro s call sound ⟨next,bound⟩
      have applied : (slabSystem build g.tables g.size).apply s call = next := by
        simp [slabSystem,bound,Except.toOption]
      rw [applied]
      exact (Slab.bind_bound sized numbered sound bound).1
  obtain ⟨fresh,again⟩ := Slab.bind_accepts s (Slab.compiled g.tables g.size) bound
  refine ⟨fresh,again,?_⟩
  intro i within
  have here := (Slab.bind_bound sized numbered sound bound).2 i within
  have there := (Slab.bind_bound sized numbered (Slab.compiled_sound sized) again).2 i within
  refine ⟨here,here.count.trans there.count.symm,here.start.trans there.start.symm,?_⟩
  intro k short
  rw [here.count] at short
  have place := List.getElem?_eq_getElem short
  exact (here.links k _ place).trans (there.links k _ place).symm

def slabGraph : Graph where
  nodes := [⟨[⟨3,.readWrite⟩,⟨1,.readOnly⟩],by decide,by decide⟩,⟨[⟨3,.readWrite⟩],by decide,by decide⟩]

-- Nested under a task that holds the lower object, then on its own.
def slabRuns : RunCall × RunCall :=
  (⟨fun _ => 0,some ⟨[⟨1,.readWrite,none,0,0⟩],by decide⟩,false,true⟩,⟨fun _ => 0,none,false,true⟩)

theorem rebinding_history_free_lent :
    let start := Slab.compiled slabGraph.tables slabGraph.size
    let lent := (slabSystem .shipping slabGraph.tables slabGraph.size).apply start slabRuns.1
    lent.pipeCount 0 = 1 ∧ lent.nodeLinks 0 = some ⟨0,3,0,.readWrite⟩ ∧
      ∃ next, lent.bindLinksForRun .shipping slabGraph.tables slabGraph.size slabRuns.2 = .ok next ∧
        next.pipeCount 0 = 2 ∧ next.Bound slabGraph.tables (slabRuns.2.lent .shipping slabGraph.tables) 0 := by
  intro start lent
  refine ⟨by decide +kernel,by decide +kernel,_,rfl,by decide +kernel,?_⟩
  have accepted : slabGraph.compile = some slabGraph.tables := rfl
  have path : Machines.Reached (slabSystem .shipping slabGraph.tables slabGraph.size) lent :=
    .step (.start rfl) ⟨_,rfl⟩
  have bound : lent.bindLinksForRun .shipping slabGraph.tables slabGraph.size slabRuns.2 = .ok _ := rfl
  obtain ⟨_,_,same⟩ := rebinding_history_free accepted path bound
  exact (same 0 (by decide)).1

namespace Graph

-- The links of the tables are those that `nodeLinks` sorts, and a row of
-- `lent_` says what `lentTo` says of the pipe.
theorem tables_links (g : Graph) (i : Nat) (within : i < g.size) :
    (g.tables.entries i).map (fun entry => ⟨g.tables.pipe entry.1,entry.2⟩) = (g.nodeLinks i).entries := by
  have here : g.nodes[i]? = some (g.nodes[i]) := List.getElem?_eq_getElem within
  generalize g.nodes[i] = node at here
  have known := g.declared_pipes here
  obtain ⟨ascending,entries⟩ := modeByPipe_entries node g.pipeSet known
  have pipe : ∀ p ∈ g.pipeSet, g.tables.pipe (g.pipeSet.idxOf p) = p := by
    intro p touched
    have short := List.idxOf_lt_length_of_mem touched
    simp only [Tables.pipe,g.tables_pipes]
    rw [List.getD_eq_getElem?_getD,List.getElem?_eq_getElem short,List.getElem_idxOf]
    rfl
  rw [g.tables_entries here]
  have links : g.nodeLinks i = .sorted node.access node.distinct node.counted := by simp only [nodeLinks,here]
  have climbs : ∀ a b, a < b → b < g.pipeSet.length → g.tables.pipe a < g.tables.pipe b := by
    intro a b less short
    simp only [Tables.pipe,g.tables_pipes]
    rw [List.getD_eq_getElem?_getD,List.getD_eq_getElem?_getD,List.getElem?_eq_getElem short,
      List.getElem?_eq_getElem (less.trans short)]
    exact List.pairwise_iff_getElem.mp g.pipeSet_ascending a b _ _ less
  have canonical : SortedSet.Ascending Link.pipe (g.nodeLinks i).entries := (g.nodeLinks i).canonical
  refine SortedSet.Ascending.unique ?_ canonical ?_
  · refine List.pairwise_map.mpr ((List.pairwise_map.mp ascending).imp_of_mem ?_)
    rintro ⟨a,m⟩ ⟨b,l⟩ _ member less
    obtain ⟨link,declared,rfl,_⟩ := (entries b l).mp member
    exact climbs a _ less (List.idxOf_lt_length_of_mem (known link declared))
  · intro link
    rw [links,LinkTable.mem_sorted,List.mem_map]
    constructor
    · rintro ⟨⟨index,mode⟩,member,rfl⟩
      obtain ⟨link,declared,rfl,rfl⟩ := (entries index mode).mp member
      simp only [pipe _ (known link declared)]
      exact declared
    · intro declared
      refine ⟨(g.pipeSet.idxOf link.pipe,link.mode),(entries _ _).mpr ⟨link,declared,rfl,rfl⟩,?_⟩
      simp only [pipe _ (known link declared)]

theorem tables_lent (g : Graph) (call : RunCall) (within : i < g.size) (member : entry ∈ g.tables.entries i) :
    call.lent build g.tables entry.1 = lentTo build call.epochs g call.asked (g.tables.pipe entry.1) := by
  have here : g.nodes[i]? = some (g.nodes[i]) := List.getElem?_eq_getElem within
  rw [g.tables_entries here] at member
  obtain ⟨index,mode⟩ := entry
  obtain ⟨link,declared,rfl,_⟩ := ((modeByPipe_entries _ g.pipeSet (g.declared_pipes here)).2 index mode).mp member
  have touched := g.declared_pipes here link declared
  have pipe : g.tables.pipe (g.pipeSet.idxOf link.pipe) = link.pipe := by
    simp only [Tables.pipe,g.tables_pipes]
    rw [List.getD_eq_getElem?_getD,List.getElem?_eq_getElem (List.idxOf_lt_length_of_mem touched),List.getElem_idxOf]
    rfl
  have wanted : RunCall.demand g.tables (g.pipeSet.idxOf link.pipe) = ⟨link.pipe,g.pipeMode link.pipe⟩ := by
    have mode := g.tables_pipeModes touched
    rw [g.tables_pipes] at mode
    simp only [RunCall.demand,pipe,mode]
  have demanded : (⟨link.pipe,g.pipeMode link.pipe⟩ : Link) ∈ g.demands :=
    (mem_demands g _).mpr ⟨by rw [← g.pipeSet_eq]; exact touched,rfl⟩
  unfold RunCall.lent
  simp only [wanted,pipe]
  exact Bool.eq_iff_iff.mpr (lentTo_iff demanded).symm

end Graph

-- So the slab holds the links that the runs of the graphs are modelled with.
theorem slab_refines {g : Graph} {call : RunCall} {s : Slab} {last binding : Binding} (sound : Binding.Sound g last) (within : i < g.size)
    (binds : bindLinksForRun build call.epochs g call.ctx call.detach call.quiet last = .ok binding)
    (bound : s.Bound g.tables (call.lent build g.tables) i) :
    s.pipeCount i = (binding.links i).count ∧ ∀ k link, (binding.links i).entries[k]? = some link →
      s.nodeLinks (g.tables.offset i+k) = some ⟨i,link.pipe,k,link.mode⟩ := by
  have kept : (g.tables.bound (call.lent build g.tables) i).map (fun entry => ⟨g.tables.pipe entry.1,entry.2⟩) =
      (binding.links i).entries := by
    rw [(bindLinksForRun_links sound binds).2 i,← g.tables_links i within,List.filter_map]
    unfold Tables.bound
    refine congrArg _ (List.filter_congr ?_)
    intro entry member
    rw [g.tables_lent call within member]
    rfl
  refine ⟨?_,?_⟩
  · rw [bound.count,LinkTable.count,← kept,List.length_map]
  · intro k link place
    rw [← kept,List.getElem?_map] at place
    obtain ⟨entry,there,rfl⟩ := Option.map_eq_some_iff.mp place
    exact bound.links k entry there

end Macrame

import Mathlib.Data.Finset.Card
import Mathlib.Data.Finset.Range
import Mathlib.Data.Fintype.EquivFin
import Mathlib.Order.WellFounded
import Mathlib.Logic.Relation
import Macrame.Lib.Commutation

namespace Kahn

-- Kahn's algorithm on the nodes below `n`: a queue of nodes without open
-- predecessors, emptied in order, each visit lowering its successors' counts.
structure Work where
  indegree : Nat → Int
  ready : List Nat
  visited : List Nat

def lower (w : Work) (s : Nat) : Work :=
  let left := w.indegree s-1
  {w with indegree := Function.update w.indegree s left,ready := if left = 0 then w.ready++[s] else w.ready}

def visit (successors : Nat → List Nat) (w : Work) : Work :=
  match w.ready with
  | [] => w
  | v :: rest => (successors v).foldl lower {w with ready := rest,visited := w.visited++[v]}

def begin (n : Nat) (indegree : Nat → Int) : Work := ⟨indegree,(List.range n).filter (indegree · == 0),[]⟩

def loop (successors : Nat → List Nat) : Nat → Work → Work
  | 0,w => w
  | fuel+1,w => loop successors fuel (visit successors w)

theorem lowered (w : Work) (targets : List Nat) (distinct : targets.Nodup) :
    targets.foldl lower w = {w with
      indegree := fun s => w.indegree s-if s ∈ targets then 1 else 0,
      ready := w.ready++targets.filter (w.indegree · == 1)} := by
  induction targets generalizing w with
  | nil => simp
  | cons t rest ih =>
    obtain ⟨fresh,distinct⟩ := List.nodup_cons.mp distinct
    rw [List.foldl_cons,ih _ distinct]
    have later : rest.filter ((lower w t).indegree · == 1) = rest.filter (w.indegree · == 1) := by
      refine List.filter_congr ?_
      intro s member
      have apart : s ≠ t := by rintro rfl; exact fresh member
      simp [lower,apart]
    rw [later]
    simp only [lower,Work.mk.injEq,and_true]
    refine ⟨?_,?_⟩
    · funext s
      by_cases here : s = t
      · subst here; simp [fresh]
      · simp [here]
    · by_cases last : w.indegree t = 1
      · simp [last]
      · have open_yet : ¬ w.indegree t-1 = 0 := by omega
        simp [last,open_yet]

section Sound

variable (n : Nat) (edge : Nat → Nat → Bool)

def successors (v : Nat) : List Nat := (List.range n).filter (edge v ·)

-- The predecessors of `s` that are not in `done`.
def openBefore (done : List Nat) (s : Nat) : Finset Nat := (Finset.range n).filter (fun i => edge i s = true ∧ i ∉ done)

structure Sound (w : Work) : Prop where
  distinct : (w.visited++w.ready).Nodup
  bounded : ∀ s ∈ w.visited++w.ready, s < n
  counts : ∀ s, s < n → w.indegree s = (openBefore n edge w.visited s).card
  settled : ∀ s, s < n → (s ∈ w.visited++w.ready ↔ w.indegree s = 0)
  ordered : Commutation.Respects (fun a b => edge a b = true) w.visited
  loopless : ∀ s ∈ w.visited, edge s s = false

-- An order of all nodes that goes along the edges; a node before itself has none.
structure Topological (order : List Nat) : Prop where
  all : order.Perm (List.range n)
  ordered : Commutation.Respects (fun a b => edge a b = true) order
  loopless : ∀ s ∈ order, edge s s = false

variable {n edge}

theorem Sound.closed (sound : Sound n edge w) (member : s ∈ w.visited++w.ready) (below : i < n) (arc : edge i s = true) :
    i ∈ w.visited := by
  have within := sound.bounded s member
  have none_open := (sound.settled s within).mp member
  rw [sound.counts s within] at none_open
  have empty := Finset.card_eq_zero.mp (by exact_mod_cast none_open)
  by_contra outside
  have opened : i ∈ openBefore n edge w.visited s := by simp [openBefore,below,arc,outside]
  rw [empty] at opened
  simp at opened

theorem openBefore_visit (fresh : v ∉ done) (below : v < n) (s : Nat) :
    ((openBefore n edge (done++[v]) s).card : Int) =
      (openBefore n edge done s).card-if edge v s = true then 1 else 0 := by
  have fewer : openBefore n edge (done++[v]) s = (openBefore n edge done s).erase v := by
    ext i
    simp only [openBefore,Finset.mem_filter,Finset.mem_range,Finset.mem_erase,List.mem_append,List.mem_singleton]
    tauto
  rw [fewer]
  by_cases arc : edge v s = true
  · have member : v ∈ openBefore n edge done s := by simp [openBefore,below,arc,fresh]
    have positive : 0 < (openBefore n edge done s).card := Finset.card_pos.mpr ⟨v,member⟩
    rw [Finset.card_erase_of_mem member,if_pos arc]
    omega
  · have outside : v ∉ openBefore n edge done s := by simp [openBefore,arc]
    rw [Finset.erase_eq_of_notMem outside,if_neg arc]
    simp

theorem visit_sound (sound : Sound n edge w) : Sound n edge (visit (successors n edge) w) := by
  unfold visit
  cases queue : w.ready with
  | nil => exact sound
  | cons v rest =>
    obtain ⟨distinct,bounded,counts,settled,ordered,loopless⟩ := sound
    have closed : Sound n edge w := ⟨distinct,bounded,counts,settled,ordered,loopless⟩
    have queued : v ∈ w.visited++w.ready := by simp [queue]
    rw [queue] at distinct bounded settled
    have below : v < n := bounded v (by simp)
    have fresh : v ∉ w.visited := fun seen => List.disjoint_of_nodup_append distinct seen List.mem_cons_self
    have once : (successors n edge v).Nodup := List.nodup_range.filter _
    simp only [lowered _ _ once]
    have listed : ∀ s, s ∈ successors n edge v ↔ s < n ∧ edge v s = true := by simp [successors]
    have appended : (w.visited++[v])++rest = w.visited++v :: rest := by simp
    have later : ∀ s, s < n → (s ∈ (successors n edge v).filter (w.indegree · == 1) ↔ edge v s = true ∧ w.indegree s = 1) := by
      intro s within
      simp [listed,within]
    -- a node with an open predecessor has not been queued yet
    have unqueued : ∀ s, s < n → w.indegree s = 1 → s ∉ w.visited++v :: rest := by
      intro s within one member
      rw [(settled s within).mp member] at one
      cases one
    refine ⟨?_,?_,?_,?_,?_,?_⟩
    · simp only [← List.append_assoc,appended]
      refine List.nodup_append'.mpr ⟨distinct,once.filter _,?_⟩
      intro s member fired
      have within := bounded s member
      exact unqueued s within ((later s within).mp fired).2 member
    · simp only [← List.append_assoc,appended]
      intro s member
      rcases List.mem_append.mp member with earlier | fired
      · exact bounded s earlier
      · exact ((listed s).mp (List.mem_of_mem_filter fired)).1
    · intro s within
      simp only [openBefore_visit fresh below,listed,within,true_and,counts s within]
    · intro s within
      simp only [← List.append_assoc,appended,List.mem_append (t := (successors n edge v).filter _),
        later s within,settled s within,listed,within,true_and]
      have none_left : (0 : Int) ≤ (openBefore n edge (w.visited++[v]) s).card := Int.natCast_nonneg _
      rw [openBefore_visit fresh below,← counts s within] at none_left
      by_cases arc : edge v s = true
      · simp only [arc,if_true,true_and] at none_left ⊢
        omega
      · simp [arc]
    · refine List.pairwise_append.mpr ⟨ordered,List.pairwise_singleton _ _,?_⟩
      intro s seen u here
      rw [List.mem_singleton.mp here]
      intro arc
      exact fresh (closed.closed (List.mem_append_left _ seen) below arc)
    · intro s member
      rcases List.mem_append.mp member with earlier | here
      · exact loopless s earlier
      · rw [List.mem_singleton.mp here]
        by_contra self
        exact fresh (closed.closed queued below (by simpa using self))

theorem begin_sound {indegree : Nat → Int} (counts : ∀ s, s < n → indegree s = (openBefore n edge [] s).card) :
    Sound n edge (begin n indegree) := by
  refine ⟨List.nodup_range.filter _,?_,counts,?_,List.Pairwise.nil,by simp [begin]⟩
  · intro s member
    exact List.mem_range.mp (List.mem_of_mem_filter member)
  · intro s within
    simp [begin,within]

theorem loop_sound (sound : Sound n edge w) (fuel : Nat) : Sound n edge (loop (successors n edge) fuel w) := by
  induction fuel generalizing w with
  | zero => exact sound
  | succ fuel ih => exact ih (visit_sound sound)

theorem Sound.short (sound : Sound n edge w) : w.visited.length+w.ready.length ≤ n := by
  rw [← List.length_append,← List.toFinset_card_of_nodup sound.distinct,← Finset.card_range n]
  refine Finset.card_le_card ?_
  intro s member
  exact Finset.mem_range.mpr (sound.bounded s (List.mem_toFinset.mp member))

theorem visit_length {w : Work} (waiting : w.ready ≠ []) :
    (visit (successors n edge) w).visited.length = w.visited.length+1 := by
  unfold visit
  cases queue : w.ready with
  | nil => exact absurd queue waiting
  | cons v rest =>
    have once : (successors n edge v).Nodup := List.nodup_range.filter _
    simp only [lowered _ _ once,List.length_append,List.length_singleton]

theorem loop_empty (empty : w.ready = []) (fuel : Nat) : loop (successors n edge) fuel w = w := by
  induction fuel with
  | zero => rfl
  | succ fuel ih =>
    have still : visit (successors n edge) w = w := by simp [visit,empty]
    rw [loop,still,ih]

-- As much fuel as there are nodes empties the queue: every visit takes one
-- node off the at most `n` that can ever be queued.
theorem loop_done (sound : Sound n edge w) (enough : n ≤ w.visited.length+fuel) :
    (loop (successors n edge) fuel w).ready = [] := by
  induction fuel generalizing w with
  | zero =>
    have short := sound.short
    exact List.length_eq_zero_iff.mp (by simp only [loop]; omega)
  | succ fuel ih =>
    by_cases empty : w.ready = []
    · rw [loop_empty empty]; exact empty
    · have one : (visit (successors n edge) w).visited.length = w.visited.length+1 := visit_length empty
      exact ih (visit_sound sound) (by omega)

-- The first nodes of such an order, however far it has come: with a node
-- stand all its predecessors, in front of it.
structure Begun (n : Nat) (edge : Nat → Nat → Bool) (done : List Nat) : Prop where
  distinct : done.Nodup
  bounded : ∀ s ∈ done, s < n
  ordered : Commutation.Respects (fun a b => edge a b = true) done
  loopless : ∀ s ∈ done, edge s s = false
  closed : ∀ s ∈ done, ∀ i, i < n → edge i s = true → i ∈ done

theorem begun_next : Begun n edge (done++[v]) ↔
    Begun n edge done ∧ v < n ∧ v ∉ done ∧ openBefore n edge done v = ∅ := by
  constructor
  · rintro ⟨distinct,bounded,ordered,loopless,closed⟩
    obtain ⟨earlier,_,apart⟩ := List.nodup_append'.mp distinct
    obtain ⟨leads,_,last⟩ := List.pairwise_append.mp ordered
    have fresh : v ∉ done := fun seen => apart seen (List.mem_singleton_self v)
    have below : v < n := bounded v (by simp)
    have single : edge v v = false := loopless v (by simp)
    refine ⟨⟨earlier,fun s m => bounded s (by simp [m]),leads,fun s m => loopless s (by simp [m]),?_⟩,below,fresh,?_⟩
    · intro s member i within arc
      rcases List.mem_append.mp (closed s (by simp [member]) i within arc) with before | here
      · exact before
      · rw [List.mem_singleton] at here
        exact absurd (by rwa [← here]) (last s member v (by simp))
    · refine Finset.filter_eq_empty_iff.mpr ?_
      rintro i inside ⟨arc,unseen⟩
      rcases List.mem_append.mp (closed v (by simp) i (Finset.mem_range.mp inside) arc) with before | here
      · exact unseen before
      · rw [List.mem_singleton.mp here,single] at arc; cases arc
  · rintro ⟨⟨distinct,bounded,ordered,loopless,closed⟩,below,fresh,free⟩
    have ahead : ∀ i, i < n → edge i v = true → i ∈ done := by
      intro i within arc
      by_contra unseen
      exact Finset.filter_eq_empty_iff.mp free (Finset.mem_range.mpr within) ⟨arc,unseen⟩
    refine ⟨?_,?_,?_,?_,?_⟩
    · refine List.nodup_append'.mpr ⟨distinct,List.nodup_singleton v,?_⟩
      intro s seen here
      rw [List.mem_singleton.mp here] at seen
      exact fresh seen
    · intro s member
      rcases List.mem_append.mp member with before | here
      · exact bounded s before
      · rw [List.mem_singleton.mp here]; exact below
    · refine List.pairwise_append.mpr ⟨ordered,List.pairwise_singleton _ _,?_⟩
      intro s seen u here arc
      rw [List.mem_singleton.mp here] at arc
      exact fresh (closed s seen v below arc)
    · intro s member
      rcases List.mem_append.mp member with before | here
      · exact loopless s before
      · rw [List.mem_singleton.mp here]
        by_contra self
        exact fresh (ahead v below (by simpa using self))
    · intro s member i within arc
      rcases List.mem_append.mp member with before | here
      · exact List.mem_append_left _ (closed s before i within arc)
      · rw [List.mem_singleton.mp here] at arc
        exact List.mem_append_left _ (ahead i within arc)

theorem begun_all : Begun n edge order ∧ order.length = n ↔ Topological n edge order := by
  constructor
  · rintro ⟨⟨distinct,bounded,ordered,loopless,_⟩,all⟩
    have within : order ⊆ List.range n := fun s member => List.mem_range.mpr (bounded s member)
    have filled : order.Subperm (List.range n) := List.subperm_of_subset distinct within
    exact ⟨filled.perm_of_length_le (by simp [all]),ordered,loopless⟩
  · rintro ⟨all,ordered,loopless⟩
    refine ⟨⟨all.nodup_iff.mpr List.nodup_range,?_,ordered,loopless,?_⟩,by simpa using all.length_eq⟩
    · intro s member
      exact List.mem_range.mp (all.subset member)
    · intro s _ i within _
      exact all.symm.subset (List.mem_range.mpr within)

theorem Sound.begun (sound : Sound n edge w) : Begun n edge w.visited where
  distinct := (List.nodup_append'.mp sound.distinct).1
  bounded s member := sound.bounded s (List.mem_append_left _ member)
  ordered := sound.ordered
  loopless := sound.loopless
  closed _ member _ within arc := sound.closed (List.mem_append_left _ member) within arc

theorem split_first {holds : α → Prop} {list : List α} (some_there : ∃ x ∈ list, holds x) :
    ∃ ahead x behind, list = ahead++x :: behind ∧ holds x ∧ ∀ y ∈ ahead, ¬ holds y := by
  induction list with
  | nil => obtain ⟨x,member,_⟩ := some_there; cases member
  | cons a rest ih =>
    by_cases here : holds a
    · exact ⟨[],a,rest,rfl,here,by simp⟩
    · obtain ⟨x,member,there⟩ := some_there
      have behind : x ∈ rest := by
        rcases List.mem_cons.mp member with rfl | later
        · exact absurd there here
        · exact later
      obtain ⟨ahead,y,tail,rfl,found,none_before⟩ := ih ⟨x,behind,there⟩
      exact ⟨a :: ahead,y,tail,rfl,found,List.forall_mem_cons.mpr ⟨here,none_before⟩⟩

-- Among some nodes there is one none of whose predecessors is among them.
theorem Topological.first (topological : Topological n edge order) (holds : Nat → Prop) (some_there : ∃ j, j < n ∧ holds j) :
    ∃ j, j < n ∧ holds j ∧ ∀ i, i < n → edge i j = true → ¬ holds i := by
  have listed : ∃ x ∈ order, holds x := by
    obtain ⟨j,below,here⟩ := some_there
    exact ⟨j,topological.all.symm.subset (List.mem_range.mpr below),here⟩
  obtain ⟨ahead,j,behind,split,here,none_before⟩ := split_first listed
  have member : j ∈ order := by rw [split]; simp
  refine ⟨j,List.mem_range.mp (topological.all.subset member),here,?_⟩
  intro i below arc
  have known : i ∈ order := topological.all.symm.subset (List.mem_range.mpr below)
  rw [split] at known
  rcases List.mem_append.mp known with before | later
  · exact none_before i before
  · rcases List.mem_cons.mp later with rfl | after
    · rw [topological.loopless i member] at arc; cases arc
    · have leads := topological.ordered
      rw [split] at leads
      exact absurd arc ((List.pairwise_cons.mp (List.pairwise_append.mp leads).2.1).1 i after)

-- And where such an order exists the emptied queue has visited all: the first
-- node left out would have only visited predecessors.
theorem Sound.complete (sound : Sound n edge w) (empty : w.ready = []) (topological : Topological n edge order) :
    w.visited.length = n := by
  have covered : Finset.range n ⊆ w.visited.toFinset := by
    intro s inside
    rw [List.mem_toFinset]
    by_contra left_out
    obtain ⟨j,below,unvisited,behind⟩ := topological.first (fun j => j ∉ w.visited)
      ⟨s,Finset.mem_range.mp inside,left_out⟩
    have none_open : openBefore n edge w.visited j = ∅ := by
      refine Finset.filter_eq_empty_iff.mpr ?_
      rintro i member ⟨arc,unseen⟩
      exact behind i (Finset.mem_range.mp member) arc unseen
    have settled := (sound.settled j below).mpr (by rw [sound.counts j below,none_open]; rfl)
    exact unvisited (by simpa [empty] using settled)
  have most := Finset.card_le_card covered
  rw [Finset.card_range] at most
  have short := sound.short
  have distinct := List.toFinset_card_le w.visited
  omega

-- Along such an order the places ascend.
theorem Topological.climbs (topological : Topological n edge order) (inner : ∀ a b, edge a b = true → a < n ∧ b < n)
    (path : Relation.TransGen (fun a b => edge a b = true) a b) : order.idxOf a < order.idxOf b := by
  have step : ∀ c d, edge c d = true → order.idxOf c < order.idxOf d := by
    intro c d arc
    obtain ⟨low,high⟩ := inner c d arc
    have first : c ∈ order := topological.all.symm.subset (List.mem_range.mpr low)
    have second : d ∈ order := topological.all.symm.subset (List.mem_range.mpr high)
    rcases Nat.lt_trichotomy (order.idxOf c) (order.idxOf d) with before | same | after
    · exact before
    · have equal : c = d := (List.idxOf_inj first).mp same
      rw [equal,topological.loopless d second] at arc
      cases arc
    · have bound := List.idxOf_lt_length_of_mem first
      have apart := List.pairwise_iff_getElem.mp topological.ordered _ _ (List.idxOf_lt_length_of_mem second) bound after
      rw [List.getElem_idxOf,List.getElem_idxOf] at apart
      exact absurd arc apart
  induction path with
  | single arc => exact step _ _ arc
  | tail _ arc ih => exact ih.trans (step _ _ arc)

-- What has been ordered so far can be ordered further while no path of edges
-- comes back: among the nodes left one has none of its predecessors left.
theorem Begun.extend (begun : Begun n edge done) (acyclic : ∀ i, ¬ Relation.TransGen (fun a b => edge a b = true) i i)
    (short : done.length < n) : ∃ v, Begun n edge (done++[v]) := by
  have left_over : ∃ v, v < n ∧ v ∉ done := by
    by_contra none_left
    simp only [not_exists,not_and,not_not] at none_left
    have covered : List.range n ⊆ done := fun v member => none_left v (List.mem_range.mp member)
    have most := (List.subperm_of_subset List.nodup_range covered).length_le
    rw [List.length_range] at most
    omega
  let before : Fin n → Fin n → Prop := fun a b => Relation.TransGen (fun a b => edge a b = true) a b
  have trans : IsTrans (Fin n) before := ⟨fun _ _ _ one two => one.trans two⟩
  have irrefl : Std.Irrefl before := ⟨fun a => acyclic a⟩
  have founded : WellFounded before := Finite.wellFounded_of_trans_of_irrefl before
  obtain ⟨w,below,fresh⟩ := left_over
  obtain ⟨v,unseen,first⟩ := founded.has_min {v : Fin n | v.val ∉ done} ⟨⟨w,below⟩,fresh⟩
  refine ⟨v,begun_next.mpr ⟨begun,v.isLt,unseen,?_⟩⟩
  refine Finset.filter_eq_empty_iff.mpr ?_
  rintro i inside ⟨arc,outside⟩
  exact first ⟨i,Finset.mem_range.mp inside⟩ outside (.single arc)

-- An order along the edges exists exactly when no path of edges comes back.
theorem topological_iff_acyclic (inner : ∀ a b, edge a b = true → a < n ∧ b < n) :
    (∃ order, Topological n edge order) ↔ ∀ i, ¬ Relation.TransGen (fun a b => edge a b = true) i i := by
  constructor
  · rintro ⟨order,topological⟩ i path
    exact absurd (topological.climbs inner path) (Nat.lt_irrefl _)
  · intro acyclic
    have reach : ∀ k, k ≤ n → ∃ done, Begun n edge done ∧ done.length = k := by
      intro k
      induction k with
      | zero => exact fun _ => ⟨[],⟨.nil,by simp,.nil,by simp,by simp⟩,rfl⟩
      | succ k ih =>
        intro within
        obtain ⟨done,begun,length⟩ := ih (by omega)
        obtain ⟨v,more⟩ := begun.extend acyclic (by omega)
        exact ⟨done++[v],more,by simp [length]⟩
    obtain ⟨order,begun,length⟩ := reach n (Nat.le_refl n)
    exact ⟨order,begun_all.mp ⟨begun,length⟩⟩

end Sound
end Kahn

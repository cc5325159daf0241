import Macrame.GraphRun

namespace Macrame
namespace Run

section Pending

variable {g : Graph} {run run' : Run}

theorem pending_swap (sound : run.Sound g) (here : run.expects g t) (fresh : u ≠ t → ¬ run.expects g u)
    (tails : run'.tails = u :: run.tails.erase t)
    (moved : ∀ x, run'.expects g x ↔ (run.expects g x ∧ x ≠ t) ∨ x = u) (x : Tail) :
    run'.tails.count x = if run'.expects g x then 1 else 0 := by
  have counted := sound.pending x
  have once := sound.pending t
  rw [if_pos here] at once
  rw [tails,List.count_cons,List.count_erase]
  by_cases new : x = u
  · subst new
    rw [if_pos ((moved x).mpr (.inr rfl))]
    by_cases same : x = t
    · subst same; simp [once]
    · rw [if_neg (fresh same)] at counted
      simp [counted]
  · by_cases same : x = t
    · subst same
      have gone : ¬ run'.expects g x := by rw [moved]; simp [new]
      simp [gone,once,Ne.symm new]
    · have kept : run'.expects g x ↔ run.expects g x := by rw [moved]; simp [new,same]
      simp [kept,counted,Ne.symm new,Ne.symm same]

theorem pending_drop (sound : run.Sound g) (here : run.expects g t) (tails : run'.tails = run.tails.erase t)
    (moved : ∀ x, run'.expects g x ↔ run.expects g x ∧ x ≠ t) (x : Tail) :
    run'.tails.count x = if run'.expects g x then 1 else 0 := by
  have counted := sound.pending x
  have once := sound.pending t
  rw [if_pos here] at once
  rw [tails,List.count_erase]
  by_cases same : x = t
  · subst same
    have gone : ¬ run'.expects g x := by rw [moved]; simp
    simp [gone,once]
  · have kept : run'.expects g x ↔ run.expects g x := by rw [moved]; simp [same]
    simp [kept,counted,Ne.symm same]

theorem pending_push (sound : run.Sound g) (fresh : ¬ run.expects g u) (tails : run'.tails = u :: run.tails)
    (moved : ∀ x, run'.expects g x ↔ run.expects g x ∨ x = u) (x : Tail) :
    run'.tails.count x = if run'.expects g x then 1 else 0 := by
  have counted := sound.pending x
  rw [tails,List.count_cons]
  by_cases new : x = u
  · subst new
    rw [if_neg fresh] at counted
    simp [(moved x).mpr (.inr rfl),counted]
  · have kept : run'.expects g x ↔ run.expects g x := by rw [moved]; simp [new]
    simp [kept,counted,Ne.symm new]

end Pending

theorem tally_even (weigh : Nat → Stage → Nat) (stage : Nat → Stage) (next : Stage) (within : i < n)
    (even : weigh i next = weigh i (stage i)) : Tally.tally n weigh (Function.update stage i next) = Tally.tally n weigh stage := by
  have moved := Tally.tally_update weigh stage next within
  omega

section Rearm

theorem firstStage_shape (g : Graph) (i : Nat) :
    (firstStage g i).collected = [] ∧ (firstStage g i).completed = false ∧ (firstStage g i).started = false ∧
      (∀ j, owes g j i (firstStage g i) = if g.edge i j = true then 1 else 0) ∧ firstStage g i ≠ .counted := by
  unfold firstStage
  split <;> exact ⟨rfl,rfl,rfl,fun _ => rfl,by simp⟩

theorem rearm_sound (g : Graph) (token : Option TokenId) (done : BlockId) : (rearm g token done).Sound g := by
  have shape := firstStage_shape g
  have rooted : ∀ j, j ∈ roots g ↔ j < g.size ∧ g.indegree j = 0 := by simp [roots]
  have deps : (rearm g token done).remainingDeps = fun i => (g.indegree i : Int) := rfl
  have nodes : (rearm g token done).remainingNodes = g.size := rfl
  have stage : (rearm g token done).stage = firstStage g := rfl
  have kicked : (rearm g token done).kicked = roots g := rfl
  have launches : (rearm g token done).launches = [] := rfl
  have completions : (rearm g token done).completions = [] := rfl
  have verdict : (rearm g token done).verdict = if g.size = 0 then some false else none := rfl
  have tails : (rearm g token done).tails = if roots g = [] then [] else [.kick (roots g)] := rfl
  refine ⟨?_,?_,?_,?_,?_,?_,?_,?_,?_,?_,?_⟩
  · intro t
    rw [tails]
    cases t with
    | kick list =>
      simp only [expects,kicked]
      by_cases same : roots g = list
      · subst same
        by_cases empty : roots g = [] <;> simp [empty]
      · split <;> simp [same]
    | lower i left ready =>
      have elsewhere : firstStage g i ≠ .lowering left ready := by
        intro lowering
        have unended := (shape i).2.1
        rw [lowering] at unended
        cases unended
      simp only [expects,stage,elsewhere,and_false,if_false]
      split <;> simp
    | fire i ready =>
      have elsewhere : firstStage g i ≠ .firing ready := by
        intro firing
        have unended := (shape i).2.1
        rw [firing] at unended
        cases unended
      simp only [expects,stage,elsewhere,and_false,if_false]
      split <;> simp
    | conclude =>
      have running : ¬ ((g.size : Int) = 0 ∧ (if g.size = 0 then some false else none) = none) := by
        rintro ⟨empty,open_yet⟩
        rw [if_pos (by exact_mod_cast empty)] at open_yet
        cases open_yet
      simp only [expects,nodes,verdict,running,if_false]
      split <;> simp
  · intro j within
    rw [deps,stage]
    simp only [g.indegree_eq j within,Kahn.openBefore,List.not_mem_nil,not_false_eq_true,and_true,Finset.card_filter]
    refine congrArg Nat.cast (Finset.sum_congr rfl ?_)
    intro i _
    exact ((shape i).2.2.2.1 j).symm
  · rw [nodes,stage]
    have each : Tally.tally g.size uncounted (firstStage g) = Tally.tally g.size (fun _ _ => 1) (firstStage g) :=
      Tally.tally_congr (fun i _ => by simp [uncounted,(shape i).2.2.2.2])
    rw [each]
    simp [Tally.tally]
  · intro j within
    rw [deps,stage]
    unfold firstStage
    by_cases root : g.indegree j = 0 <;> simp [root]
  · intro j within
    rw [stage,kicked]
    have none_carried : Tally.tally g.size (carries j) (firstStage g) = 0 :=
      Tally.tally_zero.mpr (fun i _ => by simp [carries,(shape i).1])
    have distinct : (roots g).Nodup := List.nodup_range.filter _
    rw [none_carried,Nat.zero_add,distinct.count]
    simp only [rooted]
    unfold firstStage
    by_cases root : g.indegree j = 0 <;> simp [root,within]
  · intro j member
    rw [stage,kicked] at member
    rcases member with root | ⟨i,_,collected⟩
    · exact ((rooted j).mp root).1
    · rw [(shape i).1] at collected
      cases collected
  · intro i left ready within lowering
    rw [stage] at lowering
    have unended := (shape i).2.1
    rw [lowering] at unended
    cases unended
  · intro j
    rw [stage,launches]
    simp [(shape j).2.2.1]
  · rw [completions]
    exact ⟨.nil,by simp,.nil,by simp,by simp⟩
  · intro i
    rw [stage,completions]
    simp [(shape i).2.1]
  · rw [verdict,nodes]
    intro concluded
    by_cases empty : g.size = 0
    · simp [empty]
    · simp [empty] at concluded

end Rearm

section Steps

variable {g : Graph} {run : Run}

theorem expected (sound : run.Sound g) (pending : t ∈ run.tails) : run.expects g t := by
  have counted := sound.pending t
  have positive := List.count_pos_iff.mpr pending
  by_contra unexpected
  rw [if_neg unexpected] at counted
  omega

-- What some list holds to be triggered is ready and not yet triggered.
theorem carried_readied (sound : run.Sound g) (within : i < g.size) (member : j ∈ (run.stage i).collected) :
    j < g.size ∧ run.stage j = .readied := by
  have inside := sound.inner j (.inr ⟨i,within,member⟩)
  refine ⟨inside,?_⟩
  have counted := sound.readied j inside
  have share : 1 ≤ carries j i (run.stage i) := List.count_pos_iff.mpr member
  have most := Tally.weigh_le_tally (carries j) run.stage within
  by_contra other
  rw [if_neg other] at counted
  omega

theorem kicked_readied (sound : run.Sound g) (member : j ∈ run.kicked) : j < g.size ∧ run.stage j = .readied := by
  have inside := sound.inner j (.inl member)
  refine ⟨inside,?_⟩
  have counted := sound.readied j inside
  have share := List.count_pos_iff.mpr member
  by_contra other
  rw [if_neg other] at counted
  omega

-- The count of a node that is not blocked is down to zero, so every predecessor has completed.
theorem behind (sound : run.Sound g) (within : j < g.size) (open_yet : run.stage j ≠ .blocked) (arc : g.edge i j = true) :
    i ∈ run.completions := by
  have below := (g.edge_inner arc).1
  have zero : run.remainingDeps j = 0 := by
    by_contra more
    exact open_yet ((sound.blocked j within).mpr more)
  rw [sound.deps j within] at zero
  have paid := Tally.tally_zero.mp (by exact_mod_cast zero) i below
  refine (sound.ended i).mpr ⟨below,?_⟩
  cases shape : run.stage i with
  | blocked => simp [shape,owes,arc] at paid
  | readied => simp [shape,owes,arc] at paid
  | launched => simp [shape,owes,arc] at paid
  | lowering left ready => rfl
  | firing ready => rfl
  | counted => rfl

theorem mem_successors (g : Graph) (i j : Nat) : j ∈ g.successors i ↔ g.edge i j = true := by
  rw [g.successors_eq]
  simp only [Kahn.successors,List.mem_filter,List.mem_range,and_iff_right_iff_imp]
  exact fun arc => (g.edge_inner arc).2

-- A property of stages that a move of node `i` does not touch.
theorem stage_even {stage stage' : Nat → Stage} (holds : Stage → Prop) (stages : stage' = Function.update stage i next)
    (even : holds next ↔ holds (stage i)) (x : Nat) : holds (stage' x) ↔ holds (stage x) := by
  by_cases same : x = i
  · subst same; simpa [stages] using even
  · simp [stages,same]

theorem collected_even {stage' : Nat → Stage} (sound : run.Sound g) (within : i < g.size)
    (stages : stage' = Function.update run.stage i next) (fewer : next.collected ⊆ (run.stage i).collected)
    (kicked : kicked' ⊆ run.kicked)
    (member : j ∈ kicked' ∨ ∃ k, k < g.size ∧ j ∈ (stage' k).collected) : j < g.size := by
  refine sound.inner j (member.imp (fun here => kicked here) ?_)
  rintro ⟨k,below,collected⟩
  by_cases same : k = i
  · subst same
    exact ⟨k,within,fewer (by simpa [stages] using collected)⟩
  · exact ⟨k,below,by simpa [stages,same] using collected⟩

theorem lowering_even {stage' : Nat → Stage} (sound : run.Sound g) (stages : stage' = Function.update run.stage i next)
    (fewer : ∀ left ready, next = .lowering left ready → left.Nodup ∧ ∀ j ∈ left, g.edge i j = true)
    (k : Nat) (left ready : List Nat) (below : k < g.size) (lowering : stage' k = .lowering left ready) :
    left.Nodup ∧ ∀ j ∈ left, g.edge k j = true := by
  by_cases same : k = i
  · subst same
    exact fewer left ready (by simpa [stages] using lowering)
  · exact sound.lowering k left ready below (by simpa [stages,same] using lowering)

theorem nodeComplete_sound (sound : run.Sound g) (within : i < g.size) (here : run.stage i = .launched) :
    (run.nodeComplete g i).Sound g := by
  have once : (g.successors i).Nodup := by rw [g.successors_eq]; exact List.nodup_range.filter _
  have fresh : i ∉ run.completions := by
    intro ended
    have completed := ((sound.ended i).mp ended).2
    rw [here] at completed
    cases completed
  have stages : (run.nodeComplete g i).stage = Function.update run.stage i (.lowering (g.successors i) []) := rfl
  refine ⟨?_,?_,?_,?_,?_,?_,?_,?_,?_,?_,sound.last⟩
  · refine pending_push (u := .lower i (g.successors i) []) sound ?_ rfl ?_
    · rintro ⟨_,lowering⟩
      rw [here] at lowering
      cases lowering
    · intro x
      cases x with
      | kick roots => simp [expects,nodeComplete,push,setStage]
      | lower k left ready =>
        by_cases same : k = i
        · subst same; simp [expects,stages,here,within,eq_comm]
        · simp [expects,stages,same]
      | fire k ready =>
        by_cases same : k = i
        · subst same; simp [expects,stages,here]
        · simp [expects,stages,same]
      | conclude => simp [expects,nodeComplete,push,setStage]
  · intro j inside
    rw [stages,tally_even _ _ _ within (by simp [owes,here,mem_successors])]
    exact sound.deps j inside
  · rw [stages,tally_even _ _ _ within (by simp [uncounted,here])]
    exact sound.nodes
  · intro j inside
    exact (stage_even (· = .blocked) stages (by simp [here]) j).trans (sound.blocked j inside)
  · intro j inside
    rw [stages,tally_even _ _ _ within (by simp [carries,here,Stage.collected]),← stages]
    simp only [stage_even (· = .readied) stages (by simp [here]) j]
    exact sound.readied j inside
  · exact fun j => collected_even sound within stages (by simp [Stage.collected]) (List.Subset.refl _)
  · refine lowering_even sound stages ?_
    rintro left ready ⟨⟩
    exact ⟨once,fun j member => (mem_successors g i j).mp member⟩
  · intro j
    simp only [stage_even (·.started = true) stages (by simp [here,Stage.started,Stage.completed]) j]
    exact sound.launched j
  · refine Kahn.begun_next.mpr ⟨sound.begun,within,fresh,Finset.filter_eq_empty_iff.mpr ?_⟩
    rintro k _ ⟨arc,open_yet⟩
    exact open_yet (behind sound within (by simp [here]) arc)
  · intro k
    rw [show (run.nodeComplete g i).completions = run.completions++[i] from rfl,List.mem_append,List.mem_singleton,
      sound.ended k,stages]
    by_cases same : k = i
    · subst same; simp [within,Stage.completed]
    · simp [same]

-- The pass over the successors is through: their triggers are next.
theorem lowered_sound (sound : run.Sound g) (cancel : Bool) (pending : .lower i [] ready ∈ run.tails) :
    (run.resume cancel (.lower i [] ready)).Sound g := by
  obtain ⟨within,here⟩ := expected sound pending
  have stages : (run.resume cancel (.lower i [] ready)).stage = Function.update run.stage i (.firing ready) := rfl
  refine ⟨?_,?_,?_,?_,?_,?_,?_,?_,sound.begun,?_,sound.last⟩
  · refine pending_swap (u := .fire i ready) sound (expected sound pending) ?_ rfl ?_
    · rintro _ ⟨_,firing⟩
      rw [here] at firing
      cases firing
    · intro x
      cases x with
      | kick roots => simp [expects,resume,advance,drop,push,setStage]
      | lower k left collected =>
        by_cases same : k = i
        · subst same; simp [expects,stages,here]; tauto
        · simp [expects,stages,same]
      | fire k collected =>
        by_cases same : k = i
        · subst same; simp [expects,stages,here,within,eq_comm]
        · simp [expects,stages,same]
      | conclude => simp [expects,resume,advance,drop,push,setStage]
  · intro j inside
    rw [stages,tally_even _ _ _ within (by simp [owes,here])]
    exact sound.deps j inside
  · rw [stages,tally_even _ _ _ within (by simp [uncounted,here])]
    exact sound.nodes
  · intro j inside
    exact (stage_even (· = .blocked) stages (by simp [here]) j).trans (sound.blocked j inside)
  · intro j inside
    rw [stages,tally_even _ _ _ within (by simp [carries,here,Stage.collected]),← stages]
    simp only [stage_even (· = .readied) stages (by simp [here]) j]
    exact sound.readied j inside
  · exact fun j => collected_even sound within stages (by simp [here,Stage.collected]) (List.Subset.refl _)
  · exact lowering_even sound stages (by simp)
  · intro j
    simp only [stage_even (·.started = true) stages (by simp [here,Stage.started,Stage.completed]) j]
    exact sound.launched j
  · intro k
    simp only [stage_even (·.completed = true) stages (by simp [here,Stage.completed]) k]
    exact sound.ended k

-- The last atomic step of a node.
theorem counted_sound (sound : run.Sound g) (cancel : Bool) (pending : .fire i [] ∈ run.tails) :
    (run.resume cancel (.fire i [])).Sound g := by
  obtain ⟨within,here⟩ := expected sound pending
  have running : run.verdict = none := by
    by_contra concluded
    have none_left := sound.last concluded
    rw [sound.nodes] at none_left
    have all := Tally.tally_zero.mp (by exact_mod_cast none_left) i within
    simp [uncounted,here] at all
  have stages : (run.resume cancel (.fire i [])).stage = Function.update run.stage i .counted := rfl
  have nodes : (run.resume cancel (.fire i [])).remainingNodes = run.remainingNodes-1 := rfl
  have verdict : (run.resume cancel (.fire i [])).verdict = run.verdict := rfl
  have moved := Tally.tally_update uncounted run.stage .counted within
  rw [here] at moved
  simp only [uncounted,reduceCtorEq,if_false,if_true] at moved
  have total := sound.nodes
  refine ⟨?_,?_,?_,?_,?_,?_,?_,?_,?_,?_,?_⟩
  · have other : ∀ x : Tail, x ≠ .conclude →
        ((run.resume cancel (.fire i [])).expects g x ↔ run.expects g x ∧ x ≠ .fire i []) := by
      intro x apart
      cases x with
      | kick roots => simp [expects,resume,advance,drop,countNode,setStage]
      | lower k left collected =>
        by_cases same : k = i
        · subst same; simp [expects,stages,here]
        · simp [expects,stages,same]
      | fire k collected =>
        by_cases same : k = i
        · subst same; simp [expects,stages,here]
        · simp [expects,stages,same]
      | conclude => exact absurd rfl apart
    by_cases last : run.remainingNodes = 1
    · have tails : (run.resume cancel (.fire i [])).tails = .conclude :: run.tails.erase (.fire i []) := by
        simp only [resume,advance,drop,countNode,last,if_true]
      refine pending_swap (u := .conclude) sound (expected sound pending) ?_ tails ?_
      · rintro _ ⟨zero,_⟩
        rw [last] at zero
        cases zero
      · intro x
        by_cases conclude : x = .conclude
        · subst conclude
          simp [expects,nodes,verdict,running,last]
        · simp [other x conclude,conclude]
    · have tails : (run.resume cancel (.fire i [])).tails = run.tails.erase (.fire i []) := by
        simp only [resume,advance,drop,countNode,last,if_false]
      refine pending_drop sound (expected sound pending) tails ?_
      intro x
      by_cases conclude : x = .conclude
      · subst conclude
        have open_yet : ¬ run.remainingNodes-1 = 0 := by omega
        have before : ¬ run.remainingNodes = 0 := by omega
        simp [expects,nodes,open_yet,before]
      · exact other x conclude
  · intro j inside
    rw [stages,tally_even _ _ _ within (by simp [owes,here])]
    exact sound.deps j inside
  · rw [nodes,stages]
    omega
  · intro j inside
    exact (stage_even (· = .blocked) stages (by simp [here]) j).trans (sound.blocked j inside)
  · intro j inside
    rw [stages,tally_even _ _ _ within (by simp [carries,here,Stage.collected]),← stages]
    simp only [stage_even (· = .readied) stages (by simp [here]) j]
    exact sound.readied j inside
  · exact fun j => collected_even sound within stages (by simp [here,Stage.collected]) (List.Subset.refl _)
  · exact lowering_even sound stages (by simp)
  · intro j
    simp only [stage_even (·.started = true) stages (by simp [here,Stage.started,Stage.completed]) j]
    exact sound.launched j
  · exact sound.begun
  · intro k
    simp only [stage_even (·.completed = true) stages (by simp [here,Stage.completed]) k]
    exact sound.ended k
  · rw [verdict]
    intro concluded
    exact absurd running concluded

theorem concluded_sound (sound : run.Sound g) (cancel : Bool) (pending : .conclude ∈ run.tails) :
    (run.resume cancel .conclude).Sound g := by
  obtain ⟨all,running⟩ := expected sound pending
  refine ⟨?_,sound.deps,sound.nodes,sound.blocked,sound.readied,sound.inner,sound.lowering,sound.launched,sound.begun,
    sound.ended,fun _ => all⟩
  refine pending_drop sound (expected sound pending) rfl ?_
  intro x
  cases x <;> simp [expects,resume,advance,drop]

-- The kickoff loop triggers the next root.
theorem kick_sound (sound : run.Sound g) (cancel : Bool) (pending : .kick (j :: rest) ∈ run.tails) :
    (run.resume cancel (.kick (j :: rest))).Sound g := by
  obtain ⟨kicked,_⟩ := expected sound pending
  obtain ⟨within,ready⟩ := kicked_readied sound (by rw [kicked]; exact List.mem_cons_self)
  have stages : (run.resume cancel (.kick (j :: rest))).stage = Function.update run.stage j .launched := rfl
  refine ⟨?_,?_,?_,?_,?_,?_,?_,?_,sound.begun,?_,sound.last⟩
  · have other : ∀ x : Tail, (∀ roots, x ≠ .kick roots) →
        ((run.resume cancel (.kick (j :: rest))).expects g x ↔ run.expects g x) := by
      intro x apart
      cases x with
      | kick roots => exact absurd rfl (apart roots)
      | lower k left collected => simp only [expects,stage_even (· = .lowering left collected) stages (by simp [ready]) k]
      | fire k collected => simp only [expects,stage_even (· = .firing collected) stages (by simp [ready]) k]
      | conclude => simp [expects,resume,advance,drop,launch,kickTail,setStage]
    by_cases more : rest = []
    · have tails : (run.resume cancel (.kick (j :: rest))).tails = run.tails.erase (.kick (j :: rest)) := by
        simp only [resume,advance,kickTail,more,if_true]; rfl
      refine pending_drop sound (expected sound pending) tails ?_
      intro x
      cases x with
      | kick roots => simp [expects,resume,advance,drop,launch,kickTail,setStage,kicked,more]; tauto
      | _ => rw [other _ (by simp)]; simp
    · have tails : (run.resume cancel (.kick (j :: rest))).tails = .kick rest :: run.tails.erase (.kick (j :: rest)) := by
        simp only [resume,advance,kickTail,more,if_false]; rfl
      refine pending_swap (u := .kick rest) sound (expected sound pending) ?_ tails ?_
      · rintro _ ⟨same,_⟩
        rw [kicked] at same
        exact absurd same (by simp)
      · intro x
        cases x with
        | kick roots =>
          simp only [expects,resume,advance,drop,launch,kickTail,setStage,kicked,Tail.kick.injEq,ne_eq]
          constructor
          · rintro ⟨rfl,_⟩
            exact .inr rfl
          · rintro (⟨⟨same,_⟩,apart⟩ | same)
            · exact absurd same.symm apart
            · exact ⟨same.symm,by rw [same]; exact more⟩
        | _ => rw [other _ (by simp)]; simp
  · intro x inside
    rw [stages,tally_even _ _ _ within (by simp [owes,ready])]
    exact sound.deps x inside
  · rw [stages,tally_even _ _ _ within (by simp [uncounted,ready])]
    exact sound.nodes
  · intro x inside
    exact (stage_even (· = .blocked) stages (by simp [ready]) x).trans (sound.blocked x inside)
  · intro x inside
    have counted := sound.readied x inside
    rw [stages,tally_even _ _ _ within (by simp [carries,ready,Stage.collected])]
    rw [kicked,List.count_cons] at counted
    rw [show (run.resume cancel (.kick (j :: rest))).kicked = rest from rfl]
    by_cases same : x = j
    · subst same
      simp only [beq_self_eq_true,if_true,ready,Function.update_self] at counted ⊢
      simp
      omega
    · simp [same,Ne.symm same] at counted ⊢
      exact counted
  · refine fun x => collected_even sound within stages (by simp [Stage.collected]) ?_
    rw [kicked]
    exact List.subset_cons_self j rest
  · exact lowering_even sound stages (by simp)
  · intro x
    rw [show (run.resume cancel (.kick (j :: rest))).launches = run.launches++[j] from rfl,List.count_append,
      sound.launched x,stages]
    by_cases same : x = j
    · subst same; simp [ready,within,Stage.started,Stage.completed]
    · simp [same,Ne.symm same]
  · intro x
    simp only [stage_even (·.completed = true) stages (by simp [ready,Stage.completed]) x]
    exact sound.ended x

-- A completed node triggers the next successor it has collected.
theorem fire_sound (sound : run.Sound g) (cancel : Bool) (pending : .fire i (j :: rest) ∈ run.tails) :
    (run.resume cancel (.fire i (j :: rest))).Sound g := by
  obtain ⟨below,here⟩ := expected sound pending
  obtain ⟨within,ready⟩ := carried_readied sound below (by rw [here]; exact List.mem_cons_self)
  have apart : i ≠ j := by
    rintro rfl
    rw [here] at ready
    cases ready
  have still : Function.update run.stage j .launched i = .firing (j :: rest) := by simp [apart,here]
  have stages : (run.resume cancel (.fire i (j :: rest))).stage =
      Function.update (Function.update run.stage j .launched) i (.firing rest) := rfl
  have even : ∀ holds : Stage → Prop, (holds .launched ↔ holds .readied) → (holds (.firing rest) ↔ holds (.firing (j :: rest))) →
      ∀ x, holds ((run.resume cancel (.fire i (j :: rest))).stage x) ↔ holds (run.stage x) := by
    intro holds one two x
    rw [stage_even holds stages (by rw [still]; exact two) x]
    exact stage_even holds rfl (by rw [ready]; exact one) x
  have weighs : ∀ weigh : Nat → Stage → Nat, weigh j .launched = weigh j .readied →
      weigh i (.firing rest) = weigh i (.firing (j :: rest)) →
      Tally.tally g.size weigh (run.resume cancel (.fire i (j :: rest))).stage = Tally.tally g.size weigh run.stage := by
    intro weigh one two
    rw [stages,tally_even _ _ _ below (by rw [still]; exact two),tally_even _ _ _ within (by rw [ready]; exact one)]
  refine ⟨?_,?_,?_,?_,?_,?_,?_,?_,sound.begun,?_,sound.last⟩
  · refine pending_swap (u := .fire i rest) sound (expected sound pending) ?_ rfl ?_
    · rintro _ ⟨_,firing⟩
      rw [here] at firing
      exact absurd firing (by simp)
    · intro x
      cases x with
      | kick roots => simp [expects,resume,advance,drop,launch,push,setStage]
      | lower k left collected => simp [expects,even (· = .lowering left collected) (by simp) (by simp) k]
      | fire k collected =>
        by_cases same : k = i
        · subst same
          simp only [expects,stages,Function.update_self,here,below,true_and,Tail.fire.injEq,Stage.firing.injEq,ne_eq]
          tauto
        · by_cases other : k = j
          · subst other; simp [expects,stages,same,ready]
          · simp [expects,stages,same,other]
      | conclude => simp [expects,resume,advance,drop,launch,push,setStage]
  · intro x inside
    rw [weighs _ (by simp [owes]) (by simp [owes])]
    exact sound.deps x inside
  · rw [weighs _ (by simp [uncounted]) (by simp [uncounted])]
    exact sound.nodes
  · intro x inside
    exact (even (· = .blocked) (by simp) (by simp) x).trans (sound.blocked x inside)
  · intro x inside
    have counted := sound.readied x inside
    have moved := Tally.tally_update (carries x) (Function.update run.stage j .launched) (.firing rest) below
    rw [← stages,still,tally_even _ _ _ within (by simp [carries,ready,Stage.collected])] at moved
    simp only [carries,Stage.collected,List.count_cons] at moved
    rw [show (run.resume cancel (.fire i (j :: rest))).kicked = run.kicked from rfl]
    by_cases same : x = j
    · subst same
      have gone : ¬ (run.resume cancel (.fire i (x :: rest))).stage x = .readied := by simp [stages,Ne.symm apart]
      rw [if_neg gone]
      rw [if_pos ready] at counted
      simp only [beq_self_eq_true,if_true] at moved
      omega
    · have unmoved : (run.resume cancel (.fire i (j :: rest))).stage x = .readied ↔ run.stage x = .readied := by
        by_cases origin : x = i
        · subst origin; simp [stages,here]
        · simp [stages,origin,same]
      simp only [unmoved]
      simp only [beq_iff_eq,Ne.symm same,if_false] at moved
      omega
  · intro x member
    refine sound.inner x (member.imp id ?_)
    rintro ⟨k,inside,collected⟩
    rw [stages] at collected
    by_cases same : k = i
    · subst same
      refine ⟨k,inside,?_⟩
      rw [here]
      simp only [Function.update_self,Stage.collected] at collected ⊢
      exact List.mem_cons_of_mem _ collected
    · by_cases other : k = j
      · subst other; simp [same,Stage.collected] at collected
      · exact ⟨k,inside,by simpa [same,other] using collected⟩
  · intro k left collected inside lowering
    exact sound.lowering k left collected inside ((even (· = .lowering left collected) (by simp) (by simp) k).mp lowering)
  · intro x
    rw [show (run.resume cancel (.fire i (j :: rest))).launches = run.launches++[j] from rfl,List.count_append,
      sound.launched x]
    by_cases same : x = j
    · subst same; simp [stages,ready,within,Ne.symm apart,Stage.started,Stage.completed]
    · have unmoved : ((run.resume cancel (.fire i (j :: rest))).stage x).started = (run.stage x).started := by
        by_cases origin : x = i
        · subst origin; simp [stages,here,Stage.started,Stage.completed]
        · simp [stages,origin,same]
      simp [unmoved,Ne.symm same]
  · intro x
    simp only [even (·.completed = true) (by simp [Stage.completed]) (by simp [Stage.completed]) x]
    exact sound.ended x

-- The share of `i` is in the count of its next successor, so that one has not
-- been let through yet.
theorem lower_target (sound : run.Sound g) (below : i < g.size) (here : run.stage i = .lowering (j :: left) ready) :
    j < g.size ∧ i ≠ j ∧ 1 ≤ run.remainingDeps j ∧ run.stage j = .blocked := by
  have arc : g.edge i j = true := (sound.lowering i (j :: left) ready below here).2 j List.mem_cons_self
  have within : j < g.size := (g.edge_inner arc).2
  have apart : i ≠ j := by
    rintro rfl
    have single := sound.begun.loopless i ((sound.ended i).mpr ⟨below,by rw [here]; rfl⟩)
    rw [single] at arc
    cases arc
  have share : (1 : Int) ≤ run.remainingDeps j := by
    have most := Tally.weigh_le_tally (owes g j) run.stage below
    rw [here] at most
    simp only [owes,List.mem_cons,true_or,if_true] at most
    rw [sound.deps j within]
    exact_mod_cast most
  exact ⟨within,apart,share,(sound.blocked j within).mpr (by omega)⟩

theorem lowerDep_stage (run : Run) (cancel : Bool) (i j : Nat) (left ready : List Nat) (x : Nat) (other : x ≠ i) :
    (run.resume cancel (.lower i (j :: left) ready)).stage x =
      if x = j ∧ run.remainingDeps j = 1 then .readied else run.stage x := by
  show Function.update (if run.remainingDeps j = 1 then Function.update run.stage j .readied else run.stage) i _ x = _
  rw [Function.update_of_ne other]
  by_cases last : run.remainingDeps j = 1
  · by_cases target : x = j
    · simp [last,target]
    · simp [last,target]
  · simp [last]

-- One successor counted down; the last one to do so collects it.
theorem lowerDep_sound (sound : run.Sound g) (cancel : Bool) (pending : .lower i (j :: left) ready ∈ run.tails) :
    (run.resume cancel (.lower i (j :: left) ready)).Sound g := by
  obtain ⟨below,here⟩ := expected sound pending
  obtain ⟨within,apart,share,waiting⟩ := lower_target sound below here
  obtain ⟨distinct,arcs⟩ := sound.lowering i (j :: left) ready below here
  obtain ⟨fresh,distinct⟩ := List.nodup_cons.mp distinct
  let collected := if run.remainingDeps j = 1 then ready++[j] else ready
  let middle := if run.remainingDeps j = 1 then Function.update run.stage j .readied else run.stage
  have still : middle i = .lowering (j :: left) ready := by
    simp only [middle]
    split
    · simp [apart,here]
    · exact here
  have elsewhere : ∀ x, x ≠ j → middle x = run.stage x := by
    intro x other
    simp only [middle]
    split
    · simp [other]
    · rfl
  have reached : middle j = if run.remainingDeps j = 1 then .readied else .blocked := by
    simp only [middle]
    split
    · simp
    · exact waiting
  have stages : (run.resume cancel (.lower i (j :: left) ready)).stage =
      Function.update middle i (.lowering left collected) := rfl
  have deps : (run.resume cancel (.lower i (j :: left) ready)).remainingDeps =
      Function.update run.remainingDeps j (run.remainingDeps j-1) := rfl
  have weighs : ∀ weigh : Nat → Stage → Nat, weigh j .readied = weigh j .blocked →
      Tally.tally g.size weigh middle = Tally.tally g.size weigh run.stage := by
    intro weigh even
    simp only [middle]
    split
    · exact tally_even _ _ _ within (by rw [waiting]; exact even)
    · rfl
  have even : ∀ holds : Stage → Prop, (holds .readied ↔ holds .blocked) →
      (holds (.lowering left collected) ↔ holds (.lowering (j :: left) ready)) →
      ∀ x, holds ((run.resume cancel (.lower i (j :: left) ready)).stage x) ↔ holds (run.stage x) := by
    intro holds one two x
    rw [stage_even holds stages (by rw [still]; exact two) x]
    by_cases same : x = j
    · subst same
      rw [reached,waiting]
      split
      · exact one
      · exact Iff.rfl
    · rw [elsewhere x same]
  refine ⟨?_,?_,?_,?_,?_,?_,?_,?_,sound.begun,?_,sound.last⟩
  · refine pending_swap (u := .lower i left collected) sound (expected sound pending) ?_ rfl ?_
    · rintro _ ⟨_,lowering⟩
      rw [here] at lowering
      exact absurd lowering (by simp)
    · intro x
      cases x with
      | kick roots => simp [expects,resume,advance,drop,lowerDep]
      | lower k rest list =>
        by_cases same : k = i
        · subst same
          simp only [expects,stages,Function.update_self,here,below,true_and,Tail.lower.injEq,Stage.lowering.injEq,ne_eq]
          tauto
        · by_cases other : k = j
          · subst other
            have unlowered : ¬ (if run.remainingDeps k = 1 then Stage.readied else .blocked) = .lowering rest list := by
              split <;> simp
            simp [expects,stages,same,reached,waiting,unlowered]
          · simp [expects,stages,same,elsewhere k other]
      | fire k list => simp [expects,even (· = .firing list) (by simp) (by simp) k]
      | conclude => simp [expects,resume,advance,drop,lowerDep]
  · intro x inside
    have moved := Tally.tally_update (owes g x) middle (.lowering left collected) below
    rw [← stages,still,weighs (owes g x) (by simp [owes])] at moved
    have counted := sound.deps x inside
    rw [deps]
    simp only [owes] at moved
    by_cases same : x = j
    · subst same
      simp only [List.mem_cons,true_or,if_true,fresh,if_false] at moved
      rw [Function.update_self]
      omega
    · rw [Function.update_of_ne same]
      simp only [List.mem_cons,same,false_or] at moved
      omega
  · have moved := tally_even uncounted middle (.lowering left collected) below (by simp [uncounted,still])
    rw [stages,moved,weighs uncounted (by simp [uncounted])]
    exact sound.nodes
  · intro x inside
    by_cases same : x = j
    · subst same
      rw [stages,deps,Function.update_of_ne (Ne.symm apart),Function.update_self,reached]
      split
      · rename_i last
        simp [last]
      · rename_i more
        simp only [ne_eq,true_iff]
        omega
    · rw [deps,Function.update_of_ne same,← sound.blocked x inside,stages]
      by_cases origin : x = i
      · subst origin; simp [here]
      · rw [Function.update_of_ne origin,elsewhere x same]
  · intro x inside
    have counted := sound.readied x inside
    have moved := Tally.tally_update (carries x) middle (.lowering left collected) below
    rw [← stages,still,weighs (carries x) (by simp [carries,Stage.collected])] at moved
    simp only [carries,Stage.collected] at moved
    rw [show (run.resume cancel (.lower i (j :: left) ready)).kicked = run.kicked from rfl]
    by_cases same : x = j
    · subst same
      rw [stages,Function.update_of_ne (Ne.symm apart),reached,← stages]
      rw [waiting] at counted
      simp only [reduceCtorEq,if_false] at counted
      by_cases last : run.remainingDeps x = 1
      · simp only [collected,last,if_true,List.count_append,List.count_singleton_self] at moved ⊢
        omega
      · simp only [collected,last,if_false,reduceCtorEq] at moved ⊢
        omega
    · have list : collected.count x = ready.count x := by
        simp only [collected]
        split
        · simp [Ne.symm same]
        · rfl
      have unmoved : (run.resume cancel (.lower i (j :: left) ready)).stage x = .readied ↔ run.stage x = .readied := by
        by_cases origin : x = i
        · subst origin; simp [stages,here]
        · rw [stages,Function.update_of_ne origin,elsewhere x same]
      simp only [unmoved]
      omega
  · intro x member
    rcases member with kicked | ⟨k,inside,listed⟩
    · exact sound.inner x (.inl kicked)
    · rw [stages] at listed
      by_cases same : k = i
      · subst same
        simp only [Function.update_self,Stage.collected,collected] at listed
        have known : x ∈ ready → x < g.size := fun before =>
          sound.inner x (.inr ⟨k,inside,by rw [here]; exact before⟩)
        split at listed
        · rcases List.mem_append.mp listed with before | new
          · exact known before
          · rw [List.mem_singleton.mp new]; exact within
        · exact known listed
      · by_cases other : k = j
        · subst other
          rw [Function.update_of_ne same,reached] at listed
          split at listed <;> simp [Stage.collected] at listed
        · exact sound.inner x (.inr ⟨k,inside,by simpa [same,elsewhere k other] using listed⟩)
  · intro k rest list inside lowering
    rw [stages] at lowering
    by_cases same : k = i
    · subst same
      simp only [Function.update_self,Stage.lowering.injEq] at lowering
      obtain ⟨rfl,_⟩ := lowering
      exact ⟨distinct,fun x member => arcs x (List.mem_cons_of_mem _ member)⟩
    · by_cases other : k = j
      · subst other
        rw [Function.update_of_ne same,reached] at lowering
        split at lowering <;> cases lowering
      · exact sound.lowering k rest list inside (by simpa [same,elsewhere k other] using lowering)
  · intro x
    simp only [even (·.started = true) (by simp [Stage.started,Stage.completed])
      (by simp [Stage.started,Stage.completed]) x]
    exact sound.launched x
  · intro x
    simp only [even (·.completed = true) (by simp [Stage.completed]) (by simp [Stage.completed]) x]
    exact sound.ended x

theorem resume_sound (sound : run.Sound g) (cancel : Bool) (pending : t ∈ run.tails) : (run.resume cancel t).Sound g := by
  cases t with
  | kick roots =>
    cases roots with
    | nil => exact absurd rfl (expected sound pending).2
    | cons j rest => exact kick_sound sound cancel pending
  | lower i left ready =>
    cases left with
    | nil => exact lowered_sound sound cancel pending
    | cons j left => exact lowerDep_sound sound cancel pending
  | fire i ready =>
    cases ready with
    | nil => exact counted_sound sound cancel pending
    | cons j rest => exact fire_sound sound cancel pending
  | conclude => exact concluded_sound sound cancel pending

end Steps

end Run
end Macrame

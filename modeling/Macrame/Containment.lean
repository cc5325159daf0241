import Macrame.LendRun

namespace Macrame

namespace World

variable {d : Deployment} {w : World d} {a : WorldAction d}

-- A body under `x`: `x` cannot end before it, or has not ended its own.
def Under (w : World d) (c x : BlockId) : Prop := w.Gate c x ∨ (w.base.progress x).status = .running

-- What holds of a loan while the block it was made to is in its cycle.
structure Backed (w : World d) (b : BlockId) (loan : Loan) : Prop where
  covers : loan.ticket.link.mode.covers loan.link.mode = true
  out : loan.ticket ∈ (w.base.pipes loan.link.pipe).outstanding
  gated : ∃ c, loan.anchor = some c ∧ ((w.base.progress c).status = .running ∨ w.RunOf b c) ∧
    ∀ x i, loan.ticket.link.party = .link x i → w.Under c x

theorem anchor_engaged (sound : w.Sound) (anchored : (w.base.progress c).status = .running ∨ w.RunOf b c)
    (live : (w.base.progress b).status.resting = false) : w.base.Engaged c := by
  rcases anchored with running | node
  · exact .inl (by rw [running]; rfl)
  · exact .inr (run_open sound node live)

theorem under_engaged (sound : w.Sound) (under : w.Under c x) (engaged : w.base.Engaged c) : w.base.Engaged x := by
  rcases under with gate | running
  · exact gate_engaged sound gate engaged
  · exact .inl (by rw [running]; rfl)

-- What is under `x` stays under it, unless `x` ends its body before it.
theorem under_kept (sound : w.Sound) (allowed : w.Allowed a) (under : w.Under c x)
    (ends : a = .base (.bodyEnd x) → w.Gate c x) (before : w.base.Engaged c) (after : (w.apply a).base.Engaged c) :
    (w.apply a).Under c x := by
  by_cases stops : a = .base (.bodyEnd x)
  · exact .inl (gate_kept sound allowed (ends stops) before after)
  · rcases under with gate | running
    · exact .inl (gate_kept sound allowed gate before after)
    · exact .inr (body_kept sound allowed running stops)

-- The step lemma: a loan stays backed while its block is in its cycle, unless the
-- step ends the body it hangs on, ends its holder's before it or gives its hold back.
theorem Backed.kept (backed : w.Backed b loan) (sound : w.Sound) (allowed : w.Allowed a)
    (before : (w.base.progress b).status.resting = false) (after : ((w.apply a).base.progress b).status.resting = false)
    (goes_on : ∀ c, loan.anchor = some c → a ≠ .base (.bodyEnd c))
    (ends_after : ∀ x i, loan.ticket.link.party = .link x i → a = .base (.bodyEnd x) → ∃ c ∈ loan.anchor, w.Gate c x)
    (unreleased : ∀ h o, loan.ticket.link.party = .hold h o → a ≠ .base (.releaseHold h)) :
    (w.apply a).Backed b loan := by
  obtain ⟨covers,out,c,anchor,anchored,gates⟩ := backed
  have later := apply_sound sound allowed
  have still : ((w.apply a).base.progress c).status = .running ∨ (w.apply a).RunOf b c := by
    rcases anchored with running | node
    · exact .inl (body_kept sound allowed running (goes_on c anchor))
    · exact .inr (runOf_kept sound allowed node before)
  have engaged := anchor_engaged sound anchored before
  have engaged' := anchor_engaged later still after
  have gates' : ∀ x i, loan.ticket.link.party = .link x i → (w.apply a).Under c x := by
    intro x i party
    refine under_kept sound allowed (gates x i party) ?_ engaged engaged'
    intro ends
    obtain ⟨e,same,gate⟩ := ends_after x i party ends
    rw [anchor] at same
    cases same
    exact gate
  refine ⟨covers,ticket_kept sound allowed out ?_ unreleased,c,anchor,still,gates'⟩
  intro x i party
  exact ⟨under_engaged sound (gates x i party) engaged,under_engaged later (gates' x i party) engaged'⟩

end World

namespace LendWorld

section Attended

variable {d : Deployment} (build : Build) (w : LendWorld d)

-- The call is made inside admission `k`: it is out, and where a task holds it the
-- calling body is below that task, itself or as part of its nested work, or the
-- task's own body goes on: it may be awaiting the caller.
structure Inside (call : Call) (p : PipeId) (k : Ticket) : Prop where
  out : k ∈ (w.world.base.pipes p).outstanding
  below : ∃ t ∈ call.body, ∀ x i, k.link.party = .link x i → w.world.Under t x

-- What the callers see to: a call lends from inside the admissions it lends, a body
-- ends after the work it lent to without joining it and after the work that others
-- lent its admissions to, unless that is below it; and a hold is given back after the
-- work it was lent to.
def Attended : LendAction d → Prop
  | .execute g _ _ detach _ call backing => ∀ p ∈ w.lentPipes build g detach call, w.Inside call p (backing p)
  | .bindLinks op call backing => ∀ link ∈ w.opLent build op call, w.Inside call link.pipe (backing link.pipe)
  | .world (.base (.bodyEnd t)) => ∀ loan ∈ w.loans, loan.2.anchor ≠ some t ∧
    ∀ i, loan.2.ticket.link.party = .link t i → ∃ c ∈ loan.2.anchor, w.world.Gate c t
  | .world (.base (.releaseHold h)) => ∀ loan ∈ w.loans, ∀ o, loan.2.ticket.link.party ≠ .hold h o
  | _ => True

-- Every lent object is under an admission that covers it.
def Contained : Prop :=
  ∀ b loan, (b,loan) ∈ w.loans → loan.ticket.link.mode.covers loan.link.mode = true ∧
    loan.ticket ∈ (w.world.base.pipes loan.link.pipe).outstanding

end Attended

end LendWorld

def attendedSystem (build : Build) (d : Deployment) : Machines.Machine (LendWorld d) (LendAction d) :=
  ⟨(· = {}),fun w a => w.Allowed build a ∧ w.Attended build a,LendWorld.apply build⟩

theorem attended_restricts (build : Build) (d : Deployment) :
    Machines.Restricts (attendedSystem build d) (lendSystem build d) :=
  ⟨fun _ begun => begun,fun _ _ allowed => allowed.1,fun _ _ => rfl⟩

namespace LendWorld

variable {d : Deployment} {build : Build} {w : LendWorld d} {a : LendAction d}

theorem lentPipes_attached (member : p ∈ w.lentPipes build g detach call) : detach = false := by
  cases detach with
  | false => rfl
  | true => simp [lentPipes,lentTo,lends] at member

-- The call itself ends no body: its caller goes on, below what it was below.
theorem Inside.kept (inside : w.Inside call p k) (sound : w.Sound) (valid : call.Valid w.world.base)
    (may : w.world.Allowed m) (goes_on : ∀ t, m ≠ .base (.bodyEnd t)) :
    ∃ t, call.body = some t ∧ ((w.world.apply m).base.progress t).status = .running ∧
      ∀ x i, k.link.party = .link x i → (w.world.apply m).Under t x := by
  obtain ⟨_,t,called,gates⟩ := inside
  have running := valid.running t called
  have still := World.body_kept sound.world may running (goes_on t)
  refine ⟨t,called,still,?_⟩
  intro x i party
  exact World.under_kept sound.world may (gates x i party) (fun ends => absurd ends (goes_on x)) (.inl (by rw [running]; rfl))
    (.inl (by rw [still]; rfl))

-- The loans a call makes are backed from the start.
theorem execute_backed (sound : w.Sound) (allowed : w.Allowed build (.execute g done token detach quiet call backing))
    (attended : w.Attended build (.execute g done token detach quiet call backing))
    (member : (b,loan) ∈ w.made build (.execute g done token detach quiet call backing)) :
    (w.apply build (.execute g done token detach quiet call backing)).world.Backed b loan := by
  obtain ⟨i,link,within,rfl,declared,lent,rfl⟩ := (mem_runLoans _ _ _ _).mp member
  obtain ⟨may,_,valid,answered⟩ := allowed
  have inside := attended link.pipe lent
  obtain ⟨t,body,running,gates⟩ := inside.kept sound valid may (by simp [started])
  obtain rfl := lentPipes_attached lent
  refine ⟨?_,?_,?_⟩
  · exact covers_trans ((answered link.pipe lent).covers valid) (pipeMode_covers (d.graph g) declared)
  · show backing link.pipe ∈ ((w.world.apply (w.started build g done token false call)).base.pipes link.pipe).outstanding
    rw [started,World.execute_pipes]
    exact inside.out
  · cases joins : call.current with
    | true =>
      -- the handle has joined the calling task, and stands between the nodes and it
      have task : call.currentTask = some t := by simp [Call.currentTask,joins,body]
      refine ⟨done,by simp [runAnchor,task],.inr ⟨g,i,within,rfl,?_⟩,?_⟩
      · show ((World.setRun w.world g (.rearm (d.graph g) token done) _).runs g).done = some done
        rw [World.setRun_own]
        rfl
      · intro x j party
        refine (gates x j party).imp_left (Relation.ReflTransGen.head (.inl ?_))
        show ((w.world.apply (w.started build g done token false call)).base.blocks done).nestedParent = some t
        simp only [started,task,Bool.false_eq_true,if_false]
        exact World.execute_joins ..
    | false =>
      have task : call.currentTask = none := by simp [Call.currentTask,joins]
      exact ⟨t,by simp [runAnchor,task,body],.inl running,gates⟩

theorem bindLinks_backed (sound : w.Sound) (allowed : w.Allowed build (.bindLinks op call backing))
    (attended : w.Attended build (.bindLinks op call backing)) (member : (b,loan) ∈ w.made build (.bindLinks op call backing)) :
    (w.apply build (.bindLinks op call backing)).world.Backed b loan := by
  simp only [made,List.mem_map] at member
  obtain ⟨link,lent,same⟩ := member
  cases same
  obtain ⟨may,_,valid,answered⟩ := allowed
  have inside := attended link lent
  obtain ⟨t,body,running,gates⟩ := inside.kept sound valid may (by simp)
  exact ⟨(answered link lent).covers valid,inside.out,t,body,.inl running,gates⟩

theorem made_backed (sound : w.Sound) (allowed : w.Allowed build a) (attended : w.Attended build a)
    (member : (b,loan) ∈ w.made build a) : (w.apply build a).world.Backed b loan := by
  cases a with
  | world a => cases member
  | execute g done token detach quiet call backing => exact execute_backed sound allowed attended member
  | bindLinks op call backing => exact bindLinks_backed sound allowed attended member

theorem old_backed (sound : w.Sound) (allowed : w.Allowed build a) (attended : w.Attended build a)
    (member : (b,loan) ∈ w.loans) (backed : w.world.Backed b loan)
    (live : ((w.apply build a).world.base.progress b).status.resting = false) :
    (w.apply build a).world.Backed b loan := by
  refine backed.kept sound.world (step_allowed allowed) (sound.live b loan member) live ?_ ?_ ?_
  · intro c anchor ends
    cases a with
    | world a =>
      obtain rfl : a = .base (.bodyEnd c) := ends
      exact (attended _ member).1 anchor
    | execute g done token detach quiet call backing => simp [step,started] at ends
    | bindLinks op call backing => simp [step] at ends
  · intro x i party ends
    cases a with
    | world a =>
      obtain rfl : a = .base (.bodyEnd x) := ends
      exact (attended _ member).2 i party
    | execute g done token detach quiet call backing => simp [step,started] at ends
    | bindLinks op call backing => simp [step] at ends
  · intro h o party releases
    cases a with
    | world a =>
      obtain rfl : a = .base (.releaseHold h) := releases
      exact attended _ member o party
    | execute g done token detach quiet call backing => simp [step,started] at releases
    | bindLinks op call backing => simp [step] at releases

theorem reached_backed (path : Machines.Reached (attendedSystem build d) w) :
    ∀ b loan, (b,loan) ∈ w.loans → w.world.Backed b loan := by
  have sound : ∀ {w}, Machines.Reached (attendedSystem build d) w → Sound w := fun path =>
    reached_sound ((attended_restricts build d).reached path)
  induction path with
  | start begun =>
    rw [begun]
    intro b loan member
    cases member
  | step prior allowed ih =>
    obtain ⟨may,attended⟩ := allowed
    intro b loan member
    obtain ⟨source,live⟩ := mem_apply.mp member
    rcases source with old | new
    · exact old_backed (sound prior) may attended old (ih b loan old) live
    · exact made_backed (sound prior) may attended new

end LendWorld

-- Where the callers see to it, whatever a body works on without a turn of its own is
-- under an admission that covers it, from before the body begins to after it has ended.
theorem lends_contained {w : LendWorld d} (path : Machines.Reached (attendedSystem build d) w) :
    w.Contained ∧ ∀ a, w.Allowed build a → LendWorld.Accounted build w a := by
  refine ⟨?_,?_⟩
  · intro b loan member
    have backed := LendWorld.reached_backed path b loan member
    exact ⟨backed.covers,backed.out⟩
  · intro a allowed
    exact LendWorld.accounted (LendWorld.reached_sound ((attended_restricts build d).reached path)) allowed

-- Task 0 writes object 0. Its window, and a call from its body that brings it along.
def outerTicket : Ticket := ⟨0,⟨.link 0 0,.readWrite⟩⟩

def outerCall (current : Bool) : Call where
  body := some 0
  current := current
  declared := [(⟨0,.readWrite,some 0,1,0⟩,outerTicket)]

-- The pair graph run from that body, up to the body of its first node.
def outerBody : List (LendAction pairDeployment) :=
  [.world (.base (.arm 0 .executable (.single ⟨0,.readWrite⟩) none)),.world (.base (.launch 0)),
    .world (.base (.resume (.own 0 (.fireTurn 0)))),.world (.base (.resume (.own 0 .turnRelease))),
    .world (.base (.resume (.own 0 .execute)))]

def nestedRun : List (LendAction pairDeployment) :=
  outerBody++[.execute pairId 5 none false true (outerCall true) (fun _ => outerTicket),.world (.tail pairId (.kick [0])),
    .world (.base (.resume (.own 10 .execute)))]

theorem nested_attended :
    Machines.Reached (attendedSystem .checked pairDeployment) ((lendSystem .checked pairDeployment).follow {} nestedRun) := by
  refine .step (.step (.step (.step (.step (.step (.step (.step (.start rfl) ?_) ?_) ?_) ?_) ?_) ?_) ?_) ?_
  all_goals refine ⟨by decide,?_⟩
  all_goals try trivial
  intro p lent
  have touched : p ∈ pairGraph.distinctPipes := (List.mem_filter.mp lent).1
  rw [show pairGraph.distinctPipes = [0] by decide,List.mem_singleton] at touched
  subst touched
  refine ⟨by decide,0,rfl,?_⟩
  intro x i party
  cases party
  exact .inl .refl

theorem lends_contained_nested :
    (((lendSystem .checked pairDeployment).follow {} nestedRun).world.base.progress 10).status = .running ∧
    outerTicket ∈ (((lendSystem .checked pairDeployment).follow {} nestedRun).world.base.pipes 0).outstanding :=
  ⟨by decide,((lends_contained nested_attended).1 10 ⟨⟨0,.readWrite⟩,outerTicket,some 5⟩ (by decide)).2⟩

-- A helper of the same body starts the run: it lends, and joins nothing. The body
-- ends, and the node runs with no admission left on its object.
def helperRun : List (LendAction pairDeployment) :=
  outerBody++[.execute pairId 5 none false true (outerCall false) (fun _ => outerTicket),.world (.tail pairId (.kick [0])),
    .world (.base (.bodyEnd 0)),.world (.base (.resume (.own 0 (.complete false)))),
    .world (.base (.resume (.own 0 (.advance 0 false)))),.world (.base (.resume (.own 10 .execute)))]

theorem lends_escape_helper :
    Machines.Reached (lendSystem .checked pairDeployment) ((lendSystem .checked pairDeployment).follow {} helperRun) ∧
    (((lendSystem .checked pairDeployment).follow {} helperRun).world.base.progress 10).status = .running ∧
    (((lendSystem .checked pairDeployment).follow {} helperRun).world.base.pipes 0).outstanding = [] ∧
    ¬ ((lendSystem .checked pairDeployment).follow {} helperRun).Contained := by
  have gone : (((lendSystem .checked pairDeployment).follow {} helperRun).world.base.pipes 0).outstanding = [] := by decide
  refine ⟨Machines.reached_follow (.start rfl) (by decide),by decide,gone,?_⟩
  intro contained
  have out := (contained 10 ⟨⟨0,.readWrite⟩,outerTicket,some 0⟩ (by decide)).2
  rw [show (⟨⟨0,.readWrite⟩,outerTicket,some 0⟩ : Loan).link.pipe = 0 from rfl,gone] at out
  cases out

end Macrame

import Macrame.Lib.Turns
import Macrame.PhaseLoopLaws

namespace Macrame
open Machines Turns

namespace Coloring

def band (c : Coloring) (phase : Nat) : List (Nat × Nat) := (List.range (c.bandSize phase)).map (fun place => (phase,place))

-- The items of the phases before this one.
def before (c : Coloring) (phase : Nat) : List (Nat × Nat) := (List.range phase).flatMap c.band

-- The calls of `st->body`, each with the argument of its item.
def calls (c : Coloring) (body : Int → Turn ℓ μ) (item : Nat × Nat) : Turn ℓ μ := body (c.argument item)

theorem before_succ (c : Coloring) (phase : Nat) : c.before (phase+1) = c.before phase++c.band phase := by
  unfold before
  rw [List.range_succ,List.flatMap_append]
  simp only [List.flatMap_singleton]

theorem mem_band (c : Coloring) (phase : Nat) (item : Nat × Nat) : item ∈ c.band phase ↔ item.1 = phase ∧ item.2 < c.bandSize phase := by
  obtain ⟨p,i⟩ := item
  unfold band
  simp only [List.mem_map,List.mem_range,Prod.mk.injEq]
  constructor
  · rintro ⟨place,inside,rfl,rfl⟩
    exact ⟨rfl,inside⟩
  · rintro ⟨rfl,inside⟩
    exact ⟨i,inside,rfl,rfl⟩

theorem nodup_band (c : Coloring) (phase : Nat) : (c.band phase).Nodup :=
  List.Nodup.map (fun _ _ same => (Prod.mk.inj same).2) List.nodup_range

end Coloring

namespace ColoredSolve

-- The item an executor is in the body with.
def inBody (s : PhaseState) (e : Nat) : Option (Nat × Nat) :=
  match s.stages e with
  | .inside phase _ _ next => some (phase,next)
  | _ => none

-- The loop, and what its bodies compute on: a body's accesses are turns of their
-- own among those of the other executors. `opening` is the memory as the open
-- phase began and `turns` what has been done to it since: both are history.
structure Solve (ℓ μ : Type) where
  loop : PhaseState := {}
  shared : Shared (Nat × Nat) ℓ μ
  opening : Shared (Nat × Nat) ℓ μ
  turns : List (Nat × Nat) := []

inductive SolveAction where
  | loop (a : PhaseAction)
  | turn (e : Nat)
  deriving DecidableEq, Repr

def returned (c : Coloring) (body : Int → Turn ℓ μ) (s : Solve ℓ μ) : PhaseAction → Prop
  | .step e _ => ∀ item ∈ inBody s.loop e, Returned (c.calls body) s.shared item
  | _ => True

-- An executor leaves the body when the body has returned.
def Allowed (c : Coloring) (body : Int → Turn ℓ μ) (s : Solve ℓ μ) : SolveAction → Prop
  | .loop a => s.loop.Allowed a ∧ returned c body s a
  | .turn e => ∃ item ∈ inBody s.loop e, ¬ Returned (c.calls body) s.shared item

def apply (c : Coloring) (body : Int → Turn ℓ μ) (s : Solve ℓ μ) : SolveAction → Solve ℓ μ
  | .loop a =>
    let next := s.loop.apply c a
    if next.word.phase = s.loop.word.phase then {s with loop := next}
    else {s with loop := next, opening := s.shared, turns := []}
  | .turn e =>
    match inBody s.loop e with
    | none => s
    | some item => {s with shared := take (c.calls body) s.shared item, turns := s.turns++[item]}

def fresh (first : ℓ) (memory : μ) : Shared (Nat × Nat) ℓ μ := ⟨fun _ => first,memory⟩

def solveSystem (c : Coloring) (body : Int → Turn ℓ μ) (first : ℓ) (memory : μ) : Machine (Solve ℓ μ) SolveAction :=
  ⟨(· = ⟨{},fresh first memory,fresh first memory,[]⟩),Allowed c body,apply c body⟩

instance decideReturned (c : Coloring) (body : Int → Turn ℓ μ) (s : Solve ℓ μ) : (a : PhaseAction) → Decidable (returned c body s a)
  | .step e _ => inferInstanceAs (Decidable (∀ item ∈ inBody s.loop e, _))
  | .call => .isTrue trivial
  | .start => .isTrue trivial

instance decideAllowed (c : Coloring) (body : Int → Turn ℓ μ) (s : Solve ℓ μ) : (a : SolveAction) → Decidable (Allowed c body s a)
  | .loop _ => inferInstanceAs (Decidable (_ ∧ _))
  | .turn e => inferInstanceAs (Decidable (∃ item ∈ inBody s.loop e, _))

instance decideSolve (c : Coloring) (body : Int → Turn ℓ μ) (first : ℓ) (memory : μ) (s : Solve ℓ μ) (a : SolveAction) :
    Decidable ((solveSystem c body first memory).allowed s a) :=
  decideAllowed c body s a

-- The bodies of one band do not disturb each other.
def Disjoint (bands : List (List Int)) (body : Int → Turn ℓ μ) : Prop :=
  ∀ band ∈ bands, band.Pairwise (fun a b => Apart (body a) (body b))

-- The closed phases have come to their items one after another, and the open one
-- to the turns taken in it; a body that has returned stays so.
structure Kept (c : Coloring) (body : Int → Turn ℓ μ) (start : Shared (Nat × Nat) ℓ μ) (s : Solve ℓ μ) : Prop where
  swept : Sweeps (c.calls body) (c.before s.loop.word.phase) start s.opening
  played : s.shared = s.turns.foldl (take (c.calls body)) s.opening
  current : ∀ item ∈ s.turns, item ∈ c.items ∧ item.1 = s.loop.word.phase
  finished : ∀ item ∈ s.loop.ended, item.1 = s.loop.word.phase → Returned (c.calls body) s.shared item

section Loop

variable {s : PhaseState} {c : Coloring}

theorem inBody_busy (here : inBody s e = some item) : (s.stages e).busy item = 1 := by
  unfold inBody at here
  cases stage : s.stages e with
  | inside phase start stop next =>
    rw [stage] at here
    cases here
    exact if_pos rfl
  | _ =>
    rw [stage] at here
    cases here

-- An item in the body is of the open phase, begun and not ended.
theorem inBody_open (paced : s.Paced c) (here : inBody s e = some item) :
    item ∈ c.items ∧ item.1 = s.word.phase ∧ item ∉ s.ended := by
  have fits := paced.fits e
  have within : e < s.crew := by
    by_contra out
    have none := paced.unborn e (Nat.not_lt.mp out)
    unfold inBody at here
    rw [none] at here
    cases here
  have one := PhaseState.Paced.weigh (s := s) (PhaseStage.busy item) within
  rw [inBody_busy here] at one
  have begins := paced.begins item
  have returns := paced.returns item
  have claimed : PhaseState.Claimed c s.word item := by
    by_contra none
    rw [if_neg none] at begins
    omega
  rw [if_pos claimed] at begins
  refine ⟨(c.mem_items item).mpr ⟨claimed.1,claimed.2.1⟩,?_,?_⟩
  · unfold inBody at here
    cases stage : s.stages e with
    | inside phase start stop next =>
      rw [stage] at here fits
      cases here
      exact fits.1
    | _ =>
      rw [stage] at here
      cases here
  · intro member
    have some := List.count_pos_iff.mpr member
    omega

-- When the word goes on, no item has ended in that step; else at most the one
-- that the executor was in the body with.
theorem step_word (choice : Bool) (few : c.rounds*c.full.length ≤ intMax) (busy : c.idle = false) (paced : s.Paced c)
    (within : e < s.crew) :
    (s.step c e choice).word.phase = s.word.phase ∧
      ((s.step c e choice).ended = s.ended ∨ ∃ item, inBody s e = some item ∧ (s.step c e choice).ended = s.ended++[item]) ∨
    (s.step c e choice).word.phase = s.word.phase+1 ∧ (s.step c e choice).ended = s.ended := by
  have fits := paced.fits e
  cases stage : s.stages e with
  | claiming cur =>
    refine .inl ⟨?_,.inl ?_⟩
    · rcases PhaseState.claiming_word (c := c) choice stage with still | ⟨same,stop,word⟩
      · rw [still]
      · rw [word,same]
    · unfold PhaseState.step
      rw [stage]
      simp only
      split <;> rfl
  | running phase start stop next =>
    refine .inl ?_
    unfold PhaseState.step
    rw [stage]
    simp only
    split
    · exact ⟨rfl,.inl rfl⟩
    · exact ⟨rfl,.inl rfl⟩
  | inside phase start stop next =>
    unfold PhaseState.step inBody
    rw [stage]
    exact .inl ⟨rfl,.inr ⟨(phase,next),rfl,rfl⟩⟩
  | advancing phase =>
    rw [stage] at fits
    unfold PhaseState.step
    rw [stage]
    refine .inr ⟨?_,rfl⟩
    change phase+1 = s.word.phase+1
    rw [fits.1]
  | ending phase =>
    rw [stage] at fits
    obtain ⟨same,last⟩ := fits
    have under := (paced.alone within (by rw [stage]; rfl)).2.2.2.2
    have total := c.phasesInt_eq busy few
    unfold PhaseState.step
    rw [stage]
    refine .inr ⟨?_,rfl⟩
    change c.phasesInt.toNat = s.word.phase+1
    omega
  | _ =>
    unfold PhaseState.step
    rw [stage]
    exact .inl ⟨rfl,.inl rfl⟩

-- Every item of a closed phase has ended.
theorem closed_ended (paced : s.Paced c) (member : item ∈ c.items) (earlier : item.1 < s.word.phase) : item ∈ s.ended := by
  obtain ⟨inside,place⟩ := (c.mem_items item).mp member
  have begins := paced.begins item
  have returns := paced.returns item
  rw [if_pos ⟨inside,place,.inl earlier⟩] at begins
  -- an executor with a chunk has it of the open phase
  have rest : s.total (PhaseStage.rest item) = 0 := by
    refine Tally.tally_zero.mpr ?_
    intro e _
    have fits := paced.fits e
    cases stage : s.stages e with
    | running phase start stop next =>
      rw [stage] at fits
      exact if_neg (fun same => Nat.ne_of_lt earlier (same.1.trans fits.1))
    | inside phase start stop next =>
      rw [stage] at fits
      exact if_neg (fun same => Nat.ne_of_lt earlier (same.1.trans fits.1))
    | _ => rfl
  have busy : s.total (PhaseStage.busy item) = 0 := by
    refine Tally.tally_zero.mpr ?_
    intro e _
    have fits := paced.fits e
    cases stage : s.stages e with
    | inside phase start stop next =>
      rw [stage] at fits
      exact if_neg (fun same => Nat.ne_of_lt earlier ((congrArg Prod.fst same).symm.trans fits.1))
    | _ => rfl
  refine List.count_pos_iff.mp ?_
  omega

end Loop

section Solves

variable {s : Solve ℓ μ} {c : Coloring} {body : Int → Turn ℓ μ} {start : Shared (Nat × Nat) ℓ μ}

theorem same_band {i j : Nat × Nat} (one : i ∈ c.items) (two : j ∈ c.items) (same : i.1 = j.1) :
    i ∈ c.band i.1 ∧ j ∈ c.band i.1 := by
  have first := ((c.mem_items i).mp one).2
  have second := ((c.mem_items j).mp two).2
  rw [← same] at second
  exact ⟨(c.mem_band i.1 i).mpr ⟨rfl,first⟩,(c.mem_band i.1 j).mpr ⟨same.symm,second⟩⟩

theorem Disjoint.calls (disjoint : Disjoint c.bands body) (one : i ∈ c.band phase) (two : j ∈ c.band phase) (other : i ≠ j) :
    Apart (c.calls body i) (c.calls body j) := by
  obtain ⟨mine,inside⟩ := (c.mem_band phase i).mp one
  obtain ⟨theirs,inside'⟩ := (c.mem_band phase j).mp two
  obtain ⟨p,a⟩ := i
  obtain ⟨q,b⟩ := j
  dsimp only at mine theirs inside inside'
  subst mine
  subst theirs
  unfold Coloring.bandSize at inside inside'
  unfold Coloring.calls Coloring.argument
  dsimp only
  have size : q % c.full.length < c.full.length := by
    by_contra out
    rw [List.getD_eq_getElem?_getD,List.getElem?_eq_none (Nat.not_lt.mp out)] at inside
    exact absurd inside (Nat.not_lt_zero a)
  have getD_of : ∀ {α : Type} (list : List α) (i : Nat) (default : α) (inside : i < list.length), list.getD i default = list[i] := by
    intro α list i default inside
    rw [List.getD_eq_getElem?_getD,List.getElem?_eq_getElem inside,Option.getD_some]
  rw [getD_of _ _ _ size] at inside inside' ⊢
  have pairwise := disjoint _ (List.mem_filter.mp (List.getElem_mem size)).1
  rw [getD_of _ _ _ inside,getD_of _ _ _ inside']
  have apart : a ≠ b := fun same => other (by rw [same])
  rcases Nat.lt_or_gt_of_ne apart with less | more
  · exact List.pairwise_iff_getElem.mp pairwise a b inside inside' less
  · exact (List.pairwise_iff_getElem.mp pairwise b a inside' inside more).symm

theorem Kept.turn (kept : Kept c body start s) (disjoint : Disjoint c.bands body) (paced : s.loop.Paced c)
    (here : inBody s.loop e = some item) : Kept c body start (apply c body s (.turn e)) := by
  obtain ⟨listed,mine,unended⟩ := inBody_open paced here
  have next : apply c body s (.turn e) = {s with
      shared := take (c.calls body) s.shared item, turns := s.turns++[item]} := by
    unfold apply
    dsimp only
    rw [here]
  rw [next]
  refine ⟨kept.swept,?_,?_,?_⟩
  · rw [List.foldl_append,← kept.played]
    rfl
  · intro j member
    rcases List.mem_append.mp member with prior | last
    · exact kept.current j prior
    · rw [List.mem_singleton.mp last]
      exact ⟨listed,mine⟩
  · intro j ended phase
    have other : j ≠ item := fun same => unended (same ▸ ended)
    have known : j ∈ c.items := by
      have returns := paced.returns j
      have begins := paced.begins j
      have some : 0 < s.loop.ended.count j := List.count_pos_iff.mpr ended
      by_contra foreign
      rw [if_neg (fun claimed => foreign ((c.mem_items j).mpr ⟨claimed.1,claimed.2.1⟩))] at begins
      omega
    obtain ⟨one,two⟩ := same_band known listed (phase.trans mine.symm)
    exact (returned_iff (disjoint.calls two one (fun same => other same.symm)) other).mpr (kept.finished j ended phase)

-- The turns of a band that is all done come to its items one after another.
theorem Kept.closes (kept : Kept c body start s) (disjoint : Disjoint c.bands body)
    (ended : ∀ item ∈ c.band s.loop.word.phase, item ∈ s.loop.ended) :
    Sweeps (c.calls body) (c.before (s.loop.word.phase+1)) start s.shared := by
  rw [c.before_succ]
  refine kept.swept.append ?_
  rw [kept.played]
  refine sweeps_of_turns _ s.turns (c.nodup_band _) (fun _ one _ two other => disjoint.calls one two other) ?_ ?_
  · intro item member
    obtain ⟨listed,mine⟩ := kept.current item member
    rw [c.mem_band,← mine]
    exact ⟨rfl,((c.mem_items item).mp listed).2⟩
  · intro item member
    rw [← kept.played]
    exact kept.finished item (ended item member) ((c.mem_band _ item).mp member).1

theorem Kept.loop (kept : Kept c body start s) (disjoint : Disjoint c.bands body) (few : c.rounds*c.full.length ≤ intMax)
    (fits : c.sizesFit) (busy : c.idle = false) (paced : s.loop.Paced c) (within : e < s.loop.crew)
    (back : returned c body s (.step e choice)) : Kept c body start (apply c body s (.loop (.step e choice))) := by
  have later : (s.loop.step c e choice).Paced c := PhaseState.step_paced fits busy few paced within
  unfold apply
  dsimp only
  change Kept c body start (if (s.loop.step c e choice).word.phase = s.loop.word.phase then _ else _)
  rcases step_word choice few busy paced within with ⟨same,ends⟩ | ⟨turned,ends⟩
  · rw [if_pos same]
    refine ⟨?_,kept.played,?_,?_⟩
    · change Sweeps _ (c.before (s.loop.step c e choice).word.phase) _ _
      rw [same]
      exact kept.swept
    · intro item member
      change _ ∧ item.1 = (s.loop.step c e choice).word.phase
      rw [same]
      exact kept.current item member
    · intro item member phase
      change item ∈ (s.loop.step c e choice).ended at member
      change item.1 = (s.loop.step c e choice).word.phase at phase
      rw [same] at phase
      rcases ends with still | ⟨last,here,more⟩
      · rw [still] at member
        exact kept.finished item member phase
      · rw [more] at member
        rcases List.mem_append.mp member with prior | new
        · exact kept.finished item prior phase
        · rw [List.mem_singleton.mp new]
          exact back last here
  · rw [if_neg (by omega)]
    have bound := later.phases
    have closed : Sweeps (c.calls body) (c.before (s.loop.word.phase+1)) start s.shared := by
      refine kept.closes disjoint ?_
      intro item member
      obtain ⟨mine,place⟩ := (c.mem_band _ item).mp member
      have listed : item ∈ c.items := (c.mem_items item).mpr ⟨by omega,by rw [mine]; exact place⟩
      rw [← ends]
      exact closed_ended later listed (by omega)
    refine ⟨?_,rfl,nofun,?_⟩
    · change Sweeps _ (c.before (s.loop.step c e choice).word.phase) _ _
      rw [turned]
      exact closed
    · intro item member phase
      change item ∈ (s.loop.step c e choice).ended at member
      change item.1 = (s.loop.step c e choice).word.phase at phase
      rw [ends] at member
      have returns := paced.returns item
      have begins := paced.begins item
      have some := List.count_pos_iff.mpr member
      by_contra _
      rw [if_neg (by rintro ⟨-,-,lower | ⟨lower,-⟩⟩ <;> omega)] at begins
      omega

theorem reached_loop (path : Reached (solveSystem c body first memory) s) : Reached (phaseSystem c) s.loop := by
  refine reached_view Solve.loop ?_ ?_ path
  · intro s begun
    rw [show s = _ from begun]
    rfl
  · intro s a allowed
    cases a with
    | loop a =>
      refine .inr ⟨a,allowed.1,?_⟩
      change (apply c body s (.loop a)).loop = s.loop.apply c a
      unfold apply
      dsimp only
      split <;> rfl
    | turn e =>
      refine .inl ?_
      change (apply c body s (.turn e)).loop = s.loop
      unfold apply
      dsimp only
      split <;> rfl

theorem reached_kept (few : c.rounds*c.full.length ≤ intMax) (fits : 0 < c.rounds → c.sizesFit) (disjoint : Disjoint c.bands body)
    (path : Reached (solveSystem c body first memory) s) : Kept c body (fresh first memory) s := by
  refine reached_invariant_from (fun s => s.loop.Standing c) (Kept c body (fresh first memory)) ?_ ?_ ?_ path
  · exact fun s path => PhaseState.reached_standing fits few (reached_loop path)
  · intro s begun
    rw [show s = _ from begun]
    exact ⟨.nil,rfl,nofun,nofun⟩
  · intro s a standing kept allowed
    cases a with
    | turn e =>
      obtain ⟨item,here,-⟩ := allowed
      have here : inBody s.loop e = some item := here
      rcases standing with begun | ⟨-,gone⟩ | ⟨-,-,-,paced⟩
      · rw [begun] at here
        cases here
      · rw [gone] at here
        cases here
      · exact kept.turn disjoint paced here
    | loop a =>
      obtain ⟨ready,back⟩ := allowed
      cases a with
      | call =>
        have same : apply c body s (.loop .call) = {s with
            loop := s.loop.apply c .call} := if_pos rfl
        change Kept c body _ (apply c body s (.loop .call))
        rw [same]
        exact ⟨kept.swept,kept.played,kept.current,kept.finished⟩
      | start =>
        have same : apply c body s (.loop .start) = {s with
            loop := s.loop.apply c .start} := if_pos rfl
        change Kept c body _ (apply c body s (.loop .start))
        rw [same]
        exact ⟨kept.swept,kept.played,kept.current,kept.finished⟩
      | step e choice =>
        obtain ⟨within,-⟩ := ready
        rcases standing with begun | ⟨-,gone⟩ | ⟨busy,-,-,paced⟩
        · rw [begun] at within
          cases within
        · rw [gone] at within
          cases within
        · exact kept.loop disjoint few (fits (c.rounds_pos busy)) busy paced within back

-- The call has returned.
def Solve.Over (s : Solve ℓ μ) : Prop := s.loop.settles = 1 ∨ s.loop.dismissed = true

theorem over_sweeps (few : c.rounds*c.full.length ≤ intMax) (fits : 0 < c.rounds → c.sizesFit) (disjoint : Disjoint c.bands body)
    (path : Reached (solveSystem c body first memory) s) (over_ : s.Over) :
    Sweeps (c.calls body) c.items (fresh first memory) s.shared := by
  have kept := reached_kept few fits disjoint path
  have whole : s.loop.word.phase = c.totalPhases := by
    rcases PhaseState.reached_standing fits few (reached_loop path) with begun | ⟨idle,gone⟩ | ⟨-,-,working,paced⟩
    · unfold Solve.Over at over_
      rw [begun] at over_
      rcases over_ with settled | gone
      · cases settled
      · cases gone
    · have none := c.items_idle fits idle
      rw [gone]
      change 0 = c.totalPhases
      by_contra some
      have inside : 0 < c.totalPhases := by omega
      have item : (0,0) ∈ c.items := (c.mem_items (0,0)).mpr ⟨inside,c.bandSize_pos inside⟩
      rw [none] at item
      cases item
    · have settling := paced.settling
      by_contra early
      rw [if_neg early] at settling
      rcases over_ with settled | gone
      · omega
      · rw [working] at gone
        cases gone
  -- no item is of a phase past the last
  have rested : s.turns = [] := by
    refine List.eq_nil_iff_forall_not_mem.mpr ?_
    intro item member
    obtain ⟨listed,mine⟩ := kept.current item member
    have inside := ((c.mem_items item).mp listed).1
    omega
  have same := kept.played
  rw [rested] at same
  rw [same]
  change Sweeps _ (c.before c.totalPhases) _ _
  rw [← whole]
  exact kept.swept

end Solves

theorem solves_agree {c d : Coloring} (same : d.bands = c.bands ∧ d.rounds = c.rounds) (few : c.rounds*c.full.length ≤ intMax)
    (fits : 0 < c.rounds → c.sizesFit) (fits' : 0 < d.rounds → d.sizesFit) (disjoint : Disjoint c.bands body)
    (one : Reached (solveSystem c body first memory) s) (two : Reached (solveSystem d body first memory) t)
    (done : s.Over) (done' : t.Over) :
    Sweeps (c.calls body) c.items (fresh first memory) s.shared ∧ t.shared = s.shared := by
  have mine := over_sweeps few fits disjoint one done
  have full : d.full = c.full := by
    unfold Coloring.full
    rw [same.1]
  have items : d.items = c.items := by
    unfold Coloring.items Coloring.totalPhases Coloring.bandSize
    rw [full,same.2]
  have calls : d.calls body = c.calls body := by
    funext item
    unfold Coloring.calls Coloring.argument
    rw [full]
  have theirs := over_sweeps (by rw [same.2,full]; exact few) fits' (by rw [same.1]; exact disjoint) two done'
  rw [items,calls] at theirs
  exact ⟨mine,theirs.unique mine⟩

-- Whatever the number of executors, their chunks and the order of their accesses,
-- the solve comes to what one thread computes, band by band.
theorem colored_deterministic {c d : Coloring} (same : d.bands = c.bands ∧ d.rounds = c.rounds) (few : c.rounds*c.full.length ≤ intMax)
    (fits : 0 < c.rounds → c.sizesFit) (fits' : 0 < d.rounds → d.sizesFit) (disjoint : Disjoint c.bands body)
    (one : Reached (solveSystem c body first memory) s) (two : Reached (solveSystem d body first memory) t)
    (done : s.Over) (done' : t.Over) :
    Sweeps (c.calls body) c.items (fresh first memory) s.shared ∧ t.shared = s.shared :=
  solves_agree same few fits fits' disjoint one two done done'

-- A body of two accesses to the cell of its argument.
def twice (argument : Int) : Turn Nat (Int → Int) := fun counter memory =>
  if counter < 2 then some (counter+1,Function.update memory argument (2*memory argument+argument)) else none

theorem twice_within (argument : Int) : Within (· = argument) (twice argument) := by
  constructor
  · intro counter memory next changed moved cell foreign
    unfold twice at moved
    split at moved
    · cases moved
      exact Function.update_of_ne foreign ..
    · cases moved
  · intro counter m n agree
    unfold twice
    split
    · refine ⟨iff_of_false nofun nofun,?_⟩
      intro next changed moved
      cases moved
      refine ⟨_,rfl,?_⟩
      rintro cell rfl
      rw [Function.update_self,Function.update_self,agree cell rfl]
    · exact ⟨iff_of_true rfl rfl,nofun⟩

def wideSolve : Coloring := ⟨[[8,9]],1,2,.guided,none,2,0,none,false⟩

def loneSolve : Coloring := ⟨[[8,9]],1,1,.unbalanced,none,0,0,none,false⟩

-- Two executors in the band at once, their accesses interleaved.
def wideRun : List SolveAction :=
  [SolveAction.loop .call,.loop .start,.loop .start]++List.replicate 5 (SolveAction.loop (.step 0 false))++
    List.replicate 5 (SolveAction.loop (.step 1 false))++[SolveAction.turn 1,.turn 0,.turn 0,.turn 1]++
    List.replicate 3 (SolveAction.loop (.step 1 false))++List.replicate 5 (SolveAction.loop (.step 0 false))

def loneRun : List SolveAction :=
  [SolveAction.loop .call,.loop .start]++List.replicate 5 (SolveAction.loop (.step 0 false))++[SolveAction.turn 0,.turn 0]++
    List.replicate 8 (SolveAction.loop (.step 0 false))++[SolveAction.turn 0,.turn 0]++
    List.replicate 5 (SolveAction.loop (.step 0 false))

theorem colored_deterministic_twice :
    let s := (solveSystem wideSolve twice 0 (fun _ => 1)).follow ⟨{},fresh 0 (fun _ => 1),fresh 0 (fun _ => 1),[]⟩ wideRun
    let t := (solveSystem loneSolve twice 0 (fun _ => 1)).follow ⟨{},fresh 0 (fun _ => 1),fresh 0 (fun _ => 1),[]⟩ loneRun
    s.shared.memory 9 = 31 ∧ Sweeps (wideSolve.calls twice) wideSolve.items (fresh 0 (fun _ => 1)) s.shared ∧ t.shared = s.shared := by
  have fits : wideSolve.sizesFit ∧ loneSolve.sizesFit := by
    refine ⟨?_,?_⟩
    all_goals
      intro band member
      rw [List.mem_singleton.mp member]
      refine ⟨by decide,?_⟩
      first
      | exact trivial
      | exact (by decide : 2*wideSolve.workersInt ≤ intMax)
  have disjoint : Disjoint wideSolve.bands twice := by
    intro band member
    rw [List.mem_singleton.mp member,List.pairwise_pair]
    exact apart_of_within (twice_within 8) (twice_within 9) (by rintro cell ⟨rfl,other⟩; cases other)
  refine ⟨by decide +kernel,?_⟩
  refine colored_deterministic (c := wideSolve) (d := loneSolve) ⟨rfl,rfl⟩ (by decide) (fun _ => fits.1) (fun _ => fits.2) disjoint ?_ ?_ (.inl (by decide +kernel))
    (.inl (by decide +kernel))
  · exact reached_follow (.start rfl) (by decide +kernel)
  · exact reached_follow (.start rfl) (by decide +kernel)

end ColoredSolve

end Macrame

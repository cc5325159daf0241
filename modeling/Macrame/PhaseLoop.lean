import Macrame.BandArithmetic

namespace Macrame

namespace Coloring

-- The items of a call, by phase and place in the band, and the argument of the
-- body for each.
def items (c : Coloring) : List (Nat × Nat) :=
  (List.range c.totalPhases).flatMap (fun phase => (List.range (c.bandSize phase)).map (fun place => (phase,place)))

def argument (c : Coloring) (item : Nat × Nat) : Int :=
  (c.full.getD (item.1 % c.full.length) []).getD item.2 0

-- A call that returns at once had nothing to do.
theorem items_idle (c : Coloring) (fits : 0 < c.rounds → c.sizesFit) (idle : c.idle = true) : c.items = [] := by
  have none : c.totalPhases = 0 := by
    unfold totalPhases
    by_cases rounds : 0 < c.rounds
    · have widest : c.widestInt = 0 := by
        unfold Coloring.idle at idle
        rw [decide_eq_false (Int.not_le.mpr rounds)] at idle
        exact eq_of_beq idle
      have empty : c.full = [] := by
        refine List.filter_eq_nil_iff.mpr ?_
        intro band member
        have most := (widest_bounds c.bands 0).2 band member
        change int32 band.length ≤ c.widestInt at most
        rw [int32_of_in ⟨by unfold intMax; omega,(fits rounds band member).1⟩,widest] at most
        have zero : band = [] := List.eq_nil_of_length_eq_zero (by omega)
        rw [zero]
        decide
      rw [empty]
      rfl
    · have zero : c.rounds.toNat = 0 := by omega
      rw [zero,Nat.zero_mul]
  rw [items,none]
  rfl

end Coloring

-- Where an executor stands in `run_loop`, its calls of the body told apart:
-- `running` is between two items, `inside` in the body with one.
inductive PhaseStage where
  | unborn
  | entering
  | looping (cur : PhaseWord)
  | pausing
  | judging (cur : PhaseWord)
  | waiting (cur : PhaseWord)
  | claiming (cur : PhaseWord)
  | running (phase start stop next : Nat)
  | inside (phase start stop next : Nat)
  | accounting (phase start stop : Nat)
  | resetting (phase : Nat)
  | advancing (phase : Nat)
  | ending (phase : Nat)
  | completing
  | left
  deriving DecidableEq, Repr

-- `Colored_state` and its executors, in the order they start. `begun` and `ended`
-- are the items the body has been entered with and has returned from, `opened` the
-- phases with what `band_done` was as each opened: all three are history.
structure PhaseState where
  called : Bool := false
  dismissed : Bool := false
  word : PhaseWord := {}
  bandDone : Int := 0
  crew : Nat := 0
  stages : Nat → PhaseStage := fun _ => .unborn
  begun : List (Nat × Nat) := []
  ended : List (Nat × Nat) := []
  opened : List (Nat × Int) := []
  settles : Nat := 0

-- `choice` is the answer of `yield_work_queued`, and of a weak CAS that fails
-- though the word is as expected.
inductive PhaseAction where
  | call
  | start
  | step (e : Nat) (choice : Bool)
  deriving DecidableEq, Repr

namespace PhaseState

def setStage (s : PhaseState) (e : Nat) (stage : PhaseStage) : PhaseState :=
  {s with stages := Function.update s.stages e stage}

def step (c : Coloring) (s : PhaseState) (e : Nat) (choice : Bool) : PhaseState :=
  match s.stages e with
  | .entering => s.setStage e (.looping s.word)
  | .looping cur => s.setStage e (if choice then .pausing else .judging cur)
  | .pausing => s.setStage e (.judging s.word)
  | .judging cur =>
    s.setStage e
      (if c.phasesInt ≤ cur.phase then .left
      else if c.bandInt cur.phase ≤ cur.next then .waiting cur
      else .claiming cur)
  | .waiting _ => s.setStage e (.looping s.word)
  | .claiming cur =>
    if s.word = cur ∧ choice = false then
      let size := c.bandInt cur.phase
      let stop := min (int32 (cur.next+claimGrainInt c.balance size cur.next c.workersInt)) size
      {s with word := ⟨cur.phase,stop.toNat⟩}.setStage e (.running cur.phase cur.next stop.toNat cur.next)
    else s.setStage e (.looping s.word)
  | .running phase start stop next =>
    if next < stop then {s with begun := s.begun++[(phase,next)]}.setStage e (.inside phase start stop next)
    else s.setStage e (.accounting phase start stop)
  | .inside phase start stop next =>
    {s with ended := s.ended++[(phase,next)]}.setStage e (.running phase start stop (next+1))
  | .accounting phase start stop =>
    let done := int32 (s.bandDone+((stop : Int)-start))
    {s with bandDone := done}.setStage e
      (if done = c.bandInt phase then
        if c.phasesInt ≤ (phase : Int)+1 then .ending phase else .resetting phase
      else .entering)
  | .resetting phase => {s with bandDone := 0}.setStage e (.advancing phase)
  | .advancing phase =>
    {s with word := ⟨phase+1,0⟩, opened := s.opened++[(phase+1,s.bandDone)]}.setStage e (.looping ⟨phase+1,0⟩)
  | .ending _ => {s with word := ⟨c.phasesInt.toNat,0⟩}.setStage e .completing
  | .completing => {s with settles := s.settles+1}.setStage e .left
  | _ => s

-- An executor that has left has no step; a wait ends when the word has changed.
def ready (s : PhaseState) (e : Nat) : Bool :=
  match s.stages e with
  | .unborn => false
  | .left => false
  | .waiting cur => s.word != cur
  | _ => true

def Allowed (s : PhaseState) : PhaseAction → Prop
  | .call => s.called = false
  | .start => s.called = true ∧ s.dismissed = false
  | .step e _ => e < s.crew ∧ s.ready e = true

def apply (c : Coloring) (s : PhaseState) : PhaseAction → PhaseState
  | .call => {s with called := true, dismissed := c.idle, opened := if c.idle then [] else [(0,0)]}
  | .start => {s with crew := s.crew+1}.setStage s.crew .entering
  | .step e choice => s.step c e choice

instance decideAllowed (s : PhaseState) : (a : PhaseAction) → Decidable (s.Allowed a)
  | .call => inferInstanceAs (Decidable (_ = _))
  | .start => inferInstanceAs (Decidable (_ ∧ _))
  | .step _ _ => inferInstanceAs (Decidable (_ ∧ _))

end PhaseState

def phaseSystem (c : Coloring) : Machines.Machine PhaseState PhaseAction :=
  ⟨(· = {}),PhaseState.Allowed,PhaseState.apply c⟩

instance decidePhases (c : Coloring) (s : PhaseState) (a : PhaseAction) : Decidable ((phaseSystem c).allowed s a) :=
  PhaseState.decideAllowed s a

end Macrame

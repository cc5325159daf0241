import Mathlib.Data.Int.DivMod
import Macrame.Colored

namespace Macrame

-- One flat loop: what `parallel_for` or `parallel_for_async` has been given, after
-- `effective_workers`. Only the asynchronous form installs a token.
structure Slicing where
  n : Int
  workers : Int
  balance : Balance
  token : Bool
  positive : 0 < n
  staffed : 1 ≤ workers
  spare : workers ≤ n

-- Where an executor stands in `run_loop`. `looping` is about to test the token,
-- `loading` to read `next` for its grain, `claiming` to add that; `sweeping` is
-- about to exchange `next` and `marking` to store `skipped`. `settling` has
-- accounted for the last item, `finishing` has read `skipped` since.
inductive SliceStage where
  | unborn
  | looping
  | loading
  | claiming (grain : Int)
  | sweeping
  | marking (start : Int)
  | running (start stop next : Int)
  | accounting (start stop : Int)
  | settling
  | finishing (cancelled : Bool)
  | left
  deriving DecidableEq, Repr

-- `Parallel_state` and its executors, in the order they start. `held` are the
-- values `next` has had, `given` the items the body has been called with, `passed`
-- those that a claim has skipped and `settles` the settles, `true` for a cancel:
-- all four are history.
structure SliceState where
  next : Int := 0
  held : List Int := [0]
  done : Int := 0
  skipped : Bool := false
  requested : Bool := false
  crew : Nat := 0
  stages : Nat → SliceStage := fun _ => .unborn
  given : List Int := []
  passed : List Int := []
  settles : List Bool := []

def indices (start stop : Int) : List Int := (List.range (stop-start).toNat).map (fun (k : Nat) => start+k)

-- `claimed` is what a relaxed load of `next` returns, `sees` what one of the token
-- does.
inductive SliceAction where
  | start
  | request
  | step (e : Nat) (claimed : Int) (sees : Bool)
  deriving DecidableEq, Repr

namespace SliceState

def setStage (s : SliceState) (e : Nat) (stage : SliceStage) : SliceState :=
  {s with stages := Function.update s.stages e stage}

def store (s : SliceState) (next : Int) : SliceState := {s with next := next, held := s.held++[next]}

-- `wrap` is what the width of `int` makes of a sum.
def step (wrap : Int → Int) (p : Slicing) (s : SliceState) (e : Nat) (claimed : Int) (sees : Bool) : SliceState :=
  match s.stages e with
  | .looping => s.setStage e (if sees then .sweeping else .loading)
  | .loading => s.setStage e (.claiming (claimGrainInt p.balance p.n claimed p.workers))
  | .claiming grain =>
    let start := s.next
    (s.store (wrap (start+grain))).setStage e
      (if p.n ≤ start then .left else .running start (min (wrap (start+grain)) p.n) start)
  | .sweeping =>
    let start := s.next
    if p.n ≤ start then (s.store p.n).setStage e .left
    else {s.store p.n with passed := s.passed++indices start p.n}.setStage e (.marking start)
  | .marking start => {s with skipped := true}.setStage e (.accounting start p.n)
  | .running start stop next =>
    if next < stop then {s with given := s.given++[next]}.setStage e (.running start stop (next+1))
    else s.setStage e (.accounting start stop)
  | .accounting start stop =>
    let done := wrap (s.done+(stop-start))
    {s with done := done}.setStage e (if done = p.n then .settling else .looping)
  | .settling => s.setStage e (.finishing s.skipped)
  | .finishing cancelled => {s with settles := s.settles++[cancelled]}.setStage e .looping
  | _ => s

def Allowed (p : Slicing) (s : SliceState) : SliceAction → Prop
  | .start => True
  | .request => p.token = true
  | .step e claimed sees =>
    e < s.crew ∧ s.stages e ≠ .left ∧ claimed ∈ s.held ∧ (sees = true → s.requested = true)

def apply (wrap : Int → Int) (p : Slicing) (s : SliceState) : SliceAction → SliceState
  | .start => {s with crew := s.crew+1}.setStage s.crew .looping
  | .request => {s with requested := true}
  | .step e claimed sees => s.step wrap p e claimed sees

instance decideAllowed (p : Slicing) (s : SliceState) : (a : SliceAction) → Decidable (s.Allowed p a)
  | .start => inferInstanceAs (Decidable True)
  | .request => inferInstanceAs (Decidable (_ = _))
  | .step _ _ _ => inferInstanceAs (Decidable (_ ∧ _ ∧ _ ∧ (_ → _)))

end SliceState

def sliceSystem (wrap : Int → Int) (p : Slicing) : Machines.Machine SliceState SliceAction :=
  ⟨(· = {}),SliceState.Allowed p,SliceState.apply wrap p⟩

instance decideSlices (wrap : Int → Int) (p : Slicing) (s : SliceState) (a : SliceAction) :
    Decidable ((sliceSystem wrap p).allowed s a) :=
  SliceState.decideAllowed p s a

theorem claimGrainInt_pos (balance : Balance) (size claimed workers : Int) : 1 ≤ claimGrainInt balance size claimed workers := by
  unfold claimGrainInt
  cases balance with
  | unbalanced => exact Int.le_refl 1
  | _ =>
    simp only
    split
    · exact Int.le_refl 1
    · omega

-- Over natural numbers the colored loop's reading of the same function.
theorem claimGrainInt_cast (balance : Balance) (size claimed workers : Nat) (staffed : 0 < workers) :
    claimGrainInt balance size claimed workers = claimGrain balance size claimed workers := by
  cases balance with
  | unbalanced => rfl
  | balanced =>
    have sum : (size : Int)+workers-1 = ((size+workers-1 : Nat) : Int) := by omega
    simp only [claimGrainInt,claimGrain,sum,← Int.ofNat_tdiv]
    omega
  | guided =>
    simp only [claimGrainInt,claimGrain]
    by_cases overrun : claimed ≤ size
    · have rest : (size : Int)-claimed = ((size-claimed : Nat) : Int) := by omega
      have twice : (2 : Int)*workers = ((2*workers : Nat) : Int) := by omega
      rw [rest,twice,← Int.ofNat_tdiv]
      omega
    · have none : size-claimed = 0 := by omega
      have behind : ((size : Int)-claimed).tdiv (2*workers) ≤ 0 := by
        have back : (size : Int)-claimed = -((claimed-size : Nat) : Int) := by omega
        rw [back,Int.neg_tdiv]
        have low := Int.tdiv_nonneg (Int.natCast_nonneg (claimed-size)) (by omega : (0 : Int) ≤ 2*workers)
        omega
      rw [if_pos (by omega),none,Nat.zero_div]
      rfl

end Macrame

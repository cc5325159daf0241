import Macrame.MachineInt
import Macrame.ParallelLoopLaws

namespace Macrame
open Tally

-- The sums `claim_grain` forms before it divides. `size+workers-1` is added up
-- from the left.
def claimGrainFits (balance : Balance) (size claimed workers : Int) : Prop :=
  match balance with
  | .unbalanced => True
  | .balanced => InInt (size+workers) ∧ InInt (size+workers-1)
  | .guided => InInt (size-claimed) ∧ InInt (2*workers)

namespace SliceState

-- One executor for each of the workers at most, and a load of `next` returns
-- what `next` is.
def Interleaved (p : Slicing) (s : SliceState) : SliceAction → Prop
  | .start => (s.crew : Int) < p.workers
  | .request => True
  | .step _ claimed _ => claimed = s.next

instance decideInterleaved (p : Slicing) (s : SliceState) : (a : SliceAction) → Decidable (s.Interleaved p a)
  | .start => inferInstanceAs (Decidable (_ < _))
  | .request => inferInstanceAs (Decidable True)
  | .step _ _ _ => inferInstanceAs (Decidable (_ = _))

-- What the claim arithmetic owes the body.
structure Exact (p : Slicing) (s : SliceState) : Prop where
  grains : ∀ e, s.stages e = .loading →
    claimGrainFits p.balance p.n s.next p.workers ∧ 1 ≤ claimGrainInt p.balance p.n s.next p.workers
  stops : ∀ e grain, s.stages e = .claiming grain → s.next < p.n → InInt (s.next+grain)
  starts : ∀ e start stop next, s.stages e = .running start stop next → 0 ≤ start ∧ start < p.n
  marks : ∀ e start, s.stages e = .marking start → 0 ≤ start ∧ start < p.n
  given : ∀ i ∈ s.given, 0 ≤ i ∧ i < p.n

end SliceState

-- The loop as it runs: `int` is 32 bits wide.
def claimSystem (p : Slicing) : Machines.Machine SliceState SliceAction :=
  (sliceSystem int32 p).under (SliceState.Interleaved p)

instance decideClaims (p : Slicing) (s : SliceState) (a : SliceAction) : Decidable ((claimSystem p).allowed s a) :=
  inferInstanceAs (Decidable (_ ∧ _))

namespace Slicing

def grain (p : Slicing) (claimed : Int) : Int := claimGrainInt p.balance p.n claimed p.workers

-- The most one executor by itself takes `next` to while there are items, and the
-- largest value of `next` that any of them can come to read.
def brim (p : Slicing) : Int :=
  match p.balance with
  | .guided => p.n
  | _ => (p.n+p.grain 0-1)/p.grain 0*p.grain 0

def crest (p : Slicing) : Int := p.brim+(p.workers-1)*p.grain 0

def sumsFit (p : Slicing) : Prop :=
  match p.balance with
  | .unbalanced => True
  | .balanced => p.n+p.workers ≤ intMax
  | .guided => 2*p.workers ≤ intMax

def claimsFit (p : Slicing) : Prop := p.sumsFit ∧ p.crest ≤ intMax

theorem grain_pos (p : Slicing) (claimed : Int) : 1 ≤ p.grain claimed := claimGrainInt_pos ..

-- The grain never grows as `next` does.
theorem grain_anti (p : Slicing) (order : a ≤ b) : p.grain b ≤ p.grain a := by
  unfold grain claimGrainInt
  cases p.balance with
  | guided =>
    have staffed := p.staffed
    have shrinks : (p.n-b).tdiv (2*p.workers) ≤ (p.n-a).tdiv (2*p.workers) :=
      Int.tdiv_le_tdiv (by omega) (by omega)
    simp only
    split <;> split <;> omega
  | _ => exact Int.le_refl _

theorem grain_end (p : Slicing) (overrun : p.n ≤ claimed) : p.grain claimed = p.grain p.n := by
  unfold grain claimGrainInt
  cases p.balance with
  | guided =>
    have staffed := p.staffed
    have behind : (p.n-claimed).tdiv (2*p.workers) ≤ (0 : Int).tdiv (2*p.workers) :=
      Int.tdiv_le_tdiv (by omega) (by omega)
    rw [Int.zero_tdiv] at behind
    simp only [Int.sub_self,Int.zero_tdiv]
    rw [if_pos (by omega)]
    rfl
  | _ => rfl

theorem grain_fixed (p : Slicing) (fixed : p.balance ≠ .guided) (claimed : Int) : p.grain claimed = p.grain 0 := by
  unfold grain claimGrainInt
  split
  · rfl
  · rfl
  · exact absurd ‹_› fixed

-- Where grains are fixed, `next` is a multiple of them while there are items.
def Aligned (p : Slicing) (next : Int) : Prop := p.balance ≠ .guided → p.grain 0 ∣ next

theorem n_le_brim (p : Slicing) : p.n ≤ p.brim := by
  have positive := p.grain_pos 0
  have split := Int.mul_ediv_add_emod (p.n+p.grain 0-1) (p.grain 0)
  have short := Int.emod_lt_of_pos (p.n+p.grain 0-1) (by omega : 0 < p.grain 0)
  rw [Int.mul_comm] at split
  unfold brim
  split <;> omega

theorem brim_fixed (p : Slicing) (fixed : p.balance ≠ .guided) : p.brim = (p.n+p.grain 0-1)/p.grain 0*p.grain 0 := by
  unfold brim
  split
  · exact absurd ‹_› fixed
  · rfl

-- A grain loaded while there are items stays within the brim.
theorem grain_brim (p : Slicing) (aligned : p.Aligned next) (under : next < p.n) : next+p.grain next ≤ p.brim := by
  have beyond := p.n_le_brim
  have positive := p.grain_pos 0
  by_cases guided : p.balance = .guided
  · have part : (p.n-next).tdiv (2*p.workers) ≤ p.n-next := Int.tdiv_le_self _ (by omega)
    unfold grain claimGrainInt
    simp only [guided]
    split <;> omega
  · obtain ⟨k,rfl⟩ := aligned guided
    rw [p.grain_fixed guided (p.grain 0*k),p.brim_fixed guided]
    rw [p.brim_fixed guided] at beyond
    have fewer : k < (p.n+p.grain 0-1)/p.grain 0 := by
      by_contra more
      have many := Int.mul_le_mul_of_nonneg_left (Int.not_lt.mp more) (by omega : 0 ≤ p.grain 0)
      rw [Int.mul_comm (p.grain 0) ((p.n+p.grain 0-1)/p.grain 0)] at many
      omega
    have one := Int.mul_le_mul_of_nonneg_right fewer (by omega : 0 ≤ p.grain 0)
    rw [Int.add_mul,Int.one_mul,Int.mul_comm k] at one
    exact one

theorem crest_n (p : Slicing) : p.n+(p.workers-1)*p.grain 0 ≤ p.crest := by
  have brim := p.n_le_brim
  unfold crest
  omega

theorem n_le_crest (p : Slicing) : p.n ≤ p.crest := by
  have most := p.crest_n
  have positive := p.grain_pos 0
  have staffed := p.staffed
  have others : 0 ≤ (p.workers-1)*p.grain 0 := Int.mul_nonneg (by omega) (by omega)
  omega

end Slicing

-- What an executor may still add to `next` by its next claim.
def SliceStage.pull (p : Slicing) (next : Int) : SliceStage → Nat
  | .claiming grain => grain.toNat
  | .left => 0
  | _ => (p.grain next).toNat

def SliceStage.Ranged (p : Slicing) (next : Int) : SliceStage → Prop
  | .claiming grain => p.grain next ≤ grain ∧ grain ≤ p.grain 0
  | .marking start => 0 ≤ start ∧ start < p.n
  | .running start stop i => 0 ≤ start ∧ start < p.n ∧ start ≤ i ∧ stop ≤ p.n
  | .left => p.n ≤ next
  | _ => True

theorem SliceStage.pull_high {stage : SliceStage} (ranged : stage.Ranged p next) (low : 0 ≤ next) :
    (stage.pull p next : Int) ≤ p.grain 0 := by
  have positive := p.grain_pos next
  have most := p.grain_anti low
  have whole := p.grain_pos 0
  cases stage <;> simp only [SliceStage.pull] <;> first | omega | skip
  change _ ≤ _ ∧ _ ≤ _ at ranged
  omega

theorem SliceStage.pull_low {stage : SliceStage} (ranged : stage.Ranged p next) (stays : stage ≠ .left) :
    p.grain next ≤ stage.pull p next := by
  have positive := p.grain_pos next
  cases stage <;> simp only [SliceStage.pull] <;> first | omega | skip
  · change _ ≤ _ ∧ _ ≤ _ at ranged
    omega
  · exact absurd rfl stays

theorem SliceStage.pull_anti (stage : SliceStage) (order : a ≤ b) : stage.pull p b ≤ stage.pull p a := by
  have less := p.grain_anti order
  cases stage <;> simp only [SliceStage.pull] <;> omega

theorem SliceStage.Ranged.later {stage : SliceStage} (ranged : stage.Ranged p a) (less : p.grain b ≤ p.grain a)
    (ends : p.n ≤ a → p.n ≤ b) : stage.Ranged p b := by
  cases stage with
  | claiming grain => exact ⟨Int.le_trans less ranged.1,ranged.2⟩
  | left => exact ends ranged
  | marking start => exact ranged
  | running start stop i => exact ranged
  | _ => trivial

namespace SliceState

def pulls (p : Slicing) (s : SliceState) (tide : Int) : Nat :=
  tally p.workers.toNat (fun _ => SliceStage.pull p tide) s.stages

-- `next` is what `int` makes of a count that never wraps; what the executors can
-- still add to it takes none of them past the crest.
structure Tidal (p : Slicing) (s : SliceState) (tide : Int) : Prop where
  shown : s.next = int32 tide
  low : 0 ≤ tide
  crew : (s.crew : Int) ≤ p.workers
  unborn : ∀ e, s.crew ≤ e → s.stages e = .unborn
  ranged : ∀ e, (s.stages e).Ranged p tide
  given : ∀ i ∈ s.given, 0 ≤ i ∧ i < p.n
  aligned : tide < p.n → p.Aligned tide
  lean : tide < p.n → ∃ e, e < p.workers.toNat ∧ (s.stages e).pull p tide ≤ p.grain tide
  above : p.n ≤ tide → tide+s.pulls p tide ≤ p.crest+p.grain p.n

-- One of them pulls little and the rest at most the first grain.
theorem pulls_most {s : SliceState} (tide : Int) (ranged : ∀ e, (s.stages e).Ranged p tide) (low : 0 ≤ tide)
    (within : e < p.workers.toNat) : (s.pulls p tide : Int) ≤ (s.stages e).pull p tide+(p.workers-1)*p.grain 0 := by
  have positive := p.grain_pos 0
  have staffed := p.staffed
  have most := tally_most (fun _ => SliceStage.pull p tide) s.stages (p.grain 0).toNat
    (fun f _ => by have high := SliceStage.pull_high (ranged f) low; omega) within
  have cast : ((p.workers.toNat*(p.grain 0).toNat : Nat) : Int) = p.workers*p.grain 0 := by
    rw [Int.natCast_mul,Int.toNat_of_nonneg (by omega),Int.toNat_of_nonneg (by omega)]
  rw [Int.sub_mul,Int.one_mul]
  unfold pulls
  omega

theorem Tidal.below {s : SliceState} (tidal : s.Tidal p tide) (under : tide < p.n) : tide+s.pulls p tide ≤ p.crest := by
  obtain ⟨e,within,lean⟩ := tidal.lean under
  have most := pulls_most _ tidal.ranged tidal.low within
  have brim := p.grain_brim (tidal.aligned under) under
  unfold Slicing.crest
  omega

-- Whoever has not left reads `next` for what it is.
theorem Tidal.read {s : SliceState} (tidal : s.Tidal p tide) (fits : p.crest ≤ intMax) (within : e < s.crew)
    (stays : s.stages e ≠ .left) : tide ≤ p.crest ∧ s.next = tide := by
  have crew := tidal.crew
  have inside : e < p.workers.toNat := by omega
  have part := weigh_le_tally (fun _ => SliceStage.pull p tide) s.stages inside
  have least := SliceStage.pull_low (tidal.ranged e) stays
  have under : tide ≤ p.crest := by
    by_cases below : tide < p.n
    · have most := tidal.below below
      omega
    · have overrun := tidal.above (Int.not_lt.mp below)
      rw [p.grain_end (Int.not_lt.mp below)] at least
      unfold pulls at overrun
      omega
  refine ⟨under,?_⟩
  rw [tidal.shown]
  have low := tidal.low
  exact int32_of_in ⟨by unfold intMax; omega,by omega⟩

-- A move that leaves `next` as it is and pulls no more than before.
theorem Tidal.quiet {s : SliceState} (tidal : s.Tidal p tide) (u : SliceState) (stage : SliceStage) (frame : Frame s u e stage)
    (within : e < s.crew) (same : u.next = s.next) (ranged : stage.Ranged p tide)
    (given : ∀ i ∈ u.given, 0 ≤ i ∧ i < p.n) (lean : stage.pull p tide ≤ p.grain tide)
    (less : stage.pull p tide ≤ (s.stages e).pull p tide) : u.Tidal p tide := by
  have crew := tidal.crew
  refine ⟨same.trans tidal.shown,tidal.low,?_,?_,?_,given,tidal.aligned,?_,?_⟩
  · rw [frame.crew]
    exact crew
  · intro f out
    rw [frame.crew] at out
    rw [frame.other (by omega)]
    exact tidal.unborn f out
  · intro f
    by_cases here : f = e
    · rw [here,frame.self]
      exact ranged
    · rw [frame.other here]
      exact tidal.ranged f
  · intro _
    refine ⟨e,by omega,?_⟩
    rw [frame.self]
    exact lean
  · intro overrun
    have before := tidal.above overrun
    have moved := tally_update (fun _ => SliceStage.pull p tide) s.stages stage (by omega : e < p.workers.toNat)
    unfold pulls at before ⊢
    rw [frame.stages]
    omega

-- A move of `next`: up by a claim, or to the end by a sweep.
theorem Tidal.moved {s : SliceState} (tidal : s.Tidal p tide) (u : SliceState) (stage : SliceStage) (frame : Frame s u e stage)
    (within : e < s.crew) (given : u.given = s.given) (low : 0 ≤ higher) (less : p.grain higher ≤ p.grain tide)
    (ends : p.n ≤ tide → p.n ≤ higher) (shown : u.next = int32 higher)
    (ranged : stage.Ranged p higher) (aligned : higher < p.n → p.Aligned higher)
    (lean : stage.pull p higher ≤ p.grain higher)
    (above : p.n ≤ higher → higher+tally p.workers.toNat (fun _ => SliceStage.pull p higher) u.stages ≤ p.crest+p.grain p.n) :
    u.Tidal p higher := by
  have crew := tidal.crew
  refine ⟨shown,low,?_,?_,?_,?_,aligned,?_,above⟩
  · rw [frame.crew]
    exact crew
  · intro f out
    rw [frame.crew] at out
    rw [frame.other (by omega)]
    exact tidal.unborn f out
  · intro f
    by_cases here : f = e
    · rw [here,frame.self]
      exact ranged
    · rw [frame.other here]
      exact (tidal.ranged f).later less ends
  · rw [given]
    exact tidal.given
  · intro _
    refine ⟨e,by omega,?_⟩
    rw [frame.self]
    exact lean

-- What a claim adds to `next` its executor no longer holds.
theorem Tidal.claimed {s : SliceState} (tidal : s.Tidal p tide) (within : e < s.crew) (here : s.stages e = .claiming grain)
    (stage : SliceStage) :
    tide+grain+tally p.workers.toNat (fun _ => SliceStage.pull p (tide+grain)) (Function.update s.stages e stage) ≤
      tide+s.pulls p tide+stage.pull p (tide+grain) := by
  have crew := tidal.crew
  have ranged := tidal.ranged e
  rw [here] at ranged
  obtain ⟨least,-⟩ := ranged
  have positive := p.grain_pos tide
  have moved := tally_update (fun _ => SliceStage.pull p (tide+grain)) s.stages stage (by omega : e < p.workers.toNat)
  have less : tally p.workers.toNat (fun _ => SliceStage.pull p (tide+grain)) s.stages ≤ s.pulls p tide :=
    tally_mono (fun f _ => SliceStage.pull_anti (s.stages f) (by omega))
  rw [here] at moved
  change _+grain.toNat = _ at moved
  omega

theorem step_tidal {s : SliceState} (tidal : s.Tidal p tide) (fits : p.crest ≤ intMax) (within : e < s.crew)
    (stays : s.stages e ≠ .left) : ∃ higher, (s.step int32 p e s.next sees).Tidal p higher := by
  obtain ⟨under,read⟩ := tidal.read fits within stays
  have ranged := tidal.ranged e
  have low := tidal.low
  have positive := p.positive
  have whole := p.grain_pos tide
  have brim := p.n_le_brim
  have self : ∀ (u : SliceState) stage, Frame s u e stage → u.next = s.next → stage.Ranged p tide →
      (∀ i ∈ u.given, 0 ≤ i ∧ i < p.n) → stage.pull p tide = (p.grain tide).toNat → ∃ higher, u.Tidal p higher := by
    intro u stage frame same fitting given pulls
    refine ⟨tide,tidal.quiet u stage frame within same fitting given (by omega) ?_⟩
    have least := SliceStage.pull_low ranged stays
    omega
  unfold step
  cases here : s.stages e with
  | looping =>
    cases sees with
    | true => exact self _ _ (setStage_frame s e _) rfl trivial tidal.given rfl
    | false => exact self _ _ (setStage_frame s e _) rfl trivial tidal.given rfl
  | loading =>
    simp only
    rw [read]
    exact self _ (.claiming (p.grain tide)) (setStage_frame s e _) rfl ⟨Int.le_refl _,p.grain_anti low⟩ tidal.given rfl
  | claiming grain =>
    rw [here] at ranged
    change _ ≤ grain ∧ grain ≤ _ at ranged
    simp only
    rw [read]
    refine ⟨tide+grain,?_⟩
    by_cases below : tide < p.n
    · have most := tidal.below below
      have sum := tidal.claimed within here (.running tide (min (int32 (tide+grain)) p.n) tide)
      have final := tidal.claimed within here .unborn
      rw [if_neg (by omega)]
      refine tidal.moved ((s.store (int32 (tide+grain))).setStage e _) _ ⟨rfl,rfl⟩ within rfl (by omega) (p.grain_anti (by omega))
        (by omega) rfl ?_ ?_ ?_ ?_
      · exact ⟨low,below,Int.le_refl _,Int.min_le_right ..⟩
      · intro more fixed
        have same : grain = p.grain 0 := by
          have first := p.grain_fixed fixed tide
          omega
        rw [same]
        exact Int.dvd_add (tidal.aligned below fixed) (Int.dvd_refl _)
      · have again := p.grain_pos (tide+grain)
        change ((p.grain (tide+grain)).toNat : Int) ≤ _
        omega
      · intro overrun
        have last := p.grain_end overrun
        have again := p.grain_pos (tide+grain)
        change _ ≤ _+((p.grain (tide+grain)).toNat : Int) at sum
        change tide+grain+tally _ _ (Function.update s.stages e _) ≤ _
        omega
    · have overrun := tidal.above (Int.not_lt.mp below)
      have sum := tidal.claimed within here .left
      rw [if_pos (Int.not_lt.mp below)]
      refine tidal.moved ((s.store (int32 (tide+grain))).setStage e .left) .left ⟨rfl,rfl⟩ within rfl (by omega) (p.grain_anti (by omega))
        (by omega) rfl ?_
        (fun _ => absurd ‹_› (by omega)) ?_ ?_
      · change p.n ≤ tide+grain
        omega
      · have again := p.grain_pos (tide+grain)
        change ((0 : Nat) : Int) ≤ _
        omega
      · intro _
        change _ ≤ _+((0 : Nat) : Int) at sum
        change tide+grain+tally _ _ (Function.update s.stages e _) ≤ _
        omega
  | sweeping =>
    have most := p.crest_n
    simp only
    rw [read]
    refine ⟨p.n,?_⟩
    have shown : p.n = int32 p.n := (int32_of_in ⟨by unfold intMax; omega,Int.le_trans p.n_le_crest fits⟩).symm
    have inside : e < p.workers.toNat := by
      have crew := tidal.crew
      omega
    split
    · rename_i overrun
      have before := tidal.above overrun
      have same := p.grain_end overrun
      have sum := tally_update (fun _ => SliceStage.pull p tide) s.stages .left inside
      refine tidal.moved ((s.store p.n).setStage e .left) .left ⟨rfl,rfl⟩ within rfl (by omega) (by omega) (fun _ => Int.le_refl _)
        shown (Int.le_refl _) (fun _ => absurd ‹_› (Int.lt_irrefl _)) ?_ ?_
      · have again := p.grain_pos p.n
        change ((0 : Nat) : Int) ≤ _
        omega
      · intro _
        have fewer : tally p.workers.toNat (fun _ => SliceStage.pull p p.n) (Function.update s.stages e .left) ≤
            tally p.workers.toNat (fun _ => SliceStage.pull p tide) (Function.update s.stages e .left) := by
          refine tally_mono (fun f _ => ?_)
          cases Function.update s.stages e .left f <;> simp only [SliceStage.pull] <;> omega
        change p.n+tally _ _ (Function.update s.stages e _) ≤ _
        change _+_ = _+0 at sum
        unfold pulls at before
        omega
    · rename_i below
      have narrow : SliceStage.pull p p.n (.marking tide) = (p.grain p.n).toNat := rfl
      have last := p.grain_pos p.n
      refine tidal.moved ({s.store p.n with passed := _}.setStage e (.marking tide)) (.marking tide) ⟨rfl,rfl⟩ within rfl (by omega)
        (p.grain_anti (by omega)) (by omega) shown ⟨low,by omega⟩ (fun _ => absurd ‹_› (Int.lt_irrefl _)) (by omega) ?_
      intro _
      have sum := pulls_most (s := s.setStage e (.marking tide)) (e := e) (p := p) p.n ?_ (by omega) inside
      · unfold pulls at sum
        change (tally _ _ (Function.update s.stages e _) : Int) ≤ _ at sum
        change p.n+tally _ _ (Function.update s.stages e _) ≤ _
        rw [(setStage_frame s e _).self] at sum
        omega
      · intro f
        by_cases same : f = e
        · rw [same,(setStage_frame s e _).self]
          exact ⟨low,by omega⟩
        · rw [(setStage_frame s e _).other same]
          exact (tidal.ranged f).later (p.grain_anti (by omega)) (by omega)
  | marking start =>
    rw [here] at ranged
    exact self _ (.accounting start p.n) ⟨rfl,rfl⟩ rfl trivial tidal.given rfl
  | running start stop i =>
    rw [here] at ranged
    change 0 ≤ start ∧ start < p.n ∧ start ≤ i ∧ stop ≤ p.n at ranged
    simp only
    split
    · refine self ({s with given := s.given++[i]}.setStage e _) (.running start stop (i+1)) ⟨rfl,rfl⟩ rfl ?_ ?_ rfl
      · exact ⟨ranged.1,ranged.2.1,by omega,ranged.2.2.2⟩
      · intro k member
        rcases List.mem_append.mp member with prior | last
        · exact tidal.given k prior
        · rw [List.mem_singleton.mp last]
          omega
    · exact self _ _ (setStage_frame s e _) rfl trivial tidal.given rfl
  | accounting start stop =>
    simp only
    split
    · exact self _ .settling ⟨rfl,rfl⟩ rfl trivial tidal.given rfl
    · exact self _ .looping ⟨rfl,rfl⟩ rfl trivial tidal.given rfl
  | settling => exact self _ _ (setStage_frame s e _) rfl trivial tidal.given rfl
  | finishing cancelled => exact self _ .looping ⟨rfl,rfl⟩ rfl trivial tidal.given rfl
  | unborn => exact ⟨tide,tidal⟩
  | left => exact absurd here stays

theorem initial_tidal (p : Slicing) : ({} : SliceState).Tidal p 0 := by
  have positive := p.positive
  have staffed := p.staffed
  refine ⟨rfl,Int.le_refl 0,?_,fun _ _ => rfl,fun _ => trivial,nofun,fun _ _ => Int.dvd_zero _,?_,?_⟩
  · change ((0 : Nat) : Int) ≤ _
    omega
  · intro _
    have whole := p.grain_pos 0
    refine ⟨0,by omega,?_⟩
    change ((p.grain 0).toNat : Int) ≤ _
    omega
  · intro overrun
    omega

-- Another executor starts: it has pulled as much since before it was born.
theorem start_tidal {s : SliceState} (tidal : s.Tidal p tide) (room : (s.crew : Int) < p.workers) :
    (s.apply int32 p .start).Tidal p tide := by
  have at_e : ∀ e, Function.update s.stages s.crew .looping e = s.stages e ∨
      (s.stages e = .unborn ∧ Function.update s.stages s.crew .looping e = .looping) := by
    intro e
    by_cases same : e = s.crew
    · rw [same,Function.update_self]
      exact .inr ⟨tidal.unborn s.crew (Nat.le_refl _),rfl⟩
    · exact .inl (Function.update_of_ne same ..)
  have pulls : ∀ e, (Function.update s.stages s.crew .looping e).pull p tide = (s.stages e).pull p tide := by
    intro e
    rcases at_e e with same | ⟨before,after⟩
    · rw [same]
    · rw [before,after]
      rfl
  refine ⟨tidal.shown,tidal.low,?_,?_,?_,tidal.given,tidal.aligned,?_,?_⟩
  · change ((s.crew+1 : Nat) : Int) ≤ _
    omega
  · intro e out
    change s.crew+1 ≤ e at out
    exact (Function.update_of_ne (by omega : e ≠ s.crew) ..).trans (tidal.unborn e (by omega))
  · intro e
    change (Function.update s.stages s.crew .looping e).Ranged p tide
    rcases at_e e with same | ⟨-,after⟩
    · rw [same]
      exact tidal.ranged e
    · rw [after]
      trivial
  · intro under
    obtain ⟨e,inside,lean⟩ := tidal.lean under
    refine ⟨e,inside,?_⟩
    change ((Function.update s.stages s.crew .looping e).pull p tide : Int) ≤ _
    rw [pulls e]
    exact lean
  · intro overrun
    have same : (s.apply int32 p .start).pulls p tide = s.pulls p tide := tally_congr (fun e _ => pulls e)
    rw [same]
    exact tidal.above overrun

theorem reached_tidal (fits : p.crest ≤ intMax) (path : Machines.Reached (claimSystem p) s) : ∃ tide, s.Tidal p tide := by
  refine Machines.reached_invariant (fun s : SliceState => ∃ tide, s.Tidal p tide) ?_ ?_ path
  · intro s begun
    change s = {} at begun
    subst begun
    exact ⟨0,initial_tidal p⟩
  · rintro s a ⟨tide,tidal⟩ ⟨allowed,interleaved⟩
    cases a with
    | start => exact ⟨tide,start_tidal tidal interleaved⟩
    | request =>
      exact ⟨tide,tidal.shown,tidal.low,tidal.crew,tidal.unborn,tidal.ranged,tidal.given,tidal.aligned,tidal.lean,tidal.above⟩
    | step e claimed sees =>
      change claimed = s.next at interleaved
      rw [interleaved]
      exact step_tidal tidal fits allowed.1 allowed.2.1

-- Within the bounds nothing the loop adds up leaves `int`.
theorem Tidal.exact {s : SliceState} (tidal : s.Tidal p tide) (fits : p.claimsFit) : s.Exact p := by
  obtain ⟨sums,crest⟩ := fits
  have low := tidal.low
  have born : ∀ e, s.stages e ≠ .unborn → e < s.crew := by
    intro e stage
    by_contra out
    exact stage (tidal.unborn e (Nat.not_lt.mp out))
  refine ⟨?_,?_,?_,?_,tidal.given⟩
  · intro e loading
    obtain ⟨under,read⟩ := tidal.read crest (born e (by rw [loading]; nofun)) (by rw [loading]; nofun)
    refine ⟨?_,claimGrainInt_pos ..⟩
    have staffed := p.staffed
    have positive := p.positive
    have last := p.n_le_crest
    rw [read]
    unfold Slicing.sumsFit at sums
    unfold claimGrainFits InInt
    unfold intMax at *
    cases here : p.balance <;> simp only [here] at sums ⊢ <;> omega
  · intro e grain claiming below
    have inside := born e (by rw [claiming]; nofun)
    obtain ⟨under,read⟩ := tidal.read crest inside (by rw [claiming]; nofun)
    rw [read] at below ⊢
    have most := tidal.below below
    have crew := tidal.crew
    have ranged := tidal.ranged e
    have positive := p.grain_pos tide
    have part := weigh_le_tally (fun _ => SliceStage.pull p tide) s.stages (by omega : e < p.workers.toNat)
    rw [claiming] at part ranged
    change grain.toNat ≤ _ at part
    change _ ≤ grain ∧ _ at ranged
    unfold pulls at most
    unfold InInt intMax
    unfold intMax at crest
    omega
  · intro e start stop i running
    have ranged := tidal.ranged e
    rw [running] at ranged
    exact ⟨ranged.1,ranged.2.1⟩
  · intro e start marking
    have ranged := tidal.ranged e
    rw [marking] at ranged
    exact ranged

end SliceState

end Macrame

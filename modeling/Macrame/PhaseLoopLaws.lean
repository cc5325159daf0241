import Macrame.ColoredLaws
import Macrame.PhaseLoop

namespace Macrame
open Tally Machines

namespace PhaseStage

-- Items of the band that are claimed here and not yet in `band_done`.
def weight : PhaseStage → Nat
  | .running _ start stop _ => stop-start
  | .inside _ start stop _ => stop-start
  | .accounting _ start stop => stop-start
  | _ => 0

-- It has found the band done and has yet to open the next phase.
def won : PhaseStage → Nat
  | .resetting _ => 1
  | .advancing _ => 1
  | .ending _ => 1
  | _ => 0

def ends : PhaseStage → Nat
  | .completing => 1
  | _ => 0

-- Whether this executor has the item still to begin, and whether it is in the
-- body with it.
def rest (item : Nat × Nat) : PhaseStage → Nat
  | .running phase _ stop next => if item.1 = phase ∧ next ≤ item.2 ∧ item.2 < stop then 1 else 0
  | .inside phase _ stop next => if item.1 = phase ∧ next < item.2 ∧ item.2 < stop then 1 else 0
  | _ => 0

def busy (item : Nat × Nat) : PhaseStage → Nat
  | .inside phase _ _ next => if (phase,next) = item then 1 else 0
  | _ => 0

def Fits (c : Coloring) (word : PhaseWord) (bandDone : Int) : PhaseStage → Prop
  | .looping cur => cur.phase ≤ word.phase
  | .judging cur => cur.phase ≤ word.phase
  | .waiting cur => cur.phase < c.totalPhases ∧ c.bandSize cur.phase ≤ cur.next
  | .claiming cur => cur.phase < c.totalPhases ∧ cur.next < c.bandSize cur.phase
  | .running phase start stop next => phase = word.phase ∧ start < stop ∧ start ≤ next ∧ next ≤ stop ∧ stop ≤ c.bandSize phase
  | .inside phase start stop next => phase = word.phase ∧ start < stop ∧ start ≤ next ∧ next < stop ∧ stop ≤ c.bandSize phase
  | .accounting phase start stop => phase = word.phase ∧ start < stop ∧ stop ≤ c.bandSize phase
  | .resetting phase => phase = word.phase ∧ phase+1 < c.totalPhases
  | .advancing phase => phase = word.phase ∧ phase+1 < c.totalPhases ∧ bandDone = 0
  | .ending phase => phase = word.phase ∧ c.totalPhases ≤ phase+1
  | .left => word.phase = c.totalPhases
  | .completing => word.phase = c.totalPhases
  | _ => True

-- Between two chunks.
def idle : PhaseStage → Bool
  | .unborn => true
  | .entering => true
  | .looping _ => true
  | .pausing => true
  | .judging _ => true
  | .waiting _ => true
  | .claiming _ => true
  | .left => true
  | _ => false

theorem idle_light {stage : PhaseStage} (idle : stage.idle = true) : stage.weight = 0 ∧ stage.won = 0 ∧ stage.ends = 0 ∧
    (∀ item, stage.rest item = 0) ∧ ∀ item, stage.busy item = 0 := by
  cases stage <;> first | exact ⟨rfl,rfl,rfl,fun _ => rfl,fun _ => rfl⟩ | cases idle

-- While the phase stays, the count is relied on by the one that is about to advance.
theorem Fits.kept {stage : PhaseStage} {word' : PhaseWord} {bandDone' : Int} (fits : stage.Fits c word bandDone)
    (phase : word'.phase = word.phase) (reset : bandDone' = bandDone ∨ stage.won = 0) : stage.Fits c word' bandDone' := by
  cases stage with
  | advancing p =>
    rcases reset with kept | unwon
    · rw [Fits,phase,kept]
      exact fits
    · cases unwon
  | waiting cur => exact fits
  | claiming cur => exact fits
  | unborn => trivial
  | entering => trivial
  | pausing => trivial
  | _ =>
    rw [Fits,phase]
    exact fits

-- Once the band is done nobody else is bound to its phase.
theorem Fits.turned {stage : PhaseStage} {word' : PhaseWord} {bandDone' : Int} (fits : stage.Fits c word bandDone)
    (under : word.phase < c.totalPhases) (later : word.phase ≤ word'.phase) (light : stage.weight = 0) (unwon : stage.won = 0) :
    stage.Fits c word' bandDone' := by
  cases stage <;> simp only [weight,won,Fits,Nat.one_ne_zero] at fits light unwon ⊢ <;> first | exact fits | omega

end PhaseStage

namespace PhaseState

def total (s : PhaseState) (weigh : PhaseStage → Nat) : Nat := tally s.crew (fun _ => weigh) s.stages

-- The items that have been claimed when the word is this one.
def Claimed (c : Coloring) (word : PhaseWord) (item : Nat × Nat) : Prop :=
  item.1 < c.totalPhases ∧ item.2 < c.bandSize item.1 ∧ (item.1 < word.phase ∨ item.1 = word.phase ∧ item.2 < word.next)

instance decideClaimed (c : Coloring) (word : PhaseWord) (item : Nat × Nat) : Decidable (Claimed c word item) :=
  inferInstanceAs (Decidable (_ ∧ _ ∧ (_ ∨ _ ∧ _)))

-- What is claimed of the band is at work or done, until one executor, and only
-- one, finds all of it done; every claimed item has begun once or is about to.
structure Paced (c : Coloring) (s : PhaseState) : Prop where
  phases : s.word.phase ≤ c.totalPhases
  within : s.word.phase < c.totalPhases → s.word.next ≤ c.bandSize s.word.phase ∧ c.Aligned s.word.phase s.word.next
  counts : 0 ≤ s.bandDone
  fits : ∀ e, (s.stages e).Fits c s.word s.bandDone
  unborn : ∀ e, s.crew ≤ e → s.stages e = .unborn
  single : s.total PhaseStage.won ≤ 1
  claimed : s.word.phase < c.totalPhases → s.total PhaseStage.won = 0 →
    s.total PhaseStage.weight+s.bandDone = s.word.next ∧ s.bandDone < c.bandSize s.word.phase
  decided : 0 < s.total PhaseStage.won →
    s.total PhaseStage.weight = 0 ∧ s.word.next = c.bandSize s.word.phase ∧ s.word.phase < c.totalPhases
  finished : s.word.phase = c.totalPhases → s.total PhaseStage.weight = 0 ∧ s.total PhaseStage.won = 0
  settling : s.settles+s.total PhaseStage.ends = if s.word.phase = c.totalPhases then 1 else 0
  begins : ∀ item, s.begun.count item+s.total (PhaseStage.rest item) = if Claimed c s.word item then 1 else 0
  returns : ∀ item, s.ended.count item+s.total (PhaseStage.busy item) = s.begun.count item
  opened : ∀ o ∈ s.opened, o.2 = 0
  opens : s.opened.map Prod.fst = List.range (min (s.word.phase+1) c.totalPhases)

structure Frame (s u : PhaseState) (e : Nat) (stage : PhaseStage) : Prop where
  crew : u.crew = s.crew
  stages : u.stages = Function.update s.stages e stage

theorem Frame.self (frame : Frame s u e stage) : u.stages e = stage := by
  rw [frame.stages,Function.update_self]

theorem Frame.other (frame : Frame s u e stage) (other : f ≠ e) : u.stages f = s.stages f := by
  rw [frame.stages,Function.update_of_ne other]

theorem Frame.total (frame : Frame s u e stage) (weigh : PhaseStage → Nat) (within : e < s.crew) :
    u.total weigh+weigh (s.stages e) = s.total weigh+weigh stage := by
  unfold PhaseState.total
  rw [frame.crew,frame.stages]
  exact tally_update (fun _ => weigh) s.stages stage within

theorem Frame.same (frame : Frame s u e stage) (weigh : PhaseStage → Nat) (within : e < s.crew)
    (equal : weigh stage = weigh (s.stages e)) : u.total weigh = s.total weigh := by
  have moved := frame.total weigh within
  omega

theorem Paced.weigh {s : PhaseState} (weigh : PhaseStage → Nat) (within : e < s.crew) : weigh (s.stages e) ≤ s.total weigh :=
  weigh_le_tally (fun _ => weigh) s.stages within

-- A move that leaves the word and the count as they are: what it has to show.
theorem Paced.quiet {s : PhaseState} (paced : s.Paced c) (u : PhaseState) (stage : PhaseStage) (frame : Frame s u e stage)
    (within : e < s.crew) (word : u.word = s.word) (bandDone : u.bandDone = s.bandDone) (opened : u.opened = s.opened)
    (fits : stage.Fits c s.word s.bandDone) (weight : stage.weight = (s.stages e).weight)
    (won : stage.won = (s.stages e).won) (settles : u.settles+stage.ends = s.settles+(s.stages e).ends)
    (begins : ∀ item, u.begun.count item+stage.rest item = s.begun.count item+(s.stages e).rest item)
    (returns : ∀ item, u.ended.count item+stage.busy item+s.begun.count item =
      s.ended.count item+(s.stages e).busy item+u.begun.count item) : u.Paced c := by
  have weights := frame.same PhaseStage.weight within weight
  have wons := frame.same PhaseStage.won within won
  refine ⟨?_,?_,?_,?_,?_,?_,?_,?_,?_,?_,?_,?_,?_,?_⟩
  · rw [word]
    exact paced.phases
  · rw [word]
    exact paced.within
  · rw [bandDone]
    exact paced.counts
  · intro f
    rw [word,bandDone]
    by_cases here : f = e
    · rw [here,frame.self]
      exact fits
    · rw [frame.other here]
      exact paced.fits f
  · intro f out
    rw [frame.crew] at out
    rw [frame.other (by omega)]
    exact paced.unborn f out
  · rw [wons]
    exact paced.single
  · rw [wons,weights,word,bandDone]
    exact paced.claimed
  · rw [wons,weights,word]
    exact paced.decided
  · rw [wons,weights,word]
    exact paced.finished
  · have moved := frame.total PhaseStage.ends within
    have before := paced.settling
    rw [word]
    omega
  · intro item
    have moved := frame.total (PhaseStage.rest item) within
    have before := paced.begins item
    have now := begins item
    rw [word]
    omega
  · intro item
    have moved := frame.total (PhaseStage.busy item) within
    have before := paced.returns item
    have now := returns item
    omega
  · rw [opened]
    exact paced.opened
  · rw [opened,word]
    exact paced.opens

theorem setStage_frame (s : PhaseState) (e : Nat) (stage : PhaseStage) : Frame s (s.setStage e stage) e stage := ⟨rfl,rfl⟩

-- Nobody but the one that found the band done is anywhere in it.
theorem Paced.alone {s : PhaseState} (paced : s.Paced c) (within : e < s.crew) (won : (s.stages e).won = 1) :
    (∀ f, f ≠ e → (s.stages f).won = 0) ∧ (∀ f, (s.stages f).weight = 0) ∧ s.total PhaseStage.won = 1 ∧
      s.word.next = c.bandSize s.word.phase ∧ s.word.phase < c.totalPhases := by
  have part := Paced.weigh (s := s) PhaseStage.won within
  have single := paced.single
  obtain ⟨light,next,under⟩ := paced.decided (by omega)
  have cleared := (setStage_frame s e .entering).total PhaseStage.won within
  rw [won] at cleared part
  change _+1 = _+0 at cleared
  have none : (s.setStage e .entering).total PhaseStage.won = 0 := by omega
  refine ⟨?_,?_,by omega,next,under⟩
  · intro f other
    by_cases inside : f < s.crew
    · have zero := (tally_zero.mp none) f inside
      rwa [(setStage_frame s e .entering).other other] at zero
    · rw [paced.unborn f (Nat.not_lt.mp inside)]
      rfl
  · intro f
    by_cases inside : f < s.crew
    · exact (tally_zero.mp light) f inside
    · rw [paced.unborn f (Nat.not_lt.mp inside)]
      rfl

-- While a chunk is claimed nobody has found the band done.
theorem Paced.undecided {s : PhaseState} (paced : s.Paced c) (within : e < s.crew) (heavy : 0 < (s.stages e).weight) :
    s.total PhaseStage.won = 0 ∧ (∀ f, (s.stages f).won = 0) ∧ s.word.phase < c.totalPhases := by
  have part := Paced.weigh (s := s) PhaseStage.weight within
  have none : s.total PhaseStage.won = 0 := by
    by_contra some
    have light := (paced.decided (by omega)).1
    omega
  refine ⟨none,?_,?_⟩
  · intro f
    by_cases inside : f < s.crew
    · exact (tally_zero.mp none) f inside
    · rw [paced.unborn f (Nat.not_lt.mp inside)]
      rfl
  · refine Nat.lt_of_le_of_ne paced.phases ?_
    intro past
    have light := (paced.finished past).1
    omega

theorem Frame.unborn {s : PhaseState} (frame : Frame s u e stage) (paced : s.Paced c) (within : e < s.crew) :
    ∀ f, u.crew ≤ f → u.stages f = .unborn := by
  intro f out
  rw [frame.crew] at out
  rw [frame.other (by omega)]
  exact paced.unborn f out

theorem Frame.fits {s : PhaseState} (frame : Frame s u e stage) (fits : stage.Fits c u.word u.bandDone)
    (others : ∀ f, f ≠ e → (s.stages f).Fits c u.word u.bandDone) : ∀ f, (u.stages f).Fits c u.word u.bandDone := by
  intro f
  by_cases here : f = e
  · rw [here,frame.self]
    exact fits
  · rw [frame.other here]
    exact others f here

theorem claimed_more {word : PhaseWord} (under : word.phase < c.totalPhases) (more : word.next ≤ stop) (room : stop ≤ c.bandSize word.phase)
    (item : Nat × Nat) : (if Claimed c ⟨word.phase,stop⟩ item then 1 else 0) =
      (if Claimed c word item then 1 else 0)+(if item.1 = word.phase ∧ word.next ≤ item.2 ∧ item.2 < stop then 1 else 0) := by
  have size : item.1 = word.phase → c.bandSize item.1 = c.bandSize word.phase := fun here => by rw [here]
  split <;> split <;> split <;> unfold Claimed at * <;> simp only at * <;> omega

theorem Paced.claims {s : PhaseState} (paced : s.Paced c) (within : e < s.crew) (here : s.stages e = .claiming s.word)
    (more : s.word.next < stop) (room : stop ≤ c.bandSize s.word.phase) (aligned : c.Aligned s.word.phase stop) :
    ({s with word := ⟨s.word.phase,stop⟩}.setStage e (.running s.word.phase s.word.next stop s.word.next)).Paced c := by
  have fits := paced.fits e
  rw [here] at fits
  obtain ⟨under,below⟩ := fits
  have frame : Frame s ({s with word := ⟨s.word.phase,stop⟩}.setStage e (.running s.word.phase s.word.next stop s.word.next)) e
    (.running s.word.phase s.word.next stop s.word.next) := ⟨rfl,rfl⟩
  have undecided : s.total PhaseStage.won = 0 := by
    by_contra some
    have full := (paced.decided (by omega)).2.1
    omega
  have wons := frame.same PhaseStage.won within (by rw [here]; rfl)
  have weights := frame.total PhaseStage.weight within
  rw [here] at weights
  change _+0 = _+(stop-s.word.next) at weights
  obtain ⟨sum,done⟩ := paced.claimed under undecided
  refine ⟨paced.phases,fun _ => ⟨room,aligned⟩,paced.counts,frame.fits ?_ ?_,frame.unborn paced within,?_,?_,?_,?_,?_,?_,?_,paced.opened,paced.opens⟩
  · exact ⟨rfl,more,Nat.le_refl _,Nat.le_of_lt more,room⟩
  · exact fun f _ => (paced.fits f).kept rfl (.inl rfl)
  · rw [wons]
    exact paced.single
  · intro _ _
    refine ⟨?_,done⟩
    change _+s.bandDone = (stop : Int)
    omega
  · intro some
    omega
  · intro past
    exact absurd past (Nat.ne_of_lt under)
  · rw [frame.same PhaseStage.ends within (by rw [here]; rfl)]
    exact paced.settling
  · intro item
    have moved := frame.total (PhaseStage.rest item) within
    have before := paced.begins item
    rw [here] at moved
    change _+0 = _+(if _ then 1 else 0) at moved
    change s.begun.count item+_ = if Claimed c ⟨s.word.phase,stop⟩ item then 1 else 0
    rw [claimed_more under (Nat.le_of_lt more) room]
    omega
  · intro item
    rw [frame.same (PhaseStage.busy item) within (by rw [here]; rfl)]
    exact paced.returns item

-- The executor whose items were the last finds the band done; the others go on.
theorem Paced.accounts {s : PhaseState} (paced : s.Paced c) (within : e < s.crew) (here : s.stages e = .accounting phase start stop) :
    ({s with bandDone := s.bandDone+((stop-start : Nat) : Int)}.setStage e
      (if s.bandDone+((stop-start : Nat) : Int) = c.bandSize phase then
        if c.totalPhases ≤ phase+1 then .ending phase else .resetting phase
      else .entering)).Paced c := by
  have fits := paced.fits e
  rw [here] at fits
  obtain ⟨rfl,more,room⟩ := fits
  obtain ⟨undecided,unwon,under⟩ := paced.undecided within (by rw [here]; change 0 < stop-start; omega)
  obtain ⟨sum,done⟩ := paced.claimed under undecided
  have part := Paced.weigh (s := s) PhaseStage.weight within
  rw [here] at part
  change stop-start ≤ _ at part
  have bound := (paced.within under).1
  generalize chosen : (if s.bandDone+((stop-start : Nat) : Int) = c.bandSize s.word.phase then
    if c.totalPhases ≤ s.word.phase+1 then PhaseStage.ending s.word.phase else .resetting s.word.phase else .entering) = next
  have frame : Frame s ({s with bandDone := s.bandDone+((stop-start : Nat) : Int)}.setStage e next) e next := ⟨rfl,rfl⟩
  have quiet : next.weight = 0 ∧ next.ends = 0 ∧ (∀ item, next.rest item = 0) ∧ (∀ item, next.busy item = 0) ∧
      next.won = (if s.bandDone+((stop-start : Nat) : Int) = c.bandSize s.word.phase then 1 else 0) ∧
      next.Fits c s.word (s.bandDone+((stop-start : Nat) : Int)) := by
    subst chosen
    split
    · split
      · exact ⟨rfl,rfl,fun _ => rfl,fun _ => rfl,rfl,rfl,‹_›⟩
      · exact ⟨rfl,rfl,fun _ => rfl,fun _ => rfl,rfl,rfl,Nat.not_le.mp ‹_›⟩
    · exact ⟨rfl,rfl,fun _ => rfl,fun _ => rfl,rfl,trivial⟩
  obtain ⟨light,settles,rests,busys,wins,nextFits⟩ := quiet
  have weights := frame.total PhaseStage.weight within
  have wons := frame.total PhaseStage.won within
  rw [here,light] at weights
  rw [here,wins] at wons
  change _+(stop-start) = _+0 at weights
  change _+0 = _ at wons
  refine ⟨paced.phases,paced.within,?_,frame.fits nextFits ?_,frame.unborn paced within,?_,?_,?_,?_,?_,?_,?_,paced.opened,paced.opens⟩
  · have count := paced.counts
    change 0 ≤ s.bandDone+_
    omega
  · exact fun f _ => (paced.fits f).kept rfl (.inr (unwon f))
  · split at wons <;> omega
  · intro _ none
    change _+(s.bandDone+((stop-start : Nat) : Int)) = (s.word.next : Int) ∧ s.bandDone+((stop-start : Nat) : Int) < c.bandSize s.word.phase
    split at wons <;> omega
  · intro some
    split at wons
    · exact ⟨by omega,by change s.word.next = c.bandSize s.word.phase; omega,under⟩
    · omega
  · intro past
    exact absurd past (Nat.ne_of_lt under)
  · rw [frame.same PhaseStage.ends within (by rw [here,settles]; rfl)]
    exact paced.settling
  · intro item
    rw [frame.same (PhaseStage.rest item) within (by rw [here,rests]; rfl)]
    exact paced.begins item
  · intro item
    rw [frame.same (PhaseStage.busy item) within (by rw [here,busys]; rfl)]
    exact paced.returns item

theorem Paced.resets {s : PhaseState} (paced : s.Paced c) (within : e < s.crew) (here : s.stages e = .resetting phase) :
    ({s with bandDone := 0}.setStage e (.advancing phase)).Paced c := by
  have fits := paced.fits e
  rw [here] at fits
  obtain ⟨others,light,one,next,under⟩ := paced.alone within (by rw [here]; rfl)
  have frame : Frame s ({s with bandDone := 0}.setStage e (.advancing phase)) e (.advancing phase) := ⟨rfl,rfl⟩
  have wons := frame.same PhaseStage.won within (by rw [here]; rfl)
  refine ⟨paced.phases,paced.within,Int.le_refl 0,frame.fits ⟨fits.1,fits.2,rfl⟩ ?_,frame.unborn paced within,?_,?_,?_,?_,?_,?_,?_,paced.opened,paced.opens⟩
  · exact fun f other => (paced.fits f).kept rfl (.inr (others f other))
  · omega
  · intro _ none
    omega
  · rw [frame.same PhaseStage.weight within (by rw [here]; rfl),wons]
    exact paced.decided
  · intro past
    exact absurd past (Nat.ne_of_lt under)
  · rw [frame.same PhaseStage.ends within (by rw [here]; rfl)]
    exact paced.settling
  · intro item
    rw [frame.same (PhaseStage.rest item) within (by rw [here]; rfl)]
    exact paced.begins item
  · intro item
    rw [frame.same (PhaseStage.busy item) within (by rw [here]; rfl)]
    exact paced.returns item

theorem claimed_turned {word : PhaseWord} (under : word.phase < c.totalPhases) (full : word.next = c.bandSize word.phase) (item : Nat × Nat) :
    Claimed c ⟨word.phase+1,0⟩ item ↔ Claimed c word item := by
  unfold Claimed
  simp only
  by_cases here : item.1 = word.phase
  · rw [here]
    omega
  · omega

-- With nobody in the band the word goes to the next phase.
theorem Paced.turned {s u : PhaseState} (paced : s.Paced c) (stage : PhaseStage) (within : e < s.crew) (won : (s.stages e).won = 1)
    (frame : Frame s u e stage) (word : u.word = ⟨s.word.phase+1,0⟩) (fits : stage.Fits c u.word u.bandDone)
    (weight : stage.weight = 0) (unwon : stage.won = 0) (rest : ∀ item, stage.rest item = (s.stages e).rest item)
    (busy : ∀ item, stage.busy item = (s.stages e).busy item) (begun : u.begun = s.begun) (ended : u.ended = s.ended)
    (opens : u.word.phase < c.totalPhases → u.bandDone = 0)
    (counts : 0 ≤ u.bandDone)
    (settling : u.settles+stage.ends = s.settles+(s.stages e).ends+if u.word.phase = c.totalPhases then 1 else 0)
    (opened : ∀ o ∈ u.opened, o.2 = 0)
    (phases : u.opened.map Prod.fst = List.range (min (s.word.phase+2) c.totalPhases)) : u.Paced c := by
  obtain ⟨others,light,one,next,under⟩ := paced.alone within won
  have wons := frame.total PhaseStage.won within
  have mine := light e
  have weights := frame.same PhaseStage.weight within (by rw [weight,mine])
  have none := (paced.decided (by omega)).1
  rw [won,unwon] at wons
  have phase : u.word.phase = s.word.phase+1 := by rw [word]
  have zero : u.word.next = 0 := by rw [word]
  refine ⟨by omega,?_,counts,frame.fits fits ?_,frame.unborn paced within,by omega,?_,fun _ => by omega,fun _ => by omega,?_,?_,?_,opened,by rw [phases,phase]⟩
  · intro _
    rw [zero]
    exact ⟨Nat.zero_le _,fun _ => .inl (Nat.dvd_zero _)⟩
  · exact fun f other => (paced.fits f).turned under (by omega) (light f) (others f other)
  · intro inside _
    have positive := c.bandSize_pos inside
    rw [opens inside,zero,weights,none]
    exact ⟨rfl,by omega⟩
  · have moved := frame.total PhaseStage.ends within
    have before := paced.settling
    rw [if_neg (Nat.ne_of_lt under)] at before
    omega
  · intro item
    rw [frame.same (PhaseStage.rest item) within (rest item),begun,paced.begins item,word]
    exact (if_congr (claimed_turned under next item) rfl rfl).symm
  · intro item
    rw [frame.same (PhaseStage.busy item) within (busy item),begun,ended]
    exact paced.returns item

theorem Paced.drifts {s : PhaseState} (paced : s.Paced c) (within : e < s.crew) (idle : (s.stages e).idle = true)
    (still : stage.idle = true) (fits : stage.Fits c s.word s.bandDone) : (s.setStage e stage).Paced c := by
  obtain ⟨weight,won,ends,rest,busy⟩ := PhaseStage.idle_light idle
  obtain ⟨weight',won',ends',rest',busy'⟩ := PhaseStage.idle_light still
  refine paced.quiet _ stage (setStage_frame s e stage) within rfl rfl rfl fits (by rw [weight,weight']) (by rw [won,won']) ?_ ?_ ?_
  · change s.settles+_ = _
    rw [ends,ends']
  · intro item
    change s.begun.count item+_ = _
    rw [rest,rest']
  · intro item
    change s.ended.count item+_+_ = _+s.begun.count item
    rw [busy,busy']

theorem count_snoc (list : List (Nat × Nat)) (item k : Nat × Nat) :
    (list++[k]).count item = list.count item+if k = item then 1 else 0 := by
  rw [List.count_append,List.count_singleton]
  simp only [beq_iff_eq]

theorem step_paced {s : PhaseState} (fits : c.sizesFit) (busy : c.idle = false) (few : c.rounds*c.full.length ≤ intMax)
    (paced : s.Paced c) (within : e < s.crew) : (s.step c e choice).Paced c := by
  have stage := paced.fits e
  have total := c.phasesInt_eq busy few
  have sizes := fun phase => (c.bandInt_eq fits phase).1
  unfold step
  cases here : s.stages e with
  | entering => exact paced.drifts within (by rw [here]; rfl) rfl (Nat.le_refl _)
  | looping cur =>
    rw [here] at stage
    cases choice with
    | true => exact paced.drifts within (by rw [here]; rfl) rfl trivial
    | false => exact paced.drifts within (by rw [here]; rfl) rfl stage
  | pausing => exact paced.drifts within (by rw [here]; rfl) rfl (Nat.le_refl _)
  | judging cur =>
    rw [here] at stage
    change cur.phase ≤ s.word.phase at stage
    have bound := paced.phases
    simp only [total,sizes,Int.ofNat_le]
    split
    · exact paced.drifts within (by rw [here]; rfl) rfl (by change s.word.phase = c.totalPhases; omega)
    · split
      · exact paced.drifts within (by rw [here]; rfl) rfl ⟨by omega,‹_›⟩
      · exact paced.drifts within (by rw [here]; rfl) rfl ⟨by omega,by omega⟩
  | waiting cur => exact paced.drifts within (by rw [here]; rfl) rfl (Nat.le_refl _)
  | claiming cur =>
    rw [here] at stage
    obtain ⟨under,below⟩ := stage
    simp only
    split
    · rename_i same
      obtain ⟨same,-⟩ := same
      subst same
      have aligned := (paced.within under).2
      have more := claimGrain_pos c.balance (c.bandSize s.word.phase) s.word.next c.workersInt.toNat
      change 0 < c.grain s.word.phase s.word.next at more
      rw [Coloring.claim_stop fits busy aligned below]
      exact paced.claims within here (by omega) (Nat.min_le_right ..) (Coloring.stop_aligned aligned below)
    · exact paced.drifts within (by rw [here]; rfl) rfl (Nat.le_refl _)
  | running phase start stop next =>
    rw [here] at stage
    obtain ⟨current,more,low,high,room⟩ := stage
    simp only
    split
    · refine paced.quiet ({s with begun := s.begun++[(phase,next)]}.setStage e _) (.inside phase start stop next) ⟨rfl,rfl⟩ within
        rfl rfl rfl ⟨current,more,low,‹_›,room⟩ (by rw [here]; rfl) (by rw [here]; rfl) (by rw [here]; rfl) ?_ ?_
      · intro item
        change (s.begun++[(phase,next)]).count item+_ = _
        rw [here,count_snoc]
        obtain ⟨p,i⟩ := item
        simp only [PhaseStage.rest,Prod.mk.injEq]
        split <;> split <;> split <;> omega
      · intro item
        change s.ended.count item+_+s.begun.count item = _+(s.begun++[(phase,next)]).count item
        rw [here,count_snoc]
        simp only [PhaseStage.busy]
        omega
    · refine paced.quiet _ (.accounting phase start stop) (setStage_frame s e _) within rfl rfl rfl ⟨current,more,room⟩
        (by rw [here]; rfl) (by rw [here]; rfl) (by rw [here]; rfl) ?_ ?_
      · intro item
        change s.begun.count item+0 = _
        rw [here]
        simp only [PhaseStage.rest]
        rw [if_neg (by omega)]
      · intro item
        rw [here]
        rfl
  | inside phase start stop next =>
    rw [here] at stage
    obtain ⟨current,more,low,high,room⟩ := stage
    refine paced.quiet ({s with ended := s.ended++[(phase,next)]}.setStage e _) (.running phase start stop (next+1)) ⟨rfl,rfl⟩ within
      rfl rfl rfl ⟨current,more,by omega,high,room⟩ (by rw [here]; rfl) (by rw [here]; rfl) (by rw [here]; rfl) ?_ ?_
    · intro item
      change s.begun.count item+_ = _
      rw [here]
      rfl
    · intro item
      change (s.ended++[(phase,next)]).count item+_+_ = _+_+s.begun.count item
      rw [here,count_snoc]
      simp only [PhaseStage.busy]
      omega
  | accounting phase start stop =>
    rw [here] at stage
    obtain ⟨current,more,room⟩ := stage
    obtain ⟨undecided,-,under⟩ := paced.undecided within (by rw [here]; change 0 < stop-start; omega)
    obtain ⟨sum,-⟩ := paced.claimed under undecided
    have part := Paced.weigh (s := s) PhaseStage.weight within
    rw [here] at part
    change stop-start ≤ _ at part
    have counts := paced.counts
    have bound := (paced.within under).1
    have small := (c.bandInt_eq fits s.word.phase).2
    have cast : (stop : Int)-start = ((stop-start : Nat) : Int) := by omega
    have exact_ : int32 (s.bandDone+((stop : Int)-start)) = s.bandDone+((stop-start : Nat) : Int) := by
      rw [cast]
      exact int32_of_in ⟨by unfold intMax; omega,by omega⟩
    have last : c.phasesInt ≤ (phase : Int)+1 ↔ c.totalPhases ≤ phase+1 := by omega
    simp only [exact_,sizes,last]
    exact paced.accounts within here
  | resetting phase => exact paced.resets within here
  | advancing phase =>
    rw [here] at stage
    obtain ⟨rfl,more,zero⟩ := stage
    refine paced.turned (.looping ⟨s.word.phase+1,0⟩) within (by rw [here]; rfl) ⟨rfl,rfl⟩ rfl (Nat.le_refl _) rfl rfl
      (fun _ => by rw [here]; rfl) (fun _ => by rw [here]; rfl) rfl rfl (fun _ => zero) paced.counts ?_ ?_ ?_
    · rw [here]
      exact (congrArg (s.settles+0+·) (if_neg (Nat.ne_of_lt more))).symm
    · intro o member
      rcases List.mem_append.mp member with prior | last
      · exact paced.opened o prior
      · rw [List.mem_singleton.mp last]
        exact zero
    · change (s.opened++[(s.word.phase+1,s.bandDone)]).map Prod.fst = _
      rw [List.map_append,paced.opens,Nat.min_eq_left (by omega),Nat.min_eq_left (by omega)]
      exact (List.range_succ).symm
  | ending phase =>
    rw [here] at stage
    obtain ⟨rfl,last⟩ := stage
    obtain ⟨-,-,-,-,under⟩ := paced.alone within (by rw [here]; rfl)
    have final : c.phasesInt.toNat = s.word.phase+1 := by omega
    simp only [final]
    refine paced.turned .completing within (by rw [here]; rfl) ⟨rfl,rfl⟩ rfl ?_ rfl rfl
      (fun _ => by rw [here]; rfl) (fun _ => by rw [here]; rfl) rfl rfl ?_ paced.counts ?_ paced.opened ?_
    · change s.word.phase+1 = c.totalPhases
      omega
    · intro more
      change s.word.phase+1 < c.totalPhases at more
      omega
    · rw [here]
      exact (congrArg (s.settles+0+·) (if_pos (by change s.word.phase+1 = c.totalPhases; omega))).symm
    · change s.opened.map Prod.fst = _
      rw [paced.opens,Nat.min_eq_right (by omega),Nat.min_eq_right (by omega)]
  | completing =>
    rw [here] at stage
    exact paced.quiet ({s with settles := s.settles+1}.setStage e .left) .left ⟨rfl,rfl⟩ within rfl rfl rfl stage (by rw [here]; rfl)
      (by rw [here]; rfl) (by rw [here]; rfl) (fun _ => by rw [here]; rfl) (fun _ => by rw [here]; rfl)
  | unborn => exact paced
  | left => exact paced

theorem initial_paced (c : Coloring) (some : 0 < c.totalPhases) (s : PhaseState)
    (begun : s = {called := true, opened := [(0,0)]}) : s.Paced c := by
  subst begun
  have zero : ∀ weigh : PhaseStage → Nat, PhaseState.total {called := true, opened := [(0,0)]} weigh = 0 := fun weigh => rfl
  refine ⟨Nat.zero_le _,fun _ => ⟨Nat.zero_le _,fun _ => .inl (Nat.dvd_zero _)⟩,Int.le_refl 0,fun _ => trivial,fun _ _ => rfl,?_,?_,?_,?_,?_,
    ?_,?_,?_,?_⟩
  · rw [zero]
    exact Nat.zero_le 1
  · intro inside _
    rw [zero]
    have positive : 0 < c.bandSize 0 := c.bandSize_pos inside
    exact ⟨rfl,by change (0 : Int) < c.bandSize 0; omega⟩
  · intro won
    rw [zero] at won
    cases won
  · exact fun _ => ⟨zero _,zero _⟩
  · rw [zero,if_neg (by change 0 ≠ c.totalPhases; omega)]
  · intro item
    rw [zero,if_neg (by rintro ⟨-,-,lower | ⟨-,lower⟩⟩ <;> cases lower)]
    rfl
  · intro item
    rw [zero]
    rfl
  · intro o member
    rw [List.mem_singleton.mp member]
  · rw [Nat.min_eq_left (by change 0+1 ≤ c.totalPhases; omega)]
    rfl

theorem start_paced {s : PhaseState} (paced : s.Paced c) : (s.apply c .start).Paced c := by
  have joins : ∀ weigh : PhaseStage → Nat, weigh .entering = 0 → (s.apply c .start).total weigh = s.total weigh := by
    intro weigh zero
    change tally (s.crew+1) _ (Function.update s.stages s.crew .entering) = tally s.crew _ s.stages
    rw [tally_join,zero,Nat.add_zero]
  refine ⟨paced.phases,paced.within,paced.counts,?_,?_,?_,?_,?_,?_,?_,?_,?_,paced.opened,paced.opens⟩
  · intro e
    change (Function.update s.stages s.crew .entering e).Fits c s.word s.bandDone
    by_cases here : e = s.crew
    · rw [here,Function.update_self]
      trivial
    · rw [Function.update_of_ne here]
      exact paced.fits e
  · intro e out
    change s.crew+1 ≤ e at out
    exact (Function.update_of_ne (by omega : e ≠ s.crew) ..).trans (paced.unborn e (by omega))
  · rw [joins _ rfl]
    exact paced.single
  · rw [joins _ rfl,joins _ rfl]
    exact paced.claimed
  · rw [joins _ rfl,joins _ rfl]
    exact paced.decided
  · rw [joins _ rfl,joins _ rfl]
    exact paced.finished
  · rw [joins _ rfl]
    exact paced.settling
  · intro item
    rw [joins _ rfl]
    exact paced.begins item
  · intro item
    rw [joins _ rfl]
    exact paced.returns item

-- Where a call is: not made, made with nothing to do, or under way.
def Standing (c : Coloring) (s : PhaseState) : Prop :=
  s = {} ∨ c.idle = true ∧ s = {called := true, dismissed := true} ∨
    c.idle = false ∧ s.called = true ∧ s.dismissed = false ∧ s.Paced c

theorem step_called (s : PhaseState) (choice : Bool) : (s.step c e choice).called = s.called ∧ (s.step c e choice).dismissed = s.dismissed := by
  unfold step
  cases s.stages e with
  | claiming cur =>
    simp only
    split
    · exact ⟨rfl,rfl⟩
    · exact ⟨rfl,rfl⟩
  | running phase start stop next =>
    simp only
    split
    · exact ⟨rfl,rfl⟩
    · exact ⟨rfl,rfl⟩
  | _ => exact ⟨rfl,rfl⟩

theorem reached_standing (fits : 0 < c.rounds → c.sizesFit) (few : c.rounds*c.full.length ≤ intMax) (path : Reached (phaseSystem c) s) :
    s.Standing c := by
  refine reached_invariant (fun s : PhaseState => s.Standing c) (fun s begun => .inl begun) ?_ path
  rintro s a standing allowed
  cases a with
  | call =>
    change s.called = false at allowed
    rcases standing with fresh | ⟨-,gone⟩ | ⟨-,called,-⟩
    · subst fresh
      cases busy : c.idle with
      | true =>
        refine .inr (.inl ⟨busy,?_⟩)
        change ({called := true, dismissed := c.idle, opened := if c.idle then [] else [(0,0)]} : PhaseState) = _
        rw [busy]
        rfl
      | false =>
        refine .inr (.inr ⟨busy,rfl,busy,initial_paced c (c.totalPhases_pos busy) _ ?_⟩)
        change ({called := true, dismissed := c.idle, opened := if c.idle then [] else [(0,0)]} : PhaseState) = _
        rw [busy]
        rfl
    · rw [gone] at allowed
      cases allowed
    · rw [called] at allowed
      cases allowed
  | start =>
    obtain ⟨called,working⟩ := allowed
    rcases standing with fresh | ⟨-,gone⟩ | ⟨busy,-,-,paced⟩
    · rw [fresh] at called
      cases called
    · rw [gone] at working
      cases working
    · exact .inr (.inr ⟨busy,called,working,start_paced paced⟩)
  | step e choice =>
    obtain ⟨within,-⟩ := allowed
    rcases standing with fresh | ⟨-,gone⟩ | ⟨busy,called,working,paced⟩
    · rw [fresh] at within
      cases within
    · rw [gone] at within
      cases within
    · obtain ⟨same,still⟩ := step_called (c := c) (e := e) s choice
      exact .inr (.inr ⟨busy,same.trans called,still.trans working,step_paced (fits (c.rounds_pos busy)) busy few paced within⟩)

theorem claiming_word {s : PhaseState} (choice : Bool) (here : s.stages e = .claiming cur) :
    (s.step c e choice).word = s.word ∨ s.word = cur ∧ ∃ stop, (s.step c e choice).word = ⟨cur.phase,stop⟩ := by
  by_cases same : s.word = cur ∧ choice = false
  · refine .inr ⟨same.1,
      (min (int32 (cur.next+claimGrainInt c.balance (c.bandInt cur.phase) cur.next c.workersInt)) (c.bandInt cur.phase)).toNat,?_⟩
    unfold step
    rw [here]
    simp only
    rw [if_pos same]
    rfl
  · refine .inl ?_
    unfold step
    rw [here]
    simp only
    rw [if_neg same]
    rfl

-- The word only moves on.
theorem step_phase {s : PhaseState} (few : c.rounds*c.full.length ≤ intMax) (busy : c.idle = false) (paced : s.Paced c) :
    s.word.phase ≤ (s.step c e choice).word.phase := by
  have stage := paced.fits e
  have still : (s.step c e choice).word = s.word → s.word.phase ≤ (s.step c e choice).word.phase := by
    intro same
    rw [same]
  cases here : s.stages e with
  | claiming cur =>
    rcases claiming_word (c := c) choice here with same | ⟨same,stop,word⟩
    · exact still same
    · rw [word,← same]
  | advancing phase =>
    rw [here] at stage
    have word : (s.step c e choice).word = ⟨phase+1,0⟩ := by
      unfold step
      rw [here]
      rfl
    have same := stage.1
    rw [word]
    change s.word.phase ≤ phase+1
    omega
  | ending phase =>
    have bound := paced.phases
    have total := c.phasesInt_eq busy few
    have word : (s.step c e choice).word = ⟨c.phasesInt.toNat,0⟩ := by
      unfold step
      rw [here]
      rfl
    rw [word]
    change s.word.phase ≤ c.phasesInt.toNat
    omega
  | running phase start stop next =>
    refine still ?_
    unfold step
    rw [here]
    simp only
    split <;> rfl
  | unborn => exact still (by unfold step; rw [here])
  | left => exact still (by unfold step; rw [here])
  | _ => exact still (by unfold step; rw [here]; rfl)

end PhaseState

theorem Coloring.mem_items (c : Coloring) (item : Nat × Nat) :
    item ∈ c.items ↔ item.1 < c.totalPhases ∧ item.2 < c.bandSize item.1 := by
  obtain ⟨phase,place⟩ := item
  simp [items]

theorem Coloring.nodup_items (c : Coloring) : c.items.Nodup := by
  refine List.nodup_flatMap.mpr ⟨?_,?_⟩
  · intro phase _
    exact List.Nodup.map (fun a b same => (Prod.mk.inj same).2) List.nodup_range
  · refine List.nodup_range.imp ?_
    intro a b apart item first second
    obtain ⟨i,-,rfl⟩ := List.mem_map.mp first
    obtain ⟨j,-,same⟩ := List.mem_map.mp second
    exact apart (Prod.mk.inj same).1.symm

theorem getD_range (list : List α) (default : α) : (List.range list.length).map (list.getD · default) = list := by
  refine List.ext_getElem (by simp) ?_
  intro i inside other
  simp [List.getElem?_eq_getElem other]

-- Round after round, the items are those of the bands as they were given.
theorem Coloring.arguments (c : Coloring) :
    c.items.map c.argument = (List.replicate c.rounds.toNat c.bands.flatten).flatten := by
  have band : ∀ phase, (List.range (c.bandSize phase)).map (fun place => c.argument (phase,place)) =
      c.full.getD (phase % c.full.length) [] := fun phase => getD_range (c.full.getD (phase % c.full.length) []) 0
  have round : (List.range c.full.length).flatMap (fun phase => c.full.getD (phase % c.full.length) []) = c.bands.flatten := by
    have each : (List.range c.full.length).map (fun phase => c.full.getD (phase % c.full.length) []) = c.full := by
      refine Eq.trans (List.map_congr_left ?_) (getD_range c.full [])
      intro phase inside
      rw [Nat.mod_eq_of_lt (List.mem_range.mp inside)]
    rw [List.flatMap_def,each]
    exact List.flatten_filter_not_isEmpty
  have rounds : ∀ rounds : Nat, (List.range (rounds*c.full.length)).flatMap (fun phase => c.full.getD (phase % c.full.length) []) =
      (List.replicate rounds c.bands.flatten).flatten := by
    intro rounds
    induction rounds with
    | zero => simp
    | succ k ih =>
      rw [Nat.succ_mul,List.range_add,List.flatMap_append,ih,List.flatMap_map,List.replicate_succ',List.flatten_append]
      simp only [Nat.mul_add_mod_self_right,List.flatten_singleton]
      rw [round]
  rw [items,List.map_flatMap]
  simp only [List.map_map,Function.comp_def,band]
  exact rounds c.rounds.toNat

-- What is owed to the caller of a colored loop.
structure PhaseState.Phased (c : Coloring) (s : PhaseState) : Prop where
  once : s.begun.Nodup ∧ s.ended.Nodup
  known : (∀ item ∈ s.begun, item ∈ c.items) ∧ ∀ item ∈ s.ended, item ∈ s.begun
  ordered : ∀ item ∈ s.begun, ∀ earlier ∈ c.items, earlier.1 < item.1 → earlier ∈ s.ended
  zeroed : ∀ o ∈ s.opened, o.2 = 0
  opens : s.called = true → s.dismissed = false → s.opened.map Prod.fst = List.range (min (s.word.phase+1) c.totalPhases)
  settled : s.settles ≤ 1 ∧ (s.settles = 1 → s.ended.Perm c.items ∧
    (s.ended.map c.argument).Perm (List.replicate c.rounds.toNat c.bands.flatten).flatten)
  dismissed : s.dismissed = true → c.items = []
  ends : 0 < s.crew → (∀ e, e < s.crew → s.stages e = .left ∨ s.stages e = .waiting s.word) → s.settles = 1

namespace PhaseState

theorem Paced.phased {s : PhaseState} (paced : s.Paced c) (working : s.dismissed = false) : s.Phased c := by
  -- an item of an earlier phase is in nobody's chunk
  have past : ∀ item, item.1 < s.word.phase → s.total (PhaseStage.rest item) = 0 ∧ s.total (PhaseStage.busy item) = 0 := by
    intro item earlier
    refine ⟨tally_zero.mpr ?_,tally_zero.mpr ?_⟩
    all_goals
      intro e _
      have fits := paced.fits e
      cases here : s.stages e <;> rw [here] at fits <;> simp only [PhaseStage.rest,PhaseStage.busy,PhaseStage.Fits] at fits ⊢
      all_goals
        rw [if_neg]
        rintro same
        first
        | (have phase := same.1; omega)
        | (have phase := congrArg Prod.fst same; simp only at phase; omega)
  have done : ∀ item ∈ c.items, item.1 < s.word.phase → s.ended.count item = 1 := by
    intro item member earlier
    obtain ⟨inside,place⟩ := (c.mem_items item).mp member
    have begins := paced.begins item
    have returns := paced.returns item
    obtain ⟨resting,busy⟩ := past item earlier
    rw [if_pos ⟨inside,place,.inl earlier⟩] at begins
    omega
  have begun : ∀ item ∈ s.begun, Claimed c s.word item := by
    intro item member
    have begins := paced.begins item
    have some := List.count_pos_iff.mpr member
    by_contra none
    rw [if_neg none] at begins
    omega
  have full : s.settles = 1 → s.ended.Perm c.items := by
    intro settled
    have settling := paced.settling
    have final : s.word.phase = c.totalPhases := by
      by_contra early
      rw [if_neg early] at settling
      omega
    refine List.perm_iff_count.mpr ?_
    intro item
    by_cases member : item ∈ c.items
    · rw [done item member (by have inside := ((c.mem_items item).mp member).1; omega)]
      exact (List.count_eq_one_of_mem c.nodup_items member).symm
    · rw [List.count_eq_zero_of_not_mem member]
      have returns := paced.returns item
      have none : s.begun.count item = 0 := by
        refine List.count_eq_zero_of_not_mem (fun inside => member ?_)
        obtain ⟨phase,place,-⟩ := begun item inside
        exact (c.mem_items item).mpr ⟨phase,place⟩
      omega
  refine ⟨⟨?_,?_⟩,⟨?_,?_⟩,?_,paced.opened,fun _ _ => paced.opens,⟨?_,?_⟩,?_,?_⟩
  · refine List.nodup_iff_count_le_one.mpr ?_
    intro item
    have begins := paced.begins item
    split at begins <;> omega
  · refine List.nodup_iff_count_le_one.mpr ?_
    intro item
    have begins := paced.begins item
    have returns := paced.returns item
    split at begins <;> omega
  · intro item member
    obtain ⟨phase,place,-⟩ := begun item member
    exact (c.mem_items item).mpr ⟨phase,place⟩
  · intro item member
    have returns := paced.returns item
    have some := List.count_pos_iff.mpr member
    exact List.count_pos_iff.mp (by omega)
  · intro item member earlier inside before
    obtain ⟨-,-,current⟩ := begun item member
    have one := done earlier inside (by omega)
    exact List.count_pos_iff.mp (by omega)
  · have settling := paced.settling
    split at settling <;> omega
  · intro settled
    refine ⟨full settled,?_⟩
    rw [← c.arguments]
    exact (full settled).map c.argument
  · intro gone
    rw [working] at gone
    cases gone
  · intro staffed stuck
    have none : ∀ weigh : PhaseStage → Nat, (∀ cur, weigh (.waiting cur) = 0) → weigh .left = 0 → s.total weigh = 0 := by
      intro weigh waiting left
      refine tally_zero.mpr ?_
      intro e inside
      rcases stuck e inside with here | here
      · rw [here]
        exact left
      · rw [here]
        exact waiting _
    -- with nobody at work a band that is not done has items to claim
    have final : s.word.phase = c.totalPhases := by
      by_contra early
      have under := Nat.lt_of_le_of_ne paced.phases early
      obtain ⟨sum,less⟩ := paced.claimed under (none _ (fun _ => rfl) rfl)
      rw [none _ (fun _ => rfl) rfl] at sum
      have fits := paced.fits 0
      rcases stuck 0 staffed with here | here
      · rw [here] at fits
        exact early fits
      · rw [here] at fits
        have overrun := fits.2
        omega
    have settling := paced.settling
    rw [if_pos final,none _ (fun _ => rfl) rfl] at settling
    omega

end PhaseState

-- Any number of executors, each with whatever word it last read, keep the phases
-- apart and give every item of every round to the body once.
theorem phases_kept (c : Coloring) (few : c.rounds*c.full.length ≤ intMax) (fits : 0 < c.rounds → c.sizesFit)
    (path : Reached (phaseSystem c) s) :
    s.Phased c ∧ ∀ actions t, Runs (phaseSystem c) s actions t → s.word.phase ≤ t.word.phase := by
  constructor
  · rcases PhaseState.reached_standing fits few path with fresh | ⟨idle,gone⟩ | ⟨-,-,working,paced⟩
    · subst fresh
      exact ⟨⟨.nil,.nil⟩,⟨nofun,nofun⟩,nofun,nofun,nofun,⟨Nat.zero_le _,nofun⟩,nofun,nofun⟩
    · subst gone
      exact ⟨⟨.nil,.nil⟩,⟨nofun,nofun⟩,nofun,nofun,nofun,⟨Nat.zero_le _,nofun⟩,fun _ => c.items_idle fits idle,nofun⟩
    · exact paced.phased working
  · intro actions t run
    refine runs_related (fun s t : PhaseState => s.word.phase ≤ t.word.phase) (fun s => Nat.le_refl _)
      (fun _ _ _ => Nat.le_trans) ?_ path run
    intro s a reached allowed
    cases a with
    | step e choice =>
      rcases PhaseState.reached_standing fits few reached with fresh | ⟨-,gone⟩ | ⟨busy,-,-,paced⟩
      · rw [fresh] at allowed
        cases allowed.1
      · rw [gone] at allowed
        cases allowed.1
      · exact PhaseState.step_phase few busy paced
    | _ => exact Nat.le_refl _

def twoBands : Coloring := ⟨[[7],[],[8,9]],2,2,.guided,none,1,0,none,false⟩

theorem twoBands_fit : twoBands.sizesFit := by
  have least : 2*twoBands.workersInt ≤ intMax := by decide
  intro band member
  refine ⟨?_,least⟩
  have short : ∀ band ∈ twoBands.bands, (band.length : Int) ≤ 2 := by decide
  have two := short band member
  unfold intMax
  omega

-- The second executor holds the first word until the first has done everything.
def staleRun : List PhaseAction :=
  [PhaseAction.call,.start,.start]++List.replicate 3 (PhaseAction.step 1 false)++List.replicate 53 (PhaseAction.step 0 false)++
    List.replicate 3 (PhaseAction.step 1 false)

theorem phases_kept_stale :
    let s := (phaseSystem twoBands).follow {} staleRun
    s.settles = 1 ∧ s.ended.map twoBands.argument = [7,8,9,7,8,9] ∧ s.Phased twoBands := by
  refine ⟨by decide +kernel,by decide +kernel,(phases_kept twoBands (by decide) (fun _ => twoBands_fit) ?_).1⟩
  exact reached_follow (m := phaseSystem twoBands) (.start rfl) (by decide +kernel)

-- One band of 2^31 items: its size comes out negative as an `int`, and the call
-- returns at once.
def wideBand : Coloring := ⟨[List.replicate 2147483648 0],1,2,.guided,none,1,0,none,false⟩

theorem wideBand_dismissed :
    wideBand.rounds*wideBand.full.length ≤ intMax ∧ ¬∀ s, Reached (phaseSystem wideBand) s → s.Phased wideBand := by
  have full : wideBand.full = wideBand.bands := List.filter_eq_self.mpr (by
    intro band member
    rw [List.mem_singleton.mp member,List.isEmpty_replicate]
    rfl)
  have size : wideBand.bandSize 0 = 2147483648 := by
    unfold Coloring.bandSize
    rw [full]
    exact List.length_replicate
  have idle : wideBand.idle = true := by
    have widest : wideBand.widestInt = 0 := by
      unfold Coloring.widestInt wideBand
      rw [List.foldl_cons,List.length_replicate]
      rfl
    unfold Coloring.idle
    rw [widest]
    rfl
  constructor
  · rw [full]
    decide
  · intro always
    have called : Reached (phaseSystem wideBand) (({} : PhaseState).apply wideBand .call) :=
      .step (.start rfl) (show (phaseSystem wideBand).allowed {} .call from rfl)
    have nothing := (always _ called).dismissed idle
    have item : (0,0) ∈ wideBand.items := by
      refine (wideBand.mem_items (0,0)).mpr ⟨?_,by rw [size]; decide⟩
      unfold Coloring.totalPhases
      rw [full]
      decide
    rw [nothing] at item
    cases item

end Macrame

import Macrame.BandArithmetic

namespace Macrame

namespace LoopStage

-- Items of the band that are claimed here and not yet in `band_done`.
def weight : LoopStage → Nat
  | .running _ start stop _ => stop-start
  | .accounting _ start stop => stop-start
  | _ => 0

-- It has found the band done and has yet to open the next phase.
def won : LoopStage → Nat
  | .resetting _ => 1
  | .advancing _ => 1
  | .ending _ => 1
  | _ => 0

-- The phase whose chunk this executor has claimed and not finished with.
def chunk : LoopStage → Option Nat
  | .running phase _ _ _ => some phase
  | .accounting phase _ _ => some phase
  | .resetting phase => some phase
  | .advancing phase => some phase
  | .ending phase => some phase
  | _ => none

-- Submitted, and not yet returned.
def born : LoopStage → Bool
  | .unborn => false
  | .returned => false
  | _ => true

-- On the stack of some thread.
def live : LoopStage → Bool
  | .unborn => false
  | .queued _ => false
  | .returned => false
  | _ => true

end LoopStage

namespace Coloring

theorem executors_pos (c : Coloring) (busy : c.idle = false) : 0 < c.executors := by
  have staffed := c.workersInt_pos busy
  unfold executors
  omega

end Coloring

-- What a stage says of the word and of `band_done`.
def Fits (c : Coloring) (word : PhaseWord) (bandDone : Int) : LoopStage → Prop
  | .waiting cur => cur.phase < c.totalPhases ∧ c.bandSize cur.phase ≤ cur.next
  | .claiming cur => cur.phase < c.totalPhases ∧ cur.next < c.bandSize cur.phase
  | .running phase start stop _ => phase = word.phase ∧ start < stop
  | .accounting phase start stop => phase = word.phase ∧ start < stop
  | .resetting phase => phase = word.phase ∧ phase+1 < c.totalPhases
  | .advancing phase => phase = word.phase ∧ phase+1 < c.totalPhases ∧ bandDone = 0
  | .ending phase => phase = word.phase ∧ c.totalPhases ≤ phase+1
  | _ => True

-- The books of a loop: what is claimed of the band is at work or done, until one
-- executor, and only one, finds all of it done.
structure Counted (c : Coloring) (word : PhaseWord) (bandDone : Int) (stages : Nat → LoopStage) : Prop where
  phases : word.phase ≤ c.totalPhases
  within : word.phase < c.totalPhases → word.next ≤ c.bandSize word.phase ∧ c.Aligned word.phase word.next
  counts : 0 ≤ bandDone
  fits : ∀ e, Fits c word bandDone (stages e)
  unborn : ∀ e, c.executors ≤ e → (stages e).born = false
  single : Tally.tally c.executors (fun _ => LoopStage.won) stages ≤ 1
  claimed : word.phase < c.totalPhases → Tally.tally c.executors (fun _ => LoopStage.won) stages = 0 →
    Tally.tally c.executors (fun _ => LoopStage.weight) stages+bandDone = word.next ∧ bandDone < c.bandSize word.phase
  decided : 0 < Tally.tally c.executors (fun _ => LoopStage.won) stages →
    Tally.tally c.executors (fun _ => LoopStage.weight) stages = 0 ∧ word.next = c.bandSize word.phase ∧
      word.phase < c.totalPhases
  finished : word.phase = c.totalPhases →
    Tally.tally c.executors (fun _ => LoopStage.weight) stages = 0 ∧
      Tally.tally c.executors (fun _ => LoopStage.won) stages = 0

section Counting

variable {c : Coloring} {word : PhaseWord} {bandDone : Int} {stages : Nat → LoopStage} {e : Nat}

theorem counted_initial (c : Coloring) : Counted c {} 0 (fun _ => .unborn) := by
  have light : Tally.tally c.executors (fun _ => LoopStage.weight) (fun _ => .unborn) = 0 := by
    rw [Tally.tally_zero]
    exact fun _ _ => rfl
  have unwon : Tally.tally c.executors (fun _ => LoopStage.won) (fun _ => .unborn) = 0 := by
    rw [Tally.tally_zero]
    exact fun _ _ => rfl
  refine ⟨Nat.zero_le _,fun _ => ⟨Nat.zero_le _,fun _ => .inl (Nat.dvd_zero _)⟩,Int.le_refl 0,fun _ => True.intro,
    fun _ _ => rfl,?_,?_,?_,?_⟩
  · rw [unwon]
    exact Nat.zero_le _
  · intro inside _
    exact ⟨by rw [light]; rfl,Int.natCast_pos.mpr (c.bandSize_pos inside)⟩
  · intro won
    rw [unwon] at won
    cases won
  · exact fun _ => ⟨light,unwon⟩

-- A stage of no weight for another: the books stay as they are.
theorem Counted.quiet (counted : Counted c word bandDone stages) (next : LoopStage) (fits : Fits c word bandDone next)
    (inside : next.born = true → e < c.executors) (light : (stages e).weight = next.weight)
    (unwon : (stages e).won = next.won) : Counted c word bandDone (Function.update stages e next) := by
  have same : ∀ (weigh : LoopStage → Nat), weigh (stages e) = weigh next →
      Tally.tally c.executors (fun _ => weigh) (Function.update stages e next) =
        Tally.tally c.executors (fun _ => weigh) stages := by
    intro weigh equal
    refine Tally.tally_congr ?_
    intro i _
    by_cases here : i = e
    · rw [here,Function.update_self,equal]
    · rw [Function.update_of_ne here]
  refine ⟨counted.phases,counted.within,counted.counts,?_,?_,?_,?_,?_,?_⟩
  · intro i
    by_cases here : i = e
    · rw [here,Function.update_self]
      exact fits
    · rw [Function.update_of_ne here]
      exact counted.fits i
  · intro i above
    by_cases here : i = e
    · rw [here,Function.update_self]
      rw [here] at above
      by_contra born
      exact absurd (inside (by simpa using born)) (Nat.not_lt.mpr above)
    · rw [Function.update_of_ne here]
      exact counted.unborn i above
  · rw [same _ unwon]; exact counted.single
  · rw [same _ unwon,same _ light]; exact counted.claimed
  · rw [same _ unwon,same _ light]; exact counted.decided
  · rw [same _ unwon,same _ light]; exact counted.finished

-- What an executor weighs is in the total.
theorem Counted.weighs (stages : Nat → LoopStage) (within : e < c.executors) :
    (stages e).weight ≤ Tally.tally c.executors (fun _ => LoopStage.weight) stages ∧
      (stages e).won ≤ Tally.tally c.executors (fun _ => LoopStage.won) stages :=
  ⟨Tally.weigh_le_tally (fun _ => LoopStage.weight) stages within,
    Tally.weigh_le_tally (fun _ => LoopStage.won) stages within⟩

theorem Counted.inside (counted : Counted c word bandDone stages) (born : (stages e).born = true) : e < c.executors := by
  by_contra above
  rw [counted.unborn e (Nat.not_lt.mp above)] at born
  cases born

-- A chunk is one of the current band.
theorem Counted.chunk (counted : Counted c word bandDone stages) (chunk : (stages e).chunk = some phase) :
    phase = word.phase ∧ word.phase < c.totalPhases := by
  have fits := counted.fits e
  have born : (stages e).born = true := by
    cases stage : stages e <;> rw [stage] at chunk <;> first | rfl | cases chunk
  have weighs := Counted.weighs stages (counted.inside born)
  have open_ : word.phase < c.totalPhases := by
    refine Nat.lt_of_le_of_ne counted.phases ?_
    intro past
    obtain ⟨light,unwon⟩ := counted.finished past
    rw [light,unwon] at weighs
    cases stage : stages e <;> rw [stage] at chunk fits weighs <;>
      simp only [LoopStage.chunk,LoopStage.weight,LoopStage.won,Fits,reduceCtorEq] at chunk fits weighs <;> omega
  refine ⟨?_,open_⟩
  cases stage : stages e <;> rw [stage] at chunk fits <;> cases chunk
  all_goals exact fits.1

-- The others' stages stand where the phase does, unless `band_done` is reset
-- under one that relies on it.
theorem Counted.others (counted : Counted c word bandDone stages) (word' : PhaseWord) (same : word'.phase = word.phase)
    (next : LoopStage) (fits : Fits c word' bandDone' next)
    (reset : bandDone' = bandDone ∨ ∀ i, i ≠ e → (stages i).won = 0) :
    ∀ i, Fits c word' bandDone' (Function.update stages e next i) := by
  intro i
  by_cases here : i = e
  · rw [here,Function.update_self]
    exact fits
  · rw [Function.update_of_ne here]
    have before := counted.fits i
    cases stage : stages i with
    | advancing phase =>
      rw [stage] at before
      rcases reset with kept | unwon
      · rw [Fits,same,kept]
        exact before
      · have light := unwon i here
        rw [stage] at light
        cases light
    | running phase start stop next => rw [stage] at before; rw [Fits,same]; exact before
    | accounting phase start stop => rw [stage] at before; rw [Fits,same]; exact before
    | resetting phase => rw [stage] at before; rw [Fits,same]; exact before
    | ending phase => rw [stage] at before; rw [Fits,same]; exact before
    | waiting cur => rw [stage] at before; exact before
    | claiming cur => rw [stage] at before; exact before
    | _ => exact True.intro

theorem Counted.still_unborn (counted : Counted c word bandDone stages) (within : e < c.executors) (next : LoopStage) :
    ∀ i, c.executors ≤ i → (Function.update stages e next i).born = false := by
  intro i above
  rw [Function.update_of_ne (by omega)]
  exact counted.unborn i above

theorem Counted.claims (counted : Counted c word bandDone stages) (here : stages e = .claiming word) (stop : Nat)
    (more : word.next < stop) (inside : stop ≤ c.bandSize word.phase) (aligned : c.Aligned word.phase stop) :
    Counted c ⟨word.phase,stop⟩ bandDone (Function.update stages e (.running word.phase word.next stop word.next)) := by
  have within : e < c.executors := counted.inside (e := e) (by rw [here]; rfl)
  have fits := counted.fits e
  rw [here] at fits
  obtain ⟨open_,below⟩ := fits
  have weight := Tally.tally_update (fun _ => LoopStage.weight) stages (.running word.phase word.next stop word.next) within
  have won := Tally.tally_update (fun _ => LoopStage.won) stages (.running word.phase word.next stop word.next) within
  rw [here] at weight won
  simp only [LoopStage.weight,LoopStage.won,Nat.add_zero] at weight won
  have undecided : Tally.tally c.executors (fun _ => LoopStage.won) stages = 0 := by
    by_contra decided
    have full := (counted.decided (Nat.pos_of_ne_zero decided)).2.1
    omega
  obtain ⟨total,done⟩ := counted.claimed open_ undecided
  refine ⟨counted.phases,fun _ => ⟨inside,aligned⟩,counted.counts,?_,counted.still_unborn within _,?_,?_,?_,?_⟩
  · exact counted.others ⟨word.phase,stop⟩ rfl _ ⟨rfl,more⟩ (.inl rfl)
  · rw [won]
    exact counted.single
  · intro _ _
    refine ⟨?_,done⟩
    change _ = (stop : Int)
    omega
  · intro decided
    rw [won,undecided] at decided
    cases decided
  · intro past
    exact absurd past (Nat.ne_of_lt open_)

-- Nobody has found the band done while a chunk of it is to be accounted for.
theorem Counted.unaccounted (counted : Counted c word bandDone stages) (here : stages e = .accounting phase start stop) :
    phase = word.phase ∧ word.phase < c.totalPhases ∧ Tally.tally c.executors (fun _ => LoopStage.won) stages = 0 ∧
      bandDone+((stop-start : Nat) : Int) ≤ c.bandSize word.phase := by
  have within : e < c.executors := counted.inside (e := e) (by rw [here]; rfl)
  obtain ⟨same,open_⟩ := counted.chunk (show (stages e).chunk = some phase by rw [here]; rfl)
  have fits := counted.fits e
  rw [here] at fits
  have more : start < stop := fits.2
  have weighs := (Counted.weighs stages within).1
  rw [here] at weighs
  simp only [LoopStage.weight] at weighs
  have undecided : Tally.tally c.executors (fun _ => LoopStage.won) stages = 0 := by
    by_contra decided
    have light := (counted.decided (Nat.pos_of_ne_zero decided)).1
    omega
  obtain ⟨total,_⟩ := counted.claimed open_ undecided
  have room := (counted.within open_).1
  exact ⟨same,open_,undecided,by omega⟩

-- The executor whose items were the last finds the band done; the others go on.
theorem Counted.accounts (counted : Counted c word bandDone stages) (here : stages e = .accounting phase start stop) :
    Counted c word (bandDone+((stop-start : Nat) : Int)) (Function.update stages e
      (if bandDone+((stop-start : Nat) : Int) = c.bandSize phase then
        if c.totalPhases ≤ phase+1 then .ending phase else .resetting phase
      else .entering)) := by
  have within : e < c.executors := counted.inside (e := e) (by rw [here]; rfl)
  obtain ⟨rfl,open_,undecided,_⟩ := counted.unaccounted here
  have weighs := (Counted.weighs stages within).1
  rw [here] at weighs
  have natural := counted.counts
  have unwon : ∀ i, i ≠ e → (stages i).won = 0 := by
    intro i _
    rcases Nat.lt_or_ge i c.executors with inside | above
    · exact (Tally.tally_zero.mp undecided) i inside
    · have dead := counted.unborn i above
      cases stage : stages i <;> rw [stage] at dead <;> first | rfl | cases dead
  obtain ⟨total,_⟩ := counted.claimed open_ undecided
  have room := (counted.within open_).1
  by_cases last : bandDone+((stop-start : Nat) : Int) = c.bandSize word.phase
  · rw [if_pos last]
    generalize chosen : (if c.totalPhases ≤ word.phase+1 then LoopStage.ending word.phase else .resetting word.phase) = next
    have next_light : next.weight = 0 ∧ next.won = 1 := by
      subst chosen
      split <;> exact ⟨rfl,rfl⟩
    have next_fits : Fits c word (bandDone+((stop-start : Nat) : Int)) next := by
      subst chosen
      split
      · rename_i final
        exact ⟨rfl,final⟩
      · rename_i more
        exact ⟨rfl,Nat.not_le.mp more⟩
    have weight := Tally.tally_update (fun _ => LoopStage.weight) stages next within
    have won := Tally.tally_update (fun _ => LoopStage.won) stages next within
    rw [here,next_light.1] at weight
    rw [here,next_light.2,undecided] at won
    simp only [LoopStage.weight,LoopStage.won] at weight won weighs
    refine ⟨counted.phases,counted.within,by omega,?_,counted.still_unborn within _,?_,?_,?_,?_⟩
    · exact counted.others word rfl _ next_fits (.inr unwon)
    · omega
    · intro _ none_won
      omega
    · intro _
      exact ⟨by omega,by omega,open_⟩
    · intro past
      exact absurd past (Nat.ne_of_lt open_)
  · rw [if_neg last]
    have weight := Tally.tally_update (fun _ => LoopStage.weight) stages .entering within
    have won := Tally.tally_update (fun _ => LoopStage.won) stages .entering within
    rw [here] at weight won
    simp only [LoopStage.weight,LoopStage.won] at weight won weighs
    refine ⟨counted.phases,counted.within,by omega,?_,counted.still_unborn within _,?_,?_,?_,?_⟩
    · exact counted.others word rfl _ True.intro (.inr unwon)
    · omega
    · intro _ _
      exact ⟨by omega,by omega⟩
    · intro decided
      omega
    · intro past
      exact absurd past (Nat.ne_of_lt open_)

-- Nobody but the one that found the band done is anywhere in it.
theorem Counted.alone (counted : Counted c word bandDone stages) (won : (stages e).won = 1) :
    (∀ i, i ≠ e → (stages i).won = 0) ∧ (∀ i, (stages i).weight = 0) ∧ e < c.executors ∧
      word.next = c.bandSize word.phase ∧ word.phase < c.totalPhases ∧
      Tally.tally c.executors (fun _ => LoopStage.won) stages = 1 := by
  have within : e < c.executors := by
    refine counted.inside ?_
    cases stage : stages e <;> rw [stage] at won <;> first | rfl | cases won
  have weighs := (Counted.weighs stages within).2
  rw [won] at weighs
  obtain ⟨light,next,open_⟩ := counted.decided weighs
  have one := Nat.le_antisymm counted.single weighs
  have cleared := Tally.tally_update (fun _ => LoopStage.won) stages .entering within
  have dead : ∀ i, c.executors ≤ i → (stages i).won = 0 ∧ (stages i).weight = 0 := by
    intro i above
    have unborn := counted.unborn i above
    cases stage : stages i <;> rw [stage] at unborn <;> first | exact ⟨rfl,rfl⟩ | cases unborn
  refine ⟨?_,?_,within,next,open_,one⟩
  · intro i other
    rcases Nat.lt_or_ge i c.executors with inside | above
    · have none_left : Tally.tally c.executors (fun _ => LoopStage.won) (Function.update stages e .entering) = 0 := by
        rw [won,one] at cleared
        simp only [LoopStage.won] at cleared
        omega
      have here := (Tally.tally_zero.mp none_left) i inside
      rwa [Function.update_of_ne other] at here
    · exact (dead i above).1
  · intro i
    rcases Nat.lt_or_ge i c.executors with inside | above
    · exact (Tally.tally_zero.mp light) i inside
    · exact (dead i above).2

theorem Counted.resets (counted : Counted c word bandDone stages) (here : stages e = .resetting phase) :
    Counted c word 0 (Function.update stages e (.advancing phase)) := by
  have won : (stages e).won = 1 := by rw [here]; rfl
  obtain ⟨unwon,weightless,within,next,open_,one⟩ := counted.alone won
  have fits := counted.fits e
  rw [here] at fits
  have weight := Tally.tally_update (fun _ => LoopStage.weight) stages (.advancing phase) within
  have stays := Tally.tally_update (fun _ => LoopStage.won) stages (.advancing phase) within
  rw [here] at weight stays
  simp only [LoopStage.weight,LoopStage.won] at weight stays
  have light := (counted.decided (by omega)).1
  refine ⟨counted.phases,counted.within,by omega,?_,counted.still_unborn within _,?_,?_,?_,?_⟩
  · exact counted.others word rfl _ ⟨fits.1,fits.2,rfl⟩ (.inr unwon)
  · omega
  · intro _ none_won
    omega
  · intro _
    exact ⟨by omega,next,open_⟩
  · intro past
    exact absurd past (Nat.ne_of_lt open_)

-- With nobody in a band the word may go to any phase.
theorem Counted.turned (counted : Counted c word bandDone stages) (won : (stages e).won = 1) (word' : PhaseWord)
    (bounded : word'.phase ≤ c.totalPhases) (opens : word'.phase < c.totalPhases → word'.next = 0 ∧ bandDone = 0)
    (next : LoopStage) (fits : Fits c word' bandDone next) (light : next.weight = 0) (unwon : next.won = 0) :
    Counted c word' bandDone (Function.update stages e next) := by
  obtain ⟨others,weightless,within,_,open_,one⟩ := counted.alone won
  have weight := Tally.tally_update (fun _ => LoopStage.weight) stages next within
  have cleared := Tally.tally_update (fun _ => LoopStage.won) stages next within
  have none_left := (counted.decided (by omega)).1
  have mine := weightless e
  have total : Tally.tally c.executors (fun _ => LoopStage.weight) (Function.update stages e next) = 0 := by
    rw [light] at weight
    omega
  have gone : Tally.tally c.executors (fun _ => LoopStage.won) (Function.update stages e next) = 0 := by
    rw [unwon,won] at cleared
    omega
  refine ⟨bounded,?_,counted.counts,?_,counted.still_unborn within _,?_,?_,?_,fun _ => ⟨total,gone⟩⟩
  · intro inside
    rw [(opens inside).1]
    exact ⟨Nat.zero_le _,fun _ => .inl (Nat.dvd_zero _)⟩
  · intro i
    by_cases here : i = e
    · rw [here,Function.update_self]
      exact fits
    · rw [Function.update_of_ne here]
      have before := counted.fits i
      have apart := others i here
      have idle := weightless i
      cases stage : stages i <;> rw [stage] at before apart idle <;>
        simp only [LoopStage.won,LoopStage.weight,Fits,Nat.one_ne_zero] at before apart idle ⊢ <;>
        first | exact before | omega
  · rw [gone]
    exact Nat.zero_le _
  · intro inside _
    rw [total,(opens inside).1,(opens inside).2]
    exact ⟨rfl,Int.natCast_pos.mpr (c.bandSize_pos inside)⟩
  · intro decided
    rw [gone] at decided
    cases decided

-- The loop's own step, whatever thread it is on.
theorem step_counted {s : ColoredState} (sized : c.Sized) (counted : Counted c s.phaseNext s.bandDone s.stages)
    (born : (s.stages e).born = true) (t : ThreadId) (choice : Bool) :
    let next := s.step c t e choice
    Counted c next.phaseNext next.bandDone next.stages := by
  have within := counted.inside born
  have quiet : ∀ next : LoopStage, Fits c s.phaseNext s.bandDone next → (s.stages e).weight = next.weight →
      (s.stages e).won = next.won → Counted c s.phaseNext s.bandDone (Function.update s.stages e next) :=
    fun next fits light unwon => counted.quiet next fits (fun _ => within) light unwon
  have fits := counted.fits e
  have total := c.phasesInt_eq sized.busy sized.phases
  have sizes := fun phase => (c.bandInt_eq sized.sizes phase).1
  cases stage : s.stages e with
  | unborn => simpa [ColoredState.step,stage] using counted
  | queued place => simpa [ColoredState.step,stage] using counted
  | returned => simpa [ColoredState.step,stage] using counted
  | submitting submitted =>
    simp only [ColoredState.step,stage]
    exact quiet _ True.intro (by rw [stage]; rfl) (by rw [stage]; rfl)
  | entering =>
    simp only [ColoredState.step,stage]
    exact quiet _ True.intro (by rw [stage]; rfl) (by rw [stage]; rfl)
  | looping cur =>
    simp only [ColoredState.step,stage]
    refine quiet _ ?_ ?_ ?_ <;> cases choice <;> first | exact True.intro | (rw [stage]; rfl)
  | pausing =>
    simp only [ColoredState.step,stage]
    exact quiet _ True.intro (by rw [stage]; rfl) (by rw [stage]; rfl)
  | reloading =>
    simp only [ColoredState.step,stage]
    exact quiet _ True.intro (by rw [stage]; rfl) (by rw [stage]; rfl)
  | waiting cur =>
    simp only [ColoredState.step,stage]
    exact quiet _ True.intro (by rw [stage]; rfl) (by rw [stage]; rfl)
  | leaving =>
    simp only [ColoredState.step,stage]
    exact quiet _ True.intro (by rw [stage]; rfl) (by rw [stage]; rfl)
  | completing =>
    simp only [ColoredState.step,stage]
    exact quiet _ True.intro (by rw [stage]; rfl) (by rw [stage]; rfl)
  | judging cur =>
    simp only [ColoredState.step,stage,total,sizes,Int.ofNat_le]
    by_cases past : c.totalPhases ≤ cur.phase
    · rw [if_pos past]
      exact quiet _ True.intro (by rw [stage]; rfl) (by rw [stage]; rfl)
    · by_cases full : c.bandSize cur.phase ≤ cur.next
      · rw [if_neg past,if_pos full]
        exact quiet _ ⟨Nat.not_le.mp past,full⟩ (by rw [stage]; rfl) (by rw [stage]; rfl)
      · rw [if_neg past,if_neg full]
        exact quiet _ ⟨Nat.not_le.mp past,Nat.not_le.mp full⟩ (by rw [stage]; rfl) (by rw [stage]; rfl)
  | claiming cur =>
    rw [stage] at fits
    simp only [ColoredState.step,stage]
    split
    · rename_i claimed
      obtain ⟨inside,below⟩ := fits
      have more := claimGrain_pos c.balance (c.bandSize cur.phase) cur.next c.workersInt.toNat
      change 0 < c.grain cur.phase cur.next at more
      rw [claimed.1] at counted
      have aligned := (counted.within inside).2
      rw [Coloring.claim_stop sized.sizes sized.busy aligned below]
      exact counted.claims stage _ (by omega) (Nat.min_le_right _ _) (Coloring.stop_aligned aligned below)
    · exact quiet _ True.intro (by rw [stage]; rfl) (by rw [stage]; rfl)
  | running phase start stop next =>
    rw [stage] at fits
    simp only [ColoredState.step,stage]
    split
    · exact quiet _ fits (by rw [stage]; rfl) (by rw [stage]; rfl)
    · exact quiet _ fits (by rw [stage]; rfl) (by rw [stage]; rfl)
  | accounting phase start stop =>
    obtain ⟨_,_,_,room⟩ := counted.unaccounted stage
    rw [stage] at fits
    have more : start < stop := fits.2
    have natural := counted.counts
    have small := (c.bandInt_eq sized.sizes s.phaseNext.phase).2
    have sum : int32 (s.bandDone+((stop : Int)-start)) = s.bandDone+((stop-start : Nat) : Int) := by
      rw [show (stop : Int)-start = ((stop-start : Nat) : Int) by omega]
      exact int32_of_in ⟨by unfold intMax; omega,by omega⟩
    have last : c.phasesInt ≤ (phase : Int)+1 ↔ c.totalPhases ≤ phase+1 := by omega
    simp only [ColoredState.step,stage,sum,sizes,last]
    exact counted.accounts stage
  | resetting phase =>
    simp only [ColoredState.step,stage]
    exact counted.resets stage
  | advancing phase =>
    rw [stage] at fits
    simp only [ColoredState.step,stage]
    obtain ⟨_,more,reset⟩ := fits
    exact counted.turned (by rw [stage]; rfl) ⟨phase+1,0⟩ (Nat.le_of_lt more) (fun _ => ⟨rfl,reset⟩) _ True.intro rfl rfl
  | ending phase =>
    have final : c.phasesInt.toNat = c.totalPhases := by omega
    simp only [ColoredState.step,stage,final]
    exact counted.turned (by rw [stage]; rfl) ⟨c.totalPhases,0⟩ (Nat.le_refl _) (fun inside => absurd inside (Nat.lt_irrefl _))
      _ True.intro rfl rfl

end Counting
section Nesting

-- Only other work is there.
def Plain (stack : List Layer) : Prop := ∀ l ∈ stack, l.executor = none

-- How executors may stand on a stack: at the top, under one entry that the top
-- took at a yield point, or, without workers, the caller under the helper it submits.
inductive Tidy (c : Coloring) (stages : Nat → LoopStage) : List Layer → Prop where
  | plain (all : Plain stack) : Tidy c stages stack
  | top (all : Plain below) : Tidy c stages (⟨some e,nested⟩ :: below)
  | past (all : Plain below) : Tidy c stages (⟨none,true⟩ :: ⟨some e,nested⟩ :: below)
  | inlined (all : Plain below) (helper : 0 < g) (fanning : ∃ submitted, stages 0 = .submitting submitted)
      (serial : c.workers = 0) : Tidy c stages (⟨some g,false⟩ :: ⟨some 0,nested⟩ :: below)

theorem Tidy.restaged (tidy : Tidy c stages stack) (stages' : Nat → LoopStage)
    (kept : ∀ submitted, stages 0 = .submitting submitted → ∃ submitted, stages' 0 = .submitting submitted) :
    Tidy c stages' stack := by
  cases tidy with
  | plain all => exact .plain all
  | top all => exact .top all
  | past all => exact .past all
  | inlined all helper fanning serial =>
    obtain ⟨submitted,submitting⟩ := fanning
    exact .inlined all helper (kept submitted submitting) serial

theorem plain_cons (all : Plain stack) (nested : Bool) : Plain (⟨none,nested⟩ :: stack) := by
  intro l member
  rcases List.mem_cons.mp member with rfl | old
  · rfl
  · exact all l old

-- What ends at the top leaves a tidy stack.
theorem Tidy.tail (tidy : Tidy c stages stack) : Tidy c stages stack.tail := by
  cases tidy with
  | plain all => exact .plain (fun l member => all l (List.mem_of_mem_tail member))
  | top all => exact .plain all
  | past all => exact .top all
  | inlined all _ _ _ => exact .top all

-- A stack with nothing taken at a yield point on it, whose top yields: either no
-- executor is there, or the one at the top.
theorem Tidy.yielding (tidy : Tidy c stages layers) (shape : layers = first :: rest) (flat : ∀ l ∈ layers, l.nested = false)
    (pooled : c.workers ≠ 0) : Plain rest := by
  cases tidy with
  | plain all =>
    rw [shape] at all
    exact fun l member => all l (List.mem_cons_of_mem _ member)
  | top all =>
    cases shape
    exact all
  | past all => exact absurd (flat ⟨none,true⟩ List.mem_cons_self) (by simp)
  | inlined all helper fanning serial => exact absurd serial pooled

end Nesting

namespace ColoredState

-- An executor that has begun and not returned is on one stack, once.
structure Placed (s : ColoredState) : Prop where
  inside : ∀ t l e, l ∈ s.stack t → l.executor = some e → (s.stages e).live = true ∧ s.threads e = t
  there : ∀ e, (s.stages e).live = true → ∃ l ∈ s.stack (s.threads e), l.executor = some e
  once : ∀ t, ((s.stack t).filterMap Layer.executor).Nodup

-- What has not been submitted is not born.
structure Fanned (s : ColoredState) : Prop where
  fresh : s.called = false → ∀ e, s.stages e = .unborn
  unborn : ∀ submitted, s.stages 0 = .submitting submitted → ∀ e, submitted < e → s.stages e = .unborn

variable {c : Coloring} {s : ColoredState} {t : ThreadId} {e : Nat}

theorem tops_cons (tops : s.tops t who) : ∃ nested rest, s.stack t = ⟨who,nested⟩ :: rest := by
  unfold ColoredState.tops at tops
  cases stack : s.stack t with
  | nil =>
    rw [stack] at tops
    cases tops
  | cons top rest =>
    obtain ⟨executor,nested⟩ := top
    rw [stack] at tops
    cases tops
    exact ⟨nested,rest,rfl⟩

theorem setStage_self (s : ColoredState) (e : Nat) (stage : LoopStage) : (s.setStage e stage).stages e = stage := by
  simp [setStage]

theorem setStage_other (s : ColoredState) (stage : LoopStage) (other : i ≠ e) :
    (s.setStage e stage).stages i = s.stages i := by
  simp [setStage,other]

section Placing

theorem Placed.live (placed : Placed s) (tops : s.tops t (some e)) : (s.stages e).live = true ∧ s.threads e = t := by
  obtain ⟨nested,rest,stack⟩ := tops_cons tops
  exact placed.inside t ⟨some e,nested⟩ e (by rw [stack]; exact List.mem_cons_self) rfl

-- Stages move on without a birth or an end.
theorem Placed.restaged (placed : Placed s) (u : ColoredState) (frame : u.stack = s.stack ∧ u.threads = s.threads)
    (live : ∀ e, (u.stages e).live = (s.stages e).live) : Placed u := by
  obtain ⟨stack,threads⟩ := frame
  refine ⟨?_,?_,?_⟩
  · intro t l e member executor
    rw [stack] at member
    rw [live,threads]
    exact placed.inside t l e member executor
  · intro e alive
    rw [live] at alive
    rw [stack,threads]
    exact placed.there e alive
  · rw [stack]
    exact placed.once

-- Other work comes on top of a stack.
theorem Placed.pushed (placed : Placed s) (t : ThreadId) (nested : Bool) : Placed (s.push t ⟨none,nested⟩) := by
  have members : ∀ t' l e, l.executor = some e → (l ∈ (s.push t ⟨none,nested⟩).stack t' ↔ l ∈ s.stack t') := by
    intro t' l e executor
    by_cases same : t' = t
    · rw [same]
      simp only [push,Function.update_self,List.mem_cons]
      constructor
      · rintro (rfl | old)
        · cases executor
        · exact old
      · exact .inr
    · simp only [push,Function.update_of_ne same]
  refine ⟨?_,?_,?_⟩
  · intro t' l e member executor
    exact placed.inside t' l e ((members t' l e executor).mp member) executor
  · intro e alive
    obtain ⟨l,member,executor⟩ := placed.there e alive
    exact ⟨l,(members _ l e executor).mpr member,executor⟩
  · intro t'
    by_cases same : t' = t
    · rw [same]
      simpa [push] using placed.once t
    · simpa only [push,Function.update_of_ne same] using placed.once t'

-- What is at the top ends: other work, or an executor that returns.
theorem Placed.popped (placed : Placed s) (tops : s.tops t who) (u : ColoredState)
    (frame : u.stack = (s.pop t).stack ∧ u.threads = s.threads)
    (live : ∀ e, (u.stages e).live = ((s.stages e).live && who != some e)) : Placed u := by
  obtain ⟨nested,rest,stack⟩ := tops_cons tops
  obtain ⟨popped,threads⟩ := frame
  have here : u.stack t = rest := by
    rw [popped]
    simp only [pop,Function.update_self,stack,List.tail_cons]
  have elsewhere : ∀ t', t' ≠ t → u.stack t' = s.stack t' := by
    intro t' other
    rw [popped]
    exact Function.update_of_ne other _ _
  have once := placed.once t
  rw [stack] at once
  refine ⟨?_,?_,?_⟩
  · intro t' l e member executor
    have old : l ∈ s.stack t' := by
      by_cases same : t' = t
      · rw [same,here] at member
        rw [same,stack]
        exact List.mem_cons_of_mem _ member
      · rwa [elsewhere t' same] at member
    obtain ⟨alive,home⟩ := placed.inside t' l e old executor
    refine ⟨?_,by rw [threads]; exact home⟩
    rw [live,alive,Bool.true_and,bne_iff_ne]
    rintro rfl
    -- it would be on its stack twice
    have on_top := placed.inside t ⟨some e,nested⟩ e (by rw [stack]; exact List.mem_cons_self) rfl
    have same : t' = t := home.symm.trans on_top.2
    rw [same,here] at member
    have again : e ∈ rest.filterMap Layer.executor := List.mem_filterMap.mpr ⟨l,member,executor⟩
    exact (List.nodup_cons.mp once).1 again
  · intro e alive
    rw [live,Bool.and_eq_true,bne_iff_ne] at alive
    obtain ⟨l,member,executor⟩ := placed.there e alive.1
    refine ⟨l,?_,executor⟩
    rw [threads]
    by_cases same : s.threads e = t
    · rw [same,stack] at member
      rw [same,here]
      rcases List.mem_cons.mp member with rfl | below
      · exact absurd executor alive.2
      · exact below
    · rw [elsewhere _ same]
      exact member
  · intro t'
    by_cases same : t' = t
    · rw [same,here]
      cases who with
      | none => exact once
      | some e => exact (List.nodup_cons.mp once).2
    · rw [elsewhere t' same]
      exact placed.once t'

-- An executor that was on no stack starts on one.
theorem Placed.started (placed : Placed s) (asleep : (s.stages e).live = false) (t : ThreadId) (nested : Bool)
    (stage : LoopStage) (alive : stage.live = true) : Placed (s.start t e nested stage) := by
  have absent : ∀ t' l, l ∈ s.stack t' → l.executor ≠ some e := by
    intro t' l member executor
    rw [(placed.inside t' l e member executor).1] at asleep
    cases asleep
  have here : (s.start t e nested stage).stack t = ⟨some e,nested⟩ :: s.stack t := Function.update_self _ _ _
  have elsewhere : ∀ t', t' ≠ t → (s.start t e nested stage).stack t' = s.stack t' :=
    fun t' other => Function.update_of_ne other _ _
  have mine : (s.start t e nested stage).stages e = stage ∧ (s.start t e nested stage).threads e = t :=
    ⟨Function.update_self _ _ _,Function.update_self _ _ _⟩
  have others : ∀ i, i ≠ e → (s.start t e nested stage).stages i = s.stages i ∧
      (s.start t e nested stage).threads i = s.threads i :=
    fun i other => ⟨Function.update_of_ne other _ _,Function.update_of_ne other _ _⟩
  refine ⟨?_,?_,?_⟩
  · intro t' l i member executor
    have was : l = ⟨some e,nested⟩ ∧ t' = t ∨ l ∈ s.stack t' := by
      by_cases same : t' = t
      · rw [same,here] at member
        rcases List.mem_cons.mp member with top | old
        · exact .inl ⟨top,same⟩
        · exact .inr (same ▸ old)
      · rw [elsewhere t' same] at member
        exact .inr member
    rcases was with ⟨rfl,rfl⟩ | old
    · cases executor
      rw [mine.1,mine.2]
      exact ⟨alive,rfl⟩
    · have other : i ≠ e := by
        rintro rfl
        exact absent t' l old executor
      rw [(others i other).1,(others i other).2]
      exact placed.inside t' l i old executor
  · intro i live
    by_cases same : i = e
    · rw [same,mine.2,here]
      exact ⟨_,List.mem_cons_self,rfl⟩
    · rw [(others i same).1] at live
      rw [(others i same).2]
      obtain ⟨l,member,executor⟩ := placed.there i live
      refine ⟨l,?_,executor⟩
      by_cases home : s.threads i = t
      · rw [home] at member ⊢
        rw [here]
        exact List.mem_cons_of_mem _ member
      · rwa [elsewhere _ home]
  · intro t'
    by_cases same : t' = t
    · rw [same,here]
      refine List.nodup_cons.mpr ⟨?_,placed.once t⟩
      intro member
      obtain ⟨l,old,executor⟩ := List.mem_filterMap.mp member
      exact absent t l old executor
    · rw [elsewhere t' same]
      exact placed.once t'

end Placing

structure Sound (c : Coloring) (s : ColoredState) : Prop where
  counted : Counted c s.phaseNext s.bandDone s.stages
  placed : Placed s
  fanned : Fanned s

theorem live_born {stage : LoopStage} (live : stage.live = true) : stage.born = true := by
  cases stage <;> first | rfl | cases live

theorem place_queued (here : s.place e = some spot) : s.stages e = .queued spot := by
  unfold ColoredState.place at here
  cases stage : s.stages e <;> rw [stage] at here <;> cases here
  rfl

theorem fanning_submitting (here : s.fanning = some submitted) : s.stages 0 = .submitting submitted := by
  unfold ColoredState.fanning at here
  cases stage : s.stages 0 <;> rw [stage] at here <;> cases here
  rfl

section Steps

-- One step of an executor leaves it on its stack, unless it returns.
inductive Onward (s : ColoredState) (e : Nat) (u : ColoredState) : Prop where
  | intro (next : LoopStage) (stack : u.stack = s.stack) (threads : u.threads = s.threads) (called : u.called = s.called)
      (stages : u.stages = Function.update s.stages e next) (live : next.live = true)
      (later : ∀ submitted, next ≠ .submitting submitted)

theorem step_onward (live : (s.stages e).live = true) (stays : s.stages e ≠ .leaving) (choice : Bool) :
    Onward s e (s.step c t e choice) := by
  cases stage : s.stages e with
  | unborn => rw [stage] at live; cases live
  | queued spot => rw [stage] at live; cases live
  | returned => rw [stage] at live; cases live
  | leaving => exact absurd stage stays
  | submitting submitted => simp only [step,stage]; exact ⟨_,rfl,rfl,rfl,rfl,rfl,by simp⟩
  | entering => simp only [step,stage]; exact ⟨_,rfl,rfl,rfl,rfl,rfl,by simp⟩
  | looping cur =>
    simp only [step,stage]
    cases choice
    · exact ⟨.judging cur,rfl,rfl,rfl,rfl,rfl,by simp⟩
    · exact ⟨.pausing,rfl,rfl,rfl,rfl,rfl,by simp⟩
  | pausing => simp only [step,stage]; exact ⟨_,rfl,rfl,rfl,rfl,rfl,by simp⟩
  | reloading => simp only [step,stage]; exact ⟨_,rfl,rfl,rfl,rfl,rfl,by simp⟩
  | judging cur =>
    simp only [step,stage]
    split
    · exact ⟨.leaving,rfl,rfl,rfl,rfl,rfl,by simp⟩
    · split
      · exact ⟨.waiting cur,rfl,rfl,rfl,rfl,rfl,by simp⟩
      · exact ⟨.claiming cur,rfl,rfl,rfl,rfl,rfl,by simp⟩
  | waiting cur => simp only [step,stage]; exact ⟨_,rfl,rfl,rfl,rfl,rfl,by simp⟩
  | claiming cur =>
    simp only [step,stage]
    split <;> exact ⟨_,rfl,rfl,rfl,rfl,rfl,by simp⟩
  | running phase start stop next =>
    simp only [step,stage]
    split <;> exact ⟨_,rfl,rfl,rfl,rfl,rfl,by simp⟩
  | accounting phase start stop =>
    simp only [step,stage]
    split
    · split
      · exact ⟨.ending phase,rfl,rfl,rfl,rfl,rfl,by simp⟩
      · exact ⟨.resetting phase,rfl,rfl,rfl,rfl,rfl,by simp⟩
    · exact ⟨.entering,rfl,rfl,rfl,rfl,rfl,by simp⟩
  | resetting phase => simp only [step,stage]; exact ⟨_,rfl,rfl,rfl,rfl,rfl,by simp⟩
  | advancing phase => simp only [step,stage]; exact ⟨_,rfl,rfl,rfl,rfl,rfl,by simp⟩
  | ending phase => simp only [step,stage]; exact ⟨_,rfl,rfl,rfl,rfl,rfl,by simp⟩
  | completing => simp only [step,stage]; exact ⟨_,rfl,rfl,rfl,rfl,rfl,by simp⟩

theorem update_live (same : (s.stages e).live = next.live) :
    ∀ i, (Function.update s.stages e next i).live = (s.stages i).live := by
  intro i
  by_cases here : i = e
  · rw [here,Function.update_self,same]
  · rw [Function.update_of_ne here]

-- A stage other than the fan-out's own changes, of an executor that is there.
theorem Fanned.kept (fanned : Fanned s) (u : ColoredState) (called : u.called = s.called)
    (stages : u.stages = Function.update s.stages e next) (there : s.stages e ≠ .unborn)
    (later : ∀ submitted, next ≠ .submitting submitted) : Fanned u := by
  refine ⟨?_,?_⟩
  · intro uncalled
    rw [called] at uncalled
    exact absurd (fanned.fresh uncalled e) there
  · intro submitted fanning i above
    rw [stages] at fanning ⊢
    by_cases caller : 0 = e
    · subst caller
      rw [Function.update_self] at fanning
      exact absurd fanning (later submitted)
    · rw [Function.update_of_ne caller] at fanning
      have unborn := fanned.unborn submitted fanning
      have other : i ≠ e := by
        rintro rfl
        exact there (unborn i above)
      rw [Function.update_of_ne other]
      exact unborn i above

theorem step_sound (sized : c.Sized) (sound : Sound c s) (tops : s.tops t (some e)) (choice : Bool) : Sound c (s.step c t e choice) := by
  obtain ⟨live,_⟩ := sound.placed.live tops
  have there : s.stages e ≠ .unborn := by
    intro unborn
    rw [unborn] at live
    cases live
  have counted := step_counted sized sound.counted (live_born live) t choice
  by_cases leaves : s.stages e = .leaving
  · have shape : s.step c t e choice = (s.pop t).setStage e .returned := by simp only [step,leaves]
    rw [shape] at counted ⊢
    refine ⟨counted,sound.placed.popped tops _ ⟨rfl,rfl⟩ ?_,sound.fanned.kept _ rfl rfl there (by simp)⟩
    intro i
    simp only [setStage,pop]
    by_cases here : i = e
    · rw [here,Function.update_self]
      simp [LoopStage.live]
    · rw [Function.update_of_ne here]
      simp [Ne.symm here]
  · obtain ⟨next,stack,threads,called,stages,alive,later⟩ := step_onward (c := c) (t := t) live leaves choice
    refine ⟨counted,sound.placed.restaged _ ⟨stack,threads⟩ ?_,sound.fanned.kept _ called stages there later⟩
    rw [stages]
    exact update_live (live.trans alive.symm)

-- A queued helper starts.
theorem helper_sound (sound : Sound c s) (here : s.place e = some spot) (t : ThreadId) (nested : Bool) :
    Sound c (s.start t e nested .entering) := by
  have queued := place_queued here
  have within : e < c.executors := sound.counted.inside (e := e) (by rw [queued]; rfl)
  refine ⟨?_,?_,?_⟩
  · exact sound.counted.quiet .entering True.intro (fun _ => within) (by rw [queued]; rfl) (by rw [queued]; rfl)
  · exact sound.placed.started (by rw [queued]; rfl) t nested .entering rfl
  · exact sound.fanned.kept _ rfl rfl (by rw [queued]; simp) (by simp)

theorem yielded_cases (s : ColoredState) (t : ThreadId) : s.yielded (s.stack t).head? = s ∨
    ∃ e, s.tops t (some e) ∧ s.stages e = .pausing ∧ s.yielded (s.stack t).head? = s.setStage e .reloading := by
  cases stack : s.stack t with
  | nil => exact .inl rfl
  | cons top rest =>
    obtain ⟨executor,nested⟩ := top
    cases executor with
    | none => exact .inl rfl
    | some e =>
      by_cases pausing : s.stages e = .pausing
      · refine .inr ⟨e,?_,pausing,?_⟩
        · simp [tops,stack]
        · simp [yielded,pausing]
      · refine .inl ?_
        simp [yielded,pausing]

theorem yielded_sound (sound : Sound c s) (t : ThreadId) : Sound c (s.yielded (s.stack t).head?) := by
  rcases yielded_cases s t with same | ⟨e,tops,pausing,moved⟩
  · rw [same]
    exact sound
  · rw [moved]
    have within : e < c.executors := sound.counted.inside (e := e) (by rw [pausing]; rfl)
    refine ⟨?_,?_,?_⟩
    · exact sound.counted.quiet .reloading True.intro (fun _ => within) (by rw [pausing]; rfl) (by rw [pausing]; rfl)
    · exact sound.placed.restaged _ ⟨rfl,rfl⟩ (update_live (by rw [pausing]; rfl))
    · exact sound.fanned.kept _ rfl rfl (by rw [pausing]; simp) (by simp)

theorem yielded_keeps (s : ColoredState) (top : Option Layer) :
    (s.yielded top).stack = s.stack ∧ (s.yielded top).threads = s.threads ∧ (s.yielded top).phaseNext = s.phaseNext ∧
      ∀ e, (s.yielded top).place e = s.place e := by
  unfold yielded
  split
  · split
    · rename_i f _ pausing
      refine ⟨rfl,rfl,rfl,?_⟩
      intro e
      by_cases same : e = f
      · rw [same]
        simp [ColoredState.place,setStage,pausing]
      · simp [ColoredState.place,setStage,same]
    · exact ⟨rfl,rfl,rfl,fun _ => rfl⟩
  · exact ⟨rfl,rfl,rfl,fun _ => rfl⟩

theorem call_sound (sound : Sound c s) (uncalled : s.called = false) : Sound c (s.call c) := by
  have unborn := sound.fanned.fresh uncalled
  have asleep : (s.stages 0).live = false := by rw [unborn]; rfl
  unfold call
  split
  · rename_i nothing
    refine ⟨?_,?_,?_⟩
    · exact sound.counted.quiet .returned True.intro (fun born => by cases born) (by rw [unborn]; rfl) (by rw [unborn]; rfl)
    · exact sound.placed.restaged _ ⟨rfl,rfl⟩ (update_live asleep)
    · refine ⟨fun now => Bool.noConfusion now,?_⟩
      intro submitted fanning
      rw [setStage_self] at fanning
      cases fanning
  · rename_i something
    have within : 0 < c.executors := c.executors_pos (by simpa using something)
    refine ⟨?_,?_,?_⟩
    · exact sound.counted.quiet (.submitting 0) True.intro (fun _ => within) (by rw [unborn]; rfl) (by rw [unborn]; rfl)
    · have placed : Placed {s with called := true} := ⟨sound.placed.inside,sound.placed.there,sound.placed.once⟩
      exact placed.started asleep c.caller false (.submitting 0) rfl
    · refine ⟨fun now => Bool.noConfusion now,?_⟩
      intro submitted _ i above
      exact (Function.update_of_ne (Nat.ne_of_gt (Nat.lt_of_le_of_lt (Nat.zero_le _) above)) _ _).trans (unborn i)

-- The caller submits its next helper, to a queue or on its own stack.
theorem submitted_sound (sound : Sound c s) (fanning : s.fanning = some submitted)
    (more : submitted+1 < c.executors) (u : ColoredState) (stage : LoopStage)
    (stages : u.stages = Function.update s.stages (submitted+1) stage) (called : u.called = s.called)
    (counted : Counted c u.phaseNext u.bandDone u.stages) (placed : Placed u) :
    Sound c (u.setStage 0 (.submitting (submitted+1))) := by
  have submitting := fanning_submitting fanning
  have same : u.stages 0 = .submitting submitted := by
    rw [stages,Function.update_of_ne (Nat.succ_ne_zero _).symm]
    exact submitting
  refine ⟨?_,?_,?_⟩
  · exact counted.quiet (.submitting (submitted+1)) True.intro (fun _ => Nat.lt_of_le_of_lt (Nat.zero_le _) more)
      (by rw [same]; rfl) (by rw [same]; rfl)
  · exact placed.restaged _ ⟨rfl,rfl⟩ (update_live (by rw [same]; rfl))
  · refine ⟨?_,?_⟩
    · intro uncalled
      have unborn := sound.fanned.fresh (called ▸ uncalled) 0
      rw [submitting] at unborn
      cases unborn
    · intro n now i above
      rw [setStage_self] at now
      cases now
      have positive : i ≠ 0 := by omega
      have other : i ≠ submitted+1 := by omega
      rw [setStage_other u _ positive,stages,Function.update_of_ne other]
      exact sound.fanned.unborn submitted submitting i (by omega)

theorem apply_sound (sized : c.Sized) (sound : Sound c s) (allowed : s.Allowed c a) : Sound c (s.apply c a) := by
  cases a with
  | arrive t => exact ⟨sound.counted,sound.placed.pushed t false,⟨sound.fanned.fresh,sound.fanned.unborn⟩⟩
  | depart t =>
    refine ⟨sound.counted,sound.placed.popped (show s.tops t none from allowed) _ ⟨rfl,rfl⟩ ?_,
      ⟨sound.fanned.fresh,sound.fanned.unborn⟩⟩
    intro e
    simp [apply,pop]
  | call => exact call_sound sound allowed.1
  | submit spot =>
    obtain ⟨_,more,_⟩ := allowed
    simp only [apply]
    cases fanning : s.fanning with
    | none => exact sound
    | some submitted =>
      rw [fanning] at more
      have more : submitted+1 < c.executors := by simpa using more
      have unborn := sound.fanned.unborn submitted (fanning_submitting fanning) (submitted+1) (Nat.lt_succ_self _)
      refine submitted_sound sound fanning more _ (.queued spot) rfl rfl ?_ ?_
      · exact sound.counted.quiet (.queued spot) True.intro (fun _ => more) (by rw [unborn]; rfl) (by rw [unborn]; rfl)
      · exact sound.placed.restaged _ ⟨rfl,rfl⟩ (update_live (by rw [unborn]; rfl))
  | submitInline =>
    obtain ⟨_,more,_⟩ := allowed
    simp only [apply]
    cases fanning : s.fanning with
    | none => exact sound
    | some submitted =>
      rw [fanning] at more
      have more : submitted+1 < c.executors := by simpa using more
      have unborn := sound.fanned.unborn submitted (fanning_submitting fanning) (submitted+1) (Nat.lt_succ_self _)
      refine submitted_sound sound fanning more _ .entering rfl rfl ?_ ?_
      · exact sound.counted.quiet .entering True.intro (fun _ => more) (by rw [unborn]; rfl) (by rw [unborn]; rfl)
      · exact sound.placed.started (by rw [unborn]; rfl) c.caller false .entering rfl
  | take t e =>
    obtain ⟨spot,here⟩ := Option.ne_none_iff_exists'.mp allowed.2.1
    exact helper_sound sound here t false
  | yieldOther t own =>
    have yielded := yielded_sound sound t
    exact ⟨yielded.counted,yielded.placed.pushed t true,⟨yielded.fanned.fresh,yielded.fanned.unborn⟩⟩
  | yieldHelper t own e =>
    have queued := allowed.2
    cases here : s.place e with
    | none =>
      rw [here] at queued
      cases queued
    | some spot => exact helper_sound (yielded_sound sound t) (((yielded_keeps s _).2.2.2 e).trans here) t true
  | step t e choice => exact step_sound sized sound allowed.1 choice

end Steps

theorem sound_initial (c : Coloring) : Sound c {} := by
  refine ⟨counted_initial c,⟨?_,?_,fun _ => List.nodup_nil⟩,⟨fun _ _ => rfl,fun _ _ _ _ => rfl⟩⟩
  · intro t l e member
    cases member
  · intro e live
    cases live

section Yielding

structure Tidied (c : Coloring) (s : ColoredState) : Prop where
  tidy : ∀ t, Tidy c s.stages (s.stack t)
  queued : ∀ e spot, s.stages e = .queued spot → c.accepts spot = true

-- The body of a chunk is at the top of this thread's stack.
def inBody (s : ColoredState) (t : ThreadId) : Bool :=
  match (s.stack t).head? with
  | some ⟨some e,_⟩ => match s.stages e with
    | .running _ _ _ _ => true
    | _ => false
  | _ => false

-- A yield point in the body of a chunk takes one of the loop's own helpers.
def takesOwn (s : ColoredState) : ColoredAction → Bool
  | .yieldHelper t _ _ => s.inBody t
  | _ => false

-- The loop between its chunks yields for the class its helpers were queued at, so
-- it takes none of them.
theorem helpers_spared (worker : t < c.workers) (accepted : c.accepts spot = true) (below : c.helperClass ≠ .high) :
    c.helperClass.yieldsTo spot = false := by
  have pooled : c.workers ≠ 0 := Nat.ne_of_gt (Nat.lt_of_le_of_lt (Nat.zero_le t) worker)
  unfold Coloring.accepts at accepted
  rw [if_neg pooled] at accepted
  cases own : c.helperClass <;> rw [own] at accepted below
  · exact absurd rfl below
  · cases spot <;> first | rfl | simp at accepted
  · cases spot <;> first | rfl | simp at accepted

theorem yields_parts (yields : s.yields c t own = true) :
    t < c.workers ∧ (∀ l ∈ s.stack t, l.nested = false) ∧ own ≠ .high ∧ ∃ top rest, s.stack t = top :: rest ∧
      s.yieldsAs c own top = true := by
  simp only [ColoredState.yields,Bool.and_eq_true,decide_eq_true_eq,List.all_eq_true,Bool.not_eq_true',bne_iff_ne] at yields
  obtain ⟨⟨⟨worker,flat⟩,below⟩,top⟩ := yields
  refine ⟨worker,flat,below,?_⟩
  cases stack : s.stack t with
  | nil =>
    rw [stack] at top
    cases top
  | cons first rest =>
    rw [stack] at top
    exact ⟨first,rest,rfl,top⟩

-- One stack changes, and the caller, if it was submitting, still is.
theorem Tidied.at_one (tidied : Tidied c s) (u : ColoredState)
    (fanning : ∀ submitted, s.stages 0 = .submitting submitted → ∃ submitted, u.stages 0 = .submitting submitted)
    (elsewhere : ∀ t', t' ≠ t → u.stack t' = s.stack t') (here : Tidy c u.stages (u.stack t))
    (queued : ∀ e spot, u.stages e = .queued spot → c.accepts spot = true) : Tidied c u := by
  refine ⟨?_,queued⟩
  intro t'
  by_cases same : t' = t
  · rw [same]
    exact here
  · rw [elsewhere t' same]
    exact (tidied.tidy t').restaged u.stages fanning

theorem Tidied.update_queued (tidied : Tidied c s) (next : LoopStage) (unqueued : ∀ spot, next ≠ .queued spot) :
    ∀ i spot, Function.update s.stages e next i = .queued spot → c.accepts spot = true := by
  intro i spot now
  by_cases same : i = e
  · rw [same,Function.update_self] at now
    exact absurd now (unqueued spot)
  · rw [Function.update_of_ne same] at now
    exact tidied.queued i spot now

theorem step_tidied (sound : Sound c s) (tidied : Tidied c s) (tops : s.tops t (some e)) (choice : Bool) :
    Tidied c (s.step c t e choice) := by
  obtain ⟨nested,rest,stack⟩ := tops_cons tops
  obtain ⟨live,home⟩ := sound.placed.live tops
  -- where the caller itself is at the top, it stands under no helper
  have uncovered : ∀ t', ∀ (stages' : Nat → LoopStage), (∀ i, i ≠ e → stages' i = s.stages i) → Tidy c stages' (s.stack t') := by
    intro t' stages' same
    have tidy := tidied.tidy t'
    generalize shape : s.stack t' = layers at tidy
    cases tidy with
    | plain all => exact .plain all
    | top all => exact .top all
    | past all => exact .past all
    | @inlined below g under all helper fanning serial =>
      have other : (0 : Nat) ≠ e := by
        rintro rfl
        have caller := sound.placed.inside t' ⟨some 0,under⟩ 0 (by rw [shape]; simp) rfl
        have thread : t = t' := home.symm.trans caller.2
        rw [← thread,stack] at shape
        cases shape
        exact Nat.lt_irrefl _ helper
      exact .inlined all helper (by rw [same 0 other]; exact fanning) serial
  by_cases leaves : s.stages e = .leaving
  · have shape : s.step c t e choice = (s.pop t).setStage e .returned := by simp only [step,leaves]
    rw [shape]
    refine ⟨?_,tidied.update_queued .returned (by simp)⟩
    intro t'
    have kept := uncovered t' ((s.pop t).setStage e .returned).stages (fun i other => Function.update_of_ne other _ _)
    by_cases same : t' = t
    · subst same
      have popped : ((s.pop t').setStage e .returned).stack t' = (s.stack t').tail := by simp [pop,setStage]
      rw [popped]
      exact kept.tail
    · have popped : ((s.pop t).setStage e .returned).stack t' = s.stack t' := by simp [pop,setStage,same]
      rw [popped]
      exact kept
  · obtain ⟨next,stacked,_,_,stages,alive,_⟩ := step_onward (c := c) (t := t) live leaves choice
    have unqueued : ∀ spot, next ≠ .queued spot := by
      rintro spot rfl
      cases alive
    refine ⟨?_,by rw [stages]; exact tidied.update_queued next unqueued⟩
    intro t'
    rw [stacked]
    refine uncovered t' _ ?_
    intro i other
    rw [stages,Function.update_of_ne other]

theorem yielded_stages (s : ColoredState) (t : ThreadId) :
    (∀ submitted, s.stages 0 = .submitting submitted →
      ∃ submitted, (s.yielded (s.stack t).head?).stages 0 = .submitting submitted) ∧
      ∀ e spot, (s.yielded (s.stack t).head?).stages e = .queued spot → s.stages e = .queued spot := by
  rcases yielded_cases s t with same | ⟨f,_,pausing,moved⟩
  · rw [same]
    exact ⟨fun submitted submitting => ⟨submitted,submitting⟩,fun _ _ queued => queued⟩
  · rw [moved]
    refine ⟨?_,?_⟩
    · intro submitted submitting
      have other : (0 : Nat) ≠ f := by
        rintro rfl
        rw [pausing] at submitting
        cases submitting
      exact ⟨submitted,(setStage_other s .reloading other).trans submitting⟩
    · intro e spot queued
      by_cases same : e = f
      · rw [same,setStage_self] at queued
        cases queued
      · rwa [setStage_other s .reloading same] at queued

theorem apply_tidied (sound : Sound c s) (tidied : Tidied c s) (allowed : s.Allowed c a) (spares : s.takesOwn a = false) :
    Tidied c (s.apply c a) := by
  have still : ∀ submitted, s.stages 0 = .submitting submitted → ∃ submitted, s.stages 0 = .submitting submitted :=
    fun submitted submitting => ⟨submitted,submitting⟩
  cases a with
  | arrive t =>
    have free : s.stack t = [] := allowed
    refine tidied.at_one _ still (fun t' other => Function.update_of_ne other _ _) ?_ tidied.queued
    simp only [apply,push,Function.update_self,free]
    exact .plain (plain_cons (fun l member => by cases member) false)
  | depart t =>
    refine tidied.at_one _ still (fun t' other => Function.update_of_ne other _ _) ?_ tidied.queued
    simp only [apply,pop,Function.update_self]
    exact (tidied.tidy t).tail
  | call =>
    have unborn := sound.fanned.fresh allowed.1
    have unqueued : ∀ (next : LoopStage), (∀ spot, next ≠ .queued spot) → ∀ e spot,
        Function.update s.stages 0 next e = .queued spot → c.accepts spot = true :=
      fun next never => tidied.update_queued next never
    have gone : ∀ submitted, s.stages 0 ≠ .submitting submitted := by
      intro submitted submitting
      rw [unborn] at submitting
      cases submitting
    have all : ∀ t, Plain (s.stack t) := by
      intro t l member
      cases executor : l.executor with
      | none => rfl
      | some e =>
        have live := (sound.placed.inside t l e member executor).1
        rw [unborn] at live
        cases live
    simp only [apply,call]
    split
    · exact ⟨fun t => .plain (all t),unqueued .returned (by simp)⟩
    · refine tidied.at_one (t := c.caller) _ (fun submitted submitting => absurd submitting (gone submitted)) ?_ ?_
        (unqueued (.submitting 0) (by simp))
      · exact fun t' other => Function.update_of_ne other _ _
      · simp only [start,push,setStage,Function.update_self]
        exact .top (all c.caller)
  | submit spot =>
    obtain ⟨_,more,accepted⟩ := allowed
    simp only [apply]
    cases fanning : s.fanning with
    | none => exact tidied
    | some submitted =>
      refine ⟨?_,?_⟩
      · intro t
        refine (tidied.tidy t).restaged ((s.setStage (submitted+1) (.queued spot)).setStage 0
          (.submitting (submitted+1))).stages ?_
        intro _ _
        exact ⟨submitted+1,setStage_self _ _ _⟩
      · intro e at_ queued
        by_cases caller : e = 0
        · rw [caller,setStage_self] at queued
          cases queued
        · rw [setStage_other _ _ caller] at queued
          by_cases mine : e = submitted+1
          · rw [mine,setStage_self] at queued
            cases queued
            exact accepted
          · rw [setStage_other _ _ mine] at queued
            exact tidied.queued e at_ queued
  | submitInline =>
    obtain ⟨tops,_,serial,_⟩ := allowed
    obtain ⟨nested,rest,stack⟩ := tops_cons tops
    simp only [apply]
    cases fanning : s.fanning with
    | none => exact tidied
    | some submitted =>
      refine tidied.at_one (t := c.caller) _ (fun _ _ => ⟨submitted+1,setStage_self _ _ _⟩)
        (fun t' other => Function.update_of_ne other _ _) ?_ ?_
      · have below : Plain rest := by
          have tidy := tidied.tidy c.caller
          generalize shape : s.stack c.caller = layers at tidy
          rw [stack] at shape
          cases tidy with
          | plain all =>
            have named := all ⟨some 0,nested⟩ (by rw [← shape]; exact List.mem_cons_self)
            cases named
          | top all => cases shape; exact all
          | past all => cases shape
          | inlined all helper _ _ => cases shape; exact absurd helper (Nat.lt_irrefl _)
        have shape : ((s.start c.caller (submitted+1) false .entering).setStage 0 (.submitting (submitted+1))).stack c.caller =
            ⟨some (submitted+1),false⟩ :: ⟨some 0,nested⟩ :: rest := by
          simp [start,push,setStage,stack]
        rw [shape]
        exact .inlined below (Nat.succ_pos _) ⟨submitted+1,setStage_self _ _ _⟩ serial
      · intro e at_ queued
        by_cases caller : e = 0
        · rw [caller,setStage_self] at queued
          cases queued
        · rw [setStage_other _ _ caller] at queued
          exact tidied.update_queued .entering (by simp) e at_ queued
  | take t e =>
    obtain ⟨free,queued,_⟩ := allowed
    obtain ⟨spot,here⟩ := Option.ne_none_iff_exists'.mp queued
    refine tidied.at_one (t := t) _ ?_ (fun t' other => Function.update_of_ne other _ _) ?_
      (tidied.update_queued .entering (by simp))
    · intro submitted submitting
      have other : (0 : Nat) ≠ e := by
        rintro rfl
        rw [place_queued here] at submitting
        cases submitting
      exact ⟨submitted,(Function.update_of_ne other _ _).trans submitting⟩
    · simp only [apply,start,push,setStage,Function.update_self,free]
      exact .top (fun l member => by cases member)
  | yieldOther t own =>
    obtain ⟨worker,flat,_,top,rest,stack,_⟩ := yields_parts allowed
    have pooled : c.workers ≠ 0 := Nat.ne_of_gt (Nat.lt_of_le_of_lt (Nat.zero_le t) worker)
    have below := (tidied.tidy t).yielding stack flat pooled
    obtain ⟨fanning,queued⟩ := yielded_stages s t
    have stacked := (yielded_keeps s (s.stack t).head?).1
    refine tidied.at_one (t := t) _ fanning ?_ ?_ (fun e spot now => tidied.queued e spot (queued e spot now))
    · intro t' other
      simp only [apply,push,Function.update_of_ne other,stacked]
    · simp only [apply,push,Function.update_self,stacked]
      rw [stack]
      obtain ⟨executor,nested⟩ := top
      cases executor with
      | none => exact .plain (plain_cons (plain_cons below nested) true)
      | some e => exact .past below
  | yieldHelper t own e =>
    obtain ⟨yields,taken⟩ := allowed
    obtain ⟨worker,flat,low,top,rest,stack,yieldsAs⟩ := yields_parts yields
    have pooled : c.workers ≠ 0 := Nat.ne_of_gt (Nat.lt_of_le_of_lt (Nat.zero_le t) worker)
    have below := (tidied.tidy t).yielding stack flat pooled
    obtain ⟨fanning,queued⟩ := yielded_stages s t
    have stacked := (yielded_keeps s (s.stack t).head?).1
    cases here : s.place e with
    | none =>
      rw [here] at taken
      cases taken
    | some spot =>
      rw [here] at taken
      have waits := place_queued here
      obtain ⟨executor,nested⟩ := top
      cases executor with
      | some f =>
        -- the loop itself spares its helpers, and the condition is about its body
        exfalso
        have spared := spares
        simp only [takesOwn,inBody,stack,List.head?_cons] at spared
        simp only [ColoredState.yieldsAs] at yieldsAs
        cases stage : s.stages f <;> rw [stage] at spared yieldsAs <;> try cases yieldsAs
        · have own_class : own = c.helperClass := by simpa using yieldsAs
          rw [own_class] at low taken
          have never := helpers_spared worker (tidied.queued e spot waits) low
          rw [show (some spot).any c.helperClass.yieldsTo = c.helperClass.yieldsTo spot from rfl,never] at taken
          cases taken
        · cases spared
      | none =>
        refine tidied.at_one (t := t) _ ?_ ?_ ?_ ?_
        · intro submitted submitting
          have other : (0 : Nat) ≠ e := by
            rintro rfl
            rw [waits] at submitting
            cases submitting
          obtain ⟨n,now⟩ := fanning submitted submitting
          exact ⟨n,(Function.update_of_ne other _ _).trans now⟩
        · intro t' other
          simp only [apply,start,push,setStage,Function.update_of_ne other,stacked]
        · simp only [apply,start,push,setStage,Function.update_self,stacked]
          rw [stack]
          exact .top (plain_cons below nested)
        · intro i at_ now
          by_cases same : i = e
          · rw [same] at now
            rw [show (s.apply c (.yieldHelper t own e)).stages e = .entering from Function.update_self _ _ _] at now
            cases now
          · rw [show (s.apply c (.yieldHelper t own e)).stages i = (s.yielded (s.stack t).head?).stages i from
              Function.update_of_ne same _ _] at now
            exact tidied.queued i at_ (queued i at_ now)
  | step t e choice => exact step_tidied sound tidied allowed.1 choice

end Yielding

section Waiting

-- The wait of a fully claimed band whose phase has not been left.
def Waits (s : ColoredState) (e : Nat) : Prop := s.stages e = .waiting s.phaseNext

instance (s : ColoredState) (e : Nat) : Decidable (s.Waits e) := inferInstanceAs (Decidable (_ = _))

-- Whoever waits, waits for a chunk of the band that is on the stack of a thread
-- on which no executor above it waits.
def Flowing (s : ColoredState) : Prop :=
  ∀ e, s.Waits e → ∃ f t nested above below, s.stack t = above++⟨some f,nested⟩ :: below ∧
    (s.stages f).chunk = some s.phaseNext.phase ∧ ∀ l ∈ above, ∀ g, l.executor = some g → ¬s.Waits g

-- What is claimed and not accounted for, somebody is at.
theorem chunk_held (sound : Sound c s) (waits : s.Waits e) : ∃ f, (s.stages f).chunk = some s.phaseNext.phase := by
  have counted := sound.counted
  have fits := counted.fits e
  rw [waits] at fits
  obtain ⟨open_,full⟩ := fits
  have found : ∃ f, (s.stages f).weight ≠ 0 ∨ (s.stages f).won ≠ 0 := by
    by_contra nobody
    have none_left : ∀ f, (s.stages f).weight = 0 ∧ (s.stages f).won = 0 := by
      intro f
      by_contra some_left
      exact nobody ⟨f,by omega⟩
    have undecided : Tally.tally c.executors (fun _ => LoopStage.won) s.stages = 0 :=
      Tally.tally_zero.mpr (fun f _ => (none_left f).2)
    have light : Tally.tally c.executors (fun _ => LoopStage.weight) s.stages = 0 :=
      Tally.tally_zero.mpr (fun f _ => (none_left f).1)
    obtain ⟨total,done⟩ := counted.claimed open_ undecided
    omega
  obtain ⟨f,busy⟩ := found
  have chunk : ∃ phase, (s.stages f).chunk = some phase := by
    cases stage : s.stages f <;> rw [stage] at busy <;> simp [LoopStage.weight,LoopStage.won] at busy <;> exact ⟨_,rfl⟩
  obtain ⟨phase,here⟩ := chunk
  refine ⟨f,?_⟩
  rw [here,(counted.chunk here).1]

theorem flowing (sound : Sound c s) (tidied : Tidied c s) : Flowing s := by
  intro e waits
  obtain ⟨f,chunk⟩ := chunk_held sound waits
  have live : (s.stages f).live = true := by
    cases stage : s.stages f <;> rw [stage] at chunk <;> first | rfl | cases chunk
  obtain ⟨l,member,executor⟩ := sound.placed.there f live
  have tidy := tidied.tidy (s.threads f)
  generalize shape : s.stack (s.threads f) = layers at member tidy
  cases tidy with
  | plain all =>
    rw [all l member] at executor
    cases executor
  | @top below g nested all =>
    rcases List.mem_cons.mp member with rfl | deeper
    · cases executor
      exact ⟨f,_,nested,[],below,shape,chunk,fun l above => by cases above⟩
    · rw [all l deeper] at executor
      cases executor
  | @past below g nested all =>
    rcases List.mem_cons.mp member with rfl | deeper
    · cases executor
    · rcases List.mem_cons.mp deeper with rfl | plain
      · cases executor
        refine ⟨f,_,nested,[⟨none,true⟩],below,shape,chunk,?_⟩
        intro l above g other
        rw [List.mem_singleton.mp above] at other
        cases other
      · rw [all l plain] at executor
        cases executor
  | @inlined below g nested all helper fanning serial =>
    rcases List.mem_cons.mp member with rfl | deeper
    · cases executor
      exact ⟨f,_,false,[],⟨some 0,nested⟩ :: below,shape,chunk,fun l above => by cases above⟩
    · rcases List.mem_cons.mp deeper with rfl | plain
      · cases executor
        obtain ⟨submitted,submitting⟩ := fanning
        rw [submitting] at chunk
        cases chunk
      · rw [all l plain] at executor
        cases executor

end Waiting

section Trapping

-- Where an executor that never leaves the loop may stand.
def Caught (c : Coloring) : LoopStage → Prop
  | .looping cur => cur.phase < c.totalPhases
  | .judging cur => cur.phase < c.totalPhases
  | .resetting _ => False
  | .advancing _ => False
  | .ending _ => False
  | .completing => False
  | .leaving => False
  | .submitting _ => False
  | _ => True

-- A chunk lies under a helper of its own loop.
structure Trapped (c : Coloring) (s : ColoredState) (t : ThreadId) (f e : Nat) (body : LoopStage) : Prop where
  worker : t < c.workers
  stack : ∃ nested rest, s.stack t = ⟨some e,true⟩ :: ⟨some f,nested⟩ :: rest
  here : s.stages f = body
  open_ : ∃ phase low stop next, body = .running phase low stop next
  caught : Caught c (s.stages e)

variable {f : Nat}

theorem Trapped.apart (trapped : Trapped c s t f e body) (sound : Sound c s) :
    f ≠ e ∧ (∀ t', ¬s.tops t' (some f)) ∧ ∀ t', s.tops t' (some e) → t' = t := by
  obtain ⟨nested,rest,stack⟩ := trapped.stack
  have once := sound.placed.once t
  rw [stack] at once
  have other : f ≠ e := by
    rintro rfl
    exact (List.nodup_cons.mp once).1 List.mem_cons_self
  have home := (sound.placed.inside t ⟨some f,nested⟩ f (by rw [stack]; simp) rfl).2
  have thread := (sound.placed.inside t ⟨some e,true⟩ e (by rw [stack]; simp) rfl).2
  refine ⟨other,?_,fun t' tops => (sound.placed.live tops).2.symm.trans thread⟩
  intro t' tops
  have same : t' = t := (sound.placed.live tops).2.symm.trans home
  obtain ⟨_,_,shape⟩ := tops_cons tops
  rw [same,stack] at shape
  cases shape
  exact other rfl

theorem Trapped.frame (trapped : Trapped c s t f e body) (u : ColoredState) (stack : u.stack t = s.stack t)
    (under : u.stages f = s.stages f) (past : Caught c (u.stages e)) : Trapped c u t f e body :=
  ⟨trapped.worker,stack ▸ trapped.stack,under.trans trapped.here,trapped.open_,past⟩

-- What is at work on the chunk keeps the phase open, and the helper in the loop.
theorem caught_step (sized : c.Sized) (sound : Sound c s) (trapped : Trapped c s t f e body) (apart : f ≠ e) (choice : Bool) :
    Caught c ((s.step c t e choice).stages e) := by
  obtain ⟨phase,low,stop,next,rfl⟩ := trapped.open_
  have counted := sound.counted
  have live := (sound.placed.live (t := t) (e := e) (by
    obtain ⟨_,_,stack⟩ := trapped.stack
    simp [tops,stack])).1
  have phases : s.phaseNext.phase < c.totalPhases :=
    (counted.chunk (show (s.stages f).chunk = some phase by rw [trapped.here]; rfl)).2
  have caught := trapped.caught
  cases stage : s.stages e with
  | unborn => rw [stage] at live; cases live
  | queued spot => rw [stage] at live; cases live
  | returned => rw [stage] at live; cases live
  | submitting submitted => rw [stage] at caught; exact caught.elim
  | resetting at_ => rw [stage] at caught; exact caught.elim
  | advancing at_ => rw [stage] at caught; exact caught.elim
  | ending at_ => rw [stage] at caught; exact caught.elim
  | completing => rw [stage] at caught; exact caught.elim
  | leaving => rw [stage] at caught; exact caught.elim
  | entering => simpa [step,stage,setStage,Caught] using phases
  | pausing => simpa [step,stage,setStage,Caught] using phases
  | reloading => simpa [step,stage,setStage,Caught] using phases
  | waiting cur => simpa [step,stage,setStage,Caught] using phases
  | looping cur =>
    rw [stage] at caught
    cases choice
    · simpa [step,stage,setStage,Caught] using caught
    · simp [step,stage,setStage,Caught]
  | judging cur =>
    rw [stage] at caught
    have total := c.phasesInt_eq sized.busy sized.phases
    change cur.phase < c.totalPhases at caught
    have early : ¬c.phasesInt ≤ cur.phase := by omega
    simp only [step,stage,setStage_self]
    by_cases full : c.bandInt cur.phase ≤ cur.next
    · exact (if_neg early).trans (if_pos full) ▸ True.intro
    · exact (if_neg early).trans (if_neg full) ▸ True.intro
  | claiming cur =>
    simp only [step,stage]
    split
    · simp [setStage,Caught]
    · simpa [setStage,Caught] using phases
  | running at_ first last item =>
    simp only [step,stage]
    split <;> simp [setStage,Caught]
  | accounting at_ first last =>
    have after := step_counted sized counted (live_born live) t choice
    have under : (s.step c t e choice).stages f = .running phase low stop next := by
      simp only [step,stage]
      rw [setStage_other _ _ apart]
      exact trapped.here
    have more : low < stop := by
      have fits := counted.fits f
      rw [trapped.here] at fits
      exact fits.2
    have undecided : ((s.step c t e choice).stages e).won ≠ 1 := by
      intro won
      have light := (after.alone won).2.1 f
      rw [under] at light
      simp only [LoopStage.weight] at light
      omega
    generalize shape : (s.step c t e choice).stages e = later at undecided ⊢
    simp only [step,stage,setStage_self] at shape
    split at shape
    · split at shape
      · exact absurd (by rw [← shape]; rfl) undecided
      · exact absurd (by rw [← shape]; rfl) undecided
    · rw [← shape]
      exact True.intro

theorem trapped_kept (sized : c.Sized) (sound : Sound c s) (trapped : Trapped c s t f e body) (allowed : s.Allowed c a) :
    Trapped c (s.apply c a) t f e body := by
  obtain ⟨apart,untopped,only⟩ := trapped.apart sound
  obtain ⟨nested,rest,stack⟩ := trapped.stack
  obtain ⟨phase,low,stop,next,rfl⟩ := trapped.open_
  have live := (sound.placed.inside t ⟨some e,true⟩ e (by rw [stack]; simp) rfl).1
  have unqueued : ∀ g spot, s.place g = some spot → f ≠ g ∧ e ≠ g := by
    intro g spot here
    have queued := place_queued here
    refine ⟨?_,?_⟩
    · rintro rfl
      rw [trapped.here] at queued
      cases queued
    · rintro rfl
      rw [queued] at live
      cases live
  have yielding : ∀ t' own, s.yields c t' own = true → t ≠ t' := by
    rintro t' own yields rfl
    obtain ⟨_,flat,_⟩ := yields_parts yields
    exact absurd (flat ⟨some e,true⟩ (by rw [stack]; simp)) (by simp)
  -- a yield point elsewhere moves on somebody else
  have passed : ∀ t', t ≠ t' → (s.yielded (s.stack t').head?).stages f = s.stages f ∧
      (s.yielded (s.stack t').head?).stages e = s.stages e := by
    intro t' elsewhere
    rcases yielded_cases s t' with same | ⟨g,tops,_,moved⟩
    · rw [same]
      exact ⟨rfl,rfl⟩
    · rw [moved]
      refine ⟨setStage_other s _ ?_,setStage_other s _ ?_⟩
      · rintro rfl
        exact untopped t' tops
      · rintro rfl
        exact elsewhere (only t' tops).symm
  cases a with
  | arrive t' =>
    have free : s.stack t' = [] := allowed
    have elsewhere : t ≠ t' := by
      rintro rfl
      rw [free] at stack
      cases stack
    exact trapped.frame _ (Function.update_of_ne elsewhere _ _) rfl trapped.caught
  | depart t' =>
    have elsewhere : t ≠ t' := by
      rintro rfl
      obtain ⟨_,_,shape⟩ := tops_cons (show s.tops t none from allowed)
      rw [stack] at shape
      cases shape
    exact trapped.frame _ (Function.update_of_ne elsewhere _ _) rfl trapped.caught
  | call =>
    have unborn := sound.fanned.fresh allowed.1 f
    rw [trapped.here] at unborn
    cases unborn
  | submit spot =>
    simp only [apply]
    cases fanning : s.fanning with
    | none => exact trapped
    | some submitted =>
      have submitting := fanning_submitting fanning
      have unborn := sound.fanned.unborn submitted submitting (submitted+1) (Nat.lt_succ_self _)
      have others : ∀ g, s.stages g ≠ .submitting submitted → s.stages g ≠ .unborn →
          ((s.setStage (submitted+1) (.queued spot)).setStage 0 (.submitting (submitted+1))).stages g = s.stages g := by
        intro g moving born
        rw [setStage_other _ _ (by rintro rfl; exact moving submitting),
          setStage_other _ _ (by rintro rfl; exact born unborn)]
      refine trapped.frame _ rfl (others f (by rw [trapped.here]; simp) (by rw [trapped.here]; simp)) ?_
      rw [others e]
      · exact trapped.caught
      · intro caller
        have caught := trapped.caught
        rw [caller] at caught
        exact caught
      · intro gone
        rw [gone] at live
        cases live
  | submitInline => exact absurd trapped.worker (by rw [allowed.2.2.1]; exact Nat.not_lt_zero t)
  | take t' g =>
    obtain ⟨free,queued,_⟩ := allowed
    obtain ⟨spot,here⟩ := Option.ne_none_iff_exists'.mp queued
    have elsewhere : t ≠ t' := by
      rintro rfl
      rw [free] at stack
      cases stack
    refine trapped.frame _ (Function.update_of_ne elsewhere _ _) (Function.update_of_ne (unqueued g spot here).1 _ _) ?_
    rw [show (s.apply c (.take t' g)).stages e = s.stages e from Function.update_of_ne (unqueued g spot here).2 _ _]
    exact trapped.caught
  | yieldOther t' own =>
    have elsewhere := yielding t' own allowed
    obtain ⟨under,past⟩ := passed t' elsewhere
    refine trapped.frame _ ?_ under ?_
    · simp only [apply,push,Function.update_of_ne elsewhere,(yielded_keeps s (s.stack t').head?).1]
    · rw [show (s.apply c (.yieldOther t' own)).stages e = s.stages e from past]
      exact trapped.caught
  | yieldHelper t' own g =>
    have elsewhere := yielding t' own allowed.1
    obtain ⟨under,past⟩ := passed t' elsewhere
    have taken := allowed.2
    cases here : s.place g with
    | none =>
      rw [here] at taken
      cases taken
    | some spot =>
      refine trapped.frame _ ?_ ((Function.update_of_ne (unqueued g spot here).1 _ _).trans under) ?_
      · simp only [apply,start,push,setStage,Function.update_of_ne elsewhere,(yielded_keeps s (s.stack t').head?).1]
      · rw [show (s.apply c (.yieldHelper t' own g)).stages e = s.stages e from
          (Function.update_of_ne (unqueued g spot here).2 _ _).trans past]
        exact trapped.caught
  | step t' g choice =>
    obtain ⟨tops,_⟩ := allowed
    have other : f ≠ g := by
      rintro rfl
      exact untopped t' tops
    obtain ⟨alive,home⟩ := sound.placed.live tops
    by_cases leaves : s.stages g = .leaving
    · have shape : s.step c t' g choice = (s.pop t').setStage g .returned := by simp only [step,leaves]
      have away : e ≠ g := by
        rintro rfl
        have caught := trapped.caught
        rw [leaves] at caught
        exact caught
      have elsewhere : t ≠ t' := by
        rintro rfl
        obtain ⟨_,_,same⟩ := tops_cons tops
        rw [stack] at same
        cases same
        exact away rfl
      simp only [apply,shape]
      refine trapped.frame _ (Function.update_of_ne elsewhere _ _) (setStage_other _ _ other) ?_
      rw [setStage_other _ _ away]
      exact trapped.caught
    · obtain ⟨later,stacked,_,_,stages,_,_⟩ := step_onward (c := c) (t := t') alive leaves choice
      refine trapped.frame _ (by simp only [apply,stacked]) (by simp only [apply,stages,Function.update_of_ne other]) ?_
      by_cases mine : e = g
      · subst mine
        rw [only t' tops]
        exact caught_step sized sound trapped apart choice
      · simp only [apply,stages,Function.update_of_ne mine]
        exact trapped.caught

theorem takes_traps (allowed : s.Allowed c a) (takes : s.takesOwn a = true) :
    ∃ t f e body, s.stages f = body ∧ Trapped c (s.apply c a) t f e body := by
  cases a with
  | yieldHelper t own e =>
    obtain ⟨yields,taken⟩ := allowed
    obtain ⟨worker,_,_,top,rest,stack,_⟩ := yields_parts yields
    obtain ⟨executor,nested⟩ := top
    simp only [takesOwn,inBody,stack,List.head?_cons] at takes
    cases executor with
    | none => cases takes
    | some f =>
      cases here : s.place e with
      | none =>
        rw [here] at taken
        cases taken
      | some spot =>
        have queued := place_queued here
        cases stage : s.stages f with
        | running phase low stop next =>
          have kept : s.yielded (s.stack t).head? = s := by
            rcases yielded_cases s t with same | ⟨g,tops,pausing,_⟩
            · exact same
            · obtain ⟨_,_,shape⟩ := tops_cons tops
              rw [stack] at shape
              cases shape
              rw [stage] at pausing
              cases pausing
          have other : f ≠ e := by
            rintro rfl
            rw [queued] at stage
            cases stage
          have started : s.apply c (.yieldHelper t own e) = s.start t e true .entering := by simp only [apply,kept]
          rw [started]
          refine ⟨t,f,e,_,stage,worker,⟨nested,rest,?_⟩,?_,⟨phase,low,stop,next,rfl⟩,?_⟩
          · exact (Function.update_self t (⟨some e,true⟩ :: s.stack t) s.stack).trans (by rw [stack])
          · exact (Function.update_of_ne other _ _).trans stage
          · simp [start,setStage,Caught]
        | _ => simp [stage] at takes
  | _ => cases takes

end Trapping

-- A call with nothing to do runs no loop.
def Dismissed (s : ColoredState) : Prop := ∀ e, (s.stages e).born = false

theorem Dismissed.absent (dismissed : s.Dismissed) : (∀ e, s.place e = none) ∧ s.fanning = none ∧ ∀ e, s.ready c e = false := by
  refine ⟨?_,?_,?_⟩
  · intro e
    have dead := dismissed e
    unfold place
    cases stage : s.stages e with
    | queued spot => rw [stage] at dead; cases dead
    | _ => rfl
  · have dead := dismissed 0
    unfold fanning
    cases stage : s.stages 0 with
    | submitting submitted => rw [stage] at dead; cases dead
    | _ => rfl
  · intro e
    have dead := dismissed e
    unfold ready
    cases stage : s.stages e <;> rw [stage] at dead <;> first | rfl | cases dead

theorem apply_dismissed (idle : c.idle = true) (dismissed : s.Dismissed) (allowed : s.Allowed c a) : (s.apply c a).Dismissed := by
  obtain ⟨unplaced,still,unready⟩ := dismissed.absent (c := c)
  cases a with
  | arrive t => exact dismissed
  | depart t => exact dismissed
  | call =>
    intro e
    simp only [apply,call,idle,if_true]
    by_cases caller : e = 0
    · rw [caller,setStage_self]
      rfl
    · rw [setStage_other _ _ caller]
      exact dismissed e
  | submit spot => exact absurd allowed.2.1 (by simp [still])
  | submitInline => exact absurd allowed.2.1 (by simp [still])
  | take t e => exact absurd (unplaced e) allowed.2.1
  | yieldOther t own =>
    intro e
    rcases yielded_cases s t with same | ⟨f,_,pausing,_⟩
    · simp only [apply,same]
      exact dismissed e
    · have dead := dismissed f
      rw [pausing] at dead
      cases dead
  | yieldHelper t own e => exact absurd allowed.2 (by simp [unplaced])
  | step t e choice => exact absurd allowed.2 (by simp [unready])

end ColoredState

theorem colored_dismissed (idle : c.idle = true) (path : Machines.Reached (coloredSystem c) s) : s.Dismissed := by
  refine Machines.reached_invariant ColoredState.Dismissed ?_ (fun s a dismissed allowed => ColoredState.apply_dismissed idle dismissed allowed) path
  rintro s rfl e
  rfl

theorem colored_sound (sized : c.Sized) (path : Machines.Reached (coloredSystem c) s) : ColoredState.Sound c s := by
  refine Machines.reached_invariant (ColoredState.Sound c) ?_ (fun s a sound allowed => ColoredState.apply_sound sized sound allowed) path
  rintro s rfl
  exact ColoredState.sound_initial c

theorem colored_tidied : ColoredState.Tidied c {} :=
  ⟨fun _ => .plain (fun l member => by cases member),fun _ _ queued => by cases queued⟩

theorem dismissed_flows (idle : c.idle = true) (run : (coloredSystem c).Each (coloredSystem c).allowed {} schedule) :
    (coloredSystem c).Throughout ColoredState.Flowing {} schedule := by
  refine Machines.throughout_of ColoredState.Dismissed ?_ ?_ (fun e => rfl) run
  · exact fun s a dismissed allowed => ColoredState.apply_dismissed idle dismissed allowed
  · intro s dismissed e waits
    have dead := dismissed e
    rw [waits] at dead
    cases dead

theorem sized_flows (sized : c.Sized) (run : (coloredSystem c).Each (coloredSystem c).allowed {} schedule)
    (spares : (coloredSystem c).Each (fun s a => s.takesOwn a = false) {} schedule) :
    (coloredSystem c).Throughout ColoredState.Flowing {} schedule := by
  refine Machines.throughout_while (fun s => ColoredState.Sound c s ∧ ColoredState.Tidied c s) ?_ ?_
    ⟨ColoredState.sound_initial c,colored_tidied⟩ run spares
  · intro s a inv allowed spared
    exact ⟨ColoredState.apply_sound sized inv.1 allowed,ColoredState.apply_tidied inv.1 inv.2 allowed spared⟩
  · exact fun s inv => ColoredState.flowing inv.1 inv.2

-- Once a helper stands on a chunk of its own loop, the chunk stays as it is.
theorem sized_traps (sized : c.Sized) (path : Machines.Reached (coloredSystem c) s) (allowed : (coloredSystem c).allowed s a)
    (takes : s.takesOwn a = true) : ∃ f phase, (s.stages f).chunk = some phase ∧
      ∀ actions u, Machines.Runs (coloredSystem c) ((coloredSystem c).apply s a) actions u → u.stages f = s.stages f := by
  have sound := colored_sound sized path
  obtain ⟨t,f,e,body,under,trapped⟩ := ColoredState.takes_traps allowed takes
  obtain ⟨phase,low,stop,next,rfl⟩ := trapped.open_
  refine ⟨f,phase,by rw [under]; rfl,?_⟩
  intro actions u run
  have kept : ColoredState.Sound c u ∧ ColoredState.Trapped c u t f e (.running phase low stop next) := by
    induction run with
    | nil => exact ⟨ColoredState.apply_sound sized sound allowed,trapped⟩
    | step _ next ih => exact ⟨ColoredState.apply_sound sized ih.1 next,ColoredState.trapped_kept sized ih.1 ih.2 next⟩
  rw [kept.2.here,under]

-- As long as no yield point in a body takes one of the loop's own helpers, the
-- loop never waits on itself. Where one does, the chunk under it stays as it is
-- for good.
theorem colored_flows (c : Coloring) (fits : c.idle = false → c.sizesFit ∧ c.rounds*c.full.length ≤ intMax) :
    (∀ schedule, (coloredSystem c).Each (coloredSystem c).allowed {} schedule →
      (coloredSystem c).Each (fun s a => s.takesOwn a = false) {} schedule →
      (coloredSystem c).Throughout ColoredState.Flowing {} schedule) ∧
    ∀ s a, Machines.Reached (coloredSystem c) s → (coloredSystem c).allowed s a → s.takesOwn a = true →
      ∃ f phase, (s.stages f).chunk = some phase ∧
        ∀ actions u, Machines.Runs (coloredSystem c) ((coloredSystem c).apply s a) actions u →
          u.stages f = s.stages f := by
  by_cases idle : c.idle = true
  · refine ⟨fun _ run _ => dismissed_flows idle run,?_⟩
    intro s a path allowed takes
    obtain ⟨t,f,e,body,under,trapped⟩ := ColoredState.takes_traps allowed takes
    obtain ⟨phase,low,stop,next,rfl⟩ := trapped.open_
    have dead := colored_dismissed idle path f
    rw [under] at dead
    cases dead
  · have busy : c.idle = false := by simpa using idle
    have sized : c.Sized := ⟨busy,(fits busy).1,(fits busy).2⟩
    exact ⟨fun _ run spares => sized_flows sized run spares,fun s a path allowed takes => sized_traps sized path allowed takes⟩

-- Two items, the caller a task on the only worker, its one helper of class `high`.
def selfColoring : Coloring where
  bands := [[7,9]]
  rounds := 1
  maxWorkers := 2
  balance := .unbalanced
  priority := some .high
  workers := 1
  caller := 0
  calling := some .normal
  draining := false

-- The caller claims an item, the body yields, and the helper runs on top of it.
def selfWait : List ColoredAction :=
  [.arrive 0,.call,.submit .high,.step 0 0 false,.step 0 0 false,.step 0 0 false,.step 0 0 false,.step 0 0 false,
    .yieldHelper 0 .normal 1,.step 0 1 false,.step 0 1 false,.step 0 1 false,.step 0 1 false,.step 0 1 false,
    .step 0 1 false,.step 0 1 false,.step 0 1 false,.step 0 1 false,.step 0 1 false]

theorem selfColoring_sized (workers : Nat) : Coloring.Sized {selfColoring with workers} where
  busy := rfl
  sizes := by
    intro band member
    rw [List.mem_singleton.mp member]
    exact ⟨by decide,trivial⟩
  phases := (by decide : (1 : Int)*1 ≤ intMax)

theorem colored_waits_on_itself :
    let s := (coloredSystem selfColoring).follow {} selfWait
    Machines.Reached (coloredSystem selfColoring) s ∧ ¬s.Flowing := by
  have path := Machines.reached_follow (.start rfl)
    (by decide +kernel : (coloredSystem selfColoring).admits {} selfWait = true)
  refine ⟨path,?_⟩
  have sound := colored_sound (selfColoring_sized 1) path
  intro flowing
  obtain ⟨f,t,nested,above,below,stack,chunk,free⟩ := flowing 1 (by decide +kernel)
  have inside : f < 2 := sound.counted.inside (e := f) (by
    cases stage : ((coloredSystem selfColoring).follow {} selfWait).stages f <;> rw [stage] at chunk <;>
      first | rfl | cases chunk)
  have caller : f = 0 := by
    by_contra other
    obtain rfl : f = 1 := by omega
    exact absurd chunk (by decide +kernel)
  subst caller
  have thread : t = 0 := ((sound.placed.inside t ⟨some 0,nested⟩ 0 (by rw [stack]; simp) rfl).2).symm.trans
    (by decide +kernel)
  rw [thread,show ((coloredSystem selfColoring).follow {} selfWait).stack 0 =
    [⟨some 1,true⟩,⟨some 0,false⟩,⟨none,false⟩] by decide +kernel] at stack
  cases above with
  | nil => cases stack
  | cons l rest =>
    obtain ⟨rfl,_⟩ := List.cons.inj stack
    exact free ⟨some 1,true⟩ List.mem_cons_self 1 rfl (by decide +kernel)

-- The same call on two workers: the helper waits for the caller's item, no yield
-- point takes it; and the run above, where one does.
def apartColoring : Coloring := {selfColoring with workers := 2}

def apartRun : List ColoredAction :=
  [.arrive 0,.call,.submit .high,.take 1 1,.step 0 0 false,.step 0 0 false,.step 0 0 false,.step 0 0 false,.step 0 0 false,
    .step 1 1 false,.step 1 1 false,.step 1 1 false,.step 1 1 false,.step 1 1 false,.step 1 1 false,.step 1 1 false,
    .step 1 1 false,.step 1 1 false,.step 1 1 false]

theorem colored_flows_apart :
    (((coloredSystem apartColoring).follow {} apartRun).Waits 1 ∧ ((coloredSystem apartColoring).follow {} apartRun).Flowing) ∧
      ∃ f phase, (((coloredSystem selfColoring).follow {} (selfWait.take 8)).stages f).chunk = some phase := by
  refine ⟨⟨by decide +kernel,?_⟩,?_⟩
  · have run := Machines.each_of_admits (by decide +kernel : (coloredSystem apartColoring).admits {} apartRun = true)
    exact Machines.throughout_last ((colored_flows apartColoring
      (fun _ => ⟨(selfColoring_sized 2).sizes,(selfColoring_sized 2).phases⟩)).1 apartRun run (by decide +kernel))
  · obtain ⟨f,phase,chunk,_⟩ := (colored_flows selfColoring
      (fun _ => ⟨(selfColoring_sized 1).sizes,(selfColoring_sized 1).phases⟩)).2 _ (.yieldHelper 0 .normal 1)
      (Machines.reached_follow (.start rfl)
        (by decide +kernel : (coloredSystem selfColoring).admits {} (selfWait.take 8) = true))
      (by decide +kernel) (by decide +kernel)
    exact ⟨f,phase,chunk⟩

end Macrame

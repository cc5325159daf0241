import Macrame.Lib.Tally
import Macrame.PoolLaws

namespace Macrame
open Machines Tally

-- Counted in `num_spinning_`.
def PoolAt.spins : PoolAt → Nat
  | .finding (.handoff _) _ => 1
  | .checking (.handoff _) => 1
  | .unspinning _ => 1
  | _ => 0

def Pool.Counted (c : Scheduler) (s : Pool) : Prop :=
  s.numSpinning = (tally c.workers (fun _ at_ => PoolAt.spins at_) s.thread : Nat)

theorem PoolAt.outside_spins {at_ : PoolAt} (outer : at_.outside = true) : at_.spins = 0 := by
  cases at_ <;> first | rfl | cases outer

theorem Search.Checked.spins (went : Search.Checked quit search next) : next.spins = (PoolAt.checking search).spins := by
  cases went with
  | waits idle => cases idle <;> rfl
  | _ => rfl

theorem Probe.Stepped.spins (went : Probe.Stepped c s probe next) : next.spins = 0 := by
  cases went with
  | filled probe idle => cases idle <;> rfl
  | _ => rfl

theorem PoolMove.spins {s : Pool} (move : PoolMove c timed s i at_ next) : next.spins = at_.spins := by
  cases move with
  | passes search start k _ => cases search <;> rfl
  | checks search went => exact went.spins
  | probes probe went => exact went.spins
  | _ => rfl

theorem PoolAt.Returns.spins (went : PoolAt.Returns c i out at_ next) : next.spins = at_.spins := by
  cases went with
  | kept tasks n _ => rcases c.signalSubmit_cases tasks with same | same <;> (rw [same]; rfl)
  | pushed tasks p n => rcases c.signalSubmit_cases tasks with same | same <;> (rw [same]; rfl)
  | scans search scan next pick a _ _ => cases search <;> rfl
  | found search scan n _ => cases search <;> rfl
  | checks search _ => cases search <;> rfl
  | _ => rfl

-- Thread `i` moves, and the counter with it.
theorem Pool.Counted.moved {s u : Pool} (counted : s.Counted c) (next : PoolAt)
    (thread : u.thread = Function.update s.thread i next) (outer : c.workers ≤ i → (s.thread i).spins = 0 ∧ next.spins = 0)
    (change_ : u.numSpinning+(s.thread i).spins = s.numSpinning+next.spins) : u.Counted c := by
  unfold Pool.Counted at counted ⊢
  by_cases worker : i < c.workers
  · have total : tally c.workers (fun _ at_ => PoolAt.spins at_) u.thread+(s.thread i).spins =
        tally c.workers (fun _ at_ => PoolAt.spins at_) s.thread+next.spins := by
      rw [thread]
      exact tally_update _ s.thread next worker
    omega
  · have same : tally c.workers (fun _ at_ => PoolAt.spins at_) u.thread =
        tally c.workers (fun _ at_ => PoolAt.spins at_) s.thread := by
      refine tally_congr ?_
      intro j within
      have other : j ≠ i := fun equal => worker (equal ▸ within)
      rw [thread,Function.update_of_ne other]
    obtain ⟨before,after⟩ := outer (Nat.le_of_not_lt worker)
    rw [same]
    omega

theorem Pool.Counted.roused {s u : Pool} (counted : s.Counted c) (count : u.numSpinning = s.numSpinning)
    (thread : ∀ j, u.thread j = s.thread j ∨ u.thread j = (s.thread j).roused) : u.Counted c := by
  unfold Pool.Counted at counted ⊢
  rw [count,counted]
  refine congrArg Nat.cast (tally_congr ?_)
  intro j _
  cases thread j with
  | inl same => rw [same]
  | inr roused =>
    rw [roused]
    cases s.thread j <;> rfl

theorem pool_counted_step {s : Pool} (sound : s.Sound c) (counted : s.Counted c) (step : PoolStep c timed s u) : u.Counted c := by
  -- a step that leaves the counter alone
  have plain : ∀ (u : Pool) i next, u.thread = Function.update s.thread i next → u.numSpinning = s.numSpinning →
      next.spins = (s.thread i).spins → u.Counted c := by
    intro u i next thread count same
    refine counted.moved next thread ?_ (by rw [count,same])
    intro outer
    have none := PoolAt.outside_spins (sound.outside i outer)
    exact ⟨none,same.trans none⟩
  cases step with
  | stays => exact counted
  | moves i next move => exact plain _ i next rfl rfl move.spins
  | submits i tasks next _ at_ where_ =>
    refine plain _ i next rfl rfl ?_
    rw [at_]
    rcases where_ with ⟨-,rfl⟩ | ⟨p,rfl⟩ <;> rfl
  | appends i tasks _ at_ _ => exact counted
  | starts i tasks _ at_ _ => exact plain _ i _ rfl rfl (by rw [at_]; rfl)
  | draws i tasks started n at_ _ => exact plain _ i _ rfl rfl (by rw [at_]; rfl)
  | ends i tasks at_ _ => exact plain _ i _ rfl rfl (by rw [at_]; rfl)
  | finishes i t rest at_ =>
    refine plain _ i _ rfl rfl ?_
    rw [at_]
    cases t.dispatch <;> rfl
  | inside i fails call asks _ _ => exact counted
  | back i fails pick call out asks _ _ => exact plain _ i _ rfl rfl (PoolAt.answered_returns pick (s.aging i) out asks).spins
  | advances i tasks at_ =>
    refine plain _ i _ rfl rfl ?_
    rw [at_]
    split <;> rfl
  | promotes i n at_ => exact plain _ i _ rfl rfl (by rw [at_]; rfl)
  | wakes i tasks pick at_ _ =>
    have roused : (s.rouse pick).Counted c := counted.roused rfl (rouse_thread s pick)
    have here : ((s.rouse pick).thread i).spins = 0 := by
      rcases rouse_thread s pick i with same | same <;> rw [same,at_] <;> rfl
    refine roused.moved _ rfl (fun _ => ⟨here,rfl⟩) ?_
    rw [here]
    rfl
  | enlists i at_ =>
    refine counted.moved _ rfl ?_ ?_
    · intro outer
      have outside := sound.outside i outer
      rw [at_] at outside
      cases outside
    · rw [at_]
      change s.numSpinning+1+0 = s.numSpinning+((if 0 < c.spinCycles then _ else _ : PoolAt).spins : Int)
      split
      · change s.numSpinning+1+0 = s.numSpinning+1
        omega
      · change s.numSpinning+1+0 = s.numSpinning+1
        omega
  | retires i stop at_ =>
    refine counted.moved _ rfl ?_ ?_
    · intro outer
      have outside := sound.outside i outer
      rw [at_] at outside
      cases outside
    · have zero : (stop.left s.numSpinning).spins = 0 := by
        cases stop with
        | found n => simp only [SpinEnd.left]; split <;> rfl
        | _ => rfl
      rw [at_,zero]
      change s.numSpinning-1+1 = s.numSpinning+0
      omega
  | quits _ => exact counted
  | shuts _ _ => exact counted
  | notifies _ _ => exact counted
  | rouses _ => exact counted.roused rfl (fun _ => .inr rfl)

end Macrame

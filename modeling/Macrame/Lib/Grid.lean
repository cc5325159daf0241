import Mathlib.Data.Int.ConditionallyCompleteOrder
import Mathlib.Data.Int.Interval
import Mathlib.Data.Set.Card
import Mathlib.Order.Bounds.Basic

namespace Grid

-- The points `origin+k*step`, and those of them in `(low,high]`, by their numbers.
def OnGrid (origin step x : Int) : Prop := ∃ k : Int, x = origin+k*step

def between (origin step low high : Int) : Set Int := {k : Int | low < origin+k*step ∧ origin+k*step ≤ high}

section Points

variable {origin step x high : Int}

theorem onGrid_shift (on : OnGrid origin step x) (n : Int) : OnGrid origin step (x+step*n) := by
  obtain ⟨k,rfl⟩ := on
  refine ⟨k+n,?_⟩
  rw [Int.add_mul,Int.mul_comm step n,Int.add_assoc]

-- From a point on, its own interval included: as many as the quotient, and one.
theorem between_Icc (positive : 0 < step) (k : Int) :
    between origin step (origin+k*step-step) high = Set.Icc k (k+(high-(origin+k*step))/step) := by
  ext i
  change origin+k*step-step < origin+i*step ∧ origin+i*step ≤ high ↔ k ≤ i ∧ i ≤ k+(high-(origin+k*step))/step
  have first : origin+k*step-step < origin+i*step ↔ k ≤ i := by
    have below : origin+k*step-step < origin+i*step ↔ (k-1)*step < i*step := by
      rw [Int.sub_mul,Int.one_mul]
      omega
    rw [below,Int.mul_lt_mul_right positive]
    omega
  have last : origin+i*step ≤ high ↔ i ≤ k+(high-(origin+k*step))/step := by
    have above : origin+i*step ≤ high ↔ (i-k)*step ≤ high-(origin+k*step) := by
      rw [Int.sub_mul]
      omega
    rw [above,← Int.le_ediv_iff_mul_le positive]
    omega
  rw [first,last]

theorem between_card (positive : 0 < step) (on : OnGrid origin step x) (reached : x ≤ high) :
    ((between origin step (x-step) high).ncard : Int) = (high-x)/step+1 := by
  obtain ⟨k,rfl⟩ := on
  have quotient : 0 ≤ (high-(origin+k*step))/step := Int.ediv_nonneg (by omega) (by omega)
  rw [between_Icc positive,Set.ncard_eq_toFinset_card',Set.toFinset_Icc,Int.card_Icc]
  omega

-- One step past the last point reached is the first not reached.
theorem next_least (positive : 0 < step) (on : OnGrid origin step x) :
    IsLeast {y | OnGrid origin step y ∧ high < y} (x+step*((high-x)/step+1)) := by
  have past : high < x+step*((high-x)/step+1) := by
    have below := Int.lt_ediv_add_one_mul_self (high-x) positive
    rw [Int.mul_comm]
    omega
  refine ⟨⟨onGrid_shift on _,past⟩,?_⟩
  rintro y ⟨⟨j,rfl⟩,later⟩
  obtain ⟨k,rfl⟩ := on
  have more : (high-(origin+k*step))/step < j-k := by
    refine Int.ediv_lt_of_lt_mul positive ?_
    rw [Int.sub_mul]
    omega
  have scaled := Int.mul_le_mul_of_nonneg_left (show (high-(origin+k*step))/step+1 ≤ j-k from more) (Int.le_of_lt positive)
  have moved : step*(j-k) = j*step-k*step := by rw [Int.mul_sub,Int.mul_comm step j,Int.mul_comm step k]
  omega

end Points

end Grid

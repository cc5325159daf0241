import Mathlib.Data.Int.Basic

namespace Macrame

def intMax : Int := 2147483647

-- What `fetch_add` leaves in an `atomic<int>`, and what a conversion to `int`
-- gives: the value modulo 2^32.
def int32 (x : Int) : Int := x.bmod 4294967296

def InInt (x : Int) : Prop := -intMax-1 ≤ x ∧ x ≤ intMax

instance decideInInt (x : Int) : Decidable (InInt x) := inferInstanceAs (Decidable (_ ∧ _))

theorem int32_of_in (fits : InInt x) : int32 x = x := by
  unfold InInt intMax at fits
  exact Int.bmod_eq_of_le (by omega) (by omega)

theorem int32_in (x : Int) : InInt (int32 x) := by
  have low := Int.le_bmod (x := x) (m := 4294967296) (by decide)
  have high := Int.bmod_lt (x := x) (m := 4294967296) (by decide)
  unfold InInt intMax int32
  omega

theorem int32_add (x y : Int) : int32 (int32 x+y) = int32 (x+y) := Int.bmod_add_bmod

-- Past the end the sum comes back below zero.
theorem int32_past (past : intMax < x) (near : x ≤ 2*intMax) : int32 x < 0 := by
  unfold intMax at past near
  have back : int32 x = x-4294967296 := by
    refine (Int.bmod_eq_iff (by decide)).mpr ?_
    omega
  omega

end Macrame

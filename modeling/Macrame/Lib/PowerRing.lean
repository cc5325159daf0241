import Mathlib.Data.Nat.Bitwise
import Mathlib.Data.Nat.ModEq

namespace Rings

-- Doubling from `p` until the request `n` is covered. `fuel` doublings are
-- allowed; `n` of them are always enough from one.
def doubled (n : Nat) : Nat → Nat → Nat
  | 0,p => p
  | fuel+1,p => if p < n then doubled n fuel (p <<< 1) else p

def roundPow2 (n : Nat) : Nat := doubled n n 1

-- The cell that a position falls on when the ring has `mask+1` cells.
def slot (mask position : Nat) : Nat := position &&& mask

theorem shifted_pow (j : Nat) : 2^j <<< 1 = 2^(j+1) := by
  rw [Nat.shiftLeft_eq,Nat.pow_one,Nat.pow_succ]

theorem doubled_pow (n fuel : Nat) : ∀ j, ∃ i, doubled n fuel (2^j) = 2^i ∧ j ≤ i := by
  induction fuel with
  | zero => exact fun j => ⟨j,rfl,Nat.le_refl j⟩
  | succ fuel ih =>
    intro j
    unfold doubled
    by_cases short : 2^j < n
    · obtain ⟨i,ends,later⟩ := ih (j+1)
      rw [if_pos short,shifted_pow]
      exact ⟨i,ends,by omega⟩
    · rw [if_neg short]
      exact ⟨j,rfl,Nat.le_refl j⟩

theorem doubled_covers (n fuel : Nat) : ∀ p, n ≤ p*2^fuel → n ≤ doubled n fuel p := by
  induction fuel with
  | zero => intro p enough; simpa [doubled] using enough
  | succ fuel ih =>
    intro p enough
    unfold doubled
    by_cases short : p < n
    · rw [if_pos short]
      apply ih
      rw [Nat.shiftLeft_eq,Nat.pow_one,Nat.mul_assoc,← Nat.pow_succ']
      exact enough
    · rw [if_neg short]
      exact Nat.le_of_not_lt short

theorem roundPow2_pow (n : Nat) : ∃ k, roundPow2 n = 2^k := by
  obtain ⟨k,ends,_⟩ := doubled_pow n n 0
  exact ⟨k,ends⟩

theorem le_roundPow2 (n : Nat) : n ≤ roundPow2 n := by
  apply doubled_covers
  rw [Nat.one_mul]
  exact Nat.le_of_lt Nat.lt_two_pow_self

theorem roundPow2_pos (n : Nat) : 0 < roundPow2 n := by
  obtain ⟨k,ends⟩ := roundPow2_pow n
  rw [ends]
  exact Nat.two_pow_pos k

theorem slot_mod (n p : Nat) : slot (roundPow2 n-1) p = p % roundPow2 n := by
  obtain ⟨k,ends⟩ := roundPow2_pow n
  rw [slot,ends,Nat.and_two_pow_sub_one_eq_mod]

-- Two positions less than one lap apart fall on different cells.
theorem slot_ne {n p q : Nat} (after : p < q) (lap : q < p+roundPow2 n) :
    slot (roundPow2 n-1) p ≠ slot (roundPow2 n-1) q := by
  rw [slot_mod,slot_mod]
  intro same
  have multiple : roundPow2 n ∣ q-p := (Nat.modEq_iff_dvd' (Nat.le_of_lt after)).mp same
  have reached := Nat.le_of_dvd (by omega) multiple
  omega

theorem slot_lap (n p : Nat) : slot (roundPow2 n-1) (p+roundPow2 n) = slot (roundPow2 n-1) p := by
  rw [slot_mod,slot_mod,Nat.add_mod_right]

end Rings

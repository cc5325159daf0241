import Mathlib.Algebra.BigOperators.Group.Finset.Basic
import Mathlib.Algebra.BigOperators.Group.Finset.Piecewise
import Mathlib.Algebra.Order.BigOperators.Group.Finset

namespace Tally

-- The total weight of `n` members, each weighed by its number and its stage.
def tally (n : Nat) (weigh : Nat → β → Nat) (stage : Nat → β) : Nat := ∑ i ∈ Finset.range n, weigh i (stage i)

-- One member moves on: the total changes by what that member weighs.
theorem tally_update (weigh : Nat → β → Nat) (stage : Nat → β) (next : β) (within : i < n) :
    tally n weigh (Function.update stage i next)+weigh i (stage i) = tally n weigh stage+weigh i next := by
  have member : i ∈ Finset.range n := Finset.mem_range.mpr within
  have others : ∑ x ∈ (Finset.range n).erase i, weigh x (Function.update stage i next x) =
      ∑ x ∈ (Finset.range n).erase i, weigh x (stage x) := by
    refine Finset.sum_congr rfl ?_
    intro x other
    rw [Function.update_of_ne (Finset.ne_of_mem_erase other)]
  unfold tally
  rw [← Finset.sum_erase_add _ _ member,← Finset.sum_erase_add (Finset.range n) (fun x => weigh x (stage x)) member,
    others,Function.update_self]
  omega

theorem tally_zero : tally n weigh stage = 0 ↔ ∀ i, i < n → weigh i (stage i) = 0 := by
  unfold tally
  rw [Finset.sum_eq_zero_iff]
  simp [Finset.mem_range]

theorem weigh_le_tally (weigh : Nat → β → Nat) (stage : Nat → β) (within : i < n) :
    weigh i (stage i) ≤ tally n weigh stage := by
  unfold tally
  exact Finset.single_le_sum (f := fun x => weigh x (stage x)) (fun _ _ => Nat.zero_le _) (Finset.mem_range.mpr within)

theorem tally_mono {stage stage' : Nat → β} (less : ∀ i, i < n → weigh i (stage i) ≤ weigh' i (stage' i)) :
    tally n weigh stage ≤ tally n weigh' stage' := by
  unfold tally
  exact Finset.sum_le_sum (fun i member => less i (Finset.mem_range.mp member))

-- One member apart, none weighs more than `most`.
theorem tally_most (weigh : Nat → β → Nat) (stage : Nat → β) (most : Nat) (bounded : ∀ i, i < n → weigh i (stage i) ≤ most)
    (within : i < n) : tally n weigh stage+most ≤ weigh i (stage i)+n*most := by
  have member : i ∈ Finset.range n := Finset.mem_range.mpr within
  have others : ∑ x ∈ (Finset.range n).erase i, weigh x (stage x) ≤ ((Finset.range n).erase i).card • most :=
    Finset.sum_le_card_nsmul _ _ _ (fun x inside => bounded x (Finset.mem_range.mp (Finset.mem_of_mem_erase inside)))
  rw [Finset.card_erase_of_mem member,Finset.card_range] at others
  change _ ≤ (n-1)*most at others
  have whole : (n-1)*most+most = n*most := by
    rw [← Nat.succ_mul]
    congr 1
    omega
  unfold tally
  rw [← Finset.sum_erase_add _ _ member]
  omega

theorem tally_congr {stage stage' : Nat → β} (same : ∀ i, i < n → weigh i (stage i) = weigh' i (stage' i)) :
    tally n weigh stage = tally n weigh' stage' := by
  unfold tally
  exact Finset.sum_congr rfl (fun i member => same i (Finset.mem_range.mp member))

-- One more member joins.
theorem tally_join (weigh : Nat → β → Nat) (stage : Nat → β) (next : β) :
    tally (n+1) weigh (Function.update stage n next) = tally n weigh stage+weigh n next := by
  have others : tally n weigh (Function.update stage n next) = tally n weigh stage := by
    refine tally_congr ?_
    intro i within
    rw [Function.update_of_ne (Nat.ne_of_lt within)]
  unfold tally at others ⊢
  rw [Finset.sum_range_succ,others,Function.update_self]

end Tally

import Mathlib.Logic.Function.Iterate

namespace Machines

-- A run of `step` that ends in `t` and until then keeps a stack higher than
-- `floor`: what a call does until it returns.
def Inside {σ : Type} (step : σ → σ) (height : σ → Nat) (floor : Nat) (s t : σ) : Prop :=
  ∃ n, step^[n] s = t ∧ ∀ k < n, floor < height (step^[k] s)

variable {σ : Type} {step : σ → σ} {height : σ → Nat} {floor : Nat} {s t u : σ}

theorem Inside.refl : Inside step height floor s s := ⟨0,rfl,fun _ none => absurd none (Nat.not_lt_zero _)⟩

theorem Inside.head (above : floor < height s) (rest : Inside step height floor (step s) t) : Inside step height floor s t := by
  obtain ⟨n,rfl,high⟩ := rest
  refine ⟨n+1,rfl,fun k early => ?_⟩
  cases k with
  | zero => exact above
  | succ k => exact high k (by omega)

theorem Inside.trans (first : Inside step height floor s t) (second : Inside step height floor t u) :
    Inside step height floor s u := by
  obtain ⟨m,rfl,high⟩ := first
  obtain ⟨n,rfl,later⟩ := second
  refine ⟨n+m,Function.iterate_add_apply step n m s,fun k early => ?_⟩
  by_cases soon : k < m
  · exact high k soon
  · have split := later (k-m) (by omega)
    rwa [← Function.iterate_add_apply,Nat.sub_add_cancel (by omega)] at split

-- Inside an inner call is inside the outer one.
theorem Inside.lower (run : Inside step height floor s t) (under : below ≤ floor) : Inside step height below s t := by
  obtain ⟨n,ends,high⟩ := run
  exact ⟨n,ends,fun k early => Nat.lt_of_le_of_lt under (high k early)⟩

theorem Inside.runs (run : Inside step height floor s t) : ∃ n, step^[n] s = t := by
  obtain ⟨n,ends,_⟩ := run
  exact ⟨n,ends⟩

-- What no step undoes held all along a run that ends without it.
theorem iterate_before (bad : σ → Prop) (stays : ∀ s, bad s → bad (step s)) (ended : ¬ bad (step^[n] s))
    (early : k ≤ n) : ¬ bad (step^[k] s) := by
  intro wrong
  obtain ⟨m,rfl⟩ := Nat.exists_eq_add_of_le' early
  rw [Function.iterate_add_apply] at ended
  exact ended (Function.Iterate.rec bad wrong stays m)

end Machines

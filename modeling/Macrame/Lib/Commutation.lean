import Mathlib.Data.List.Perm.Basic
import Mathlib.Data.List.Nodup

namespace Commutation

-- An order in which nothing comes after something it has to precede.
def Respects (before : α → α → Prop) (order : List α) : Prop := order.Pairwise (fun a b => ¬ before b a)

theorem foldl_front (step : σ → α → σ) (ahead : List α) (commutes : ∀ x ∈ ahead, ∀ s, step (step s x) a = step (step s a) x)
    (s : σ) : (ahead++[a]).foldl step s = (a :: ahead).foldl step s := by
  induction ahead generalizing s with
  | nil => rfl
  | cons x rest ih =>
    obtain ⟨here,later⟩ := List.forall_mem_cons.mp commutes
    have moved := ih later (step s x)
    simp only [List.cons_append,List.foldl_cons] at moved ⊢
    rw [moved,here s]

-- Two orders of the same elements that respect one relation do the same, when
-- any two elements that the relation leaves unordered commute.
theorem foldl_orders (step : σ → α → σ) (before : α → α → Prop)
    (commutes : ∀ a b, a ≠ b → ¬ before a b → ¬ before b a → ∀ s, step (step s a) b = step (step s b) a)
    (same : one.Perm two) (distinct : one.Nodup) (first : Respects before one) (second : Respects before two) (s : σ) :
    one.foldl step s = two.foldl step s := by
  induction one generalizing two s with
  | nil => rw [List.nil_perm.mp same]
  | cons a rest ih =>
    obtain ⟨ahead,behind,rfl⟩ := List.append_of_mem (same.subset (List.mem_cons_self))
    obtain ⟨leads,first⟩ := List.pairwise_cons.mp first
    obtain ⟨fresh,distinct⟩ := List.nodup_cons.mp distinct
    have rejoined : rest.Perm (ahead++behind) := (same.trans List.perm_middle).cons_inv
    obtain ⟨_,_,across⟩ := List.pairwise_append.mp second
    have free : ∀ x ∈ ahead, ∀ s, step (step s x) a = step (step s a) x := by
      intro x member s
      have listed : x ∈ rest := rejoined.symm.subset (List.mem_append_left _ member)
      have apart : x ≠ a := by rintro rfl; exact fresh listed
      exact commutes x a apart (leads x listed) (across x member a List.mem_cons_self) s
    have shorter : Respects before (ahead++behind) :=
      second.sublist (List.Sublist.append_left (List.sublist_cons_self a behind) ahead)
    calc (a :: rest).foldl step s
        = (ahead++behind).foldl step (step s a) := ih rejoined distinct first shorter (step s a)
      _ = behind.foldl step ((a :: ahead).foldl step s) := by rw [List.foldl_append,List.foldl_cons]
      _ = behind.foldl step ((ahead++[a]).foldl step s) := by rw [foldl_front step ahead free]
      _ = (ahead++a :: behind).foldl step s := by simp [List.foldl_append]

end Commutation

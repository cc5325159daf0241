import Macrame.Lib.Machine

namespace Machines

-- A call with one way to go: the places it stands at in turn. Its smooth actions
-- lead from each place to the next, the others of its own actions may lead back
-- but never off the route, and at the last place it has nothing left to do.
structure Route (m : Machine σ α) (mine smooth : α → Prop) (place : Nat → σ) (last : Nat) : Prop where
  onward : ∀ k, k < last → ∃ a, smooth a ∧ m.allowed (place k) a ∧ m.apply (place k) a = place (k+1)
  stays : ∀ k, k < last → ∀ a, mine a → m.allowed (place k) a → ∃ j, j ≤ last ∧ m.apply (place k) a = place j
  ended : ∀ a, mine a → ¬m.allowed (place last) a

theorem Route.within {m : Machine σ α} (route : Route m mine smooth place last) (within : j ≤ last)
    (run : Runs m (place j) actions t) (own : ∀ a ∈ actions, mine a) : ∃ k, k ≤ last ∧ t = place k := by
  induction run with
  | nil => exact ⟨j,within,rfl⟩
  | @step earlier middle a _ allowed ih =>
    obtain ⟨k,inside,rfl⟩ := ih (fun b member => own b (List.mem_append_left _ member))
    have mine := own a (List.mem_append_right _ (List.mem_singleton_self a))
    cases Nat.lt_or_eq_of_le inside with
    | inl before => exact route.stays k before a mine allowed
    | inr there =>
      rw [there] at allowed
      exact absurd allowed (route.ended a mine)

theorem Route.finishes {m : Machine σ α} (route : Route m mine smooth place last) (left : Nat) :
    ∀ {k}, k+left = last → ∃ actions, Runs m (place k) actions (place last) ∧ ∀ a ∈ actions, smooth a := by
  induction left with
  | zero =>
    intro k there
    have same : k = last := there
    rw [same]
    exact ⟨[],.nil,fun _ member => absurd member List.not_mem_nil⟩
  | succ left ih =>
    intro k ahead
    obtain ⟨a,smooth_,allowed,next⟩ := route.onward k (by omega)
    obtain ⟨actions,run,all⟩ := ih (k := k+1) (by omega)
    have first : Runs m (place k) [a] (place (k+1)) := by
      rw [← next]
      exact .step .nil allowed
    refine ⟨[a]++actions,first.append run,?_⟩
    intro b member
    cases List.mem_append.mp member with
    | inl one =>
      rw [List.mem_singleton.mp one]
      exact smooth_
    | inr later => exact all b later

end Machines

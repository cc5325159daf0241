import Mathlib.Logic.Function.Basic

namespace Relays

-- Runners numbered from 1, each of which starts when the one before has handed
-- over. `m` of them have; the next one runs, or has yet to start.
structure Relay (waits past : σ → Prop) (stages : Nat → σ) (ready : Nat → Bool) (m : Nat) : Prop where
  passed : ∀ n, n ≤ m → ready n = true
  held : ∀ n, m < n → ready n = false
  finished : ∀ n, 0 < n → n ≤ m → past (stages n)
  next : ¬past (stages (m+1))
  resting : ∀ n, m+1 < n → waits (stages n)

variable {σ : Type} {waits past : σ → Prop} {stages : Nat → σ} {ready : Nat → Bool} {m : Nat}

-- Whoever is on the way is the next one.
theorem relay_active (relay : Relay waits past stages ready m) (positive : 0 < n) (started : ¬waits (stages n))
    (unfinished : ¬past (stages n)) : n = m+1 := by
  rcases Nat.lt_trichotomy n (m+1) with before | same | after
  · exact absurd (relay.finished n positive (Nat.le_of_lt_succ before)) unfinished
  · exact same
  · exact absurd (relay.resting n after) started

-- Whoever has not finished, though the one before has handed over, is the next one.
theorem relay_turn (relay : Relay waits past stages ready m) (before : ready n = true) (unfinished : ¬past (stages (n+1))) :
    n = m := by
  refine Nat.le_antisymm ?_ ?_
  · by_contra above
    rw [relay.held n (Nat.not_le.mp above)] at before
    cases before
  · by_contra below
    exact unfinished (relay.finished (n+1) (Nat.succ_pos n) (Nat.not_le.mp below))

theorem relay_unique (one : Relay waits past stages ready m) (two : Relay waits past stages ready k) : m = k := by
  refine Nat.le_antisymm ?_ ?_
  · by_contra above
    exact Bool.noConfusion ((one.passed m (Nat.le_refl m)).symm.trans (two.held m (Nat.not_le.mp above)))
  · by_contra below
    exact Bool.noConfusion ((two.passed k (Nat.le_refl k)).symm.trans (one.held k (Nat.not_le.mp below)))

theorem relay_move (relay : Relay waits past stages ready m) (unfinished : ¬past stage) :
    Relay waits past (Function.update stages (m+1) stage) ready m := by
  refine ⟨relay.passed,relay.held,?_,?_,?_⟩
  · intro n positive low
    rw [Function.update_of_ne (by omega)]
    exact relay.finished n positive low
  · rw [Function.update_self]
    exact unfinished
  · intro n above
    rw [Function.update_of_ne (by omega)]
    exact relay.resting n above

theorem relay_pass (relay : Relay waits past stages ready m) (done : past stage)
    (apart : ∀ stage, waits stage → ¬past stage) :
    Relay waits past (Function.update stages (m+1) stage) (Function.update ready (m+1) true) (m+1) := by
  refine ⟨?_,?_,?_,?_,?_⟩
  · intro n low
    by_cases same : n = m+1
    · rw [same,Function.update_self]
    · rw [Function.update_of_ne same]
      exact relay.passed n (by omega)
  · intro n above
    rw [Function.update_of_ne (by omega)]
    exact relay.held n (by omega)
  · intro n positive low
    by_cases same : n = m+1
    · rw [same,Function.update_self]
      exact done
    · rw [Function.update_of_ne same]
      exact relay.finished n positive (by omega)
  · rw [Function.update_of_ne (by omega)]
    exact apart _ (relay.resting _ (Nat.lt_succ_self _))
  · intro n above
    rw [Function.update_of_ne (by omega)]
    exact relay.resting n (by omega)

end Relays

import Mathlib.Data.Finset.Max
import Mathlib.Logic.Relation
import Mathlib.Order.WellFounded

namespace WaitFor

-- Waiters that each wait for something further up: one that waits highest waits
-- for something that does not wait.
theorem leads_out {waiting : Finset α} {height : α → Nat} {blocks : α → α → Prop}
    (climbs : ∀ a ∈ waiting, ∃ b, blocks b a ∧ (b ∈ waiting → height a < height b)) (occupied : waiting.Nonempty) :
    ∃ a ∈ waiting, ∃ b, b ∉ waiting ∧ blocks b a := by
  obtain ⟨top,member,highest⟩ := waiting.exists_max_image height occupied
  obtain ⟨b,before,higher⟩ := climbs top member
  refine ⟨top,member,b,?_,before⟩
  intro inside
  have most := highest b inside
  have more := higher inside
  omega

-- Where whoever waits waits for more than it holds, no chain of waits comes back.
theorem no_cycle {α β : Type} [Preorder β] [WellFoundedLT β] {waits holds : α → β → Prop}
    (climbs : ∀ a p q, holds a p → waits a q → p < q) (a : α) :
    ¬ Relation.TransGen (fun a b => ∃ p, waits a p ∧ holds b p) a a := by
  have lower : ∀ b, Relation.TransGen (fun a b => ∃ p, waits a p ∧ holds b p) a b →
      ∀ q, waits b q → ∃ p, waits a p ∧ p < q := by
    intro b chain
    induction chain with
    | single first =>
      intro q waiting
      obtain ⟨p,behind,held⟩ := first
      exact ⟨p,behind,climbs _ p q held waiting⟩
    | tail _ last ih =>
      intro q waiting
      obtain ⟨r,behind,held⟩ := last
      obtain ⟨p,first,below⟩ := ih r behind
      exact ⟨p,first,below.trans (climbs _ r q held waiting)⟩
  intro chain
  -- nothing waited for is lowest
  have none_waited : ∀ q, ¬ waits a q := by
    intro q
    induction q using WellFoundedLT.induction with
    | ind q ih =>
      intro waiting
      obtain ⟨p,behind,below⟩ := lower a chain q waiting
      exact ih p below behind
  obtain ⟨_,⟨p,waiting,_⟩,_⟩ := Relation.TransGen.head'_iff.mp chain
  exact none_waited p waiting

section Cycles

variable {α : Type} {r r' : α → α → Prop}

-- A chain of at most `n` steps.
inductive Within (r : α → α → Prop) : Nat → α → α → Prop where
  | here : Within r n a a
  | step : r a b → Within r n b c → Within r (n+1) a c

theorem Within.chain (within : Within r n a b) : Relation.ReflTransGen r a b := by
  induction within with
  | here => exact .refl
  | step first _ ih => exact .head first ih

def Acyclic (r : α → α → Prop) : Prop := ∀ a, ¬ Relation.TransGen r a a

theorem Acyclic.mono (acyclic : Acyclic r) (chains : ∀ a b, r' a b → r a b) : Acyclic r' :=
  fun a cycle => acyclic a (Relation.TransGen.mono chains _ _ cycle)

-- Where every edge goes further up there is no way back.
theorem acyclic_of_climbs (height : α → Nat) (climbs : ∀ a b, r a b → height a < height b) : Acyclic r := by
  intro a cycle
  have up : Relation.TransGen (· < ·) (height a) (height a) := Relation.TransGen.lift height climbs a a cycle
  rw [Relation.transGen_eq_self] at up
  exact Nat.lt_irrefl _ up

-- With one more edge a chain goes without it, or up to it and on from it.
theorem chain_insert (chain : Relation.TransGen (fun a b => r a b ∨ a = p ∧ b = q) a b) :
    Relation.TransGen r a b ∨ Relation.ReflTransGen r a p ∧ Relation.ReflTransGen r q b := by
  induction chain with
  | single first =>
    rcases first with old | ⟨rfl,rfl⟩
    · exact .inl (.single old)
    · exact .inr ⟨.refl,.refl⟩
  | tail _ last ih =>
    rcases last with old | ⟨rfl,rfl⟩
    · rcases ih with before | ⟨up,on⟩
      · exact .inl (.tail before old)
      · exact .inr ⟨up,.tail on old⟩
    · rcases ih with before | ⟨up,_⟩
      · exact .inr ⟨before.to_reflTransGen,.refl⟩
      · exact .inr ⟨up,.refl⟩

-- An edge closes a cycle exactly when its end leads back to its start.
theorem acyclic_insert (acyclic : Acyclic r) :
    Acyclic (fun a b => r a b ∨ a = p ∧ b = q) ↔ ¬ Relation.ReflTransGen r q p := by
  constructor
  · intro stays back
    refine stays p (.head' (.inr ⟨rfl,rfl⟩) ?_)
    exact Relation.ReflTransGen.mono (fun _ _ old => Or.inl old) _ _ back
  · intro apart a cycle
    rcases chain_insert cycle with before | ⟨up,on⟩
    · exact acyclic a before
    · exact apart (on.trans up)

end Cycles

end WaitFor

import Mathlib.Data.List.Count
import Mathlib.Data.List.Infix

namespace Gaps

-- A window of a history is clear when nothing in it is marked. `Bounded` limits
-- what every clear window counts, `Since` what the clear ones that end it do.
section Windows

variable {α : Type} (marked counted : α → Bool)

def Clear (window : List α) : Prop := ∀ x ∈ window, marked x = false

def Bounded (bound : Nat) (xs : List α) : Prop :=
  ∀ window, window <:+: xs → Clear marked window → window.countP counted ≤ bound

def Since (n : Int) (xs : List α) : Prop :=
  ∀ window, window <:+ xs → Clear marked window → (window.countP counted : Int) ≤ n

end Windows

section Rules

variable {α : Type} {marked counted : α → Bool} {xs : List α} {x : α} {n m : Int} {bound : Nat}

theorem bounded_nil : Bounded marked counted bound [] := by
  intro window inside _
  rw [List.infix_nil.mp inside]
  exact Nat.zero_le _

theorem since_nil (positive : 0 ≤ n) : Since marked counted n [] := by
  intro window last _
  rw [List.suffix_nil.mp last]
  exact positive

theorem Since.nonneg (since : Since marked counted n xs) : 0 ≤ n :=
  since [] List.nil_suffix (fun _ inside => absurd inside List.not_mem_nil)

theorem Since.mono (since : Since marked counted n xs) (more : n ≤ m) : Since marked counted m xs :=
  fun window last clear => Int.le_trans (since window last clear) more

theorem Since.later (since : Since marked counted n xs) : Since marked counted (n+[x].countP counted) (xs++[x]) := by
  intro window last clear
  have positive := since.nonneg
  rcases List.suffix_concat_iff.mp last with rfl | ⟨before,rfl,earlier⟩
  · simp only [List.countP_nil]
    omega
  · have counts := since before earlier (fun y inside => clear y (List.mem_append_left _ inside))
    rw [List.countP_append]
    omega

-- A mark ends every clear window before it.
theorem since_mark (mark : marked x = true) : Since marked counted 0 (xs++[x]) := by
  intro window last clear
  rcases List.suffix_concat_iff.mp last with rfl | ⟨before,rfl,_⟩
  · exact Int.le_refl 0
  · have unmarked := clear x (List.mem_append_right _ (List.mem_singleton.mpr rfl))
    rw [mark] at unmarked
    cases unmarked

theorem Bounded.later (bounded : Bounded marked counted bound xs) (since : Since marked counted n (xs++[x]))
    (fits : n ≤ bound) : Bounded marked counted bound (xs++[x]) := by
  intro window inside clear
  rcases List.infix_concat_iff.mp inside with last | earlier
  · have counts := since window last clear
    omega
  · exact bounded window earlier clear

end Rules

end Gaps

import Mathlib.Data.List.Basic
import Mathlib.Data.List.Nodup
import Mathlib.Logic.Function.Basic

namespace Custodies

variable {S T : Type}

-- Items put in under names of their own, drawn out by hands that hold one each
-- for a while and then hand it over. `drawn` is what has left the store.
structure Custody (pushed popped : List (S×T)) (drawn : S → Prop) (holds : Nat → Option S) : Prop where
  distinct : (pushed.map Prod.fst).Nodup
  once : (popped.map Prod.fst).Nodup
  sound : ∀ e ∈ popped, e ∈ pushed
  paid : ∀ e ∈ popped, drawn e.1
  held : ∀ i src, holds i = some src → drawn src ∧ ∀ e ∈ popped, e.1 ≠ src
  alone : ∀ i j src, holds i = some src → holds j = some src → i = j
  kept : ∀ src, drawn src → (∃ e ∈ popped, e.1 = src) ∨ ∃ i, holds i = some src

theorem custody_empty : Custody ([] : List (S×T)) [] (fun _ => False) (fun _ => none) where
  distinct := List.nodup_nil
  once := List.nodup_nil
  sound := fun _ member => absurd member List.not_mem_nil
  paid := fun _ member => absurd member List.not_mem_nil
  held := fun _ _ holding => by cases holding
  alone := fun _ _ _ holding => by cases holding
  kept := fun _ gone => absurd gone id

theorem custody_congr {pushed popped : List (S×T)} (custody : Custody pushed popped drawn holds)
    (same : ∀ src, drawn src ↔ drawn' src) (hands : ∀ i, holds i = holds' i) :
    Custody pushed popped drawn' holds' := by
  have equal : drawn = drawn' := funext (fun src => propext (same src))
  have also : holds = holds' := funext hands
  rw [← equal,← also]
  exact custody

theorem custody_push {pushed popped : List (S×T)} (custody : Custody pushed popped drawn holds)
    (fresh : ∀ e ∈ pushed, e.1 ≠ src) (item : T) : Custody (pushed++[(src,item)]) popped drawn holds where
  distinct := by
    rw [List.map_append]
    refine List.nodup_append.mpr ⟨custody.distinct,List.nodup_singleton _,?_⟩
    intro a named b last
    obtain ⟨e,member,rfl⟩ := List.mem_map.mp named
    have same : b = src := List.mem_singleton.mp last
    rw [same]
    exact fresh e member
  once := custody.once
  sound := fun e member => List.mem_append_left _ (custody.sound e member)
  paid := custody.paid
  held := custody.held
  alone := custody.alone
  kept := custody.kept

theorem custody_draw {pushed popped : List (S×T)} (custody : Custody pushed popped drawn holds)
    (inside : ¬drawn src) (free : holds i = none) :
    Custody pushed popped (fun x => drawn x ∨ x = src) (Function.update holds i (some src)) where
  distinct := custody.distinct
  once := custody.once
  sound := custody.sound
  paid := fun e member => .inl (custody.paid e member)
  held := by
    intro j x holding
    by_cases same : j = i
    · rw [same,Function.update_self] at holding
      cases holding
      refine ⟨.inr rfl,?_⟩
      intro e member equal
      exact inside (equal ▸ custody.paid e member)
    · rw [Function.update_of_ne same] at holding
      exact ⟨.inl (custody.held j x holding).1,(custody.held j x holding).2⟩
  alone := by
    -- a hand that held something before held what was already drawn
    have others : ∀ j x, j ≠ i → Function.update holds i (some src) j = some x → x ≠ src := by
      intro j x other holding equal
      rw [Function.update_of_ne other] at holding
      exact inside (equal ▸ (custody.held j x holding).1)
    intro j k x first second
    by_cases one : j = i
    · by_cases two : k = i
      · rw [one,two]
      · rw [one,Function.update_self] at first
        cases first
        exact absurd rfl (others k src two second)
    · by_cases two : k = i
      · rw [two,Function.update_self] at second
        cases second
        exact absurd rfl (others j src one first)
      · rw [Function.update_of_ne one] at first
        rw [Function.update_of_ne two] at second
        exact custody.alone j k x first second
  kept := by
    intro x gone
    by_cases new : x = src
    · exact .inr ⟨i,by rw [Function.update_self,new]⟩
    · have prior : drawn x := gone.resolve_right new
      cases custody.kept x prior with
      | inl handed => exact .inl handed
      | inr holding =>
        obtain ⟨j,holding⟩ := holding
        have other : j ≠ i := by
          intro same
          rw [same,free] at holding
          cases holding
        exact .inr ⟨j,by rw [Function.update_of_ne other]; exact holding⟩

theorem custody_pay {pushed popped : List (S×T)} (custody : Custody pushed popped drawn holds)
    (holding : holds i = some src) (entered : (src,value) ∈ pushed) :
    Custody pushed (popped++[(src,value)]) drawn (Function.update holds i none) where
  distinct := custody.distinct
  once := by
    rw [List.map_append]
    refine List.nodup_append.mpr ⟨custody.once,List.nodup_singleton _,?_⟩
    intro a named b last
    obtain ⟨e,member,rfl⟩ := List.mem_map.mp named
    have same : b = src := List.mem_singleton.mp last
    rw [same]
    exact (custody.held i src holding).2 e member
  sound := by
    intro e member
    cases List.mem_append.mp member with
    | inl prior => exact custody.sound e prior
    | inr last => rw [List.mem_singleton.mp last]; exact entered
  paid := by
    intro e member
    cases List.mem_append.mp member with
    | inl prior => exact custody.paid e prior
    | inr last => rw [List.mem_singleton.mp last]; exact (custody.held i src holding).1
  held := by
    intro j x still
    have other : j ≠ i := by
      intro same
      rw [same,Function.update_self] at still
      cases still
    rw [Function.update_of_ne other] at still
    refine ⟨(custody.held j x still).1,?_⟩
    intro e member
    cases List.mem_append.mp member with
    | inl prior => exact (custody.held j x still).2 e prior
    | inr last =>
      rw [List.mem_singleton.mp last]
      intro equal
      change src = x at equal
      exact other (custody.alone j i x still (equal ▸ holding))
  alone := by
    intro j k x first second
    have moved : ∀ j, Function.update holds i none j = some x → holds j = some x := by
      intro j still
      by_cases same : j = i
      · rw [same,Function.update_self] at still
        cases still
      · rwa [Function.update_of_ne same] at still
    exact custody.alone j k x (moved j first) (moved k second)
  kept := by
    intro x gone
    cases custody.kept x gone with
    | inl handed =>
      obtain ⟨e,member,named⟩ := handed
      exact .inl ⟨e,List.mem_append_left _ member,named⟩
    | inr still =>
      obtain ⟨j,still⟩ := still
      by_cases same : j = i
      · rw [same,holding] at still
        cases still
        exact .inl ⟨(src,value),List.mem_append_right _ (List.mem_singleton_self _),rfl⟩
      · exact .inr ⟨j,by rw [Function.update_of_ne same]; exact still⟩

-- Names are given once, so an entry is known by its name.
theorem Custody.named {pushed popped : List (S×T)} (custody : Custody pushed popped drawn holds)
    (one : e ∈ pushed) (two : f ∈ pushed) (same : e.1 = f.1) : e = f :=
  List.inj_on_of_nodup_map custody.distinct one two same

end Custodies

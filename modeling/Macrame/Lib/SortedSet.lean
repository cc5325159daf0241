import Mathlib.Data.List.Sort
import Mathlib.Order.Basic

namespace SortedSet

-- A sorted set, or a sorted map, as the list it is walked in: entries ascend by
-- their key, and a second entry of a key is not taken.
variable {α κ : Type} [LinearOrder κ] (key : α → κ)

def emplace (x : α) : List α → List α
  | [] => [x]
  | y :: rest => if key x < key y then x :: y :: rest else if key y < key x then y :: emplace x rest else y :: rest

def collect (entries : List α) (set : List α) : List α := entries.foldl (fun set x => emplace key x set) set

def Ascending (set : List α) : Prop := set.Pairwise (fun a b => key a < key b)

variable {key}

-- An entry whose key is there already is there itself.
theorem mem_emplace {set : List α} (known : ∀ y ∈ set, key y = key x → y = x) :
    z ∈ emplace key x set ↔ z = x ∨ z ∈ set := by
  induction set with
  | nil => simp [emplace]
  | cons y rest ih =>
    obtain ⟨here,later⟩ := List.forall_mem_cons.mp known
    unfold emplace
    by_cases ahead : key x < key y
    · simp [ahead]
    · by_cases behind : key y < key x
      · simp only [ahead,behind,ite_false,ite_true,List.mem_cons,ih later]
        tauto
      · have same : y = x := here (le_antisymm (not_lt.mp ahead) (not_lt.mp behind))
        subst same
        simp

theorem emplace_subset (x : α) (set : List α) : ∀ z ∈ emplace key x set, z = x ∨ z ∈ set := by
  induction set with
  | nil => simp [emplace]
  | cons y rest ih =>
    intro z
    unfold emplace
    split
    · simp
    · split
      · rintro (_ | ⟨_,member⟩)
        · exact .inr List.mem_cons_self
        · rcases ih z member with here | there
          · exact .inl here
          · exact .inr (List.mem_cons_of_mem _ there)
      · exact .inr

theorem emplace_ascending {set : List α} (ascending : Ascending key set) : Ascending key (emplace key x set) := by
  induction set with
  | nil => exact List.pairwise_singleton _ _
  | cons y rest ih =>
    obtain ⟨first,later⟩ := List.pairwise_cons.mp ascending
    unfold emplace
    split
    · rename_i ahead
      refine List.pairwise_cons.mpr ⟨?_,ascending⟩
      intro z member
      rcases List.mem_cons.mp member with rfl | there
      · exact ahead
      · exact ahead.trans (first z there)
    · split
      · rename_i behind
        refine List.pairwise_cons.mpr ⟨?_,ih later⟩
        intro z member
        rcases emplace_subset x rest z member with rfl | there
        · exact behind
        · exact first z there
      · exact ascending

theorem collect_ascending (key : α → κ) {set : List α} (ascending : Ascending key set) (entries : List α) :
    Ascending key (collect key entries set) := by
  induction entries generalizing set with
  | nil => exact ascending
  | cons x rest ih => exact ih (emplace_ascending ascending)

theorem mem_collect {entries set : List α}
    (agree : ∀ x ∈ entries++set, ∀ y ∈ entries++set, key x = key y → x = y) :
    z ∈ collect key entries set ↔ z ∈ entries ∨ z ∈ set := by
  induction entries generalizing set with
  | nil => simp [collect]
  | cons x rest ih =>
    have known : ∀ y ∈ set, key y = key x → y = x := fun y member => agree y (by simp [member]) x (by simp)
    have next : ∀ w ∈ rest++emplace key x set, w ∈ (x :: rest)++set := by
      intro w member
      rcases List.mem_append.mp member with later | there
      · simp [later]
      · rcases (mem_emplace known).mp there with rfl | old
        · simp
        · simp [old]
    have rest_in := ih (fun w one v two => agree w (next w one) v (next v two))
    simp only [collect,List.foldl_cons] at rest_in ⊢
    rw [rest_in,mem_emplace known,List.mem_cons]
    tauto

theorem mem_collect_injective (injective : Function.Injective key) {entries set : List α} :
    z ∈ collect key entries set ↔ z ∈ entries ∨ z ∈ set :=
  mem_collect (fun _ _ _ _ same => injective same)

theorem emplace_length (key : α → κ) (x : α) (set : List α) : (emplace key x set).length ≤ set.length+1 := by
  induction set with
  | nil => simp [emplace]
  | cons y rest ih =>
    unfold emplace
    split
    · simp
    · split
      · simpa using ih
      · simp

theorem collect_length (key : α → κ) (entries set : List α) : (collect key entries set).length ≤ entries.length+set.length := by
  induction entries generalizing set with
  | nil => simp [collect]
  | cons x rest ih =>
    have first := emplace_length key x set
    have later := ih (emplace key x set)
    simp only [collect,List.foldl_cons,List.length_cons] at later ⊢
    omega

theorem Ascending.nodup {set : List α} (ascending : Ascending key set) : set.Nodup :=
  List.Pairwise.imp (fun {_ _} less same => absurd (congrArg key same) less.ne) ascending

-- Two walks over the same entries are one.
theorem Ascending.unique {one two : List α} (first : Ascending key one) (second : Ascending key two)
    (same : ∀ z, z ∈ one ↔ z ∈ two) : one = two := by
  have perm : one.Perm two := (List.perm_ext_iff_of_nodup first.nodup second.nodup).mpr same
  refine perm.eq_of_pairwise ?_ first second
  intro a b _ _ less more
  exact absurd less more.asymm

end SortedSet

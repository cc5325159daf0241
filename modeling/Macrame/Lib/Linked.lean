import Mathlib.Data.List.Basic
import Mathlib.Data.List.Nodup
import Mathlib.Logic.Function.Basic

namespace Linked

variable {ρ : Type}

-- A node's links to its neighbours, whatever else it holds.
structure Links (ρ : Type) where
  next : ρ → Option ρ
  prev : ρ → Option ρ

-- The nodes from `head` on, the first of them linked back to `before`.
def Listed (l : Links ρ) (before : Option ρ) : Option ρ → List ρ → Prop
  | head,[] => head = none
  | head,r :: rest => head = some r ∧ l.prev r = before ∧ Listed l (some r) (l.next r) rest

variable {l m : Links ρ} {r : ρ} {head before : Option ρ} {list other : List ρ}

-- Links of other nodes do not matter to a list.
theorem Listed.congr (listed : Listed l before head list) (same : ∀ a ∈ list, m.next a = l.next a ∧ m.prev a = l.prev a) :
    Listed m before head list := by
  induction list generalizing before head with
  | nil => exact listed
  | cons a rest ih =>
    obtain ⟨first,back,later⟩ := listed
    obtain ⟨next,prev⟩ := same a List.mem_cons_self
    refine ⟨first,prev.trans back,?_⟩
    rw [next]
    exact ih later (fun b member => same b (List.mem_cons_of_mem _ member))

-- The node after which a node is listed, and the one after it.
theorem Listed.neighbours (front back : List ρ) (listed : Listed l before head (front++r :: back)) :
    l.prev r = front.getLast?.or before ∧ l.next r = back.head? := by
  induction front generalizing before head with
  | nil =>
    obtain ⟨-,prev,later⟩ := listed
    refine ⟨prev,?_⟩
    cases back with
    | nil => exact later
    | cons b more => exact later.1
  | cons a front ih =>
    obtain ⟨-,-,later⟩ := listed
    obtain ⟨prev,next⟩ := ih later
    refine ⟨?_,next⟩
    rw [prev,List.getLast?_cons]
    cases front.getLast? <;> rfl

variable [DecidableEq ρ]

def setNext (l : Links ρ) (r : ρ) (value : Option ρ) : Links ρ := {l with next := Function.update l.next r value}

def setPrev (l : Links ρ) (r : ρ) (value : Option ρ) : Links ρ := {l with prev := Function.update l.prev r value}

-- To link a node in before the first.
def push (l : Links ρ) (head : Option ρ) (r : ρ) : Links ρ :=
  let l := setNext (setPrev l r none) r head
  match head with
  | none => l
  | some first => setPrev l first (some r)

-- To join a node's neighbours: it keeps its own links.
def bypass (l : Links ρ) (r : ρ) : Links ρ :=
  let l' := match l.prev r with
    | none => l
    | some p => setNext l p (l.next r)
  match l.next r with
  | none => l'
  | some n => setPrev l' n (l.prev r)

theorem setNext_other (other : a ≠ r) : (setNext l r value).next a = l.next a := Function.update_of_ne other ..

theorem setPrev_other (other : a ≠ r) : (setPrev l r value).prev a = l.prev a := Function.update_of_ne other ..

-- Links that lead nowhere new.
theorem push_other (other : a ≠ r) (inner : head ≠ some a) : (push l head r).next a = l.next a ∧ (push l head r).prev a = l.prev a := by
  unfold push
  cases head with
  | none => exact ⟨setNext_other other,setPrev_other other⟩
  | some first =>
    have apart : a ≠ first := fun same => inner (congrArg some same.symm)
    refine ⟨setNext_other other,?_⟩
    dsimp only
    rw [setPrev_other apart]
    exact setPrev_other other

theorem Listed.push (listed : Listed l none head list) (fresh : r ∉ list) (distinct : list.Nodup) :
    Listed (push l head r) none (some r) (r :: list) := by
  cases list with
  | nil =>
    have none_ : head = none := listed
    subst none_
    exact ⟨rfl,Function.update_self ..,Function.update_self ..⟩
  | cons first rest =>
    obtain ⟨rfl,-,later⟩ := listed
    have other : r ≠ first := fun same => fresh (same ▸ List.mem_cons_self)
    have away : first ≠ r := fun same => other same.symm
    refine ⟨rfl,?_,?_⟩
    · change Function.update (Function.update l.prev r none) first (some r) r = none
      rw [Function.update_of_ne other,Function.update_self]
    · change Listed _ _ (Function.update l.next r (some first) r) _
      rw [Function.update_self]
      refine ⟨rfl,Function.update_self ..,?_⟩
      change Listed _ _ (Function.update l.next r (some first) first) _
      rw [Function.update_of_ne away]
      refine later.congr ?_
      intro a member
      obtain ⟨unlisted,-⟩ := List.nodup_cons.mp distinct
      refine push_other (fun same => fresh (same ▸ List.mem_cons_of_mem _ member)) ?_
      rintro same
      cases same
      exact unlisted member

theorem bypass_next_other (apart : l.prev r ≠ some a) : (bypass l r).next a = l.next a := by
  unfold bypass
  cases back : l.prev r with
  | none => cases l.next r <;> rfl
  | some p =>
    have other : a ≠ p := fun same => apart (back.trans (congrArg some same.symm))
    cases l.next r <;> exact setNext_other other

theorem bypass_prev_other (apart : l.next r ≠ some a) : (bypass l r).prev a = l.prev a := by
  unfold bypass
  cases onward : l.next r with
  | none => cases l.prev r <;> rfl
  | some n =>
    have other : a ≠ n := fun same => apart (onward.trans (congrArg some same.symm))
    cases l.prev r <;> exact setPrev_other other

theorem bypass_next (back : l.prev r = some p) : (bypass l r).next p = l.next r := by
  unfold bypass
  rw [back]
  cases onward : l.next r <;> exact Function.update_self ..

theorem bypass_prev (onward : l.next r = some n) : (bypass l r).prev n = l.prev r := by
  unfold bypass
  rw [onward]
  exact Function.update_self ..

-- Without the node the list is the same, from its second node if it was the first.
theorem Listed.bypass (front back : List ρ) (listed : Listed l before head (front++r :: back))
    (distinct : (front++r :: back).Nodup) (outside : ∀ b, before = some b → b ∉ front++r :: back) :
    Listed (bypass l r) before (if front = [] then back.head? else head) (front++back) := by
  induction front generalizing before head with
  | nil =>
    obtain ⟨-,prev,later⟩ := listed
    rw [if_pos rfl]
    cases back with
    | nil => rfl
    | cons b more =>
      have onward : l.next r = some b := later.1
      obtain ⟨-,distinct⟩ := List.nodup_cons.mp distinct
      obtain ⟨unlisted,-⟩ := List.nodup_cons.mp distinct
      have away : ∀ a ∈ b :: more, l.prev r ≠ some a := by
        intro a member
        rw [prev]
        exact fun same => outside a same (List.mem_cons_of_mem _ member)
      refine ⟨rfl,(bypass_prev onward).trans prev,?_⟩
      rw [bypass_next_other (away b List.mem_cons_self)]
      refine later.2.2.congr ?_
      intro a member
      refine ⟨bypass_next_other (away a (List.mem_cons_of_mem _ member)),bypass_prev_other ?_⟩
      rw [onward]
      rintro same
      cases same
      exact unlisted member
  | cons x front ih =>
    obtain ⟨prev,next⟩ := listed.neighbours (x :: front) back
    obtain ⟨first,here,later⟩ := listed
    obtain ⟨unlisted,distinct⟩ := List.nodup_cons.mp distinct
    have rest := ih later distinct (fun b same => by cases same; exact unlisted)
    rw [if_neg (List.cons_ne_nil _ _)]
    refine ⟨first,?_,?_⟩
    · refine (bypass_prev_other ?_).trans here
      rw [next]
      intro same
      exact unlisted (List.mem_append_right _ (List.mem_cons_of_mem _ (List.mem_of_mem_head? (Option.mem_def.mpr same))))
    · cases front with
      | nil =>
        have back_ : l.prev r = some x := prev
        rw [bypass_next back_,next]
        exact rest
      | cons y front =>
        rw [if_neg (List.cons_ne_nil _ _)] at rest
        rw [bypass_next_other]
        · exact rest
        · rw [prev,List.getLast?_cons_cons]
          cases last : (y :: front).getLast? with
          | none => cases List.getLast?_eq_none_iff.mp last
          | some b =>
            rintro same
            cases same
            exact unlisted (List.mem_append_left _ (List.mem_of_getLast? last))

end Linked

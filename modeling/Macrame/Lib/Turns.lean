import Mathlib.Data.List.Count
import Mathlib.Data.List.Perm.Basic
import Mathlib.Logic.Function.Basic

namespace Turns

-- One turn of a process on its local state and the memory it shares; a process
-- that has returned takes none.
abbrev Turn (ℓ μ : Type) := ℓ → μ → Option (ℓ × μ)

-- Processes with a local state each, over one memory.
structure Shared (ι ℓ μ : Type) where
  locals : ι → ℓ
  memory : μ

-- A turn of `f` changes nothing that `g` sees, and theirs join.
def Undisturbed (f g : Turn ℓ μ) : Prop :=
  ∀ a b m a' m', f a m = some (a',m') →
    (g b m = none ∧ g b m' = none) ∨
      ∃ b' n both, g b m = some (b',n) ∧ g b m' = some (b',both) ∧ f a n = some (a',both)

def Apart (f g : Turn ℓ μ) : Prop := Undisturbed f g ∧ Undisturbed g f

theorem Apart.symm {f g : Turn ℓ μ} (apart : Apart f g) : Apart g f := ⟨apart.2,apart.1⟩

section Memory

variable {κ ν : Type}

-- Turns that read and change the cells of a footprint only.
structure Within (cells : κ → Prop) (f : Turn ℓ (κ → ν)) : Prop where
  keeps : ∀ a m a' m', f a m = some (a',m') → ∀ k, ¬ cells k → m' k = m k
  reads : ∀ a m n, (∀ k, cells k → m k = n k) →
    (f a m = none ↔ f a n = none) ∧
      ∀ a' m', f a m = some (a',m') → ∃ n', f a n = some (a',n') ∧ ∀ k, cells k → n' k = m' k

-- Turns on memory cells of their own are apart.
theorem undisturbed_of_within {one two : κ → Prop} {f g : Turn ℓ (κ → ν)} (first : Within one f) (second : Within two g)
    (disjoint : ∀ k, ¬ (one k ∧ two k)) : Undisturbed f g := by
  intro a b m a' m' moved
  have unseen : ∀ k, two k → m k = m' k := fun k mine =>
    (first.keeps a m a' m' moved k (fun other => disjoint k ⟨other,mine⟩)).symm
  obtain ⟨none_iff,seen⟩ := second.reads b m m' unseen
  cases turned : g b m with
  | none => exact .inl ⟨rfl,none_iff.mp turned⟩
  | some result =>
    obtain ⟨b',n⟩ := result
    obtain ⟨both,later,agree⟩ := seen b' n turned
    have untouched : ∀ k, one k → m k = n k := fun k mine =>
      (second.keeps b m b' n turned k (fun other => disjoint k ⟨mine,other⟩)).symm
    obtain ⟨same,again,agree'⟩ := (first.reads a m n untouched).2 a' m' moved
    refine .inr ⟨b',n,both,rfl,later,?_⟩
    -- cell by cell: one's, two's, and those that neither touches
    have equal : same = both := by
      funext k
      by_cases mine : one k
      · have other : ¬ two k := fun theirs => disjoint k ⟨mine,theirs⟩
        rw [agree' k mine,second.keeps b m' b' both later k other]
      · rw [first.keeps a n a' same again k mine]
        by_cases theirs : two k
        · exact (agree k theirs).symm
        · rw [second.keeps b m b' n turned k theirs,second.keeps b m' b' both later k theirs,
            first.keeps a m a' m' moved k mine]
    rw [again,equal]

theorem apart_of_within {one two : κ → Prop} {f g : Turn ℓ (κ → ν)} (first : Within one f) (second : Within two g)
    (disjoint : ∀ k, ¬ (one k ∧ two k)) : Apart f g :=
  ⟨undisturbed_of_within first second disjoint,
    undisturbed_of_within second first (fun k both => disjoint k ⟨both.2,both.1⟩)⟩

end Memory

variable {ι ℓ μ : Type} [DecidableEq ι]

def take (turn : ι → Turn ℓ μ) (s : Shared ι ℓ μ) (i : ι) : Shared ι ℓ μ :=
  match turn i (s.locals i) s.memory with
  | none => s
  | some (next,memory) => ⟨Function.update s.locals i next,memory⟩

def Returned (turn : ι → Turn ℓ μ) (s : Shared ι ℓ μ) (i : ι) : Prop := turn i (s.locals i) s.memory = none

instance (turn : ι → Turn ℓ μ) (s : Shared ι ℓ μ) (i : ι) : Decidable (Returned turn s i) :=
  decidable_of_iff ((turn i (s.locals i) s.memory).isNone = true) Option.isNone_iff_eq_none

-- One process after another, each until it returns.
inductive Sweeps (turn : ι → Turn ℓ μ) : List ι → Shared ι ℓ μ → Shared ι ℓ μ → Prop where
  | nil : Sweeps turn [] s s
  | turn : ¬ Returned turn s i → Sweeps turn (i :: rest) (take turn s i) t → Sweeps turn (i :: rest) s t
  | next : Returned turn s i → Sweeps turn rest s t → Sweeps turn (i :: rest) s t

variable {turn : ι → Turn ℓ μ} {s t u : Shared ι ℓ μ} {i j : ι}

theorem Sweeps.unique (one : Sweeps turn order s t) (two : Sweeps turn order s u) : t = u := by
  induction one with
  | nil => cases two; rfl
  | turn unfinished _ ih =>
    cases two with
    | turn _ rest => exact ih rest
    | next done _ => exact absurd done unfinished
  | next done _ ih =>
    cases two with
    | turn unfinished _ => exact absurd done unfinished
    | next _ rest => exact ih rest

theorem Sweeps.append (one : Sweeps turn first s t) (two : Sweeps turn second t u) : Sweeps turn (first++second) s u := by
  induction one with
  | nil => exact two
  | turn unfinished _ ih => exact .turn unfinished (ih two)
  | next done _ ih => exact .next done (ih two)

theorem take_returned (done : Returned turn s i) : take turn s i = s := by
  unfold take
  rw [show turn i (s.locals i) s.memory = none from done]

theorem take_some (moved : turn i (s.locals i) s.memory = some (next,memory)) :
    take turn s i = ⟨Function.update s.locals i next,memory⟩ := by
  unfold take
  rw [moved]

-- A turn apart from `i` neither ends nor revives it.
theorem returned_iff (apart : Apart (turn j) (turn i)) (other : i ≠ j) : Returned turn (take turn s j) i ↔ Returned turn s i := by
  cases moved : turn j (s.locals j) s.memory with
  | none => rw [take_returned moved]
  | some result =>
    obtain ⟨next,memory⟩ := result
    rw [take_some moved]
    unfold Returned
    dsimp only
    rw [Function.update_of_ne other]
    rcases apart.1 _ (s.locals i) _ _ _ moved with ⟨before,after⟩ | ⟨b',n,both,before,after,_⟩
    · exact iff_of_true after before
    · rw [before,after]
      exact iff_of_false nofun nofun

theorem take_comm (apart : i ≠ j → Apart (turn i) (turn j)) : take turn (take turn s i) j = take turn (take turn s j) i := by
  by_cases same : i = j
  · rw [same]
  have away : j ≠ i := fun equal => same equal.symm
  cases first : turn i (s.locals i) s.memory with
  | none =>
    have kept := (returned_iff (s := s) (apart same).symm same).mpr first
    rw [take_returned (s := s) first,take_returned kept]
  | some one =>
    obtain ⟨a,m⟩ := one
    cases second : turn j (s.locals j) s.memory with
    | none =>
      have kept := (returned_iff (s := s) (apart same) away).mpr second
      rw [take_returned (s := s) second,take_returned kept]
    | some two =>
      obtain ⟨b,n⟩ := two
      rcases (apart same).1 _ (s.locals j) _ _ _ first with ⟨before,_⟩ | ⟨b',n',both,before,after,joined⟩
      · rw [second] at before
        cases before
      · rw [second] at before
        cases before
        have then_ : turn j (Function.update s.locals i a j) m = some (b,both) := by
          rw [Function.update_of_ne away]
          exact after
        have otherwise : turn i (Function.update s.locals j b i) n = some (a,both) := by
          rw [Function.update_of_ne same]
          exact joined
        rw [take_some first,take_some second,take_some (s := ⟨Function.update s.locals i a,m⟩) then_,
          take_some (s := ⟨Function.update s.locals j b,n⟩) otherwise,Function.update_comm same]

theorem returned_foldl (trace : List ι) (apart : ∀ j ∈ trace, i ≠ j ∧ Apart (turn j) (turn i)) :
    Returned turn (trace.foldl (take turn) s) i ↔ Returned turn s i := by
  induction trace generalizing s with
  | nil => rfl
  | cons j rest ih =>
    obtain ⟨other,free⟩ := apart j List.mem_cons_self
    exact (ih (fun k member => apart k (List.mem_cons_of_mem _ member))).trans (returned_iff free other)

theorem sweeps_replicate (n : Nat) (done : Returned turn ((List.replicate n i).foldl (take turn) s) i)
    (after : Sweeps turn rest ((List.replicate n i).foldl (take turn) s) t) : Sweeps turn (i :: rest) s t := by
  induction n generalizing s with
  | zero => exact .next done after
  | succ n ih =>
    rw [List.replicate_succ,List.foldl_cons] at done after
    by_cases already : Returned turn s i
    · rw [take_returned already] at done after
      exact ih done after
    · exact .turn already (ih done after)

-- Turns taken in any order by processes that are pairwise apart come to what
-- the processes do one after another.
theorem sweeps_of_turns (order trace : List ι) (distinct : order.Nodup)
    (apart : ∀ i ∈ order, ∀ j ∈ order, i ≠ j → Apart (turn i) (turn j)) (inside : ∀ i ∈ trace, i ∈ order)
    (done : ∀ i ∈ order, Returned turn (trace.foldl (take turn) s) i) :
    Sweeps turn order s (trace.foldl (take turn) s) := by
  induction order generalizing s trace with
  | nil =>
    cases trace with
    | nil => exact .nil
    | cons i _ => exact absurd (inside i List.mem_cons_self) List.not_mem_nil
  | cons i rest ih =>
    obtain ⟨fresh,distinct⟩ := List.nodup_cons.mp distinct
    let others := trace.filter (fun j => decide (j ≠ i))
    -- the turns of `i` moved to the front
    have split : trace.Perm (List.replicate (trace.count i) i++others) := by
      have mine : trace.filter (fun j => decide (j = i)) = List.replicate (trace.count i) i := List.filter_eq i
      rw [← mine]
      refine (List.filter_append_perm (fun j => decide (j = i)) trace).symm.trans (.of_eq ?_)
      congr 2
      funext j
      exact decide_not.symm
    have equal : trace.foldl (take turn) s = (List.replicate (trace.count i) i++others).foldl (take turn) s := by
      refine split.foldl_eq' ?_ s
      intro x one y two z
      exact (take_comm (fun other => apart y (inside y two) x (inside x one) other)).symm
    rw [equal,List.foldl_append] at done ⊢
    have away : ∀ j ∈ others, i ≠ j ∧ Apart (turn j) (turn i) := by
      intro j member
      obtain ⟨listed,other⟩ := List.mem_filter.mp member
      have ne : j ≠ i := of_decide_eq_true other
      exact ⟨fun same => ne same.symm,apart j (inside j listed) i List.mem_cons_self ne⟩
    refine sweeps_replicate (trace.count i) ((returned_foldl others away).mp (done i List.mem_cons_self)) ?_
    refine ih others distinct (fun j one k two => apart j (List.mem_cons_of_mem _ one) k (List.mem_cons_of_mem _ two)) ?_
      (fun j member => done j (List.mem_cons_of_mem _ member))
    intro j member
    obtain ⟨listed,other⟩ := List.mem_filter.mp member
    exact (List.mem_cons.mp (inside j listed)).resolve_left (of_decide_eq_true other)

end Turns

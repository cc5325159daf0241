import Mathlib.Data.List.Basic
import Mathlib.Data.List.Perm.Basic
import Mathlib.Data.List.Range

namespace TwoEnded

-- What a container with two ends has handed out: the value it returned, the
-- number of the push it is charged to, the end it left from and how many
-- pushes had been made by then.
structure Return (T : Type) where
  value : T
  number : Option Nat
  oldest : Bool
  pushes : Nat
deriving DecidableEq

-- The account of one container. Pushes are numbered in order; `present` holds
-- the numbers not yet returned, oldest first.
structure Ledger (T : Type) where
  pushed : List T
  present : List Nat
  returned : List (Return T)
deriving DecidableEq

def Ledger.empty : Ledger T := ⟨[],[],[]⟩

def Ledger.push (l : Ledger T) (item : T) : Ledger T :=
  { l with pushed := l.pushed++[item], present := l.present++[l.pushed.length] }

-- A value leaves from the older end. It is the container that says which value
-- leaves; the ledger only charges it to the oldest push.
def Ledger.giveOldest (l : Ledger T) (value : T) : Ledger T :=
  { l with present := l.present.tail, returned := l.returned++[⟨value,l.present.head?,true,l.pushed.length⟩] }

def Ledger.giveLatest (l : Ledger T) (value : T) : Ledger T :=
  { l with present := l.present.dropLast,
           returned := l.returned++[⟨value,l.present.getLast?,false,l.pushed.length⟩] }

def numbers (returned : List (Return T)) : List Nat := returned.filterMap (·.number)

def oldestOnly (returned : List (Return T)) : List Nat := numbers (returned.filter (·.oldest))

-- The pushes no return is charged with, oldest first: what `present` must hold.
def Ledger.unreturned (l : Ledger T) : List Nat :=
  (List.range l.pushed.length).filter (fun n => decide (n ∉ numbers l.returned))

-- A push that was made before the `i`-th return and that no earlier return is
-- charged with was still there for that return to choose.
def Remaining (l : Ledger T) (i : Nat) (r : Return T) (m : Nat) : Prop :=
  m < r.pushes ∧ m ∉ numbers (l.returned.take i)

structure Ledger.Exact (l : Ledger T) : Prop where
  valued : ∀ r ∈ l.returned, ∃ n, r.number = some n ∧ l.pushed[n]? = some r.value
  conserved : (numbers l.returned++l.present).Perm (List.range l.pushed.length)
  ordered : l.present.Pairwise (· < ·)
  passed : ∀ n ∈ oldestOnly l.returned, ∀ m ∈ l.present, n < m
  sorted : (oldestOnly l.returned).Pairwise (· < ·)
  latest : ∀ i r, l.returned[i]? = some r → r.oldest = false → ∀ n, r.number = some n →
    ∀ m, Remaining l i r m → m ≤ n

theorem empty_exact : (Ledger.empty : Ledger T).Exact where
  valued := by simp [Ledger.empty]
  conserved := by simp [Ledger.empty,numbers]
  ordered := by simp [Ledger.empty]
  passed := by simp [Ledger.empty]
  sorted := by simp [Ledger.empty,oldestOnly,numbers]
  latest := by simp [Ledger.empty]

theorem Ledger.Exact.present_bound {l : Ledger T} (exact : l.Exact) (member : n ∈ l.present) :
    n < l.pushed.length :=
  List.mem_range.mp (exact.conserved.subset (List.mem_append_right _ member))

theorem Ledger.Exact.returned_bound {l : Ledger T} (exact : l.Exact) (member : n ∈ numbers l.returned) :
    n < l.pushed.length :=
  List.mem_range.mp (exact.conserved.subset (List.mem_append_left _ member))

theorem Ledger.Exact.once {l : Ledger T} (exact : l.Exact) : (numbers l.returned).Nodup :=
  (List.nodup_append.mp (exact.conserved.nodup_iff.mpr List.nodup_range)).1

theorem Ledger.Exact.present_eq {l : Ledger T} (exact : l.Exact) : l.present = l.unreturned := by
  have all : (numbers l.returned++l.present).Nodup := exact.conserved.nodup_iff.mpr List.nodup_range
  obtain ⟨-,kept,apart⟩ := List.nodup_append.mp all
  have sortedRange : l.unreturned.Pairwise (· < ·) := List.pairwise_lt_range.filter _
  have same : l.present.Perm l.unreturned := by
    refine (List.perm_ext_iff_of_nodup kept (List.nodup_range.filter _)).mpr ?_
    intro n
    simp only [List.mem_filter,List.mem_range,decide_eq_true_eq]
    constructor
    · intro inside
      exact ⟨exact.present_bound inside,fun gone => apart n gone n inside rfl⟩
    · rintro ⟨made,absent⟩
      have somewhere := exact.conserved.symm.subset (List.mem_range.mpr made)
      exact (List.mem_append.mp somewhere).resolve_left absent
  refine List.Perm.eq_of_pairwise ?_ exact.ordered sortedRange same
  intro a b _ _ less more
  exact absurd (Nat.lt_trans less more) (Nat.lt_irrefl a)

theorem oldestOnly_sub (returned : List (Return T)) : (oldestOnly returned).Sublist (numbers returned) :=
  List.filter_sublist.filterMap _

theorem push_exact {l : Ledger T} (exact : l.Exact) (item : T) : (l.push item).Exact where
  valued := by
    intro r member
    obtain ⟨n,number,value⟩ := exact.valued r member
    refine ⟨n,number,?_⟩
    have within : n < l.pushed.length := (List.getElem?_eq_some_iff.mp value).1
    change (l.pushed++[item])[n]? = some r.value
    rw [List.getElem?_append_left within,value]
  conserved := by
    change (numbers l.returned++(l.present++[l.pushed.length])).Perm (List.range (l.pushed++[item]).length)
    rw [← List.append_assoc,List.length_append,List.length_singleton,List.range_succ]
    exact exact.conserved.append_right [l.pushed.length]
  ordered := by
    refine List.pairwise_append.mpr ⟨exact.ordered,List.pairwise_singleton _ _,?_⟩
    intro n member m last
    rw [List.mem_singleton.mp last]
    exact exact.present_bound member
  passed := by
    intro n member m inside
    cases List.mem_append.mp inside with
    | inl prior => exact exact.passed n member m prior
    | inr last =>
      rw [List.mem_singleton.mp last]
      exact exact.returned_bound ((oldestOnly_sub l.returned).subset member)
  sorted := exact.sorted
  latest := exact.latest

theorem numbers_append (one two : List (Return T)) : numbers (one++two) = numbers one++numbers two :=
  List.filterMap_append

theorem oldestOnly_append (one two : List (Return T)) :
    oldestOnly (one++two) = oldestOnly one++oldestOnly two := by
  simp [oldestOnly,numbers]

-- The returns made earlier keep what they left out of account.
theorem latest_append {l next : Ledger T} {r : Return T} (exact : l.Exact) (grown : next.returned = l.returned++[r])
    (fresh : r.oldest = false → ∀ n, r.number = some n → ∀ m, m < r.pushes → m ∉ numbers l.returned → m ≤ n) :
    ∀ i r, next.returned[i]? = some r → r.oldest = false → ∀ n, r.number = some n →
      ∀ m, Remaining next i r m → m ≤ n := by
  intro i r' found taken n number m remaining
  rw [grown] at found
  rw [Remaining,grown] at remaining
  by_cases before : i < l.returned.length
  · rw [List.getElem?_append_left before] at found
    rw [List.take_append_of_le_length (Nat.le_of_lt before)] at remaining
    exact exact.latest i r' found taken n number m remaining
  · have within : i < (l.returned++[r]).length := (List.getElem?_eq_some_iff.mp found).1
    have last : i = l.returned.length := by
      rw [List.length_append,List.length_singleton] at within
      omega
    subst last
    rw [List.getElem?_concat_length] at found
    cases found
    rw [List.take_left] at remaining
    exact fresh taken n number m remaining.1 remaining.2

theorem valued_append {l : Ledger T} {r : Return T} (exact : l.Exact)
    (fresh : ∃ n, r.number = some n ∧ l.pushed[n]? = some r.value) :
    ∀ r' ∈ l.returned++[r], ∃ n, r'.number = some n ∧ l.pushed[n]? = some r'.value := by
  intro r' member
  cases List.mem_append.mp member with
  | inl prior => exact exact.valued r' prior
  | inr last => rw [List.mem_singleton.mp last]; exact fresh

theorem giveOldest_exact {l : Ledger T} (exact : l.Exact) (head : l.present = n :: rest)
    (value : l.pushed[n]? = some out) : (l.giveOldest out).Exact := by
  have tail : (l.giveOldest out).present = rest := by simp [Ledger.giveOldest,head]
  have grown : (l.giveOldest out).returned = l.returned++[⟨out,some n,true,l.pushed.length⟩] := by
    simp [Ledger.giveOldest,head]
  have ordered := exact.ordered
  rw [head,List.pairwise_cons] at ordered
  have inside : n ∈ l.present := by rw [head]; exact List.mem_cons_self
  refine ⟨?_,?_,?_,?_,?_,?_⟩
  · rw [grown]
    exact valued_append exact ⟨n,rfl,value⟩
  · rw [grown,tail,numbers_append]
    have whole := exact.conserved
    rw [head] at whole
    change (numbers l.returned++[n]++rest).Perm (List.range l.pushed.length)
    rw [List.append_assoc]
    exact whole
  · rw [tail]
    exact ordered.2
  · rw [grown,tail,oldestOnly_append]
    intro m member k kept
    cases List.mem_append.mp member with
    | inl prior => exact exact.passed m prior k (by rw [head]; exact List.mem_cons_of_mem _ kept)
    | inr last =>
      have same : m = n := by simpa [oldestOnly,numbers] using last
      rw [same]
      exact ordered.1 k kept
  · rw [grown,oldestOnly_append]
    refine List.pairwise_append.mpr ⟨exact.sorted,by simp [oldestOnly,numbers],?_⟩
    intro m prior k last
    have same : k = n := by simpa [oldestOnly,numbers] using last
    rw [same]
    exact exact.passed m prior n inside
  · exact latest_append exact grown (fun taken => by cases taken)

theorem giveLatest_exact {l : Ledger T} (exact : l.Exact) (last : l.present = rest++[n])
    (value : l.pushed[n]? = some out) : (l.giveLatest out).Exact := by
  have front : (l.giveLatest out).present = rest := by simp [Ledger.giveLatest,last]
  have grown : (l.giveLatest out).returned = l.returned++[⟨out,some n,false,l.pushed.length⟩] := by
    simp [Ledger.giveLatest,last]
  have same : oldestOnly (l.giveLatest out).returned = oldestOnly l.returned := by
    rw [grown,oldestOnly_append]
    simp [oldestOnly,numbers]
  have ordered := exact.ordered
  rw [last] at ordered
  obtain ⟨earlier,-,below⟩ := List.pairwise_append.mp ordered
  refine ⟨?_,?_,?_,?_,?_,?_⟩
  · rw [grown]
    exact valued_append exact ⟨n,rfl,value⟩
  · rw [grown,front,numbers_append]
    have whole := exact.conserved
    rw [last] at whole
    change (numbers l.returned++[n]++rest).Perm (List.range l.pushed.length)
    rw [List.append_assoc]
    exact (List.perm_append_comm.append_left (numbers l.returned)).trans whole
  · rw [front]
    exact earlier
  · rw [same,front]
    intro m member k kept
    exact exact.passed m member k (by rw [last]; exact List.mem_append_left _ kept)
  · rw [same]
    exact exact.sorted
  · -- what is neither returned nor above the number of pushes is still present
    apply latest_append exact grown
    intro _ k number m made absent
    cases number
    have somewhere := exact.conserved.symm.subset (List.mem_range.mpr made)
    cases List.mem_append.mp somewhere with
    | inl gone => exact absurd gone absent
    | inr there =>
      rw [last] at there
      cases List.mem_append.mp there with
      | inl prior => exact Nat.le_of_lt (below m prior n (List.mem_singleton_self n))
      | inr alone => exact Nat.le_of_eq (List.mem_singleton.mp alone)

end TwoEnded

import Mathlib.Data.List.Count
import Mathlib.Data.List.Nodup

namespace Bins

-- One bin's turn in a sweep: the sweep, and how much had been put in by then.
structure Pass where
  bin : Nat
  batch : Nat
  stamp : Nat
  deriving DecidableEq, Repr

-- A row of bins. Items are put into bins at any time; a sweep empties the bins
-- one after the other into a batch of its own; a bin may also be thrown away.
-- `begun` is how much had been put in when each sweep began.
structure Row (α : Type) where
  bins : List (List α)
  issued : List α
  taken : List (α × Nat)
  dropped : List α
  begun : List Nat
  passes : List Pass
  position : Option Nat

variable {α : Type}

namespace Row

def grow (r : Row α) : Row α := {r with bins := r.bins++[[]]}

def put (r : Row α) (i : Nat) (x : α) : Row α :=
  {r with bins := r.bins.modify i (·++[x]),issued := r.issued++[x]}

def drop (r : Row α) (i : Nat) : Row α :=
  {r with bins := r.bins.set i [],dropped := r.dropped++r.bins.getD i []}

def batch (r : Row α) : Nat := r.begun.length-1

def sweep (r : Row α) : Row α := {r with begun := r.begun++[r.issued.length],position := some 0}

def take (r : Row α) (i : Nat) : Row α :=
  {r with
    bins := r.bins.set i [],position := some (i+1)
    taken := r.taken++(r.bins.getD i []).map (fun x => (x,r.batch))
    passes := r.passes++[⟨i,r.batch,r.issued.length⟩]}

def close (r : Row α) : Row α := {r with position := none}

-- Out of its bin by the end of sweep `n`.
def Gone (r : Row α) (n : Nat) (x : α) : Prop := x ∈ r.dropped ∨ ∃ m ≤ n, (x,m) ∈ r.taken

end Row

section Counting

variable {bins : List (List α)}

theorem mem_flatten_get : x ∈ bins.flatten ↔ ∃ (i : Nat) (xs : List α), bins[i]? = some xs ∧ x ∈ xs := by
  rw [List.mem_flatten]
  constructor
  · rintro ⟨xs,member,inside⟩
    obtain ⟨i,place⟩ := List.mem_iff_getElem?.mp member
    exact ⟨i,xs,place,inside⟩
  · rintro ⟨i,xs,place,inside⟩
    exact ⟨xs,List.mem_iff_getElem?.mpr ⟨i,place⟩,inside⟩

theorem count_emptied [DecidableEq α] (bins : List (List α)) (i : Nat) (x : α) :
    (bins.set i []).flatten.count x+(bins.getD i []).count x = bins.flatten.count x := by
  induction bins generalizing i with
  | nil => simp
  | cons xs rest ih =>
    cases i with
    | zero => simp [Nat.add_comm]
    | succ i =>
      have later := ih i
      simp only [List.set_cons_succ,List.flatten_cons,List.count_append,List.getD_cons_succ]
      omega

theorem count_filled [DecidableEq α] (within : i < bins.length) (y x : α) :
    (bins.modify i (·++[y])).flatten.count x = bins.flatten.count x+[y].count x := by
  induction bins generalizing i with
  | nil => cases within
  | cons xs rest ih =>
    cases i with
    | zero => simp only [List.modify_zero_cons,List.flatten_cons,List.count_append]; omega
    | succ i =>
      have later := ih (Nat.lt_of_succ_lt_succ within)
      simp only [List.modify_succ_cons,List.flatten_cons,List.count_append]
      omega

end Counting

-- Every item is in one place, every bin is in order, and the sweeps are exact.
structure Sound [DecidableEq α] (stamp place : α → Nat) (r : Row α) : Prop where
  stamped : ∀ n x, r.issued[n]? = some x → stamp x = n
  conserved : ∀ x, r.bins.flatten.count x+(r.taken.map Prod.fst).count x+r.dropped.count x = r.issued.count x
  placed : ∀ (i : Nat) xs, r.bins[i]? = some xs → ∀ x ∈ xs, place x = i
  ordered : ∀ (i : Nat) xs, r.bins[i]? = some xs → xs.Pairwise (stamp · < stamp ·)
  drawn : (r.taken.map Prod.fst).Pairwise (fun x y => place x = place y → stamp x < stamp y)
  ahead : ∀ x ∈ r.taken.map Prod.fst, ∀ y ∈ r.bins.flatten, place x = place y → stamp x < stamp y
  within : ∀ x ∈ r.issued, place x < r.bins.length
  numbered : ∀ e ∈ r.taken, e.2 < r.begun.length
  opened : ∀ (n : Nat) total, r.begun[n]? = some total → total ≤ r.issued.length
  sweeping : r.position ≠ none → r.begun ≠ []
  passed : ∀ k ∈ r.passes, k.batch < r.begun.length ∧ k.stamp ≤ r.issued.length
  passing : ∀ next, r.position = some next → ∀ k ∈ r.passes, k.batch+1 = r.begun.length → k.bin < next
  before : ∀ k ∈ r.passes, ∀ x ∈ r.issued, place x = k.bin → stamp x < k.stamp → r.Gone k.batch x
  after : ∀ k ∈ r.passes, ∀ x m, (x,m) ∈ r.taken → place x = k.bin → k.stamp ≤ stamp x → k.batch < m
  swept : ∀ (n : Nat) total, r.begun[n]? = some total → ∀ x ∈ r.issued, stamp x < total →
    (∀ next, r.position = some next → n+1 = r.begun.length → place x < next) → r.Gone n x

section Rules

variable [DecidableEq α] {stamp place : α → Nat} {r : Row α}

theorem sound_empty : Sound stamp place (⟨[],[],[],[],[],[],none⟩ : Row α) := by
  constructor <;> simp

namespace Sound

theorem known (sound : Sound stamp place r) :
    x ∈ r.issued ↔ x ∈ r.bins.flatten ∨ x ∈ r.taken.map Prod.fst ∨ x ∈ r.dropped := by
  have counted := sound.conserved x
  simp only [← List.count_pos_iff]
  omega

theorem stamp_lt (sound : Sound stamp place r) (member : x ∈ r.issued) : stamp x < r.issued.length := by
  obtain ⟨n,here⟩ := List.mem_iff_getElem?.mp member
  obtain ⟨below,_⟩ := List.getElem?_eq_some_iff.mp here
  rw [sound.stamped n x here]
  exact below

-- No item was put in twice, so none is in two places.
theorem once (sound : Sound stamp place r) (x : α) : r.issued.count x ≤ 1 := by
  refine List.nodup_iff_count.mp ?_ x
  rw [List.nodup_iff_getElem?_ne_getElem?]
  intro i j earlier inside same
  have one : r.issued[i]? = some r.issued[i] := List.getElem?_eq_getElem _
  have two : r.issued[j]? = some r.issued[i] := same ▸ one
  have equal := (sound.stamped i _ one).symm.trans (sound.stamped j _ two)
  omega

theorem taken_issued (sound : Sound stamp place r) (member : (x,m) ∈ r.taken) : x ∈ r.issued :=
  sound.known.mpr (.inr (.inl (List.mem_map.mpr ⟨(x,m),member,rfl⟩)))

-- An item still in a bin is in its own.
theorem binned (sound : Sound stamp place r) (member : x ∈ r.bins.flatten) : x ∈ r.bins.getD (place x) [] := by
  obtain ⟨i,xs,here,inside⟩ := mem_flatten_get.mp member
  rw [sound.placed i xs here x inside,List.getD_eq_getElem?_getD,here]
  exact inside

theorem grow (sound : Sound stamp place r) : Sound stamp place r.grow := by
  have earlier : ∀ (i : Nat) xs, r.grow.bins[i]? = some xs → r.bins[i]? = some xs ∨ xs = [] := by
    intro i xs here
    simp only [Row.grow,List.getElem?_append] at here
    split at here
    · exact .inl here
    · obtain ⟨_,empty⟩ := List.getElem?_eq_some_iff.mp here
      exact .inr (by simpa using empty.symm)
  have same : r.grow.bins.flatten = r.bins.flatten := by simp [Row.grow]
  refine {sound with conserved := ?_, placed := ?_, ordered := ?_, ahead := ?_, within := ?_}
  · rw [same]; exact sound.conserved
  · intro i xs here x inside
    rcases earlier i xs here with old | rfl
    · exact sound.placed i xs old x inside
    · cases inside
  · intro i xs here
    rcases earlier i xs here with old | rfl
    · exact sound.ordered i xs old
    · exact .nil
  · rw [same]; exact sound.ahead
  · intro x member
    have below := sound.within x member
    simp only [Row.grow,List.length_append,List.length_singleton]
    omega

theorem sweep (sound : Sound stamp place r) (idle : r.position = none) : Sound stamp place r.sweep := by
  have more : r.sweep.begun.length = r.begun.length+1 := by simp [Row.sweep]
  have begun : ∀ (n : Nat) total, r.sweep.begun[n]? = some total →
      r.begun[n]? = some total ∨ n = r.begun.length ∧ total = r.issued.length := by
    intro n total here
    simp only [Row.sweep,List.getElem?_append] at here
    split at here
    · exact .inl here
    · obtain ⟨below,same⟩ := List.getElem?_eq_some_iff.mp here
      refine .inr ⟨?_,by simpa using same.symm⟩
      simp only [List.length_singleton] at below
      omega
  refine {sound with numbered := ?_, opened := ?_, sweeping := ?_, passed := ?_, passing := ?_, swept := ?_}
  · intro e member
    have below := sound.numbered e member
    omega
  · intro n total here
    rcases begun n total here with old | ⟨_,rfl⟩
    · exact sound.opened n total old
    · exact Nat.le_refl _
  · intro _
    simp [Row.sweep]
  · intro k member
    have below := sound.passed k member
    exact ⟨by omega,below.2⟩
  · intro next _ k member latest
    have below := (sound.passed k member).1
    omega
  · intro n total here x member earlier ahead
    rcases begun n total here with old | ⟨rfl,rfl⟩
    · refine sound.swept n total old x member earlier ?_
      intro next position _
      rw [idle] at position
      cases position
    · have inside := ahead 0 rfl (by omega)
      omega

theorem close (sound : Sound stamp place r) (done : r.position = some r.bins.length) : Sound stamp place r.close := by
  refine {sound with sweeping := ?_, passing := ?_, swept := ?_}
  · intro opened
    exact absurd rfl opened
  · intro next position
    cases position
  · intro n total here x member earlier _
    refine sound.swept n total here x member earlier ?_
    intro next position _
    rw [done] at position
    cases position
    exact sound.within x member

theorem put (sound : Sound stamp place r) (inside : i < r.bins.length) (stamped : stamp x = r.issued.length)
    (placed : place x = i) : Sound stamp place (r.put i x) := by
  -- the row's items are all older than the new one
  have older : ∀ y ∈ r.issued, stamp y < stamp x := fun y member => stamped ▸ sound.stamp_lt member
  have fresh : ∀ m, (x,m) ∉ r.taken := fun m member => Nat.lt_irrefl _ (older x (sound.taken_issued member))
  have filled : ∀ (j : Nat) ys, (r.put i x).bins[j]? = some ys →
      r.bins[j]? = some ys ∨ j = i ∧ ∃ xs, r.bins[i]? = some xs ∧ ys = xs++[x] := by
    intro j ys here
    simp only [Row.put,List.getElem?_modify] at here
    obtain ⟨xs,old,same⟩ := Option.map_eq_some_iff.mp here
    by_cases other : i = j
    · subst other
      exact .inr ⟨rfl,xs,old,by simpa using same.symm⟩
    · exact .inl (by rw [old,← same,if_neg other])
  have members : ∀ y ∈ (r.put i x).issued, y ∈ r.issued ∨ y = x := by
    intro y member
    simpa [Row.put] using member
  have binned : ∀ y ∈ (r.put i x).bins.flatten, y ∈ r.bins.flatten ∨ y = x := by
    intro y member
    obtain ⟨j,ys,here,within⟩ := mem_flatten_get.mp member
    rcases filled j ys here with old | ⟨rfl,xs,old,rfl⟩
    · exact .inl (mem_flatten_get.mpr ⟨j,ys,old,within⟩)
    · rcases List.mem_append.mp within with prior | last
      · exact .inl (mem_flatten_get.mpr ⟨j,xs,old,prior⟩)
      · exact .inr (List.mem_singleton.mp last)
  refine {sound with stamped := ?_, conserved := ?_, placed := ?_, ordered := ?_, ahead := ?_, within := ?_
                     opened := ?_, passed := ?_, before := ?_, swept := ?_}
  · intro n y here
    simp only [Row.put,List.getElem?_append] at here
    split at here
    · exact sound.stamped n y here
    · obtain ⟨below,same⟩ := List.getElem?_eq_some_iff.mp here
      simp only [List.length_singleton] at below
      have equal : y = x := by simpa using same.symm
      rw [equal,stamped]
      omega
  · intro y
    have counted := sound.conserved y
    simp only [Row.put,count_filled inside,List.count_append]
    omega
  · intro j ys here y within
    rcases filled j ys here with old | ⟨rfl,xs,old,rfl⟩
    · exact sound.placed j ys old y within
    · rcases List.mem_append.mp within with prior | last
      · exact sound.placed j xs old y prior
      · rw [List.mem_singleton.mp last]; exact placed
  · intro j ys here
    rcases filled j ys here with old | ⟨rfl,xs,old,rfl⟩
    · exact sound.ordered j ys old
    · refine List.pairwise_append.mpr ⟨sound.ordered j xs old,List.pairwise_singleton _ _,?_⟩
      intro y prior z last
      rw [List.mem_singleton.mp last]
      exact older y (sound.known.mpr (.inl (mem_flatten_get.mpr ⟨j,xs,old,prior⟩)))
  · intro y member z within same
    rcases binned z within with old | rfl
    · exact sound.ahead y member z old same
    · exact older y (sound.known.mpr (.inr (.inl member)))
  · intro y member
    simp only [Row.put,List.length_modify]
    rcases members y member with old | rfl
    · exact sound.within y old
    · rw [placed]; exact inside
  · intro n total here
    have below := sound.opened n total here
    simp only [Row.put,List.length_append,List.length_singleton]
    omega
  · intro k member
    have below := sound.passed k member
    simp only [Row.put,List.length_append,List.length_singleton]
    exact ⟨below.1,by omega⟩
  · intro k member y issued same earlier
    rcases members y issued with old | rfl
    · exact sound.before k member y old same earlier
    · have below := (sound.passed k member).2
      omega
  · intro n total here y issued earlier ahead
    rcases members y issued with old | rfl
    · exact sound.swept n total here y old earlier ahead
    · have below := sound.opened n total here
      omega

-- What is left of a row with one bin emptied.
theorem emptied {i : Nat} (sound : Sound stamp place r) :
    (∀ (j : Nat) xs, (r.bins.set i [])[j]? = some xs → r.bins[j]? = some xs ∧ j ≠ i ∨ xs = []) ∧
      ∀ x ∈ (r.bins.set i []).flatten, x ∈ r.bins.flatten ∧ place x ≠ i := by
  have places : ∀ (j : Nat) xs, (r.bins.set i [])[j]? = some xs → r.bins[j]? = some xs ∧ j ≠ i ∨ xs = [] := by
    intro j xs here
    rw [List.getElem?_set] at here
    split at here
    · split at here
      · exact .inr (Option.some.inj here).symm
      · cases here
    · exact .inl ⟨here,fun same => absurd same.symm (by assumption)⟩
  refine ⟨places,?_⟩
  intro x member
  obtain ⟨j,xs,here,within⟩ := mem_flatten_get.mp member
  rcases places j xs here with ⟨old,other⟩ | rfl
  · refine ⟨mem_flatten_get.mpr ⟨j,xs,old,within⟩,?_⟩
    rw [sound.placed j xs old x within]
    exact other
  · cases within

-- What is in the bin that is emptied.
theorem inBin {i : Nat} (sound : Sound stamp place r) (member : x ∈ r.bins.getD i []) :
    x ∈ r.bins.flatten ∧ place x = i := by
  cases here : r.bins[i]? with
  | none =>
    rw [List.getD_eq_getElem?_getD,here] at member
    cases member
  | some xs =>
    rw [List.getD_eq_getElem?_getD,here] at member
    exact ⟨mem_flatten_get.mpr ⟨i,xs,here,member⟩,sound.placed i xs here x member⟩

theorem drop (sound : Sound stamp place r) (idle : r.position = none) (i : Nat) : Sound stamp place (r.drop i) := by
  have gone : ∀ n x, r.Gone n x → (r.drop i).Gone n x := by
    rintro n x (dropped | taken)
    · exact .inl (List.mem_append_left _ dropped)
    · exact .inr taken
  obtain ⟨places,left⟩ := sound.emptied (i := i)
  refine {sound with conserved := ?_, placed := ?_, ordered := ?_, ahead := ?_, within := ?_
                     before := ?_, swept := ?_}
  · intro x
    have counted := sound.conserved x
    have split := count_emptied r.bins i x
    simp only [Row.drop,List.count_append]
    omega
  · intro j xs here x within
    rcases places j xs here with ⟨old,_⟩ | rfl
    · exact sound.placed j xs old x within
    · cases within
  · intro j xs here
    rcases places j xs here with ⟨old,_⟩ | rfl
    · exact sound.ordered j xs old
    · exact .nil
  · intro x member y within same
    exact sound.ahead x member y (left y within).1 same
  · intro x member
    simp only [Row.drop,List.length_set]
    exact sound.within x member
  · intro k member x issued same earlier
    exact gone _ _ (sound.before k member x issued same earlier)
  · intro n total here x issued earlier _
    refine gone _ _ (sound.swept n total here x issued earlier ?_)
    intro next position
    rw [idle] at position
    cases position

theorem take (sound : Sound stamp place r) (here : r.position = some i) : Sound stamp place (r.take i) := by
  obtain ⟨places,left⟩ := sound.emptied (i := i)
  have some_begun : r.begun ≠ [] := sound.sweeping (by rw [here]; simp)
  have latest : r.batch+1 = r.begun.length := Nat.sub_add_cancel (List.length_pos_iff.mpr some_begun)
  have names : (r.take i).taken.map Prod.fst = r.taken.map Prod.fst++r.bins.getD i [] := by
    simp [Row.take,Function.comp_def]
  have entries : ∀ x m, (x,m) ∈ (r.take i).taken → (x,m) ∈ r.taken ∨ m = r.batch ∧ x ∈ r.bins.getD i [] := by
    intro x m member
    rcases List.mem_append.mp member with old | new
    · exact .inl old
    · obtain ⟨y,inside,same⟩ := List.mem_map.mp new
      cases same
      exact .inr ⟨rfl,inside⟩
  have gone : ∀ n x, r.Gone n x → (r.take i).Gone n x := by
    rintro n x (dropped | ⟨m,low,taken⟩)
    · exact .inl dropped
    · exact .inr ⟨m,low,List.mem_append_left _ taken⟩
  -- whatever was put in the bin has left it by the end of this sweep
  have cleared : ∀ x ∈ r.issued, place x = i → (r.take i).Gone r.batch x := by
    intro x issued same
    rcases sound.known.mp issued with binned | taken | dropped
    · have inside := same ▸ sound.binned binned
      exact .inr ⟨r.batch,Nat.le_refl _,List.mem_append_right _ (List.mem_map.mpr ⟨x,inside,rfl⟩)⟩
    · obtain ⟨⟨y,m⟩,member,rfl⟩ := List.mem_map.mp taken
      have below : m < r.begun.length := sound.numbered _ member
      exact gone _ _ (.inr ⟨m,by omega,member⟩)
    · exact gone _ _ (.inl dropped)
  refine {sound with conserved := ?_, placed := ?_, ordered := ?_, drawn := ?_, ahead := ?_, within := ?_
                     numbered := ?_, sweeping := ?_, passed := ?_, passing := ?_, before := ?_, after := ?_
                     swept := ?_}
  · intro x
    have counted := sound.conserved x
    have split := count_emptied r.bins i x
    rw [names,List.count_append]
    simp only [Row.take]
    omega
  · intro j xs here x within
    rcases places j xs here with ⟨old,_⟩ | rfl
    · exact sound.placed j xs old x within
    · cases within
  · intro j xs here
    rcases places j xs here with ⟨old,_⟩ | rfl
    · exact sound.ordered j xs old
    · exact .nil
  · rw [names]
    refine List.pairwise_append.mpr ⟨sound.drawn,?_,?_⟩
    · cases bin : r.bins[i]? with
      | none => rw [List.getD_eq_getElem?_getD,bin]; exact .nil
      | some xs =>
        rw [List.getD_eq_getElem?_getD,bin]
        refine List.Pairwise.imp ?_ (sound.ordered i xs bin)
        intro x y less _
        exact less
    · intro x taken y inside same
      exact sound.ahead x taken y (sound.inBin inside).1 same
  · intro x member y within same
    rw [names] at member
    rcases List.mem_append.mp member with old | new
    · exact sound.ahead x old y (left y within).1 same
    · exact absurd (same.symm.trans (sound.inBin new).2) (left y within).2
  · intro x member
    simp only [Row.take,List.length_set]
    exact sound.within x member
  · rintro ⟨x,m⟩ member
    rcases entries x m member with old | ⟨rfl,_⟩
    · exact sound.numbered _ old
    · exact Nat.lt_of_succ_le (Nat.le_of_eq latest)
  · intro _
    exact some_begun
  · intro k member
    rcases List.mem_append.mp member with old | new
    · exact sound.passed k old
    · rw [List.mem_singleton.mp new]
      exact ⟨Nat.lt_of_succ_le (Nat.le_of_eq latest),Nat.le_refl _⟩
  · intro next position k member now
    cases position
    rcases List.mem_append.mp member with old | new
    · exact Nat.lt_succ_of_lt (sound.passing i here k old now)
    · rw [List.mem_singleton.mp new]
      exact Nat.lt_succ_self i
  · intro k member x issued same earlier
    rcases List.mem_append.mp member with old | new
    · exact gone _ _ (sound.before k old x issued same earlier)
    · rw [List.mem_singleton.mp new] at same ⊢
      exact cleared x issued same
  · intro k member x m taken same later
    rcases List.mem_append.mp member with old | new
    · rcases entries x m taken with prior | ⟨rfl,inside⟩
      · exact sound.after k old x m prior same later
      · -- this sweep has not been at this bin yet
        have place : k.bin = i := same.symm.trans (sound.inBin inside).2
        have below := (sound.passed k old).1
        have earlier : k.batch+1 ≠ r.begun.length := by
          intro now
          have passing := sound.passing i here k old now
          omega
        omega
    · rw [List.mem_singleton.mp new] at later
      have issued : x ∈ r.issued := by
        rcases entries x m taken with prior | ⟨_,inside⟩
        · exact sound.taken_issued prior
        · exact sound.known.mpr (.inl (sound.inBin inside).1)
      have below := sound.stamp_lt issued
      exact absurd later (Nat.not_le.mpr below)
  · intro n total opened x issued earlier ahead
    by_cases now : n+1 = r.begun.length ∧ place x = i
    · have current : n = r.batch := by omega
      rw [current]
      exact cleared x issued now.2
    · refine gone _ _ (sound.swept n total opened x issued earlier ?_)
      intro next position last
      rw [here] at position
      cases position
      have below := ahead (i+1) rfl last
      have other : place x ≠ i := fun same => now ⟨last,same⟩
      omega

end Sound
end Rules
end Bins

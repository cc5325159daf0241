import Mathlib.Data.List.GetD
import Mathlib.Data.List.Induction
import Mathlib.Data.List.Sort
import Mathlib.Data.Rat.Floor
import Mathlib.Logic.Function.Basic
import Mathlib.Order.Bounds.Basic
import Mathlib.Tactic.Linarith
import Macrame.MachineInt

namespace Macrame

-- `P2`, its doubles read as rationals.
structure P2 where
  p : ℚ
  q : Nat → ℚ
  n : Nat → ℚ
  np : Nat → ℚ
  dn : Nat → ℚ
  count : Int

-- A division by zero has no value.
def divide (a b : ℚ) : Option ℚ := if b = 0 then none else some (a/b)

namespace P2

def fresh (p : ℚ) : P2 := ⟨p,fun _ => 0,fun _ => 0,fun _ => 0,fun _ => 0,0⟩

def parabolic (m : P2) (i : Nat) (s : Int) : Option ℚ := do
  let step ← divide s (m.n (i+1)-m.n (i-1))
  let above ← divide ((m.n i-m.n (i-1)+s)*(m.q (i+1)-m.q i)) (m.n (i+1)-m.n i)
  let below ← divide ((m.n (i+1)-m.n i-s)*(m.q i-m.q (i-1))) (m.n i-m.n (i-1))
  return m.q i+step*(above+below)

def beside (i : Nat) (s : Int) : Nat := (i+s).toNat

def linear (m : P2) (i : Nat) (s : Int) : Option ℚ := do
  let rise ← divide (s*(m.q (beside i s)-m.q i)) (m.n (beside i s)-m.n i)
  return m.q i+rise

-- One turn of the loop over the inner markers.
def adjust (m : P2) (i : Nat) : Option P2 :=
  let d := m.np i-m.n i
  if (1 ≤ d ∧ 1 < m.n (i+1)-m.n i) ∨ (d ≤ -1 ∧ m.n (i-1)-m.n i < -1) then do
    let s : Int := if 0 ≤ d then 1 else -1
    let bent ← m.parabolic i s
    let qp ← if m.q (i-1) < bent ∧ bent < m.q (i+1) then pure bent else m.linear i s
    return { m with q := Function.update m.q i qp, n := Function.update m.n i (m.n i+s) }
  else some m

-- `while (k < 3 && x >= q[k + 1]) ++k`
def cell (q : Nat → ℚ) (x : ℚ) (k : Nat) : Nat :=
  if k < 3 ∧ q (k+1) ≤ x then cell q x (k+1) else k
termination_by 3-k

-- The outer heights and the cell of a sample.
def placed (m : P2) (x : ℚ) : P2×Nat :=
  if x < m.q 0 then ({ m with q := Function.update m.q 0 x },0)
  else if m.q 4 ≤ x then ({ m with q := Function.update m.q 4 x },3)
  else (m,cell m.q x 0)

def counted (m : P2) (k : Nat) : P2 :=
  { m with
    n := fun i => if k < i ∧ i < 5 then m.n i+1 else m.n i
    np := fun i => if i < 5 then m.np i+m.dn i else m.np i }

def sorted (q : Nat → ℚ) (count : Nat) : List ℚ := ((List.range count).map q).insertionSort (· ≤ ·)

-- The fifth sample starts the markers.
def begun (m : P2) : P2 :=
  { m with
    q := fun i => (sorted m.q 5).getD i (m.q i)
    n := fun i => if i < 5 then i+1 else m.n i
    np := fun i => [1,1+2*m.p,1+4*m.p,3+2*m.p,5].getD i (m.np i)
    dn := fun i => [0,m.p/2,m.p,(1+m.p)/2,1].getD i (m.dn i) }

-- With a negative count `q[count++]` is written before the first cell of `q`.
def add (m : P2) (x : ℚ) : Option P2 :=
  if m.count < 0 then none
  else if m.count < 5 then
    let m := { m with q := Function.update m.q m.count.toNat x, count := int32 (m.count+1) }
    some (if m.count = 5 then m.begun else m)
  else do
    let (m,k) := m.placed x
    let m ← (m.counted k).adjust 1
    let m ← m.adjust 2
    let m ← m.adjust 3
    return { m with count := int32 (m.count+1) }

-- Halves go away from zero.
def lround (x : ℚ) : Int := if 0 ≤ x then ⌊x+1/2⌋ else ⌈x-1/2⌉

-- With a negative count the copied range ends before it begins.
def value (m : P2) : Option ℚ :=
  if m.count < 0 then none
  else if m.count = 0 then some 0
  else if m.count ≤ 5 then
    let tmp := sorted m.q m.count.toNat
    let idx := max 0 (min (int32 (lround (m.p*(m.count-1)))) (m.count-1))
    tmp[idx.toNat]?
  else some (m.q 2)

def run (p : ℚ) (samples : List ℚ) : Option P2 := samples.foldlM add (fresh p)

-- Markers at whole positions in rising order, with heights that do not fall.
structure Ordered (m : P2) : Prop where
  whole : ∀ i, i < 5 → ∃ z : Int, m.n i = z
  rising : ∀ i, i < 4 → m.n i < m.n (i+1)
  sorted : ∀ i, i < 4 → m.q i ≤ m.q (i+1)

structure Marked (samples : List ℚ) (m : P2) : Prop extends Ordered m where
  first : m.n 0 = 1
  last : m.n 4 = m.count
  counted : m.count = samples.length
  least : IsLeast {x | x ∈ samples} (m.q 0)
  greatest : IsGreatest {x | x ∈ samples} (m.q 4)

theorem divide_of_ne {a b : ℚ} (nonzero : b ≠ 0) : divide a b = some (a/b) := if_neg nonzero

-- A share of a rise stays within it.
theorem part_within {a g : ℚ} (rise : 0 ≤ a) (wide : 1 < g) : 0 ≤ a/g ∧ a/g ≤ a :=
  ⟨div_nonneg rise (by linarith),div_le_self rise wide.le⟩

-- The neighbours of an inner marker.
structure Room (m : P2) (i : Nat) (s : Int) : Prop where
  below : m.n (i-1) < m.n i
  above : m.n i < m.n (i+1)
  low : m.q (i-1) ≤ m.q i
  high : m.q i ≤ m.q (i+1)
  moves : s = 1 ∧ 1 < m.n (i+1)-m.n i ∨ s = -1 ∧ m.n (i-1)-m.n i < -1

theorem Room.parabolic {m : P2} (room : m.Room i s) : ∃ bent, m.parabolic i s = some bent := by
  have below := room.below
  have above := room.above
  unfold P2.parabolic
  rw [divide_of_ne (by linarith),divide_of_ne (by linarith),divide_of_ne (by linarith)]
  exact ⟨_,rfl⟩

theorem Room.linear {m : P2} (room : m.Room i s) (inner : 1 ≤ i) :
    ∃ straight, m.linear i s = some straight ∧ m.q (i-1) ≤ straight ∧ straight ≤ m.q (i+1) := by
  have low := room.low
  have high := room.high
  unfold P2.linear
  rcases room.moves with ⟨rfl,gap⟩ | ⟨rfl,gap⟩
  · have there : beside i 1 = i+1 := by unfold beside; omega
    obtain ⟨up,within⟩ := part_within (sub_nonneg.mpr high) gap
    rw [there,divide_of_ne (by linarith),Int.cast_one,one_mul]
    exact ⟨_,rfl,by linarith,by linarith⟩
  · have there : beside i (-1) = i-1 := by unfold beside; omega
    have same : ((-1 : Int) : ℚ)*(m.q (i-1)-m.q i)/(m.n (i-1)-m.n i) = -((m.q i-m.q (i-1))/(m.n i-m.n (i-1))) := by
      rw [← neg_sub (m.n i),div_neg,Int.cast_neg,Int.cast_one,neg_one_mul,neg_sub]
    obtain ⟨up,within⟩ := part_within (sub_nonneg.mpr low) (show 1 < m.n i-m.n (i-1) by linarith)
    rw [there,divide_of_ne (by linarith),same]
    exact ⟨_,rfl,by linarith,by linarith⟩

-- What one turn does to a marker with room on the side it moves to.
theorem adjust_cases {m : P2} (ordered : m.Ordered) (inner : 1 ≤ i) (inside : i < 4) :
    m.adjust i = some m ∨ ∃ s qp, m.Room i s ∧ m.q (i-1) ≤ qp ∧ qp ≤ m.q (i+1) ∧
      m.adjust i = some { m with q := Function.update m.q i qp, n := Function.update m.n i (m.n i+s) } := by
  have back : i-1+1 = i := Nat.sub_add_cancel inner
  have below := ordered.rising (i-1) (by omega)
  have low := ordered.sorted (i-1) (by omega)
  rw [back] at below low
  by_cases moves : (1 ≤ m.np i-m.n i ∧ 1 < m.n (i+1)-m.n i) ∨ (m.np i-m.n i ≤ -1 ∧ m.n (i-1)-m.n i < -1)
  · right
    let s : Int := if 0 ≤ m.np i-m.n i then 1 else -1
    have room : m.Room i s := by
      refine ⟨below,ordered.rising i inside,low,ordered.sorted i inside,?_⟩
      rcases moves with ⟨ahead,gap⟩ | ⟨behind,gap⟩
      · exact .inl ⟨if_pos (by linarith),gap⟩
      · exact .inr ⟨if_neg (by linarith),gap⟩
    obtain ⟨bent,curve⟩ := room.parabolic
    obtain ⟨straight,line,above,under⟩ := room.linear inner
    unfold adjust
    simp only [if_pos moves]
    by_cases between : m.q (i-1) < bent ∧ bent < m.q (i+1)
    · refine ⟨s,bent,room,between.1.le,between.2.le,?_⟩
      change (m.parabolic i s).bind _ = _
      rw [curve]
      simp [between,s]
    · refine ⟨s,straight,room,above,under,?_⟩
      change (m.parabolic i s).bind _ = _
      rw [curve]
      simp only [Option.bind_some,if_neg between]
      change (m.linear i s).bind _ = _
      rw [line]
      rfl
  · exact .inl (if_neg moves)

-- The turns leave the outer markers alone.
structure Outer (m u : P2) : Prop where
  lowest : u.q 0 = m.q 0
  highest : u.q 4 = m.q 4
  first : u.n 0 = m.n 0
  last : u.n 4 = m.n 4
  count : u.count = m.count

theorem Outer.trans {m u v : P2} (one : Outer m u) (two : Outer u v) : Outer m v :=
  ⟨two.lowest.trans one.lowest,two.highest.trans one.highest,two.first.trans one.first,two.last.trans one.last,
    two.count.trans one.count⟩

theorem Room.steps {m : P2} (room : m.Room i s) : m.n (i-1) < m.n i+s ∧ m.n i+s < m.n (i+1) := by
  have below := room.below
  have above := room.above
  rcases room.moves with ⟨rfl,gap⟩ | ⟨rfl,gap⟩
  · rw [Int.cast_one]
    constructor <;> linarith
  · rw [Int.cast_neg,Int.cast_one]
    constructor <;> linarith

-- A chain of five with one link put in.
theorem chain_update {r : ℚ → ℚ → Prop} {f : Nat → ℚ} (chain : ∀ j, j < 4 → r (f j) (f (j+1)))
    (low : ∀ j, j+1 = i → r (f j) x) (high : i < 4 → r x (f (i+1))) :
    ∀ j, j < 4 → r (Function.update f i x j) (Function.update f i x (j+1)) := by
  intro j inside
  by_cases here : j = i
  · subst here
    rw [Function.update_self,Function.update_of_ne (Nat.succ_ne_self j)]
    exact high inside
  · rw [Function.update_of_ne here]
    by_cases next : j+1 = i
    · rw [next,Function.update_self]
      exact low j next
    · rw [Function.update_of_ne next]
      exact chain j inside

theorem Ordered.moved {m : P2} (ordered : m.Ordered) (room : m.Room i s) (low : m.q (i-1) ≤ qp) (high : qp ≤ m.q (i+1)) :
    Ordered { m with q := Function.update m.q i qp, n := Function.update m.n i (m.n i+s) } := by
  obtain ⟨behind,ahead⟩ := room.steps
  refine ⟨?_,?_,?_⟩
  · intro j inside
    by_cases here : j = i
    · rw [here] at inside ⊢
      obtain ⟨z,at_⟩ := ordered.whole i inside
      exact ⟨z+s,by simp [at_]⟩
    · obtain ⟨z,at_⟩ := ordered.whole j inside
      exact ⟨z,by simp [here,at_]⟩
  · exact chain_update ordered.rising (fun j next => by rw [← next,Nat.add_sub_cancel] at behind; exact next ▸ behind) (fun _ => ahead)
  · exact chain_update ordered.sorted (fun j next => by rw [← next,Nat.add_sub_cancel] at low; exact low) (fun _ => high)

theorem adjust_ordered {m : P2} (ordered : m.Ordered) (inner : 1 ≤ i) (inside : i < 4) :
    ∃ u, m.adjust i = some u ∧ u.Ordered ∧ Outer m u := by
  rcases adjust_cases ordered inner inside with stays | ⟨s,qp,room,low,high,moves⟩
  · exact ⟨m,stays,ordered,rfl,rfl,rfl,rfl,rfl⟩
  · have first : 0 ≠ i := by omega
    have last : 4 ≠ i := by omega
    exact ⟨_,moves,ordered.moved room low high,Function.update_of_ne first _ _,Function.update_of_ne last _ _,
      Function.update_of_ne first _ _,Function.update_of_ne last _ _,rfl⟩

theorem cell_le (q : Nat → ℚ) (x : ℚ) (k : Nat) (near : k ≤ 3) : cell q x k ≤ 3 := by
  fun_induction cell q x k with
  | case1 k more ih => exact ih more.1
  | case2 => exact near

theorem counted_ordered {m : P2} (ordered : m.Ordered) (k : Nat) : (m.counted k).Ordered := by
  refine ⟨?_,?_,ordered.sorted⟩
  · intro i inside
    obtain ⟨z,at_⟩ := ordered.whole i inside
    by_cases past : k < i ∧ i < 5
    · exact ⟨z+1,by simp [counted,past,at_]⟩
    · exact ⟨z,by simp [counted,past,at_]⟩
  · intro i inside
    have rises := ordered.rising i inside
    simp only [counted]
    split
    · rename_i here
      rw [if_pos ⟨by omega,by omega⟩]
      linarith
    · split
      · linarith
      · exact rises

-- Where a sample lies among the outer heights.
structure Placed (samples : List ℚ) (m : P2) (x : ℚ) (u : P2) (k : Nat) : Prop where
  ordered : u.Ordered
  near : k ≤ 3
  positions : u.n = m.n
  count : u.count = m.count
  least : IsLeast {y | y ∈ samples++[x]} (u.q 0)
  greatest : IsGreatest {y | y ∈ samples++[x]} (u.q 4)

theorem Ordered.outermost {m : P2} (ordered : m.Ordered) : m.q 0 ≤ m.q 4 :=
  ((ordered.sorted 0 (by omega)).trans (ordered.sorted 1 (by omega))).trans
    ((ordered.sorted 2 (by omega)).trans (ordered.sorted 3 (by omega)))

theorem least_append (least : IsLeast {y | y ∈ samples} (a : ℚ)) : IsLeast {y | y ∈ samples++[x]} (min a x) := by
  constructor
  · change min a x ∈ samples++[x]
    rcases min_choice a x with same | same
    · rw [same]
      exact List.mem_append_left _ least.1
    · rw [same]
      exact List.mem_append_right _ (List.mem_singleton_self x)
  · intro y member
    rcases List.mem_append.mp member with old | new
    · exact (min_le_left a x).trans (least.2 old)
    · rw [List.mem_singleton.mp new]
      exact min_le_right a x

theorem greatest_append (greatest : IsGreatest {y | y ∈ samples} (a : ℚ)) : IsGreatest {y | y ∈ samples++[x]} (max a x) := by
  constructor
  · change max a x ∈ samples++[x]
    rcases max_choice a x with same | same
    · rw [same]
      exact List.mem_append_left _ greatest.1
    · rw [same]
      exact List.mem_append_right _ (List.mem_singleton_self x)
  · intro y member
    rcases List.mem_append.mp member with old | new
    · exact (greatest.2 old).trans (le_max_left a x)
    · rw [List.mem_singleton.mp new]
      exact le_max_right a x

theorem Ordered.lowered {m : P2} (ordered : m.Ordered) (below : x ≤ m.q 0) :
    Ordered { m with q := Function.update m.q 0 x } := by
  exact ⟨ordered.whole,ordered.rising,
    chain_update ordered.sorted (fun j next => absurd next (Nat.succ_ne_zero j)) (fun first => below.trans (ordered.sorted 0 first))⟩

theorem Ordered.raised {m : P2} (ordered : m.Ordered) (above : m.q 4 ≤ x) :
    Ordered { m with q := Function.update m.q 4 x } := by
  refine ⟨ordered.whole,ordered.rising,chain_update ordered.sorted ?_ (fun past => absurd past (Nat.lt_irrefl 4))⟩
  intro j next
  have third : j = 3 := by omega
  rw [third]
  exact (ordered.sorted 3 (by omega)).trans above

theorem Marked.placed {m : P2} (marked : m.Marked samples) (x : ℚ) :
    Placed samples m x (m.placed x).1 (m.placed x).2 := by
  have outermost := marked.outermost
  have least := least_append (x := x) marked.least
  have greatest := greatest_append (x := x) marked.greatest
  unfold P2.placed
  split
  · rename_i below
    rw [min_eq_right below.le] at least
    rw [max_eq_left (below.le.trans outermost)] at greatest
    exact ⟨marked.lowered below.le,by omega,rfl,rfl,by simpa using least,by simpa using greatest⟩
  · rename_i notBelow
    rw [min_eq_left (not_lt.mp notBelow)] at least
    split
    · rename_i above
      rw [max_eq_right above] at greatest
      exact ⟨marked.raised above,Nat.le_refl 3,rfl,rfl,by simpa using least,by simpa using greatest⟩
    · rename_i notAbove
      rw [max_eq_left (not_le.mp notAbove).le] at greatest
      exact ⟨marked.toOrdered,cell_le _ _ _ (Nat.zero_le 3),rfl,rfl,least,greatest⟩

theorem int32_next {count : Int} (natural : 0 ≤ count) (room : count < intMax) : int32 (count+1) = count+1 := by
  refine int32_of_in ⟨?_,room⟩
  unfold intMax
  omega

-- The outer markers, the count and the order after one more sample.
structure Added (samples : List ℚ) (m : P2) (x : ℚ) (u : P2) : Prop where
  ordered : u.Ordered
  first : u.n 0 = 1
  last : u.n 4 = m.count+1
  count : u.count = int32 (m.count+1)
  least : IsLeast {y | y ∈ samples++[x]} (u.q 0)
  greatest : IsGreatest {y | y ∈ samples++[x]} (u.q 4)

theorem Marked.add {m : P2} (marked : m.Marked samples) (many : 5 ≤ m.count) (x : ℚ) :
    ∃ u, m.add x = some u ∧ Added samples m x u := by
  have placed := marked.placed x
  obtain ⟨one,first,ordered,outer⟩ := adjust_ordered (counted_ordered placed.ordered _) (Nat.le_refl 1) (by omega)
  obtain ⟨two,second,ordered,outer'⟩ := adjust_ordered (i := 2) ordered (by omega) (by omega)
  obtain ⟨three,third,ordered,outer''⟩ := adjust_ordered (i := 3) ordered (by omega) (by omega)
  have outer := (outer.trans outer').trans outer''
  have near := placed.near
  refine ⟨{ three with count := int32 (three.count+1) },?_,⟨ordered.whole,ordered.rising,ordered.sorted⟩,?_,?_,?_,?_,?_⟩
  · unfold P2.add
    rw [if_neg (by omega),if_neg (by omega)]
    change (((m.placed x).1.counted (m.placed x).2).adjust 1).bind _ = _
    rw [first]
    change (one.adjust 2).bind _ = _
    rw [second]
    change (two.adjust 3).bind _ = _
    rw [third]
    rfl
  · change three.n 0 = 1
    rw [outer.first,← marked.first,← placed.positions]
    simp [P2.counted]
  · change three.n 4 = m.count+1
    rw [outer.last]
    change (if (m.placed x).2 < 4 ∧ 4 < 5 then (m.placed x).1.n 4+1 else _) = _
    rw [if_pos ⟨by omega,by omega⟩,placed.positions,marked.last]
  · change int32 (three.count+1) = _
    rw [outer.count]
    change int32 ((m.placed x).1.count+1) = _
    rw [placed.count]
  · change IsLeast _ (three.q 0)
    rw [outer.lowest]
    exact placed.least
  · change IsGreatest _ (three.q 4)
    rw [outer.highest]
    exact placed.greatest

-- While the count is an int the markers stand again.
theorem Added.marked {m : P2} (added : Added samples m x u) (counted : m.count = samples.length) (room : m.count < intMax) :
    u.Marked (samples++[x]) := by
  have next : u.count = m.count+1 := by rw [added.count,int32_next (by omega) room]
  refine ⟨added.ordered,added.first,?_,?_,added.least,added.greatest⟩
  · rw [added.last,next]
    push_cast
    rfl
  · rw [next,counted,List.length_append]
    rfl

-- Before the fifth sample the heights are the samples themselves.
structure Warm (samples : List ℚ) (m : P2) : Prop where
  heights : (List.range m.count.toNat).map m.q = samples
  count : m.count = samples.length

theorem Warm.grown {m : P2} (warm : m.Warm samples) (few : m.count < 5) (x : ℚ) :
    Warm (samples++[x]) { m with q := Function.update m.q m.count.toNat x, count := int32 (m.count+1) } := by
  have natural : 0 ≤ m.count := warm.count ▸ Int.natCast_nonneg _
  have next : int32 (m.count+1) = m.count+1 := int32_next natural (by unfold intMax; omega)
  constructor
  · have kept : (List.range m.count.toNat).map (Function.update m.q m.count.toNat x) = (List.range m.count.toNat).map m.q := by
      refine List.map_congr_left ?_
      intro i member
      exact Function.update_of_ne (Nat.ne_of_lt (List.mem_range.mp member)) _ _
    have last : Function.update m.q m.count.toNat x m.count.toNat = x := Function.update_self ..
    change (List.range (int32 (m.count+1)).toNat).map (Function.update m.q m.count.toNat x) = samples++[x]
    rw [next,Int.toNat_add natural (by decide)]
    change (List.range (m.count.toNat+1)).map _ = _
    rw [List.range_succ,List.map_append,kept,warm.heights,List.map_singleton,last]
  · change int32 (m.count+1) = _
    rw [next,List.length_append,warm.count]
    rfl

theorem mem_sorted (q : Nat → ℚ) (count : Nat) : x ∈ sorted q count ↔ x ∈ (List.range count).map q := by
  unfold sorted
  exact List.mem_insertionSort _

theorem length_sorted (q : Nat → ℚ) (count : Nat) : (sorted q count).length = count := by
  unfold sorted
  rw [List.length_insertionSort,List.length_map,List.length_range]

theorem sorted_le (q : Nat → ℚ) (count : Nat) {i j : Nat} (order : i ≤ j) (inside : j < (sorted q count).length) :
    (sorted q count)[i] ≤ (sorted q count)[j] := by
  have rising : (sorted q count).Pairwise (· ≤ ·) := List.pairwise_insertionSort _ _
  cases Nat.lt_or_eq_of_le order with
  | inl before => exact List.pairwise_iff_getElem.mp rising i j _ inside before
  | inr same =>
    subst same
    exact le_refl _

theorem Warm.begun {m : P2} (warm : m.Warm samples) (full : m.count = 5) : m.begun.Marked samples := by
  have long : (sorted m.q 5).length = 5 := length_sorted m.q 5
  have height : ∀ i (inside : i < (sorted m.q 5).length), m.begun.q i = (sorted m.q 5)[i] :=
    fun i inside => List.getD_eq_getElem _ _ inside
  have position : ∀ i, i < 5 → m.begun.n i = (i : ℚ)+1 := fun i inside => if_pos inside
  have same : ∀ y, y ∈ sorted m.q 5 ↔ y ∈ samples := by
    intro y
    have heights := warm.heights
    rw [full] at heights
    rw [mem_sorted]
    exact iff_of_eq (congrArg (y ∈ ·) heights)
  refine ⟨⟨?_,?_,?_⟩,?_,?_,warm.count,⟨?_,?_⟩,?_,?_⟩
  · intro i inside
    exact ⟨i+1,by rw [position i inside]; push_cast; rfl⟩
  · intro i inside
    rw [position i (by omega),position (i+1) (by omega)]
    push_cast
    linarith
  · intro i inside
    rw [height i (by omega),height (i+1) (by omega)]
    exact sorted_le m.q 5 (Nat.le_succ i) (by omega)
  · rw [position 0 (by omega)]
    norm_num
  · change m.begun.n 4 = (m.count : ℚ)
    rw [position 4 (by omega),full]
    norm_num
  · rw [height 0 (by omega)]
    exact (same _).mp (List.getElem_mem _)
  · intro y member
    obtain ⟨j,inside,at_⟩ := List.getElem_of_mem ((same y).mpr member)
    rw [height 0 (by omega),← at_]
    exact sorted_le m.q 5 (Nat.zero_le j) inside
  · rw [height 4 (by omega)]
    exact (same _).mp (List.getElem_mem _)
  · intro y member
    obtain ⟨j,inside,at_⟩ := List.getElem_of_mem ((same y).mpr member)
    rw [height 4 (by omega),← at_]
    exact sorted_le m.q 5 (by omega) (by omega)

-- Up to five samples the value is one of the heights.
theorem value_mem {m : P2} (some : 0 < m.count) (few : m.count ≤ 5) :
    ∃ y ∈ (List.range m.count.toNat).map m.q, m.value = .some y := by
  unfold value
  rw [if_neg (by omega),if_neg (by omega),if_pos few]
  simp only
  generalize int32 (lround (m.p*(m.count-1))) = rank
  have inside : (max 0 (min rank (m.count-1))).toNat < (sorted m.q m.count.toNat).length := by
    rw [length_sorted]
    omega
  refine ⟨_,?_,List.getElem?_eq_getElem inside⟩
  rw [← mem_sorted]
  exact List.getElem_mem inside

-- The value lies between two of the samples.
def Between (samples : List ℚ) (m : P2) : Prop :=
  ∃ y, m.value = some y ∧ (∃ x ∈ samples, x ≤ y) ∧ ∃ x ∈ samples, y ≤ x

theorem Ordered.spread {m : P2} (ordered : m.Ordered) (inside : i < 5) : m.q 0 ≤ m.q i ∧ m.q i ≤ m.q 4 := by
  have one := ordered.sorted 0 (by omega)
  have two := ordered.sorted 1 (by omega)
  have three := ordered.sorted 2 (by omega)
  have four := ordered.sorted 3 (by omega)
  have known : i = 0 ∨ i = 1 ∨ i = 2 ∨ i = 3 ∨ i = 4 := by omega
  rcases known with rfl | rfl | rfl | rfl | rfl <;> constructor <;> linarith

theorem Marked.between {m : P2} (marked : m.Marked samples) (many : 5 ≤ m.count) : m.Between samples := by
  have inner : ∃ i, i < 5 ∧ m.value = some (m.q i) := by
    by_cases few : m.count ≤ 5
    · obtain ⟨y,member,known⟩ := value_mem (by omega) few
      obtain ⟨i,inside,rfl⟩ := List.mem_map.mp member
      have small := List.mem_range.mp inside
      exact ⟨i,by omega,known⟩
    · refine ⟨2,by omega,?_⟩
      unfold value
      rw [if_neg (by omega),if_neg (by omega),if_neg few]
  obtain ⟨i,inside,same⟩ := inner
  obtain ⟨low,high⟩ := marked.spread inside
  exact ⟨m.q i,same,⟨m.q 0,marked.least.1,low⟩,m.q 4,marked.greatest.1,high⟩

theorem Warm.between {m : P2} (warm : m.Warm samples) (some : samples ≠ []) (few : m.count ≤ 5) : m.Between samples := by
  have positive : 0 < m.count := by
    rw [warm.count]
    exact Int.natCast_pos.mpr (List.length_pos_of_ne_nil some)
  obtain ⟨y,member,known⟩ := value_mem positive few
  rw [warm.heights] at member
  exact ⟨y,known,⟨y,member,le_refl _⟩,y,member,le_refl _⟩

theorem run_append (p : ℚ) (samples : List ℚ) (x : ℚ) : run p (samples++[x]) = (run p samples).bind (fun m => m.add x) := by
  unfold run
  rw [List.foldlM_append]
  cases samples.foldlM add (fresh p) with
  | none => rfl
  | some m =>
    change (m.add x).bind some = m.add x
    exact Option.bind_fun_some _

-- Either the samples are still being gathered or the markers stand.
theorem run_known (p : ℚ) (samples : List ℚ) (fits : samples.length ≤ intMax) :
    ∃ m, run p samples = some m ∧ (m.count < 5 ∧ m.Warm samples ∨ 5 ≤ m.count ∧ m.Marked samples) := by
  induction samples using List.reverseRecOn with
  | nil => exact ⟨fresh p,rfl,.inl ⟨by change (0 : Int) < 5; omega,rfl,rfl⟩⟩
  | append_singleton samples x ih =>
    rw [List.length_append,List.length_singleton] at fits
    push_cast at fits
    obtain ⟨m,before,known⟩ := ih (by omega)
    rw [run_append,before]
    rcases known with ⟨few,warm⟩ | ⟨many,marked⟩
    · have grown := warm.grown few x
      have natural : 0 ≤ m.count := warm.count ▸ Int.natCast_nonneg _
      have next : int32 (m.count+1) = m.count+1 := int32_next natural (by unfold intMax; omega)
      change ∃ u, m.add x = some u ∧ _
      unfold add
      rw [if_neg (by omega),if_pos few]
      simp only
      by_cases fifth : int32 (m.count+1) = 5
      · rw [if_pos fifth]
        exact ⟨_,rfl,.inr ⟨le_of_eq fifth.symm,grown.begun fifth⟩⟩
      · rw [if_neg fifth]
        exact ⟨_,rfl,.inl ⟨by change int32 (m.count+1) < 5; omega,grown⟩⟩
    · obtain ⟨u,known,added⟩ := marked.add many x
      have counted := marked.counted
      have stands := added.marked counted (by omega)
      have more := stands.counted
      rw [List.length_append,List.length_singleton] at more
      push_cast at more
      exact ⟨u,known,.inr ⟨by omega,stands⟩⟩

-- The sample past the last int carries the count below zero, where no sample
-- can follow it.
theorem run_full (p : ℚ) {samples : List ℚ} (full : samples.length = intMax) (x : ℚ) :
    ∃ m, run p (samples++[x]) = some m ∧ m.n 4 = intMax+1 ∧ m.count = -intMax-1 ∧ ∀ y, m.add y = none := by
  obtain ⟨m,before,⟨few,warm⟩ | ⟨many,marked⟩⟩ := run_known p samples (le_of_eq full)
  · have counted := warm.count
    unfold intMax at full
    omega
  · obtain ⟨u,known,added⟩ := marked.add many x
    have counted : m.count = intMax := marked.counted.trans full
    have wrapped : u.count = -intMax-1 := by
      rw [added.count,counted]
      decide
    refine ⟨u,?_,?_,wrapped,?_⟩
    · rw [run_append,before]
      exact known
    · rw [added.last,counted]
    · intro y
      unfold add
      exact if_pos (by rw [wrapped]; decide)

theorem run_past (p : ℚ) (samples : List ℚ) (past : intMax < samples.length) (ran : run p samples = some m) : m.count < 0 := by
  induction samples using List.reverseRecOn generalizing m with
  | nil => exact absurd past (by decide)
  | append_singleton samples x ih =>
    rw [List.length_append,List.length_singleton] at past
    push_cast at past
    by_cases full : (samples.length : Int) = intMax
    · obtain ⟨u,known,_,wrapped,_⟩ := run_full p full x
      rw [ran] at known
      obtain rfl := Option.some.inj known
      rw [wrapped]
      decide
    · rw [run_append] at ran
      obtain ⟨u,before,added⟩ := Option.bind_eq_some_iff.mp ran
      have below := ih (by omega) before
      unfold add at added
      rw [if_pos below] at added
      cases added

end P2

-- After every sample of every sequence that `count` can count, and of no longer
-- one: no division has failed, from the fifth sample on the markers stand, and
-- the value lies among the samples.
theorem p2_marked (p : ℚ) {samples : List ℚ} (sampled : samples ≠ []) :
    (∃ m, P2.run p samples = some m ∧ m.Between samples ∧ (5 ≤ samples.length → m.Marked samples)) ↔
      samples.length ≤ intMax := by
  constructor
  · intro ⟨m,ran,_,stands⟩
    by_contra past
    rw [not_le] at past
    have below := P2.run_past p samples past ran
    have counted := (stands (by unfold intMax at past; omega)).counted
    omega
  · intro fits
    obtain ⟨m,ran,⟨few,warm⟩ | ⟨many,marked⟩⟩ := P2.run_known p samples fits
    · refine ⟨m,ran,warm.between sampled (by omega),?_⟩
      intro enough
      have counted := warm.count
      omega
    · exact ⟨m,ran,marked.between many,fun _ => marked⟩

-- Ties among the first five, then a new greatest and a new least sample.
theorem p2_marked_ties :
    ∃ m, P2.run (19/20) [2,2,1,2,3,9,0] = some m ∧ m.Between [2,2,1,2,3,9,0] ∧ m.Marked [2,2,1,2,3,9,0] := by
  obtain ⟨m,ran,between,stands⟩ := (p2_marked (19/20) (show [2,2,1,2,3,9,0] ≠ ([] : List ℚ) from nofun)).mpr (by decide)
  exact ⟨m,ran,between,stands (by decide)⟩

-- The 2^31st sample: the last marker stands at 2^31 and `count` at -2^31, and
-- the next sample is written outside `q`.
theorem p2_count_wraps :
    ∃ m, P2.run (1/2) (List.replicate 2147483648 0) = some m ∧ m.n 4 = 2147483648 ∧ m.count = -2147483648 ∧
      ¬m.Marked (List.replicate 2147483648 0) ∧ ∀ x, m.add x = none := by
  have full : ((List.replicate 2147483647 (0 : ℚ)).length : Int) = intMax := by
    rw [List.length_replicate]
    rfl
  obtain ⟨m,ran,last,count,next⟩ := P2.run_full (1/2) full 0
  rw [← List.replicate_succ'] at ran
  refine ⟨m,ran,?_,count,?_,next⟩
  · rw [last]
    norm_num [intMax]
  · intro marked
    have counted := marked.counted
    rw [count] at counted
    exact absurd counted (by unfold intMax; omega)

end Macrame

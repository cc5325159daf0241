import Macrame.ColoredSolve
import Mathlib.Data.List.Count
import Mathlib.Data.List.Perm.Basic

namespace Macrame.Cloth
open Machines Turns ColoredSolve

-- `rest` is a `float`.
structure Constraint (ν : Type) where
  a : Nat
  b : Nat
  rest : ν

namespace Constraint

def touches (c : Constraint ν) (p : Nat) : Bool := p == c.a || p == c.b

end Constraint

-- The first color from this one on that is not in `taken`, of as many as are left.
def freeColor (taken : BitVec 32) : Nat → Nat → Nat
  | 0,color => color
  | left+1,color => if taken &&& 1#32 <<< color ≠ 0 then freeColor taken left (color+1) else color

def mark (used : List (BitVec 32)) (p color : Nat) : List (BitVec 32) := used.set p (used.getD p 0 ||| 1#32 <<< color)

-- `used` and `bands` of `color_constraints`.
structure Painting where
  used : List (BitVec 32)
  bands : List (List Nat)

-- A constraint that needs a 33rd color is fatal.
def paint (s : Painting) (c : Constraint ν) (ci : Nat) : Option Painting :=
  let taken := s.used.getD c.a 0 ||| s.used.getD c.b 0
  let color := freeColor taken 32 0
  if 32 ≤ color then none
  else
    let bands := if s.bands.length ≤ color then s.bands++List.replicate (color+1-s.bands.length) [] else s.bands
    some ⟨mark (mark s.used c.a color) c.b color,bands.modify color (·++[ci])⟩

def paintFrom (s : Painting) : List (Constraint ν) → Nat → Option Painting
  | [],_ => some s
  | c :: rest,ci => (paint s c ci).bind (paintFrom · rest (ci+1))

-- The loop goes up to `static_cast<int>(cs.size())`.
def colorConstraints (cs : List (Constraint ν)) (particleCount : Nat) : Option (List (List Nat)) :=
  (paintFrom ⟨List.replicate particleCount 0,[]⟩ (cs.take (int32 cs.length).toNat) 0).map Painting.bands

-- The inner loop of `coloring_valid`, which leaves it with `false`.
def checkBand (cs : List (Constraint ν)) (b : Int) : List Nat → List Int → Option (List Int)
  | [],last => some last
  | ci :: rest,last =>
    match cs[ci]? with
    | none => none
    | some c =>
      if last.getD c.a (-1) = b ∨ last.getD c.b (-1) = b then none
      else checkBand cs b rest ((last.set c.a b).set c.b b)

def checkBands (cs : List (Constraint ν)) : Int → List (List Nat) → List Int → Bool
  | _,[],_ => true
  | b,band :: rest,last =>
    match checkBand cs b band last with
    | none => false
    | some last => checkBands cs (b+1) rest last

def coloringValid (bands : List (List Nat)) (cs : List (Constraint ν)) (particleCount : Nat) : Bool :=
  checkBands cs 0 bands (List.replicate particleCount (-1))

def InRange (cs : List (Constraint ν)) (particleCount : Nat) : Prop := ∀ c ∈ cs, c.a < particleCount ∧ c.b < particleCount

def Touches (cs : List (Constraint ν)) (i p : Nat) : Prop := ∃ c, cs[i]? = some c ∧ c.touches p = true

-- No particle is in both.
def Clear (cs : List (Constraint ν)) (i j : Nat) : Prop := ∀ p, ¬ (Touches cs i p ∧ Touches cs j p)

theorem touches_iff (c : Constraint ν) (p : Nat) : c.touches p = true ↔ p = c.a ∨ p = c.b := by
  simp [Constraint.touches]

section Masks

theorem bit_iff (mask : BitVec 32) (color : Nat) : mask &&& 1#32 <<< color ≠ 0 ↔ mask.getLsbD color = true := by
  rw [← BitVec.twoPow_eq,BitVec.and_twoPow]
  cases bit : mask.getLsbD color with
  | false => exact iff_of_false (fun some => some rfl) nofun
  | true =>
    refine iff_of_true ?_ rfl
    have small := BitVec.lt_of_getLsbD bit
    intro zero
    have one : (BitVec.twoPow 32 color).getLsbD color = true := by
      rw [BitVec.getLsbD_twoPow]
      simpa using small
    rw [if_pos rfl] at zero
    rw [zero] at one
    simp at one

theorem freeColor_spec (taken : BitVec 32) (left color : Nat) :
    color ≤ freeColor taken left color ∧ freeColor taken left color ≤ color+left ∧
      (∀ k, color ≤ k → k < freeColor taken left color → taken.getLsbD k = true) ∧
      (freeColor taken left color < color+left → taken.getLsbD (freeColor taken left color) = false) := by
  induction left generalizing color with
  | zero =>
    refine ⟨Nat.le_refl _,Nat.le_refl _,?_,?_⟩
    · intro k low high
      exact absurd high (Nat.not_lt.mpr low)
    · intro less
      exact absurd less (Nat.lt_irrefl _)
  | succ left ih =>
    unfold freeColor
    split
    · rename_i set
      obtain ⟨low,high,every,last⟩ := ih (color+1)
      refine ⟨by omega,by omega,?_,?_⟩
      · intro k above below
        by_cases here : k = color
        · rw [here]
          exact (bit_iff taken color).mp set
        · exact every k (by omega) below
      · intro less
        exact last (by omega)
    · rename_i unset
      refine ⟨Nat.le_refl _,by omega,?_,?_⟩
      · intro k low high
        exact absurd high (Nat.not_lt.mpr low)
      · intro _
        rw [bit_iff] at unset
        exact Bool.eq_false_iff.mpr unset

-- How many colors a mask holds.
def colors (mask : BitVec 32) : Nat := (List.range 32).countP (fun k => mask.getLsbD k)

theorem countP_or (list : List α) (p q : α → Bool) : list.countP (fun x => p x || q x) ≤ list.countP p+list.countP q := by
  induction list with
  | nil => exact Nat.le_refl _
  | cons x rest ih =>
    rw [List.countP_cons,List.countP_cons,List.countP_cons]
    cases p x <;> cases q x <;> simp <;> omega

theorem colors_or (one two : BitVec 32) : colors (one ||| two) ≤ colors one+colors two := by
  unfold colors
  simp only [BitVec.getLsbD_or]
  exact countP_or _ _ _

theorem colors_mark (mask : BitVec 32) (color : Nat) : colors (mask ||| 1#32 <<< color) ≤ colors mask+1 := by
  refine Nat.le_trans (colors_or mask _) (Nat.add_le_add_left ?_ _)
  unfold colors
  rw [← BitVec.twoPow_eq]
  simp only [BitVec.getLsbD_twoPow]
  refine Nat.le_trans (List.countP_mono_left (q := (· == color)) ?_) ?_
  · intro k _ both
    simp only [Bool.and_eq_true,decide_eq_true_eq] at both
    simp [both.2]
  · exact List.nodup_iff_count_le_one.mp List.nodup_range color

-- A color that is free above colors that are not takes as many of the mask.
theorem free_le_colors (taken : BitVec 32) : freeColor taken 32 0 ≤ colors taken := by
  obtain ⟨-,high,every,-⟩ := freeColor_spec taken 32 0
  have all : (List.range (freeColor taken 32 0)).countP (fun k => taken.getLsbD k) = freeColor taken 32 0 := by
    have whole := List.countP_eq_length.mpr (fun k inside => every k (Nat.zero_le _) (List.mem_range.mp inside))
    rwa [List.length_range] at whole
  have part : (List.range (freeColor taken 32 0)).Sublist (List.range 32) := List.range_sublist.mpr (by omega)
  calc freeColor taken 32 0 = (List.range (freeColor taken 32 0)).countP (fun k => taken.getLsbD k) := all.symm
    _ ≤ colors taken := part.countP_le

end Masks

section Marks

theorem getD_set (list : List α) (i j : Nat) (value default : α) :
    (list.set i value).getD j default = if i = j ∧ i < list.length then value else list.getD j default := by
  rw [List.getD_eq_getElem?_getD,List.getD_eq_getElem?_getD,List.getElem?_set]
  by_cases here : i = j
  · rw [if_pos here]
    by_cases inside : i < list.length
    · rw [if_pos inside,if_pos ⟨here,inside⟩]
      rfl
    · rw [if_neg inside,if_neg (fun both => inside both.2),← here,List.getElem?_eq_none (Nat.not_lt.mp inside)]
  · rw [if_neg here,if_neg (fun both => here both.1)]

theorem mark_length (used : List (BitVec 32)) (p color : Nat) : (mark used p color).length = used.length := List.length_set

-- The two masks of a constraint take its color, the others are as they were.
theorem marked (used : List (BitVec 32)) (c : Constraint ν) (color p : Nat) (a : c.a < used.length) (b : c.b < used.length) :
    (mark (mark used c.a color) c.b color).getD p 0 =
      if c.touches p then used.getD p 0 ||| 1#32 <<< color else used.getD p 0 := by
  have twice : ∀ mask : BitVec 32, mask ||| 1#32 <<< color ||| 1#32 <<< color = mask ||| 1#32 <<< color := by
    intro mask
    rw [BitVec.or_assoc,BitVec.or_self]
  have here := touches_iff c p
  unfold mark
  rw [getD_set,getD_set,getD_set,List.length_set]
  by_cases first : c.a = p
  · rw [if_pos (here.mpr (.inl first.symm))]
    by_cases second : c.b = p
    · rw [if_pos ⟨second,b⟩,if_pos ⟨first.trans second.symm,a⟩,first,twice]
    · rw [if_neg (fun both => second both.1),if_pos ⟨first,a⟩,first]
  · by_cases second : c.b = p
    · rw [if_pos (here.mpr (.inr second.symm)),if_pos ⟨second,b⟩,if_neg (fun both => first (both.1.trans second)),second]
    · rw [if_neg (fun both => second both.1),if_neg (fun both => first both.1),if_neg]
      intro touched
      rcases here.mp touched with same | same
      · exact first same.symm
      · exact second same.symm

end Marks

section Greedy

variable {done : List (Constraint ν)} {c : Constraint ν} {s t : Painting} {n : Nat}

-- Of the constraints so far every one has a band, no two of a band share a
-- particle, and a mask holds the bands that its particle is in.
structure Painted (particleCount : Nat) (done : List (Constraint ν)) (s : Painting) : Prop where
  size : s.used.length = particleCount
  members : s.bands.flatten.Perm (List.range done.length)
  clear : ∀ band ∈ s.bands, band.Pairwise (Clear done)
  bits : ∀ p, p < particleCount → ∀ k : Nat, (s.used.getD p 0).getLsbD k = true ↔ ∃ i ∈ s.bands.getD k [], Touches done i p
  counts : ∀ p, p < particleCount → colors (s.used.getD p 0) ≤ done.countP (·.touches p)
  some : ∀ band ∈ s.bands, band ≠ []
  most : s.bands.length ≤ 32
  few : ∀ d, (∀ p, done.countP (·.touches p) ≤ d) → s.bands.length ≤ 2*d-1

theorem touches_snoc (done : List (Constraint ν)) (c : Constraint ν) (i p : Nat) :
    Touches (done++[c]) i p ↔ Touches done i p ∨ i = done.length ∧ c.touches p = true := by
  unfold Touches
  rw [List.getElem?_append]
  by_cases inside : i < done.length
  · rw [if_pos inside]
    exact ⟨.inl,fun either => either.resolve_right (fun last => by omega)⟩
  · rw [if_neg inside,List.getElem?_eq_none (Nat.not_lt.mp inside)]
    by_cases last : i = done.length
    · rw [last,Nat.sub_self]
      exact ⟨fun ⟨_,here,touched⟩ => .inr ⟨rfl,by cases here; exact touched⟩,
        fun either => ⟨c,rfl,(either.resolve_left (by rintro ⟨_,none,_⟩; cases none)).2⟩⟩
    · rw [List.getElem?_eq_none (by simp; omega)]
      exact iff_of_false (by rintro ⟨_,none,_⟩; cases none) (by rintro (⟨_,none,_⟩ | same); cases none; exact last same.1)

theorem Painted.below (painted : Painted n done s) (member : band ∈ s.bands) (inside : i ∈ band) : i < done.length := by
  have listed : i ∈ s.bands.flatten := List.mem_flatten.mpr ⟨band,member,inside⟩
  exact List.mem_range.mp (painted.members.mem_iff.mp listed)

theorem mem_getD {bands : List (List Nat)} (member : i ∈ bands.getD k []) : bands.getD k [] ∈ bands ∧ k < bands.length := by
  rw [List.getD_eq_getElem?_getD] at member ⊢
  by_cases inside : k < bands.length
  · rw [List.getElem?_eq_getElem inside]
    exact ⟨List.getElem_mem inside,inside⟩
  · rw [List.getElem?_eq_none (Nat.not_lt.mp inside)] at member
    cases member

-- The bands after one more constraint: band `color`, which may be new, has it last.
theorem bands_extended (s : Painting) (ci color : Nat) (next : color ≤ s.bands.length) :
    let bands := if s.bands.length ≤ color then s.bands++List.replicate (color+1-s.bands.length) [] else s.bands
    (bands.modify color (·++[ci])).length = max s.bands.length (color+1) ∧
      (∀ k, (bands.modify color (·++[ci])).getD k [] = if k = color then s.bands.getD color []++[ci] else s.bands.getD k []) ∧
      (bands.modify color (·++[ci])).flatten.Perm (s.bands.flatten++[ci]) := by
  dsimp only
  by_cases old : color < s.bands.length
  · rw [if_neg (Nat.not_le.mpr old)]
    refine ⟨by rw [List.length_modify]; omega,?_,?_⟩
    · intro k
      rw [List.getD_eq_getElem?_getD,List.getElem?_modify]
      by_cases here : k = color
      · rw [if_pos here,here,List.getD_eq_getElem?_getD,List.getElem?_eq_getElem old]
        simp
      · have other : ¬ color = k := fun same => here same.symm
        rw [if_neg here,List.getD_eq_getElem?_getD]
        simp [other]
    · have split : s.bands = s.bands.take color++s.bands[color] :: s.bands.drop (color+1) := by
        rw [List.getElem_cons_drop,List.take_append_drop]
      rw [List.modify_eq_take_cons_drop old,List.flatten_append,List.flatten_cons]
      conv_rhs => rw [split,List.flatten_append,List.flatten_cons]
      rw [List.append_assoc,List.append_assoc,List.append_assoc]
      exact List.Perm.append_left _ (List.Perm.append_left _ List.perm_append_comm)
  · have exact_ : color = s.bands.length := by omega
    subst exact_
    rw [if_pos (Nat.le_refl _),show s.bands.length+1-s.bands.length = 1 by omega,List.replicate_one]
    have whole : (s.bands++[[]]).modify s.bands.length (·++[ci]) = s.bands++[[ci]] := by
      rw [List.modify_eq_take_cons_drop (by simp)]
      simp
    rw [whole]
    refine ⟨by simp,?_,by simp⟩
    intro k
    rw [List.getD_eq_getElem?_getD,List.getElem?_append]
    by_cases here : k = s.bands.length
    · rw [if_pos here,here,if_neg (Nat.lt_irrefl _),Nat.sub_self,List.getD_eq_getElem?_getD,
        List.getElem?_eq_none (Nat.le_refl _)]
      rfl
    · rw [if_neg here,List.getD_eq_getElem?_getD]
      by_cases inside : k < s.bands.length
      · rw [if_pos inside]
      · rw [if_neg inside,List.getElem?_eq_none (by simp; omega),List.getElem?_eq_none (Nat.not_lt.mp inside)]

-- A constraint's color is at most the number of constraints that share its particles.
theorem Painted.color_le (painted : Painted n done s) (a : c.a < n) (b : c.b < n) :
    freeColor (s.used.getD c.a 0 ||| s.used.getD c.b 0) 32 0 ≤ done.countP (·.touches c.a)+done.countP (·.touches c.b) :=
  calc freeColor (s.used.getD c.a 0 ||| s.used.getD c.b 0) 32 0 ≤ colors (s.used.getD c.a 0 ||| s.used.getD c.b 0) := free_le_colors _
    _ ≤ colors (s.used.getD c.a 0)+colors (s.used.getD c.b 0) := colors_or _ _
    _ ≤ _ := Nat.add_le_add (painted.counts c.a a) (painted.counts c.b b)

theorem countP_snoc (done : List (Constraint ν)) (c : Constraint ν) (p : Nat) :
    (done++[c]).countP (·.touches p) = done.countP (·.touches p)+if c.touches p then 1 else 0 := by
  rw [List.countP_append,List.countP_singleton]

theorem Painted.paint (painted : Painted n done s) (a : c.a < n) (b : c.b < n) (painting : Cloth.paint s c done.length = .some t) :
    Painted n (done++[c]) t := by
  have taken := freeColor_spec (s.used.getD c.a 0 ||| s.used.getD c.b 0) 32 0
  have degree := painted.color_le (c := c) a b
  unfold Cloth.paint at painting
  dsimp only at painting
  generalize freeColor (s.used.getD c.a 0 ||| s.used.getD c.b 0) 32 0 = color at painting taken degree
  obtain ⟨-,-,every,free⟩ := taken
  split at painting
  · cases painting
  rename_i under
  -- the colors below are of bands that exist
  have next : color ≤ s.bands.length := by
    cases color with
    | zero => exact Nat.zero_le _
    | succ k =>
      have set := every k (Nat.zero_le _) (Nat.lt_succ_self _)
      rw [BitVec.getLsbD_or,Bool.or_eq_true] at set
      rcases set with set | set
      · obtain ⟨i,member,-⟩ := (painted.bits c.a a k).mp set
        exact (mem_getD member).2
      · obtain ⟨i,member,-⟩ := (painted.bits c.b b k).mp set
        exact (mem_getD member).2
  have unset := free (by omega)
  rw [BitVec.getLsbD_or,Bool.or_eq_false_iff] at unset
  obtain ⟨length,at_,members⟩ := bands_extended s done.length color next
  generalize (if s.bands.length ≤ color then s.bands++List.replicate (color+1-s.bands.length) [] else s.bands).modify color
    (·++[done.length]) = bands at painting length at_ members
  cases painting
  -- a band of the new list, by its place
  have placed : ∀ band ∈ bands, ∃ k, k < bands.length ∧ band = bands.getD k [] := by
    intro band member
    obtain ⟨k,inside,same⟩ := List.getElem_of_mem member
    exact ⟨k,inside,by rw [List.getD_eq_getElem?_getD,List.getElem?_eq_getElem inside,← same]; rfl⟩
  have older : ∀ k, k < s.bands.length → s.bands.getD k [] ∈ s.bands := by
    intro k inside
    rw [List.getD_eq_getElem?_getD,List.getElem?_eq_getElem inside]
    exact List.getElem_mem inside
  have oldPairs : ∀ k, (s.bands.getD k []).Pairwise (Clear (done++[c])) := by
    intro k
    by_cases inside : k < s.bands.length
    · refine (painted.clear _ (older k inside)).imp_of_mem ?_
      intro i j one two clear p both
      have first := painted.below (older k inside) one
      have second := painted.below (older k inside) two
      rw [touches_snoc,touches_snoc] at both
      exact clear p ⟨both.1.resolve_right (fun last => by omega),both.2.resolve_right (fun last => by omega)⟩
    · rw [List.getD_eq_getElem?_getD,List.getElem?_eq_none (Nat.not_lt.mp inside)]
      exact .nil
  refine ⟨?_,?_,?_,?_,?_,?_,?_,?_⟩
  · rw [mark_length,mark_length]
    exact painted.size
  · rw [List.length_append,List.length_singleton,List.range_succ]
    exact members.trans (painted.members.append_right _)
  · intro band member
    obtain ⟨k,-,rfl⟩ := placed band member
    rw [at_]
    split
    · refine List.pairwise_append.mpr ⟨oldPairs color,List.pairwise_singleton _ _,?_⟩
      intro i one j two p both
      rw [List.mem_singleton.mp two] at both
      obtain ⟨listed,-⟩ := mem_getD one
      have before := painted.below listed one
      rw [touches_snoc,touches_snoc] at both
      have first := both.1.resolve_right (fun last => by omega)
      have fresh : ¬ Touches done done.length p := by
        rintro ⟨_,none,_⟩
        rw [List.getElem?_eq_none (Nat.le_refl _)] at none
        cases none
      rcases (touches_iff c p).mp (both.2.resolve_left fresh).2 with same | same
      · have set := (painted.bits c.a a color).mpr ⟨i,one,same ▸ first⟩
        rw [unset.1] at set
        cases set
      · have set := (painted.bits c.b b color).mpr ⟨i,one,same ▸ first⟩
        rw [unset.2] at set
        cases set
    · exact oldPairs k
  · intro p inside k
    have small : color < 32 := by omega
    have carried : (∃ i ∈ s.bands.getD k [], Touches (done++[c]) i p) ↔ ∃ i ∈ s.bands.getD k [], Touches done i p := by
      refine exists_congr (fun i => and_congr_right (fun member => ?_))
      rw [touches_snoc]
      have before := painted.below (mem_getD member).1 member
      exact ⟨fun either => either.resolve_right (fun last => by omega),.inl⟩
    have new : Touches (done++[c]) done.length p ↔ c.touches p = true := by
      rw [touches_snoc]
      refine ⟨fun either => (either.resolve_left ?_).2,fun touched => .inr ⟨rfl,touched⟩⟩
      rintro ⟨_,none,_⟩
      rw [List.getElem?_eq_none (Nat.le_refl _)] at none
      cases none
    rw [marked s.used c color p (painted.size ▸ a) (painted.size ▸ b),at_]
    have bit : (s.used.getD p 0 ||| 1#32 <<< color).getLsbD k = true ↔ (s.used.getD p 0).getLsbD k = true ∨ k = color := by
      rw [← BitVec.twoPow_eq,BitVec.getLsbD_or,BitVec.getLsbD_twoPow,Bool.or_eq_true,Bool.and_eq_true,decide_eq_true_eq,
        decide_eq_true_eq]
      exact or_congr_right ⟨fun both => both.2.symm,fun same => ⟨small,same.symm⟩⟩
    by_cases here : k = color
    · rw [if_pos here]
      subst here
      simp only [List.mem_append,List.mem_singleton,or_and_right,exists_or,exists_eq_left]
      rw [carried,new,← painted.bits p inside k]
      by_cases touched : c.touches p = true
      · rw [if_pos touched,bit]
        exact iff_of_true (.inr rfl) (.inr touched)
      · rw [if_neg touched]
        exact ⟨.inl,fun either => either.resolve_right touched⟩
    · rw [if_neg here,carried,← painted.bits p inside k]
      split
      · rw [bit]
        exact ⟨fun either => either.resolve_right here,.inl⟩
      · rfl
  · intro p inside
    rw [marked s.used c color p (painted.size ▸ a) (painted.size ▸ b),countP_snoc]
    have before := painted.counts p inside
    split
    · exact Nat.le_trans (colors_mark _ color) (Nat.add_le_add_right before 1)
    · exact before
  · intro band member
    obtain ⟨k,inside,rfl⟩ := placed band member
    rw [at_]
    split
    · exact List.append_ne_nil_of_right_ne_nil _ (List.cons_ne_nil _ _)
    · exact painted.some _ (older k (by omega))
  · have most := painted.most
    dsimp only
    omega
  · intro d bound
    have older : ∀ p, done.countP (·.touches p) ≤ d := by
      intro p
      have now := bound p
      rw [countP_snoc] at now
      omega
    have before := painted.few d older
    -- the constraint itself is one of those at each of its particles
    have one := bound c.a
    have two := bound c.b
    rw [countP_snoc,if_pos ((touches_iff c c.a).mpr (.inl rfl))] at one
    rw [countP_snoc,if_pos ((touches_iff c c.b).mpr (.inr rfl))] at two
    dsimp only
    omega

-- While no particle is in too many constraints there is a color to take.
theorem Painted.paints (painted : Painted n done s) (a : c.a < n) (b : c.b < n)
    (light : ∀ p, (done++[c]).countP (·.touches p) ≤ 16) : ∃ t, Cloth.paint s c done.length = .some t := by
  have degree := painted.color_le (c := c) a b
  have one := light c.a
  have two := light c.b
  rw [countP_snoc,if_pos ((touches_iff c c.a).mpr (.inl rfl))] at one
  rw [countP_snoc,if_pos ((touches_iff c c.b).mpr (.inr rfl))] at two
  unfold Cloth.paint
  dsimp only
  rw [if_neg (by omega)]
  exact ⟨_,rfl⟩

theorem paintFrom_painted (rest : List (Constraint ν)) (inside : InRange rest n) (painted : Painted n done s)
    (painting : paintFrom s rest done.length = .some t) : Painted n (done++rest) t := by
  induction rest generalizing done s with
  | nil =>
    cases painting
    rw [List.append_nil]
    exact painted
  | cons c rest ih =>
    obtain ⟨middle,first,later⟩ := Option.bind_eq_some_iff.mp painting
    obtain ⟨a,b⟩ := inside c List.mem_cons_self
    have next := ih (fun c member => inside c (List.mem_cons_of_mem _ member)) (painted.paint a b first)
      (by rw [List.length_append]; exact later)
    rwa [List.append_assoc] at next

theorem paintFrom_light (rest : List (Constraint ν)) (inside : InRange rest n) (painted : Painted n done s)
    (light : ∀ p, (done++rest).countP (·.touches p) ≤ 16) : ∃ t, paintFrom s rest done.length = .some t := by
  induction rest generalizing done s with
  | nil => exact ⟨s,rfl⟩
  | cons c rest ih =>
    obtain ⟨a,b⟩ := inside c List.mem_cons_self
    obtain ⟨middle,first⟩ := painted.paints a b (fun p => by
      have all := light p
      rw [List.append_cons,List.countP_append] at all
      omega)
    obtain ⟨t,later⟩ := ih (fun c member => inside c (List.mem_cons_of_mem _ member)) (painted.paint a b first)
      (by rw [List.append_assoc]; exact light)
    rw [List.length_append] at later
    exact ⟨t,Option.bind_eq_some_iff.mpr ⟨middle,first,later⟩⟩

theorem initial_painted (n : Nat) : Painted n ([] : List (Constraint ν)) ⟨List.replicate n 0,[]⟩ := by
  have zero : ∀ p, (List.replicate n (0 : BitVec 32)).getD p 0 = 0 := by
    intro p
    rw [List.getD_eq_getElem?_getD,List.getElem?_replicate]
    split <;> rfl
  refine ⟨List.length_replicate,.nil,nofun,?_,?_,nofun,Nat.zero_le _,fun _ _ => Nat.zero_le _⟩
  · intro p _ k
    dsimp only
    rw [zero]
    exact iff_of_false (by simp) (by rintro ⟨_,none,_⟩; cases none)
  · intro p _
    dsimp only
    rw [zero]
    exact Nat.le_of_eq (List.countP_eq_zero.mpr (by simp))

end Greedy

section Check

variable {cs : List (Constraint ν)} {last : List Int} {seen band : List Nat} {b : Int} {n : Nat}

-- What `last_band` says while band `b` is checked and `seen` is the part of it done.
structure Seen (cs : List (Constraint ν)) (n : Nat) (b : Int) (seen : List Nat) (last : List Int) : Prop where
  size : last.length = n
  at_ : ∀ p, p < n → (last.getD p (-1) = b ↔ ∃ i ∈ seen, Touches cs i p)
  under : ∀ p, p < n → last.getD p (-1) ≤ b

theorem Seen.next (before : Seen cs n b seen last) : Seen cs n (b+1) [] last := by
  refine ⟨before.size,?_,?_⟩
  · intro p inside
    have bound := before.under p inside
    exact iff_of_false (by omega) (by rintro ⟨_,none,_⟩; cases none)
  · intro p inside
    have bound := before.under p inside
    omega

theorem Seen.more (before : Seen cs n b seen last) (here : cs[ci]? = some c) (a : c.a < n) (other : c.b < n) :
    Seen cs n b (seen++[ci]) ((last.set c.a b).set c.b b) := by
  have after : ∀ p, ((last.set c.a b).set c.b b).getD p (-1) = if c.touches p then b else last.getD p (-1) := by
    intro p
    rw [getD_set,getD_set,List.length_set,before.size]
    by_cases second : c.b = p
    · rw [if_pos ⟨second,other⟩,if_pos ((touches_iff c p).mpr (.inr second.symm))]
    · rw [if_neg (fun both => second both.1)]
      by_cases first : c.a = p
      · rw [if_pos ⟨first,a⟩,if_pos ((touches_iff c p).mpr (.inl first.symm))]
      · rw [if_neg (fun both => first both.1),if_neg]
        intro touched
        rcases (touches_iff c p).mp touched with same | same
        · exact first same.symm
        · exact second same.symm
  have mine : ∀ p, Touches cs ci p ↔ c.touches p = true := by
    intro p
    unfold Touches
    rw [here]
    exact ⟨fun ⟨_,same,touched⟩ => by cases same; exact touched,fun touched => ⟨c,rfl,touched⟩⟩
  refine ⟨by rw [List.length_set,List.length_set]; exact before.size,?_,?_⟩
  · intro p inside
    rw [after]
    simp only [List.mem_append,List.mem_singleton,or_and_right,exists_or,exists_eq_left]
    rw [mine,← before.at_ p inside]
    by_cases touched : c.touches p = true
    · rw [if_pos touched]
      exact iff_of_true rfl (.inr touched)
    · rw [if_neg touched]
      exact ⟨.inl,fun either => either.resolve_right touched⟩
  · intro p inside
    rw [after]
    split
    · exact Int.le_refl b
    · exact before.under p inside

-- The check of a band goes through where no two of its constraints, and none of it
-- and of what came before it, share a particle.
theorem checkBand_iff (inside : InRange cs n) (known : ∀ i ∈ band, i < cs.length) (before : Seen cs n b seen last) :
    (∀ next, checkBand cs b band last = some next → Seen cs n b (seen++band) next) ∧
      ((checkBand cs b band last).isSome = true ↔ band.Pairwise (Clear cs) ∧ ∀ i ∈ seen, ∀ j ∈ band, Clear cs i j) := by
  induction band generalizing seen last with
  | nil =>
    refine ⟨?_,iff_of_true rfl ⟨.nil,fun _ _ _ none => by cases none⟩⟩
    intro next same
    cases same
    rw [List.append_nil]
    exact before
  | cons ci rest ih =>
    have place := known ci List.mem_cons_self
    have here : cs[ci]? = some cs[ci] := List.getElem?_eq_getElem place
    obtain ⟨a,other⟩ := inside cs[ci] (List.getElem_mem place)
    have shared : (last.getD cs[ci].a (-1) = b ∨ last.getD cs[ci].b (-1) = b) ↔ ∃ i ∈ seen, ¬ Clear cs i ci := by
      rw [before.at_ _ a,before.at_ _ other]
      constructor
      · intro either
        have some : ∃ i ∈ seen, ∃ p, Touches cs i p ∧ cs[ci].touches p = true := by
          rcases either with ⟨i,member,touches⟩ | ⟨i,member,touches⟩
          · exact ⟨i,member,cs[ci].a,touches,(touches_iff _ _).mpr (.inl rfl)⟩
          · exact ⟨i,member,cs[ci].b,touches,(touches_iff _ _).mpr (.inr rfl)⟩
        obtain ⟨i,member,p,touches,touched⟩ := some
        exact ⟨i,member,fun clear => clear p ⟨touches,cs[ci],here,touched⟩⟩
      · rintro ⟨i,member,shared⟩
        unfold Clear at shared
        obtain ⟨p,both⟩ := not_forall.mp shared
        obtain ⟨mine,c,same,touched⟩ := not_not.mp both
        rw [here] at same
        cases same
        rcases (touches_iff _ _).mp touched with spot | spot
        · exact .inl ⟨i,member,spot ▸ mine⟩
        · exact .inr ⟨i,member,spot ▸ mine⟩
    unfold checkBand
    rw [here]
    dsimp only
    by_cases taken : last.getD cs[ci].a (-1) = b ∨ last.getD cs[ci].b (-1) = b
    · rw [if_pos taken]
      refine ⟨nofun,iff_of_false nofun ?_⟩
      rintro ⟨-,clear⟩
      obtain ⟨i,member,shared⟩ := shared.mp taken
      exact shared (clear i member ci List.mem_cons_self)
    · rw [if_neg taken]
      obtain ⟨kept,goes⟩ := ih (fun i member => known i (List.mem_cons_of_mem _ member)) (before.more here a other)
      refine ⟨?_,goes.trans ?_⟩
      · intro next same
        have after := kept next same
        rwa [List.append_assoc] at after
      · rw [List.pairwise_cons]
        have free : ∀ i ∈ seen, Clear cs i ci := fun i member => by
          by_contra not_
          exact taken (shared.mpr ⟨i,member,not_⟩)
        constructor
        · rintro ⟨pairs,across⟩
          refine ⟨⟨fun j later => across ci (by simp) j later,pairs⟩,?_⟩
          intro i member j listed
          rcases List.mem_cons.mp listed with rfl | later
          · exact free i member
          · exact across i (by simp [member]) j later
        · rintro ⟨⟨first,pairs⟩,across⟩
          refine ⟨pairs,?_⟩
          intro i member j later
          rcases List.mem_append.mp member with old | new
          · exact across i old j (List.mem_cons_of_mem _ later)
          · rw [List.mem_singleton.mp new]
            exact first j later

theorem checkBands_iff (bands : List (List Nat)) (inside : InRange cs n) (known : ∀ band ∈ bands, ∀ i ∈ band, i < cs.length)
    (before : Seen cs n b [] last) : checkBands cs b bands last = true ↔ ∀ band ∈ bands, band.Pairwise (Clear cs) := by
  induction bands generalizing b last with
  | nil => exact iff_of_true rfl nofun
  | cons band rest ih =>
    obtain ⟨kept,goes⟩ := checkBand_iff inside (known band List.mem_cons_self) before
    rw [List.forall_mem_cons]
    unfold checkBands
    cases checked : checkBand cs b band last with
    | none =>
      rw [checked] at goes
      refine iff_of_false nofun ?_
      rintro ⟨pairs,-⟩
      have some := goes.mpr ⟨pairs,fun _ none => by cases none⟩
      cases some
    | some next =>
      rw [checked] at goes
      have pairs := (goes.mp rfl).1
      have after := (kept next checked).next
      exact (ih (fun band member => known band (List.mem_cons_of_mem _ member)) after).trans
        ⟨fun later => ⟨pairs,later⟩,fun both => both.2⟩

theorem coloringValid_iff (bands : List (List Nat)) (inside : InRange cs n) (known : ∀ band ∈ bands, ∀ i ∈ band, i < cs.length) :
    coloringValid bands cs n = true ↔ ∀ band ∈ bands, band.Pairwise (Clear cs) := by
  have unset : ∀ p, (List.replicate n (-1 : Int)).getD p (-1) = -1 := by
    intro p
    rw [List.getD_eq_getElem?_getD,List.getElem?_replicate]
    split <;> rfl
  refine checkBands_iff bands inside known ⟨List.length_replicate,?_,?_⟩
  · intro p _
    rw [unset]
    exact iff_of_false (by decide) (by rintro ⟨_,none,_⟩; cases none)
  · intro p _
    rw [unset]
    decide

end Check

theorem take_counted (cs : List (Constraint ν)) (fits : cs.length ≤ intMax) : cs.take (int32 cs.length).toNat = cs := by
  rw [int32_of_in ⟨by unfold intMax; omega,fits⟩,Int.toNat_natCast,List.take_length]

theorem colorConstraints_painted (inside : InRange cs n) (fits : cs.length ≤ intMax) (colored : colorConstraints cs n = some bands) :
    ∃ s, s.bands = bands ∧ Painted n cs s := by
  obtain ⟨s,painting,same⟩ := Option.map_eq_some_iff.mp colored
  rw [take_counted cs fits] at painting
  exact ⟨s,same,paintFrom_painted cs inside (initial_painted n) painting⟩

theorem colorConstraints_valid (inside : InRange cs n) (fits : cs.length ≤ intMax) (colored : colorConstraints cs n = some bands) :
    coloringValid bands cs n = true := by
  obtain ⟨s,rfl,painted⟩ := colorConstraints_painted inside fits colored
  exact (coloringValid_iff s.bands inside (fun band member i listed => painted.below member listed)).mpr painted.clear

-- Every constraint has one band, and in a band no particle is moved twice, which is
-- what the check finds; particles in at most `d` constraints each need no more than
-- 2d-1 bands, and a fatal takes a particle in more than 16.
theorem greedy_coloring (cs : List (Constraint ν)) (n : Nat) (inside : InRange cs n) (fits : cs.length ≤ intMax) :
    (∀ bands, colorConstraints cs n = some bands →
      bands.flatten.Perm (List.range cs.length) ∧ (∀ band ∈ bands, band ≠ [] ∧ band.Pairwise (Clear cs)) ∧
        coloringValid bands cs n = true ∧ ∀ d, (∀ p, cs.countP (·.touches p) ≤ d) → bands.length ≤ 2*d-1) ∧
      (colorConstraints cs n = none → ∃ p, 16 < cs.countP (·.touches p)) := by
  constructor
  · intro bands colored
    have valid := colorConstraints_valid inside fits colored
    obtain ⟨s,rfl,painted⟩ := colorConstraints_painted inside fits colored
    exact ⟨painted.members,fun band member => ⟨painted.some band member,painted.clear band member⟩,valid,painted.few⟩
  · intro fatal
    by_contra light
    obtain ⟨t,painting⟩ := paintFrom_light cs inside (initial_painted n)
      (fun p => Nat.not_lt.mp (fun heavy => light ⟨p,heavy⟩))
    unfold colorConstraints at fatal
    rw [take_counted cs fits,show paintFrom _ cs 0 = some t from painting] at fatal
    cases fatal

def chain : List (Constraint Int) := [⟨0,1,6⟩,⟨1,2,6⟩,⟨2,3,6⟩]

theorem greedy_coloring_chain :
    colorConstraints chain 4 = some [[0,2],[1]] ∧ coloringValid [[0,2],[1]] chain 4 = true ∧
      colorConstraints (List.replicate 33 (⟨0,1,6⟩ : Constraint Int)) 2 = none := by
  have inside : InRange chain 4 := by
    unfold InRange
    decide
  have colored : colorConstraints chain 4 = some [[0,2],[1]] := by decide
  exact ⟨colored,((greedy_coloring chain 4 inside (by decide)).1 _ colored).2.2.1,by decide +kernel⟩

structure Particle (ν : Type) where
  x : ν
  y : ν
  px : ν
  py : ν
  pinned : Bool

-- The `float` operations of `relax`, however they round.
structure Scalars (ν : Type) where
  add : ν → ν → ν
  sub : ν → ν → ν
  mul : ν → ν → ν
  div : ν → ν → ν
  sqrt : ν → ν
  zero : ν
  half : ν
  one : ν
  vanishes : ν → Bool

-- How far `relax` has come, with its locals: `moving` has written that many of the
-- four coordinates.
inductive Relaxing (ν : Type) where
  | entered
  | across (dx : ν)
  | measured (dx dy err : ν)
  | moving (dx dy err wa wb : ν) (written : Nat)
  | left

-- A pinned end's share goes to the other end.
def weights (ops : Scalars ν) (a b : Bool) : ν × ν :=
  if !a && !b then (ops.half,ops.half) else if !a then (ops.one,ops.zero) else if !b then (ops.zero,ops.one) else (ops.zero,ops.zero)

def relax (ops : Scalars ν) (c : Constraint ν) : Turn (Relaxing ν) (Nat → Particle ν) := fun place m =>
  match place with
  | .entered => some (.across (ops.sub (m c.b).x (m c.a).x),m)
  | .across dx =>
    let dy := ops.sub (m c.b).y (m c.a).y
    let len := ops.sqrt (ops.add (ops.mul dx dx) (ops.mul dy dy))
    if ops.vanishes len then some (.left,m) else some (.measured dx dy (ops.div (ops.sub len c.rest) len),m)
  | .measured dx dy err =>
    let (wa,wb) := weights ops (m c.a).pinned (m c.b).pinned
    some (.moving dx dy err wa wb 0,m)
  | .moving dx dy err wa wb 0 =>
    some (.moving dx dy err wa wb 1,Function.update m c.a {m c.a with x := ops.add (m c.a).x (ops.mul (ops.mul dx err) wa)})
  | .moving dx dy err wa wb 1 =>
    some (.moving dx dy err wa wb 2,Function.update m c.a {m c.a with y := ops.add (m c.a).y (ops.mul (ops.mul dy err) wa)})
  | .moving dx dy err wa wb 2 =>
    some (.moving dx dy err wa wb 3,Function.update m c.b {m c.b with x := ops.sub (m c.b).x (ops.mul (ops.mul dx err) wb)})
  | .moving _ dy err _ wb _ =>
    some (.left,Function.update m c.b {m c.b with y := ops.sub (m c.b).y (ops.mul (ops.mul dy err) wb)})
  | .left => none

-- The body of the loop: `c.relax(ci)`.
def relaxAt (ops : Scalars ν) (cs : List (Constraint ν)) (ci : Int) : Turn (Relaxing ν) (Nat → Particle ν) :=
  match cs[ci.toNat]? with
  | none => fun _ _ => none
  | some c => relax ops c

section Solve

theorem within_reads {cells : Nat → Prop} {m n : Nat → Particle ν} {k : Nat} (same : ∀ k, cells k → m k = n k) (value : Particle ν) :
    ∀ j, cells j → Function.update n k value j = Function.update m k value j := by
  intro j mine
  by_cases here : j = k
  · rw [here,Function.update_self,Function.update_self]
  · rw [Function.update_of_ne here,Function.update_of_ne here,same j mine]

theorem relax_within (ops : Scalars ν) (c : Constraint ν) : Within (fun p => p = c.a ∨ p = c.b) (relax ops c) := by
  constructor
  · intro place m next changed moved p foreign
    have notA : p ≠ c.a := fun same => foreign (.inl same)
    have notB : p ≠ c.b := fun same => foreign (.inr same)
    unfold relax at moved
    split at moved
    all_goals first
      | (dsimp only at moved; split at moved <;> (cases moved; rfl))
      | (cases moved; done)
      | (cases moved; first | rfl | exact Function.update_of_ne notA .. | exact Function.update_of_ne notB ..)
  · intro place m n same
    have a := same c.a (.inl rfl)
    have b := same c.b (.inr rfl)
    have agree : ∀ k, k = c.a ∨ k = c.b → n k = m k := fun k mine => (same k mine).symm
    unfold relax
    rw [a,b]
    split
    all_goals first
      | exact ⟨iff_of_true rfl rfl,nofun⟩
      | (refine ⟨iff_of_false nofun nofun,?_⟩
         intro next changed moved
         cases moved
         first
         | exact ⟨n,rfl,agree⟩
         | exact ⟨_,rfl,within_reads same _⟩)
      | (dsimp only
         split
         all_goals
           refine ⟨iff_of_false nofun nofun,?_⟩
           intro next changed moved
           cases moved
           exact ⟨n,rfl,agree⟩)

theorem relaxAt_apart (ops : Scalars ν) {cs : List (Constraint ν)} {i j : Nat} (one : i < cs.length) (two : j < cs.length)
    (clear : Clear cs i j) : Apart (relaxAt ops cs (i : Int)) (relaxAt ops cs (j : Int)) := by
  have first : cs[i]? = some cs[i] := List.getElem?_eq_getElem one
  have second : cs[j]? = some cs[j] := List.getElem?_eq_getElem two
  unfold relaxAt
  rw [Int.toNat_natCast,Int.toNat_natCast,first,second]
  refine apart_of_within (relax_within ops cs[i]) (relax_within ops cs[j]) ?_
  rintro p ⟨mine,theirs⟩
  exact clear p ⟨⟨cs[i],first,(touches_iff _ p).mpr mine⟩,cs[j],second,(touches_iff _ p).mpr theirs⟩

-- The bands as `int`s.
def asInts (bands : List (List Nat)) : List (List Int) := bands.map (·.map Int.ofNat)

theorem Painted.disjoint {cs : List (Constraint ν)} (painted : Painted n cs s) (ops : Scalars ν) : Disjoint (asInts s.bands) (relaxAt ops cs) := by
  intro band member
  obtain ⟨band,listed,rfl⟩ := List.mem_map.mp member
  refine List.pairwise_map.mpr ((painted.clear band listed).imp_of_mem ?_)
  intro i j one two clear
  exact relaxAt_apart ops (painted.below listed one) (painted.below listed two) clear

theorem Painted.band_le (painted : Painted n cs s) (member : band ∈ asInts s.bands) : band.length ≤ cs.length := by
  obtain ⟨band,listed,rfl⟩ := List.mem_map.mp member
  rw [List.length_map]
  have part := (List.sublist_flatten_of_mem listed).length_le
  rw [painted.members.length_eq,List.length_range] at part
  exact part

theorem widest_le (bands : List (List Int)) (low most : Int) (start : low ≤ most) (each : ∀ band ∈ bands, int32 band.length ≤ most) :
    bands.foldl (fun widest band => max widest (int32 band.length)) low ≤ most := by
  induction bands generalizing low with
  | nil => exact start
  | cons band rest ih =>
    rw [List.foldl_cons]
    refine ih _ ?_ (fun band member => each band (List.mem_cons_of_mem _ member))
    exact Int.max_le.mpr ⟨start,each band List.mem_cons_self⟩

theorem Painted.sizes (painted : Painted n cs s) (small : 2*(cs.length : Int) ≤ intMax) {c : Coloring} (bands : c.bands = asInts s.bands) :
    c.sizesFit := by
  have each : ∀ band ∈ c.bands, int32 band.length ≤ (cs.length : Int) := by
    intro band member
    rw [bands] at member
    have part := painted.band_le member
    rw [int32_of_in ⟨by unfold intMax; omega,by omega⟩]
    omega
  have widest : c.widestInt ≤ cs.length := widest_le c.bands 0 cs.length (by omega) each
  have workers : c.workersInt ≤ cs.length := by
    unfold Coloring.workersInt effectiveWorkers
    exact Int.le_trans (Int.min_le_right _ _) widest
  intro band member
  rw [bands] at member
  have part := painted.band_le member
  refine ⟨by omega,?_⟩
  split
  · trivial
  · omega
  · omega

-- However the executors of two solves share the bands out, both relax every
-- constraint once a round and come to the same particles, those of one thread that
-- goes through the bands in order.
theorem cloth_deterministic (ops : Scalars ν) {cs : List (Constraint ν)} (inside : InRange cs n) (small : 2*(cs.length : Int) ≤ intMax)
    (colored : colorConstraints cs n = some bands) {c d : Coloring} (mine : c.bands = asInts bands)
    (same : d.bands = c.bands ∧ d.rounds = c.rounds) (few : c.rounds*32 ≤ intMax)
    (one : Reached (solveSystem c (relaxAt ops cs) .entered particles) s)
    (two : Reached (solveSystem d (relaxAt ops cs) .entered particles) t) (done : s.Over) (done' : t.Over) :
    Sweeps (c.calls (relaxAt ops cs)) c.items (fresh .entered particles) s.shared ∧ t.shared = s.shared ∧
      (c.items.map c.argument).Perm (List.replicate c.rounds.toNat ((List.range cs.length).map Int.ofNat)).flatten := by
  obtain ⟨painting,rfl,painted⟩ := colorConstraints_painted inside (by omega) colored
  have phases : c.rounds*c.full.length ≤ intMax := by
    have short : c.full.length ≤ 32 := by
      have most := painted.most
      have part := List.length_filter_le (!·.isEmpty) c.bands
      rw [mine,asInts,List.length_map] at part
      unfold Coloring.full
      rw [mine,asInts]
      omega
    by_cases rounds : 0 ≤ c.rounds
    · exact Int.le_trans (Int.mul_le_mul_of_nonneg_left (by omega) rounds) few
    · have down := Int.mul_nonpos_of_nonpos_of_nonneg (Int.le_of_lt (Int.not_le.mp rounds)) (Int.natCast_nonneg c.full.length)
      unfold intMax
      omega
  obtain ⟨sweeps,equal⟩ := solves_agree same phases (fun _ => painted.sizes small mine)
    (fun _ => painted.sizes small (same.1.trans mine)) (mine ▸ painted.disjoint ops) one two done done'
  refine ⟨sweeps,equal,?_⟩
  rw [c.arguments]
  have round : c.bands.flatten.Perm ((List.range cs.length).map Int.ofNat) := by
    rw [mine,asInts,← List.map_flatten]
    exact painted.members.map Int.ofNat
  generalize c.rounds.toNat = rounds
  induction rounds with
  | zero => exact .nil
  | succ k ih =>
    rw [List.replicate_succ,List.replicate_succ,List.flatten_cons,List.flatten_cons]
    exact round.append ih

end Solve

-- Integers, with the square roots that come up.
def whole : Scalars Int := ⟨(·+·),(·-·),(·*·),Int.tdiv,fun v => if v = 9 then 3 else 0,0,0,1,(· ≤ 0)⟩

def row (p : Nat) : Particle Int := ⟨3*p,0,3*p,0,p == 0 || p == 2⟩

def wideCloth : Coloring := ⟨asInts [[0,2],[1]],1,2,.guided,none,2,0,none,false⟩

def loneCloth : Coloring := ⟨asInts [[0,2],[1]],1,1,.unbalanced,none,0,0,none,false⟩

def steps (e n : Nat) : List SolveAction := List.replicate n (.loop (.step e false))

def wideCloth.schedule : List SolveAction :=
  [SolveAction.loop .call,.loop .start,.loop .start]++steps 0 5++steps 1 5++(List.replicate 7 [SolveAction.turn 1,.turn 0]).flatten++
    steps 1 3++steps 0 9++List.replicate 2 (SolveAction.turn 0)++steps 0 5

def loneCloth.schedule : List SolveAction :=
  [SolveAction.loop .call,.loop .start]++steps 0 5++List.replicate 7 (SolveAction.turn 0)++steps 0 8++
    List.replicate 7 (SolveAction.turn 0)++steps 0 9++List.replicate 2 (SolveAction.turn 0)++steps 0 5

theorem cloth_deterministic_row :
    let start : Solve (Relaxing Int) (Nat → Particle Int) := ⟨{},fresh .entered row,fresh .entered row,[]⟩
    let s := (solveSystem wideCloth (relaxAt whole chain) .entered row).follow start wideCloth.schedule
    let t := (solveSystem loneCloth (relaxAt whole chain) .entered row).follow start loneCloth.schedule
    (s.shared.memory 1).x = 6 ∧ (s.shared.memory 3).x = 12 ∧
      Sweeps (wideCloth.calls (relaxAt whole chain)) wideCloth.items (fresh .entered row) s.shared ∧ t.shared = s.shared := by
  have inside : InRange chain 4 := by
    unfold InRange
    decide
  refine ⟨by decide +kernel,by decide +kernel,?_⟩
  have colored : colorConstraints chain 4 = some [[0,2],[1]] := by decide
  have one : Reached (solveSystem wideCloth (relaxAt whole chain) .entered row)
      ((solveSystem wideCloth (relaxAt whole chain) .entered row).follow _ wideCloth.schedule) :=
    reached_follow (.start rfl) (by decide +kernel)
  have two : Reached (solveSystem loneCloth (relaxAt whole chain) .entered row)
      ((solveSystem loneCloth (relaxAt whole chain) .entered row).follow _ loneCloth.schedule) :=
    reached_follow (.start rfl) (by decide +kernel)
  have mine : wideCloth.bands = asInts [[0,2],[1]] := rfl
  have same : loneCloth.bands = wideCloth.bands ∧ loneCloth.rounds = wideCloth.rounds := ⟨rfl,rfl⟩
  have both := cloth_deterministic whole inside (by decide) colored mine same (by decide) one two
    (.inl (by decide +kernel)) (.inl (by decide +kernel))
  exact ⟨both.1,both.2.1⟩

end Macrame.Cloth

import Mathlib.Data.List.Basic
import Mathlib.Data.List.Nodup
import Mathlib.Data.List.Perm.Basic
import Mathlib.Logic.Function.Basic

namespace Consignments

variable {ι κ : Type}

-- Items issued under the numbers from 0 on. A sender holds one until it has
-- entered a store, a store hands it to a taker, and the taker is done with it
-- some time later. At every moment an item is in one place only.
structure Consigned (issued : Nat) (sends : ι → Option Nat) (entered handed : κ → List Nat) (holds : ι → List Nat)
    (done : List Nat) : Prop where
  sent : ∀ i n, sends i = some n → n < issued ∧ ∀ c, n ∉ entered c
  sender : ∀ i j n, sends i = some n → sends j = some n → i = j
  known : ∀ c n, n ∈ entered c → n < issued
  home : ∀ c d n, n ∈ entered c → n ∈ entered d → c = d
  single : ∀ c, (entered c).Nodup
  kept : ∀ n, n < issued → (∃ i, sends i = some n) ∨ ∃ c, n ∈ entered c
  once : ∀ c, (handed c).Nodup
  owned : ∀ c n, n ∈ handed c → n ∈ entered c
  out : ∀ c n, n ∈ handed c → n ∈ done ∨ ∃ i, n ∈ holds i
  held : ∀ i n, n ∈ holds i → (∃ c, n ∈ handed c) ∧ n ∉ done
  holder : ∀ i j n, n ∈ holds i → n ∈ holds j → i = j
  alone : ∀ i, (holds i).Nodup
  finished : ∀ n, n ∈ done → ∃ c, n ∈ handed c
  final : done.Nodup

theorem consigned_empty : Consigned 0 (fun _ : ι => none) (fun _ : κ => []) (fun _ => []) (fun _ => []) [] where
  sent := fun _ _ sending => by cases sending
  sender := fun _ _ _ sending => by cases sending
  known := fun _ _ member => absurd member List.not_mem_nil
  home := fun _ _ _ member => absurd member List.not_mem_nil
  single := fun _ => List.nodup_nil
  kept := fun n below => absurd below (Nat.not_lt_zero n)
  once := fun _ => List.nodup_nil
  owned := fun _ _ member => absurd member List.not_mem_nil
  out := fun _ _ member => absurd member List.not_mem_nil
  held := fun _ _ member => absurd member List.not_mem_nil
  holder := fun _ _ _ member => absurd member List.not_mem_nil
  alone := fun _ => List.nodup_nil
  finished := fun _ member => absurd member List.not_mem_nil
  final := List.nodup_nil

variable {issued : Nat} {sends : ι → Option Nat} {entered handed : κ → List Nat} {holds : ι → List Nat} {done : List Nat}

theorem mem_extended [DecidableEq κ] {lists : κ → List Nat} (c : κ) (n : Nat) :
    m ∈ Function.update lists c (lists c++[n]) d ↔ m ∈ lists d ∨ (d = c ∧ m = n) := by
  by_cases same : d = c
  · subst same
    rw [Function.update_self,List.mem_append,List.mem_singleton]
    simp
  · rw [Function.update_of_ne same]
    simp [same]

theorem nodup_extended [DecidableEq κ] {lists : κ → List Nat} (each : ∀ d, (lists d).Nodup) (fresh : n ∉ lists c) (d : κ) :
    (Function.update lists c (lists c++[n]) d).Nodup := by
  by_cases same : d = c
  · subst same
    rw [Function.update_self]
    refine List.nodup_append.mpr ⟨each d,List.nodup_singleton n,?_⟩
    intro a member b last equal
    rw [List.mem_singleton.mp last] at equal
    exact fresh (equal ▸ member)
  · rw [Function.update_of_ne same]
    exact each d

-- A sender that holds nothing takes up the next item.
theorem Consigned.issue [DecidableEq ι] (conserved : Consigned issued sends entered handed holds done) (free : sends i = none) :
    Consigned (issued+1) (Function.update sends i (some issued)) entered handed holds done := by
  have others : ∀ j n, Function.update sends i (some issued) j = some n → (j = i ∧ n = issued) ∨ (j ≠ i ∧ sends j = some n) := by
    intro j n sending
    by_cases same : j = i
    · rw [same,Function.update_self] at sending
      exact .inl ⟨same,(Option.some.inj sending).symm⟩
    · rw [Function.update_of_ne same] at sending
      exact .inr ⟨same,sending⟩
  refine ⟨?_,?_,?_,conserved.home,conserved.single,?_,conserved.once,conserved.owned,conserved.out,conserved.held,
    conserved.holder,conserved.alone,conserved.finished,conserved.final⟩
  · intro j n sending
    rcases others j n sending with ⟨-,rfl⟩ | ⟨-,prior⟩
    · exact ⟨Nat.lt_succ_self _,fun c member => Nat.lt_irrefl _ (conserved.known c _ member)⟩
    · exact ⟨Nat.lt_succ_of_lt (conserved.sent j n prior).1,(conserved.sent j n prior).2⟩
  · intro j k n one two
    rcases others j n one with ⟨first,rfl⟩ | ⟨-,prior⟩
    · rcases others k _ two with ⟨second,-⟩ | ⟨-,also⟩
      · rw [first,second]
      · exact absurd (conserved.sent k _ also).1 (Nat.lt_irrefl _)
    · rcases others k n two with ⟨-,rfl⟩ | ⟨-,also⟩
      · exact absurd (conserved.sent j _ prior).1 (Nat.lt_irrefl _)
      · exact conserved.sender j k n prior also
  · exact fun c n member => Nat.lt_succ_of_lt (conserved.known c n member)
  · intro n below
    by_cases new : n = issued
    · exact .inl ⟨i,by rw [Function.update_self,new]⟩
    · refine (conserved.kept n (by omega)).imp_left ?_
      rintro ⟨j,sending⟩
      have other : j ≠ i := by
        intro same
        rw [same,free] at sending
        cases sending
      exact ⟨j,by rw [Function.update_of_ne other]; exact sending⟩

-- The item enters a store and leaves its sender.
theorem Consigned.enter [DecidableEq ι] [DecidableEq κ]
    (conserved : Consigned issued sends entered handed holds done) (c : κ) (sending : sends i = some n) :
    Consigned issued (Function.update sends i none) (Function.update entered c (entered c++[n])) handed holds done := by
  have others : ∀ j m, Function.update sends i none j = some m → j ≠ i ∧ sends j = some m := by
    intro j m still
    by_cases same : j = i
    · rw [same,Function.update_self] at still
      cases still
    · rw [Function.update_of_ne same] at still
      exact ⟨same,still⟩
  obtain ⟨below,absent⟩ := conserved.sent i n sending
  refine ⟨?_,?_,?_,?_,?_,?_,conserved.once,?_,conserved.out,conserved.held,conserved.holder,conserved.alone,
    conserved.finished,conserved.final⟩
  · intro j m still
    obtain ⟨other,prior⟩ := others j m still
    refine ⟨(conserved.sent j m prior).1,?_⟩
    intro d member
    rcases (mem_extended c n).mp member with inside | ⟨-,same⟩
    · exact (conserved.sent j m prior).2 d inside
    · exact other (conserved.sender j i m prior (same ▸ sending))
  · intro j k m one two
    exact conserved.sender j k m (others j m one).2 (others k m two).2
  · intro d m member
    rcases (mem_extended c n).mp member with inside | ⟨-,same⟩
    · exact conserved.known d m inside
    · exact same ▸ below
  · intro d e m one two
    rcases (mem_extended c n).mp one with inside | ⟨first,same⟩
    · rcases (mem_extended c n).mp two with also | ⟨-,same⟩
      · exact conserved.home d e m inside also
      · exact absurd (same ▸ inside) (absent d)
    · rcases (mem_extended c n).mp two with also | ⟨second,-⟩
      · exact absurd (same ▸ also) (absent e)
      · rw [first,second]
  · exact nodup_extended conserved.single (absent c)
  · intro m inside
    rcases conserved.kept m inside with ⟨j,prior⟩ | ⟨d,member⟩
    · by_cases same : j = i
      · rw [same,sending] at prior
        exact .inr ⟨c,(mem_extended c n).mpr (.inr ⟨rfl,(Option.some.inj prior).symm⟩)⟩
      · exact .inl ⟨j,by rw [Function.update_of_ne same]; exact prior⟩
    · exact .inr ⟨d,(mem_extended c n).mpr (.inl member)⟩
  · exact fun d m member => (mem_extended c n).mpr (.inl (conserved.owned d m member))

-- A store hands an item that has entered it to a taker, for the first time.
theorem Consigned.hand [DecidableEq ι] [DecidableEq κ]
    (conserved : Consigned issued sends entered handed holds done) (i : ι) (inside : n ∈ entered c)
    (first : n ∉ handed c) :
    Consigned issued sends entered (Function.update handed c (handed c++[n])) (Function.update holds i (n :: holds i)) done := by
  -- no other store has handed it out, so nobody has it yet
  have unhanded : ∀ d, n ∉ handed d := by
    intro d member
    rw [conserved.home d c n (conserved.owned d n member) inside] at member
    exact first member
  have unheld : ∀ j, n ∉ holds j := by
    intro j member
    obtain ⟨d,there⟩ := (conserved.held j n member).1
    exact unhanded d there
  have undone : n ∉ done := by
    intro member
    obtain ⟨d,there⟩ := conserved.finished n member
    exact unhanded d there
  have holding : ∀ j m, m ∈ Function.update holds i (n :: holds i) j ↔ m ∈ holds j ∨ (j = i ∧ m = n) := by
    intro j m
    by_cases same : j = i
    · subst same
      rw [Function.update_self,List.mem_cons]
      simp [or_comm]
    · rw [Function.update_of_ne same]
      simp [same]
  refine ⟨conserved.sent,conserved.sender,conserved.known,conserved.home,conserved.single,conserved.kept,
    nodup_extended conserved.once first,?_,?_,?_,?_,?_,?_,conserved.final⟩
  · intro d m member
    rcases (mem_extended c n).mp member with prior | ⟨same,equal⟩
    · exact conserved.owned d m prior
    · rw [same,equal]
      exact inside
  · intro d m member
    rcases (mem_extended c n).mp member with prior | ⟨-,equal⟩
    · refine (conserved.out d m prior).imp_right ?_
      rintro ⟨j,there⟩
      exact ⟨j,(holding j m).mpr (.inl there)⟩
    · exact .inr ⟨i,(holding i m).mpr (.inr ⟨rfl,equal⟩)⟩
  · intro j m member
    rcases (holding j m).mp member with prior | ⟨-,equal⟩
    · obtain ⟨⟨d,there⟩,open_⟩ := conserved.held j m prior
      exact ⟨⟨d,(mem_extended c n).mpr (.inl there)⟩,open_⟩
    · rw [equal]
      exact ⟨⟨c,(mem_extended c n).mpr (.inr ⟨rfl,rfl⟩)⟩,undone⟩
  · intro j k m one two
    rcases (holding j m).mp one with prior | ⟨same,equal⟩
    · rcases (holding k m).mp two with also | ⟨-,equal⟩
      · exact conserved.holder j k m prior also
      · exact absurd (equal ▸ prior) (unheld j)
    · rcases (holding k m).mp two with also | ⟨too,-⟩
      · exact absurd (equal ▸ also) (unheld k)
      · rw [same,too]
  · intro j
    by_cases same : j = i
    · rw [same,Function.update_self]
      exact List.nodup_cons.mpr ⟨unheld i,conserved.alone i⟩
    · rw [Function.update_of_ne same]
      exact conserved.alone j
  · intro m member
    obtain ⟨d,there⟩ := conserved.finished m member
    exact ⟨d,(mem_extended c n).mpr (.inl there)⟩

-- A taker is done with the item it has taken last.
theorem Consigned.finish [DecidableEq ι] (conserved : Consigned issued sends entered handed holds done) (holding : holds i = n :: rest) :
    Consigned issued sends entered handed (Function.update holds i rest) (done++[n]) := by
  have mine : n ∈ holds i := by rw [holding]; exact List.mem_cons_self
  have nodup := conserved.alone i
  rw [holding,List.nodup_cons] at nodup
  have still : ∀ j m, m ∈ Function.update holds i rest j → m ∈ holds j ∧ m ≠ n := by
    intro j m member
    by_cases same : j = i
    · rw [same,Function.update_self] at member
      rw [same,holding]
      exact ⟨List.mem_cons_of_mem n member,fun equal => nodup.1 (equal ▸ member)⟩
    · rw [Function.update_of_ne same] at member
      exact ⟨member,fun equal => same (conserved.holder j i m member (equal ▸ mine))⟩
  refine ⟨conserved.sent,conserved.sender,conserved.known,conserved.home,conserved.single,conserved.kept,conserved.once,
    conserved.owned,?_,?_,?_,?_,?_,?_⟩
  · intro d m member
    rcases conserved.out d m member with prior | ⟨j,there⟩
    · exact .inl (List.mem_append_left _ prior)
    · by_cases equal : m = n
      · exact .inl (by rw [equal]; exact List.mem_append_right _ (List.mem_singleton_self n))
      · refine .inr ⟨j,?_⟩
        by_cases same : j = i
        · rw [same,holding] at there
          rw [same,Function.update_self]
          exact (List.mem_cons.mp there).resolve_left equal
        · rw [Function.update_of_ne same]
          exact there
  · intro j m member
    obtain ⟨prior,other⟩ := still j m member
    refine ⟨(conserved.held j m prior).1,?_⟩
    intro finished
    rcases List.mem_append.mp finished with before | last
    · exact (conserved.held j m prior).2 before
    · exact other (List.mem_singleton.mp last)
  · intro j k m one two
    exact conserved.holder j k m (still j m one).1 (still k m two).1
  · intro j
    by_cases same : j = i
    · rw [same,Function.update_self]
      exact nodup.2
    · rw [Function.update_of_ne same]
      exact conserved.alone j
  · intro m finished
    rcases List.mem_append.mp finished with before | last
    · exact conserved.finished m before
    · rw [List.mem_singleton.mp last]
      exact (conserved.held i n mine).1
  · refine List.nodup_append.mpr ⟨conserved.final,List.nodup_singleton n,?_⟩
    intro a before b last equal
    rw [List.mem_singleton.mp last] at equal
    exact (conserved.held i n mine).2 (equal ▸ before)

-- With nothing under way and every store emptied, each item is done once.
theorem Consigned.all_done (conserved : Consigned issued sends entered handed holds done) (silent : ∀ i, sends i = none)
    (free : ∀ i, holds i = []) (empty : ∀ c n, n ∈ entered c → n ∈ handed c) : done.Perm (List.range issued) := by
  refine (List.perm_ext_iff_of_nodup conserved.final List.nodup_range).mpr ?_
  intro n
  rw [List.mem_range]
  constructor
  · intro finished
    obtain ⟨c,there⟩ := conserved.finished n finished
    exact conserved.known c n (conserved.owned c n there)
  · intro below
    rcases conserved.kept n below with ⟨i,sending⟩ | ⟨c,inside⟩
    · rw [silent i] at sending
      cases sending
    · rcases conserved.out c n (empty c n inside) with finished | ⟨i,holding⟩
      · exact finished
      · rw [free i] at holding
        exact absurd holding List.not_mem_nil

end Consignments

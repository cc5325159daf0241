import Mathlib.Data.List.Basic
import Mathlib.Data.List.Perm.Basic
import Macrame.Lib.Machine

namespace Macrame

-- What a command does while it is applied, beside its write on the target: it
-- stages another command in a slot of the same journal, or calls `commit`.
-- `live` is that the token of that call is not cancelled.
inductive CommandStep where
  | stage (slot code : Nat)
  | commit (live : Bool)
  deriving DecidableEq, Repr

-- The range-for of one `apply_under_grant`: the cut it goes over, the cell it
-- reads next and the one it ends at, what the command it has called is still to
-- do, and whether that closure still exists.
structure ApplyLoop where
  cut : Nat
  next : Nat
  ending : Nat
  rest : List CommandStep := []
  alive : Bool := true
  deriving DecidableEq, Repr

-- A Deferred whose commits all take the inline arm. `buffer` is the one
-- `commit_batch_`, `loops` the applies under way, the innermost first. `undefined`:
-- a destroyed cell was called or a destroyed closure went on. The other fields
-- are history: what was staged, what every cut took, whose cut the buffer
-- holds, what was applied for which cut.
structure Reentry where
  slots : List (List Nat) := []
  buffer : List Nat := []
  loops : List ApplyLoop := []
  undefined : Bool := false
  issued : List Nat := []
  cuts : List (List Nat) := []
  filled : Option Nat := none
  applied : List (Nat × Nat) := []
  deriving DecidableEq, Repr

namespace Reentry

def stage (s : Reentry) (slot code : Nat) : Reentry :=
  if slot < s.slots.length then {s with slots := s.slots.modify slot (·++[code]),issued := s.issued++[code]} else s

-- `cut(commit_batch_)` clears the buffer, which destroys every command in it,
-- and fills it from the slots; the loop takes begin and end once.
def beginApply (s : Reentry) : Reentry :=
  {s with
    slots := s.slots.map (fun _ => [])
    buffer := s.slots.flatten
    loops := ⟨s.cuts.length,0,s.slots.flatten.length,[],true⟩ :: s.loops
    cuts := s.cuts++[s.slots.flatten]
    filled := some s.cuts.length}

-- The next step of the applying task. A closure that an inner apply has
-- destroyed may return; to stage or commit it needs what it has captured. The
-- cells a loop reads are the buffer's own, whatever they hold by then.
def goOn (program : Nat → List CommandStep) (s : Reentry) : Reentry :=
  match s.loops with
  | [] => s
  | l :: below =>
    match l.rest with
    | op :: rest =>
      if l.alive then
        match op with
        | .stage slot code => {s with loops := {l with rest := rest} :: below}.stage slot code
        | .commit false => {s with loops := {l with rest := rest} :: below}
        | .commit true => {s with loops := {l with rest := rest,alive := false} :: below}.beginApply
      else {s with undefined := true}
    | [] =>
      if l.next = l.ending then {s with buffer := [],filled := none,loops := below}
      else
        match s.buffer[l.next]? with
        | some code => {s with
            applied := s.applied++[(l.cut,code)]
            loops := {l with next := l.next+1,rest := program code,alive := true} :: below}
        | none => {s with undefined := true}

end Reentry

-- `mint` makes a recorder; it and `stage` may come from any thread at any time.
inductive ReentryAction where
  | mint
  | stage (slot code : Nat)
  | commit
  | goOn
  deriving DecidableEq, Repr

namespace Reentry

def Allowed (s : Reentry) : ReentryAction → Prop
  | .mint => True
  | .stage slot _ => slot < s.slots.length
  | .commit => s.loops = [] ∧ s.undefined = false
  | .goOn => s.loops ≠ [] ∧ s.undefined = false

def apply (program : Nat → List CommandStep) (s : Reentry) : ReentryAction → Reentry
  | .mint => {s with slots := s.slots++[[]]}
  | .stage slot code => s.stage slot code
  | .commit => s.beginApply
  | .goOn => s.goOn program

end Reentry

-- `program` says what each staged closure does.
def reentrySystem (program : Nat → List CommandStep) : Machines.Machine Reentry ReentryAction :=
  ⟨(· = {}),Reentry.Allowed,Reentry.apply program⟩

instance Reentry.decideAllowed (s : Reentry) : (a : ReentryAction) → Decidable (s.Allowed a)
  | .mint => inferInstanceAs (Decidable True)
  | .stage _ _ => inferInstanceAs (Decidable (_ < _))
  | .commit => inferInstanceAs (Decidable (_ ∧ _))
  | .goOn => inferInstanceAs (Decidable (_ ∧ _))

instance Reentry.decideStep (program : Nat → List CommandStep) (s : Reentry) (a : ReentryAction) :
    Decidable ((reentrySystem program).allowed s a) := inferInstanceAs (Decidable (s.Allowed a))

namespace Reentry

-- What was applied for one cut, in order.
def appliedOf (s : Reentry) (id : Nat) : List Nat := (s.applied.filter (·.1 == id)).map Prod.snd

-- The batch is whole: the commands of every cut have all been applied, once
-- and in order, or its loop is under way and the buffer holds the commands it
-- has not applied yet; a command that has something left to do still exists;
-- and what was staged was cut or is still staged.
structure Whole (s : Reentry) : Prop where
  defined : s.undefined = false
  batches : ∀ id batch, s.cuts[id]? = some batch → s.appliedOf id = batch ∨
    ∃ l ∈ s.loops, l.cut = id ∧ s.filled = some id ∧ s.buffer = batch ∧ s.appliedOf id = batch.take l.next
  running : ∀ l ∈ s.loops, l.rest ≠ [] → l.alive = true
  conserved : s.issued.Perm (s.cuts.flatten++s.slots.flatten)

-- A live commit is the last thing that the last command of its batch does.
def Last (s : Reentry) (a : ReentryAction) : Prop :=
  a = .goOn → ∀ l ∈ s.loops.head?, l.rest.head? = some (.commit true) → l.rest.tail = [] ∧ l.next = l.ending

instance decideLast (s : Reentry) (a : ReentryAction) : Decidable (s.Last a) := by
  unfold Last
  exact inferInstance

-- What holds whatever the commands do.
structure Counted (s : Reentry) : Prop where
  nested : s.loops.Pairwise (fun inner outer => outer.cut < inner.cut)
  known : ∀ l ∈ s.loops, ∃ batch, s.cuts[l.cut]? = some batch ∧ batch.length = l.ending
  within : ∀ l ∈ s.loops, l.next ≤ l.ending
  counted : ∀ l ∈ s.loops, (s.appliedOf l.cut).length = l.next
  credited : ∀ e ∈ s.applied, e.1 < s.cuts.length
  filler : ∀ id, s.filled = some id → id < s.cuts.length
  conserved : s.issued.Perm (s.cuts.flatten++s.slots.flatten)

def Spent (l : ApplyLoop) : Prop := l.next = l.ending ∧ l.rest = []

-- The buffer is this loop's, and so is what it has called.
def Ready (s : Reentry) (l : ApplyLoop) : Prop :=
  s.filled = some l.cut ∧ s.cuts[l.cut]? = some s.buffer ∧ l.alive = true

-- What holds besides while every live commit comes last.
structure Clean (s : Reentry) : Prop where
  defined : s.undefined = false
  past : ∀ id batch, s.cuts[id]? = some batch → (∀ l ∈ s.loops, l.cut ≠ id) → s.appliedOf id = batch
  inOrder : ∀ l ∈ s.loops, ∀ batch, s.cuts[l.cut]? = some batch → s.appliedOf l.cut = batch.take l.next
  inner : ∀ l below, s.loops = l :: below → s.Ready l ∨ Spent l
  outer : ∀ l below, s.loops = l :: below → ∀ b ∈ below, Spent b

theorem counted_initial : Counted {} := by
  refine ⟨.nil,?_,?_,?_,?_,?_,List.Perm.nil⟩ <;> simp

theorem clean_initial : Clean {} := by
  refine ⟨rfl,?_,?_,?_,?_⟩ <;> simp

theorem Counted.below (counted : Counted s) (member : l ∈ s.loops) : l.cut < s.cuts.length := by
  obtain ⟨batch,here,_⟩ := counted.known l member
  exact (List.getElem?_eq_some_iff.mp here).1

theorem appliedOf_unknown {s : Reentry} {n id : Nat} (credited : ∀ e ∈ s.applied, e.1 < n) (beyond : n ≤ id) :
    s.appliedOf id = [] := by
  unfold appliedOf
  rw [List.filter_eq_nil_iff.mpr,List.map_nil]
  intro e member same
  have below := credited e member
  rw [beq_iff_eq] at same
  omega

theorem Clean.whole (clean : Clean s) (counted : Counted s) : Whole s := by
  have spent_done : ∀ l ∈ s.loops, Spent l → ∀ batch, s.cuts[l.cut]? = some batch → s.appliedOf l.cut = batch := by
    intro l member spent batch here
    obtain ⟨batch',here',length⟩ := counted.known l member
    rw [here] at here'
    cases here'
    rw [clean.inOrder l member batch here,spent.1,← length,List.take_length]
  have each : ∀ l ∈ s.loops, s.Ready l ∨ Spent l := by
    intro l member
    cases shape : s.loops with
    | nil =>
      rw [shape] at member
      cases member
    | cons top below =>
      rw [shape] at member
      rcases List.mem_cons.mp member with rfl | under
      · exact clean.inner l below shape
      · exact .inr (clean.outer top below shape l under)
  refine ⟨clean.defined,?_,?_,counted.conserved⟩
  · intro id batch here
    by_cases going : ∃ l ∈ s.loops, l.cut = id
    · obtain ⟨l,member,rfl⟩ := going
      rcases each l member with ready | spent
      · refine .inr ⟨l,member,rfl,ready.1,?_,clean.inOrder l member batch here⟩
        have same := ready.2.1.symm.trans here
        exact Option.some.inj same
      · exact .inl (spent_done l member spent batch here)
    · push Not at going
      exact .inl (clean.past id batch here going)
  · intro l member busy
    rcases each l member with ready | spent
    · exact ready.2.2
    · exact absurd spent.2 busy

section Steps

variable {s : Reentry} {program : Nat → List CommandStep}

-- Staging touches the slots alone.
theorem stage_counted (counted : Counted s) (slot code : Nat) : Counted (s.stage slot code) := by
  unfold stage
  split
  · rename_i inside
    refine ⟨counted.nested,counted.known,counted.within,counted.counted,counted.credited,counted.filler,?_⟩
    have grown : (s.slots.modify slot (·++[code])).flatten.Perm (s.slots.flatten++[code]) := by
      have split := List.modify_eq_take_cons_drop inside (f := (·++[code]))
      have whole : s.slots.flatten = (s.slots.take slot).flatten++(s.slots[slot]++(s.slots.drop (slot+1)).flatten) := by
        rw [← List.flatten_cons,← List.flatten_append,← List.drop_eq_getElem_cons inside,List.take_append_drop]
      rw [split,List.flatten_append,List.flatten_cons,whole]
      simp only [List.append_assoc]
      refine List.Perm.append_left _ (List.Perm.append_left _ ?_)
      exact List.perm_append_comm
    refine (counted.conserved.append_right [code]).trans ?_
    rw [List.append_assoc]
    exact List.Perm.append_left _ grown.symm
  · exact counted

theorem stage_clean (clean : Clean s) (slot code : Nat) : Clean (s.stage slot code) := by
  unfold stage
  split
  · exact ⟨clean.defined,clean.past,clean.inOrder,clean.inner,clean.outer⟩
  · exact clean

theorem emptied_flatten (slots : List (List Nat)) : (slots.map (fun _ => ([] : List Nat))).flatten = [] := by
  induction slots with
  | nil => rfl
  | cons _ _ ih => exact ih

theorem beginApply_counted (counted : Counted s) : Counted s.beginApply := by
  have unknown := appliedOf_unknown counted.credited (Nat.le_refl _)
  refine ⟨?_,?_,?_,?_,?_,?_,?_⟩
  · refine List.pairwise_cons.mpr ⟨?_,counted.nested⟩
    intro l member
    exact counted.below member
  · intro l member
    rcases List.mem_cons.mp member with rfl | under
    · exact ⟨s.slots.flatten,by simp [beginApply],rfl⟩
    · obtain ⟨batch,here,length⟩ := counted.known l under
      exact ⟨batch,by simp [beginApply,List.getElem?_append_left (counted.below under),here],length⟩
  · intro l member
    rcases List.mem_cons.mp member with rfl | under
    · exact Nat.zero_le _
    · exact counted.within l under
  · intro l member
    rcases List.mem_cons.mp member with rfl | under
    · exact congrArg List.length unknown
    · exact counted.counted l under
  · intro e member
    have below := counted.credited e member
    simp only [beginApply,List.length_append,List.length_singleton]
    omega
  · intro id same
    cases same
    simp [beginApply]
  · have conserved := counted.conserved
    simpa [beginApply,emptied_flatten] using conserved

theorem beginApply_clean (counted : Counted s) (defined : s.undefined = false)
    (past : ∀ id batch, s.cuts[id]? = some batch → (∀ l ∈ s.loops, l.cut ≠ id) → s.appliedOf id = batch)
    (inOrder : ∀ l ∈ s.loops, ∀ batch, s.cuts[l.cut]? = some batch → s.appliedOf l.cut = batch.take l.next)
    (spent : ∀ l ∈ s.loops, Spent l) : Clean s.beginApply := by
  have unknown := appliedOf_unknown counted.credited (Nat.le_refl _)
  refine ⟨defined,?_,?_,?_,?_⟩
  · intro id batch here apart
    have other : id ≠ s.cuts.length := Ne.symm (apart _ List.mem_cons_self)
    refine past id batch ?_ (fun l member => apart l (List.mem_cons_of_mem _ member))
    rcases Nat.lt_or_ge id s.cuts.length with old | beyond
    · simpa [beginApply,List.getElem?_append_left old] using here
    · rw [beginApply,List.getElem?_append_right beyond,List.getElem?_eq_none (by simp; omega)] at here
      cases here
  · intro l member batch here
    rcases List.mem_cons.mp member with rfl | under
    · exact unknown.trans (List.take_zero).symm
    · refine inOrder l under batch ?_
      simpa [beginApply,List.getElem?_append_left (counted.below under)] using here
  · intro l below shape
    cases shape
    exact .inl ⟨rfl,by simp [beginApply],rfl⟩
  · intro l below shape
    cases shape
    exact spent

-- What the next step of the applying task can be.
inductive Onward (program : Nat → List CommandStep) (s : Reentry) (l : ApplyLoop) (below : List ApplyLoop) : Reentry → Prop where
  | stages (call : l.rest = .stage slot code :: rest) (alive : l.alive = true) :
    Onward program s l below ({s with loops := {l with rest := rest} :: below}.stage slot code)
  | retains (call : l.rest = .commit false :: rest) (alive : l.alive = true) :
    Onward program s l below {s with loops := {l with rest := rest} :: below}
  | commits (call : l.rest = .commit true :: rest) (alive : l.alive = true) :
    Onward program s l below {s with loops := {l with rest := rest,alive := false} :: below}.beginApply
  | ends (idle : l.rest = []) (past : l.next = l.ending) :
    Onward program s l below {s with buffer := [],filled := none,loops := below}
  | calls (idle : l.rest = []) (more : l.next ≠ l.ending) (cell : s.buffer[l.next]? = some code) :
    Onward program s l below {s with
      applied := s.applied++[(l.cut,code)]
      loops := {l with next := l.next+1,rest := program code,alive := true} :: below}
  | breaks (gone : (l.rest ≠ [] ∧ l.alive = false) ∨ (l.rest = [] ∧ l.next ≠ l.ending ∧ s.buffer[l.next]? = none)) :
    Onward program s l below {s with undefined := true}

theorem onward (program : Nat → List CommandStep) (shape : s.loops = l :: below) : Onward program s l below (s.goOn program) := by
  unfold goOn
  split
  · rename_i none_left
    rw [shape] at none_left
    cases none_left
  rename_i l' below' same
  rw [shape] at same
  cases same
  split
  · rename_i op rest call
    by_cases alive : l.alive = true
    · rw [if_pos alive]
      cases op with
      | stage slot code => exact .stages call alive
      | commit live =>
        cases live with
        | false => exact .retains call alive
        | true => exact .commits call alive
    · rw [if_neg alive]
      exact .breaks (.inl ⟨by rw [call]; exact List.cons_ne_nil _ _,by simpa using alive⟩)
  · rename_i idle
    split
    · rename_i past
      exact .ends idle past
    · rename_i more
      split
      · rename_i code cell
        exact .calls idle more cell
      · rename_i cell
        exact .breaks (.inr ⟨idle,more,cell⟩)

theorem appliedOf_credit (s : Reentry) (loops : List ApplyLoop) (cut code id : Nat) :
    appliedOf {s with applied := s.applied++[(cut,code)],loops := loops} id =
      if cut = id then s.appliedOf id++[code] else s.appliedOf id := by
  unfold appliedOf
  by_cases same : cut = id <;> simp [same]

-- The innermost loop may change what it has left to do.
theorem replaced_counted {l' : ApplyLoop} (counted : Counted s) (shape : s.loops = l :: below) (cut : l'.cut = l.cut)
    (next : l'.next = l.next) (ending : l'.ending = l.ending) : Counted {s with loops := l' :: below} := by
  have nested := counted.nested
  rw [shape] at nested
  have each : ∀ k ∈ l' :: below, ∃ k' ∈ s.loops, k.cut = k'.cut ∧ k.next = k'.next ∧ k.ending = k'.ending := by
    intro k member
    rw [shape]
    rcases List.mem_cons.mp member with rfl | under
    · exact ⟨l,List.mem_cons_self,cut,next,ending⟩
    · exact ⟨k,List.mem_cons_of_mem _ under,rfl,rfl,rfl⟩
  refine ⟨?_,?_,?_,?_,counted.credited,counted.filler,counted.conserved⟩
  · refine List.pairwise_cons.mpr ⟨?_,(List.pairwise_cons.mp nested).2⟩
    intro b under
    rw [cut]
    exact (List.pairwise_cons.mp nested).1 b under
  · intro k member
    obtain ⟨k',member',cut,_,ending⟩ := each k member
    rw [cut,ending]
    exact counted.known k' member'
  · intro k member
    obtain ⟨k',member',_,next,ending⟩ := each k member
    rw [next,ending]
    exact counted.within k' member'
  · intro k member
    obtain ⟨k',member',cut,next,_⟩ := each k member
    rw [cut,next]
    exact counted.counted k' member'

theorem onward_counted (counted : Counted s) (shape : s.loops = l :: below) (onward : Onward program s l below t) :
    Counted t := by
  cases onward with
  | stages =>
    refine stage_counted ?_ _ _
    exact replaced_counted counted shape rfl rfl rfl
  | retains => exact replaced_counted counted shape rfl rfl rfl
  | commits => exact beginApply_counted (replaced_counted counted shape rfl rfl rfl)
  | ends =>
    have under : ∀ b ∈ below, b ∈ s.loops := by
      intro b member
      rw [shape]
      exact List.mem_cons_of_mem _ member
    have nested := counted.nested
    rw [shape] at nested
    exact ⟨(List.pairwise_cons.mp nested).2,fun b member => counted.known b (under b member),
      fun b member => counted.within b (under b member),fun b member => counted.counted b (under b member),
      counted.credited,(fun _ filled => nomatch filled),counted.conserved⟩
  | @calls code idle more cell =>
    have top : l ∈ s.loops := by rw [shape]; exact List.mem_cons_self
    have nested := counted.nested
    rw [shape] at nested
    have apart : ∀ b ∈ below, l.cut ≠ b.cut := fun b member => Nat.ne_of_gt ((List.pairwise_cons.mp nested).1 b member)
    have under : ∀ b ∈ below, b ∈ s.loops := by
      intro b member
      rw [shape]
      exact List.mem_cons_of_mem _ member
    refine ⟨?_,?_,?_,?_,?_,counted.filler,counted.conserved⟩
    · exact List.pairwise_cons.mpr (List.pairwise_cons.mp nested)
    · intro k member
      rcases List.mem_cons.mp member with rfl | lower
      · exact counted.known l top
      · exact counted.known k (under k lower)
    · intro k member
      rcases List.mem_cons.mp member with rfl | lower
      · exact Nat.lt_of_le_of_ne (counted.within l top) more
      · exact counted.within k (under k lower)
    · intro k member
      rw [appliedOf_credit]
      rcases List.mem_cons.mp member with rfl | lower
      · rw [if_pos rfl,List.length_append,counted.counted l top]
        rfl
      · rw [if_neg (apart k lower)]
        exact counted.counted k (under k lower)
    · intro e member
      rcases List.mem_append.mp member with old | new
      · exact counted.credited e old
      · rw [List.mem_singleton.mp new]
        exact counted.below top
  | breaks => exact ⟨counted.nested,counted.known,counted.within,counted.counted,counted.credited,counted.filler,counted.conserved⟩

-- A loop that has something left to do is ready for it.
theorem Clean.ready (clean : Clean s) (shape : s.loops = l :: below) (unspent : ¬ Spent l) : s.Ready l := by
  rcases clean.inner l below shape with ready | spent
  · exact ready
  · exact absurd spent unspent

theorem replaced_clean {l' : ApplyLoop} (clean : Clean s) (shape : s.loops = l :: below) (cut : l'.cut = l.cut)
    (next : l'.next = l.next) (inner : s.Ready l' ∨ Spent l') : Clean {s with loops := l' :: below} := by
  refine ⟨clean.defined,?_,?_,?_,?_⟩
  · intro id batch here apart
    refine clean.past id batch here ?_
    rw [shape]
    intro k member
    rcases List.mem_cons.mp member with rfl | under
    · rw [← cut]
      exact apart l' List.mem_cons_self
    · exact apart k (List.mem_cons_of_mem _ under)
  · intro k member
    rcases List.mem_cons.mp member with rfl | under
    · rw [cut,next]
      exact clean.inOrder l (by rw [shape]; exact List.mem_cons_self)
    · exact clean.inOrder k (by rw [shape]; exact List.mem_cons_of_mem _ under)
  · intro k rest same
    cases same
    exact inner
  · intro k rest same
    cases same
    exact clean.outer l below shape

theorem onward_clean (counted : Counted s) (clean : Clean s) (shape : s.loops = l :: below)
    (last : l.rest.head? = some (.commit true) → l.rest.tail = [] ∧ l.next = l.ending)
    (onward : Onward program s l below t) : Clean t := by
  have top : l ∈ s.loops := by rw [shape]; exact List.mem_cons_self
  cases onward with
  | stages call alive =>
    have ready := clean.ready shape (fun spent => by rw [spent.2] at call; cases call)
    refine stage_clean ?_ _ _
    exact replaced_clean clean shape rfl rfl (.inl ready)
  | retains call alive =>
    have ready := clean.ready shape (fun spent => by rw [spent.2] at call; cases call)
    exact replaced_clean clean shape rfl rfl (.inl ready)
  | commits call alive =>
    obtain ⟨none_left,past⟩ := last (by rw [call]; rfl)
    rw [call] at none_left
    subst none_left
    have spent : Clean {s with loops := {l with rest := [],alive := false} :: below} :=
      replaced_clean clean shape rfl rfl (.inr ⟨past,rfl⟩)
    refine beginApply_clean (replaced_counted counted shape rfl rfl rfl) clean.defined spent.past spent.inOrder ?_
    intro k member
    rcases List.mem_cons.mp member with rfl | under
    · exact ⟨past,rfl⟩
    · exact clean.outer l below shape k under
  | ends idle past =>
    refine ⟨clean.defined,?_,?_,?_,?_⟩
    · intro id batch here apart
      by_cases same : l.cut = id
      · subst same
        obtain ⟨batch',here',length⟩ := counted.known l top
        rw [here] at here'
        cases here'
        have taken := clean.inOrder l top batch here
        rw [past,← length,List.take_length] at taken
        exact taken
      · refine clean.past id batch here ?_
        rw [shape]
        intro k member
        rcases List.mem_cons.mp member with rfl | under
        · exact same
        · exact apart k under
    · intro k under
      exact clean.inOrder k (by rw [shape]; exact List.mem_cons_of_mem _ under)
    · intro k rest same
      simp only at same
      exact .inr (clean.outer l below shape k (by rw [same]; exact List.mem_cons_self))
    · intro k rest same b under
      simp only at same
      exact clean.outer l below shape b (by rw [same]; exact List.mem_cons_of_mem _ under)
  | @calls code idle more cell =>
    have ready := clean.ready shape (fun spent => more spent.1)
    have nested := counted.nested
    rw [shape] at nested
    have apart : ∀ b ∈ below, l.cut ≠ b.cut := fun b member => Nat.ne_of_gt ((List.pairwise_cons.mp nested).1 b member)
    refine ⟨clean.defined,?_,?_,?_,?_⟩
    · intro id batch here others
      have other : l.cut ≠ id := others {l with next := l.next+1,rest := program code,alive := true} List.mem_cons_self
      rw [appliedOf_credit,if_neg other]
      refine clean.past id batch here ?_
      rw [shape]
      intro k member
      rcases List.mem_cons.mp member with rfl | under
      · exact other
      · exact others k (List.mem_cons_of_mem _ under)
    · intro k member batch here
      rw [appliedOf_credit]
      rcases List.mem_cons.mp member with rfl | under
      · have same : s.buffer = batch := Option.some.inj (ready.2.1.symm.trans here)
        rw [same] at cell
        rw [if_pos rfl,clean.inOrder l top batch here,List.take_add_one,cell]
        rfl
      · rw [if_neg (apart k under)]
        exact clean.inOrder k (by rw [shape]; exact List.mem_cons_of_mem _ under) batch here
    · intro k rest same
      cases same
      exact .inl ⟨ready.1,ready.2.1,rfl⟩
    · intro k rest same
      cases same
      exact clean.outer l below shape
  | breaks gone =>
    exfalso
    rcases gone with ⟨busy,dead⟩ | ⟨idle,more,cell⟩
    · have ready := clean.ready shape (fun spent => busy spent.2)
      rw [ready.2.2] at dead
      cases dead
    · have ready := clean.ready shape (fun spent => more spent.1)
      obtain ⟨batch,here,length⟩ := counted.known l top
      have same : s.buffer = batch := Option.some.inj (ready.2.1.symm.trans here)
      have bounded := counted.within l top
      rw [same,List.getElem?_eq_none_iff] at cell
      omega

theorem mint_flatten (slots : List (List Nat)) : (slots++[[]]).flatten = slots.flatten := by simp

theorem apply_counted (counted : Counted s) (allowed : s.Allowed a) : Counted (s.apply program a) := by
  cases a with
  | mint =>
    refine ⟨counted.nested,counted.known,counted.within,counted.counted,counted.credited,counted.filler,?_⟩
    simpa [apply,mint_flatten] using counted.conserved
  | stage slot code => exact stage_counted counted slot code
  | commit => exact beginApply_counted counted
  | goOn =>
    obtain ⟨l,below,shape⟩ := List.exists_cons_of_ne_nil allowed.1
    exact onward_counted counted shape (onward program shape)

theorem apply_clean (counted : Counted s) (clean : Clean s) (allowed : s.Allowed a) (last : s.Last a) :
    Clean (s.apply program a) := by
  cases a with
  | mint => exact ⟨clean.defined,clean.past,clean.inOrder,clean.inner,clean.outer⟩
  | stage slot code => exact stage_clean clean slot code
  | commit =>
    refine beginApply_clean counted clean.defined clean.past clean.inOrder ?_
    rw [allowed.1]
    exact fun l member => absurd member List.not_mem_nil
  | goOn =>
    obtain ⟨l,below,shape⟩ := List.exists_cons_of_ne_nil allowed.1
    refine onward_clean counted clean shape ?_ (onward program shape)
    refine last rfl l ?_
    rw [shape]
    rfl

-- A live commit that is not the last thing shows at once: the closure that
-- called it is gone, or the commands behind it are.
theorem unlast_shows (counted : Counted s) (allowed : s.Allowed a) (whole : Whole (s.apply program a)) : s.Last a := by
  rintro rfl l top call
  obtain ⟨first,below,shape⟩ := List.exists_cons_of_ne_nil allowed.1
  rw [shape] at top
  cases top
  have member : l ∈ s.loops := by rw [shape]; exact List.mem_cons_self
  have step := onward program shape
  change Whole (s.goOn program) at whole
  generalize s.goOn program = t at whole step
  cases step with
  | stages called => rw [called] at call; cases call
  | retains called => rw [called] at call; cases call
  | @commits rest called alive =>
    have here : {l with rest := rest,alive := false} ∈
        ({s with loops := {l with rest := rest,alive := false} :: below}.beginApply).loops :=
      List.mem_cons_of_mem _ List.mem_cons_self
    refine ⟨?_,?_⟩
    · rw [called,List.tail_cons]
      by_contra busy
      cases whole.running _ here busy
    · obtain ⟨batch,known,length⟩ := counted.known l member
      have bounded := counted.below member
      have later : ({s with loops := {l with rest := rest,alive := false} :: below}.beginApply).cuts[l.cut]? = some batch := by
        simp [beginApply,List.getElem?_append_left bounded,known]
      rcases whole.batches l.cut batch later with all | ⟨_,_,_,filled,_⟩
      · rw [← length,← counted.counted l member]
        exact congrArg List.length all
      · have fresh : s.cuts.length = l.cut := Option.some.inj filled
        omega
  | ends idle => rw [idle] at call; cases call
  | calls idle => rw [idle] at call; cases call
  | breaks => cases whole.defined

end Steps

end Reentry

-- Reentrant commits keep every batch whole exactly while each of them, unless
-- its token is cancelled, is the last thing that the last command of its batch
-- does. When no apply is under way whole batches have been applied in full.
theorem reentrant_commit_whole_iff (program : Nat → List CommandStep) (schedule : List ReentryAction)
    (run : (reentrySystem program).Each (reentrySystem program).allowed {} schedule) :
    ((reentrySystem program).Throughout Reentry.Whole {} schedule ↔ (reentrySystem program).Each Reentry.Last {} schedule) ∧
    ((reentrySystem program).Throughout Reentry.Whole {} schedule → ((reentrySystem program).follow {} schedule).loops = [] →
      ∀ id batch, ((reentrySystem program).follow {} schedule).cuts[id]? = some batch →
        ((reentrySystem program).follow {} schedule).appliedOf id = batch) := by
  refine ⟨?_,?_⟩
  · exact Machines.throughout_iff_each Reentry.Counted Reentry.Clean
      (fun s a counted allowed => Reentry.apply_counted counted allowed)
      (fun s a counted clean allowed last => Reentry.apply_clean counted clean allowed last)
      (fun s counted clean => clean.whole counted)
      (fun s a counted allowed whole => Reentry.unlast_shows counted allowed whole)
      Reentry.counted_initial Reentry.clean_initial run
  · intro throughout still id batch here
    rcases (Machines.throughout_last throughout).batches id batch here with all | ⟨l,member,_⟩
    · exact all
    · rw [still] at member
      cases member

-- Command 0 stages command 2 and commits at its end; command 1 does nothing.
def stagesAndCommits : Nat → List CommandStep
  | 0 => [.stage 0 2,.commit true]
  | _ => []

def applySteps (n : Nat) : List ReentryAction := .commit :: List.replicate n .goOn

theorem reentrant_commit_whole_last :
    ((reentrySystem stagesAndCommits).follow {} ([.mint,.stage 0 1,.stage 0 0]++applySteps 7)).applied = [(0,1),(0,0),(1,2)] ∧
    (reentrySystem stagesAndCommits).Throughout Reentry.Whole {} ([.mint,.stage 0 1,.stage 0 0]++applySteps 7) :=
  ⟨by decide,(reentrant_commit_whole_iff stagesAndCommits _ (Machines.each_of_admits (by decide))).1.mpr (by decide)⟩

-- The other way round the inner commit drops command 1.
theorem reentrant_commit_drops :
    let s := (reentrySystem stagesAndCommits).follow {} ([.mint,.stage 0 0,.stage 0 1]++applySteps 5)
    Machines.Reached (reentrySystem stagesAndCommits) s ∧
    s.cuts = [[0,1],[2]] ∧ s.applied = [(0,0),(1,2)] ∧ s.buffer = [] ∧ s.slots = [[]] ∧
    ((reentrySystem stagesAndCommits).apply s .goOn).undefined = true ∧ ¬ s.Whole := by
  intro s
  refine ⟨Machines.reached_follow (.start rfl) (by decide),by decide,by decide,by decide,by decide,by decide,?_⟩
  intro whole
  have held := whole.batches 0 [0,1] (by decide)
  have dropped : s.appliedOf 0 ≠ [0,1] := by decide
  have unfilled : s.filled = none := by decide
  rcases held with all | ⟨_,_,_,filled,_⟩
  · exact dropped all
  · rw [unfilled] at filled
    cases filled

end Macrame

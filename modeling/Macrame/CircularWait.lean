import Macrame.Lib.Machine
import Macrame.Lib.WaitFor
import Macrame.Lending

namespace Macrame

-- One edge of the registry: a suspended task holds one pipe and awaits another.
-- The ticket is the awaiter that recorded it.
structure WaitEdge where
  held : PipeId
  awaited : PipeId
  ticket : Nat
  waiter : Option BlockId
  deriving DecidableEq, Repr

-- What the fatal names: an object awaited by its own holder, or two tasks that
-- hold what the other awaits.
inductive CircularWait where
  | sameObject (waiter : Option BlockId) (held : PipeId)
  | crossing (waiter : Option BlockId) (held awaited : PipeId) (other : Option WaitEdge)
  deriving DecidableEq, Repr

-- `depth > 64` ends the search: 65 edges deep it still compares, and goes no further.
def searchDepth : Nat := 65

-- `wait_reaches`, with the depth that is left.
def waitReaches (edges : List WaitEdge) (target : PipeId) : Nat → PipeId → Bool
  | 0,source => source == target
  | depth+1,source =>
    source == target || edges.any (fun e => e.held == source && waitReaches edges target depth e.awaited)

-- The closing edge, with the counterpart edge out of the awaited pipe.
def closing (edges : List WaitEdge) (waiter : Option BlockId) (held awaited : PipeId) : CircularWait :=
  if awaited == held then .sameObject waiter held
  else .crossing waiter held awaited (edges.find? (fun e => e.held == awaited))

-- `Access_context::for_each_epoch`: the pipe behind every epoch source.
def AccessContext.heldPipes (ctx : AccessContext) : List PipeId := ctx.entries.filterMap Entry.epoch

-- The edges of one record in the order of its two loops; a null awaited pipe is skipped.
def waitPairs (held : Option AccessContext) (awaited : List (Option PipeId)) : List (PipeId × PipeId) :=
  match held with
  | none => []
  | some ctx => ctx.heldPipes.flatMap (fun p => (awaited.filterMap id).map (fun q => (p,q)))

section Record

variable (ticket : Nat) (waiter : Option BlockId)

def waitEdge (pair : PipeId × PipeId) : WaitEdge := ⟨pair.1,pair.2,ticket,waiter⟩

def recordPairs : List (PipeId × PipeId) → List WaitEdge → Except CircularWait (List WaitEdge)
  | [],edges => .ok edges
  | pair :: rest,edges =>
    if waitReaches edges pair.1 searchDepth pair.2 then .error (closing edges waiter pair.1 pair.2)
    else recordPairs rest (edges++[waitEdge ticket waiter pair])

end Record

-- `circular_wait_record`: the edges it leaves and whether it recorded any, or the fatal.
def circularWaitRecord (held : Option AccessContext) (ticket : Nat) (waiter : Option BlockId)
    (awaited : List (Option PipeId)) (edges : List WaitEdge) : Except CircularWait (List WaitEdge × Bool) :=
  (recordPairs ticket waiter (waitPairs held awaited) edges).map (fun after => (after,!(waitPairs held awaited).isEmpty))

def circularWaitClear (ticket : Nat) (edges : List WaitEdge) : List WaitEdge := edges.filter (fun e => e.ticket != ticket)

def Waits (edges : List WaitEdge) (a b : PipeId) : Prop := ∃ e ∈ edges, e.held = a ∧ e.awaited = b

theorem waitReaches_iff (edges : List WaitEdge) (target : PipeId) (depth : Nat) (source : PipeId) :
    waitReaches edges target depth source = true ↔ WaitFor.Within (Waits edges) depth source target := by
  induction depth generalizing source with
  | zero =>
    simp only [waitReaches,beq_iff_eq]
    constructor
    · rintro rfl
      exact .here
    · intro within
      cases within
      rfl
  | succ depth ih =>
    simp only [waitReaches,Bool.or_eq_true,beq_iff_eq,List.any_eq_true,Bool.and_eq_true,ih]
    constructor
    · rintro (rfl | ⟨e,member,rfl,on⟩)
      · exact .here
      · exact .step ⟨e,member,rfl,rfl⟩ on
    · intro within
      cases within with
      | here => exact .inl rfl
      | step first on =>
        obtain ⟨e,member,rfl,rfl⟩ := first
        exact .inr ⟨e,member,rfl,on⟩

theorem waits_append (edges more : List WaitEdge) (a b : PipeId) :
    Waits (edges++more) a b ↔ Waits edges a b ∨ Waits more a b := by
  simp only [Waits,List.mem_append]
  constructor
  · rintro ⟨e,old | new,ends⟩
    · exact .inl ⟨e,old,ends⟩
    · exact .inr ⟨e,new,ends⟩
  · rintro (⟨e,old,ends⟩ | ⟨e,new,ends⟩)
    · exact ⟨e,.inl old,ends⟩
    · exact ⟨e,.inr new,ends⟩

theorem waits_single (e : WaitEdge) (a b : PipeId) : Waits [e] a b ↔ a = e.held ∧ b = e.awaited := by
  simp [Waits,eq_comm]

section Laws

variable {ticket : Nat} {waiter : Option BlockId}

-- Where a record looks: at each pair, behind the edges it has added before it.
theorem recordPairs_fatal (pairs : List (PipeId × PipeId)) (edges : List WaitEdge) :
    (∃ wait, recordPairs ticket waiter pairs edges = .error wait) ↔ ∃ before pair rest, pairs = before++pair :: rest ∧
      WaitFor.Within (Waits (edges++before.map (waitEdge ticket waiter))) searchDepth pair.2 pair.1 := by
  induction pairs generalizing edges with
  | nil => simp [recordPairs]
  | cons first rest ih =>
    unfold recordPairs
    split
    · rename_i reaches
      refine ⟨fun _ => ⟨[],first,rest,rfl,?_⟩,fun _ => ⟨_,rfl⟩⟩
      simpa using (waitReaches_iff edges first.1 searchDepth first.2).mp reaches
    · rename_i apart
      rw [ih]
      constructor
      · rintro ⟨before,pair,after,rfl,within⟩
        exact ⟨first :: before,pair,after,rfl,by simpa using within⟩
      · rintro ⟨before,pair,after,split,within⟩
        cases before with
        | nil =>
          cases split
          exact absurd ((waitReaches_iff edges first.1 searchDepth first.2).mpr (by simpa using within)) apart
        | cons head before =>
          cases split
          exact ⟨before,pair,after,rfl,by simpa using within⟩

theorem recordPairs_ok (pairs : List (PipeId × PipeId)) (edges : List WaitEdge)
    (recorded : recordPairs ticket waiter pairs edges = .ok after) : after = edges++pairs.map (waitEdge ticket waiter) := by
  induction pairs generalizing edges with
  | nil => cases recorded; simp
  | cons first rest ih =>
    unfold recordPairs at recorded
    split at recorded
    · cases recorded
    · rw [ih _ recorded]
      simp

-- One of the new edges closes a cycle with the live edges and those added before it.
def Closes (ticket : Nat) (waiter : Option BlockId) (pairs : List (PipeId × PipeId)) (edges : List WaitEdge) : Prop :=
  ∃ before pair rest, pairs = before++pair :: rest ∧
    WaitFor.Acyclic (Waits (edges++before.map (waitEdge ticket waiter))) ∧
    ¬ WaitFor.Acyclic (Waits (edges++(before++[pair]).map (waitEdge ticket waiter)))

-- One of them closes a cycle that the search is deep enough to see.
def ClosesShort (ticket : Nat) (waiter : Option BlockId) (pairs : List (PipeId × PipeId)) (edges : List WaitEdge) : Prop :=
  ∃ before pair rest, pairs = before++pair :: rest ∧
    WaitFor.Within (Waits (edges++before.map (waitEdge ticket waiter))) searchDepth pair.2 pair.1

theorem acyclic_add (acyclic : WaitFor.Acyclic (Waits edges)) (e : WaitEdge) :
    WaitFor.Acyclic (Waits (edges++[e])) ↔ ¬ Relation.ReflTransGen (Waits edges) e.awaited e.held := by
  rw [← WaitFor.acyclic_insert acyclic]
  have same : Waits (edges++[e]) = fun a b => Waits edges a b ∨ a = e.held ∧ b = e.awaited := by
    funext a b
    rw [eq_iff_iff,waits_append,waits_single]
  rw [same]

-- The first edge that is led back to its start closes the cycle.
theorem closes_of_chain (before : List (PipeId × PipeId)) (edges : List WaitEdge) (acyclic : WaitFor.Acyclic (Waits edges))
    (back : Relation.ReflTransGen (Waits (edges++before.map (waitEdge ticket waiter))) pair.2 pair.1) :
    Closes ticket waiter (before++pair :: rest) edges := by
  induction before generalizing edges with
  | nil =>
    have closed : ¬ WaitFor.Acyclic (Waits (edges++[waitEdge ticket waiter pair])) := by
      intro stays
      exact (acyclic_add acyclic _).mp stays (by simpa [waitEdge] using back)
    exact ⟨[],pair,rest,rfl,by simpa using acyclic,closed⟩
  | cons head before ih =>
    by_cases stays : WaitFor.Acyclic (Waits (edges++[waitEdge ticket waiter head]))
    · obtain ⟨earlier,last,more,split,open_yet,closed⟩ := ih _ stays (by simpa using back)
      refine ⟨head :: earlier,last,more,by rw [List.cons_append,split]; rfl,?_,?_⟩
      · simpa using open_yet
      · simpa using closed
    · exact ⟨[],head,before++pair :: rest,rfl,by simpa using acyclic,by simpa using stays⟩

theorem closes_iff (acyclic : WaitFor.Acyclic (Waits edges)) : Closes ticket waiter pairs edges ↔
    ∃ before pair rest, pairs = before++pair :: rest ∧
      Relation.ReflTransGen (Waits (edges++before.map (waitEdge ticket waiter))) pair.2 pair.1 := by
  constructor
  · rintro ⟨before,pair,rest,split,open_yet,closed⟩
    refine ⟨before,pair,rest,split,?_⟩
    rw [List.map_append,← List.append_assoc] at closed
    by_contra apart
    exact closed ((acyclic_add open_yet _).mpr apart)
  · rintro ⟨before,pair,rest,rfl,back⟩
    exact closes_of_chain before edges acyclic back

theorem short_closes (acyclic : WaitFor.Acyclic (Waits edges)) (short : ClosesShort ticket waiter pairs edges) :
    Closes ticket waiter pairs edges := by
  obtain ⟨before,pair,rest,split,within⟩ := short
  exact (closes_iff acyclic).mpr ⟨before,pair,rest,split,within.chain⟩

-- A record that closes nothing keeps the registry acyclic.
theorem acyclic_all (pairs : List (PipeId × PipeId)) (edges : List WaitEdge) (acyclic : WaitFor.Acyclic (Waits edges))
    (unclosed : ¬ Closes ticket waiter pairs edges) :
    WaitFor.Acyclic (Waits (edges++pairs.map (waitEdge ticket waiter))) := by
  induction pairs using List.reverseRecOn with
  | nil => simpa using acyclic
  | append_singleton before pair ih =>
    have earlier : ¬ Closes ticket waiter before edges := by
      rintro ⟨first,last,rest,rfl,closed⟩
      exact unclosed ⟨first,last,rest++[pair],by simp,closed⟩
    by_contra closed
    exact unclosed ⟨before,pair,[],rfl,ih earlier,closed⟩

end Laws

-- The registry under its mutex: every record and every clear is one step, and a
-- fatal record is none.
inductive WaitAction where
  | record (held : Option AccessContext) (ticket : Nat) (waiter : Option BlockId) (awaited : List (Option PipeId))
  | clear (ticket : Nat)

namespace WaitAction

def Fatal (edges : List WaitEdge) : WaitAction → Prop
  | .record held ticket waiter awaited => (circularWaitRecord held ticket waiter awaited edges).isOk = false
  | .clear _ => False

instance (edges : List WaitEdge) : (a : WaitAction) → Decidable (a.Fatal edges)
  | .record _ _ _ _ => inferInstanceAs (Decidable (_ = false))
  | .clear _ => inferInstanceAs (Decidable False)

def apply (edges : List WaitEdge) : WaitAction → List WaitEdge
  | .record held ticket waiter awaited =>
    match circularWaitRecord held ticket waiter awaited edges with
    | .error _ => edges
    | .ok after => after.1
  | .clear ticket => circularWaitClear ticket edges

def closes (edges : List WaitEdge) : WaitAction → Prop
  | .record held ticket waiter awaited => Closes ticket waiter (waitPairs held awaited) edges
  | .clear _ => False

-- A call that closes a cycle closes one by at most 65 edges.
def Seen (edges : List WaitEdge) : WaitAction → Prop
  | .record held ticket waiter awaited =>
    Closes ticket waiter (waitPairs held awaited) edges → ClosesShort ticket waiter (waitPairs held awaited) edges
  | .clear _ => True

end WaitAction

def waitSystem : Machines.Machine (List WaitEdge) WaitAction := ⟨(· = []),fun edges a => ¬ a.Fatal edges,WaitAction.apply⟩

instance (edges : List WaitEdge) (a : WaitAction) : Decidable (waitSystem.allowed edges a) :=
  inferInstanceAs (Decidable (¬ a.Fatal edges))

def seenSystem : Machines.Machine (List WaitEdge) WaitAction :=
  ⟨(· = []),fun edges a => ¬ a.Fatal edges ∧ a.Seen edges,WaitAction.apply⟩

section Registry

variable {edges : List WaitEdge}

theorem record_fatal (held : Option AccessContext) (ticket : Nat) (waiter : Option BlockId) (awaited : List (Option PipeId)) :
    (WaitAction.record held ticket waiter awaited).Fatal edges ↔ ClosesShort ticket waiter (waitPairs held awaited) edges := by
  unfold ClosesShort
  rw [← recordPairs_fatal]
  simp only [WaitAction.Fatal,circularWaitRecord]
  cases recordPairs ticket waiter (waitPairs held awaited) edges <;> simp [Except.map,Except.isOk,Except.toBool]

theorem record_apply (unharmed : ¬ (WaitAction.record held ticket waiter awaited).Fatal edges) :
    (WaitAction.record held ticket waiter awaited).apply edges = edges++(waitPairs held awaited).map (waitEdge ticket waiter) := by
  simp only [WaitAction.Fatal,WaitAction.apply,circularWaitRecord] at unharmed ⊢
  cases recorded : recordPairs ticket waiter (waitPairs held awaited) edges with
  | error wait => simp [recorded,Except.map,Except.isOk,Except.toBool] at unharmed
  | ok after => exact recordPairs_ok _ _ recorded

theorem acyclic_nil : WaitFor.Acyclic (Waits []) := by
  intro a cycle
  obtain ⟨_,⟨e,member,_⟩,_⟩ := Relation.TransGen.head'_iff.mp cycle
  cases member

theorem clear_waits (ticket : Nat) (a b : PipeId) (waits : Waits (circularWaitClear ticket edges) a b) : Waits edges a b := by
  obtain ⟨e,member,ends⟩ := waits
  exact ⟨e,(List.mem_filter.mp member).1,ends⟩

theorem seen_acyclic (acyclic : WaitFor.Acyclic (Waits edges)) (unharmed : ¬ WaitAction.Fatal edges a) (seen : a.Seen edges) :
    WaitFor.Acyclic (Waits (a.apply edges)) := by
  cases a with
  | clear ticket => exact acyclic.mono (clear_waits ticket)
  | record held ticket waiter awaited =>
    rw [record_apply unharmed]
    refine acyclic_all _ _ acyclic ?_
    intro closes
    exact unharmed ((record_fatal held ticket waiter awaited).mpr (seen closes))

end Registry

-- On an acyclic registry a call is fatal exactly when it closes a cycle, where it
-- closes one within reach of the search; and the registry stays acyclic as long as
-- every call is of that kind.
theorem circular_wait_complete_iff (edges : List WaitEdge) :
    (∀ a, WaitFor.Acyclic (Waits edges) →
      ((WaitAction.Fatal edges a ↔ WaitAction.closes edges a) ↔ WaitAction.Seen edges a)) ∧
    (Machines.Reached seenSystem edges → WaitFor.Acyclic (Waits edges)) := by
  refine ⟨?_,?_⟩
  · intro a acyclic
    cases a with
    | clear ticket => simp [WaitAction.Fatal,WaitAction.closes,WaitAction.Seen]
    | record held ticket waiter awaited =>
      rw [record_fatal]
      simp only [WaitAction.closes,WaitAction.Seen]
      exact ⟨fun same => same.mpr,fun seen => ⟨short_closes acyclic,seen⟩⟩
  · intro path
    refine Machines.reached_invariant (fun edges => WaitFor.Acyclic (Waits edges)) ?_ ?_ path
    · rintro edges rfl
      exact acyclic_nil
    · intro edges a acyclic allowed
      exact seen_acyclic acyclic allowed.1 allowed.2

-- Participant `i` holds object `i` and awaits the next.
def awaitsNext (i next : Nat) : WaitAction :=
  .record (some (.single ⟨i,.readWrite,some i,1,0⟩)) i none [some next]

-- Two waits are on record, 2 for 0 and 0 for 1; then 1 awaits 0.
def twoWaits : List WaitEdge := waitSystem.follow [] [awaitsNext 0 1,awaitsNext 2 0]

theorem circular_wait_complete_crossing :
    twoWaits = [⟨0,1,0,none⟩,⟨2,0,2,none⟩] ∧
    circularWaitRecord (some (.single ⟨1,.readWrite,some 1,1,0⟩)) 1 none [some 0] twoWaits =
      .error (.crossing none 1 0 (some ⟨0,1,0,none⟩)) ∧
    (awaitsNext 1 0).closes twoWaits := by
  have edges : twoWaits = [⟨0,1,0,none⟩,⟨2,0,2,none⟩] := rfl
  -- 2 waits for 0 and 0 for 1
  have acyclic : WaitFor.Acyclic (Waits twoWaits) := by
    refine WaitFor.acyclic_of_climbs (fun p => (p+1) % 3) ?_
    intro p q ⟨e,member,held,awaited⟩
    have climbs : ∀ e ∈ twoWaits, (e.held+1) % 3 < (e.awaited+1) % 3 := by decide
    rw [← held,← awaited]
    exact climbs e member
  have fatal : (awaitsNext 1 0).Fatal twoWaits := by decide
  have seen : (awaitsNext 1 0).Seen twoWaits := fun _ => ⟨[],(1,0),[],rfl,.step ⟨⟨0,1,0,none⟩,by rw [edges]; decide,rfl,rfl⟩ .here⟩
  exact ⟨edges,rfl,(((circular_wait_complete_iff twoWaits).1 (awaitsNext 1 0) acyclic).mpr seen).mp fatal⟩

-- Sixty-seven participants in a ring: the search from the last awaited object ends
-- one edge short of the last held one.
def ringRun : List WaitAction := (List.range 66).map (fun i => awaitsNext i (i+1))++[awaitsNext 66 0]

theorem circular_wait_missed_ring :
    Machines.Reached waitSystem (waitSystem.follow [] ringRun) ∧
    ¬ WaitFor.Acyclic (Waits (waitSystem.follow [] ringRun)) := by
  refine ⟨Machines.reached_follow (.start rfl) (by decide +kernel),?_⟩
  have nexts : ∀ i < 66, (⟨i,i+1,i,none⟩ : WaitEdge) ∈ waitSystem.follow [] ringRun := by decide +kernel
  have last : (⟨66,0,66,none⟩ : WaitEdge) ∈ waitSystem.follow [] ringRun := by decide +kernel
  have chain : ∀ i : Nat, i ≤ 66 → Relation.ReflTransGen (Waits (waitSystem.follow [] ringRun)) 0 i := by
    intro i
    induction i with
    | zero => exact fun _ => .refl
    | succ i ih =>
      intro below
      exact .tail (ih (Nat.le_of_succ_le below)) ⟨_,nexts i (Nat.lt_of_succ_le below),rfl,rfl⟩
  intro acyclic
  exact acyclic 0 (.tail' (chain 66 (Nat.le_refl 66)) ⟨_,last,rfl,rfl⟩)

section Currency

variable (ticket : Nat) (waiter : Option BlockId)

-- The edges a record tests, stored or not: all up to the one it is fatal at.
def testedPairs : List (PipeId × PipeId) → List WaitEdge → List (PipeId × PipeId)
  | [],_ => []
  | pair :: rest,edges =>
    if waitReaches edges pair.1 searchDepth pair.2 then [pair]
    else pair :: testedPairs rest (edges++[waitEdge ticket waiter pair])

-- The context still has the object: the currency test of `rank_state`.
def AccessContext.HasCurrent (ctx : AccessContext) (epochs : PipeId → Nat) (p : PipeId) : Prop :=
  ∃ e ∈ ctx.entries, e.epoch = some p ∧ e.current epochs = true

-- What the law asks of one record: every edge it stores or tests starts at a current grant.
def OnlyCurrent (epochs : PipeId → Nat) (ctx : AccessContext) (awaited : List (Option PipeId)) (edges : List WaitEdge) : Prop :=
  ∀ pair ∈ testedPairs ticket waiter (waitPairs (some ctx) awaited) edges, ctx.HasCurrent epochs pair.1

-- Nothing is awaited, or every grant is current that no edge of an earlier one stops
-- the program before.
def Fresh (epochs : PipeId → Nat) (ctx : AccessContext) (awaited : List (Option PipeId)) (edges : List WaitEdge) : Prop :=
  awaited.filterMap id = [] ∨ ∀ before p rest, ctx.heldPipes = before++p :: rest →
    (recordPairs ticket waiter (before.flatMap (fun p => (awaited.filterMap id).map (fun q => (p,q)))) edges).isOk = true →
    ctx.HasCurrent epochs p

end Currency

theorem waitPairs_nil (ctx : AccessContext) (awaited : List (Option PipeId)) :
    waitPairs (some ctx) awaited = [] ↔ awaited.filterMap id = [] ∨ ctx.heldPipes = [] := by
  simp only [waitPairs,List.flatMap_eq_nil_iff,List.map_eq_nil_iff]
  constructor
  · intro none_paired
    by_cases empty : ctx.heldPipes = []
    · exact .inr empty
    · obtain ⟨p,rest,split⟩ := List.exists_cons_of_ne_nil empty
      exact .inl (none_paired p (by simp [split]))
  · rintro (idle | empty) p member
    · exact idle
    · rw [empty] at member
      cases member

section Currency

variable {ticket : Nat} {waiter : Option BlockId}

theorem recordPairs_append (one two : List (PipeId × PipeId)) (edges : List WaitEdge) :
    recordPairs ticket waiter (one++two) edges = match recordPairs ticket waiter one edges with
      | .error wait => .error wait
      | .ok after => recordPairs ticket waiter two after := by
  induction one generalizing edges with
  | nil => rfl
  | cons pair rest ih =>
    simp only [List.cons_append,recordPairs]
    split
    · rfl
    · exact ih _

theorem tested_append (one two : List (PipeId × PipeId)) (edges : List WaitEdge) :
    testedPairs ticket waiter (one++two) edges = match recordPairs ticket waiter one edges with
      | .error _ => testedPairs ticket waiter one edges
      | .ok after => one++testedPairs ticket waiter two after := by
  induction one generalizing edges with
  | nil => rfl
  | cons pair rest ih =>
    simp only [List.cons_append,testedPairs,recordPairs]
    split
    · rfl
    · rw [ih]
      cases recordPairs ticket waiter rest (edges++[waitEdge ticket waiter pair]) <;> rfl

theorem tested_subset (pairs : List (PipeId × PipeId)) (edges : List WaitEdge) :
    testedPairs ticket waiter pairs edges ⊆ pairs := by
  induction pairs generalizing edges with
  | nil => exact fun _ member => member
  | cons pair rest ih =>
    simp only [testedPairs]
    split
    · simp
    · exact List.cons_subset_cons _ (ih _)

theorem tested_first (pair : PipeId × PipeId) (rest : List (PipeId × PipeId)) (edges : List WaitEdge) :
    pair ∈ testedPairs ticket waiter (pair :: rest) edges := by
  simp only [testedPairs]
  split <;> simp

-- The held ends that are tested are those the scan comes to.
theorem tested_held (awaited : List PipeId) (some_awaited : awaited ≠ []) (held : List PipeId) (edges : List WaitEdge) (p : PipeId) :
    (∃ q, (p,q) ∈ testedPairs ticket waiter (held.flatMap (fun p => awaited.map (fun q => (p,q)))) edges) ↔
      ∃ before rest, held = before++p :: rest ∧
        (recordPairs ticket waiter (before.flatMap (fun p => awaited.map (fun q => (p,q)))) edges).isOk = true := by
  induction held generalizing edges with
  | nil => simp [testedPairs]
  | cons first rest ih =>
    obtain ⟨q,more,split⟩ := List.exists_cons_of_ne_nil some_awaited
    have row : ∀ edges, (∃ q, (p,q) ∈ testedPairs ticket waiter (awaited.map (fun q => (first,q))) edges) ↔ p = first := by
      intro edges
      constructor
      · rintro ⟨q,member⟩
        have here := tested_subset _ _ member
        simp only [List.mem_map,Prod.mk.injEq] at here
        obtain ⟨_,_,same,_⟩ := here
        exact same.symm
      · rintro rfl
        exact ⟨q,by rw [split,List.map_cons]; exact tested_first _ _ _⟩
    rw [List.flatMap_cons,tested_append]
    cases recorded : recordPairs ticket waiter (awaited.map (fun q => (first,q))) edges with
    | error wait =>
      simp only [row]
      constructor
      · rintro rfl
        exact ⟨[],rest,rfl,rfl⟩
      · rintro ⟨before,after,splits,succeeds⟩
        cases before with
        | nil => cases splits; rfl
        | cons head before =>
          cases splits
          rw [List.flatMap_cons,recordPairs_append,recorded] at succeeds
          cases succeeds
    | ok later =>
      simp only [List.mem_append]
      constructor
      · rintro ⟨q,own | behind⟩
        · simp only [List.mem_map,Prod.mk.injEq] at own
          obtain ⟨_,_,rfl,_⟩ := own
          exact ⟨[],rest,rfl,rfl⟩
        · obtain ⟨before,after,rfl,succeeds⟩ := (ih later).mp ⟨q,behind⟩
          refine ⟨first :: before,after,rfl,?_⟩
          rw [List.flatMap_cons,recordPairs_append,recorded]
          exact succeeds
      · rintro ⟨before,after,splits,succeeds⟩
        cases before with
        | nil =>
          cases splits
          exact ⟨q,.inl (List.mem_map.mpr ⟨q,by simp [split],rfl⟩)⟩
        | cons head before =>
          cases splits
          rw [List.flatMap_cons,recordPairs_append,recorded] at succeeds
          obtain ⟨q,behind⟩ := (ih later).mpr ⟨before,after,rfl,succeeds⟩
          exact ⟨q,.inr behind⟩

theorem only_current_iff (epochs : PipeId → Nat) (ctx : AccessContext) (awaited : List (Option PipeId)) (edges : List WaitEdge) :
    OnlyCurrent ticket waiter epochs ctx awaited edges ↔ Fresh ticket waiter epochs ctx awaited edges := by
  unfold OnlyCurrent Fresh
  by_cases idle : awaited.filterMap id = []
  · refine ⟨fun _ => .inl idle,?_⟩
    rintro _ pair tested
    rw [(waitPairs_nil ctx awaited).mpr (.inl idle)] at tested
    cases tested
  · have held := @tested_held ticket waiter (awaited.filterMap id) idle ctx.heldPipes edges
    constructor
    · intro current
      refine .inr ?_
      intro before p rest split succeeds
      obtain ⟨q,tested⟩ := (held p).mpr ⟨before,rest,split,succeeds⟩
      exact current (p,q) tested
    · rintro (none_awaited | fresh) ⟨p,q⟩ tested
      · exact absurd none_awaited idle
      · obtain ⟨before,rest,split,succeeds⟩ := (held p).mp ⟨q,tested⟩
        exact fresh before p rest split succeeds

end Currency

-- In any state of any run, and whatever is in the registry: a record stores and tests
-- only edges of current grants exactly when no grant the scan comes to is stale; and
-- current or not, it does nothing only without a grant or with nothing awaited.
theorem waits_current_iff_fresh (s : State) (ctx : AccessContext) (ticket : Nat) (waiter : Option BlockId)
    (awaited : List (Option PipeId)) (edges : List WaitEdge) :
    (OnlyCurrent ticket waiter s.epochs ctx awaited edges ↔ Fresh ticket waiter s.epochs ctx awaited edges) ∧
    (circularWaitRecord (some ctx) ticket waiter awaited edges = .ok (edges,false) ↔
      awaited.filterMap id = [] ∨ ctx.heldPipes = []) := by
  refine ⟨only_current_iff s.epochs ctx awaited edges,?_⟩
  rw [← waitPairs_nil]
  unfold circularWaitRecord
  constructor
  · intro silent
    cases recorded : recordPairs ticket waiter (waitPairs (some ctx) awaited) edges with
    | error wait => rw [recorded] at silent; cases silent
    | ok after =>
      rw [recorded] at silent
      simp only [Except.map,Except.ok.injEq,Prod.mk.injEq,Bool.not_eq_false',List.isEmpty_iff] at silent
      exact silent.2
  · intro none_paired
    rw [none_paired]
    rfl

-- Task 0 has released object 0 and task 1 writes it. A coroutine with task 0's context
-- awaits object 1, held by a task that awaits object 0: no wait of its own is circular.
theorem waits_stale_outlived :
    let s := system.follow (system.follow .initial twoWindows) handedOver
    Machines.Reached system s ∧ (∀ p, ¬ outlivedSnapshot.context.HasCurrent s.epochs p) ∧
    circularWaitRecord (some outlivedSnapshot.context) 7 none [some 1] [] = .ok ([⟨0,1,7,none⟩],true) ∧
    circularWaitRecord (some outlivedSnapshot.context) 7 none [some 1] [⟨1,0,8,none⟩] =
      .error (.crossing none 0 1 (some ⟨1,0,8,none⟩)) ∧
    ¬ OnlyCurrent 7 none s.epochs outlivedSnapshot.context [some 1] [] := by
  intro s
  have stale : ∀ p, ¬ outlivedSnapshot.context.HasCurrent s.epochs p := by
    have closed : ∀ e ∈ outlivedSnapshot.context.entries, e.current s.epochs = false := by decide
    rintro p ⟨e,member,_,current⟩
    rw [closed e member] at current
    cases current
  refine ⟨Machines.reached_follow (Machines.reached_follow (.start rfl) (by decide)) (by decide),stale,by decide,by decide,?_⟩
  intro current
  exact stale 0 (current (0,1) (by decide))

end Macrame

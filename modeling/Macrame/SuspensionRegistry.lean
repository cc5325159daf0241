import Macrame.AccessContext
import Macrame.Lib.Linked
import Macrame.Lib.Machine

namespace Macrame.SuspensionRegistry
open Machines Linked

-- A record's address: it lies in the coroutine's frame.
abbrev RecordId := Nat

def suspensionShardCount : Nat := 64

def maxHeld : Nat := 4

-- `Suspension_record` but for its links.
structure Suspension where
  shard : Nat := 0
  task : Option Nat := none
  awaitedTask : Option Nat := none
  awaitedPipe : Option PipeId := none
  held : List PipeId := []
  deriving DecidableEq, Repr

def suspensionShardOf (record : RecordId) : Nat := (record >>> 6) % suspensionShardCount

-- A context may hold more than the record has room for.
def capture (held : List PipeId) (epoch : PipeId) : List PipeId := if held.length < maxHeld then held++[epoch] else held

def suspensionCaptureHeld (record : Suspension) : Option AccessContext → Suspension
  | none => record
  | some ctx => {record with held := (ctx.entries.filterMap Entry.epoch).foldl capture record.held}

-- A thread in `suspension_count` or in the report of all suspensions. With a cursor
-- it holds the mutex of the shard and stands at that record. `always` are the records
-- registered ever since it began and `ever` those that were at any time: history.
structure Walk where
  shard : Nat := 0
  cursor : Option (Option RecordId) := none
  seen : List (RecordId × Suspension) := []
  always : RecordId → Bool
  ever : RecordId → Bool

-- `registered` are the awaiters' flags `registered_`.
structure Registry where
  links : Links RecordId := ⟨fun _ => none,fun _ => none⟩
  heads : Nat → Option RecordId := fun _ => none
  records : RecordId → Suspension := fun _ => {}
  registered : RecordId → Bool := fun _ => false
  mutex : Nat → Option Nat := fun _ => none
  walks : Nat → Option Walk := fun _ => none

-- `build` is a new awaiter at the address.
inductive RegistryAction where
  | build (record : RecordId)
  | suspend (record : RecordId) (running : Option Nat) (awaitedTask : Option Nat) (awaitedPipe : Option PipeId) (ctx : Option AccessContext)
  | resume (record : RecordId)
  | begin (w : Nat)
  | enter (w : Nat)
  | step (w : Nat)
  | leave (w : Nat)
  deriving DecidableEq, Repr

namespace Registry

-- `suspension_link`, the awaited work noted in the record before.
def suspensionLink (s : Registry) (record : RecordId) (info : Suspension) (running : Option Nat) (ctx : Option AccessContext) : Registry :=
  let info := suspensionCaptureHeld {info with task := running} ctx
  let shard := suspensionShardOf record
  {s with
    records := Function.update s.records record {info with shard := shard}
    links := push s.links (s.heads shard) record
    heads := Function.update s.heads shard (some record)}

-- `suspension_unlink`: the record's own shard, whichever thread it is.
def suspensionUnlink (s : Registry) (record : RecordId) : Registry :=
  let shard := (s.records record).shard
  let heads := match s.links.prev record with
    | some _ => s.heads
    | none => if s.heads shard = some record then Function.update s.heads shard (s.links.next record) else s.heads
  {s with heads := heads, links := setNext (setPrev (bypass s.links record) record none) record none}

def Allowed (s : Registry) : RegistryAction → Prop
  | .build record => s.registered record = false
  | .suspend record _ _ _ _ => s.registered record = false ∧ s.mutex (suspensionShardOf record) = none
  | .resume record => s.registered record = true ∧ s.mutex (s.records record).shard = none
  | .begin w => s.walks w = none
  | .enter w => ∃ walk ∈ s.walks w, walk.cursor = none ∧ walk.shard < suspensionShardCount ∧ s.mutex walk.shard = none
  | .step w => ∃ walk ∈ s.walks w, ∃ at_ ∈ walk.cursor, at_ ≠ none
  | .leave w => ∃ walk ∈ s.walks w, walk.cursor = some none

def setWalk (s : Registry) (w : Nat) (walk : Walk) : Registry := {s with walks := Function.update s.walks w (some walk)}

def apply (s : Registry) : RegistryAction → Registry
  | .build record => {s with records := Function.update s.records record {}}
  | .suspend record running awaitedTask awaitedPipe ctx =>
    let info := {s.records record with awaitedTask := awaitedTask, awaitedPipe := awaitedPipe}
    {s.suspensionLink record info running ctx with
      registered := Function.update s.registered record true
      walks := fun w => (s.walks w).map (fun walk => {walk with ever := Function.update walk.ever record true})}
  | .resume record =>
    {s.suspensionUnlink record with
      registered := Function.update s.registered record false
      walks := fun w => (s.walks w).map (fun walk => {walk with always := Function.update walk.always record false})}
  | .begin w => s.setWalk w {always := s.registered, ever := s.registered}
  | .enter w =>
    match s.walks w with
    | none => s
    | some walk =>
      {s with mutex := Function.update s.mutex walk.shard (some w)}.setWalk w {walk with cursor := some (s.heads walk.shard)}
  | .step w =>
    match s.walks w with
    | none => s
    | some walk =>
      match walk.cursor with
      | some (some record) =>
        s.setWalk w {walk with cursor := some (s.links.next record), seen := walk.seen++[(record,s.records record)]}
      | _ => s
  | .leave w =>
    match s.walks w with
    | none => s
    | some walk =>
      {s with mutex := Function.update s.mutex walk.shard none}.setWalk w {walk with cursor := none, shard := walk.shard+1}

instance decideAllowed (s : Registry) : (a : RegistryAction) → Decidable (s.Allowed a)
  | .build _ => inferInstanceAs (Decidable (_ = _))
  | .suspend .. => inferInstanceAs (Decidable (_ ∧ _))
  | .resume _ => inferInstanceAs (Decidable (_ ∧ _))
  | .begin w => decidable_of_iff ((s.walks w).isNone = true) Option.isNone_iff_eq_none
  | .enter w => inferInstanceAs (Decidable (∃ walk ∈ s.walks w, _))
  | .step w => inferInstanceAs (Decidable (∃ walk ∈ s.walks w, ∃ at_ ∈ walk.cursor, _))
  | .leave w => inferInstanceAs (Decidable (∃ walk ∈ s.walks w, _))

end Registry

def registrySystem : Machine Registry RegistryAction := ⟨(· = {}),Registry.Allowed,Registry.apply⟩

instance decideRegistry (s : Registry) (a : RegistryAction) : Decidable (registrySystem.allowed s a) :=
  Registry.decideAllowed s a

-- What a walk has read of the shards before `shard`.
structure Complete (records : RecordId → Suspension) (always ever : RecordId → Bool) (shard : Nat)
    (seen : List (RecordId × Suspension)) : Prop where
  distinct : (seen.map Prod.fst).Nodup
  known : ∀ line ∈ seen, ever line.1 = true ∧ suspensionShardOf line.1 < shard
  all : ∀ r, always r = true → suspensionShardOf r < shard → (r,records r) ∈ seen

def lines (records : RecordId → Suspension) (list : List RecordId) : List (RecordId × Suspension) := list.map (fun r => (r,records r))

-- Each shard's list is of the records that are registered and whose address is of
-- the shard; the others are linked to nothing.
structure Shelved (s : Registry) (lists : Nat → List RecordId) : Prop where
  listed : ∀ k, Listed s.links none (s.heads k) (lists k)
  distinct : ∀ k, (lists k).Nodup
  members : ∀ k r, r ∈ lists k ↔ s.registered r = true ∧ suspensionShardOf r = k
  shards : ∀ r, s.registered r = true → (s.records r).shard = suspensionShardOf r
  unlinked : ∀ r, s.registered r = false → s.links.next r = none ∧ s.links.prev r = none
  short : ∀ r, (s.records r).held.length ≤ maxHeld

-- A walk within a shard has read the list as far as its cursor.
def Visits (s : Registry) (lists : Nat → List RecordId) (walk : Walk) : Prop :=
  match walk.cursor with
  | none => Complete s.records walk.always walk.ever walk.shard walk.seen
  | some cursor => ∃ old done rest, walk.seen = old++lines s.records done ∧
      Complete s.records walk.always walk.ever walk.shard old ∧ lists walk.shard = done++rest ∧
      Listed s.links done.getLast? cursor rest

structure Walked (s : Registry) (lists : Nat → List RecordId) (w : Nat) (walk : Walk) : Prop where
  place : walk.shard ≤ suspensionShardCount
  holding : walk.cursor ≠ none → walk.shard < suspensionShardCount ∧ s.mutex walk.shard = some w
  lower : ∀ r, walk.always r = true → s.registered r = true
  upper : ∀ r, s.registered r = true → walk.ever r = true
  visits : Visits s lists walk

structure Kept (s : Registry) (lists : Nat → List RecordId) : Prop where
  shelved : Shelved s lists
  walked : ∀ w walk, s.walks w = some walk → Walked s lists w walk

section Lists

variable {s t : Registry} {lists lists' : Nat → List RecordId} {records records' : RecordId → Suspension}
variable {always always' ever ever' : RecordId → Bool} {list : List RecordId} {walk : Walk} {r : RecordId} {k w : Nat}

theorem Complete.mono (complete : Complete records always ever shard seen) (fewer : ∀ r, always' r = true → always r = true)
    (more : ∀ r, ever r = true → ever' r = true) (same : ∀ r, always' r = true → records' r = records r) :
    Complete records' always' ever' shard seen := by
  refine ⟨complete.distinct,?_,?_⟩
  · intro line member
    obtain ⟨known,lower⟩ := complete.known line member
    exact ⟨more line.1 known,lower⟩
  · intro r standing lower
    rw [same r standing]
    exact complete.all r (fewer r standing) lower

theorem lines_congr (same : ∀ r ∈ list, records' r = records r) : lines records' list = lines records list := by
  refine List.map_congr_left ?_
  intro r member
  rw [same r member]

theorem capture_short (epochs : List PipeId) (held : List PipeId) (short : held.length ≤ maxHeld) :
    (epochs.foldl capture held).length ≤ maxHeld := by
  induction epochs generalizing held with
  | nil => exact short
  | cons epoch rest ih =>
    refine ih _ ?_
    unfold capture
    split
    · rw [List.length_append]
      exact Nat.succ_le_of_lt ‹_›
    · exact short

theorem capture_held (info : Suspension) (ctx : Option AccessContext) (short : info.held.length ≤ maxHeld) :
    (suspensionCaptureHeld info ctx).held.length ≤ maxHeld := by
  cases ctx with
  | none => exact short
  | some ctx => exact capture_short _ _ short

theorem Shelved.head (shelved : Shelved s lists) (first : s.heads k = some a) : a ∈ lists k := by
  have listed := shelved.listed k
  cases list : lists k with
  | nil =>
    rw [list,first] at listed
    cases listed
  | cons b rest =>
    rw [list,first] at listed
    cases listed.1
    exact List.mem_cons_self

-- A node's neighbours are in its list.
theorem Shelved.near (shelved : Shelved s lists) (member : r ∈ lists k) :
    (∀ a, s.links.prev r = some a → a ∈ lists k) ∧ ∀ a, s.links.next r = some a → a ∈ lists k := by
  obtain ⟨front,back,split⟩ := List.append_of_mem member
  have listed := shelved.listed k
  rw [split] at listed
  obtain ⟨prev,next⟩ := listed.neighbours front back
  rw [split]
  constructor
  · intro a same
    rw [prev] at same
    cases last : front.getLast? with
    | none =>
      rw [last] at same
      cases same
    | some b =>
      rw [last] at same
      cases same
      exact List.mem_append_left _ (List.mem_of_getLast? last)
  · intro a same
    rw [next] at same
    exact List.mem_append_right _ (List.mem_cons_of_mem _ (List.mem_of_mem_head? (Option.mem_def.mpr same)))

theorem Shelved.apart (shelved : Shelved s lists) (one : r ∈ lists k) (other : k ≠ k') : r ∉ lists k' := by
  intro two
  have mine := ((shelved.members k r).mp one).2
  have theirs := ((shelved.members k' r).mp two).2
  exact other (mine.symm.trans theirs)

-- The links of records that are not in a shard do not change with it.
theorem Shelved.push_away (shelved : Shelved s lists) (away : a ∉ lists k) (other : a ≠ r) :
    (push s.links (s.heads k) r).next a = s.links.next a ∧ (push s.links (s.heads k) r).prev a = s.links.prev a :=
  push_other other (fun first => away (shelved.head first))

def unlinkedLinks (s : Registry) (r : RecordId) : Links RecordId := setNext (setPrev (bypass s.links r) r none) r none

theorem Shelved.unlink_away (shelved : Shelved s lists) (member : r ∈ lists k) (away : a ∉ lists k) :
    (unlinkedLinks s r).next a = s.links.next a ∧ (unlinkedLinks s r).prev a = s.links.prev a := by
  have other : a ≠ r := fun same => away (same ▸ member)
  obtain ⟨before,after⟩ := shelved.near member
  constructor
  · exact (setNext_other other).trans (bypass_next_other (fun same => away (before a same)))
  · exact (setPrev_other other).trans (bypass_prev_other (fun same => away (after a same)))

theorem Shelved.suspend (shelved : Shelved s lists) (fresh : s.registered r = false) :
    Shelved (s.apply (.suspend r running awaitedTask awaitedPipe ctx))
      (Function.update lists (suspensionShardOf r) (r :: lists (suspensionShardOf r))) := by
  have unlisted : ∀ k, r ∉ lists k := by
    intro k member
    have standing := ((shelved.members k r).mp member).1
    rw [fresh] at standing
    cases standing
  refine ⟨?_,?_,?_,?_,?_,?_⟩
  · intro k
    change Listed (push s.links _ r) none (Function.update s.heads _ _ k) _
    by_cases here : k = suspensionShardOf r
    · rw [here,Function.update_self,Function.update_self]
      exact (shelved.listed _).push (unlisted _) (shelved.distinct _)
    · rw [Function.update_of_ne here,Function.update_of_ne here]
      refine (shelved.listed k).congr ?_
      intro a member
      exact shelved.push_away (shelved.apart member here) (fun same => unlisted k (same ▸ member))
  · intro k
    by_cases here : k = suspensionShardOf r
    · rw [here,Function.update_self]
      exact List.nodup_cons.mpr ⟨unlisted _,shelved.distinct _⟩
    · rw [Function.update_of_ne here]
      exact shelved.distinct k
  · intro k a
    change _ ↔ Function.update s.registered r true a = true ∧ _
    by_cases self : a = r
    · rw [self,Function.update_self]
      by_cases here : k = suspensionShardOf r
      · rw [here,Function.update_self]
        exact iff_of_true List.mem_cons_self ⟨rfl,rfl⟩
      · rw [Function.update_of_ne here]
        exact iff_of_false (unlisted k) (fun both => here both.2.symm)
    · rw [Function.update_of_ne self,← shelved.members k a]
      by_cases here : k = suspensionShardOf r
      · rw [here,Function.update_self,List.mem_cons]
        exact ⟨fun either => either.resolve_left self,.inr⟩
      · rw [Function.update_of_ne here]
  · intro a standing
    change Function.update s.registered r true a = true at standing
    change (Function.update s.records r _ a).shard = _
    by_cases self : a = r
    · rw [self,Function.update_self]
    · rw [Function.update_of_ne self] at standing ⊢
      exact shelved.shards a standing
  · intro a gone
    change Function.update s.registered r true a = false at gone
    by_cases self : a = r
    · rw [self,Function.update_self] at gone
      cases gone
    · rw [Function.update_of_ne self] at gone
      have away : a ∉ lists (suspensionShardOf r) := by
        intro member
        have standing := ((shelved.members _ a).mp member).1
        rw [gone] at standing
        cases standing
      obtain ⟨next,prev⟩ := shelved.push_away away self
      obtain ⟨first,second⟩ := shelved.unlinked a gone
      exact ⟨next.trans first,prev.trans second⟩
  · intro a
    change (Function.update s.records r _ a).held.length ≤ maxHeld
    by_cases self : a = r
    · rw [self,Function.update_self]
      exact capture_held _ ctx (shelved.short r)
    · rw [Function.update_of_ne self]
      exact shelved.short a

theorem Shelved.resume (shelved : Shelved s lists) (standing : s.registered r = true) :
    Shelved (s.apply (.resume r)) (Function.update lists (suspensionShardOf r) ((lists (suspensionShardOf r)).erase r)) := by
  have shard := shelved.shards r standing
  have member : r ∈ lists (suspensionShardOf r) := (shelved.members _ r).mpr ⟨standing,rfl⟩
  obtain ⟨front,back,split⟩ := List.append_of_mem member
  have distinct := shelved.distinct (suspensionShardOf r)
  have listed := shelved.listed (suspensionShardOf r)
  rw [split] at distinct listed
  obtain ⟨prev,next⟩ := listed.neighbours front back
  have notFront : r ∉ front := fun inside =>
    (List.nodup_append.mp distinct).2.2 r inside r List.mem_cons_self rfl
  have notBack : r ∉ back := (List.nodup_cons.mp (List.nodup_append.mp distinct).2.1).1
  have erased : (lists (suspensionShardOf r)).erase r = front++back := by
    rw [split,List.erase_append_right _ notFront,List.erase_cons_head]
  have rest : ∀ a, a ∈ front++back ↔ a ∈ lists (suspensionShardOf r) ∧ a ≠ r := by
    intro a
    rw [← erased]
    exact (shelved.distinct _).mem_erase_iff.trans and_comm
  -- the head is the record's where nothing is before it
  have heads : (s.apply (.resume r)).heads = Function.update s.heads (suspensionShardOf r)
      (if front = [] then back.head? else s.heads (suspensionShardOf r)) := by
    change (match s.links.prev r with
      | some _ => s.heads
      | none => if s.heads (s.records r).shard = some r then Function.update s.heads (s.records r).shard (s.links.next r) else s.heads) = _
    rw [shard,prev]
    cases front with
    | nil =>
      rw [if_pos rfl,← next]
      exact if_pos listed.1
    | cons a more =>
      rw [if_neg (List.cons_ne_nil _ _),Function.update_eq_self,List.getLast?_cons]
      rfl
  refine ⟨?_,?_,?_,?_,?_,?_⟩
  · intro k
    rw [heads]
    change Listed (unlinkedLinks s r) none _ _
    by_cases here : k = suspensionShardOf r
    · rw [here,Function.update_self,Function.update_self,erased]
      refine (listed.bypass front back distinct nofun).congr ?_
      intro a inside
      have other := ((rest a).mp inside).2
      exact ⟨setNext_other other,setPrev_other other⟩
    · rw [Function.update_of_ne here,Function.update_of_ne here]
      refine (shelved.listed k).congr ?_
      intro a inside
      exact shelved.unlink_away member (shelved.apart inside here)
  · intro k
    by_cases here : k = suspensionShardOf r
    · rw [here,Function.update_self]
      exact (shelved.distinct _).erase r
    · rw [Function.update_of_ne here]
      exact shelved.distinct k
  · intro k a
    change _ ↔ Function.update s.registered r false a = true ∧ _
    by_cases here : k = suspensionShardOf r
    · rw [here,Function.update_self,erased,rest a,shelved.members]
      by_cases self : a = r
      · rw [self,Function.update_self]
        exact iff_of_false (fun both => both.2 rfl) (fun both => by cases both.1)
      · rw [Function.update_of_ne self]
        exact ⟨fun both => both.1,fun both => ⟨both,self⟩⟩
    · rw [Function.update_of_ne here,shelved.members]
      by_cases self : a = r
      · rw [self,Function.update_self]
        exact iff_of_false (fun both => here both.2.symm) (fun both => by cases both.1)
      · rw [Function.update_of_ne self]
  · intro a still
    change Function.update s.registered r false a = true at still
    by_cases self : a = r
    · rw [self,Function.update_self] at still
      cases still
    · rw [Function.update_of_ne self] at still
      exact shelved.shards a still
  · intro a gone
    change Function.update s.registered r false a = false at gone
    change (unlinkedLinks s r).next a = none ∧ (unlinkedLinks s r).prev a = none
    by_cases self : a = r
    · rw [self]
      exact ⟨Function.update_self ..,Function.update_self ..⟩
    · rw [Function.update_of_ne self] at gone
      have away : a ∉ lists (suspensionShardOf r) := by
        intro inside
        have still := ((shelved.members _ a).mp inside).1
        rw [gone] at still
        cases still
      obtain ⟨next,prev⟩ := shelved.unlink_away member away
      obtain ⟨first,second⟩ := shelved.unlinked a gone
      exact ⟨next.trans first,prev.trans second⟩
  · exact shelved.short

-- What others do leaves a walk as it is, if not in the shard it is in.
theorem Visits.carry (visits : Visits s lists walk) (fewer : ∀ r, always' r = true → walk.always r = true)
    (more : ∀ r, walk.ever r = true → ever' r = true) (same : ∀ r, always' r = true → t.records r = s.records r)
    (shelf : walk.cursor ≠ none → lists' walk.shard = lists walk.shard ∧ ∀ r ∈ lists walk.shard,
      t.records r = s.records r ∧ t.links.next r = s.links.next r ∧ t.links.prev r = s.links.prev r) :
    Visits t lists' {walk with
      always := always', ever := ever'} := by
  unfold Visits at visits ⊢
  dsimp only
  cases place : walk.cursor with
  | none =>
    rw [place] at visits
    exact Complete.mono visits fewer more same
  | some cursor =>
    rw [place] at visits
    obtain ⟨old,done,rest,seen,complete,split,listed⟩ := visits
    obtain ⟨shelf,still⟩ := shelf (by rw [place]; nofun)
    rw [split] at still
    refine ⟨old,done,rest,?_,complete.mono fewer more same,shelf.trans split,?_⟩
    · rw [seen,lines_congr (fun r member => (still r (List.mem_append_left _ member)).1)]
    · exact listed.congr (fun r member => (still r (List.mem_append_right _ member)).2)

theorem Walked.foreign (walked : Walked s lists w walk) (free : s.mutex k = none) (inside : walk.cursor ≠ none) : walk.shard ≠ k := by
  intro same
  have mine := (walked.holding inside).2
  rw [same,free] at mine
  cases mine

theorem Kept.build (kept : Kept s lists) (unused : s.registered r = false) : Kept (s.apply (.build r)) lists := by
  have same : ∀ a, s.registered a = true → (s.apply (.build r)).records a = s.records a := by
    intro a standing
    refine Function.update_of_ne ?_ ..
    rintro rfl
    rw [unused] at standing
    cases standing
  obtain ⟨shelved,walked⟩ := kept
  refine ⟨⟨shelved.listed,shelved.distinct,shelved.members,?_,shelved.unlinked,?_⟩,?_⟩
  · intro a standing
    rw [same a standing]
    exact shelved.shards a standing
  · intro a
    change (Function.update s.records r {} a).held.length ≤ maxHeld
    by_cases self : a = r
    · rw [self,Function.update_self]
      exact Nat.zero_le _
    · rw [Function.update_of_ne self]
      exact shelved.short a
  · intro w walk here
    have before := walked w walk here
    refine ⟨before.place,before.holding,before.lower,before.upper,?_⟩
    refine before.visits.carry (fun _ => id) (fun _ => id) (fun a standing => same a (before.lower a standing)) ?_
    intro _
    exact ⟨rfl,fun a member => ⟨same a ((shelved.members _ a).mp member).1,rfl,rfl⟩⟩

theorem Kept.suspend (kept : Kept s lists) (fresh : s.registered r = false) (free : s.mutex (suspensionShardOf r) = none) :
    Kept (s.apply (.suspend r running awaitedTask awaitedPipe ctx))
      (Function.update lists (suspensionShardOf r) (r :: lists (suspensionShardOf r))) := by
  refine ⟨kept.shelved.suspend fresh,?_⟩
  intro w after here
  obtain ⟨walk,before,rfl⟩ := Option.map_eq_some_iff.mp here
  have walked := kept.walked w walk before
  have standing : ∀ a, s.registered a = true → a ≠ r := by
    rintro a standing rfl
    rw [fresh] at standing
    cases standing
  refine ⟨walked.place,walked.holding,?_,?_,?_⟩
  · intro a always
    have old := walked.lower a always
    exact (Function.update_of_ne (standing a old) ..).trans old
  · intro a now
    change Function.update s.registered r true a = true at now
    change Function.update walk.ever r true a = true
    by_cases self : a = r
    · rw [self,Function.update_self]
    · rw [Function.update_of_ne self] at now ⊢
      exact walked.upper a now
  · refine walked.visits.carry (fun _ => id) ?_ ?_ ?_
    · intro a known
      by_cases self : a = r
      · rw [self,Function.update_self]
      · rw [Function.update_of_ne self]
        exact known
    · intro a always
      exact Function.update_of_ne (standing a (walked.lower a always)) ..
    · intro inside
      have other := walked.foreign free inside
      refine ⟨Function.update_of_ne other ..,?_⟩
      intro a member
      have apart := standing a ((kept.shelved.members _ a).mp member).1
      exact ⟨Function.update_of_ne apart ..,kept.shelved.push_away (kept.shelved.apart member other) apart⟩

theorem Kept.resume (kept : Kept s lists) (standing : s.registered r = true) (free : s.mutex (s.records r).shard = none) :
    Kept (s.apply (.resume r)) (Function.update lists (suspensionShardOf r) ((lists (suspensionShardOf r)).erase r)) := by
  refine ⟨kept.shelved.resume standing,?_⟩
  intro w after here
  obtain ⟨walk,before,rfl⟩ := Option.map_eq_some_iff.mp here
  have walked := kept.walked w walk before
  have less : ∀ a, Function.update walk.always r false a = true → a ≠ r ∧ walk.always a = true := by
    intro a always
    by_cases self : a = r
    · rw [self,Function.update_self] at always
      cases always
    · rw [Function.update_of_ne self] at always
      exact ⟨self,always⟩
  refine ⟨walked.place,walked.holding,?_,?_,?_⟩
  · intro a always
    obtain ⟨other,old⟩ := less a always
    exact (Function.update_of_ne other ..).trans (walked.lower a old)
  · intro a now
    change Function.update s.registered r false a = true at now
    by_cases self : a = r
    · rw [self,Function.update_self] at now
      cases now
    · rw [Function.update_of_ne self] at now
      exact walked.upper a now
  · refine walked.visits.carry (fun a always => (less a always).2) (fun _ => id) (fun _ _ => rfl) ?_
    intro inside
    rw [kept.shelved.shards r standing] at free
    have other := walked.foreign free inside
    have member : r ∈ lists (suspensionShardOf r) := (kept.shelved.members _ r).mpr ⟨standing,rfl⟩
    refine ⟨Function.update_of_ne other ..,?_⟩
    intro a inside
    exact ⟨rfl,kept.shelved.unlink_away member (kept.shelved.apart inside other)⟩

-- A walk's own move, with the mutex of its shard taken, kept or given back.
theorem Kept.moves (kept : Kept s lists) (mutex : Nat → Option Nat) (walked : Walked {s with mutex := mutex} lists w walk)
    (others : ∀ k v, v ≠ w → s.mutex k = some v → mutex k = some v) : Kept ({s with mutex := mutex}.setWalk w walk) lists := by
  obtain ⟨shelved,before⟩ := kept
  refine ⟨⟨shelved.listed,shelved.distinct,shelved.members,shelved.shards,shelved.unlinked,shelved.short⟩,?_⟩
  intro v after here
  change Function.update s.walks w (some walk) v = some after at here
  by_cases self : v = w
  · subst self
    rw [Function.update_self] at here
    cases here
    exact ⟨walked.place,walked.holding,walked.lower,walked.upper,walked.visits⟩
  · rw [Function.update_of_ne self] at here
    have old := before v after here
    refine ⟨old.place,?_,old.lower,old.upper,old.visits⟩
    intro inside
    obtain ⟨place,mine⟩ := old.holding inside
    exact ⟨place,others _ v self mine⟩

theorem Kept.begin (kept : Kept s lists) : Kept (s.apply (.begin w)) lists := by
  refine kept.moves s.mutex ⟨Nat.zero_le _,?_,fun _ => id,fun _ => id,?_⟩ (fun _ _ _ => id)
  · intro inside
    exact absurd rfl inside
  · exact ⟨.nil,nofun,fun _ _ none => absurd none (Nat.not_lt_zero _)⟩

theorem Kept.enter (kept : Kept s lists) (here : s.walks w = some walk) (outside : walk.cursor = none)
    (under : walk.shard < suspensionShardCount) (free : s.mutex walk.shard = none) : Kept (s.apply (.enter w)) lists := by
  have walked := kept.walked w walk here
  have next : s.apply (.enter w) = {s with
      mutex := Function.update s.mutex walk.shard (some w)}.setWalk w {walk with
      cursor := some (s.heads walk.shard)} := by
    unfold Registry.apply
    dsimp only
    rw [here]
  have complete := walked.visits
  unfold Visits at complete
  rw [outside] at complete
  rw [next]
  refine kept.moves _ ⟨walked.place,fun _ => ⟨under,Function.update_self ..⟩,walked.lower,walked.upper,?_⟩ ?_
  · exact ⟨walk.seen,[],lists walk.shard,(List.append_nil _).symm,complete,rfl,kept.shelved.listed _⟩
  · intro k v _ mine
    refine (Function.update_of_ne ?_ ..).trans mine
    rintro rfl
    rw [free] at mine
    cases mine

theorem Kept.step (kept : Kept s lists) (here : s.walks w = some walk) (at_ : walk.cursor = some (some r)) :
    Kept (s.apply (.step w)) lists := by
  have walked := kept.walked w walk here
  have next : s.apply (.step w) = s.setWalk w {walk with
      cursor := some (s.links.next r), seen := walk.seen++[(r,s.records r)]} := by
    unfold Registry.apply
    dsimp only
    rw [here]
    dsimp only
    rw [at_]
  obtain ⟨under,mine⟩ := walked.holding (by rw [at_]; nofun)
  have visits := walked.visits
  unfold Visits at visits
  rw [at_] at visits
  obtain ⟨old,done,rest,seen,complete,split,listed⟩ := visits
  rw [next]
  refine kept.moves s.mutex ⟨walked.place,fun _ => ⟨under,mine⟩,walked.lower,walked.upper,?_⟩ (fun _ _ _ => id)
  cases rest with
  | nil => cases listed
  | cons a rest =>
    obtain ⟨first,-,later⟩ := listed
    cases first
    refine ⟨old,done++[r],rest,?_,complete,?_,?_⟩
    · change walk.seen++_ = _
      rw [seen,List.append_assoc]
      unfold lines
      rw [List.map_append]
      rfl
    · change lists walk.shard = _
      rw [split,List.append_assoc]
      rfl
    · rw [List.getLast?_concat]
      exact later

theorem Kept.leave (kept : Kept s lists) (here : s.walks w = some walk) (at_ : walk.cursor = some none) :
    Kept (s.apply (.leave w)) lists := by
  have walked := kept.walked w walk here
  have next : s.apply (.leave w) = {s with
      mutex := Function.update s.mutex walk.shard none}.setWalk w {walk with
      cursor := none, shard := walk.shard+1} := by
    unfold Registry.apply
    dsimp only
    rw [here]
  obtain ⟨under,mine⟩ := walked.holding (by rw [at_]; nofun)
  have visits := walked.visits
  unfold Visits at visits
  rw [at_] at visits
  obtain ⟨old,done,rest,seen,complete,split,listed⟩ := visits
  have whole : lists walk.shard = done := by
    cases rest with
    | nil => rw [split,List.append_nil]
    | cons a rest => cases listed.1
  have here_ : ∀ a, a ∈ done ↔ s.registered a = true ∧ suspensionShardOf a = walk.shard := by
    intro a
    rw [← whole]
    exact kept.shelved.members walk.shard a
  rw [next]
  refine kept.moves _ ⟨Nat.succ_le_of_lt under,fun inside => absurd rfl inside,walked.lower,walked.upper,?_⟩ ?_
  · change Complete s.records walk.always walk.ever (walk.shard+1) walk.seen
    rw [seen]
    have names : (lines s.records done).map Prod.fst = done := by
      unfold lines
      rw [List.map_map]
      exact List.map_id done
    refine ⟨?_,?_,?_⟩
    · rw [List.map_append,names]
      refine List.nodup_append.mpr ⟨complete.distinct,whole ▸ kept.shelved.distinct _,?_⟩
      rintro a one b two rfl
      obtain ⟨line,member,rfl⟩ := List.mem_map.mp one
      have lower := (complete.known line member).2
      have same := ((here_ line.1).mp two).2
      omega
    · intro line member
      rcases List.mem_append.mp member with prior | new
      · obtain ⟨known,lower⟩ := complete.known line prior
        exact ⟨known,Nat.lt_succ_of_lt lower⟩
      · obtain ⟨a,inside,rfl⟩ := List.mem_map.mp new
        obtain ⟨standing,same⟩ := (here_ a).mp inside
        exact ⟨walked.upper a standing,by dsimp only; omega⟩
    · intro a always lower
      by_cases same : suspensionShardOf a = walk.shard
      · exact List.mem_append_right _ (List.mem_map.mpr ⟨a,(here_ a).mpr ⟨walked.lower a always,same⟩,rfl⟩)
      · exact List.mem_append_left _ (complete.all a always (by omega))
  · intro k v other theirs
    refine (Function.update_of_ne ?_ ..).trans theirs
    rintro rfl
    rw [mine] at theirs
    cases theirs
    exact other rfl

theorem reached_kept (path : Reached registrySystem s) : ∃ lists, Kept s lists := by
  refine reached_invariant (fun s => ∃ lists, Kept s lists) ?_ ?_ path
  · intro s begun
    rw [show s = {} from begun]
    exact ⟨fun _ => [],⟨fun _ => rfl,fun _ => .nil,fun k r => iff_of_false nofun (fun both => by cases both.1),nofun,
      fun _ _ => ⟨rfl,rfl⟩,fun _ => Nat.zero_le _⟩,nofun⟩
  · rintro s a ⟨lists,kept⟩ allowed
    cases a with
    | build r => exact ⟨_,kept.build allowed⟩
    | suspend r running awaitedTask awaitedPipe ctx => exact ⟨_,kept.suspend allowed.1 allowed.2⟩
    | resume r => exact ⟨_,kept.resume allowed.1 allowed.2⟩
    | begin w => exact ⟨_,kept.begin⟩
    | enter w =>
      obtain ⟨walk,here,outside,under,free⟩ := allowed
      exact ⟨_,kept.enter here outside under free⟩
    | step w =>
      obtain ⟨walk,here,cursor,at_,some_⟩ := allowed
      obtain ⟨r,rfl⟩ := Option.ne_none_iff_exists'.mp some_
      exact ⟨_,kept.step here at_⟩
    | leave w =>
      obtain ⟨walk,here,at_⟩ := allowed
      exact ⟨_,kept.leave here at_⟩

-- A walk comes to the end of the shard it is in by its own steps.
theorem walk_ends (kept : Kept s lists) (here : s.walks w = some walk) (inside : walk.cursor ≠ none) :
    ∃ n t, Runs registrySystem s (List.replicate n (.step w)) t ∧ registrySystem.allowed t (.leave w) := by
  obtain ⟨cursor,at_⟩ := Option.ne_none_iff_exists'.mp inside
  have visits := (kept.walked w walk here).visits
  unfold Visits at visits
  rw [at_] at visits
  obtain ⟨-,done,rest,-,-,-,listed⟩ := visits
  induction rest generalizing s walk cursor done with
  | nil =>
    have none_ : cursor = none := listed
    exact ⟨0,s,.nil,walk,here,by rw [at_,none_]⟩
  | cons r rest ih =>
    obtain ⟨rfl,-,later⟩ := listed
    have may : registrySystem.allowed s (.step w) := ⟨walk,here,some r,at_,nofun⟩
    have next : (s.apply (.step w)).walks w = some {walk with
        cursor := some (s.links.next r), seen := walk.seen++[(r,s.records r)]} := by
      unfold Registry.apply
      dsimp only
      rw [here]
      dsimp only
      rw [at_]
      exact Function.update_self ..
    have links : (s.apply (.step w)).links = s.links := by
      unfold Registry.apply
      dsimp only
      rw [here]
      dsimp only
      rw [at_]
      rfl
    obtain ⟨n,t,run,ends⟩ := ih (kept.step here at_) next (by nofun) (s.links.next r) rfl [r] (by rw [links]; exact later)
    refine ⟨n+1,t,?_,ends⟩
    rw [List.replicate_succ]
    exact (Runs.step .nil may : Runs registrySystem s [.step w] _).append run

end Lists

-- At every moment the lists are of the suspensions that stand, each once, by shard.
-- A walk that is through has read every suspension that stood all the while, as it
-- is, none that never stood, and none twice; and nobody holds a shard for ever.
theorem registry_exact (path : Reached registrySystem s) :
    (∃ lists, Shelved s lists) ∧ ∀ w walk, s.walks w = some walk →
      (walk.shard = suspensionShardCount → (walk.seen.map Prod.fst).Nodup ∧ (∀ line ∈ walk.seen, walk.ever line.1 = true) ∧
        ∀ r, walk.always r = true → (r,s.records r) ∈ walk.seen) ∧
      (∀ r, (walk.always r = true → s.registered r = true) ∧ (s.registered r = true → walk.ever r = true)) ∧
      (walk.cursor ≠ none → ∃ n t, Runs registrySystem s (List.replicate n (.step w)) t ∧ registrySystem.allowed t (.leave w)) := by
  obtain ⟨lists,kept⟩ := reached_kept path
  refine ⟨⟨lists,kept.shelved⟩,?_⟩
  intro w walk here
  have walked := kept.walked w walk here
  refine ⟨?_,fun r => ⟨walked.lower r,walked.upper r⟩,walk_ends kept here⟩
  intro last
  have outside : walk.cursor = none := by
    by_contra inside
    have under := (walked.holding inside).1
    omega
  have complete := walked.visits
  unfold Visits at complete
  rw [outside] at complete
  refine ⟨complete.distinct,fun line member => (complete.known line member).1,?_⟩
  intro r always
  exact complete.all r always (by rw [last]; exact Nat.mod_lt _ (by decide))

-- While a report is in shard 1 a record of shard 2 goes and one of shard 3 comes.
def movedRun : List RegistryAction :=
  [RegistryAction.suspend 64 (some 1) (some 2) none none,.suspend 128 (some 2) none (some 7) none,.suspend 4160 none none (some 7) none,
    .begin 0,.enter 0,.leave 0,.enter 0,.step 0,.resume 128,.suspend 192 none (some 1) none none,.step 0,.leave 0,
    .enter 0,.leave 0,.enter 0,.step 0,.leave 0,.resume 64]++(List.replicate 60 [RegistryAction.enter 0,.leave 0]).flatten

theorem registry_exact_moved :
    let s := registrySystem.follow {} movedRun
    (s.walks 0).map (fun walk => (walk.shard,walk.seen.map Prod.fst)) = some (64,[4160,64,192]) ∧
      (∃ lists, Shelved s lists) ∧ ∀ walk, s.walks 0 = some walk → ∀ r, walk.always r = true → (r,s.records r) ∈ walk.seen := by
  have reached : Reached registrySystem (registrySystem.follow {} movedRun) := reached_follow (.start rfl) (by decide +kernel)
  obtain ⟨shelved,walks⟩ := registry_exact reached
  have through : ((registrySystem.follow {} movedRun).walks 0).map Walk.shard = some suspensionShardCount := by decide +kernel
  refine ⟨by decide +kernel,shelved,?_⟩
  intro walk here
  rw [here,Option.map_some] at through
  exact ((walks 0 walk here).1 (Option.some.inj through)).2.2

end Macrame.SuspensionRegistry

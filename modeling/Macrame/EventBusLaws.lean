import Macrame.EventBus

namespace Macrame
namespace Bus

-- What the cut under way has taken and the loop over the batch has not applied.
def pending (s : Bus) : List Command :=
  match s.stage with
  | .cutting => s.batch
  | .applying next => s.batch.drop next
  | _ => []

-- The events of one type that cut `n` brought and that have been applied.
def posts (s : Bus) (n : Nat) (type : EventType) : List Nat :=
  (s.applied.filter (fun e => e.2 = n ∧ s.closure e.1 = some (.publish type))).map (fun e => e.1.stamp)

def ids (lane : EventLane) : List SubscriptionId := lane.subs.map Subscription.id

-- Dispatched in the current cut, or left so by the last one.
def cleared (s : Bus) (k : Nat) : Bool :=
  match s.stage with
  | .idle => true
  | .checking j _ => k < j
  | .locking j _ => k < j
  | .calling j _ _ => k < j
  | .reaping j _ => k < j
  | _ => false

-- The subscriptions the handlers' loop has yet to come to.
def beyond (s : Bus) (k i : Nat) : List SubscriptionId :=
  (((s.lanes[k]?).map ids).getD []).drop i++(s.lanes.drop (k+1)).flatMap ids

def ahead (s : Bus) : List SubscriptionId :=
  match s.stage with
  | .checking k i => s.beyond k i
  | .locking k i => s.beyond k i
  | .calling k i _ => s.beyond k (i+1)
  | .reaping k _ => (s.lanes.drop (k+1)).flatMap ids
  | _ => []

def visiting (s : Bus) : Bool :=
  match s.stage with
  | .checking _ _ => true
  | .locking _ _ => true
  | .calling _ _ _ => true
  | .reaping _ _ => true
  | _ => false

def gathering (s : Bus) : Bool :=
  match s.stage with
  | .cutting => true
  | .applying _ => true
  | _ => false

-- The journal and its closures, and how far their application has got.
structure Books (s : Bus) : Prop where
  journal : Journal.Sound s.journal
  kept : s.journal.discarded = []
  sized : s.closures.length = s.journal.issued.length
  taken : s.journal.taken = s.applied++s.pending.map (fun c => (c,s.cut))
  sorted : s.applied.Pairwise (fun e f => e.2 ≤ f.2)
  resting : s.stage ≠ .cutting → s.journal.position = none
  cutting : s.stage = .cutting → ∃ slot, s.journal.register = .cutting 0 slot ∧ slot ≤ s.journal.slots.length
  busy : s.stage ≠ .idle → s.journal.begun ≠ []
  sole : ∀ (i j : Nat) id t o t' o', s.closures[i]? = some (.install id t o) → s.closures[j]? = some (.install id t' o') → i = j
  placed : ∀ (i : Nat) id t o, s.closures[i]? = some (.install id t o) →
    s.phases id ≠ .unborn ∧ s.phases id ≠ .numbered ∧ s.types id = t
  fresh : ∀ id, s.nextId ≤ id → s.phases id = .unborn
  tombs : ∀ id, s.phases id = .tombstoned ∨ s.phases id = .removed ∨ s.phases id = .disconnected → s.dead id = true

-- The board: which subscriptions are in which lane, and which events.
structure Shelf (s : Bus) : Prop where
  types : (s.lanes.map EventLane.type).Nodup
  homes : ∀ lane ∈ s.lanes, ∀ sub ∈ lane.subs, ∃ e ∈ s.applied, s.closure e.1 = some (.install sub.id lane.type sub.owner)
  single : (s.lanes.flatMap ids).Nodup
  housed : ∀ e ∈ s.applied, ∀ t, s.closure e.1 = some (.publish t) → ∃ lane ∈ s.lanes, lane.type = t
  complete : ∀ e ∈ s.applied, ∀ id t o, s.closure e.1 = some (.install id t o) →
    (∃ lane ∈ s.lanes, lane.type = t ∧ ⟨id,o⟩ ∈ lane.subs) ∨ s.dead id = true ∨ s.expired o = true
  removed : ∀ id, s.phases id = .removed ∨ s.phases id = .disconnected → ∀ lane ∈ s.lanes, id ∉ ids lane
  events : ∀ (k : Nat) lane, s.lanes[k]? = some lane → lane.events = if s.cleared k then [] else s.posts s.cut lane.type

def Reach.good (r : Reach) : Bool := !r.dead && !r.expired

def handed (s : Bus) (r : Reach) : List Delivery :=
  if Reach.good r then (s.posts r.cut r.type).map (fun event => ⟨r.cut,r.sub,event⟩) else []

-- What the calls made so far are: all of them those of the subscriptions reached,
-- but for the one whose loop over the events is under way.
def Called (s : Bus) : Prop :=
  match s.stage with
  | .calling k i e => ∃ before lane sub r, s.lanes[k]? = some lane ∧ lane.subs[i]? = some sub ∧ s.reaches = before++[r] ∧
      r.cut = s.cut ∧ r.sub = sub.id ∧ r.type = lane.type ∧ Reach.good r = true ∧
      s.calls = before.flatMap s.handed++(lane.events.take e).map (fun event => ⟨s.cut,sub.id,event⟩)
  | _ => s.calls = s.reaches.flatMap s.handed

def Met (s : Bus) (n : Nat) (id : SubscriptionId) : Prop := ∃ r ∈ s.reaches, r.cut = n ∧ r.sub = id

def Finished (s : Bus) (n : Nat) : Prop :=
  n+1 < s.journal.begun.length ∨ n+1 = s.journal.begun.length ∧ s.stage = .idle

structure Ledger (s : Bus) : Prop where
  called : s.Called
  known : ∀ r ∈ s.reaches, ∃ e ∈ s.applied, e.2 ≤ r.cut ∧ ∃ o, s.closure e.1 = some (.install r.sub r.type o)
  keys : s.reaches.Pairwise (fun a b => a.cut ≤ b.cut ∧ (a.sub = b.sub → a.cut < b.cut))
  current : ∀ r ∈ s.reaches, r.cut < s.journal.begun.length ∧ (s.gathering = true → r.cut < s.cut)
  settled : ∀ n, s.Finished n → ∀ e ∈ s.applied, e.2 ≤ n → ∀ id t o, s.closure e.1 = some (.install id t o) →
    s.Met n id ∨ s.gone n id o = true
  awaited : s.visiting = true → ∀ e ∈ s.applied, ∀ id t o, s.closure e.1 = some (.install id t o) →
    s.Met s.cut id ∨ s.gone s.cut id o = true ∨ id ∈ s.ahead
  unmet : ∀ id ∈ s.ahead, ¬s.Met s.cut id
  silent : ∀ x ∈ s.left, s.phases x.1 = .disconnected ∧ x.2 ≤ s.calls.length ∧ ∀ d ∈ s.calls.drop x.2, d.sub ≠ x.1

structure Sound (s : Bus) : Prop where
  books : s.Books
  shelf : s.Shelf
  ledger : s.Ledger

theorem stage_eq {j : Journal} (staged : ((j.handles h).target worker).isSome = true) : ∃ c : Command,
    c.stamp = j.issued.length ∧ (j.stage h worker).issued = j.issued++[c] ∧ (j.stage h worker).taken = j.taken ∧
      (j.stage h worker).discarded = j.discarded ∧ (j.stage h worker).begun = j.begun ∧
      (j.stage h worker).register = j.register ∧ (j.stage h worker).slots.length = j.slots.length := by
  obtain ⟨⟨mint,lane,slot⟩,found⟩ := Option.isSome_iff_exists.mp staged
  refine ⟨⟨j.issued.length,mint,lane,slot⟩,rfl,?_⟩
  unfold Journal.stage
  rw [found]
  exact ⟨rfl,rfl,rfl,rfl,rfl,List.length_modify ..⟩

section Kept

variable {s u : Bus}

theorem Books.known (books : s.Books) (member : e ∈ s.applied) :
    (e.1 ∈ s.journal.issued ∧ e.1.stamp < s.closures.length) ∧ e.2 < s.journal.begun.length := by
  have taken : e ∈ s.journal.taken := by
    rw [books.taken]
    exact List.mem_append_left _ member
  have issued := books.journal.row.taken_issued (show (e.1,e.2) ∈ s.journal.row.taken from taken)
  refine ⟨⟨issued,?_⟩,books.journal.row.numbered e taken⟩
  rw [books.sized]
  exact books.journal.row.stamp_lt issued

theorem Books.same_stamp (books : s.Books) (first : c ∈ s.journal.issued) (second : d ∈ s.journal.issued)
    (same : c.stamp = d.stamp) : c = d := by
  obtain ⟨i,one⟩ := List.mem_iff_getElem?.mp first
  obtain ⟨j,two⟩ := List.mem_iff_getElem?.mp second
  have place : i = j := (books.journal.row.stamped i c one).symm.trans (same.trans (books.journal.row.stamped j d two))
  rw [place] at one
  exact Option.some.inj (one.symm.trans two)

-- What the producers, the connections and the owners do beside a dispatch, and
-- what a dispatch does while it cuts.
structure Outer (s u : Bus) : Prop where
  lanes : u.lanes = s.lanes
  stage : u.stage = s.stage ∨ s.stage = .cutting ∧ u.stage = .applying 0
  applied : u.applied = s.applied
  reaches : u.reaches = s.reaches
  calls : u.calls = s.calls
  gone : u.gone = s.gone
  begun : u.journal.begun = s.journal.begun
  closure : ∀ e ∈ s.applied, u.closure e.1 = s.closure e.1
  dead : ∀ id, s.dead id = true → u.dead id = true
  expired : ∀ o, s.expired o = true → u.expired o = true
  phases : ∀ id, u.phases id = .removed ∨ u.phases id = .disconnected → s.phases id = .removed ∨ s.phases id = .disconnected

theorem posts_congr (applied : u.applied = s.applied) (closure : ∀ e ∈ s.applied, u.closure e.1 = s.closure e.1) :
    u.posts n t = s.posts n t := by
  unfold posts
  rw [applied]
  congr 1
  refine List.filter_congr ?_
  intro e member
  rw [closure e member]

theorem Outer.cut (outer : Outer s u) : u.cut = s.cut := by
  unfold Bus.cut Journal.batch
  rw [outer.begun]

theorem Outer.shelf (outer : Outer s u) (shelf : s.Shelf) : u.Shelf := by
  refine ⟨?_,?_,?_,?_,?_,?_,?_⟩
  · rw [outer.lanes]
    exact shelf.types
  · rw [outer.lanes,outer.applied]
    intro lane member sub inside
    obtain ⟨e,applied,install⟩ := shelf.homes lane member sub inside
    exact ⟨e,applied,(outer.closure e applied).trans install⟩
  · rw [outer.lanes]
    exact shelf.single
  · rw [outer.lanes,outer.applied]
    intro e member t publish
    rw [outer.closure e member] at publish
    exact shelf.housed e member t publish
  · rw [outer.lanes,outer.applied]
    intro e member id t o install
    rw [outer.closure e member] at install
    rcases shelf.complete e member id t o install with there | dead | expired
    · exact .inl there
    · exact .inr (.inl (outer.dead id dead))
    · exact .inr (.inr (outer.expired o expired))
  · rw [outer.lanes]
    intro id phase
    exact shelf.removed id (outer.phases id phase)
  · intro k lane here
    rw [outer.lanes] at here
    have cleared : u.cleared k = s.cleared k := by
      unfold Bus.cleared
      rcases outer.stage with same | ⟨cutting,applying⟩
      · rw [same]
      · rw [cutting,applying]
    rw [cleared,outer.cut,posts_congr outer.applied outer.closure]
    exact shelf.events k lane here

theorem Outer.ledger (outer : Outer s u) (ledger : s.Ledger)
    (silent : ∀ x ∈ u.left, u.phases x.1 = .disconnected ∧ x.2 ≤ u.calls.length ∧ ∀ d ∈ u.calls.drop x.2, d.sub ≠ x.1) :
    u.Ledger := by
  have handed : u.handed = s.handed := by
    funext r
    unfold Bus.handed
    rw [posts_congr outer.applied outer.closure]
  have met : ∀ n id, u.Met n id ↔ s.Met n id := by
    intro n id
    unfold Met
    rw [outer.reaches]
  have ahead : u.ahead = s.ahead := by
    unfold Bus.ahead beyond
    rcases outer.stage with same | ⟨cutting,applying⟩
    · rw [same,outer.lanes]
    · rw [cutting,applying]
  refine ⟨?_,?_,?_,?_,?_,?_,?_,silent⟩
  · have called := ledger.called
    unfold Called at called ⊢
    rcases outer.stage with same | ⟨cutting,applying⟩
    · rw [same,outer.reaches,outer.calls,outer.lanes,outer.cut,handed]
      exact called
    · rw [cutting] at called
      rw [applying,outer.reaches,outer.calls,handed]
      exact called
  · rw [outer.reaches,outer.applied]
    intro r member
    obtain ⟨e,applied,earlier,o,install⟩ := ledger.known r member
    exact ⟨e,applied,earlier,o,(outer.closure e applied).trans install⟩
  · rw [outer.reaches]
    exact ledger.keys
  · have gathering : u.gathering = s.gathering := by
      unfold Bus.gathering
      rcases outer.stage with same | ⟨cutting,applying⟩
      · rw [same]
      · rw [cutting,applying]
    rw [outer.reaches,outer.begun,outer.cut,gathering]
    exact ledger.current
  · intro n finished e member earlier id t o install
    have past : s.Finished n := by
      unfold Finished at finished ⊢
      rw [outer.begun] at finished
      rcases outer.stage with same | ⟨-,applying⟩
      · rwa [same] at finished
      · rw [applying] at finished
        exact .inl (finished.resolve_right (fun last => nomatch last.2))
    rw [outer.applied] at member
    rw [outer.closure e member] at install
    rw [met,outer.gone]
    exact ledger.settled n past e member earlier id t o install
  · intro visiting e member id t o install
    have inside : s.visiting = true := by
      unfold Bus.visiting at visiting ⊢
      rcases outer.stage with same | ⟨-,applying⟩
      · rwa [same] at visiting
      · rw [applying] at visiting
        cases visiting
    rw [outer.applied] at member
    rw [outer.closure e member] at install
    rw [met,outer.gone,outer.cut,ahead]
    exact ledger.awaited inside e member id t o install
  · intro id member
    rw [ahead] at member
    rw [met,outer.cut]
    exact ledger.unmet id member

theorem Books.put (books : s.Books) (stages : s.stages worker = true) (journal : u.journal = s.journal.stage publisher worker)
    (closures : u.closures = s.closures++[c]) (stage : u.stage = s.stage) (batch : u.batch = s.batch) (applied : u.applied = s.applied)
    (sole : ∀ (i j : Nat) id t o t' o', u.closures[i]? = some (.install id t o) → u.closures[j]? = some (.install id t' o') → i = j)
    (placed : ∀ (i : Nat) id t o, u.closures[i]? = some (.install id t o) →
      u.phases id ≠ .unborn ∧ u.phases id ≠ .numbered ∧ u.types id = t)
    (fresh : ∀ id, u.nextId ≤ id → u.phases id = .unborn)
    (tombs : ∀ id, u.phases id = .tombstoned ∨ u.phases id = .removed ∨ u.phases id = .disconnected → u.dead id = true) :
    u.Books := by
  obtain ⟨d,stamp,issued,taken,discarded,begun,register,slots⟩ := stage_eq (j := s.journal) stages
  refine ⟨?_,?_,?_,?_,?_,?_,?_,?_,sole,placed,fresh,tombs⟩
  · rw [journal]
    exact Journal.stage_sound books.journal publisher worker
  · rw [journal,discarded]
    exact books.kept
  · rw [closures,journal,issued,List.length_append,List.length_append,books.sized]
    rfl
  · have pending : u.pending = s.pending := by
      unfold Bus.pending
      rw [stage,batch]
    have cut : u.cut = s.cut := by
      unfold Bus.cut Journal.batch
      rw [journal,begun]
    rw [journal,taken,applied,pending,cut]
    exact books.taken
  · rw [applied]
    exact books.sorted
  · rw [stage,journal]
    intro elsewhere
    have idle := books.resting elsewhere
    unfold Journal.position at idle ⊢
    rw [register]
    exact idle
  · rw [stage,journal,register,slots]
    exact books.cutting
  · rw [stage,journal,begun]
    exact books.busy

theorem put_outer (books : s.Books) (stages : s.stages worker = true) (c : BusClosure) : Outer s (s.put worker c) := by
  obtain ⟨d,stamp,issued,taken,discarded,begun,-⟩ := stage_eq (j := s.journal) stages
  refine ⟨rfl,.inl rfl,rfl,rfl,rfl,rfl,begun,?_,fun _ => id,fun _ => id,fun _ => id⟩
  intro e member
  exact List.getElem?_append_left (books.known member).1.2

theorem publish_books (books : s.Books) (stages : s.stages worker = true) (t : EventType) : (s.put worker (.publish t)).Books := by
  have old : ∀ (i : Nat) id t' o, (s.closures++[BusClosure.publish t])[i]? = some (.install id t' o) →
      s.closures[i]? = some (.install id t' o) := by
    intro i id t' o here
    rw [List.getElem?_append] at here
    split at here
    · exact here
    · have last := List.mem_of_getElem? here
      cases List.mem_singleton.mp last
  refine books.put stages rfl rfl rfl rfl rfl ?_ ?_ books.fresh books.tombs
  · intro i j id t' o t'' o' one two
    exact books.sole i j id t' o t'' o' (old i _ _ _ one) (old j _ _ _ two)
  · intro i id t' o here
    exact books.placed i id t' o (old i _ _ _ here)

theorem install_books {id : SubscriptionId} (books : s.Books) (stages : s.stages worker = true) (numbered : s.phases id = .numbered) :
    (s.apply (.install worker id t o)).Books := by
  have cases_ : ∀ (i : Nat) id' t' o', (s.closures++[BusClosure.install id t o])[i]? = some (.install id' t' o') →
      (s.closures[i]? = some (.install id' t' o') ∧ id' ≠ id) ∨ (i = s.closures.length ∧ id' = id ∧ t' = t) := by
    intro i id' t' o' here
    rw [List.getElem?_append] at here
    split at here
    · refine .inl ⟨here,?_⟩
      rintro rfl
      exact (books.placed i _ t' o' here).2.1 numbered
    · obtain ⟨below,-⟩ := List.getElem?_eq_some_iff.mp here
      simp only [List.length_singleton] at below
      cases List.mem_singleton.mp (List.mem_of_getElem? here)
      exact .inr ⟨by omega,rfl,rfl⟩
  refine books.put stages rfl rfl rfl rfl rfl ?_ ?_ ?_ ?_
  · intro i j id' t' o' t'' o'' one two
    rcases cases_ i _ _ _ one with ⟨old,other⟩ | ⟨last,same,-⟩
    · rcases cases_ j _ _ _ two with ⟨prior,-⟩ | ⟨-,same,-⟩
      · exact books.sole i j id' t' o' t'' o'' old prior
      · exact absurd same other
    · rcases cases_ j _ _ _ two with ⟨-,other⟩ | ⟨final,-,-⟩
      · exact absurd same other
      · omega
  · intro i id' t' o' here
    change Function.update s.phases id .connected id' ≠ .unborn ∧ Function.update s.phases id .connected id' ≠ .numbered ∧
      Function.update s.types id t id' = t'
    rcases cases_ i _ _ _ here with ⟨old,other⟩ | ⟨-,same,type⟩
    · rw [Function.update_of_ne other,Function.update_of_ne other]
      exact books.placed i id' t' o' old
    · rw [same,Function.update_self,Function.update_self,type]
      exact ⟨nofun,nofun,rfl⟩
  · intro id' beyond
    change Function.update s.phases id .connected id' = .unborn
    rw [Function.update_of_ne]
    · exact books.fresh id' beyond
    · rintro rfl
      rw [books.fresh id' beyond] at numbered
      cases numbered
  · intro id' phase
    change Function.update s.phases id .connected id' = _ ∨ Function.update s.phases id .connected id' = _ ∨
      Function.update s.phases id .connected id' = _ at phase
    by_cases same : id' = id
    · rw [same,Function.update_self] at phase
      rcases phase with one | two | three <;> contradiction
    · rw [Function.update_of_ne same] at phase
      exact books.tombs id' phase

-- A connection goes on to another phase.
theorem Books.phased (books : s.Books) (journal : u.journal = s.journal) (closures : u.closures = s.closures) (stage : u.stage = s.stage)
    (batch : u.batch = s.batch) (applied : u.applied = s.applied) (types : u.types = s.types)
    (started : ∀ id, s.phases id ≠ .unborn ∧ s.phases id ≠ .numbered → u.phases id ≠ .unborn ∧ u.phases id ≠ .numbered)
    (fresh : ∀ id, u.nextId ≤ id → u.phases id = .unborn)
    (tombs : ∀ id, u.phases id = .tombstoned ∨ u.phases id = .removed ∨ u.phases id = .disconnected → u.dead id = true) :
    u.Books := by
  have pending : u.pending = s.pending := by
    unfold Bus.pending
    rw [stage,batch]
  have cut : u.cut = s.cut := by
    unfold Bus.cut
    rw [journal]
  refine ⟨?_,?_,?_,?_,?_,?_,?_,?_,?_,?_,fresh,tombs⟩
  · rw [journal]; exact books.journal
  · rw [journal]; exact books.kept
  · rw [closures,journal]; exact books.sized
  · rw [journal,applied,pending,cut]; exact books.taken
  · rw [applied]; exact books.sorted
  · rw [stage,journal]; exact books.resting
  · rw [stage,journal]; exact books.cutting
  · rw [stage,journal]; exact books.busy
  · rw [closures]; exact books.sole
  · rw [closures,types]
    intro i id t o here
    obtain ⟨born,staged,type⟩ := books.placed i id t o here
    obtain ⟨born',staged'⟩ := started id ⟨born,staged⟩
    exact ⟨born',staged',type⟩

theorem publish_sound (sound : s.Sound) (stages : s.stages worker = true) (t : EventType) : (s.put worker (.publish t)).Sound := by
  have outer := put_outer sound.books stages (.publish t)
  exact ⟨publish_books sound.books stages t,outer.shelf sound.shelf,outer.ledger sound.ledger sound.ledger.silent⟩

theorem number_sound (sound : s.Sound) : (s.apply .number).Sound := by
  have unborn := sound.books.fresh s.nextId (Nat.le_refl _)
  have at_ : ∀ x, Function.update s.phases s.nextId .numbered x = s.phases x ∨
      x = s.nextId ∧ Function.update s.phases s.nextId .numbered x = .numbered := by
    intro x
    by_cases same : x = s.nextId
    · exact .inr ⟨same,by rw [same,Function.update_self]⟩
    · exact .inl (Function.update_of_ne same ..)
  have outer : Outer s (s.apply .number) := by
    refine ⟨rfl,.inl rfl,rfl,rfl,rfl,rfl,rfl,fun _ _ => rfl,fun _ h => h,fun _ h => h,?_⟩
    intro x phase
    change Function.update s.phases s.nextId .numbered x = _ ∨ Function.update s.phases s.nextId .numbered x = _ at phase
    rcases at_ x with same | ⟨-,numbered⟩
    · rwa [same] at phase
    · rw [numbered] at phase
      rcases phase with one | two <;> contradiction
  refine ⟨sound.books.phased rfl rfl rfl rfl rfl rfl ?_ ?_ ?_,outer.shelf sound.shelf,outer.ledger sound.ledger ?_⟩
  · intro x started
    change Function.update s.phases s.nextId .numbered x ≠ _ ∧ Function.update s.phases s.nextId .numbered x ≠ _
    rcases at_ x with same | ⟨new,-⟩
    · rw [same]
      exact started
    · rw [new] at started
      exact absurd unborn started.1
  · intro x beyond
    change s.nextId+1 ≤ x at beyond
    exact (Function.update_of_ne (Nat.ne_of_gt beyond) ..).trans (sound.books.fresh x (Nat.le_of_succ_le beyond))
  · intro x phase
    change Function.update s.phases s.nextId .numbered x = _ ∨ Function.update s.phases s.nextId .numbered x = _ ∨
      Function.update s.phases s.nextId .numbered x = _ at phase
    rcases at_ x with same | ⟨-,numbered⟩
    · rw [same] at phase
      exact sound.books.tombs x phase
    · rw [numbered] at phase
      rcases phase with one | two | three <;> contradiction
  · intro x member
    obtain ⟨phase,calls⟩ := sound.ledger.silent x member
    refine ⟨?_,calls⟩
    change Function.update s.phases s.nextId .numbered x.1 = .disconnected
    rcases at_ x.1 with same | ⟨new,-⟩
    · rw [same]
      exact phase
    · rw [new,unborn] at phase
      cases phase

theorem install_sound {id : SubscriptionId} (sound : s.Sound) (stages : s.stages worker = true) (numbered : s.phases id = .numbered) :
    (s.apply (.install worker id t o)).Sound := by
  have staged := put_outer sound.books stages (.install id t o)
  have outer : Outer s (s.apply (.install worker id t o)) := by
    refine ⟨rfl,.inl rfl,rfl,rfl,rfl,rfl,staged.begun,staged.closure,fun _ h => h,fun _ h => h,?_⟩
    intro x phase
    change Function.update s.phases id .connected x = _ ∨ Function.update s.phases id .connected x = _ at phase
    by_cases same : x = id
    · rw [same,Function.update_self] at phase
      rcases phase with one | two <;> contradiction
    · rwa [Function.update_of_ne same] at phase
  refine ⟨install_books sound.books stages numbered,outer.shelf sound.shelf,outer.ledger sound.ledger ?_⟩
  intro x member
  obtain ⟨phase,calls⟩ := sound.ledger.silent x member
  refine ⟨?_,calls⟩
  change Function.update s.phases id .connected x.1 = .disconnected
  rw [Function.update_of_ne]
  · exact phase
  · rintro same
    rw [same,numbered] at phase
    cases phase

theorem expire_sound (sound : s.Sound) (w : OwnerId) : (s.apply (.expire w)).Sound := by
  have outer : Outer s (s.apply (.expire w)) := by
    refine ⟨rfl,.inl rfl,rfl,rfl,rfl,rfl,rfl,fun _ _ => rfl,fun _ h => h,?_,fun _ h => h⟩
    intro o expired
    cases o with
    | none => exact expired
    | some v =>
      change (!Function.update s.alive w false v) = true
      by_cases same : v = w
      · rw [same,Function.update_self]
        rfl
      · rw [Function.update_of_ne same]
        exact expired
  exact ⟨sound.books.phased rfl rfl rfl rfl rfl rfl (fun _ h => h) sound.books.fresh sound.books.tombs,outer.shelf sound.shelf,
    outer.ledger sound.ledger sound.ledger.silent⟩

-- From one phase after the first two to the next.
theorem Books.advanced {id : SubscriptionId} (books : s.Books) (started : s.phases id ≠ .unborn) (journal : u.journal = s.journal)
    (closures : u.closures = s.closures) (stage : u.stage = s.stage) (batch : u.batch = s.batch) (applied : u.applied = s.applied)
    (types : u.types = s.types) (nextId : u.nextId = s.nextId) (phases : u.phases = Function.update s.phases id phase)
    (later : phase ≠ .unborn ∧ phase ≠ .numbered) (dead : u.dead id = true) (others : ∀ x, x ≠ id → u.dead x = s.dead x) :
    u.Books := by
  refine books.phased journal closures stage batch applied types ?_ ?_ ?_
  · intro x before
    rw [phases]
    by_cases same : x = id
    · rw [same,Function.update_self]
      exact later
    · rw [Function.update_of_ne same]
      exact before
  · intro x beyond
    rw [nextId] at beyond
    have unborn := books.fresh x beyond
    rw [phases,Function.update_of_ne]
    · exact unborn
    · rintro rfl
      exact started unborn
  · intro x gone
    by_cases same : x = id
    · rw [same]
      exact dead
    · rw [phases,Function.update_of_ne same] at gone
      rw [others x same]
      exact books.tombs x gone

theorem silent_advanced {id : SubscriptionId} (ledger : s.Ledger) (before : s.phases id ≠ .disconnected ∨ phase = .disconnected)
    (member : x ∈ s.left) : Function.update s.phases id phase x.1 = .disconnected := by
  have left := (ledger.silent x member).1
  by_cases same : x.1 = id
  · rw [same,Function.update_self]
    rcases before with active | gone
    · rw [same] at left
      exact absurd left active
    · exact gone
  · rw [Function.update_of_ne same]
    exact left

theorem tombstone_sound {id : SubscriptionId} (sound : s.Sound) (connected : s.phases id = .connected) :
    (s.apply (.tombstone id)).Sound := by
  have outer : Outer s (s.apply (.tombstone id)) := by
    refine ⟨rfl,.inl rfl,rfl,rfl,rfl,rfl,rfl,fun _ _ => rfl,?_,fun _ h => h,?_⟩
    · intro x dead
      change Function.update s.dead id true x = true
      by_cases same : x = id
      · rw [same,Function.update_self]
      · rw [Function.update_of_ne same]
        exact dead
    · intro x phase
      change Function.update s.phases id .tombstoned x = _ ∨ Function.update s.phases id .tombstoned x = _ at phase
      by_cases same : x = id
      · rw [same,Function.update_self] at phase
        rcases phase with one | two <;> contradiction
      · rwa [Function.update_of_ne same] at phase
  refine ⟨?_,outer.shelf sound.shelf,outer.ledger sound.ledger ?_⟩
  · exact sound.books.advanced (by rw [connected]; nofun) rfl rfl rfl rfl rfl rfl rfl rfl ⟨nofun,nofun⟩ (Function.update_self ..)
      (fun x other => Function.update_of_ne other ..)
  · exact fun x member => ⟨silent_advanced (s := s) sound.ledger (.inl (by rw [connected]; nofun)) member,(sound.ledger.silent x member).2⟩

theorem disconnected_sound {id : SubscriptionId} (sound : s.Sound) (removed : s.phases id = .removed) :
    (s.apply (.disconnected id)).Sound := by
  have outer : Outer s (s.apply (.disconnected id)) := by
    refine ⟨rfl,.inl rfl,rfl,rfl,rfl,rfl,rfl,fun _ _ => rfl,fun _ h => h,fun _ h => h,?_⟩
    intro x phase
    change Function.update s.phases id .disconnected x = _ ∨ Function.update s.phases id .disconnected x = _ at phase
    by_cases same : x = id
    · exact .inl (same ▸ removed)
    · rwa [Function.update_of_ne same] at phase
  refine ⟨?_,outer.shelf sound.shelf,outer.ledger sound.ledger ?_⟩
  · exact sound.books.advanced (by rw [removed]; nofun) rfl rfl rfl rfl rfl rfl rfl rfl ⟨nofun,nofun⟩
      (sound.books.tombs id (.inr (.inl removed))) (fun _ _ => rfl)
  · intro x member
    rcases List.mem_append.mp member with prior | last
    · exact ⟨silent_advanced (s := s) sound.ledger (.inr rfl) prior,(sound.ledger.silent x prior).2⟩
    · rw [List.mem_singleton.mp last]
      refine ⟨Function.update_self ..,Nat.le_refl _,?_⟩
      change ∀ d ∈ s.calls.drop s.calls.length, d.sub ≠ id
      rw [List.drop_length]
      exact nofun

theorem map_ids_sublist (lanes : List EventLane) (change : EventLane → EventLane) (fewer : ∀ lane, (ids (change lane)).Sublist (ids lane)) :
    ((lanes.map change).flatMap ids).Sublist (lanes.flatMap ids) := by
  induction lanes with
  | nil => exact List.Sublist.refl _
  | cons lane rest ih => exact (fewer lane).append ih

theorem without_sublist (s : Bus) (id : SubscriptionId) (lane : EventLane) :
    (ids (if lane.type = s.types id then lane.without id else lane)).Sublist (ids lane) := by
  split
  · exact List.Sublist.map _ List.filter_sublist
  · exact List.Sublist.refl _

-- The removal under a write grant, between two dispatches.
theorem remove_sound {id : SubscriptionId} (sound : s.Sound) (tombstoned : s.phases id = .tombstoned) (idle : s.stage = .idle) :
    (s.apply (.remove id)).Sound := by
  have dead := sound.books.tombs id (.inl tombstoned)
  have member : ∀ lane ∈ s.without id, ∃ old ∈ s.lanes, lane.type = old.type ∧ lane.events = old.events ∧
      (∀ sub, sub ∈ lane.subs ↔ sub ∈ old.subs ∧ (old.type = s.types id → sub.id ≠ id)) := by
    intro lane inside
    obtain ⟨old,there,rfl⟩ := List.mem_map.mp inside
    refine ⟨old,there,?_⟩
    split
    · rename_i same
      refine ⟨rfl,rfl,?_⟩
      intro sub
      change sub ∈ old.subs.filter (·.id != id) ↔ _
      rw [List.mem_filter]
      simp [same]
    · rename_i other
      exact ⟨rfl,rfl,fun sub => ⟨fun inside => ⟨inside,fun same => absurd same other⟩,And.left⟩⟩
  have kept : ∀ old ∈ s.lanes, ∃ lane ∈ s.without id, lane.type = old.type ∧
      ∀ sub, sub ∈ old.subs → sub.id ≠ id → sub ∈ lane.subs := by
    intro old there
    refine ⟨_,List.mem_map_of_mem there,?_⟩
    split
    · refine ⟨rfl,?_⟩
      intro sub inside other
      exact List.mem_filter.mpr ⟨inside,by simpa using other⟩
    · exact ⟨rfl,fun sub inside _ => inside⟩
  refine ⟨?_,⟨?_,?_,?_,?_,?_,?_,?_⟩,⟨?_,sound.ledger.known,sound.ledger.keys,sound.ledger.current,sound.ledger.settled,?_,?_,?_⟩⟩
  · exact sound.books.advanced (by rw [tombstoned]; nofun) rfl rfl rfl rfl rfl rfl rfl rfl ⟨nofun,nofun⟩ dead (fun _ _ => rfl)
  · have same : (s.without id).map EventLane.type = s.lanes.map EventLane.type := by
      unfold without
      rw [List.map_map]
      refine List.map_congr_left ?_
      intro lane _
      simp only [Function.comp_apply]
      split <;> rfl
    change ((s.without id).map EventLane.type).Nodup
    rw [same]
    exact sound.shelf.types
  · intro lane inside sub under
    obtain ⟨old,there,type,-,subs⟩ := member lane inside
    rw [type]
    exact sound.shelf.homes old there sub ((subs sub).mp under).1
  · exact sound.shelf.single.sublist (map_ids_sublist _ _ (without_sublist s id))
  · intro e applied t publish
    obtain ⟨old,there,type⟩ := sound.shelf.housed e applied t publish
    obtain ⟨lane,inside,same,-⟩ := kept old there
    exact ⟨lane,inside,same.trans type⟩
  · intro e applied x t o install
    rcases sound.shelf.complete e applied x t o install with ⟨old,there,type,under⟩ | dead | expired
    · by_cases same : x = id
      · rw [same]
        exact .inr (.inl dead)
      · obtain ⟨lane,inside,laneType,subs⟩ := kept old there
        exact .inl ⟨lane,inside,laneType.trans type,subs _ under same⟩
    · exact .inr (.inl dead)
    · exact .inr (.inr expired)
  · intro x phase lane inside under
    obtain ⟨old,there,-,-,subs⟩ := member lane inside
    obtain ⟨sub,inLane,same⟩ := List.mem_map.mp under
    obtain ⟨before,out⟩ := (subs sub).mp inLane
    by_cases here : x = id
    · -- it could only be in the lane of its type
      obtain ⟨e,applied,install⟩ := sound.shelf.homes old there sub before
      have type := (sound.books.placed _ _ _ _ install).2.2
      rw [same,here] at type
      exact out type.symm (same.trans here)
    · change Function.update s.phases id .removed x = _ ∨ Function.update s.phases id .removed x = _ at phase
      rw [Function.update_of_ne here] at phase
      exact sound.shelf.removed x phase old there (List.mem_map.mpr ⟨sub,before,same⟩)
  · intro k lane here
    change (s.without id)[k]? = some lane at here
    unfold without at here
    rw [List.getElem?_map] at here
    obtain ⟨old,there,rfl⟩ := Option.map_eq_some_iff.mp here
    have events := sound.shelf.events k old there
    split
    · exact events
    · exact events
  · have called := sound.ledger.called
    unfold Called at called ⊢
    change match s.stage with | .calling .. => _ | _ => _
    rw [idle] at called ⊢
    exact called
  · intro visiting
    change s.visiting = true at visiting
    unfold Bus.visiting at visiting
    rw [idle] at visiting
    cases visiting
  · intro x ahead
    have none : Bus.ahead (s.apply (.remove id)) = [] := by
      unfold Bus.ahead
      change (match s.stage with | .checking .. => _ | .locking .. => _ | .calling .. => _ | .reaping .. => _ | _ => _) = _
      rw [idle]
    rw [none] at ahead
    cases ahead
  · exact fun x member => ⟨silent_advanced (s := s) sound.ledger (.inl (by rw [tombstoned]; nofun)) member,(sound.ledger.silent x member).2⟩

end Kept

end Bus
end Macrame

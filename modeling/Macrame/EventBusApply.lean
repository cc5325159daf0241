import Mathlib.Data.List.Flatten
import Macrame.EventBusLaws

namespace Macrame
namespace Bus

section Lanes

variable {lanes : List EventLane} {change : EventLane → EventLane}

theorem modifyLane_nodup (kept : ∀ lane, (change lane).type = lane.type) (nodup : (lanes.map EventLane.type).Nodup) :
    ((modifyLane lanes t change).map EventLane.type).Nodup := by
  unfold modifyLane
  split
  · have same : (lanes.map fun lane => if lane.type = t then change lane else lane).map EventLane.type = lanes.map EventLane.type := by
      rw [List.map_map]
      refine List.map_congr_left ?_
      intro lane _
      simp only [Function.comp_apply]
      split
      · exact kept lane
      · rfl
    rw [same]
    exact nodup
  · rename_i missing
    rw [List.map_append,List.map_singleton,kept]
    refine nodup.append (List.nodup_singleton _) ?_
    intro x member last
    obtain ⟨lane,inside,type⟩ := List.mem_map.mp member
    cases List.mem_singleton.mp last
    exact missing (List.any_eq_true.mpr ⟨lane,inside,by simpa using type⟩)

theorem modifyLane_get {k : Nat} (here : (modifyLane lanes t change)[k]? = some lane) :
    (∃ old, lanes[k]? = some old ∧ lane = if old.type = t then change old else old) ∨
      ((∀ old ∈ lanes, old.type ≠ t) ∧ lane = change {type := t}) := by
  unfold modifyLane at here
  split at here
  · rw [List.getElem?_map] at here
    obtain ⟨old,there,same⟩ := Option.map_eq_some_iff.mp here
    exact .inl ⟨old,there,same.symm⟩
  · rename_i missing
    have others : ∀ old ∈ lanes, old.type ≠ t := by
      intro old member same
      exact missing (List.any_eq_true.mpr ⟨old,member,by simpa using same⟩)
    rw [List.getElem?_append] at here
    split at here
    · have other := others lane (List.mem_of_getElem? here)
      exact .inl ⟨lane,here,(if_neg other).symm⟩
    · exact .inr ⟨others,List.mem_singleton.mp (List.mem_of_getElem? here)⟩

theorem modifyLane_old (member : old ∈ lanes) : (if old.type = t then change old else old) ∈ modifyLane lanes t change := by
  unfold modifyLane
  split
  · exact List.mem_map_of_mem member
  · rename_i missing
    have other : old.type ≠ t := by
      intro same
      exact missing (List.any_eq_true.mpr ⟨old,member,by simpa using same⟩)
    rw [if_neg other]
    exact List.mem_append_left _ member

theorem modifyLane_new (lanes : List EventLane) (t : EventType) (change : EventLane → EventLane) :
    ∃ base, base.type = t ∧ change base ∈ modifyLane lanes t change := by
  unfold modifyLane
  split
  · rename_i found
    obtain ⟨base,member,type⟩ := List.any_eq_true.mp found
    have same : base.type = t := by simpa using type
    refine ⟨base,same,List.mem_map.mpr ⟨base,member,if_pos same⟩⟩
  · exact ⟨{type := t},rfl,List.mem_append_right _ (List.mem_singleton_self _)⟩

-- A change of one lane adds its subscriptions once.
theorem modifyLane_ids (change : EventLane → EventLane) (extra : List SubscriptionId) (more : ∀ lane, ids (change lane) = ids lane++extra) (nodup : (lanes.map EventLane.type).Nodup) :
    ((modifyLane lanes t change).flatMap ids).Perm (lanes.flatMap ids++extra) := by
  unfold modifyLane
  split
  · rename_i found
    induction lanes with
    | nil => cases found
    | cons lane rest ih =>
      obtain ⟨alone,distinct⟩ := List.nodup_cons.mp nodup
      by_cases same : lane.type = t
      · have others : rest.map (fun lane => if lane.type = t then change lane else lane) = rest := by
          refine (List.map_congr_left ?_).trans (List.map_id _)
          intro other member
          refine if_neg ?_
          intro too
          exact alone (List.mem_map.mpr ⟨other,member,too.trans same.symm⟩)
        rw [List.map_cons,others,if_pos same,List.flatMap_cons,List.flatMap_cons,more,List.append_assoc,List.append_assoc]
        exact List.Perm.append_left _ List.perm_append_comm
      · have later : rest.any (·.type == t) = true := by
          rw [List.any_cons] at found
          simpa [same] using found
        rw [List.map_cons,if_neg same,List.flatMap_cons,List.flatMap_cons,List.append_assoc]
        exact List.Perm.append_left _ (ih distinct later)
  · rw [List.flatMap_append,List.flatMap_singleton,more]
    exact List.Perm.refl _

end Lanes

section Commit

variable {s u : Bus}

-- Moves of the dispatch that leave the journal and the connections alone.
structure Still (s u : Bus) : Prop where
  journal : u.journal = s.journal
  closures : u.closures = s.closures
  nextId : u.nextId = s.nextId
  phases : u.phases = s.phases
  types : u.types = s.types
  dead : u.dead = s.dead
  alive : u.alive = s.alive
  left : u.left = s.left

theorem Still.cut (still : Still s u) : u.cut = s.cut := by
  unfold Bus.cut
  rw [still.journal]

theorem Still.books (still : Still s u) (books : s.Books) (elsewhere : s.stage ≠ .cutting ∧ s.stage ≠ .idle) (leaves : u.stage ≠ .cutting)
    (taken : u.applied++u.pending.map (fun c => (c,s.cut)) = s.applied++s.pending.map (fun c => (c,s.cut)))
    (sorted : u.applied.Pairwise (fun e f => e.2 ≤ f.2)) : u.Books := by
  refine ⟨?_,?_,?_,?_,sorted,?_,?_,?_,?_,?_,?_,?_⟩
  · rw [still.journal]; exact books.journal
  · rw [still.journal]; exact books.kept
  · rw [still.closures,still.journal]; exact books.sized
  · rw [still.journal,still.cut,taken]; exact books.taken
  · intro _
    rw [still.journal]
    exact books.resting elsewhere.1
  · exact fun cutting => absurd cutting leaves
  · intro _
    rw [still.journal]
    exact books.busy elsewhere.2
  · rw [still.closures]; exact books.sole
  · rw [still.closures,still.phases,still.types]; exact books.placed
  · rw [still.nextId,still.phases]; exact books.fresh
  · rw [still.phases,still.dead]; exact books.tombs

theorem Still.closure (still : Still s u) : u.closure = s.closure := by
  funext c
  unfold Bus.closure
  rw [still.closures]

theorem Still.expired (still : Still s u) : u.expired = s.expired := by
  funext o
  unfold Bus.expired
  rw [still.alive]

-- The board stays too, and which lanes are done with.
theorem Still.shelf (still : Still s u) (shelf : s.Shelf) (lanes : u.lanes = s.lanes) (applied : u.applied = s.applied)
    (cleared : ∀ k, k < s.lanes.length → u.cleared k = s.cleared k) : u.Shelf := by
  refine ⟨?_,?_,?_,?_,?_,?_,?_⟩
  · rw [lanes]; exact shelf.types
  · rw [lanes,applied,still.closure]; exact shelf.homes
  · rw [lanes]; exact shelf.single
  · rw [lanes,applied,still.closure]; exact shelf.housed
  · rw [lanes,applied,still.closure,still.dead,still.expired]; exact shelf.complete
  · rw [lanes,still.phases]; exact shelf.removed
  · intro k lane here
    rw [lanes] at here
    rw [cleared k (List.getElem?_eq_some_iff.mp here).1,still.cut,posts_congr applied (fun _ _ => by rw [still.closure])]
    exact shelf.events k lane here

theorem beyond_cons {k i : Nat} (here : s.lanes[k]? = some lane) (sub_ : lane.subs[i]? = some sub) :
    s.beyond k i = sub.id :: s.beyond k (i+1) := by
  have place : (ids lane)[i]? = some sub.id := by
    unfold ids
    rw [List.getElem?_map,sub_]
    rfl
  obtain ⟨below,same⟩ := List.getElem?_eq_some_iff.mp place
  unfold beyond
  rw [here]
  simp only [Option.map_some,Option.getD_some]
  rw [List.drop_eq_getElem_cons below,same]
  rfl

theorem beyond_end {k i : Nat} (here : s.lanes[k]? = some lane) (none_ : lane.subs[i]? = none) :
    s.beyond k i = (s.lanes.drop (k+1)).flatMap ids := by
  unfold beyond
  rw [here]
  have overrun : (ids lane).length ≤ i := by
    unfold ids
    rw [List.length_map]
    exact List.getElem?_eq_none_iff.mp none_
  simp only [Option.map_some,Option.getD_some]
  rw [List.drop_eq_nil_of_le overrun]
  rfl

theorem beyond_start (s : Bus) (k : Nat) : s.beyond k 0 = (s.lanes.drop k).flatMap ids := by
  unfold beyond
  rw [List.drop_zero]
  cases here : s.lanes[k]? with
  | none =>
    have overrun := List.getElem?_eq_none_iff.mp here
    rw [List.drop_eq_nil_of_le overrun,List.drop_eq_nil_of_le (Nat.le_succ_of_le overrun)]
    rfl
  | some lane =>
    obtain ⟨below,same⟩ := List.getElem?_eq_some_iff.mp here
    rw [List.drop_eq_getElem_cons below,same]
    rfl

theorem beyond_sublist (s : Bus) (k i : Nat) : (s.beyond k i).Sublist (s.lanes.flatMap ids) := by
  have first : (s.beyond k i).Sublist (s.beyond k 0) := by
    unfold beyond
    rw [List.drop_zero]
    exact (List.drop_sublist ..).append (List.Sublist.refl _)
  rw [beyond_start] at first
  exact first.trans ((List.drop_sublist ..).flatMap ids)

-- The books while the journal is cut: only the register, the slots and what has
-- been taken change, beside the batch.
theorem Books.recut (books : s.Books) (closures : u.closures = s.closures) (phases : u.phases = s.phases) (types : u.types = s.types)
    (nextId : u.nextId = s.nextId) (dead : u.dead = s.dead) (applied : u.applied = s.applied)
    (issued : u.journal.issued = s.journal.issued) (discarded : u.journal.discarded = s.journal.discarded)
    (begun : u.journal.begun ≠ []) (journal : Journal.Sound u.journal)
    (taken : u.journal.taken = u.applied++u.pending.map (fun c => (c,u.cut)))
    (resting : u.stage ≠ .cutting → u.journal.position = none)
    (cutting : u.stage = .cutting → ∃ slot, u.journal.register = .cutting 0 slot ∧ slot ≤ u.journal.slots.length) : u.Books := by
  refine ⟨journal,?_,?_,taken,?_,resting,cutting,fun _ => begun,?_,?_,?_,?_⟩
  · rw [discarded]; exact books.kept
  · rw [closures,issued]; exact books.sized
  · rw [applied]; exact books.sorted
  · rw [closures]; exact books.sole
  · rw [closures,phases,types]; exact books.placed
  · rw [nextId,phases]; exact books.fresh
  · rw [phases,dead]; exact books.tombs

theorem begin_sound (sound : s.Sound) (idle : s.stage = .idle) : (s.apply .dispatch).Sound := by
  have same : s.apply .dispatch = {s with journal := s.journal.cutBegin 0,batch := [],stage := .cutting} := by
    unfold apply dispatch
    rw [idle]
  rw [same]
  have resting := sound.books.resting (by rw [idle]; nofun)
  have cut : Bus.cut {s with journal := s.journal.cutBegin 0,batch := [],stage := .cutting} = s.journal.begun.length := by
    change (s.journal.begun++[s.journal.issued.length]).length-1 = _
    rw [List.length_append]
    rfl
  refine ⟨?_,⟨sound.shelf.types,sound.shelf.homes,sound.shelf.single,sound.shelf.housed,sound.shelf.complete,sound.shelf.removed,?_⟩,
    ⟨?_,sound.ledger.known,sound.ledger.keys,?_,?_,nofun,nofun,sound.ledger.silent⟩⟩
  · refine sound.books.recut rfl rfl rfl rfl rfl rfl rfl rfl ?_ (Journal.cutBegin_sound sound.books.journal resting 0) ?_ nofun ?_
    · exact List.append_ne_nil_of_right_ne_nil _ (List.cons_ne_nil _ _)
    · have taken := sound.books.taken
      unfold pending at taken ⊢
      rw [idle] at taken
      exact taken
    · exact fun _ => ⟨0,rfl,Nat.zero_le _⟩
  · -- the lanes were cleared, and nothing of this cut has been applied
    intro k lane here
    have events := sound.shelf.events k lane here
    have none : posts {s with journal := s.journal.cutBegin 0,batch := [],stage := .cutting} s.journal.begun.length lane.type = [] := by
      unfold posts
      rw [List.map_eq_nil_iff,List.filter_eq_nil_iff]
      intro e member
      have earlier := (sound.books.known member).2
      simp only [decide_eq_true_eq]
      omega
    rw [cut,none]
    unfold cleared at events
    rw [idle] at events
    exact events
  · have called := sound.ledger.called
    unfold Called at called ⊢
    rw [idle] at called
    exact called
  · intro r member
    have earlier := (sound.ledger.current r member).1
    refine ⟨?_,fun _ => by rw [cut]; exact earlier⟩
    change r.cut < (s.journal.begun++[s.journal.issued.length]).length
    rw [List.length_append]
    exact Nat.lt_succ_of_lt earlier
  · intro n finished e member earlier id t o install
    refine sound.ledger.settled n ?_ e member earlier id t o install
    have before := finished.resolve_right (fun last => nomatch last.2)
    change n+1 < (s.journal.begun++[s.journal.issued.length]).length at before
    rw [List.length_append,List.length_singleton] at before
    rcases Nat.lt_or_eq_of_le (Nat.le_of_lt_succ before) with less | last
    · exact .inl less
    · exact .inr ⟨last,idle⟩

theorem cut_sound (sound : s.Sound) (cutting : s.stage = .cutting) : (s.apply .dispatch).Sound := by
  obtain ⟨slot,register,within⟩ := sound.books.cutting cutting
  have next : s.journal.nextCut 0 = some slot := by
    unfold Journal.nextCut
    rw [register]
    rfl
  have position := (Journal.nextCut_position next).1
  have busy := sound.books.busy (by rw [cutting]; nofun)
  have taken := sound.books.taken
  unfold pending at taken
  rw [cutting] at taken
  by_cases more : slot < s.journal.slots.length
  · have same : s.apply .dispatch =
        {s with journal := s.journal.cutSlot 0 slot,batch := s.batch++s.journal.slots.getD slot []} := by
      unfold apply dispatch
      rw [cutting]
      dsimp only
      rw [next]
      exact if_pos more
    rw [same]
    have outer : Outer s {s with journal := s.journal.cutSlot 0 slot,batch := s.batch++s.journal.slots.getD slot []} :=
      ⟨rfl,.inl rfl,rfl,rfl,rfl,rfl,rfl,fun _ _ => rfl,fun _ h => h,fun _ h => h,fun _ h => h⟩
    refine ⟨?_,outer.shelf sound.shelf,outer.ledger sound.ledger sound.ledger.silent⟩
    refine sound.books.recut rfl rfl rfl rfl rfl rfl rfl rfl busy (Journal.cutSlot_sound sound.books.journal position 0) ?_
      (fun elsewhere => absurd cutting elsewhere) ?_
    · unfold pending
      dsimp only
      rw [cutting]
      change s.journal.taken++_ = _
      rw [taken,List.map_append,← List.append_assoc]
      rfl
    · intro _
      refine ⟨slot+1,rfl,?_⟩
      change slot+1 ≤ (s.journal.slots.set slot []).length
      rw [List.length_set]
      exact more
  · have same : s.apply .dispatch = {s with journal := s.journal.unlock,stage := .applying 0} := by
      unfold apply dispatch
      rw [cutting]
      dsimp only
      rw [next]
      exact if_neg more
    rw [same]
    have outer : Outer s {s with journal := s.journal.unlock,stage := .applying 0} :=
      ⟨rfl,.inr ⟨cutting,rfl⟩,rfl,rfl,rfl,rfl,rfl,fun _ _ => rfl,fun _ h => h,fun _ h => h,fun _ h => h⟩
    have overrun : slot = s.journal.slots.length := Nat.le_antisymm within (Nat.le_of_not_lt more)
    rw [overrun] at position
    exact ⟨sound.books.recut rfl rfl rfl rfl rfl rfl rfl rfl busy (Journal.cutEnd_sound sound.books.journal position) taken
      (fun _ => rfl) nofun,outer.shelf sound.shelf,outer.ledger sound.ledger sound.ledger.silent⟩

theorem Books.taken_commands (books : s.Books) : s.journal.taken.map Prod.fst = s.applied.map Prod.fst++s.pending := by
  rw [books.taken,List.map_append,List.map_map]
  congr 1
  exact List.map_id _

theorem Books.taken_nodup (books : s.Books) : (s.applied.map Prod.fst++s.pending).Nodup := by
  rw [← books.taken_commands]
  refine List.nodup_iff_count.mpr ?_
  intro c
  have counted := books.journal.row.conserved c
  have once := books.journal.row.once c
  change _+(s.journal.taken.map Prod.fst).count c+_ = _ at counted
  omega

-- No command is applied twice.
theorem Books.unapplied (books : s.Books) (waiting : c ∈ s.pending) (member : e ∈ s.applied) : e.1.stamp ≠ c.stamp := by
  have issued : c ∈ s.journal.issued := by
    refine books.journal.row.known.mpr (.inr (.inl ?_))
    change c ∈ s.journal.taken.map Prod.fst
    rw [books.taken_commands]
    exact List.mem_append_right _ waiting
  intro same
  have equal := books.same_stamp (books.known member).1.1 issued same
  have apart := (List.nodup_append.mp books.taken_nodup).2.2
  exact apart e.1 (List.mem_map_of_mem member) c waiting equal

-- A command applied: the lanes aside, what it does.
def applyNext (s : Bus) (c : Command) (next : Nat) : Bus :=
  {s with lanes := s.applyClosure c,applied := s.applied++[(c,s.cut)],stage := .applying (next+1)}

section Applying

variable {next : Nat}

theorem applying_pending (applying : s.stage = .applying next) (fetched : s.batch[next]? = some c) :
    s.pending = c :: s.batch.drop (next+1) := by
  obtain ⟨below,same⟩ := List.getElem?_eq_some_iff.mp fetched
  unfold pending
  rw [applying]
  dsimp only
  rw [List.drop_eq_getElem_cons below,same]

theorem applyNext_posts (s : Bus) (c : Command) (next n : Nat) (t : EventType) :
    (s.applyNext c next).posts n t =
      s.posts n t++if s.cut = n ∧ s.closure c = some (.publish t) then [c.stamp] else [] := by
  unfold posts
  change ((s.applied++[(c,s.cut)]).filter (fun e => decide (e.2 = n ∧ s.closure e.1 = some (.publish t)))).map _ = _
  rw [List.filter_append,List.map_append]
  congr 1
  by_cases brings : s.cut = n ∧ s.closure c = some (.publish t)
  · rw [if_pos brings,List.map_eq_singleton_iff]
    exact ⟨_,List.filter_cons_of_pos (by simpa using brings),rfl⟩
  · rw [if_neg brings,List.map_eq_nil_iff]
    exact List.filter_cons_of_neg (by simpa using brings)

theorem applyNext_posts_other (other : ¬(s.cut = n ∧ s.closure c = some (.publish t))) :
    (s.applyNext c next).posts n t = s.posts n t := by
  rw [applyNext_posts,if_neg other,List.append_nil]

theorem applyNext_books (books : s.Books) (applying : s.stage = .applying next) (fetched : s.batch[next]? = some c) :
    (s.applyNext c next).Books := by
  have still : Still s (s.applyNext c next) := ⟨rfl,rfl,rfl,rfl,rfl,rfl,rfl,rfl⟩
  refine still.books books (by rw [applying]; exact ⟨nofun,nofun⟩) nofun ?_ ?_
  · rw [applying_pending applying fetched,List.map_cons]
    change (s.applied++[(c,s.cut)])++_ = _
    rw [List.append_assoc]
    rfl
  · refine List.pairwise_append.mpr ⟨books.sorted,List.pairwise_singleton ..,?_⟩
    intro e member f last
    rw [List.mem_singleton.mp last]
    exact Nat.le_sub_one_of_lt (books.known member).2

-- In a lane of its type, or nowhere: all that the application of a closure is.
theorem applyClosure_cases (s : Bus) (c : Command) :
    (s.applyClosure c = s.lanes ∧ (∀ t, s.closure c ≠ some (.publish t)) ∧
        ∀ id t o, s.closure c = some (.install id t o) → s.dead id = true) ∨
      (∃ t, s.closure c = some (.publish t) ∧
        s.applyClosure c = modifyLane s.lanes t (fun lane => {lane with events := lane.events++[c.stamp]})) ∨
      (∃ id t o, s.closure c = some (.install id t o) ∧ s.dead id = false ∧
        s.applyClosure c = modifyLane s.lanes t (fun lane => {lane with subs := lane.subs++[⟨id,o⟩]})) := by
  unfold applyClosure
  cases stands : s.closure c with
  | none => exact .inl ⟨rfl,nofun,nofun⟩
  | some closure =>
    cases closure with
    | publish t => exact .inr (.inl ⟨t,rfl,rfl⟩)
    | install id t o =>
      by_cases dead : s.dead id = true
      · refine .inl ⟨if_pos dead,nofun,?_⟩
        intro _ _ _ same
        cases same
        exact dead
      · exact .inr (.inr ⟨id,t,o,rfl,by simpa using dead,if_neg dead⟩)

theorem skip_shelf (sound : s.Sound) (applying : s.stage = .applying next) (lanes : s.applyClosure c = s.lanes)
    (other : ∀ t, s.closure c ≠ some (.publish t)) (dead : ∀ id t o, s.closure c = some (.install id t o) → s.dead id = true) :
    (s.applyNext c next).Shelf := by
  have same : (s.applyNext c next).lanes = s.lanes := lanes
  refine ⟨?_,?_,?_,?_,?_,?_,?_⟩
  · rw [same]
    exact sound.shelf.types
  · rw [same]
    intro lane member sub inside
    obtain ⟨e,applied,install⟩ := sound.shelf.homes lane member sub inside
    exact ⟨e,List.mem_append_left _ applied,install⟩
  · rw [same]
    exact sound.shelf.single
  · rw [same]
    intro e member t publish
    rcases List.mem_append.mp member with old | last
    · exact sound.shelf.housed e old t publish
    · rw [List.mem_singleton.mp last] at publish
      exact absurd publish (other t)
  · rw [same]
    intro e member id t o install
    rcases List.mem_append.mp member with old | last
    · exact sound.shelf.complete e old id t o install
    · rw [List.mem_singleton.mp last] at install
      exact .inr (.inl (dead id t o install))
  · rw [same]
    exact sound.shelf.removed
  · rw [same]
    intro k lane here
    have events := sound.shelf.events k lane here
    unfold cleared at events
    rw [applying] at events
    rw [applyNext_posts_other (fun both => other _ both.2)]
    exact events

-- One lane gets the closure's event or subscription.
theorem modify_shelf (extra : List Subscription) (more : List Nat) (sound : s.Sound) (applying : s.stage = .applying next)
    (lanes : s.applyClosure c = modifyLane s.lanes t change) (kept : ∀ lane, (change lane).type = lane.type)
    (subs : ∀ lane, (change lane).subs = lane.subs++extra) (events : ∀ lane, (change lane).events = lane.events++more)
    (fresh : (extra.map Subscription.id).Nodup) (apart : ∀ id ∈ s.lanes.flatMap ids, id ∉ extra.map Subscription.id)
    (installs : ∀ sub ∈ extra, s.closure c = some (.install sub.id t sub.owner) ∧ s.dead sub.id = false)
    (publishes : ∀ x, s.closure c = some (.publish x) → x = t)
    (brings : more = if s.closure c = some (.publish t) then [c.stamp] else [])
    (installed : ∀ id x o, s.closure c = some (.install id x o) → x = t ∧ ⟨id,o⟩ ∈ extra) :
    (s.applyNext c next).Shelf := by
  have same : (s.applyNext c next).lanes = modifyLane s.lanes t change := lanes
  have changed : ∀ lane ∈ modifyLane s.lanes t change, ∀ sub ∈ lane.subs,
      (∃ old ∈ s.lanes, lane.type = old.type ∧ sub ∈ old.subs) ∨ lane.type = t ∧ sub ∈ extra := by
    intro lane member sub inside
    obtain ⟨k,here⟩ := List.mem_iff_getElem?.mp member
    rcases modifyLane_get here with ⟨old,there,rfl⟩ | ⟨-,rfl⟩
    · by_cases home : old.type = t
      · rw [if_pos home] at inside ⊢
        rw [subs] at inside
        rcases List.mem_append.mp inside with before | added
        · exact .inl ⟨old,List.mem_of_getElem? there,kept old,before⟩
        · exact .inr ⟨(kept old).trans home,added⟩
      · rw [if_neg home] at inside ⊢
        exact .inl ⟨old,List.mem_of_getElem? there,rfl,inside⟩
    · rw [subs] at inside
      rcases List.mem_append.mp inside with none | added
      · cases none
      · exact .inr ⟨kept _,added⟩
  refine ⟨?_,?_,?_,?_,?_,?_,?_⟩
  · rw [same]
    exact modifyLane_nodup kept sound.shelf.types
  · rw [same]
    intro lane member sub inside
    rcases changed lane member sub inside with ⟨old,there,type,before⟩ | ⟨type,added⟩
    · obtain ⟨e,applied,install⟩ := sound.shelf.homes old there sub before
      exact ⟨e,List.mem_append_left _ applied,by rw [type]; exact install⟩
    · exact ⟨(c,s.cut),List.mem_append_right _ (List.mem_singleton_self _),by rw [type]; exact (installs sub added).1⟩
  · have all := modifyLane_ids (t := t) change (extra.map Subscription.id)
      (fun lane => by unfold ids; rw [subs,List.map_append]) sound.shelf.types
    rw [same]
    refine all.nodup_iff.mpr (sound.shelf.single.append fresh ?_)
    intro id before added
    exact apart id before added
  · rw [same]
    intro e member x publish
    rcases List.mem_append.mp member with old | last
    · obtain ⟨lane,there,type⟩ := sound.shelf.housed e old x publish
      refine ⟨_,modifyLane_old there,?_⟩
      split
      · exact (kept lane).trans type
      · exact type
    · rw [List.mem_singleton.mp last] at publish
      obtain ⟨base,type,there⟩ := modifyLane_new s.lanes t change
      exact ⟨_,there,(kept base).trans (type.trans (publishes x publish).symm)⟩
  · rw [same]
    intro e member id x o install
    rcases List.mem_append.mp member with old | last
    · rcases sound.shelf.complete e old id x o install with ⟨lane,there,type,inside⟩ | gone
      · refine .inl ⟨_,modifyLane_old there,?_⟩
        split
        · rw [kept,subs]
          exact ⟨type,List.mem_append_left _ inside⟩
        · exact ⟨type,inside⟩
      · exact .inr gone
    · rw [List.mem_singleton.mp last] at install
      obtain ⟨home,added⟩ := installed id x o install
      obtain ⟨base,type,there⟩ := modifyLane_new s.lanes t change
      refine .inl ⟨_,there,(kept base).trans (type.trans home.symm),?_⟩
      rw [subs]
      exact List.mem_append_right _ added
  · rw [same]
    intro id phase lane member inside
    obtain ⟨sub,under,rfl⟩ := List.mem_map.mp inside
    rcases changed lane member sub under with ⟨old,there,-,before⟩ | ⟨-,added⟩
    · exact sound.shelf.removed sub.id phase old there (List.mem_map_of_mem before)
    · have dead := sound.books.tombs sub.id (.inr phase)
      rw [(installs sub added).2] at dead
      cases dead
  · rw [same]
    intro k lane here
    have uncleared : (s.applyNext c next).cleared k = false := rfl
    have same_cut : (s.applyNext c next).cut = s.cut := rfl
    have old_events : ∀ (k : Nat) old, s.lanes[k]? = some old → old.events = s.posts s.cut old.type := by
      intro k old there
      have events := sound.shelf.events k old there
      unfold cleared at events
      rw [applying] at events
      exact events
    rw [uncleared,same_cut,applyNext_posts]
    rcases modifyLane_get here with ⟨old,there,rfl⟩ | ⟨others,rfl⟩
    · by_cases home : old.type = t
      · rw [if_pos home,kept,events,old_events k old there,brings,home]
        simp
      · have none : s.closure c ≠ some (.publish old.type) := fun publish => home (publishes _ publish)
        rw [if_neg home,if_neg nofun,if_neg (fun both => none both.2),List.append_nil]
        exact old_events k old there
    · -- a lane made now: nothing of its type had been applied
      have none : s.posts s.cut t = [] := by
        unfold posts
        rw [List.map_eq_nil_iff,List.filter_eq_nil_iff]
        intro e member brought
        simp only [decide_eq_true_eq] at brought
        obtain ⟨lane,there,type⟩ := sound.shelf.housed e member t brought.2
        exact others lane there type
      rw [kept,events,none,brings]
      simp

theorem applyNext_shelf (sound : s.Sound) (applying : s.stage = .applying next) (fetched : s.batch[next]? = some c) :
    (s.applyNext c next).Shelf := by
  rcases applyClosure_cases s c with ⟨lanes,other,dead⟩ | ⟨t,publish,lanes⟩ | ⟨id,t,o,install,alive,lanes⟩
  · exact skip_shelf sound applying lanes other dead
  · refine modify_shelf [] [c.stamp] sound applying lanes (fun _ => rfl) (fun _ => (List.append_nil _).symm)
      (fun _ => rfl) List.nodup_nil (fun _ _ => List.not_mem_nil) nofun ?_ (if_pos publish).symm ?_
    · intro x too
      rw [publish] at too
      cases too
      rfl
    · intro id x o too
      rw [publish] at too
      cases too
  · refine modify_shelf [⟨id,o⟩] [] sound applying lanes (fun _ => rfl) (fun _ => rfl)
      (fun _ => (List.append_nil _).symm) (List.nodup_singleton _) ?_ ?_ ?_ ?_ ?_
    · -- a subscription is installed once
      intro x before added
      cases List.mem_singleton.mp added
      obtain ⟨lane,there,inside⟩ := List.mem_flatMap.mp before
      obtain ⟨sub,under,same⟩ := List.mem_map.mp inside
      obtain ⟨e,member,prior⟩ := sound.shelf.homes lane there sub under
      rw [same] at prior
      have waiting : c ∈ s.pending := by
        rw [applying_pending applying fetched]
        exact List.mem_cons_self
      exact sound.books.unapplied waiting member (sound.books.sole _ _ _ _ _ _ _ prior install)
    · intro sub member
      cases List.mem_singleton.mp member
      exact ⟨install,alive⟩
    · intro x too
      rw [install] at too
      cases too
    · rw [install]
      exact (if_neg nofun).symm
    · intro id' x o' too
      rw [install] at too
      cases too
      exact ⟨rfl,List.mem_singleton_self _⟩

theorem applyNext_ledger (sound : s.Sound) (applying : s.stage = .applying next) : (s.applyNext c next).Ledger := by
  have gathering : s.gathering = true := by
    unfold Bus.gathering
    rw [applying]
  refine ⟨?_,?_,sound.ledger.keys,?_,?_,nofun,nofun,sound.ledger.silent⟩
  · -- the subscriptions reached so far were reached in earlier cuts
    have called := sound.ledger.called
    unfold Called at called
    rw [applying] at called
    change s.calls = s.reaches.flatMap (s.applyNext c next).handed
    refine Eq.trans called (List.flatMap_congr ?_)
    intro r member
    have earlier := (sound.ledger.current r member).2 gathering
    unfold handed
    rw [applyNext_posts_other (fun both => Nat.ne_of_gt earlier both.1)]
  · intro r member
    obtain ⟨e,applied,earlier,o,install⟩ := sound.ledger.known r member
    exact ⟨e,List.mem_append_left _ applied,earlier,o,install⟩
  · intro r member
    exact ⟨(sound.ledger.current r member).1,fun _ => (sound.ledger.current r member).2 gathering⟩
  · intro n finished e member earlier id t o install
    have before : n+1 < s.journal.begun.length := finished.resolve_right (fun last => nomatch last.2)
    rcases List.mem_append.mp member with old | last
    · exact sound.ledger.settled n (.inl before) e old earlier id t o install
    · rw [List.mem_singleton.mp last] at earlier
      change s.journal.begun.length-1 ≤ n at earlier
      omega

-- The batch is applied, and the handlers' loop starts at the first lane.
theorem arrive_sound (sound : s.Sound) (applying : s.stage = .applying next) (overrun : s.batch[next]? = none) :
    Sound {s with
      batch := [],stage := .checking 0 0
      gone := Function.update s.gone s.cut (fun id owner => s.dead id || s.expired owner)} := by
  have still : Still s {s with
      batch := [],stage := .checking 0 0
      gone := Function.update s.gone s.cut (fun id owner => s.dead id || s.expired owner)} := ⟨rfl,rfl,rfl,rfl,rfl,rfl,rfl,rfl⟩
  have gathering : s.gathering = true := by
    unfold Bus.gathering
    rw [applying]
  refine ⟨?_,?_,⟨?_,sound.ledger.known,sound.ledger.keys,?_,?_,?_,?_,sound.ledger.silent⟩⟩
  · refine still.books sound.books (by rw [applying]; exact ⟨nofun,nofun⟩) nofun ?_ sound.books.sorted
    have done : s.pending = [] := by
      unfold pending
      rw [applying]
      exact List.drop_eq_nil_of_le (List.getElem?_eq_none_iff.mp overrun)
    rw [done]
    rfl
  · refine still.shelf sound.shelf rfl rfl ?_
    intro k _
    unfold cleared
    rw [applying]
    exact decide_eq_false (Nat.not_lt_zero k)
  · have called := sound.ledger.called
    unfold Called at called
    rw [applying] at called
    exact called
  · exact fun r member => ⟨(sound.ledger.current r member).1,nofun⟩
  · intro n finished e member earlier id t o install
    have before : n+1 < s.journal.begun.length := finished.resolve_right (fun last => nomatch last.2)
    change _ ∨ Function.update s.gone s.cut _ n id o = true
    rw [Function.update_of_ne (by change n ≠ s.journal.begun.length-1; omega)]
    exact sound.ledger.settled n (.inl before) e member earlier id t o install
  · intro _ e member id t o install
    refine .inr ?_
    change Function.update s.gone s.cut _ s.cut id o = true ∨ id ∈ s.beyond 0 0
    rw [Function.update_self,beyond_start,List.drop_zero]
    rcases sound.shelf.complete e member id t o install with ⟨lane,there,-,inside⟩ | dead | expired
    · exact .inr (List.mem_flatMap.mpr ⟨lane,there,List.mem_map_of_mem inside⟩)
    · exact .inl (Bool.or_eq_true_iff.mpr (.inl dead))
    · exact .inl (Bool.or_eq_true_iff.mpr (.inr expired))
  · rintro id - ⟨r,member,cut,-⟩
    exact absurd cut (Nat.ne_of_lt ((sound.ledger.current r member).2 gathering))

end Applying

end Commit

end Bus
end Macrame

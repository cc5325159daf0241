import Macrame.EventBusDispatch

namespace Macrame
namespace Bus

-- The constructor's journal: lanes and nothing staged.
theorem minted_sound (checked : Bool) (workers : Nat) : Journal.Sound (minted checked workers) ∧ (minted checked workers).issued = [] ∧
    (minted checked workers).taken = [] ∧ (minted checked workers).discarded = [] ∧ (minted checked workers).register = .free := by
  unfold minted
  generalize List.range (workers+1) = lanes
  have start : Journal.Sound (({} : Journal).parallelRecorder publisher) := Journal.parallelRecorder_sound Journal.sound_empty publisher
  revert start
  have bare : (({} : Journal).parallelRecorder publisher).issued = [] ∧ (({} : Journal).parallelRecorder publisher).taken = [] ∧
      (({} : Journal).parallelRecorder publisher).discarded = [] ∧ (({} : Journal).parallelRecorder publisher).register = .free :=
    ⟨rfl,rfl,rfl,rfl⟩
  revert bare
  generalize ({} : Journal).parallelRecorder publisher = j
  intro bare sound
  induction lanes generalizing j with
  | nil => exact ⟨sound,bare⟩
  | cons _ rest ih =>
    refine ih (j.mintLane checked workers publisher) ?_ (Journal.mintLane_sound sound publisher)
    unfold Journal.mintLane
    split
    · rename_i added
      rcases Journal.addSlot_cases added with ⟨-,rfl⟩ | ⟨-,rfl⟩ <;> exact bare
    · exact bare

theorem initial_sound (checked : Bool) (workers : Nat) : Sound {journal := minted checked workers} := by
  obtain ⟨journal,issued,taken,discarded,register⟩ := minted_sound checked workers
  refine ⟨⟨journal,discarded,?_,taken,.nil,?_,nofun,?_,nofun,nofun,fun _ _ => rfl,?_⟩,⟨.nil,nofun,.nil,nofun,nofun,nofun,nofun⟩,
    ⟨rfl,nofun,.nil,nofun,nofun,nofun,nofun,nofun⟩⟩
  · exact (congrArg List.length issued).symm
  · exact fun _ => Journal.free_position register
  · exact fun busy => absurd rfl busy
  · rintro id (phase | phase | phase) <;> cases phase

theorem apply_sound {s : Bus} (sound : s.Sound) (allowed : s.Allowed a) : (s.apply a).Sound := by
  cases a with
  | publish worker type => exact publish_sound sound allowed type
  | number => exact number_sound sound
  | install worker id type owner => exact install_sound sound allowed.2 allowed.1
  | expire owner => exact expire_sound sound owner
  | tombstone id => exact tombstone_sound sound allowed
  | remove id => exact remove_sound sound allowed.1 allowed.2
  | disconnected id => exact disconnected_sound sound allowed
  | dispatch => exact dispatch_sound sound

theorem reached_sound (path : Machines.Reached (busSystem checked workers) s) : s.Sound := by
  refine Machines.reached_invariant Sound ?_ ?_ path
  · rintro s rfl
    exact initial_sound checked workers
  · exact fun s a sound allowed => apply_sound sound allowed

-- One event of one lane of the publisher goes before another.
def Precedes (s : Bus) (a b : Delivery) : Prop :=
  a.event ≠ b.event ∧ ∀ c ∈ s.journal.issued, ∀ d ∈ s.journal.issued, c.stamp = a.event → d.stamp = b.event →
    c.slot = d.slot → c.stamp < d.stamp

-- `published`: an event is in one cut, the first that began after it was staged.
-- `handed`: once a cut is dispatched, every subscription of the event's type
-- installed by then was reached once and handed the event if it was found neither
-- dead nor expired, or had been dead or expired before the handlers began.
structure Delivered (s : Bus) : Prop where
  published : ∀ (n : Nat) total, s.journal.begun[n]? = some total → s.Finished n → ∀ c ∈ s.journal.issued, c.stamp < total →
    ∃ m ≤ n, (c,m) ∈ s.journal.taken
  single : ∀ c m n, (c,m) ∈ s.journal.taken → (c,n) ∈ s.journal.taken → m = n
  handed : ∀ n, s.Finished n → ∀ c t, (c,n) ∈ s.journal.taken → s.closure c = some (.publish t) →
    ∀ e m id o, (e,m) ∈ s.journal.taken → m ≤ n → s.closure e = some (.install id t o) →
      (∃ r ∈ s.reaches, r.cut = n ∧ r.sub = id ∧ (⟨n,id,c.stamp⟩ ∈ s.calls ↔ r.dead = false ∧ r.expired = false)) ∨
        s.gone n id o = true ∧ ⟨n,id,c.stamp⟩ ∉ s.calls
  owed : ∀ d ∈ s.calls, ∃ c t, (c,d.cut) ∈ s.journal.taken ∧ c.stamp = d.event ∧ s.closure c = some (.publish t) ∧
    (∃ e m o, (e,m) ∈ s.journal.taken ∧ m ≤ d.cut ∧ s.closure e = some (.install d.sub t o)) ∧
    ∃ r ∈ s.reaches, r.cut = d.cut ∧ r.sub = d.sub ∧ r.dead = false ∧ r.expired = false
  visits : s.reaches.Pairwise (fun a b => ¬(a.cut = b.cut ∧ a.sub = b.sub))
  ordered : s.calls.Pairwise (fun a b => a.sub = b.sub → s.Precedes a b)
  silent : ∀ x ∈ s.left, x.2 ≤ s.calls.length ∧ ∀ d ∈ s.calls.drop x.2, d.sub ≠ x.1

section Delivering

variable {s : Bus}

-- The order of application: by cut, and by stamp within a slot.
theorem Books.drawn (books : s.Books) : s.applied.Pairwise (fun e f => e.2 ≤ f.2 ∧ e.1.stamp ≠ f.1.stamp ∧
    (e.1.slot = f.1.slot → e.1.stamp < f.1.stamp)) := by
  have drawn : (s.applied.map Prod.fst).Pairwise (fun x y => x.slot = y.slot → x.stamp < y.stamp) := by
    have all : (s.journal.taken.map Prod.fst).Pairwise (fun x y : Command => x.slot = y.slot → x.stamp < y.stamp) :=
      books.journal.row.drawn
    rw [books.taken_commands] at all
    exact (List.pairwise_append.mp all).1
  have nodup := List.Nodup.of_append_left books.taken_nodup
  have distinct : s.applied.Pairwise (fun e f => e.1.stamp ≠ f.1.stamp) := by
    refine (List.pairwise_map.mp nodup).imp_of_mem ?_
    intro e f first second apart same
    exact apart (books.same_stamp (books.known first).1.1 (books.known second).1.1 same)
  exact books.sorted.and (distinct.and (List.pairwise_map.mp drawn))

theorem Books.earlier (books : s.Books) (first : e ∈ s.applied) (second : f ∈ s.applied) (cuts : e.2 < f.2) :
    e.1.stamp ≠ f.1.stamp ∧ (e.1.slot = f.1.slot → e.1.stamp < f.1.stamp) := by
  obtain ⟨i,below,one⟩ := List.mem_iff_getElem.mp first
  obtain ⟨j,within,two⟩ := List.mem_iff_getElem.mp second
  have drawn := List.pairwise_iff_getElem.mp books.drawn
  rcases Nat.lt_trichotomy i j with less | same | more
  · have before := drawn i j below within less
    rw [one,two] at before
    exact before.2
  · subst same
    rw [one] at two
    rw [two] at cuts
    exact absurd cuts (Nat.lt_irrefl _)
  · have before := drawn j i within below more
    rw [one,two] at before
    exact absurd cuts (Nat.not_lt.mpr before.1)

theorem mem_posts : event ∈ s.posts n t ↔ ∃ c, (c,n) ∈ s.applied ∧ s.closure c = some (.publish t) ∧ c.stamp = event := by
  unfold posts
  rw [List.mem_map]
  constructor
  · rintro ⟨⟨c,m⟩,member,rfl⟩
    obtain ⟨applied,brings⟩ := List.mem_filter.mp member
    simp only [decide_eq_true_eq] at brings
    obtain ⟨rfl,publish⟩ := brings
    exact ⟨c,applied,publish,rfl⟩
  · rintro ⟨c,applied,publish,rfl⟩
    exact ⟨(c,n),List.mem_filter.mpr ⟨applied,by simpa using publish⟩,rfl⟩

theorem mem_handed : d ∈ s.handed r ↔ Reach.good r = true ∧ d.cut = r.cut ∧ d.sub = r.sub ∧ d.event ∈ s.posts r.cut r.type := by
  unfold handed
  split
  · rename_i good
    rw [List.mem_map]
    constructor
    · rintro ⟨event,member,rfl⟩
      exact ⟨good,rfl,rfl,member⟩
    · rintro ⟨-,cut,sub,member⟩
      obtain ⟨n,x,event⟩ := d
      cases cut
      cases sub
      exact ⟨event,member,rfl⟩
  · rename_i bad
    exact ⟨nofun,fun ⟨good,_⟩ => absurd good bad⟩

-- Calls in the middle of a subscription's loop are part of its share.
theorem calls_sublist (sound : s.Sound) : s.calls.Sublist (s.reaches.flatMap s.handed) := by
  have called := sound.ledger.called
  unfold Called at called
  split at called
  · rename_i k i e stage
    obtain ⟨before,lane,sub,r,-,-,reaches,-,-,-,-,calls,share⟩ := calling_share sound stage
    rw [calls,reaches,List.flatMap_append,List.flatMap_singleton,share]
    exact (List.Sublist.refl _).append ((List.take_sublist ..).map _)
  · rw [called]

-- What holds of the commands holds of the calls with them.
theorem Books.precedes (books : s.Books) (first : e ∈ s.applied) (second : f ∈ s.applied)
    (before : e.1.stamp ≠ f.1.stamp ∧ (e.1.slot = f.1.slot → e.1.stamp < f.1.stamp)) (one : a.event = e.1.stamp) (two : b.event = f.1.stamp) :
    s.Precedes a b := by
  refine ⟨by rw [one,two]; exact before.1,?_⟩
  intro c issued d issued' stamp stamp' slot
  obtain rfl := books.same_stamp issued (books.known first).1.1 (stamp.trans one)
  obtain rfl := books.same_stamp issued' (books.known second).1.1 (stamp'.trans two)
  exact before.2 slot

theorem handed_ordered (books : s.Books) (r : Reach) : (s.handed r).Pairwise s.Precedes := by
  unfold handed
  split
  · refine List.pairwise_map.mpr (List.pairwise_map.mpr ((books.drawn.filter _).imp_of_mem ?_))
    intro e f first second before
    exact books.precedes (List.mem_filter.mp first).1 (List.mem_filter.mp second).1 before.2 rfl rfl
  · exact .nil

theorem calls_ordered (sound : s.Sound) : s.calls.Pairwise (fun a b => a.sub = b.sub → s.Precedes a b) := by
  refine List.Pairwise.sublist (calls_sublist sound) ?_
  rw [List.pairwise_flatMap]
  refine ⟨?_,sound.ledger.keys.imp ?_⟩
  · intro r _
    refine (handed_ordered sound.books r).imp ?_
    intro a b before _
    exact before
  · intro r r' keys a first b second same
    obtain ⟨-,-,sub,member⟩ := mem_handed.mp first
    obtain ⟨-,-,sub',member'⟩ := mem_handed.mp second
    obtain ⟨c,applied,-,stamp⟩ := mem_posts.mp member
    obtain ⟨d,applied',-,stamp'⟩ := mem_posts.mp member'
    have cuts := keys.2 (sub.symm.trans (same.trans sub'))
    exact sound.books.precedes applied applied' (sound.books.earlier applied applied' cuts) stamp.symm stamp'.symm

theorem finished_calls (ledger : s.Ledger) (finished : s.Finished n) (reached : r ∈ s.reaches) (cut : r.cut = n)
    (share : d ∈ s.handed r) : d ∈ s.calls := by
  have called := ledger.called
  unfold Called at called
  split at called
  · -- the loop under way belongs to a later cut
    rename_i stage
    obtain ⟨before,lane,sub,last,-,-,reaches,now,-,-,-,calls⟩ := called
    rw [reaches] at reached
    rcases List.mem_append.mp reached with old | new
    · rw [calls]
      exact List.mem_append_left _ (List.mem_flatMap.mpr ⟨r,old,share⟩)
    · rw [List.mem_singleton.mp new] at cut
      have past := finished.resolve_right (fun idle => by rw [stage] at idle; exact nomatch idle.2)
      rw [now] at cut
      change s.journal.begun.length-1 = n at cut
      omega
  · rw [called]
    exact List.mem_flatMap.mpr ⟨r,reached,share⟩

-- What a finished cut took has been applied.
theorem finished_applied (books : s.Books) (finished : s.Finished n) (earlier : m ≤ n) (taken : (c,m) ∈ s.journal.taken) :
    (c,m) ∈ s.applied := by
  rw [books.taken] at taken
  rcases List.mem_append.mp taken with applied | waiting
  · exact applied
  · obtain ⟨d,pending,same⟩ := List.mem_map.mp waiting
    cases same
    change s.journal.begun.length-1 ≤ n at earlier
    rcases finished with before | ⟨-,idle⟩
    · omega
    · unfold Bus.pending at pending
      rw [idle] at pending
      cases pending

theorem owed_of (sound : s.Sound) (called : d ∈ s.calls) : ∃ c t, (c,d.cut) ∈ s.applied ∧ c.stamp = d.event ∧
    s.closure c = some (.publish t) ∧ (∃ e ∈ s.applied, e.2 ≤ d.cut ∧ ∃ o, s.closure e.1 = some (.install d.sub t o)) ∧
    ∃ r ∈ s.reaches, r.cut = d.cut ∧ r.sub = d.sub ∧ Reach.good r = true := by
  obtain ⟨r,reached,share⟩ := List.mem_flatMap.mp ((calls_sublist sound).subset called)
  obtain ⟨good,cut,sub,event⟩ := mem_handed.mp share
  obtain ⟨c,applied,publish,stamp⟩ := mem_posts.mp event
  rw [← cut] at applied
  obtain ⟨e,member,earlier,o,install⟩ := sound.ledger.known r reached
  rw [← cut] at earlier
  rw [← sub] at install
  exact ⟨c,r.type,applied,stamp,publish,⟨e,member,earlier,o,install⟩,r,reached,cut.symm,sub.symm,good⟩

theorem good_iff (r : Reach) : Reach.good r = true ↔ r.dead = false ∧ r.expired = false := by
  unfold Reach.good
  simp

theorem reached_once (ledger : s.Ledger) (first : r ∈ s.reaches) (second : r' ∈ s.reaches) (cut : r.cut = r'.cut)
    (sub : r.sub = r'.sub) : r = r' := by
  have keys : (s.reaches.map (fun r => (r.cut,r.sub))).Nodup := by
    refine List.pairwise_map.mpr (ledger.keys.imp ?_)
    intro a b keys same
    exact Nat.ne_of_lt (keys.2 (congrArg Prod.snd same)) (congrArg Prod.fst same)
  exact List.inj_on_of_nodup_map keys first second (Prod.ext cut sub)

-- A subscription is reached in the lane of its type.
theorem reached_type {e : Command × Nat} (sound : s.Sound) (reached : r ∈ s.reaches)
    (install : s.closure e.1 = some (.install r.sub t o)) : r.type = t := by
  obtain ⟨f,-,-,o',install'⟩ := sound.ledger.known r reached
  have same := sound.books.sole _ _ _ _ _ _ _ install install'
  change s.closures[e.1.stamp]? = _ at install
  change s.closures[f.1.stamp]? = _ at install'
  rw [same,install'] at install
  cases install
  rfl

theorem Sound.delivered (sound : s.Sound) : s.Delivered := by
  have applied_taken : ∀ e ∈ s.applied, e ∈ s.journal.taken := by
    intro e member
    rw [sound.books.taken]
    exact List.mem_append_left _ member
  have once : ∀ c m n, (c,m) ∈ s.journal.taken → (c,n) ∈ s.journal.taken → m = n := by
    intro c m n first second
    have nodup := sound.books.taken_nodup
    rw [← sound.books.taken_commands] at nodup
    exact congrArg Prod.snd (List.inj_on_of_nodup_map nodup first second rfl)
  have visits : s.reaches.Pairwise (fun a b => ¬(a.cut = b.cut ∧ a.sub = b.sub)) := by
    refine sound.ledger.keys.imp ?_
    intro a b keys same
    exact absurd (keys.2 same.2) (same.1 ▸ Nat.lt_irrefl _)
  refine ⟨?_,once,?_,?_,visits,calls_ordered sound,fun x member => (sound.ledger.silent x member).2⟩
  · intro n total opened finished c issued before
    have gone := sound.books.journal.row.swept n total opened c issued before ?_
    · rcases gone with dropped | taken
      · change c ∈ s.journal.discarded at dropped
        rw [sound.books.kept] at dropped
        cases dropped
      · exact taken
    · intro next position last
      have resting : s.stage = .idle := by
        change n+1 = s.journal.begun.length at last
        exact (finished.resolve_left (fun before => Nat.ne_of_lt before last)).2
      have still := sound.books.resting (by rw [resting]; nofun)
      change s.journal.position = some next at position
      rw [still] at position
      cases position
  · intro n finished c t taken publish e m id o before earlier install
    have event := finished_applied sound.books finished (Nat.le_refl n) taken
    have applied := finished_applied sound.books finished earlier before
    by_cases met : s.Met n id
    · obtain ⟨r,reached,cut,key⟩ := met
      refine .inl ⟨r,reached,cut,key,?_⟩
      rw [← good_iff]
      constructor
      · intro called
        obtain ⟨-,-,-,-,-,-,r',reached',cut',key',good⟩ := owed_of sound called
        obtain rfl : r' = r := reached_once sound.ledger reached' reached (cut'.trans cut.symm) (key'.trans key.symm)
        exact good
      · intro good
        refine finished_calls sound.ledger finished reached cut (mem_handed.mpr ⟨good,cut.symm,key.symm,?_⟩)
        have home := reached_type (e := (e,m)) sound reached (key.symm ▸ install)
        rw [cut,home]
        exact mem_posts.mpr ⟨c,event,publish,rfl⟩
    · refine .inr ⟨(sound.ledger.settled n finished (e,m) applied earlier id t o install).resolve_left met,?_⟩
      intro called
      obtain ⟨-,-,-,-,-,-,r,reached,cut,key,-⟩ := owed_of sound called
      exact met ⟨r,reached,cut,key⟩
  · intro d called
    obtain ⟨c,t,applied,stamp,publish,⟨e,member,earlier,o,install⟩,r,reached,cut,sub,good⟩ := owed_of sound called
    exact ⟨c,t,applied_taken _ applied,stamp,publish,⟨e.1,e.2,o,applied_taken _ member,earlier,install⟩,
      r,reached,cut,sub,(good_iff r).mp good⟩

end Delivering

end Bus

-- However staging, disconnecting, expiring and dispatching interleave, every
-- event goes once to whom it is owed, in order, and to no one else.
theorem events_delivered (path : Machines.Reached (busSystem checked workers) s) : s.Delivered :=
  (Bus.reached_sound path).delivered

-- A first dispatch hands one event to an unpinned and a pinned subscription. Then
-- a third is disconnected while its install is staged, two events come in on two
-- lanes, and the pinned one's owner expires as the handlers begin.
def busRun : List BusAction :=
  [BusAction.number,.install (-1) 1 7 none,.number,.install 0 2 7 (some 5),.publish (-1) 7]++List.replicate 20 BusAction.dispatch++
    [BusAction.number,.install (-1) 3 7 none,.tombstone 3,.remove 3,.disconnected 3,.publish 0 7,.publish (-1) 7]++
    List.replicate 8 BusAction.dispatch++[BusAction.expire 5]++List.replicate 11 BusAction.dispatch

theorem events_delivered_twice :
    let s := (busSystem true 1).follow {journal := Bus.minted true 1} busRun
    s.stage = .idle ∧ s.calls = [⟨0,1,2⟩,⟨0,2,2⟩,⟨1,1,5⟩,⟨1,1,4⟩] ∧ s.left = [(3,2)] ∧ s.Delivered :=
  ⟨by decide,by decide,by decide,events_delivered (Machines.reached_follow (.start rfl) (by decide))⟩

end Macrame

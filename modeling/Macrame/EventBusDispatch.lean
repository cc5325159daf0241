import Macrame.EventBusApply

namespace Macrame
namespace Bus

section Handling

variable {s u : Bus}

theorem visiting_cases (visiting : s.visiting = true) :
    s.pending = [] ∧ s.gathering = false ∧ s.stage ≠ .cutting ∧ s.stage ≠ .idle := by
  unfold Bus.visiting at visiting
  unfold Bus.pending Bus.gathering
  cases stage : s.stage with
  | idle | cutting | applying =>
    rw [stage] at visiting
    cases visiting
  | checking | locking | calling | reaping => exact ⟨rfl,rfl,nofun,nofun⟩

-- The dispatch goes on in the handlers' loop: who is still ahead and who has been
-- reached stay.
theorem Still.ledger (still : Still s u) (ledger : s.Ledger) (visited : s.visiting = true) (visiting : u.visiting = true)
    (applied : u.applied = s.applied) (reaches : u.reaches = s.reaches) (gone : u.gone = s.gone) (ahead : u.ahead = s.ahead)
    (called : u.Called) (silent : ∀ x ∈ s.left, x.2 ≤ u.calls.length ∧ ∀ d ∈ u.calls.drop x.2, d.sub ≠ x.1) : u.Ledger := by
  have met : ∀ n id, u.Met n id ↔ s.Met n id := by
    intro n id
    unfold Met
    rw [reaches]
  obtain ⟨-,gathering,-,busy⟩ := visiting_cases visiting
  refine ⟨called,?_,?_,?_,?_,?_,?_,?_⟩
  · rw [reaches,applied,still.closure]
    exact ledger.known
  · rw [reaches]
    exact ledger.keys
  · rw [reaches,still.journal,gathering]
    exact fun r member => ⟨(ledger.current r member).1,nofun⟩
  · intro n finished e member earlier id t o install
    have past : s.Finished n := by
      have before := finished.resolve_right (fun last => busy last.2)
      rw [still.journal] at before
      exact .inl before
    rw [applied] at member
    rw [still.closure] at install
    rw [met,gone]
    exact ledger.settled n past e member earlier id t o install
  · rw [applied,still.closure,gone,ahead,still.cut]
    intro _ e member id t o install
    rw [met]
    exact ledger.awaited visited e member id t o install
  · rw [ahead,still.cut]
    intro id member
    rw [met]
    exact ledger.unmet id member
  · rw [still.left,still.phases]
    exact fun x member => ⟨(ledger.silent x member).1,silent x member⟩

theorem Still.moved_books (still : Still s u) (books : s.Books) (visited : s.visiting = true)
    (ended : u.visiting = true ∨ u.stage = .idle) (applied : u.applied = s.applied) : u.Books := by
  obtain ⟨rests,-,elsewhere⟩ := visiting_cases visited
  have rested : u.pending = [] ∧ u.stage ≠ .cutting := by
    rcases ended with visiting | idle
    · exact ⟨(visiting_cases visiting).1,(visiting_cases visiting).2.2.1⟩
    · refine ⟨?_,by rw [idle]; nofun⟩
      unfold Bus.pending
      rw [idle]
  refine still.books books elsewhere rested.2 ?_ ?_
  · rw [rested.1,rests,applied]
  · rw [applied]
    exact books.sorted

-- One subscription is found dead or expired and passed over, or its calls begin.
theorem reach_sound {k i : Nat} (sound : s.Sound) (visited : s.visiting = true) (ahead : s.ahead = s.beyond k i)
    (cleared : s.cleared = fun j => decide (j < k)) (calls : s.calls = s.reaches.flatMap s.handed)
    (here : s.lanes[k]? = some lane) (found : lane.subs[i]? = some sub) (stage : BusStage)
    (outcome : stage = .checking k (i+1) ∧ (marked = true ∨ s.expired sub.owner = true) ∨
      stage = .calling k i 0 ∧ marked = false ∧ s.expired sub.owner = false) :
    Sound {s.reach sub lane.type marked with stage := stage} := by
  have still : Still s {s.reach sub lane.type marked with stage := stage} := ⟨rfl,rfl,rfl,rfl,rfl,rfl,rfl,rfl⟩
  have next : Bus.ahead {s.reach sub lane.type marked with stage := stage} = s.beyond k (i+1) ∧
      Bus.visiting {s.reach sub lane.type marked with stage := stage} = true ∧
      Bus.cleared {s.reach sub lane.type marked with stage := stage} = fun j => decide (j < k) := by
    rcases outcome with ⟨rfl,-⟩ | ⟨rfl,-⟩ <;> exact ⟨rfl,rfl,rfl⟩
  obtain ⟨later,visiting,same⟩ := next
  obtain ⟨-,gathering,-,busy⟩ := visiting_cases visiting
  have first : s.ahead = sub.id :: s.beyond k (i+1) := ahead.trans (beyond_cons here found)
  have under : sub ∈ lane.subs := List.mem_of_getElem? found
  have there : lane ∈ s.lanes := List.mem_of_getElem? here
  have cut_lt : s.cut < s.journal.begun.length := by
    have begun := List.length_pos_iff.mpr (sound.books.busy (visiting_cases visited).2.2.2)
    exact Nat.sub_lt begun Nat.one_pos
  refine ⟨still.moved_books sound.books visited (.inl visiting) rfl,?_,⟨?_,?_,?_,?_,?_,?_,?_,sound.ledger.silent⟩⟩
  · refine still.shelf sound.shelf rfl rfl ?_
    intro j _
    rw [same,cleared]
  · rcases outcome with ⟨rfl,passed⟩ | ⟨rfl,alive,owned⟩
    · change s.calls = (s.reaches++[_]).flatMap s.handed
      have none : s.handed ⟨s.cut,sub.id,lane.type,marked,s.expired sub.owner⟩ = [] := by
        unfold handed
        refine if_neg ?_
        unfold Reach.good
        rcases passed with dead | expired
        · rw [dead]
          nofun
        · dsimp only
          rw [expired,Bool.not_true,Bool.and_false]
          nofun
      rw [List.flatMap_append,List.flatMap_singleton,none,List.append_nil]
      exact calls
    · refine ⟨s.reaches,lane,sub,_,here,found,rfl,rfl,rfl,rfl,?_,?_⟩
      · unfold Reach.good
        rw [alive,owned]
        rfl
      · rw [List.take_zero,List.map_nil,List.append_nil]
        exact calls
  · intro r member
    rcases List.mem_append.mp member with old | last
    · exact sound.ledger.known r old
    · rw [List.mem_singleton.mp last]
      obtain ⟨e,applied,install⟩ := sound.shelf.homes lane there sub under
      exact ⟨e,applied,Nat.le_sub_one_of_lt (sound.books.known applied).2,sub.owner,install⟩
  · refine List.pairwise_append.mpr ⟨sound.ledger.keys,List.pairwise_singleton ..,?_⟩
    intro r member r' last
    rw [List.mem_singleton.mp last]
    have earlier : r.cut ≤ s.cut := Nat.le_sub_one_of_lt (sound.ledger.current r member).1
    refine ⟨earlier,?_⟩
    intro again
    refine Nat.lt_of_le_of_ne earlier ?_
    intro now
    refine sound.ledger.unmet sub.id ?_ ⟨r,member,now,again⟩
    rw [first]
    exact List.mem_cons_self
  · rw [gathering]
    intro r member
    refine ⟨?_,nofun⟩
    rcases List.mem_append.mp member with old | last
    · exact (sound.ledger.current r old).1
    · rw [List.mem_singleton.mp last]
      exact cut_lt
  · intro n finished e member earlier id t o install
    have before : n+1 < s.journal.begun.length := finished.resolve_right (fun last => busy last.2)
    rcases sound.ledger.settled n (.inl before) e member earlier id t o install with ⟨r,member,key⟩ | gone
    · exact .inl ⟨r,List.mem_append_left _ member,key⟩
    · exact .inr gone
  · rw [later]
    intro _ e member id t o install
    rcases sound.ledger.awaited visited e member id t o install with ⟨r,member,key⟩ | gone | waiting
    · exact .inl ⟨r,List.mem_append_left _ member,key⟩
    · exact .inr (.inl gone)
    · rw [first] at waiting
      rcases List.mem_cons.mp waiting with now | ahead_later
      · exact .inl ⟨_,List.mem_append_right _ (List.mem_singleton_self _),rfl,now.symm⟩
      · exact .inr (.inr ahead_later)
  · rw [later]
    rintro id waiting ⟨r,member,cut,key⟩
    have distinct : (sub.id :: s.beyond k (i+1)).Nodup := by
      rw [← beyond_cons here found]
      exact sound.shelf.single.sublist (beyond_sublist s k i)
    rcases List.mem_append.mp member with old | last
    · refine sound.ledger.unmet id ?_ ⟨r,old,cut,key⟩
      rw [first]
      exact List.mem_cons_of_mem _ waiting
    · rw [List.mem_singleton.mp last] at key
      change sub.id = id at key
      rw [key] at distinct
      exact (List.nodup_cons.mp distinct).1 waiting

-- Only the position moves.
theorem turn_sound (sound : s.Sound) (visited : s.visiting = true) (stage : BusStage)
    (visiting : Bus.visiting {s with stage := stage} = true) (ahead : Bus.ahead {s with stage := stage} = s.ahead)
    (cleared : Bus.cleared {s with stage := stage} = s.cleared) (called : Bus.Called {s with stage := stage}) :
    Sound {s with stage := stage} := by
  have still : Still s {s with stage := stage} := ⟨rfl,rfl,rfl,rfl,rfl,rfl,rfl,rfl⟩
  refine ⟨still.moved_books sound.books visited (.inl visiting) rfl,?_,?_⟩
  · exact still.shelf sound.shelf rfl rfl (fun k _ => congrFun cleared k)
  · exact still.ledger sound.ledger visited visiting rfl rfl rfl ahead called (fun x member => (sound.ledger.silent x member).2)

theorem finish_sound {k i : Nat} (sound : s.Sound) (checking : s.stage = .checking k i) (overrun : s.lanes[k]? = none) :
    Sound {s with stage := .idle} := by
  have still : Still s {s with stage := .idle} := ⟨rfl,rfl,rfl,rfl,rfl,rfl,rfl,rfl⟩
  have visited : s.visiting = true := by
    unfold Bus.visiting
    rw [checking]
  have past := List.getElem?_eq_none_iff.mp overrun
  have none_ahead : s.ahead = [] := by
    unfold Bus.ahead
    rw [checking]
    change s.beyond k i = []
    unfold beyond
    rw [overrun,List.drop_eq_nil_of_le (Nat.le_succ_of_le past)]
    exact List.append_eq_nil_iff.mpr ⟨List.drop_nil,rfl⟩
  refine ⟨still.moved_books sound.books visited (.inr rfl) rfl,?_,⟨?_,sound.ledger.known,sound.ledger.keys,?_,?_,nofun,nofun,sound.ledger.silent⟩⟩
  · refine still.shelf sound.shelf rfl rfl ?_
    intro j below
    have cleared : s.cleared j = decide (j < k) := by
      unfold Bus.cleared
      rw [checking]
    rw [cleared]
    exact (decide_eq_true (Nat.lt_of_lt_of_le below past)).symm
  · have called := sound.ledger.called
    unfold Called at called
    rw [checking] at called
    exact called
  · exact fun r member => ⟨(sound.ledger.current r member).1,nofun⟩
  · intro n finished e member earlier id t o install
    rcases finished with before | ⟨last,-⟩
    · exact sound.ledger.settled n (.inl before) e member earlier id t o install
    · have now : n = s.cut := Nat.eq_sub_of_add_eq last
      rw [now]
      rcases sound.ledger.awaited visited e member id t o install with met | gone | waiting
      · exact .inl met
      · exact .inr gone
      · rw [none_ahead] at waiting
        cases waiting

-- The subscription that is being called, what of its share has been called, and
-- that the share is what the lane holds.
theorem calling_share {k i e : Nat} (sound : s.Sound) (calling : s.stage = .calling k i e) :
    ∃ before lane sub r, s.lanes[k]? = some lane ∧ lane.subs[i]? = some sub ∧ s.reaches = before++[r] ∧
      r.cut = s.cut ∧ r.sub = sub.id ∧ r.type = lane.type ∧ Reach.good r = true ∧
      s.calls = before.flatMap s.handed++(lane.events.take e).map (fun event => ⟨s.cut,sub.id,event⟩) ∧
      s.handed r = lane.events.map (fun event => (⟨s.cut,sub.id,event⟩ : Delivery)) := by
  have called := sound.ledger.called
  unfold Called at called
  rw [calling] at called
  obtain ⟨before,lane,sub,r,here,found,reaches,cut,id,type,good,calls⟩ := called
  refine ⟨before,lane,sub,r,here,found,reaches,cut,id,type,good,calls,?_⟩
  have events := sound.shelf.events k lane here
  have uncleared : s.cleared k = false := by
    unfold Bus.cleared
    rw [calling]
    exact decide_eq_false (Nat.lt_irrefl k)
  rw [uncleared] at events
  unfold handed
  rw [if_pos good,cut,id,type,events]
  rfl

-- The handler is called with one more event of its lane.
theorem call_sound {k i e : Nat} (sound : s.Sound) (calling : s.stage = .calling k i e) (here : s.lanes[k]? = some lane)
    (found : lane.subs[i]? = some sub) (fetched : lane.events[e]? = some event) :
    Sound {s with calls := s.calls++[⟨s.cut,sub.id,event⟩],stage := .calling k i (e+1)} := by
  have still : Still s {s with calls := s.calls++[⟨s.cut,sub.id,event⟩],stage := .calling k i (e+1)} :=
    ⟨rfl,rfl,rfl,rfl,rfl,rfl,rfl,rfl⟩
  have visited : s.visiting = true := by
    unfold Bus.visiting
    rw [calling]
  have ahead : Bus.ahead {s with calls := s.calls++[⟨s.cut,sub.id,event⟩],stage := .calling k i (e+1)} = s.ahead := by
    unfold Bus.ahead
    rw [calling]
    rfl
  refine ⟨still.moved_books sound.books visited (.inl rfl) rfl,?_,still.ledger sound.ledger visited rfl rfl rfl rfl ahead ?_ ?_⟩
  · refine still.shelf sound.shelf rfl rfl ?_
    intro j _
    unfold Bus.cleared
    rw [calling]
  · obtain ⟨before,lane',sub',r,here',found',reaches,cut,id,type,good,calls,-⟩ := calling_share sound calling
    obtain rfl : lane = lane' := Option.some.inj (here.symm.trans here')
    obtain rfl : sub = sub' := Option.some.inj (found.symm.trans found')
    refine ⟨before,lane,sub,r,here,found,reaches,cut,id,type,good,?_⟩
    change s.calls++[_] = before.flatMap s.handed++(lane.events.take (e+1)).map (fun event => ⟨s.cut,sub.id,event⟩)
    rw [calls,List.append_assoc,List.take_add_one,fetched,List.map_append]
    rfl
  · intro x member
    obtain ⟨phase,prior,silent⟩ := sound.ledger.silent x member
    have longer : s.calls.length ≤ (s.calls++[(⟨s.cut,sub.id,event⟩ : Delivery)]).length := by
      rw [List.length_append]
      exact Nat.le_add_right ..
    refine ⟨Nat.le_trans prior longer,?_⟩
    change ∀ d ∈ (s.calls++[(⟨s.cut,sub.id,event⟩ : Delivery)]).drop x.2,d.sub ≠ x.1
    rw [List.drop_append_of_le_length prior]
    intro d inside
    rcases List.mem_append.mp inside with old | last
    · exact silent d old
    · -- what has been removed is in no lane
      rw [List.mem_singleton.mp last]
      intro same
      refine sound.shelf.removed x.1 (.inr phase) lane (List.mem_of_getElem? here) ?_
      rw [← same]
      exact List.mem_map_of_mem (List.mem_of_getElem? found)

theorem called_sound {k i e : Nat} (sound : s.Sound) (calling : s.stage = .calling k i e) (here : s.lanes[k]? = some lane)
    (found : lane.subs[i]? = some sub) (overrun : lane.events[e]? = none) : Sound {s with stage := .checking k (i+1)} := by
  have visited : s.visiting = true := by
    unfold Bus.visiting
    rw [calling]
  refine turn_sound sound visited _ rfl ?_ ?_ ?_
  · unfold Bus.ahead
    rw [calling]
    rfl
  · funext j
    unfold Bus.cleared
    rw [calling]
  · obtain ⟨before,lane',sub',r,here',found',reaches,-,-,-,-,calls,share⟩ := calling_share sound calling
    obtain rfl : lane = lane' := Option.some.inj (here.symm.trans here')
    obtain rfl : sub = sub' := Option.some.inj (found.symm.trans found')
    change s.calls = s.reaches.flatMap s.handed
    rw [calls,reaches,List.flatMap_append,List.flatMap_singleton,share,List.take_of_length_le (List.getElem?_eq_none_iff.mp overrun)]

-- The lane under way loses subscriptions or its events.
theorem set_shelf {k : Nat} {kept : EventLane} (still : Still s u) (shelf : s.Shelf) (here : s.lanes[k]? = some lane) (lanes : u.lanes = s.lanes.set k kept)
    (applied : u.applied = s.applied) (type : kept.type = lane.type) (fewer : kept.subs.Sublist lane.subs)
    (lost : ∀ sub ∈ lane.subs, sub ∈ kept.subs ∨ s.dead sub.id = true ∨ s.expired sub.owner = true)
    (events : kept.events = if u.cleared k then [] else s.posts s.cut lane.type)
    (cleared : ∀ j, j ≠ k → u.cleared j = s.cleared j) : u.Shelf := by
  obtain ⟨below,same⟩ := List.getElem?_eq_some_iff.mp here
  have member : ∀ x ∈ s.lanes.set k kept, x ∈ s.lanes ∨ x = kept := fun x inside => List.mem_or_eq_of_mem_set inside
  have there := List.mem_of_getElem? here
  have types : (s.lanes.set k kept).map EventLane.type = s.lanes.map EventLane.type := by
    rw [List.map_set,type,← same]
    refine List.ext_getElem? ?_
    intro j
    rw [List.getElem?_set]
    split
    · rename_i at_
      subst at_
      rw [List.length_map,if_pos below,List.getElem?_map,List.getElem?_eq_getElem below]
      rfl
    · rfl
  have remains : ∀ x ∈ s.lanes, ∃ y ∈ s.lanes.set k kept, y.type = x.type ∧
      ∀ sub ∈ x.subs, sub ∈ y.subs ∨ s.dead sub.id = true ∨ s.expired sub.owner = true := by
    intro x inside
    obtain ⟨j,place⟩ := List.mem_iff_getElem?.mp inside
    by_cases at_ : k = j
    · subst at_
      obtain rfl : lane = x := Option.some.inj (here.symm.trans place)
      exact ⟨kept,List.mem_iff_getElem?.mpr ⟨k,List.getElem?_set_self below⟩,type,lost⟩
    · refine ⟨x,List.mem_of_getElem? ((List.getElem?_set_ne at_).trans place),rfl,fun sub under => .inl under⟩
  refine ⟨?_,?_,?_,?_,?_,?_,?_⟩
  · rw [lanes,types]
    exact shelf.types
  · rw [lanes,applied,still.closure]
    intro x inside sub under
    rcases member x inside with old | rfl
    · exact shelf.homes x old sub under
    · rw [type]
      exact shelf.homes lane there sub (fewer.subset under)
  · rw [lanes]
    refine shelf.single.sublist ?_
    have split_ : s.lanes = s.lanes.take k++lane :: s.lanes.drop (k+1) := by
      rw [← same,List.getElem_cons_drop,List.take_append_drop]
    have changed : s.lanes.set k kept = s.lanes.take k++kept :: s.lanes.drop (k+1) := List.set_eq_take_append_cons_drop.trans (if_pos below)
    rw [changed]
    conv => rhs; rw [split_]
    rw [List.flatMap_append,List.flatMap_append,List.flatMap_cons,List.flatMap_cons]
    exact (List.Sublist.refl _).append ((fewer.map _).append (List.Sublist.refl _))
  · rw [lanes,applied,still.closure]
    intro e applied t publish
    obtain ⟨x,inside,typed⟩ := shelf.housed e applied t publish
    obtain ⟨y,now,same,-⟩ := remains x inside
    exact ⟨y,now,same.trans typed⟩
  · rw [lanes,applied,still.closure,still.dead,still.expired]
    intro e applied id t o install
    rcases shelf.complete e applied id t o install with ⟨x,inside,typed,under⟩ | gone
    · obtain ⟨y,now,same,subs⟩ := remains x inside
      rcases subs _ under with stays | gone
      · exact .inl ⟨y,now,same.trans typed,stays⟩
      · exact .inr gone
    · exact .inr gone
  · rw [lanes,still.phases]
    intro id phase x inside under
    rcases member x inside with old | rfl
    · exact shelf.removed id phase x old under
    · exact shelf.removed id phase lane there ((fewer.map _).subset under)
  · intro j x place
    rw [lanes] at place
    rw [still.cut,posts_congr applied (fun _ _ => by rw [still.closure])]
    by_cases at_ : k = j
    · subst at_
      rw [List.getElem?_set_self below] at place
      obtain rfl := Option.some.inj place
      rw [type]
      exact events
    · rw [List.getElem?_set_ne at_] at place
      rw [cleared j (Ne.symm at_)]
      exact shelf.events j x place

theorem reap_sound {k i : Nat} (sound : s.Sound) (reaping : s.stage = .reaping k i) (here : s.lanes[k]? = some lane)
    (found : lane.subs[i]? = some sub) (gone : s.dead sub.id = true ∨ s.expired sub.owner = true) :
    (s.setLane k {lane with subs := lane.subs.eraseIdx i}).Sound := by
  have still : Still s (s.setLane k {lane with subs := lane.subs.eraseIdx i}) := ⟨rfl,rfl,rfl,rfl,rfl,rfl,rfl,rfl⟩
  have visited : s.visiting = true := by
    unfold Bus.visiting
    rw [reaping]
  have visiting : (s.setLane k {lane with subs := lane.subs.eraseIdx i}).visiting = true := visited
  have events := sound.shelf.events k lane here
  refine ⟨still.moved_books sound.books visited (.inl visiting) rfl,?_,?_⟩
  · refine set_shelf still sound.shelf here rfl rfl rfl (List.eraseIdx_sublist ..) ?_ events (fun _ _ => rfl)
    intro other member
    by_cases inside : other ∈ lane.subs.eraseIdx i
    · exact .inl inside
    · obtain ⟨j,place⟩ := List.mem_iff_getElem?.mp member
      have at_ : j = i := by
        by_contra elsewhere
        exact inside (List.mem_eraseIdx_iff_getElem?.mpr ⟨j,elsewhere,place⟩)
      rw [at_] at place
      obtain rfl : sub = other := Option.some.inj (found.symm.trans place)
      exact .inr gone
  · have ahead : (s.setLane k {lane with subs := lane.subs.eraseIdx i}).ahead = s.ahead := by
      unfold Bus.ahead setLane
      dsimp only
      rw [reaping]
      dsimp only
      rw [List.drop_set_of_lt (Nat.lt_succ_self k)]
    refine still.ledger sound.ledger visited visiting rfl rfl rfl ahead ?_ (fun x member => (sound.ledger.silent x member).2)
    have called := sound.ledger.called
    unfold Called at called ⊢
    unfold setLane
    dsimp only
    rw [reaping] at called ⊢
    exact called

theorem clear_sound {k i : Nat} (sound : s.Sound) (reaping : s.stage = .reaping k i) (here : s.lanes[k]? = some lane) :
    Sound {s.setLane k {lane with events := []} with stage := .checking (k+1) 0} := by
  have still : Still s {s.setLane k {lane with events := []} with stage := .checking (k+1) 0} := ⟨rfl,rfl,rfl,rfl,rfl,rfl,rfl,rfl⟩
  have visited : s.visiting = true := by
    unfold Bus.visiting
    rw [reaping]
  refine ⟨still.moved_books sound.books visited (.inl rfl) rfl,?_,?_⟩
  · refine set_shelf still sound.shelf here rfl rfl rfl (List.Sublist.refl _) (fun _ member => .inl member) ?_ ?_
    · exact (if_pos (decide_eq_true (Nat.lt_succ_self k))).symm
    · intro j other
      unfold Bus.cleared
      rw [reaping]
      exact decide_eq_decide.mpr ⟨fun below => Nat.lt_of_le_of_ne (Nat.le_of_lt_succ below) other,Nat.lt_succ_of_lt⟩
  · have ahead : Bus.ahead {s.setLane k {lane with events := []} with stage := .checking (k+1) 0} = s.ahead := by
      unfold Bus.ahead
      rw [reaping]
      refine (beyond_start _ (k+1)).trans ?_
      change ((s.lanes.set k _).drop (k+1)).flatMap ids = _
      rw [List.drop_set_of_lt (Nat.lt_succ_self k)]
    refine still.ledger sound.ledger visited rfl rfl rfl rfl ahead ?_ (fun x member => (sound.ledger.silent x member).2)
    have called := sound.ledger.called
    unfold Called at called
    rw [reaping] at called
    exact called

-- Where the loop is before a subscription's calls.
theorem looping {k i : Nat} (ledger : s.Ledger) (stage : s.stage = .checking k i ∨ s.stage = .locking k i) :
    s.visiting = true ∧ s.ahead = s.beyond k i ∧ (s.cleared = fun j => decide (j < k)) ∧ s.calls = s.reaches.flatMap s.handed := by
  have called := ledger.called
  have cleared : ∀ j, s.cleared j = decide (j < k) := by
    intro j
    unfold Bus.cleared
    rcases stage with checking | locking
    · rw [checking]
    · rw [locking]
  unfold Called at called
  unfold Bus.visiting Bus.ahead
  rcases stage with checking | locking
  · rw [checking] at called ⊢
    exact ⟨rfl,rfl,funext cleared,called⟩
  · rw [locking] at called ⊢
    exact ⟨rfl,rfl,funext cleared,called⟩

theorem dispatch_sound (sound : s.Sound) : (s.apply .dispatch).Sound := by
  change s.dispatch.Sound
  cases stage : s.stage with
  | idle => exact begin_sound sound stage
  | cutting => exact cut_sound sound stage
  | applying next =>
    unfold dispatch
    rw [stage]
    dsimp only
    split
    · rename_i c fetched
      exact ⟨applyNext_books sound.books stage fetched,applyNext_shelf sound stage fetched,applyNext_ledger sound stage⟩
    · rename_i overrun
      exact arrive_sound sound stage overrun
  | checking k i =>
    obtain ⟨visited,ahead,cleared,calls⟩ := looping sound.ledger (.inl stage)
    unfold dispatch
    rw [stage]
    dsimp only
    split
    · rename_i overrun
      exact finish_sound sound stage overrun
    · rename_i lane here
      split
      · rename_i overrun
        exact turn_sound sound visited _ rfl ((beyond_end here overrun).symm.trans ahead.symm) cleared.symm calls
      · rename_i sub found
        split
        · rename_i dead
          exact reach_sound sound visited ahead cleared calls here found _ (.inl ⟨rfl,.inl rfl⟩)
        · split
          · rename_i unpinned
            refine reach_sound sound visited ahead cleared calls here found _ (.inr ⟨rfl,rfl,?_⟩)
            rw [unpinned]
            rfl
          · exact turn_sound sound visited _ rfl ahead.symm cleared.symm calls
  | locking k i =>
    obtain ⟨visited,ahead,cleared,calls⟩ := looping sound.ledger (.inr stage)
    unfold dispatch
    rw [stage]
    dsimp only
    split
    · exact sound
    · rename_i lane here
      split
      · exact sound
      · rename_i sub found
        split
        · rename_i expired
          exact reach_sound sound visited ahead cleared calls here found _ (.inl ⟨rfl,.inr expired⟩)
        · rename_i alive
          exact reach_sound sound visited ahead cleared calls here found _ (.inr ⟨rfl,rfl,by simpa using alive⟩)
  | calling k i e =>
    unfold dispatch
    rw [stage]
    dsimp only
    split
    · exact sound
    · rename_i lane here
      split
      · exact sound
      · rename_i sub found
        split
        · rename_i event fetched
          exact call_sound sound stage here found fetched
        · rename_i overrun
          exact called_sound sound stage here found overrun
  | reaping k i =>
    have visited : s.visiting = true := by unfold Bus.visiting; rw [stage]
    unfold dispatch
    rw [stage]
    dsimp only
    split
    · exact sound
    · rename_i lane here
      split
      · rename_i sub found
        split
        · rename_i gone
          exact reap_sound sound stage here found (by simpa using gone)
        · refine turn_sound sound visited _ rfl ?_ ?_ ?_
          · unfold Bus.ahead; rw [stage]
          · funext j
            unfold Bus.cleared; rw [stage]
          · have called := sound.ledger.called
            unfold Called at called
            rw [stage] at called
            exact called
      · exact clear_sound sound stage here

end Handling

end Bus
end Macrame

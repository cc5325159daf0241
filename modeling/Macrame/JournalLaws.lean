import Macrame.Journal

namespace Macrame
namespace Journal

def position (j : Journal) : Option SlotId :=
  match j.register with
  | .cutting _ next => some next
  | _ => none

-- The slots as a row of bins that cuts sweep and clears throw away.
def row (j : Journal) : Bins.Row Command :=
  ⟨j.slots,j.issued,j.taken,j.discarded,j.begun,j.cuts,j.position⟩

-- A recorder keeps its slots from its mint on, so that its commands of one lane
-- are all staged into one slot.
structure Homes (j : Journal) : Prop where
  minted : ∀ h m ss, (j.handles h).bound = some (m,ss) → m < j.mints
  apart : ∀ g h m ss ts, (j.handles g).bound = some (m,ss) → (j.handles h).bound = some (m,ts) → g = h
  staged : ∀ c ∈ j.issued, c.recorder < j.mints
  home : ∀ h m ss, (j.handles h).bound = some (m,ss) → ∀ c ∈ j.issued, c.recorder = m → ss[c.lane]? = some c.slot
  lanes : ∀ c ∈ j.issued, ∀ d ∈ j.issued, c.recorder = d.recorder → c.lane = d.lane → c.slot = d.slot
  held : ∀ h, ∀ slot ∈ (j.handles h).slots, slot < j.slots.length
  freed : ∀ slot ∈ j.free, slot < j.slots.length

structure Sound (j : Journal) : Prop where
  row : Bins.Sound Command.stamp Command.slot j.row
  homes : Homes j

theorem sound_empty : Sound {} := by
  refine ⟨Bins.sound_empty,?_⟩
  constructor <;> simp [Handle.bound,Handle.slots]

section Handles

variable {j : Journal}

-- What one handle becomes: nothing that stages, or what it or another handle
-- was, or a recorder minted now.
theorem Homes.rebound (homes : Homes j) (h : HandleId) (handle : Handle)
    (minted : ∀ m ss, handle.bound = some (m,ss) → m < j.mints)
    (alone : ∀ m ss, handle.bound = some (m,ss) → ∀ g ts, g ≠ h → (j.handles g).bound ≠ some (m,ts))
    (home : ∀ m ss, handle.bound = some (m,ss) → ∀ c ∈ j.issued, c.recorder = m → ss[c.lane]? = some c.slot)
    (held : ∀ slot ∈ handle.slots, slot < j.slots.length) : Homes (j.setHandle h handle) := by
  have either : ∀ (P : HandleId → Handle → Prop), P h handle → (∀ g, g ≠ h → P g (j.handles g)) →
      ∀ g, P g ((j.setHandle h handle).handles g) := by
    intro P here others g
    by_cases same : g = h
    · rw [same,setHandle_handles,Function.update_self]
      exact here
    · rw [setHandle_handles,Function.update_of_ne same]
      exact others g same
  refine ⟨?_,?_,homes.staged,?_,homes.lanes,?_,homes.freed⟩
  · exact either (fun _ x => ∀ m ss, x.bound = some (m,ss) → m < j.mints) minted (fun g _ => homes.minted g)
  · intro f g m ss ts one two
    by_cases first : f = h
    · by_cases second : g = h
      · rw [first,second]
      · rw [first,setHandle_handles,Function.update_self] at one
        rw [setHandle_handles,Function.update_of_ne second] at two
        exact absurd two (alone m ss one g ts second)
    · rw [setHandle_handles,Function.update_of_ne first] at one
      by_cases second : g = h
      · rw [second,setHandle_handles,Function.update_self] at two
        exact absurd one (alone m ts two f ss first)
      · rw [setHandle_handles,Function.update_of_ne second] at two
        exact homes.apart f g m ss ts one two
  · exact either
      (fun _ x => ∀ m ss, x.bound = some (m,ss) → ∀ c ∈ j.issued, c.recorder = m → ss[c.lane]? = some c.slot)
      home (fun g _ => homes.home g)
  · exact either (fun _ x => ∀ slot ∈ x.slots, slot < j.slots.length) held (fun g _ => homes.held g)

theorem Homes.unbound (homes : Homes j) (h : HandleId) (loose : handle.bound = none)
    (held : ∀ slot ∈ handle.slots, slot < j.slots.length) : Homes (j.setHandle h handle) := by
  refine homes.rebound h handle ?_ ?_ ?_ held
  all_goals
    intro m ss bound
    rw [loose] at bound
    cases bound

-- A mint takes a slot that is there, or the new last one.
theorem addSlot_cases (added : j.addSlot checked = some (k,slot)) :
    (slot ∈ j.free ∧ k = {j with free := j.free.dropLast}) ∨
      (slot = j.slots.length ∧ k = {j with slots := j.slots++[[]]}) := by
  unfold addSlot at added
  cases last : j.free.getLast? with
  | some top =>
    rw [last] at added
    cases added
    exact .inl ⟨List.mem_of_getLast? last,rfl⟩
  | none =>
    rw [last] at added
    by_cases full : checked = true ∧ maxSlots ≤ j.slots.length
    · simp [full] at added
    · simp only [if_neg full,Option.some.injEq,Prod.mk.injEq] at added
      exact .inr ⟨added.2.symm,added.1.symm⟩

theorem addSlot_sound (sound : Sound j) (added : j.addSlot checked = some (k,slot)) :
    Sound k ∧ slot < k.slots.length ∧ k.handles = j.handles ∧ k.mints = j.mints ∧ k.issued = j.issued := by
  obtain ⟨row,homes⟩ := sound
  rcases addSlot_cases added with ⟨free,rfl⟩ | ⟨rfl,rfl⟩
  · exact ⟨⟨row,{homes with freed := fun slot member => homes.freed slot (List.dropLast_subset _ member)}⟩,
      homes.freed slot free,rfl,rfl,rfl⟩
  · refine ⟨⟨row.grow,{homes with held := ?_,freed := ?_}⟩,by simp,rfl,rfl,rfl⟩
    · intro h slot member
      exact Nat.lt_of_lt_of_le (homes.held h slot member) (by simp)
    · intro slot member
      exact Nat.lt_of_lt_of_le (homes.freed slot member) (by simp)

theorem Sound.another (sound : Sound j) : Sound {j with mints := j.mints+1} :=
  ⟨sound.row,{sound.homes with
    minted := fun h m ss bound => Nat.lt_succ_of_lt (sound.homes.minted h m ss bound)
    staged := fun c member => Nat.lt_succ_of_lt (sound.homes.staged c member)}⟩

-- Nothing has been staged by a recorder that is minted now, and no handle is it.
theorem Sound.newborn (sound : Sound j) (h : HandleId) (bound : handle.bound = some (j.mints,ss))
    (held : ∀ slot ∈ handle.slots, slot < j.slots.length) : Sound ({j with mints := j.mints+1}.setHandle h handle) := by
  refine ⟨sound.row,sound.another.homes.rebound h handle ?_ ?_ ?_ held⟩
  · intro m ts now
    rw [bound] at now
    cases now
    exact Nat.lt_succ_self _
  · intro m ts now g us _ other
    rw [bound] at now
    cases now
    exact Nat.lt_irrefl _ (sound.homes.minted g _ us other)
  · intro m ts now c member same
    rw [bound] at now
    cases now
    exact absurd (sound.homes.staged c member) (by rw [same]; exact Nat.lt_irrefl _)

theorem recorder_sound (sound : Sound j) (h : HandleId) : Sound (j.recorder checked h) := by
  unfold recorder
  cases added : j.addSlot checked with
  | none => exact sound
  | some minted =>
    obtain ⟨k,slot⟩ := minted
    obtain ⟨grown,below,_,same,_⟩ := addSlot_sound sound added
    have bound : (Handle.recorder j.mints slot).bound = some (k.mints,[slot]) := by rw [same]; rfl
    have born := grown.newborn h bound (by simpa [Handle.slots] using below)
    rw [same] at born
    exact born

theorem parallelRecorder_sound (sound : Sound j) (h : HandleId) : Sound (j.parallelRecorder h) :=
  sound.newborn h rfl (by simp [Handle.slots])

theorem mintLane_sound (sound : Sound j) (h : HandleId) : Sound (j.mintLane checked workers h) := by
  unfold mintLane
  split
  · rename_i m ss k slot here added
    obtain ⟨grown,below,handles,same,issued⟩ := addSlot_sound sound added
    have bound : (k.handles h).bound = some (m,ss) := by rw [handles,here]; rfl
    generalize filled : (if ss.length = workers then Handle.parallel m (ss++[slot]) else .minting m (ss++[slot])) = next
    have next_bound : next.bound = some (m,ss++[slot]) := by subst filled; split <;> rfl
    have next_slots : next.slots = ss++[slot] := by subst filled; split <;> rfl
    refine ⟨grown.row,grown.homes.rebound h next ?_ ?_ ?_ ?_⟩
    · intro m' ts now
      rw [next_bound] at now
      cases now
      exact grown.homes.minted h m ss bound
    · intro m' ts now g us other there
      rw [next_bound] at now
      cases now
      exact other (grown.homes.apart g h m us ss there bound)
    · intro m' ts now c member same
      rw [next_bound] at now
      cases now
      have home := grown.homes.home h m ss bound c member same
      rw [List.getElem?_append_left (List.getElem?_eq_some_iff.mp home).1]
      exact home
    · intro other member
      rw [next_slots] at member
      rcases List.mem_append.mp member with old | new
      · refine grown.homes.held h other ?_
        rw [handles,here]
        exact old
      · rw [List.mem_singleton.mp new]
        exact below
  · exact sound

theorem release_sound (sound : Sound j) (h : HandleId) : Sound (j.release h) := by
  unfold release
  split
  · exact ⟨sound.row,sound.homes.unbound h rfl (by simp [Handle.slots])⟩
  · exact ⟨sound.row,sound.homes.unbound h rfl (sound.homes.held h)⟩

theorem releaseNext_sound (sound : Sound j) (h : HandleId) : Sound (j.releaseNext h) := by
  unfold releaseNext
  split
  · rename_i slot rest here
    have held : ∀ other ∈ slot :: rest, other < j.slots.length := by
      have all := sound.homes.held h
      rw [here] at all
      exact all
    have released : Homes (j.releaseSlot slot) := by
      refine {sound.homes with freed := ?_}
      intro other member
      rcases List.mem_append.mp member with old | new
      · exact sound.homes.freed other old
      · rw [List.mem_singleton.mp new]
        exact held slot List.mem_cons_self
    refine ⟨sound.row,?_⟩
    split
    · exact released.unbound h rfl (by simp [Handle.slots])
    · exact released.unbound h rfl (fun other member => held other (List.mem_cons_of_mem _ member))
  · exact sound

theorem move_sound (sound : Sound j) (other : source ≠ target) : Sound (j.move source target) := by
  have swapped : j.move source target = (j.setHandle source .empty).setHandle target (j.handles source) := by
    simp only [move,setHandle]
    rw [Function.update_comm other]
  have emptied : Homes (j.setHandle source .empty) := sound.homes.unbound source rfl (by simp [Handle.slots])
  rw [swapped]
  refine ⟨sound.row,emptied.rebound target _ (sound.homes.minted source) ?_ (sound.homes.home source) (sound.homes.held source)⟩
  intro m ss bound g ts _ there
  by_cases same : g = source
  · rw [same,setHandle_handles,Function.update_self] at there
    cases there
  · rw [setHandle_handles,Function.update_of_ne same] at there
    exact same (sound.homes.apart g source m ts ss there bound)

end Handles

section Contents

variable {j : Journal}

theorem target_bound {handle : Handle} (found : handle.target worker = some (m,lane,slot)) :
    ∃ ss, handle.bound = some (m,ss) ∧ handle.slots = ss ∧ ss[lane]? = some slot := by
  cases handle with
  | recorder mint only =>
    cases found
    exact ⟨[slot],rfl,rfl,rfl⟩
  | parallel mint slots =>
    obtain ⟨there,place,same⟩ := Option.map_eq_some_iff.mp found
    cases same
    exact ⟨slots,rfl,rfl,place⟩
  | _ => cases found

theorem stage_sound (sound : Sound j) (h : HandleId) (worker : Int) : Sound (j.stage h worker) := by
  unfold stage
  split
  · rename_i m lane slot found
    obtain ⟨ss,bound,same,place⟩ := target_bound found
    have below : slot < j.slots.length := sound.homes.held h slot (by rw [same]; exact List.mem_of_getElem? place)
    have minted := sound.homes.minted h m ss bound
    have members : ∀ c ∈ j.issued++[⟨j.issued.length,m,lane,slot⟩],
        c ∈ j.issued ∨ c = ⟨j.issued.length,m,lane,slot⟩ := by
      intro c member
      simpa using member
    refine ⟨sound.row.put below rfl rfl,sound.homes.minted,sound.homes.apart,?_,?_,?_,?_,?_⟩
    · intro c member
      rcases members c member with old | rfl
      · exact sound.homes.staged c old
      · exact minted
    · intro g m' ts now c member mine
      rcases members c member with old | rfl
      · exact sound.homes.home g m' ts now c old mine
      · subst mine
        have one : g = h := sound.homes.apart g h m ts ss now bound
        rw [one,bound] at now
        cases now
        exact place
    · -- what the recorder staged before went to the same slot
      have alike : ∀ d ∈ j.issued, d.recorder = m → d.lane = lane → d.slot = slot := by
        intro d old mine lane_same
        have home := sound.homes.home h m ss bound d old mine
        rw [lane_same,place] at home
        exact (Option.some.inj home).symm
      intro c one d two mine lane_same
      rcases members c one with old | rfl
      · rcases members d two with prior | rfl
        · exact sound.homes.lanes c old d prior mine lane_same
        · exact alike c old mine lane_same
      · rcases members d two with prior | rfl
        · exact (alike d prior mine.symm lane_same.symm).symm
        · rfl
    · intro g other member
      simp only [List.length_modify]
      exact sound.homes.held g other member
    · intro other member
      simp only [List.length_modify]
      exact sound.homes.freed other member
  · exact sound

theorem Homes.kept (homes : Homes j) (handles : k.handles = j.handles) (mints : k.mints = j.mints)
    (issued : k.issued = j.issued) (free : k.free = j.free) (slots : k.slots.length = j.slots.length) : Homes k := by
  refine ⟨?_,?_,?_,?_,?_,?_,?_⟩
  · rw [handles,mints]; exact homes.minted
  · rw [handles]; exact homes.apart
  · rw [issued,mints]; exact homes.staged
  · rw [handles,issued]; exact homes.home
  · rw [issued]; exact homes.lanes
  · rw [handles,slots]; exact homes.held
  · rw [free,slots]; exact homes.freed

theorem clearSlot_sound (sound : Sound j) (idle : j.position = none) (slot : SlotId) : Sound (j.clearSlot slot) := by
  have same : (j.clearSlot slot).row = j.row.drop slot := by
    simp only [row,Bins.Row.drop,idle]
    rfl
  refine ⟨?_,sound.homes.kept rfl rfl rfl rfl List.length_set⟩
  rw [same]
  exact sound.row.drop idle slot

theorem cutSlot_sound (sound : Sound j) (here : j.position = some slot) (holder : Nat) :
    Sound (j.cutSlot holder slot) :=
  ⟨sound.row.take here,sound.homes.kept rfl rfl rfl rfl List.length_set⟩

theorem cutBegin_sound (sound : Sound j) (idle : j.position = none) (holder : Nat) : Sound (j.cutBegin holder) :=
  ⟨sound.row.sweep idle,sound.homes.kept rfl rfl rfl rfl rfl⟩

theorem cutEnd_sound (sound : Sound j) (done : j.position = some j.slots.length) : Sound j.unlock :=
  ⟨sound.row.close done,sound.homes.kept rfl rfl rfl rfl rfl⟩

-- Whoever is not cutting comes and goes without a trace.
theorem Sound.relocked (sound : Sound j) (idle : j.position = none) (register : Register)
    (still : ({j with register := register} : Journal).position = none) : Sound {j with register := register} := by
  have same : ({j with register := register} : Journal).row = j.row := by
    simp only [Journal.row,idle,still]
  refine ⟨?_,sound.homes.kept rfl rfl rfl rfl rfl⟩
  rw [same]
  exact sound.row

end Contents

section Steps

variable {j : Journal}

theorem nextCut_position (cut : j.nextCut holder = some next) : j.position = some next ∧ j.register = .cutting holder next := by
  unfold nextCut at cut
  cases register : j.register with
  | cutting owner at_ =>
    rw [register] at cut
    dsimp only at cut
    split at cut
    · rename_i mine
      cases cut
      rw [mine]
      exact ⟨by simp [position,register],rfl⟩
    · cases cut
  | _ => simp [register] at cut

theorem nextClear_position (clear : j.nextClear = some next) : j.position = none := by
  unfold nextClear at clear
  cases register : j.register <;> simp_all [position]

theorem free_position (free : j.register = .free) : j.position = none := by simp [position,free]

theorem apply_sound (sound : Sound j) (allowed : j.Allowed checked a) : Sound (j.apply checked workers a) := by
  cases a with
  | recorder h => exact recorder_sound sound h
  | parallelRecorder h => exact parallelRecorder_sound sound h
  | mintLane h => exact mintLane_sound sound h
  | move source target => exact move_sound sound allowed.1
  | release h => exact release_sound sound h
  | releaseNext h => exact releaseNext_sound sound h
  | stage h worker => exact stage_sound sound h worker
  | clearBegin => exact sound.relocked (free_position allowed) _ rfl
  | clearNext =>
    simp only [apply]
    split
    · rename_i next clear
      exact clearSlot_sound sound (nextClear_position clear) next
    · exact sound
  | clearEnd => exact sound.relocked (nextClear_position allowed) _ rfl
  | cutBegin holder => exact cutBegin_sound sound (free_position allowed) holder
  | cutNext holder =>
    simp only [apply]
    split
    · rename_i next cut
      exact cutSlot_sound sound (nextCut_position cut).1 holder
    · exact sound
  | cutEnd holder => exact cutEnd_sound sound (nextCut_position allowed).1

end Steps

section Outer

theorem addSlot_kept {j : Journal} (added : j.addSlot checked = some (k,slot)) :
    k.taken = j.taken ∧ k.begun = j.begun ∧ k.register = j.register := by
  rcases addSlot_cases added with ⟨_,rfl⟩ | ⟨_,rfl⟩ <;> exact ⟨rfl,rfl,rfl⟩

-- What the recorders and `discard` leave alone.
theorem outer_kept {j : Journal} (workers : Nat) (allowed : j.Allowed checked a) (outer : a.outer = true) :
    (j.apply checked workers a).taken = j.taken ∧ (j.apply checked workers a).begun = j.begun ∧
      ((j.apply checked workers a).register = j.register ∨
        j.position = none ∧ (j.apply checked workers a).position = none) := by
  cases a with
  | recorder h =>
    simp only [apply,recorder]
    split
    · rename_i added
      obtain ⟨taken,begun,register⟩ := addSlot_kept added
      exact ⟨taken,begun,.inl register⟩
    · exact ⟨rfl,rfl,.inl rfl⟩
  | mintLane h =>
    simp only [apply,mintLane]
    split
    · rename_i added
      obtain ⟨taken,begun,register⟩ := addSlot_kept added
      exact ⟨taken,begun,.inl register⟩
    · exact ⟨rfl,rfl,.inl rfl⟩
  | parallelRecorder h => exact ⟨rfl,rfl,.inl rfl⟩
  | move source target => exact ⟨rfl,rfl,.inl rfl⟩
  | release h =>
    simp only [apply,release]
    split <;> exact ⟨rfl,rfl,.inl rfl⟩
  | releaseNext h =>
    simp only [apply,releaseNext]
    split <;> exact ⟨rfl,rfl,.inl rfl⟩
  | stage h worker =>
    simp only [apply,stage]
    split <;> exact ⟨rfl,rfl,.inl rfl⟩
  | clearBegin => exact ⟨rfl,rfl,.inr ⟨free_position allowed,rfl⟩⟩
  | clearNext =>
    simp only [apply]
    split
    · rename_i clear
      exact ⟨rfl,rfl,.inr ⟨nextClear_position clear,rfl⟩⟩
    · exact ⟨rfl,rfl,.inl rfl⟩
  | clearEnd => exact ⟨rfl,rfl,.inr ⟨nextClear_position allowed,rfl⟩⟩
  | cutBegin holder => cases outer
  | cutNext holder => cases outer
  | cutEnd holder => cases outer

theorem records_outer {a : JournalAction} (records : a.records = true) : a.outer = true := by
  cases a <;> first | rfl | cases records

theorem records_kept {j : Journal} (records : a.records = true) :
    (j.apply checked workers a).discarded = j.discarded := by
  have added : ∀ k slot, j.addSlot checked = some (k,slot) → k.discarded = j.discarded := by
    intro k slot minted
    rcases addSlot_cases minted with ⟨_,rfl⟩ | ⟨_,rfl⟩ <;> rfl
  cases a with
  | recorder h =>
    simp only [apply,recorder]
    split
    · rename_i minted
      have same := added _ _ minted
      exact same
    · rfl
  | mintLane h =>
    simp only [apply,mintLane]
    split
    · rename_i minted
      have same := added _ _ minted
      exact same
    · rfl
  | parallelRecorder h => rfl
  | move source target => rfl
  | release h =>
    simp only [apply,release]
    split <;> rfl
  | releaseNext h =>
    simp only [apply,releaseNext]
    split <;> rfl
  | stage h worker =>
    simp only [apply,stage]
    split <;> rfl
  | _ => cases records

end Outer

end Journal
end Macrame

import Mathlib.Data.Set.Card
import Mathlib.Order.Bounds.Basic
import Macrame.JournalCalls

namespace Macrame
namespace Journal

-- A journal between two calls.
structure Rests (j : Journal) : Prop where
  sound : Sound j
  apart : Apart j
  settled : ∀ h, (j.handles h).settled = true
  idle : j.register = .free

-- A call that makes the journal longer leaves nothing on the free list.
structure Grew (j k : Journal) : Prop where
  longer : j.slots.length ≤ k.slots.length
  full : k.slots.length = j.slots.length ∨ k.free = []

-- A mint adds empty slots at most.
def Padded (j k : Journal) : Prop := ∃ n, k.slots = j.slots++List.replicate n []

section Lanes

variable {j k : Journal}

theorem Grew.same (slots : k.slots.length = j.slots.length) : Grew j k := ⟨Nat.le_of_eq slots.symm,.inl slots⟩

theorem addSlot_grew (added : j.addSlot checked = some (k,slot)) : Grew j k ∧ (j.free = [] → k.free = []) := by
  unfold addSlot at added
  split at added
  · rename_i last
    cases added
    refine ⟨.same rfl,?_⟩
    intro none
    rw [none] at last
    cases last
  · rename_i last
    split at added
    · cases added
    · cases added
      have none := List.getLast?_eq_none_iff.mp last
      exact ⟨⟨by simp,.inr none⟩,fun _ => none⟩

theorem mintLane_grew (h : HandleId) :
    Grew j (j.mintLane checked workers h) ∧ (j.free = [] → (j.mintLane checked workers h).free = []) := by
  unfold mintLane
  split
  · rename_i added
    obtain ⟨grew,spent⟩ := addSlot_grew added
    exact ⟨⟨grew.longer,grew.full⟩,spent⟩
  · exact ⟨.same rfl,id⟩

theorem Padded.same (slots : k.slots = j.slots) : Padded j k := ⟨0,by simp [slots]⟩

theorem Padded.trans {i : Journal} (first : Padded i j) (second : Padded j k) : Padded i k := by
  obtain ⟨m,one⟩ := first
  obtain ⟨n,two⟩ := second
  refine ⟨m+n,?_⟩
  rw [two,one,List.append_assoc,List.replicate_append_replicate]

theorem addSlot_padded (added : j.addSlot checked = some (k,slot)) : Padded j k := by
  rcases addSlot_cases added with ⟨_,rfl⟩ | ⟨_,rfl⟩
  · exact .same rfl
  · exact ⟨1,rfl⟩

theorem mintLane_padded (h : HandleId) : Padded j (j.mintLane checked workers h) := by
  unfold mintLane
  split
  · rename_i added
    exact (addSlot_padded added).trans (.same rfl)
  · exact .same rfl

-- What the constructor's loop leaves, if no `add_slot` is fatal.
theorem mintLanes_kept (sound : Sound j) (apart : Apart j) (minted : mintLanes checked workers n j h = some k) :
    Sound k ∧ Apart k ∧ Grew j k ∧ (j.free = [] → k.free = []) ∧ Padded j k := by
  induction n generalizing j with
  | zero =>
    cases minted
    exact ⟨sound,apart,.same rfl,id,.same rfl⟩
  | succ n ih =>
    unfold mintLanes at minted
    split at minted
    · obtain ⟨grew,spent⟩ : Grew j (j.mintLane checked workers h) ∧ _ := mintLane_grew h
      obtain ⟨last,still,later,none,padded⟩ := ih (mintLane_sound sound h) (mintLane_apart apart sound.homes h) minted
      refine ⟨last,still,⟨grew.longer.trans later.longer,?_⟩,none ∘ spent,(mintLane_padded h).trans padded⟩
      rcases grew.full with same | empty
      · rcases later.full with also | empty
        · exact .inl (also.trans same)
        · exact .inr empty
      · exact .inr (none empty)
    · cases minted

theorem releaseSlots_kept (sound : Sound j) (apart : Apart j) (n : Nat) (h : HandleId) :
    Sound (releaseSlots n j h) ∧ Apart (releaseSlots n j h) := by
  induction n generalizing j with
  | zero => exact ⟨sound,apart⟩
  | succ n ih => exact ih (releaseNext_sound sound h) (releaseNext_apart apart h)

theorem releaseSlots_eq (h : HandleId) (slots : List SlotId) :
    ∀ j : Journal, j.handles h = (if slots = [] then .empty else .releasing slots) →
      releaseSlots slots.length j h = {j with free := j.free++slots,handles := Function.update j.handles h .empty} := by
  induction slots with
  | nil =>
    intro j here
    have same : Function.update j.handles h .empty = j.handles := Function.update_eq_self_iff.mpr here.symm
    rw [same,List.append_nil]
    rfl
  | cons slot rest ih =>
    intro j here
    simp only [List.cons_ne_nil,if_false] at here
    have next : j.releaseNext h =
        {j with free := j.free++[slot],handles := Function.update j.handles h (if rest = [] then .empty else .releasing rest)} := by
      unfold releaseNext
      rw [here]
      rfl
    have later := ih (j.releaseNext h) (by rw [next]; exact Function.update_self ..)
    refine Eq.trans later ?_
    simp only [next,Function.update_idem,List.append_assoc,List.singleton_append]

-- A destructor puts the slots of its handle behind the others of the free list.
theorem destroy_eq (j : Journal) (h : HandleId) :
    j.destroy h = {j with free := j.free++(j.handles h).slots,handles := Function.update j.handles h .empty} := by
  have begun : j.release h =
      j.setHandle h (if (j.handles h).slots = [] then .empty else .releasing (j.handles h).slots) := by
    unfold release
    split <;> rfl
  have all := releaseSlots_eq h (j.handles h).slots (j.release h) (by rw [begun]; exact Function.update_self ..)
  refine Eq.trans all ?_
  simp only [begun,setHandle,Function.update_idem]

theorem destroy_rests (rests : Rests j) (h : HandleId) : Rests (j.destroy h) := by
  obtain ⟨sound,apart⟩ := releaseSlots_kept (release_sound rests.sound h) (release_apart rests.apart h)
    (j.handles h).slots.length h
  refine ⟨sound,apart,?_,?_⟩
  · intro g
    rw [destroy_eq]
    by_cases same : g = h
    · simp only [same,Function.update_self]
      rfl
    · simp only [Function.update_of_ne same]
      exact rests.settled g
  · rw [destroy_eq]
    exact rests.idle

theorem move_rests (rests : Rests j) (other : source ≠ target) (empty : (j.handles target).slots = []) :
    Rests (j.move source target) := by
  refine ⟨move_sound rests.sound other,move_apart rests.apart other empty,?_,rests.idle⟩
  intro g
  simp only [move,setHandle]
  by_cases first : g = source
  · rw [first,Function.update_self]
    rfl
  · rw [Function.update_of_ne first]
    by_cases second : g = target
    · rw [second,Function.update_self]
      exact rests.settled source
    · rw [Function.update_of_ne second]
      exact rests.settled g

theorem assign_rests (rests : Rests j) (source target : HandleId) : Rests (j.assign source target) := by
  unfold assign
  split
  · exact rests
  · rename_i other
    refine move_rests (destroy_rests rests target) other ?_
    simp only [destroy_eq,Function.update_self]
    rfl

-- The ledger's part of a mint takes the slots that the journal's takes.
theorem give_eq (added : j.addSlot checked = some (k,slot)) (l : MintLedger) (slots : l.slots = j.slots)
    (free : l.free = j.free) :
    l.give = {l with
      slots := k.slots,free := k.free,owned := Function.update l.owned l.mints (l.owned l.mints++[slot])} := by
  cases last : j.free.getLast? with
  | some top =>
    simp only [addSlot,last] at added
    cases added
    simp only [MintLedger.give,free,last,slots]
  | none =>
    simp only [addSlot,last] at added
    split at added
    · cases added
    · cases added
      simp only [MintLedger.give,free,last,slots]

theorem addSlot_same (added : j.addSlot checked = some (k,slot)) : k = {j with slots := k.slots,free := k.free} := by
  rcases addSlot_cases added with ⟨_,rfl⟩ | ⟨_,rfl⟩ <;> rfl

theorem mintLanes_lanes (h : HandleId) (n : Nat) : ∀ (j : Journal) (l : MintLedger) (ss : List SlotId),
    j.handles h = (if ss.length = workers+1 then .parallel l.mints ss else .minting l.mints ss) →
    ss.length+n = workers+1 → l.slots = j.slots → l.free = j.free → l.owned l.mints = ss →
    mintLanes checked workers n j h = some k →
      ∃ got, MintLedger.lanes n l = {l with slots := k.slots,free := k.free,owned := Function.update l.owned l.mints got} ∧
        k = {j with slots := k.slots,free := k.free,handles := Function.update j.handles h (.parallel l.mints got)} := by
  induction n with
  | zero =>
    intro j l ss here count slots free owned minted
    cases minted
    rw [if_pos (by omega)] at here
    refine ⟨ss,?_,?_⟩
    · rw [Function.update_eq_self_iff.mpr owned.symm,← slots,← free]
      rfl
    · rw [Function.update_eq_self_iff.mpr here.symm]
  | succ n ih =>
    intro j l ss here count slots free owned minted
    rw [if_neg (by omega)] at here
    unfold mintLanes at minted
    split at minted
    · rename_i some
      obtain ⟨⟨m,slot⟩,added⟩ := Option.isSome_iff_exists.mp some
      have next : j.mintLane checked workers h =
          m.setHandle h (if (ss++[slot]).length = workers+1 then .parallel l.mints (ss++[slot]) else .minting l.mints (ss++[slot])) := by
        unfold mintLane
        rw [here,added]
        simp only [List.length_append,List.length_singleton,Nat.add_right_cancel_iff]
      rw [next] at minted
      have gave := give_eq added l slots free
      rw [owned] at gave
      obtain ⟨got,ledger,journal⟩ := ih _ l.give (ss++[slot]) (by rw [gave]; exact Function.update_self ..)
        (by simp only [List.length_append,List.length_singleton]; omega) (by rw [gave]; rfl) (by rw [gave]; rfl)
        (by rw [gave]; exact Function.update_self ..) minted
      refine ⟨got,?_,?_⟩
      · refine Eq.trans ledger ?_
        simp only [gave,Function.update_idem]
      · refine journal.trans ?_
        rw [addSlot_same added,gave]
        simp only [setHandle,Function.update_idem]
    · cases minted

end Lanes

-- A loop over the slots that has emptied the first `n`.
structure Swept (j : Journal) (n : Nat) (k : Journal) : Prop where
  slots : k.slots = List.replicate n []++j.slots.drop n
  handles : k.handles = j.handles
  free : k.free = j.free
  mints : k.mints = j.mints
  issued : k.issued = j.issued

section Sweeps

variable {j k : Journal}

theorem Swept.length (swept : Swept j n k) (within : n ≤ j.slots.length) : k.slots.length = j.slots.length := by
  rw [swept.slots,List.length_append,List.length_replicate,List.length_drop]
  omega

theorem Swept.here (swept : Swept j n k) (below : n < j.slots.length) : k.slots.getD n [] = j.slots[n] := by
  rw [swept.slots,List.drop_eq_getElem_cons below,List.getD_eq_getElem?_getD,List.getElem?_append_right (by simp),
    List.length_replicate,Nat.sub_self,List.getElem?_cons_zero,Option.getD_some]

theorem Swept.next {l : Journal} (swept : Swept j n k) (below : n < j.slots.length) (slots : l.slots = k.slots.set n [])
    (handles : l.handles = k.handles) (free : l.free = k.free) (mints : l.mints = k.mints) (issued : l.issued = k.issued) :
    Swept j (n+1) l := by
  refine ⟨?_,handles.trans swept.handles,free.trans swept.free,mints.trans swept.mints,issued.trans swept.issued⟩
  rw [slots,swept.slots,List.drop_eq_getElem_cons below,List.set_append_right _ _ (by simp),List.length_replicate,
    Nat.sub_self,List.set_cons_zero,List.replicate_succ',List.append_assoc,List.singleton_append]

theorem Swept.whole (swept : Swept j j.slots.length k) : k.slots = j.slots.map (fun _ => []) := by
  rw [swept.slots,List.drop_length,List.append_nil,List.map_const']

theorem cutting_swept (sound : Sound j) (idle : j.register = .free) (n : Nat) (within : n ≤ j.slots.length) :
    let k := (List.range n).foldl (fun k slot => k.cutSlot 0 slot) (j.cutBegin 0)
    Sound k ∧ k.position = some n ∧ Swept j n k ∧
      k.taken.map Prod.fst = j.taken.map Prod.fst++(j.slots.take n).flatten := by
  induction n with
  | zero =>
    refine ⟨cutBegin_sound sound (free_position idle) 0,rfl,⟨rfl,rfl,rfl,rfl,rfl⟩,?_⟩
    simp [cutBegin]
  | succ n ih =>
    obtain ⟨last,place,swept,taken⟩ := ih (by omega)
    rw [List.range_succ,List.foldl_append]
    refine ⟨cutSlot_sound last place 0,rfl,swept.next (by omega) rfl rfl rfl rfl rfl,?_⟩
    change List.map Prod.fst (_++List.map _ _) = _
    rw [List.map_append,taken,List.map_map,swept.here (by omega),List.take_succ_eq_append_getElem (by omega),
      List.flatten_append,List.flatten_singleton,List.append_assoc]
    simp only [Function.comp_def,List.map_id']

theorem clearing_swept (sound : Sound j) (idle : j.register = .free) (n : Nat) (within : n ≤ j.slots.length) :
    let k := (List.range n).foldl clearSlot {j with register := .clearing 0}
    Sound k ∧ k.position = none ∧ Swept j n k := by
  induction n with
  | zero => exact ⟨sound.relocked (free_position idle) _ rfl,rfl,rfl,rfl,rfl,rfl,rfl⟩
  | succ n ih =>
    obtain ⟨last,place,swept⟩ := ih (by omega)
    rw [List.range_succ,List.foldl_append]
    exact ⟨clearSlot_sound last place n,rfl,swept.next (by omega) rfl rfl rfl rfl rfl⟩

theorem cut_swept (rests : Rests j) : Rests j.cut ∧ Swept j j.slots.length j.cut ∧ j.cutBatch = j.slots.flatten := by
  obtain ⟨last,place,swept,taken⟩ := cutting_swept rests.sound rests.idle j.slots.length (Nat.le_refl _)
  have whole : Swept j j.slots.length j.cut := ⟨swept.slots,swept.handles,swept.free,swept.mints,swept.issued⟩
  have length := whole.length (Nat.le_refl _)
  refine ⟨⟨?_,rests.apart.kept whole.handles whole.free length,?_,rfl⟩,whole,?_⟩
  · exact cutEnd_sound last (by rw [place,swept.length (Nat.le_refl _)])
  · rw [whole.handles]
    exact rests.settled
  · unfold cutBatch
    have all : j.cut.taken.map Prod.fst = j.taken.map Prod.fst++j.slots.flatten := by
      rw [List.take_length] at taken
      exact taken
    rw [List.map_drop,all,List.drop_left' (List.length_map _)]

theorem clear_swept (rests : Rests j) : Rests j.clearStaged ∧ Swept j j.slots.length j.clearStaged := by
  obtain ⟨last,place,swept⟩ := clearing_swept rests.sound rests.idle j.slots.length (Nat.le_refl _)
  have whole : Swept j j.slots.length j.clearStaged := ⟨swept.slots,swept.handles,swept.free,swept.mints,swept.issued⟩
  refine ⟨⟨last.relocked place _ rfl,rests.apart.kept whole.handles whole.free (whole.length (Nat.le_refl _)),?_,rfl⟩,whole⟩
  rw [whole.handles]
  exact rests.settled

end Sweeps

-- In a slot the commands of an earlier recorder are ahead of a later one's.
structure Aged (j : Journal) : Prop where
  ordered : ∀ (i : Nat) xs, j.slots[i]? = some xs → xs.Pairwise (fun x y => x.recorder ≤ y.recorder)
  owner : ∀ h m ss, (j.handles h).bound = some (m,ss) → ∀ slot ∈ ss, ∀ xs, j.slots[slot]? = some xs →
    ∀ c ∈ xs, c.recorder ≤ m

section Ages

variable {j k : Journal}

theorem settled_slots {handle : Handle} (settled : handle.settled = true) (bound : handle.bound = some (m,ss)) : handle.slots = ss := by
  cases handle <;> cases bound <;> rfl

theorem Padded.slot {i : Nat} (padded : Padded j k) (here : k.slots[i]? = some xs) : j.slots[i]? = some xs ∨ xs = [] := by
  obtain ⟨n,slots⟩ := padded
  rw [slots,List.getElem?_append] at here
  split at here
  · exact .inl here
  · exact .inr (List.eq_of_mem_replicate (List.mem_of_getElem? here))

-- What a slot holds has been staged by a recorder that has been minted.
theorem Sound.minted_in {i : Nat} {c : Command} (sound : Sound j) (here : j.slots[i]? = some xs) (member : c ∈ xs) : c.recorder < j.mints := by
  refine sound.homes.staged c ?_
  have there : c ∈ j.row.bins.flatten := List.mem_flatten.mpr ⟨xs,List.mem_of_getElem? here,member⟩
  exact sound.row.known.mpr (.inl there)

-- A recorder that is minted now is the youngest.
theorem Aged.minted (aged : Aged j) (sound : Sound j) (padded : Padded j k) (h : HandleId) (handle : Handle)
    (handles : k.handles = Function.update j.handles h handle) (bound : handle.bound = some (j.mints,got)) : Aged k := by
  refine ⟨?_,?_⟩
  · intro i xs here
    rcases padded.slot here with old | rfl
    · exact aged.ordered i xs old
    · exact .nil
  · intro g m ss held slot member xs here c inside
    rcases padded.slot here with old | rfl
    · rw [handles] at held
      by_cases mine : g = h
      · rw [mine,Function.update_self,bound] at held
        cases held
        exact Nat.le_of_lt (sound.minted_in old inside)
      · rw [Function.update_of_ne mine] at held
        exact aged.owner g m ss held slot member xs old c inside
    · cases inside

-- Handles that are bound no more or elsewhere change nothing in the slots.
theorem Aged.rebound (aged : Aged j) (slots : k.slots = j.slots)
    (bound : ∀ g m ss, (k.handles g).bound = some (m,ss) → ∃ h, (j.handles h).bound = some (m,ss)) : Aged k := by
  refine ⟨by rw [slots]; exact aged.ordered,?_⟩
  intro g m ss held
  obtain ⟨h,there⟩ := bound g m ss held
  rw [slots]
  exact aged.owner h m ss there

theorem destroy_aged (aged : Aged j) (h : HandleId) : Aged (j.destroy h) := by
  rw [destroy_eq]
  refine aged.rebound rfl ?_
  intro g m ss held
  by_cases mine : g = h
  · simp only [mine,Function.update_self] at held
    cases held
  · simp only [Function.update_of_ne mine] at held
    exact ⟨g,held⟩

-- What a handle is bound to after a move, some handle was bound to before.
theorem move_bound (held : ((j.move source target).handles g).bound = some (m,ss)) :
    ∃ was, (j.handles was).bound = some (m,ss) := by
  simp only [move,setHandle] at held
  by_cases first : g = source
  · rw [first,Function.update_self] at held
    cases held
  · rw [Function.update_of_ne first] at held
    by_cases second : g = target
    · rw [second,Function.update_self] at held
      exact ⟨source,held⟩
    · rw [Function.update_of_ne second] at held
      exact ⟨g,held⟩

theorem move_aged (aged : Aged j) (source target : HandleId) : Aged (j.move source target) :=
  aged.rebound rfl fun _ _ _ held => move_bound held

theorem swept_aged (swept : Swept j j.slots.length k) : Aged k := by
  have empty : ∀ (i : Nat) xs, k.slots[i]? = some xs → xs = [] := by
    intro i xs here
    rw [swept.whole] at here
    obtain ⟨_,_,same⟩ := List.mem_map.mp (List.mem_of_getElem? here)
    exact same.symm
  refine ⟨?_,?_⟩
  · intro i xs here
    rw [empty i xs here]
    exact .nil
  · intro h m ss _ slot _ xs here c inside
    rw [empty slot xs here] at inside
    cases inside

-- No other recorder is in the slot that a command is staged into.
theorem stage_aged (aged : Aged j) (rests : Rests j) (h : HandleId) (worker : Int) : Aged (j.stage h worker) := by
  unfold stage
  split
  · rename_i m lane slot found
    obtain ⟨ss,bound,_,place⟩ := target_bound found
    have mine : slot ∈ ss := List.mem_of_getElem? place
    have filled : ∀ (i : Nat) xs, (j.slots.modify slot (·++[⟨j.issued.length,m,lane,slot⟩]))[i]? = some xs →
        j.slots[i]? = some xs ∨ i = slot ∧ ∃ ys, j.slots[slot]? = some ys ∧ xs = ys++[⟨j.issued.length,m,lane,slot⟩] := by
      intro i xs here
      rw [List.getElem?_modify] at here
      obtain ⟨ys,old,same⟩ := Option.map_eq_some_iff.mp here
      by_cases equal : slot = i
      · subst equal
        exact .inr ⟨rfl,ys,old,by simpa using same.symm⟩
      · exact .inl (by rw [old,← same,if_neg equal])
    refine ⟨?_,?_⟩
    · intro i xs here
      rcases filled i xs here with old | ⟨rfl,ys,old,rfl⟩
      · exact aged.ordered i xs old
      · refine List.pairwise_append.mpr ⟨aged.ordered i ys old,List.pairwise_singleton _ _,?_⟩
        intro c inside d last
        rw [List.mem_singleton.mp last]
        exact aged.owner h m ss bound i mine ys old c inside
    · intro g n ts held other member xs here c inside
      rcases filled other xs here with old | ⟨rfl,ys,old,rfl⟩
      · exact aged.owner g n ts held other member xs old c inside
      · have one : g = h := by
          refine rests.apart.alone g h other ?_ ?_
          · rw [settled_slots (rests.settled g) held]
            exact member
          · rw [settled_slots (rests.settled h) bound]
            exact mine
        rw [one,bound] at held
        cases held
        rcases List.mem_append.mp inside with earlier | last
        · exact aged.owner h m ss bound other mine ys old c earlier
        · rw [List.mem_singleton.mp last]
  · exact aged

theorem staged_before (sound : Sound j) (aged : Aged j) : j.slots.flatten.Pairwise Command.Before := by
  refine List.pairwise_flatten.mpr ⟨?_,?_⟩
  · intro xs member
    obtain ⟨i,here⟩ := List.mem_iff_getElem?.mp member
    refine List.Pairwise.imp_of_mem ?_ ((sound.row.ordered i xs here).and (aged.ordered i xs here))
    rintro x y one two ⟨earlier,older⟩
    have first := sound.row.placed i xs here x one
    have second := sound.row.placed i xs here y two
    exact .inr ⟨first.trans second.symm,earlier,older⟩
  · rw [List.pairwise_iff_getElem]
    intro i k below later ahead x one y two
    have first := sound.row.placed i _ (List.getElem?_eq_getElem below) x one
    have second := sound.row.placed k _ (List.getElem?_eq_getElem later) y two
    rw [← first,← second] at ahead
    exact .inl ahead

end Ages

-- The ledger of a journal between two calls.
structure Matches (j : Journal) (l : MintLedger) : Prop where
  slots : l.slots = j.slots
  free : l.free = j.free
  mints : l.mints = j.mints
  staged : l.staged = j.issued.length
  owned : ∀ h m ss, (j.handles h).bound = some (m,ss) → l.owned m = ss
  fresh : ∀ m, l.mints ≤ m → l.owned m = []

section Ledgers

variable {j k : Journal} {l : MintLedger}

theorem matches_empty : Matches {} {} := by
  refine ⟨rfl,rfl,rfl,rfl,?_,fun _ _ => rfl⟩
  intro h m ss bound
  cases bound

-- A minted recorder is one handle's, and the ledger's last.
theorem Matches.minted (same : Matches j l) (homes : Homes j) (h : HandleId) (handle : Handle)
    (bound : handle.bound = some (j.mints,ss)) (slots : List (List Command)) (free : List SlotId) :
    Matches {j with
        slots := slots,free := free,handles := Function.update j.handles h handle,mints := j.mints+1}
      {l with slots := slots,free := free,owned := Function.update l.owned l.mints ss,mints := l.mints+1} := by
  refine ⟨rfl,rfl,congrArg (·+1) same.mints,same.staged,?_,?_⟩
  · intro g m ts held
    by_cases mine : g = h
    · simp only [mine,Function.update_self] at held
      rw [bound] at held
      cases held
      rw [← same.mints]
      exact Function.update_self ..
    · simp only [Function.update_of_ne mine] at held
      have older := homes.minted g m ts held
      have other : m ≠ l.mints := by
        rw [same.mints]
        exact Nat.ne_of_lt older
      exact (Function.update_of_ne other ..).trans (same.owned g m ts held)
  · intro m late
    have later : l.mints < m := late
    exact (Function.update_of_ne (Nat.ne_of_gt later) ..).trans (same.fresh m (Nat.le_of_lt later))

-- What a destructor does to a handle's recorder, if there is any.
theorem Matches.destroyed (same : Matches j l) (rests : Rests j) (h : HandleId) :
    Matches (j.destroy h) ((j.handles h).destroyed.foldl MintLedger.step l) := by
  have homes := rests.sound.homes
  unfold Handle.destroyed
  rw [destroy_eq]
  cases bound : (j.handles h).bound with
  | none =>
    have bare : (j.handles h).slots = [] := by
      have settled := rests.settled h
      cases here : j.handles h <;> simp_all [Handle.bound,Handle.settled,Handle.slots]
    refine ⟨same.slots,?_,same.mints,same.staged,?_,same.fresh⟩
    · simp only [bare,List.append_nil]
      exact same.free
    · intro g m ss held
      by_cases mine : g = h
      · simp only [mine,Function.update_self] at held
        cases held
      · simp only [Function.update_of_ne mine] at held
        exact same.owned g m ss held
  | some pair =>
    obtain ⟨mint,ss⟩ := pair
    have mine := same.owned h mint ss bound
    refine ⟨same.slots,?_,same.mints,same.staged,?_,?_⟩
    · change l.free++l.owned mint = j.free++(j.handles h).slots
      rw [mine,same.free,settled_slots (rests.settled h) bound]
    · intro g m ts held
      by_cases here : g = h
      · simp only [here,Function.update_self] at held
        cases held
      · simp only [Function.update_of_ne here] at held
        have other : m ≠ mint := by
          rintro rfl
          exact here (homes.apart g h m ts ss held bound)
        exact (Function.update_of_ne other ..).trans (same.owned g m ts held)
    · intro m late
      by_cases again : m = mint
      · rw [again]
        exact Function.update_self ..
      · exact (Function.update_of_ne again ..).trans (same.fresh m late)

theorem Matches.moved (same : Matches j l) (source target : HandleId) : Matches (j.move source target) l := by
  refine ⟨same.slots,same.free,same.mints,same.staged,?_,same.fresh⟩
  intro g m ss held
  obtain ⟨was,bound⟩ := move_bound held
  exact same.owned was m ss bound

theorem Matches.staged_at (same : Matches j l)
    (found : (j.handles h).target worker = some (m,lane,slot)) :
    (j.handles h).bound = some (m,l.owned m) ∧ Handle.lane (l.owned m) worker = lane ∧ (l.owned m)[lane]? = some slot := by
  obtain ⟨ss,bound,_,there⟩ := target_bound found
  rw [same.owned h m ss bound]
  refine ⟨bound,?_,there⟩
  cases here : j.handles h with
  | recorder mint only =>
    rw [here] at bound found
    cases bound
    cases found
    unfold Handle.lane
    rw [List.length_singleton]
    split
    · rfl
    · omega
  | parallel mint slots =>
    rw [here] at bound found
    cases bound
    obtain ⟨_,_,equal⟩ := Option.map_eq_some_iff.mp found
    cases equal
    rfl
  | _ => simp_all [Handle.target]

theorem Matches.stage (same : Matches j l)
    (stages : ((j.handles h).target worker).isSome = true) :
    Matches (j.stage h worker) ((j.events workers (.stage h worker)).foldl MintLedger.step l) := by
  obtain ⟨⟨m,lane,slot⟩,found⟩ := Option.isSome_iff_exists.mp stages
  obtain ⟨bound,place,there⟩ := same.staged_at found
  simp only [Journal.stage,Journal.events,found,bound,List.foldl_cons,List.foldl_nil,MintLedger.step,place,there]
  refine ⟨?_,same.free,same.mints,?_,same.owned,same.fresh⟩
  · simp only [same.slots,same.staged]
  · simp only [same.staged,List.length_append,List.length_singleton]

theorem Matches.swept (same : Matches j l) (swept : Swept j j.slots.length k) (batches : List (List Command)) :
    Matches k {l with slots := l.slots.map (fun _ => []),batches := batches} := by
  refine ⟨?_,same.free.trans swept.free.symm,same.mints.trans swept.mints.symm,?_,?_,same.fresh⟩
  · rw [swept.whole,← same.slots]
  · rw [swept.issued]
    exact same.staged
  · rw [swept.handles]
    exact same.owned

end Ledgers

end Journal
end Macrame

import Macrame.JournalCallLaws

namespace Macrame
open Machines

namespace JournalRun

structure Kept (s : JournalRun) : Prop where
  rests : s.journal.Rests
  aged : s.journal.Aged
  matched : s.journal.Matches (MintLedger.replay s.events)
  batches : s.batches = (MintLedger.replay s.events).batches
  ordered : ∀ batch ∈ s.batches, batch.Pairwise Command.Before

section Calls

variable {checked : Bool} {workers : Nat} {s : JournalRun} {j k : Journal}

theorem replay_append (events more : List RecorderEvent) :
    MintLedger.replay (events++more) = more.foldl MintLedger.step (MintLedger.replay events) := List.foldl_append

theorem lanes_batches (n : Nat) (l : MintLedger) : (MintLedger.lanes n l).batches = l.batches := by
  induction n generalizing l with
  | zero => rfl
  | succ n ih =>
    refine (ih l.give).trans ?_
    unfold MintLedger.give
    split <;> rfl

theorem step_batches (l : MintLedger) (other : e ≠ .cut) : (l.step e).batches = l.batches := by
  cases e with
  | mint n => exact lanes_batches n l
  | stage m worker =>
    simp only [MintLedger.step]
    split <;> rfl
  | cut => exact absurd rfl other
  | _ => rfl

theorem steps_batches (events : List RecorderEvent) (l : MintLedger) (others : .cut ∉ events) :
    (events.foldl MintLedger.step l).batches = l.batches := by
  induction events generalizing l with
  | nil => rfl
  | cons e rest ih =>
    rw [List.mem_cons,not_or] at others
    exact (ih _ others.2).trans (step_batches l (Ne.symm others.1))

theorem events_cut (other : c ≠ .cut) : .cut ∉ j.events workers c := by
  have destroyed : ∀ handle : Handle, .cut ∉ handle.destroyed := by
    intro handle
    unfold Handle.destroyed
    split <;> simp
  cases c with
  | assign source target =>
    simp only [Journal.events]
    split
    · exact List.not_mem_nil
    · exact destroyed _
  | destroy h => exact destroyed _
  | stage h worker =>
    simp only [Journal.events]
    split <;> simp
  | cut => exact absurd rfl other
  | _ => simp [Journal.events]

-- What both constructors leave.
theorem minted_kept (rests : j.Rests) (aged : j.Aged) (same : j.Matches l) (h : HandleId) (handle : Handle)
    (after : k = {j with
      slots := k.slots,free := k.free,handles := Function.update j.handles h handle,mints := j.mints+1})
    (bound : handle.bound = some (j.mints,got)) (settled : handle.settled = true) (sound : k.Sound) (apart : k.Apart)
    (padded : j.Padded k)
    (ledger : MintLedger.lanes n l =
      {l with slots := k.slots,free := k.free,owned := Function.update l.owned l.mints got}) :
    k.Rests ∧ k.Aged ∧ k.Matches (l.step (.mint n)) := by
  have handles : k.handles = Function.update j.handles h handle := by rw [after]
  refine ⟨⟨sound,apart,?_,?_⟩,aged.minted rests.sound padded h handle handles bound,?_⟩
  · intro g
    rw [handles]
    by_cases mine : g = h
    · rw [mine,Function.update_self]
      exact settled
    · rw [Function.update_of_ne mine]
      exact rests.settled g
  · rw [after]
    exact rests.idle
  · have minted := same.minted rests.sound.homes h handle bound k.slots k.free
    rw [← after] at minted
    simp only [MintLedger.step,ledger]
    exact minted

-- A call that returns leaves a journal that rests, with the ledger of its events.
theorem call_kept (rests : j.Rests) (aged : j.Aged) (same : j.Matches l) (called : j.call checked workers c = some k)
    (safe : ({journal := j} : JournalRun).Allowed checked workers c) :
    k.Rests ∧ k.Aged ∧ k.Matches ((j.events workers c).foldl MintLedger.step l) ∧ Journal.Grew j k := by
  obtain ⟨_,safe⟩ := safe
  have homes := rests.sound.homes
  cases c with
  | mint h =>
    have empty : j.handles h = .empty := safe
    simp only [Journal.call] at called
    split at called
    · rename_i some
      cases called
      obtain ⟨⟨m,slot⟩,added⟩ := Option.isSome_iff_exists.mp some
      have after : j.recorder checked h = {m with mints := j.mints+1}.setHandle h (.recorder j.mints slot) := by
        unfold Journal.recorder
        rw [added]
      have plain := Journal.addSlot_same added
      have gave := Journal.give_eq added l same.slots same.free
      rw [same.fresh l.mints (Nat.le_refl _),List.nil_append] at gave
      have kept := minted_kept (k := j.recorder checked h) (n := 1) rests aged same h (.recorder j.mints slot)
        (by rw [after,plain]; rfl) rfl rfl (Journal.recorder_sound rests.sound h)
        (Journal.recorder_apart rests.apart homes empty) (by rw [after]; exact (Journal.addSlot_padded added).trans (.same rfl))
        (by rw [after]; exact gave)
      refine ⟨kept.1,kept.2.1,kept.2.2,?_⟩
      rw [after]
      obtain ⟨longer,full⟩ := (Journal.addSlot_grew added).1
      exact ⟨longer,full⟩
    · cases called
  | mintParallel h =>
    have empty : j.handles h = .empty := safe
    have begun : (j.parallelRecorder h).Apart :=
      (rests.apart.renamed h (.minting j.mints []) (by rw [empty]; rfl)).kept rfl rfl rfl
    obtain ⟨sound,apart,grew,_,padded⟩ :=
      Journal.mintLanes_kept (Journal.parallelRecorder_sound rests.sound h) begun called
    obtain ⟨got,ledger,after⟩ := Journal.mintLanes_lanes h (workers+1) (j.parallelRecorder h) l []
      (by simp only [List.length_nil]; rw [if_neg (by omega),same.mints]; exact Function.update_self ..) (Nat.zero_add _)
      same.slots same.free (same.fresh _ (Nat.le_refl _)) called
    have kept := minted_kept (n := workers+1) rests aged same h (.parallel j.mints got)
      (by
        refine after.trans ?_
        rw [same.mints]
        simp only [Journal.parallelRecorder,Journal.setHandle,Function.update_idem])
      rfl rfl sound apart padded ledger
    exact ⟨kept.1,kept.2.1,kept.2.2,grew.longer,grew.full⟩
  | construct source target =>
    cases called
    obtain ⟨other,empty⟩ : source ≠ target ∧ j.handles target = .empty := safe
    exact ⟨Journal.move_rests rests other (by rw [empty]; rfl),Journal.move_aged aged source target,
      same.moved source target,.same rfl⟩
  | assign source target =>
    cases called
    refine ⟨Journal.assign_rests rests source target,?_⟩
    simp only [Journal.assign,Journal.events]
    split
    · exact ⟨aged,same,.same rfl⟩
    · refine ⟨Journal.move_aged (Journal.destroy_aged aged target) source target,
        (same.destroyed rests target).moved source target,.same ?_⟩
      simp only [Journal.move,Journal.setHandle,Journal.destroy_eq]
  | destroy h =>
    cases called
    refine ⟨Journal.destroy_rests rests h,Journal.destroy_aged aged h,same.destroyed rests h,.same ?_⟩
    rw [Journal.destroy_eq]
  | stage h worker =>
    cases called
    have stages : ((j.handles h).target worker).isSome = true := safe
    have length : (j.stage h worker).slots.length = j.slots.length := by
      unfold Journal.stage
      split
      · exact List.length_modify ..
      · rfl
    have others : (j.stage h worker).handles = j.handles ∧ (j.stage h worker).free = j.free ∧
        (j.stage h worker).register = j.register := by
      unfold Journal.stage
      split <;> exact ⟨rfl,rfl,rfl⟩
    refine ⟨⟨Journal.stage_sound rests.sound h worker,rests.apart.kept others.1 others.2.1 length,?_,?_⟩,
      Journal.stage_aged aged rests h worker,same.stage stages,.same length⟩
    · rw [others.1]
      exact rests.settled
    · rw [others.2.2]
      exact rests.idle
  | cut =>
    cases called
    obtain ⟨still,swept,_⟩ := Journal.cut_swept rests
    exact ⟨still,Journal.swept_aged swept,same.swept swept _,.same (swept.length (Nat.le_refl _))⟩
  | clear =>
    cases called
    obtain ⟨still,swept⟩ := Journal.clear_swept rests
    exact ⟨still,Journal.swept_aged swept,same.swept swept _,.same (swept.length (Nat.le_refl _))⟩

theorem kept_start : ({} : JournalRun).Kept := by
  refine ⟨⟨Journal.sound_empty,Journal.apart_empty,fun _ => rfl,rfl⟩,⟨?_,?_⟩,Journal.matches_empty,rfl,?_⟩
  · intro i xs here
    cases here
  · intro h m ss bound
    cases bound
  · intro batch member
    cases member

theorem kept_step (kept : s.Kept) (allowed : s.Allowed checked workers c) :
    (s.apply checked workers c).Kept ∧ Journal.Grew s.journal (s.apply checked workers c).journal := by
  obtain ⟨k,called⟩ := Option.isSome_iff_exists.mp allowed.1
  obtain ⟨rests,aged,matched,grew⟩ := call_kept kept.rests kept.aged kept.matched called allowed
  have journal : (s.apply checked workers c).journal = k := by
    simp only [apply,called,Option.getD_some]
  refine ⟨⟨journal ▸ rests,journal ▸ aged,?_,?_,?_⟩,journal ▸ grew⟩
  · rw [journal]
    simp only [apply,replay_append]
    exact matched
  · simp only [apply,replay_append]
    split
    · rename_i cut
      subst cut
      obtain ⟨_,_,batch⟩ := Journal.cut_swept kept.rests
      simp only [Journal.events,List.foldl_cons,List.foldl_nil,MintLedger.step,batch,kept.batches,kept.matched.slots]
    · rename_i other
      rw [steps_batches _ _ (events_cut other)]
      exact kept.batches
  · intro batch member
    simp only [apply] at member
    split at member
    · rcases List.mem_append.mp member with old | new
      · exact kept.ordered batch old
      · rw [List.mem_singleton.mp new,(Journal.cut_swept kept.rests).2.2]
        exact Journal.staged_before kept.rests.sound kept.aged
    · exact kept.ordered batch member

theorem run_kept (run : (journalSystem checked workers).Each (journalSystem checked workers).allowed s schedule)
    (kept : s.Kept) : ((journalSystem checked workers).follow s schedule).Kept :=
  throughout_last (throughout_of Kept (fun _ _ kept allowed => (kept_step kept allowed).1) (fun _ here => here) kept run)

end Calls

end JournalRun

-- The slots that live recorders own.
def Journal.owned (j : Journal) : Set SlotId := {slot | ∃ h, slot ∈ (j.handles h).slots}

section Peaks

variable {checked : Bool} {workers : Nat} {j : Journal}

-- The slots are the owned ones and the free ones.
theorem Journal.Rests.owned_count (rests : j.Rests) : j.owned.ncard+j.free.length = j.slots.length := by
  obtain ⟨sound,apart,_,_⟩ := rests
  have owned : j.owned = ((List.range j.slots.length).toFinset \ j.free.toFinset : Finset SlotId) := by
    ext slot
    simp only [Journal.owned,Set.mem_ofPred_eq,Finset.coe_sdiff,Set.mem_sdiff,Finset.mem_coe,List.mem_toFinset,List.mem_range]
    constructor
    · rintro ⟨h,member⟩
      exact ⟨sound.homes.held h slot member,apart.loose h slot member⟩
    · rintro ⟨below,away⟩
      exact (apart.covered slot below).resolve_left away
  have inside : j.free.toFinset ⊆ (List.range j.slots.length).toFinset := by
    intro slot member
    rw [List.mem_toFinset] at member ⊢
    exact List.mem_range.mpr (sound.homes.freed slot member)
  have all := Finset.card_sdiff_add_card_eq_card inside
  rw [List.toFinset_card_of_nodup apart.freed,List.toFinset_card_of_nodup List.nodup_range,List.length_range] at all
  rw [owned,Set.ncard_coe_finset]
  exact all

theorem Journal.Rests.outstanding_iff (rests : j.Rests) : j.outstanding = true ↔ ∃ h slot, slot ∈ (j.handles h).slots := by
  have count := rests.owned_count
  have finite : j.owned.Finite := by
    refine (List.finite_toSet (List.range j.slots.length)).subset ?_
    rintro slot ⟨h,member⟩
    exact List.mem_range.mpr (rests.sound.homes.held h slot member)
  have some : j.owned.Nonempty ↔ ∃ h slot, slot ∈ (j.handles h).slots := exists_comm
  unfold Journal.outstanding
  rw [decide_eq_true_iff,← some,← Set.ncard_pos finite]
  omega

-- The numbers of slots that were owned at some time of a run.
def Peaks (checked : Bool) (workers : Nat) (schedule : List RecorderCall) : Set Nat :=
  {n | ∃ before, before <+: schedule ∧ n = ((journalSystem checked workers).follow {} before).journal.owned.ncard}

theorem run_peak (run : (journalSystem checked workers).Each (journalSystem checked workers).allowed {} schedule) :
    IsGreatest (Peaks checked workers schedule) ((journalSystem checked workers).follow {} schedule).journal.slots.length := by
  induction schedule using List.reverseRecOn with
  | nil =>
    have none := JournalRun.kept_start.rests.owned_count
    refine ⟨⟨[],List.prefix_rfl,?_⟩,?_⟩
    · exact (Nat.eq_zero_of_add_eq_zero_right none).symm
    · rintro n ⟨before,within,rfl⟩
      rw [List.prefix_nil.mp within]
      exact Nat.le_of_eq (Nat.eq_zero_of_add_eq_zero_right none)
  | append_singleton earlier c ih =>
    obtain ⟨first,allowed,_⟩ := each_split run
    obtain ⟨⟨before,within,reached⟩,most⟩ := ih first
    obtain ⟨kept,grew⟩ := JournalRun.kept_step (JournalRun.run_kept first JournalRun.kept_start) allowed
    have count := kept.rests.owned_count
    have last : (journalSystem checked workers).follow {} (earlier++[c]) =
        ((journalSystem checked workers).follow {} earlier).apply checked workers c := follow_append _
    rw [last]
    refine ⟨?_,?_⟩
    · rcases grew.full with same | full
      · exact ⟨before,within.trans (List.prefix_append ..),same.trans reached⟩
      · refine ⟨earlier++[c],List.prefix_rfl,?_⟩
        rw [full,List.length_nil,Nat.add_zero] at count
        rw [last]
        exact count.symm
    · rintro n ⟨prior,inside,rfl⟩
      rcases List.prefix_concat_iff.mp inside with rfl | old
      · rw [last]
        omega
      · exact (most ⟨prior,old,rfl⟩).trans grew.longer

end Peaks

-- Each slot is one live recorder's or free; the journal is as long as it had to
-- be; and the batches are the ledger's, whatever has been moved where.
theorem recorder_slots (run : (journalSystem checked workers).Each (journalSystem checked workers).allowed {} schedule) :
    let s := (journalSystem checked workers).follow {} schedule
    (∀ g h, g ≠ h → (s.journal.handles g).slots.Disjoint (s.journal.handles h).slots) ∧
      (∀ h, (s.journal.handles h).slots.Nodup) ∧
      (∀ slot < s.journal.slots.length,
        (∃! h, slot ∈ (s.journal.handles h).slots) ∧ slot ∉ s.journal.free ∨
          (∀ h, slot ∉ (s.journal.handles h).slots) ∧ s.journal.free.count slot = 1) ∧
      IsGreatest (Peaks checked workers schedule) s.journal.slots.length ∧
      (s.journal.outstanding = true ↔ ∃ h slot, slot ∈ (s.journal.handles h).slots) ∧
      s.batches = (MintLedger.replay s.events).batches ∧ ∀ batch ∈ s.batches, batch.Pairwise Command.Before := by
  intro s
  have kept : s.Kept := JournalRun.run_kept run JournalRun.kept_start
  have apart := kept.rests.apart
  refine ⟨?_,apart.once,?_,run_peak run,kept.rests.outstanding_iff,kept.batches,kept.ordered⟩
  · intro g h other slot one two
    exact other (apart.alone g h slot one two)
  · intro slot below
    by_cases free : slot ∈ s.journal.free
    · exact .inr ⟨fun h member => apart.loose h slot member free,List.count_eq_one_of_mem apart.freed free⟩
    · obtain ⟨h,member⟩ := (apart.covered slot below).resolve_left free
      exact .inl ⟨⟨h,member,fun g also => apart.alone g h slot also member⟩,free⟩

-- A recorder of two slots moves over one whose command is left in slot 0, and the
-- slot's next owner stages behind it.
def movedRecorders : List RecorderCall :=
  [.mint 0,.mintParallel 1,.stage 0 (-1),.construct 1 2,.stage 2 0,.assign 2 0,.mint 3,.stage 3 0,.assign 0 0,.stage 0 (-1),.cut]

theorem recorder_slots_moved :
    ((journalSystem true 1).follow {} movedRecorders).batches = [[⟨0,0,0,0⟩,⟨2,2,0,0⟩,⟨3,1,0,1⟩,⟨1,1,1,2⟩]] ∧
      IsGreatest (Peaks true 1 movedRecorders) 3 ∧
      ((journalSystem true 1).follow {} movedRecorders).batches =
        (MintLedger.replay ((journalSystem true 1).follow {} movedRecorders).events).batches := by
  have run : (journalSystem true 1).Each (journalSystem true 1).allowed {} movedRecorders := by decide
  obtain ⟨_,_,_,peak,_,batches,_⟩ := recorder_slots run
  exact ⟨by decide,peak,batches⟩

end Macrame

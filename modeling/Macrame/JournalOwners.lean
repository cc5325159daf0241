import Macrame.JournalLaws

namespace Macrame
namespace Journal

-- Every slot is on the free list once or in one handle once.
structure Apart (j : Journal) : Prop where
  freed : j.free.Nodup
  once : ∀ h, (j.handles h).slots.Nodup
  loose : ∀ h, ∀ slot ∈ (j.handles h).slots, slot ∉ j.free
  alone : ∀ g h slot, slot ∈ (j.handles g).slots → slot ∈ (j.handles h).slots → g = h
  covered : ∀ slot < j.slots.length, slot ∈ j.free ∨ ∃ h, slot ∈ (j.handles h).slots

section Owners

variable {j : Journal}

theorem apart_empty : Apart {} := by
  constructor <;> simp [Handle.slots]

-- Slots pass between the free list and one handle.
theorem Apart.exchanged (apart : Apart j) (h : HandleId) (handle : Handle) (free : List SlotId)
    (freed : free.Nodup) (once : handle.slots.Nodup) (loose : ∀ slot ∈ handle.slots, slot ∉ free)
    (same : ∀ slot, (slot ∈ free ∨ slot ∈ handle.slots) ↔ (slot ∈ j.free ∨ slot ∈ (j.handles h).slots)) :
    Apart {j with free := free,handles := Function.update j.handles h handle} := by
  have other : ∀ g slot, g ≠ h → slot ∈ (j.handles g).slots → slot ∉ free ∧ slot ∉ handle.slots := by
    intro g slot apart_ member
    have away : ¬(slot ∈ free ∨ slot ∈ handle.slots) := by
      rw [same]
      rintro (here | here)
      · exact apart.loose g slot member here
      · exact apart_ (apart.alone g h slot member here)
    exact not_or.mp away
  refine ⟨freed,?_,?_,?_,?_⟩
  · intro g
    by_cases mine : g = h
    · subst mine
      simpa only [Function.update_self] using once
    · simpa only [Function.update_of_ne mine] using apart.once g
  · intro g slot member
    by_cases mine : g = h
    · subst mine
      simp only [Function.update_self] at member
      exact loose slot member
    · simp only [Function.update_of_ne mine] at member
      exact (other g slot mine member).1
  · intro f g slot one two
    by_cases first : f = h <;> by_cases second : g = h
    · rw [first,second]
    · simp only [first,Function.update_self] at one
      simp only [Function.update_of_ne second] at two
      exact absurd one (other g slot second two).2
    · simp only [second,Function.update_self] at two
      simp only [Function.update_of_ne first] at one
      exact absurd two (other f slot first one).2
    · simp only [Function.update_of_ne first] at one
      simp only [Function.update_of_ne second] at two
      exact apart.alone f g slot one two
  · intro slot below
    have moved : ∀ owner, slot ∈ ((Function.update j.handles h handle) owner).slots →
        slot ∈ free ∨ ∃ h_1, slot ∈ ((Function.update j.handles h handle) h_1).slots := fun owner member => .inr ⟨owner,member⟩
    have passed : slot ∈ j.free ∨ slot ∈ (j.handles h).slots →
        slot ∈ free ∨ ∃ h_1, slot ∈ ((Function.update j.handles h handle) h_1).slots := by
      intro here
      rcases (same slot).mpr here with there | there
      · exact .inl there
      · exact moved h (by rw [Function.update_self]; exact there)
    rcases apart.covered slot below with here | ⟨g,member⟩
    · exact passed (.inl here)
    · by_cases mine : g = h
      · subst mine
        exact passed (.inr member)
      · exact moved g (by rw [Function.update_of_ne mine]; exact member)

theorem Apart.kept (apart : Apart j) (handles : k.handles = j.handles) (free : k.free = j.free)
    (slots : k.slots.length = j.slots.length) : Apart k := by
  obtain ⟨freed,once,loose,alone,covered⟩ := apart
  refine ⟨?_,?_,?_,?_,?_⟩ <;> simpa only [handles,free,slots]

-- A new slot, before it has an owner.
theorem Apart.grown (apart : Apart j) (homes : Homes j) :
    Apart {j with slots := j.slots++[[]],free := j.free++[j.slots.length]} := by
  refine ⟨?_,apart.once,?_,apart.alone,?_⟩
  · refine List.nodup_append.mpr ⟨apart.freed,List.nodup_singleton _,?_⟩
    intro slot member new last equal
    rw [List.mem_singleton.mp last] at equal
    exact Nat.lt_irrefl _ (equal ▸ homes.freed slot member)
  · intro h slot member free
    rcases List.mem_append.mp free with old | new
    · exact apart.loose h slot member old
    · exact Nat.lt_irrefl _ (List.mem_singleton.mp new ▸ homes.held h slot member)
  · intro slot below
    rw [List.length_append,List.length_singleton] at below
    by_cases last : slot = j.slots.length
    · exact .inl (List.mem_append_right _ (List.mem_singleton.mpr last))
    · rcases apart.covered slot (by omega) with free | owned
      · exact .inl (List.mem_append_left _ free)
      · exact .inr owned

-- The slot at the back of the free list goes to a handle.
theorem Apart.handed (apart : Apart j) (h : HandleId) (handle : Handle) (back : j.free = rest++[slot])
    (slots : handle.slots = (j.handles h).slots++[slot]) :
    Apart {j with free := rest,handles := Function.update j.handles h handle} := by
  have freed := apart.freed
  rw [back] at freed
  obtain ⟨kept,_,last⟩ := List.nodup_append.mp freed
  have here : slot ∈ j.free := by simp [back]
  have absent : slot ∉ (j.handles h).slots := fun member => apart.loose h slot member here
  refine apart.exchanged h handle rest kept ?_ ?_ ?_
  · rw [slots]
    refine List.nodup_append.mpr ⟨apart.once h,List.nodup_singleton _,?_⟩
    intro other member new mine equal
    rw [List.mem_singleton.mp mine] at equal
    exact absent (equal ▸ member)
  · intro other member free
    rw [slots] at member
    rcases List.mem_append.mp member with old | new
    · exact apart.loose h other old (by rw [back]; exact List.mem_append_left _ free)
    · exact last other free slot (List.mem_singleton_self _) (List.mem_singleton.mp new)
  · intro other
    simp only [slots,back,List.mem_append,List.mem_singleton]
    tauto

theorem Apart.added (apart : Apart j) (homes : Homes j) (added : j.addSlot checked = some (k,slot)) (h : HandleId)
    (handle : Handle) (slots : handle.slots = (j.handles h).slots++[slot]) : Apart (k.setHandle h handle) := by
  unfold addSlot at added
  split at added
  · rename_i top last
    cases added
    exact apart.handed h handle (List.dropLast_append_getLast? _ last).symm slots
  · split at added
    · cases added
    · rename_i none _
      cases added
      have grown := (apart.grown homes).handed h handle rfl slots
      exact grown.kept rfl rfl rfl

theorem recorder_apart (apart : Apart j) (homes : Homes j) (empty : j.handles h = .empty) : Apart (j.recorder checked h) := by
  unfold recorder
  split
  · rename_i k slot added
    refine (apart.added homes added h (.recorder j.mints slot) ?_).kept rfl rfl rfl
    rw [empty]
    rfl
  · exact apart

theorem mintLane_apart (apart : Apart j) (homes : Homes j) (h : HandleId) : Apart (j.mintLane checked workers h) := by
  unfold mintLane
  split
  · rename_i m ss k slot here added
    refine apart.added homes added h _ ?_
    rw [here]
    split <;> rfl
  · exact apart

-- A handle that is put in place of one with the same slots.
theorem Apart.renamed (apart : Apart j) (h : HandleId) (handle : Handle) (slots : handle.slots = (j.handles h).slots) :
    Apart (j.setHandle h handle) :=
  apart.exchanged h handle j.free apart.freed (slots ▸ apart.once h) (slots ▸ apart.loose h) (fun slot => by rw [slots])

theorem release_apart (apart : Apart j) (h : HandleId) : Apart (j.release h) := by
  unfold release
  split
  · rename_i none
    exact apart.renamed h .empty none.symm
  · exact apart.renamed h _ rfl

theorem releaseNext_apart (apart : Apart j) (h : HandleId) : Apart (j.releaseNext h) := by
  unfold releaseNext
  split
  · rename_i slot rest here
    have slots : (j.handles h).slots = slot :: rest := by rw [here]; rfl
    have once := apart.once h
    rw [slots] at once
    obtain ⟨absent,distinct⟩ := List.nodup_cons.mp once
    have away : slot ∉ j.free := apart.loose h slot (by rw [slots]; exact List.mem_cons_self)
    generalize filled : (if rest = [] then Handle.empty else .releasing rest) = next
    have left : next.slots = rest := by
      subst filled
      split
      · rename_i none
        exact none.symm
      · rfl
    refine apart.exchanged h next (j.free++[slot]) ?_ (left ▸ distinct) ?_ ?_
    · refine List.nodup_append.mpr ⟨apart.freed,List.nodup_singleton _,?_⟩
      intro other member new mine equal
      rw [List.mem_singleton.mp mine] at equal
      exact away (equal ▸ member)
    · intro other member free
      rw [left] at member
      rcases List.mem_append.mp free with old | new
      · exact apart.loose h other (by rw [slots]; exact List.mem_cons_of_mem _ member) old
      · exact absent (List.mem_singleton.mp new ▸ member)
    · intro other
      simp only [left,slots,List.mem_append,List.mem_cons]
      tauto
  · exact apart

-- The slots of a handle that is moved from pass through the free list.
theorem move_apart (apart : Apart j) (other : source ≠ target) (empty : (j.handles target).slots = []) :
    Apart (j.move source target) := by
  have distinct : (j.free++(j.handles source).slots).Nodup := by
    refine List.nodup_append.mpr ⟨apart.freed,apart.once source,?_⟩
    intro slot free member owned equal
    exact apart.loose source member owned (equal ▸ free)
  have emptied := apart.exchanged source .empty (j.free++(j.handles source).slots) distinct List.nodup_nil
    (fun slot member => absurd member List.not_mem_nil) (fun slot => by simp [Handle.slots])
  have bare : (Function.update j.handles source Handle.empty target).slots = [] := by
    rw [Function.update_of_ne (fun same => other same.symm)]
    exact empty
  have filled := emptied.exchanged target (j.handles source) j.free apart.freed (apart.once source) (apart.loose source)
    (fun slot => by simp [bare])
  refine filled.kept ?_ rfl rfl
  exact (Function.update_comm other ..).symm

end Owners

end Journal
end Macrame

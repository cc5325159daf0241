import Mathlib.Data.List.Nodup
import Macrame.Cancellation

namespace Macrame

def CancelFrame.loops : CancelFrame → Bool
  | .firing _ => true
  | .relocking => true
  | _ => false

namespace CancelState

-- An address stands for the callback that lives there, and the list holds those
-- not invoked yet.
structure Heap (s : CancelState) : Prop where
  occupied : ∀ a o, s.memory a = some o ↔ ∃ x, s.objects[o]? = some x ∧ x.address = a ∧ x.phase ≠ .destroyed
  listed : s.callbacks.Nodup
  live : ∀ a ∈ s.callbacks, ∃ o x, s.memory a = some o ∧ s.objects[o]? = some x ∧ x.phase = .live ∧ x.asked = false ∧ o ∉ s.fired

-- Who has been invoked, and what became of those registered at the request.
structure Firings (s : CancelState) : Prop where
  once : s.fired.Nodup
  known : ∀ o ∈ s.fired, o < s.objects.length
  asked : ∀ (o : Nat) x, s.objects[o]? = some x → x.asked = true → o ∈ s.fired
  owed : ∀ o ∈ s.fired, o ∈ s.popped ∨ ∃ x, s.objects[o]? = some x ∧ x.asked = true
  popped : ∀ o ∈ s.popped, o ∈ s.fired
  erased : ∀ o ∈ s.erased, o ∉ s.fired ∧ s.phase o = some .destroyed
  slate : s.requested = true → s.slate.Perm (s.popped++(s.erased++s.registered))
  quiet : s.requested = false → s.firing = none ∧ s.fired = [] ∧ s.slate = [] ∧ s.popped = [] ∧ s.erased = [] ∧ ∀ t, s.callStacks t = []
  tame : s.wild = false

-- What the threads are in: there is one loop, and a destructor waits for it on
-- another thread.
structure Threads (s : CancelState) : Prop where
  distinct : ∀ t, (s.callStacks t).Nodup
  invoking : ∀ t o, .invoking o ∈ s.callStacks t → s.phase o = some .constructing
  alone : ∀ t t' o, .invoking o ∈ s.callStacks t → .invoking o ∈ s.callStacks t' → t = t'
  firing : ∀ t o, .firing o ∈ s.callStacks t → o ∈ s.fired ∧ ∃ x, s.objects[o]? = some x ∧ s.firing = some x.address ∧
    (x.phase = .destroyed → x.destroyer = some t)
  looping : ∀ t f, f ∈ s.callStacks t → f.loops = true → s.firing ≠ none ∧ s.firingThread = some t
  single : ∀ t, ((s.callStacks t).filter CancelFrame.loops).length ≤ 1
  holder : s.firing ≠ none → s.firingThread ≠ none
  waiting : ∀ t o, .waiting o ∈ s.callStacks t → (∃ x, s.objects[o]? = some x ∧ x.phase = .destroying ∧ x.destroyer = some t) ∧
    ∃ l, s.firingThread = some l ∧ l ≠ t

-- The loop is over, or it has the list to itself.
def Looped (s : CancelState) : Prop := s.requested = true → s.firing = none → s.callbacks = []

structure Sound (s : CancelState) : Prop where
  heap : s.Heap
  firings : s.Firings
  threads : s.Threads
  looped : s.Looped

theorem initial_sound : Sound {} := by
  refine ⟨⟨?_,.nil,nofun⟩,⟨.nil,nofun,nofun,nofun,nofun,nofun,nofun,fun _ => ⟨rfl,rfl,rfl,rfl,rfl,fun _ => rfl⟩,rfl⟩,
    ⟨fun _ => .nil,nofun,nofun,nofun,nofun,fun _ => Nat.zero_le _,fun busy => absurd rfl busy,nofun⟩,nofun⟩
  intro a o
  exact ⟨nofun,fun ⟨_,there,_⟩ => nomatch there⟩

section Steps

variable {s u : CancelState}

theorem Heap.at_address (heap : s.Heap) (there : s.objects[o]? = some x) (alive : x.phase ≠ .destroyed) : s.memory x.address = some o :=
  (heap.occupied x.address o).mpr ⟨x,there,rfl,alive⟩

theorem phase_some (there : s.objects[o]? = some x) : s.phase o = some x.phase := by
  unfold phase
  rw [there]
  rfl

theorem some_phase (phase : s.phase o = some p) : ∃ x, s.objects[o]? = some x ∧ x.phase = p :=
  Option.map_eq_some_iff.mp phase

-- A callback's own fields change, and no other's.
theorem modified (change : CallbackObject → CallbackObject) {i o : Nat} : (s.modifyObject o change).objects[i]? = some x ↔
    ∃ y, s.objects[i]? = some y ∧ x = if i = o then change y else y := by
  change (s.objects.modify o change)[i]? = some x ↔ _
  rw [List.getElem?_modify]
  constructor
  · intro here
    obtain ⟨y,there,same⟩ := Option.map_eq_some_iff.mp here
    refine ⟨y,there,same.symm.trans ?_⟩
    by_cases at_ : o = i
    · rw [if_pos at_,if_pos at_.symm]
    · rw [if_neg at_,if_neg (Ne.symm at_)]
  · rintro ⟨y,there,rfl⟩
    rw [there]
    change some (if o = i then change y else y) = _
    by_cases at_ : o = i
    · rw [if_pos at_,if_pos at_.symm]
    · rw [if_neg at_,if_neg (Ne.symm at_)]

theorem placed {i : Nat} (o : CallbackObject) : (s.objects++[o])[i]? = some x ↔ s.objects[i]? = some x ∨ i = s.objects.length ∧ x = o := by
  rw [List.getElem?_append]
  split
  · rename_i below
    exact ⟨.inl,fun here => here.resolve_right (fun last => Nat.ne_of_lt below last.1)⟩
  · rename_i overrun
    have none : s.objects[i]? = none := List.getElem?_eq_none_iff.mpr (Nat.le_of_not_lt overrun)
    rw [none,List.getElem?_singleton]
    constructor
    · intro here
      split at here
      · cases here
        exact .inr ⟨by omega,rfl⟩
      · cases here
    · rintro (old | ⟨last,rfl⟩)
      · cases old
      · rw [if_pos (by omega)]

theorem registered_congr (callbacks : u.callbacks = s.callbacks) (memory : ∀ a ∈ s.callbacks, u.memory a = s.memory a) :
    u.registered = s.registered := by
  unfold registered
  rw [callbacks]
  exact List.filterMap_congr memory

theorem stacks_set (s : CancelState) (t t' : CancelThread) (frames : List CancelFrame) :
    (s.setStack t frames).callStacks t' = if t' = t then frames else s.callStacks t' := by
  by_cases same : t' = t
  · rw [if_pos same,same]
    exact Function.update_self ..
  · rw [if_neg same]
    exact Function.update_of_ne same ..

-- The addresses in use, with a new object at one that was free.
theorem Sound.placed_occupied {phase : CallbackPhase} (sound : s.Sound) (vacant : s.memory a = none) (asked : Bool)
    (alive : phase ≠ .destroyed) (a' : CallbackAddress) (o : CallbackId) : Function.update s.memory a (some s.objects.length) a' = some o ↔
      ∃ x, (s.objects++[⟨a,asked,phase,none⟩])[o]? = some x ∧ x.address = a' ∧ x.phase ≠ .destroyed := by
  constructor
  · intro here
    by_cases at_ : a' = a
    · rw [at_,Function.update_self] at here
      cases here
      exact ⟨_,(placed _).mpr (.inr ⟨rfl,rfl⟩),at_.symm,alive⟩
    · rw [Function.update_of_ne at_] at here
      obtain ⟨x,there,rest⟩ := (sound.heap.occupied a' o).mp here
      exact ⟨x,(placed _).mpr (.inl there),rest⟩
  · rintro ⟨x,there,address,living⟩
    rcases (placed _).mp there with old | ⟨rfl,rfl⟩
    · have here := (sound.heap.occupied a' o).mpr ⟨x,old,address,living⟩
      by_cases at_ : a' = a
      · rw [at_,vacant] at here
        cases here
      · rwa [Function.update_of_ne at_]
    · rw [← address]
      exact Function.update_self ..

-- A new object is none of those that are there.
theorem unfired_still {x : CallbackObject} (there : s.objects[o]? = some x) (unfired : o ∉ s.fired) :
    o ∉ s.fired++[s.objects.length] := by
  intro fired
  rcases List.mem_append.mp fired with old | last
  · exact unfired old
  · rw [List.mem_singleton.mp last] at there
    exact Nat.lt_irrefl _ (List.getElem?_eq_some_iff.mp there).1

theorem construct_sound (sound : s.Sound) (vacant : s.memory a = none) : (s.construct t a).Sound := by
  have fresh : ∀ x, s.objects[s.objects.length]? ≠ some x := by
    intro x here
    exact Nat.lt_irrefl _ (List.getElem?_eq_some_iff.mp here).1
  have absent : a ∉ s.callbacks := by
    intro member
    obtain ⟨o,x,here,-⟩ := sound.heap.live a member
    rw [vacant] at here
    cases here
  have occupied (asked : Bool) {phase : CallbackPhase} (alive : phase ≠ .destroyed) := sound.placed_occupied vacant asked alive
  have unknown : s.objects.length ∉ s.fired := fun member => Nat.lt_irrefl _ (sound.firings.known _ member)
  have kept : ∀ a' ∈ s.callbacks, Function.update s.memory a (some s.objects.length) a' = s.memory a' := by
    intro a' member
    refine Function.update_of_ne ?_ ..
    rintro rfl
    exact absent member
  by_cases requested : s.requested = true
  · have same : s.construct t a = {({s with memory := Function.update s.memory a (some s.objects.length)}.setStack t
        (.invoking s.objects.length :: s.callStacks t)) with
        objects := s.objects++[⟨a,true,.constructing,none⟩],fired := s.fired++[s.objects.length]} := if_pos requested
    have frames : ∀ t' f, f ∈ (s.construct t a).callStacks t' → f ∈ s.callStacks t' ∨ t' = t ∧ f = .invoking s.objects.length := by
      intro t' f member
      rw [same] at member
      change f ∈ Function.update s.callStacks t (.invoking s.objects.length :: s.callStacks t) t' at member
      by_cases at_ : t' = t
      · rw [at_,Function.update_self] at member
        rcases List.mem_cons.mp member with new | old
        · exact .inr ⟨at_,new⟩
        · rw [at_]
          exact .inl old
      · rw [Function.update_of_ne at_] at member
        exact .inl member
    have grown : ∀ o p, s.phase o = some p → (s.construct t a).phase o = some p := by
      intro o p here
      obtain ⟨x,there,rfl⟩ := some_phase here
      rw [same]
      exact phase_some ((placed _).mpr (.inl there))
    have new : ∀ t', .invoking s.objects.length ∉ s.callStacks t' := by
      intro t' member
      obtain ⟨x,there,-⟩ := some_phase (sound.threads.invoking t' _ member)
      exact fresh x there
    have stack : ∀ t', (s.construct t a).callStacks t' = if t' = t then .invoking s.objects.length :: s.callStacks t else s.callStacks t' := by
      rw [same]
      exact fun t' => stacks_set {s with memory := Function.update s.memory a (some s.objects.length)} t t' _
    refine ⟨?_,?_,⟨?_,?_,?_,?_,?_,?_,?_,?_⟩,?_⟩
    · rw [same]
      refine ⟨occupied true nofun,sound.heap.listed,?_⟩
      intro a' member
      obtain ⟨o,x,here,there,live,unasked,unfired⟩ := sound.heap.live a' member
      exact ⟨o,x,(kept a' member).trans here,(placed _).mpr (.inl there),live,unasked,unfired_still there unfired⟩
    · rw [same]
      refine ⟨?_,?_,?_,?_,?_,?_,?_,?_,sound.firings.tame⟩
      · refine sound.firings.once.append (List.nodup_singleton _) ?_
        intro o old last
        rw [List.mem_singleton.mp last] at old
        exact unknown old
      · intro o member
        change o < (s.objects++[_]).length
        rw [List.length_append]
        rcases List.mem_append.mp member with old | last
        · exact Nat.lt_succ_of_lt (sound.firings.known o old)
        · rw [List.mem_singleton.mp last]
          exact Nat.lt_succ_self _
      · intro o x there asked
        rcases (placed _).mp there with old | ⟨rfl,-⟩
        · exact List.mem_append_left _ (sound.firings.asked o x old asked)
        · exact List.mem_append_right _ (List.mem_singleton_self _)
      · intro o member
        rcases List.mem_append.mp member with old | last
        · rcases sound.firings.owed o old with taken | ⟨x,there,asked⟩
          · exact .inl taken
          · exact .inr ⟨x,(placed _).mpr (.inl there),asked⟩
        · exact .inr ⟨_,(placed _).mpr (.inr ⟨List.mem_singleton.mp last,rfl⟩),rfl⟩
      · exact fun o member => List.mem_append_left _ (sound.firings.popped o member)
      · intro o member
        obtain ⟨unfired,gone⟩ := sound.firings.erased o member
        obtain ⟨x,there,dead⟩ := some_phase gone
        exact ⟨unfired_still there unfired,(phase_some ((placed _).mpr (.inl there))).trans (congrArg some dead)⟩
      · intro _
        change s.slate.Perm (s.popped++(s.erased++s.callbacks.filterMap (Function.update s.memory a (some s.objects.length))))
        rw [List.filterMap_congr kept]
        exact sound.firings.slate requested
      · intro waits
        change s.requested = false at waits
        rw [requested] at waits
        cases waits
    · intro t'
      rw [stack]
      split
      · rename_i at_
        exact List.nodup_cons.mpr ⟨new t,sound.threads.distinct t⟩
      · exact sound.threads.distinct t'
    · intro t' o member
      rcases frames t' _ member with old | ⟨-,last⟩
      · exact grown o _ (sound.threads.invoking t' o old)
      · cases last
        rw [same]
        change ((s.objects++[_])[s.objects.length]?).map CallbackObject.phase = _
        rw [(placed _).mpr (.inr ⟨rfl,rfl⟩)]
        rfl
    · intro t' t'' o one two
      rcases frames t' _ one with old | ⟨at_,last⟩
      · rcases frames t'' _ two with prior | ⟨-,last⟩
        · exact sound.threads.alone t' t'' o old prior
        · cases last
          exact absurd old (new t')
      · cases last
        rcases frames t'' _ two with prior | ⟨there,-⟩
        · exact absurd prior (new t'')
        · exact at_.trans there.symm
    · intro t' o member
      rcases frames t' _ member with old | ⟨-,last⟩
      · obtain ⟨fired,x,there,rest⟩ := sound.threads.firing t' o old
        rw [same]
        exact ⟨List.mem_append_left _ fired,x,(placed _).mpr (.inl there),rest⟩
      · cases last
    · intro t' f member loops
      rcases frames t' _ member with old | ⟨-,rfl⟩
      · rw [same]
        exact sound.threads.looping t' f old loops
      · cases loops
    · intro t'
      rw [stack]
      split
      · exact sound.threads.single t
      · exact sound.threads.single t'
    · rw [same]
      exact sound.threads.holder
    · intro t' o member
      rcases frames t' _ member with old | ⟨-,last⟩
      · obtain ⟨⟨x,there,rest⟩,apart⟩ := sound.threads.waiting t' o old
        rw [same]
        exact ⟨⟨x,(placed _).mpr (.inl there),rest⟩,apart⟩
      · cases last
    · rw [same]
      exact sound.looped
  · have same : s.construct t a = {s with
        memory := Function.update s.memory a (some s.objects.length)
        objects := s.objects++[⟨a,false,.live,none⟩],callbacks := s.callbacks++[a]} := if_neg requested
    have waits : s.requested = false := by simpa using requested
    obtain ⟨firing,fired,slate,popped,erased,callStacks⟩ := sound.firings.quiet waits
    have empty : ∀ t' f, f ∉ s.callStacks t' := by
      intro t' f member
      rw [callStacks t'] at member
      cases member
    rw [same]
    refine ⟨⟨occupied false nofun,?_,?_⟩,⟨sound.firings.once,?_,?_,?_,sound.firings.popped,?_,?_,sound.firings.quiet,sound.firings.tame⟩,
      ⟨sound.threads.distinct,?_,sound.threads.alone,?_,sound.threads.looping,sound.threads.single,sound.threads.holder,?_⟩,?_⟩
    · refine sound.heap.listed.append (List.nodup_singleton _) ?_
      intro a' old last
      rw [List.mem_singleton.mp last] at old
      exact absent old
    · intro a' member
      rcases List.mem_append.mp member with old | last
      · obtain ⟨o,x,here,there,rest⟩ := sound.heap.live a' old
        exact ⟨o,x,(kept a' old).trans here,(placed _).mpr (.inl there),rest⟩
      · rw [List.mem_singleton.mp last]
        exact ⟨_,_,Function.update_self ..,(placed _).mpr (.inr ⟨rfl,rfl⟩),rfl,rfl,unknown⟩
    · intro o member
      change o ∈ s.fired at member
      rw [fired] at member
      cases member
    · intro o x there asked
      rcases (placed _).mp there with old | ⟨-,rfl⟩
      · exact sound.firings.asked o x old asked
      · cases asked
    · intro o member
      change o ∈ s.fired at member
      rw [fired] at member
      cases member
    · intro o member
      change o ∈ s.erased at member
      rw [erased] at member
      cases member
    · intro now
      exact absurd now requested
    · exact fun t' o member => absurd member (empty t' _)
    · exact fun t' o member => absurd member (empty t' _)
    · exact fun t' o member => absurd member (empty t' _)
    · intro now
      exact absurd now requested

theorem requested_of (firings : s.Firings) (member : f ∈ s.callStacks t) : s.requested = true := by
  by_contra waits
  have callStacks := (firings.quiet (by simpa using waits)).2.2.2.2.2 t
  rw [callStacks] at member
  cases member

theorem Heap.restacked (heap : s.Heap) (t : CancelThread) (frames : List CancelFrame) : (s.setStack t frames).Heap :=
  ⟨heap.occupied,heap.listed,heap.live⟩

theorem Firings.restacked (firings : s.Firings) (requested : s.requested = true) (t : CancelThread) (frames : List CancelFrame) :
    (s.setStack t frames).Firings := by
  refine ⟨firings.once,firings.known,firings.asked,firings.owed,firings.popped,firings.erased,firings.slate,?_,firings.tame⟩
  intro waits
  change s.requested = false at waits
  rw [requested] at waits
  cases waits

-- One callback that is neither gone nor on the list goes on to another phase.
theorem Heap.touched (heap : s.Heap) (change : CallbackObject → CallbackObject) (there : s.objects[o]? = some y) (address : (change y).address = y.address)
    (alive : y.phase ≠ .destroyed) (after : (change y).phase ≠ .destroyed) (apart : ∀ a ∈ s.callbacks, s.memory a ≠ some o) :
    (s.modifyObject o change).Heap := by
  refine ⟨?_,heap.listed,?_⟩
  · intro a i
    refine (heap.occupied a i).trans ?_
    constructor
    · rintro ⟨x,here,home,living⟩
      refine ⟨_,(modified change).mpr ⟨x,here,rfl⟩,?_⟩
      split
      · rename_i at_
        rw [at_,there] at here
        cases here
        exact ⟨address.trans home,after⟩
      · exact ⟨home,living⟩
    · rintro ⟨x,here,home,living⟩
      obtain ⟨z,old,rfl⟩ := (modified change).mp here
      split at home
      · rename_i at_
        rw [at_,there] at old
        cases old
        exact ⟨y,by rw [at_]; exact there,address.symm.trans home,alive⟩
      · rename_i other
        rw [if_neg other] at living
        exact ⟨z,old,home,living⟩
  · intro a member
    obtain ⟨i,x,here,found,rest⟩ := heap.live a member
    have other : i ≠ o := by
      rintro rfl
      exact apart a member here
    exact ⟨i,x,here,(modified change).mpr ⟨x,found,(if_neg other).symm⟩,rest⟩

theorem phase_other {change : CallbackObject → CallbackObject} (other : i ≠ o) : (s.modifyObject o change).phase i = s.phase i := by
  change ((s.objects.modify o change)[i]?).map _ = _
  rw [List.getElem?_modify]
  unfold phase
  cases s.objects[i]? with
  | none => rfl
  | some x => exact congrArg (fun y : CallbackObject => some y.phase) (if_neg (Ne.symm other))

theorem Firings.touched (firings : s.Firings) (change : CallbackObject → CallbackObject) (there : s.objects[o]? = some y) (asked : (change y).asked = y.asked)
    (kept : y.phase = .destroyed → (change y).phase = .destroyed) : (s.modifyObject o change).Firings := by
  refine ⟨firings.once,?_,?_,?_,firings.popped,?_,firings.slate,firings.quiet,firings.tame⟩
  · intro i member
    change i < (s.objects.modify o change).length
    rw [List.length_modify]
    exact firings.known i member
  · intro i x here now
    obtain ⟨z,old,rfl⟩ := (modified change).mp here
    refine firings.asked i z old ?_
    split at now
    · rename_i at_
      rw [at_,there] at old
      cases old
      exact asked.symm.trans now
    · exact now
  · intro i member
    rcases firings.owed i member with taken | ⟨x,here,now⟩
    · exact .inl taken
    · refine .inr ⟨_,(modified change).mpr ⟨x,here,rfl⟩,?_⟩
      split
      · rename_i at_
        rw [at_,there] at here
        cases here
        exact asked.trans now
      · exact now
  · intro i member
    obtain ⟨unfired,gone⟩ := firings.erased i member
    refine ⟨unfired,?_⟩
    obtain ⟨x,here,dead⟩ := some_phase gone
    refine (phase_some ((modified change).mpr ⟨x,here,rfl⟩)).trans (congrArg some ?_)
    split
    · rename_i at_
      rw [at_,there] at here
      cases here
      exact kept dead
    · exact dead

-- A thread leaves its innermost frame, and perhaps enters another.
theorem Threads.restacked (threads : s.Threads) (distinct : frames.Nodup)
    (invoking : ∀ o, .invoking o ∈ frames → .invoking o ∈ s.callStacks t) (firing : ∀ o, .firing o ∈ frames → .firing o ∈ s.callStacks t)
    (looping : ∀ f ∈ frames, f.loops = true → s.firing ≠ none ∧ s.firingThread = some t)
    (single : (frames.filter CancelFrame.loops).length ≤ 1) (waiting : ∀ o, .waiting o ∈ frames → .waiting o ∈ s.callStacks t) :
    (s.setStack t frames).Threads := by
  have cases_ : ∀ t' f, f ∈ (s.setStack t frames).callStacks t' → (t' = t ∧ f ∈ frames) ∨ t' ≠ t ∧ f ∈ s.callStacks t' := by
    intro t' f member
    rw [stacks_set] at member
    split at member
    · rename_i at_
      exact .inl ⟨at_,member⟩
    · rename_i other
      exact .inr ⟨other,member⟩
  refine ⟨?_,?_,?_,?_,?_,?_,threads.holder,?_⟩
  · intro t'
    rw [stacks_set]
    split
    · exact distinct
    · exact threads.distinct t'
  · intro t' o member
    rcases cases_ t' _ member with ⟨rfl,inside⟩ | ⟨-,old⟩
    · exact threads.invoking _ o (invoking o inside)
    · exact threads.invoking t' o old
  · intro t' t'' o one two
    have first : .invoking o ∈ s.callStacks t' := by
      rcases cases_ t' _ one with ⟨rfl,inside⟩ | ⟨-,old⟩
      · exact invoking o inside
      · exact old
    have second : .invoking o ∈ s.callStacks t'' := by
      rcases cases_ t'' _ two with ⟨rfl,inside⟩ | ⟨-,old⟩
      · exact invoking o inside
      · exact old
    exact threads.alone t' t'' o first second
  · intro t' o member
    rcases cases_ t' _ member with ⟨rfl,inside⟩ | ⟨-,old⟩
    · exact threads.firing _ o (firing o inside)
    · exact threads.firing t' o old
  · intro t' f member loops
    rcases cases_ t' _ member with ⟨rfl,inside⟩ | ⟨-,old⟩
    · exact looping f inside loops
    · exact threads.looping t' f old loops
  · intro t'
    rw [stacks_set]
    split
    · exact single
    · exact threads.single t'
  · intro t' o member
    rcases cases_ t' _ member with ⟨rfl,inside⟩ | ⟨-,old⟩
    · exact threads.waiting _ o (waiting o inside)
    · exact threads.waiting t' o old

-- One callback's phase changes under the threads.
theorem Threads.touched (threads : s.Threads) (change : CallbackObject → CallbackObject) (there : s.objects[o]? = some y)
    (address : (change y).address = y.address) (idle : ∀ t, .invoking o ∉ s.callStacks t) (awake : ∀ t, .waiting o ∉ s.callStacks t)
    (firing : ∀ t, .firing o ∈ s.callStacks t → (change y).phase = .destroyed → (change y).destroyer = some t) :
    (s.modifyObject o change).Threads := by
  refine ⟨threads.distinct,?_,threads.alone,?_,threads.looping,threads.single,threads.holder,?_⟩
  · intro t i member
    rw [phase_other (by rintro rfl; exact idle t member)]
    exact threads.invoking t i member
  · intro t i member
    obtain ⟨fired,x,here,home,gone⟩ := threads.firing t i member
    refine ⟨fired,_,(modified change).mpr ⟨x,here,rfl⟩,?_⟩
    split
    · rename_i at_
      rw [at_,there] at here
      cases here
      rw [at_] at member
      exact ⟨home.trans (congrArg some address.symm),firing t member⟩
    · exact ⟨home,gone⟩
  · intro t i member
    obtain ⟨⟨x,here,rest⟩,apart⟩ := threads.waiting t i member
    have other : i ≠ o := by
      rintro rfl
      exact awake t member
    exact ⟨⟨x,(modified change).mpr ⟨x,here,(if_neg other).symm⟩,rest⟩,apart⟩

theorem finish_sound (sound : s.Sound) (done : s.returns t = true) : (s.finish t).Sound := by
  unfold returns at done
  unfold finish
  cases stack : s.callStacks t with
  | nil => rw [stack] at done; cases done
  | cons f rest =>
    have distinct := sound.threads.distinct t
    have single := sound.threads.single t
    rw [stack] at done distinct single
    obtain ⟨alone,others⟩ := List.nodup_cons.mp distinct
    have within : ∀ g, g ∈ rest → g ∈ s.callStacks t := by
      intro g member
      rw [stack]
      exact List.mem_cons_of_mem _ member
    have top : f ∈ s.callStacks t := by
      rw [stack]
      exact List.mem_cons_self
    have requested := requested_of sound.firings top
    cases f with
    | relocking => cases done
    | waiting o => cases done
    | invoking o =>
      obtain ⟨y,there,phase⟩ := some_phase (sound.threads.invoking t o top)
      have alive : y.phase ≠ .destroyed := by rw [phase]; nofun
      have lively : CallbackPhase.live ≠ .destroyed := nofun
      have apart : ∀ a ∈ s.callbacks, s.memory a ≠ some o := by
        intro a member here
        obtain ⟨i,x,at_,found,live,-⟩ := sound.heap.live a member
        obtain rfl : i = o := Option.some.inj (at_.symm.trans here)
        obtain rfl : x = y := Option.some.inj (found.symm.trans there)
        rw [phase] at live
        cases live
      have popped := sound.threads.restacked (t := t) others (fun o => within _) (fun o => within _)
        (fun f member => sound.threads.looping t f (within f member)) single (fun o => within _)
      -- the frame left was the only one of this callback
      have left : ∀ t', .invoking o ∉ (s.setStack t rest).callStacks t' := by
        intro t' member
        rw [stacks_set] at member
        split at member
        · exact alone member
        · rename_i other
          exact other (sound.threads.alone t' t o member top)
      have awake : ∀ t', .waiting o ∉ (s.setStack t rest).callStacks t' := by
        intro t' member
        obtain ⟨⟨x,found,destroying,-⟩,-⟩ := popped.waiting t' o member
        obtain rfl : x = y := Option.some.inj (found.symm.trans there)
        rw [phase] at destroying
        cases destroying
      have touched := popped.touched (fun x => {x with phase := .live}) there rfl left awake (fun _ _ dead => absurd dead lively)
      exact ⟨(sound.heap.touched _ there rfl alive lively apart).restacked t rest,
        (sound.firings.touched _ there rfl (fun gone => absurd gone alive)).restacked requested t rest,
        ⟨touched.distinct,touched.invoking,touched.alone,touched.firing,touched.looping,touched.single,touched.holder,touched.waiting⟩,
        sound.looped⟩
    | firing o =>
      have none_left : rest.filter CancelFrame.loops = [] := by
        rw [List.filter_cons_of_pos rfl] at single
        exact List.length_eq_zero_iff.mp (Nat.le_zero.mp (Nat.le_of_succ_le_succ single))
      have looping := sound.threads.looping t _ top rfl
      refine ⟨sound.heap.restacked t _,sound.firings.restacked requested t _,sound.threads.restacked ?_ ?_ ?_ ?_ ?_ ?_,sound.looped⟩
      · refine List.nodup_cons.mpr ⟨?_,others⟩
        intro member
        exact List.filter_eq_nil_iff.mp none_left _ member rfl
      · intro i member
        exact within _ ((List.mem_cons.mp member).resolve_left nofun)
      · intro i member
        exact within _ ((List.mem_cons.mp member).resolve_left nofun)
      · exact fun _ _ _ => looping
      · rw [List.filter_cons_of_pos rfl,none_left]
        exact Nat.le_refl 1
      · intro i member
        exact within _ ((List.mem_cons.mp member).resolve_left nofun)

-- The head of the loop, with no callback under way.
theorem turn_sound (heap : s.Heap) (firings : s.Firings) (threads : (s.setStack t rest).Threads) (requested : s.requested = true)
    (overrun : s.firing = none) (mine : s.firingThread = some t ∨ ∀ t' o, .waiting o ∉ (s.setStack t rest).callStacks t') :
    (s.turn t rest).Sound := by
  have none_loops : ∀ t' f, f ∈ (s.setStack t rest).callStacks t' → f.loops ≠ true :=
    fun t' f member loops => (threads.looping t' f member loops).1 overrun
  unfold turn
  cases last : s.callbacks.getLast? with
  | none => exact ⟨heap.restacked t rest,firings.restacked requested t rest,threads,fun _ _ => List.getLast?_eq_none_iff.mp last⟩
  | some a =>
    obtain ⟨before,split_⟩ := List.getLast?_eq_some_iff.mp last
    have member : a ∈ s.callbacks := by
      rw [split_]
      exact List.mem_append_right _ (List.mem_singleton_self a)
    have dropped : s.callbacks.dropLast = before := by
      rw [split_]
      exact List.dropLast_concat ..
    have listed := heap.listed
    rw [split_] at listed
    obtain ⟨o,x,here,there,live,unasked,unfired⟩ := heap.live a member
    have address : x.address = a := by
      obtain ⟨x',there',home,-⟩ := (heap.occupied a o).mp here
      obtain rfl : x = x' := Option.some.inj (there.symm.trans there')
      exact home
    dsimp only
    rw [here,dropped]
    dsimp only
    have frames : ∀ t' f, f ∈ Function.update s.callStacks t (.firing o :: rest) t' → f = .firing o ∧ t' = t ∨ f ∈ (s.setStack t rest).callStacks t' := by
      intro t' f inside
      rw [stacks_set]
      by_cases at_ : t' = t
      · rw [at_,Function.update_self] at inside
        rw [if_pos at_]
        exact (List.mem_cons.mp inside).imp_left (fun same => ⟨same,at_⟩)
      · rw [Function.update_of_ne at_] at inside
        rw [if_neg at_]
        exact .inr inside
    have stack : ∀ t', Function.update s.callStacks t (.firing o :: rest) t' =
        if t' = t then .firing o :: (s.setStack t rest).callStacks t' else (s.setStack t rest).callStacks t' := by
      intro t'
      rw [stacks_set]
      by_cases at_ : t' = t
      · rw [if_pos at_,if_pos at_,at_,Function.update_self]
      · rw [if_neg at_,if_neg at_,Function.update_of_ne at_]
    refine ⟨⟨heap.occupied,(List.nodup_append.mp listed).1,?_⟩,⟨?_,?_,?_,?_,?_,?_,?_,?_,firings.tame⟩,
      ⟨?_,?_,?_,?_,?_,?_,nofun,?_⟩,nofun⟩
    · intro b inside
      have there_ : b ∈ s.callbacks := by
        rw [split_]
        exact List.mem_append_left _ inside
      obtain ⟨i,z,home,found,alive,quiet,waits⟩ := heap.live b there_
      refine ⟨i,z,home,found,alive,quiet,?_⟩
      intro fired
      rcases List.mem_append.mp fired with old | now
      · exact waits old
      · rw [List.mem_singleton.mp now] at home
        obtain ⟨z',found',address',-⟩ := (heap.occupied b o).mp home
        obtain rfl : x = z' := Option.some.inj (there.symm.trans found')
        exact (List.nodup_append.mp listed).2.2 b inside a (List.mem_singleton_self a) (address'.symm.trans address)
    · refine firings.once.append (List.nodup_singleton _) ?_
      intro i old now
      rw [List.mem_singleton.mp now] at old
      exact unfired old
    · intro i inside
      rcases List.mem_append.mp inside with old | now
      · exact firings.known i old
      · rw [List.mem_singleton.mp now]
        exact (List.getElem?_eq_some_iff.mp there).1
    · exact fun i z found asked => List.mem_append_left _ (firings.asked i z found asked)
    · intro i inside
      rcases List.mem_append.mp inside with old | now
      · exact (firings.owed i old).imp_left (List.mem_append_left _)
      · exact .inl (List.mem_append_right _ now)
    · intro i inside
      rcases List.mem_append.mp inside with old | now
      · exact List.mem_append_left _ (firings.popped i old)
      · exact List.mem_append_right _ now
    · intro i inside
      obtain ⟨waits,gone⟩ := firings.erased i inside
      refine ⟨?_,gone⟩
      intro fired
      rcases List.mem_append.mp fired with old | now
      · exact waits old
      · rw [List.mem_singleton.mp now,phase_some there,live] at gone
        cases gone
    · intro _
      refine (firings.slate requested).trans ?_
      have all : s.registered = before.filterMap s.memory++[o] := by
        unfold registered
        rw [split_,List.filterMap_append,List.filterMap_cons_some here]
        rfl
      change (s.popped++(s.erased++s.registered)).Perm ((s.popped++[o])++(s.erased++before.filterMap s.memory))
      rw [all,List.append_assoc]
      refine List.Perm.append_left _ ?_
      rw [← List.append_assoc]
      exact List.perm_append_comm
    · intro waits
      change s.requested = false at waits
      rw [requested] at waits
      cases waits
    · intro t'
      change (Function.update s.callStacks t (.firing o :: rest) t').Nodup
      rw [stack]
      split
      · exact List.nodup_cons.mpr ⟨fun inside => none_loops t' _ inside rfl,threads.distinct t'⟩
      · exact threads.distinct t'
    · intro t' i inside
      rcases frames t' _ inside with ⟨new,-⟩ | old
      · cases new
      · exact threads.invoking t' i old
    · intro t' t'' i one two
      rcases frames t' _ one with ⟨new,-⟩ | old
      · cases new
      · rcases frames t'' _ two with ⟨new,-⟩ | prior
        · cases new
        · exact threads.alone t' t'' i old prior
    · intro t' i inside
      rcases frames t' _ inside with ⟨new,-⟩ | old
      · cases new
        refine ⟨List.mem_append_right _ (List.mem_singleton_self _),x,there,congrArg some address.symm,?_⟩
        intro gone
        rw [live] at gone
        cases gone
      · exact absurd rfl (none_loops t' _ old)
    · intro t' f inside loops
      rcases frames t' _ inside with ⟨-,at_⟩ | old
      · exact ⟨nofun,congrArg some at_.symm⟩
      · exact absurd loops (none_loops t' _ old)
    · intro t'
      change ((Function.update s.callStacks t (.firing o :: rest) t').filter CancelFrame.loops).length ≤ 1
      have empty : ((s.setStack t rest).callStacks t').filter CancelFrame.loops = [] :=
        List.filter_eq_nil_iff.mpr (none_loops t')
      rw [stack]
      split
      · rw [List.filter_cons_of_pos rfl,empty]
        exact Nat.le_refl 1
      · rw [empty]
        exact Nat.zero_le 1
    · intro t' i inside
      rcases frames t' _ inside with ⟨new,-⟩ | old
      · cases new
      · obtain ⟨found,l,holder,other⟩ := threads.waiting t' i old
        rcases mine with same | none
        · change s.firingThread = some l at holder
          rw [same] at holder
          cases holder
          exact ⟨found,t,rfl,other⟩
        · exact absurd old (none t' i)

theorem requestCancel_sound (sound : s.Sound) (t : CancelThread) : (s.requestCancel t).Sound := by
  unfold requestCancel
  split
  · exact sound
  · rename_i waits
    obtain ⟨firing,fired,slate,popped,erased,callStacks⟩ := sound.firings.quiet (by simpa using waits)
    have empty : ∀ t' f, f ∉ s.callStacks t' := by
      intro t' f member
      rw [callStacks t'] at member
      cases member
    have same : ∀ t', ({s with requested := true,slate := s.registered}.setStack t (s.callStacks t)).callStacks t' = s.callStacks t' := by
      intro t'
      rw [stacks_set]
      split
      · rename_i at_
        rw [at_]
      · rfl
    refine turn_sound ⟨sound.heap.occupied,sound.heap.listed,sound.heap.live⟩
      ⟨sound.firings.once,sound.firings.known,sound.firings.asked,sound.firings.owed,sound.firings.popped,sound.firings.erased,?_,nofun,
        sound.firings.tame⟩ ⟨?_,?_,?_,?_,?_,?_,sound.threads.holder,?_⟩ rfl firing (.inr ?_)
    · intro _
      change s.registered.Perm (s.popped++(s.erased++s.registered))
      rw [popped,erased]
      exact List.Perm.refl _
    · exact fun t' => by rw [same]; exact sound.threads.distinct t'
    · exact fun t' o member => by rw [same] at member; exact absurd member (empty t' _)
    · exact fun t' t'' o member => by rw [same] at member; exact absurd member (empty t' _)
    · exact fun t' o member => by rw [same] at member; exact absurd member (empty t' _)
    · exact fun t' f member => by rw [same] at member; exact absurd member (empty t' _)
    · exact fun t' => by rw [same]; exact sound.threads.single t'
    · exact fun t' o member => by rw [same] at member; exact absurd member (empty t' _)
    · exact fun t' o member => by rw [same] at member; exact empty t' _ member

theorem relock_sound (sound : s.Sound) (top : (s.callStacks t).head? = some .relocking) : (s.relock t).Sound := by
  unfold relock
  obtain ⟨rest,stack⟩ := List.head?_eq_some_iff.mp top
  rw [stack]
  have distinct := sound.threads.distinct t
  have single := sound.threads.single t
  rw [stack] at distinct single
  have others := (List.nodup_cons.mp distinct).2
  have within : ∀ g, g ∈ rest → g ∈ s.callStacks t := by
    intro g member
    rw [stack]
    exact List.mem_cons_of_mem _ member
  have here : .relocking ∈ s.callStacks t := by
    rw [stack]
    exact List.mem_cons_self
  have requested := requested_of sound.firings here
  have none_left : rest.filter CancelFrame.loops = [] := by
    rw [List.filter_cons_of_pos rfl] at single
    exact List.length_eq_zero_iff.mp (Nat.le_zero.mp (Nat.le_of_succ_le_succ single))
  have mine := (sound.threads.looping t _ here rfl).2
  have popped := sound.threads.restacked (t := t) others (fun o => within _) (fun o => within _)
    (fun f member => sound.threads.looping t f (within f member)) (by rw [none_left]; exact Nat.zero_le 1) (fun o => within _)
  -- the loop was the only one
  have done : ∀ t' f, f ∈ (s.setStack t rest).callStacks t' → f.loops ≠ true := by
    intro t' f member loops
    have at_ : t' = t := Option.some.inj ((popped.looping t' f member loops).2.symm.trans mine)
    rw [stacks_set,if_pos at_] at member
    exact List.filter_eq_nil_iff.mp none_left f member loops
  refine turn_sound ⟨sound.heap.occupied,sound.heap.listed,sound.heap.live⟩
    ⟨sound.firings.once,sound.firings.known,sound.firings.asked,sound.firings.owed,sound.firings.popped,sound.firings.erased,
      sound.firings.slate,?_,sound.firings.tame⟩
    ⟨popped.distinct,popped.invoking,popped.alone,?_,?_,popped.single,fun busy => absurd rfl busy,popped.waiting⟩ requested rfl (.inl mine)
  · intro waits
    change s.requested = false at waits
    rw [requested] at waits
    cases waits
  · exact fun t' o member => absurd rfl (done t' _ member)
  · exact fun t' f member loops => absurd loops (done t' f member)

theorem Heap.released {o : CallbackId} (heap : s.Heap) (there : s.objects[o]? = some x) (alive : x.phase ≠ .destroyed)
    (fewer : u.callbacks.Sublist s.callbacks) (absent : x.address ∉ u.callbacks) (fired : u.fired = s.fired)
    (objects : u.objects = (s.release t o x.address).objects) (memory : u.memory = (s.release t o x.address).memory) : u.Heap := by
  have modified_ : ∀ (i : Nat) z, u.objects[i]? = some z ↔ ∃ y, s.objects[i]? = some y ∧
      z = if i = o then {y with phase := .destroyed,destroyer := some t} else y := by
    intro i z
    rw [objects]
    exact modified _
  have at_ := heap.at_address there alive
  have other : ∀ a i, a ≠ x.address → s.memory a = some i → i ≠ o := by
    rintro a i elsewhere here rfl
    obtain ⟨y,found,home,-⟩ := (heap.occupied a i).mp here
    obtain rfl : x = y := Option.some.inj (there.symm.trans found)
    exact elsewhere home.symm
  refine ⟨?_,heap.listed.sublist fewer,?_⟩
  · intro a i
    rw [memory]
    change Function.update s.memory x.address none a = some i ↔ _
    by_cases here : a = x.address
    · rw [here,Function.update_self]
      refine ⟨nofun,?_⟩
      rintro ⟨z,found,home,living⟩
      obtain ⟨y,old,rfl⟩ := (modified_ i z).mp found
      split at home
      · rename_i same
        rw [if_pos same] at living
        exact absurd rfl living
      · rename_i same
        rw [if_neg same] at living
        have also_ := (heap.occupied x.address i).mpr ⟨y,old,home,living⟩
        exact absurd (Option.some.inj (also_.symm.trans at_)) same
    · rw [Function.update_of_ne here]
      constructor
      · intro found
        obtain ⟨y,old,home,living⟩ := (heap.occupied a i).mp found
        exact ⟨y,(modified_ i y).mpr ⟨y,old,(if_neg (other a i here found)).symm⟩,home,living⟩
      · rintro ⟨z,found,home,living⟩
        obtain ⟨y,old,rfl⟩ := (modified_ i z).mp found
        split at home
        · rename_i same
          rw [if_pos same] at living
          exact absurd rfl living
        · rename_i same
          rw [if_neg same] at living
          exact (heap.occupied a i).mpr ⟨y,old,home,living⟩
  · intro a member
    obtain ⟨i,y,found,old,live,unasked,unfired⟩ := heap.live a (fewer.subset member)
    have elsewhere : a ≠ x.address := by
      rintro rfl
      exact absent member
    refine ⟨i,y,?_,(modified_ i y).mpr ⟨y,old,(if_neg (other a i elsewhere found)).symm⟩,live,unasked,by rw [fired]; exact unfired⟩
    rw [memory]
    exact (Function.update_of_ne elsewhere ..).trans found

theorem Firings.released {o : CallbackId} (firings : s.Firings) (there : s.objects[o]? = some x) (absent : x.address ∉ s.callbacks) :
    (s.release t o x.address).Firings := by
  have touched := firings.touched (fun x => {x with phase := .destroyed,destroyer := some t}) there rfl (fun _ => rfl)
  refine ⟨touched.once,touched.known,touched.asked,touched.owed,touched.popped,touched.erased,?_,touched.quiet,touched.tame⟩
  intro requested
  have same : (s.release t o x.address).registered = s.registered := by
    refine registered_congr rfl ?_
    intro a member
    refine Function.update_of_ne ?_ ..
    rintro rfl
    exact absent member
  rw [same]
  exact firings.slate requested

-- The destructor of a callback that no thread is in, but perhaps its own.
theorem Threads.released {o : CallbackId} (threads : s.Threads) (there : s.objects[o]? = some x) (idle : ∀ t', .invoking o ∉ s.callStacks t')
    (awake : ∀ t', .waiting o ∉ s.callStacks t') (firing : ∀ t', .firing o ∈ s.callStacks t' → t = t') :
    (s.release t o x.address).Threads := by
  have touched := threads.touched (fun x => {x with phase := .destroyed,destroyer := some t}) there rfl idle awake
    (fun t' member _ => congrArg some (firing t' member))
  exact ⟨touched.distinct,touched.invoking,touched.alone,touched.firing,touched.looping,touched.single,touched.holder,touched.waiting⟩

-- A destructor begins to wait.
theorem Threads.waits {o : CallbackId} (threads : s.Threads) (awake : ∀ t', .waiting o ∉ s.callStacks t')
    (destroying : ∃ x, s.objects[o]? = some x ∧ x.phase = .destroying ∧ x.destroyer = some t)
    (apart : ∃ l, s.firingThread = some l ∧ l ≠ t) : (s.setStack t (.waiting o :: s.callStacks t)).Threads := by
  have old : ∀ t' f, f ∈ (s.setStack t (.waiting o :: s.callStacks t)).callStacks t' → f ∈ s.callStacks t' ∨ t' = t ∧ f = .waiting o := by
    intro t' f member
    rw [stacks_set] at member
    split at member
    · rename_i at_
      rw [at_]
      rcases List.mem_cons.mp member with new | prior
      · exact .inr ⟨rfl,new⟩
      · exact .inl prior
    · exact .inl member
  refine ⟨?_,?_,?_,?_,?_,?_,threads.holder,?_⟩
  · intro t'
    rw [stacks_set]
    split
    · exact List.nodup_cons.mpr ⟨awake t,threads.distinct t⟩
    · exact threads.distinct t'
  · intro t' i member
    exact threads.invoking t' i ((old t' _ member).resolve_right (fun new => nomatch new.2))
  · intro t' t'' i one two
    exact threads.alone t' t'' i ((old t' _ one).resolve_right (fun new => nomatch new.2))
      ((old t'' _ two).resolve_right (fun new => nomatch new.2))
  · intro t' i member
    exact threads.firing t' i ((old t' _ member).resolve_right (fun new => nomatch new.2))
  · intro t' f member loops
    rcases old t' f member with prior | ⟨-,rfl⟩
    · exact threads.looping t' f prior loops
    · cases loops
  · intro t'
    rw [stacks_set]
    split
    · exact threads.single t
    · exact threads.single t'
  · intro t' i member
    rcases old t' _ member with prior | ⟨rfl,new⟩
    · exact threads.waiting t' i prior
    · cases new
      exact ⟨destroying,apart⟩

theorem destroy_sound (sound : s.Sound) (phase : s.phase o = some .live) : (s.destroy t o).Sound := by
  obtain ⟨x,there,live⟩ := some_phase phase
  have alive : x.phase ≠ .destroyed := by rw [live]; nofun
  have idle : ∀ t', .invoking o ∉ s.callStacks t' := by
    intro t' member
    have constructing := sound.threads.invoking t' o member
    rw [phase] at constructing
    cases constructing
  have awake : ∀ t', .waiting o ∉ s.callStacks t' := by
    intro t' member
    obtain ⟨⟨y,found,destroying,-⟩,-⟩ := sound.threads.waiting t' o member
    obtain rfl : x = y := Option.some.inj (there.symm.trans found)
    rw [live] at destroying
    cases destroying
  have at_ := sound.heap.at_address there alive
  have firing_home : ∀ t', .firing o ∈ s.callStacks t' → s.firing = some x.address := by
    intro t' member
    obtain ⟨-,y,found,home,-⟩ := sound.threads.firing t' o member
    obtain rfl : x = y := Option.some.inj (there.symm.trans found)
    exact home
  unfold destroy
  rw [there]
  dsimp only
  split
  · -- not yet fired: taken off the list
    rename_i member
    obtain ⟨i,y,here,found,-,-,unfired⟩ := sound.heap.live x.address member
    obtain rfl : i = o := Option.some.inj (here.symm.trans at_)
    have quiet_threads := sound.threads.released (t := t) there idle awake
      (fun t' inside => absurd (sound.threads.firing t' i inside).1 unfired)
    have gone : x.address ∉ s.callbacks.erase x.address := fun inside => (sound.heap.listed.mem_erase_iff.mp inside).1 rfl
    have touched := sound.firings.touched (fun x => {x with phase := .destroyed,destroyer := some t}) there rfl (fun _ => rfl)
    refine ⟨sound.heap.released (t := t) there alive (List.erase_sublist ..) gone rfl rfl rfl,
      ⟨touched.once,touched.known,touched.asked,touched.owed,touched.popped,?_,?_,?_,touched.tame⟩,
      ⟨quiet_threads.distinct,quiet_threads.invoking,quiet_threads.alone,quiet_threads.firing,quiet_threads.looping,quiet_threads.single,
        quiet_threads.holder,quiet_threads.waiting⟩,?_⟩
    · intro j inside
      change j ∈ (if s.requested then s.erased++[i] else s.erased) at inside
      split at inside
      · rcases List.mem_append.mp inside with old | last
        · exact touched.erased j old
        · rw [List.mem_singleton.mp last]
          exact ⟨unfired,phase_some ((modified _).mpr ⟨x,there,(if_pos rfl).symm⟩)⟩
      · exact touched.erased j inside
    · intro requested
      change s.requested = true at requested
      refine (sound.firings.slate requested).trans ?_
      change (s.popped++(s.erased++s.registered)).Perm (s.popped++((if s.requested then s.erased++[i] else s.erased)++
        (s.callbacks.erase x.address).filterMap (Function.update s.memory x.address none)))
      have rest : (s.callbacks.erase x.address).filterMap (Function.update s.memory x.address none) =
          (s.callbacks.erase x.address).filterMap s.memory := by
        refine List.filterMap_congr ?_
        intro a inside
        refine Function.update_of_ne ?_ ..
        rintro rfl
        exact gone inside
      have all : s.registered.Perm (i :: (s.callbacks.erase x.address).filterMap s.memory) := by
        have listed := (List.perm_cons_erase member).filterMap s.memory
        rw [List.filterMap_cons_some at_] at listed
        exact listed
      rw [if_pos requested,rest,List.append_assoc]
      exact List.Perm.append_left _ (List.Perm.append_left _ all)
    · intro waits
      change s.requested = false at waits
      obtain ⟨firing,fired,slate,popped,erased,callStacks⟩ := sound.firings.quiet waits
      refine ⟨firing,fired,slate,popped,?_,callStacks⟩
      change (if s.requested then s.erased++[i] else s.erased) = []
      rw [waits]
      exact erased
    · intro requested overrun
      change s.callbacks.erase x.address = []
      rw [sound.looped requested overrun]
      rfl
  · rename_i absent
    have released_heap := sound.heap.released (u := s.release t o x.address) (t := t) there alive (List.Sublist.refl _) absent rfl rfl rfl
    have released_firings := sound.firings.released (t := t) there absent
    split
    · rename_i under
      split
      · -- in its own invocation
        rename_i mine
        refine ⟨released_heap,released_firings,sound.threads.released there idle awake ?_,sound.looped⟩
        intro t' member
        exact Option.some.inj (mine.symm.trans (sound.threads.looping t' _ member rfl).2)
      · rename_i other
        have requested : s.requested = true := by
          by_contra waits
          have none := (sound.firings.quiet (by simpa using waits)).1
          rw [under] at none
          cases none
        have apart : ∀ a ∈ s.callbacks, s.memory a ≠ some o := by
          intro a member here
          obtain ⟨y,found,home,-⟩ := (sound.heap.occupied a o).mp here
          obtain rfl : x = y := Option.some.inj (there.symm.trans found)
          rw [home] at absent
          exact absent member
        have waits : CallbackPhase.destroying ≠ .destroyed := nofun
        have touched := sound.threads.touched (fun x => {x with phase := .destroying,destroyer := some t}) there rfl idle awake
          (fun t' member dead => absurd dead waits)
        refine ⟨(sound.heap.touched _ there rfl alive waits apart).restacked t _,
          (sound.firings.touched _ there rfl (fun dead => absurd dead alive)).restacked requested t _,
          touched.waits awake ⟨_,(modified _).mpr ⟨x,there,(if_pos rfl).symm⟩,rfl,rfl⟩ ?_,sound.looped⟩
        obtain ⟨l,held⟩ := Option.ne_none_iff_exists'.mp (sound.threads.holder (by rw [under]; nofun))
        refine ⟨l,held,?_⟩
        rintro rfl
        exact other held
    · rename_i elsewhere
      refine ⟨released_heap,released_firings,sound.threads.released there idle awake ?_,sound.looped⟩
      intro t' member
      exact absurd (firing_home t' member) elsewhere

theorem wake_sound (sound : s.Sound) (ready : s.wakes t = true) : (s.wake t).Sound := by
  unfold wakes at ready
  unfold wake
  cases stack : s.callStacks t with
  | nil => exact sound
  | cons f rest =>
    cases f with
    | invoking o => exact sound
    | firing o => exact sound
    | relocking => exact sound
    | waiting o =>
      have top : .waiting o ∈ s.callStacks t := by
        rw [stack]
        exact List.mem_cons_self
      have distinct := sound.threads.distinct t
      have single := sound.threads.single t
      rw [stack] at ready distinct single
      obtain ⟨alone,others⟩ := List.nodup_cons.mp distinct
      obtain ⟨⟨x,there,destroying,destroyer⟩,apart⟩ := sound.threads.waiting t o top
      dsimp only at ready ⊢
      rw [there] at ready ⊢
      have requested := requested_of sound.firings top
      have elsewhere : s.firing ≠ some x.address := by simpa using ready
      have alive : x.phase ≠ .destroyed := by rw [destroying]; nofun
      have within : ∀ g, g ∈ rest → g ∈ s.callStacks t := by
        intro g member
        rw [stack]
        exact List.mem_cons_of_mem _ member
      have absent : x.address ∉ s.callbacks := by
        intro member
        obtain ⟨i,y,here,found,live,-⟩ := sound.heap.live x.address member
        obtain rfl : i = o := Option.some.inj (here.symm.trans (sound.heap.at_address there alive))
        obtain rfl : x = y := Option.some.inj (there.symm.trans found)
        rw [destroying] at live
        cases live
      have popped := sound.threads.restacked (t := t) others (fun o => within _) (fun o => within _)
        (fun f member => sound.threads.looping t f (within f member)) single (fun o => within _)
      have idle : ∀ t', .invoking o ∉ (s.setStack t rest).callStacks t' := by
        intro t' member
        obtain ⟨y,found,constructing⟩ := some_phase (popped.invoking t' o member)
        obtain rfl : x = y := Option.some.inj (there.symm.trans found)
        rw [destroying] at constructing
        cases constructing
      have awake : ∀ t', .waiting o ∉ (s.setStack t rest).callStacks t' := by
        intro t' member
        obtain ⟨⟨y,found,-,theirs⟩,-⟩ := popped.waiting t' o member
        obtain rfl : x = y := Option.some.inj (there.symm.trans found)
        rw [stacks_set,if_pos (Option.some.inj (theirs.symm.trans destroyer))] at member
        exact alone member
      have overrun : ∀ t', .firing o ∈ (s.setStack t rest).callStacks t' → t = t' := by
        intro t' member
        obtain ⟨-,y,found,home,-⟩ := popped.firing t' o member
        obtain rfl : x = y := Option.some.inj (there.symm.trans found)
        exact absurd home elsewhere
      have released := popped.released (t := t) there idle awake overrun
      exact ⟨sound.heap.released (t := t) there alive (List.Sublist.refl _) absent rfl rfl rfl,
        (sound.firings.released (t := t) there absent).restacked requested t rest,
        ⟨released.distinct,released.invoking,released.alone,released.firing,released.looping,released.single,released.holder,
          released.waiting⟩,sound.looped⟩

theorem apply_sound (sound : s.Sound) (allowed : s.Allowed a) : (s.apply a).Sound := by
  cases a with
  | construct t address => exact construct_sound sound allowed.2
  | finish t => exact finish_sound sound allowed
  | requestCancel t => exact requestCancel_sound sound t
  | relock t => exact relock_sound sound allowed
  | destroy t o => exact destroy_sound sound allowed.2
  | wake t => exact wake_sound sound allowed

end Steps

theorem reached_sound (path : Machines.Reached cancelSystem s) : s.Sound := by
  refine Machines.reached_invariant Sound ?_ ?_ path
  · rintro s rfl
    exact initial_sound
  · exact fun s a sound allowed => apply_sound sound allowed

end CancelState
end Macrame

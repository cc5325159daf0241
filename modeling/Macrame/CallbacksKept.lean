import Macrame.CancellationLaws

namespace Macrame
namespace CancelState

-- What later states keep: a callback that is gone is not invoked again, and once
-- cancellation is requested the loop has no more to take than what is on the list.
structure Later (s u : CancelState) : Prop where
  gone : ∀ o, s.phase o = some .destroyed → u.phase o = some .destroyed
  unfired : ∀ o, s.phase o = some .destroyed → o ∈ u.fired → o ∈ s.fired
  frames : ∀ t o, s.phase o = some .destroyed → .firing o ∈ u.callStacks t → .firing o ∈ s.callStacks t
  loop : s.requested = true → u.requested = true ∧ u.slate = s.slate ∧
    u.popped.length+u.callbacks.length ≤ s.popped.length+s.callbacks.length

section Runs

variable {s u : CancelState}

theorem Later.refl (s : CancelState) : Later s s :=
  ⟨fun _ gone => gone,fun _ _ fired => fired,fun _ _ _ member => member,fun requested => ⟨requested,rfl,Nat.le_refl _⟩⟩

theorem Later.trans (first : Later r s) (second : Later s u) : Later r u := by
  refine ⟨?_,?_,?_,?_⟩
  · exact fun o gone => second.gone o (first.gone o gone)
  · exact fun o gone fired => first.unfired o gone (second.unfired o (first.gone o gone) fired)
  · exact fun t o gone member => first.frames t o gone (second.frames t o (first.gone o gone) member)
  · intro requested
    obtain ⟨still,slate,less⟩ := first.loop requested
    obtain ⟨yet,same,fewer⟩ := second.loop still
    exact ⟨yet,same.trans slate,Nat.le_trans fewer less⟩

-- Frames are pushed and popped; which are pushed is what matters here.
theorem Later.restacked (s : CancelState) (t : CancelThread) (frames : List CancelFrame)
    (old : ∀ o, .firing o ∈ frames → .firing o ∈ s.callStacks t) : Later s (s.setStack t frames) := by
  refine ⟨fun _ gone => gone,fun _ _ fired => fired,?_,fun requested => ⟨requested,rfl,Nat.le_refl _⟩⟩
  intro t' o _ member
  rw [stacks_set] at member
  split at member
  · rename_i at_
    rw [at_]
    exact old o member
  · exact member

theorem Later.touched (s : CancelState) (o : CallbackId) (change : CallbackObject → CallbackObject)
    (kept : ∀ x, s.objects[o]? = some x → x.phase = .destroyed → (change x).phase = .destroyed) : Later s (s.modifyObject o change) := by
  refine ⟨?_,fun _ _ fired => fired,fun _ _ _ member => member,fun requested => ⟨requested,rfl,Nat.le_refl _⟩⟩
  intro i gone
  by_cases at_ : i = o
  · obtain ⟨x,there,dead⟩ := some_phase gone
    rw [at_] at there ⊢
    exact (phase_some ((modified change).mpr ⟨x,there,(if_pos rfl).symm⟩)).trans (congrArg some (kept x there dead))
  · rw [phase_other at_]
    exact gone

theorem turn_later (heap : s.Heap) (t : CancelThread) (rest : List CancelFrame) : Later (s.setStack t rest) (s.turn t rest) := by
  unfold turn
  split
  · exact Later.refl _
  · rename_i a last
    have member := List.mem_of_getLast? last
    obtain ⟨o,x,here,there,live,-⟩ := heap.live a member
    have lives : ∀ i, s.phase i = some .destroyed → i ≠ o := by
      rintro i gone rfl
      rw [phase_some there,live] at gone
      cases gone
    rw [here]
    dsimp only
    refine ⟨fun _ gone => gone,?_,?_,?_⟩
    · intro i gone fired
      rcases List.mem_append.mp fired with old | now
      · exact old
      · exact absurd (List.mem_singleton.mp now) (lives i gone)
    · intro t' i gone inside
      change .firing i ∈ Function.update s.callStacks t (.firing o :: rest) t' at inside
      rw [stacks_set]
      by_cases at_ : t' = t
      · rw [at_,Function.update_self] at inside
        rw [if_pos at_]
        exact (List.mem_cons.mp inside).resolve_left (fun same => lives i gone (CancelFrame.firing.inj same))
      · rw [Function.update_of_ne at_] at inside
        rw [if_neg at_]
        exact inside
    · intro requested
      refine ⟨requested,rfl,?_⟩
      have some_left := List.length_pos_of_mem member
      change (s.popped++[o]).length+s.callbacks.dropLast.length ≤ s.popped.length+s.callbacks.length
      rw [List.length_append,List.length_singleton,List.length_dropLast]
      omega

theorem apply_later (sound : s.Sound) (allowed : s.Allowed a) : Later s (s.apply a) := by
  cases a with
  | construct t address =>
    change Later s (s.construct t address)
    have grown : ∀ y o, s.phase o = some .destroyed → ((s.objects++[y])[o]?).map CallbackObject.phase = some .destroyed := by
      intro y o gone
      obtain ⟨x,there,dead⟩ := some_phase gone
      rw [(placed y).mpr (.inl there)]
      exact congrArg some dead
    unfold construct
    split
    · refine ⟨grown _,?_,?_,fun requested => ⟨requested,rfl,Nat.le_refl _⟩⟩
      · intro o gone fired
        rcases List.mem_append.mp fired with old | now
        · exact old
        · obtain ⟨x,there,-⟩ := some_phase gone
          rw [List.mem_singleton.mp now] at there
          exact absurd (List.getElem?_eq_some_iff.mp there).1 (Nat.lt_irrefl _)
      · intro t' o _ member
        change .firing o ∈ Function.update s.callStacks t (.invoking s.objects.length :: s.callStacks t) t' at member
        by_cases at_ : t' = t
        · rw [at_,Function.update_self] at member
          rw [at_]
          exact (List.mem_cons.mp member).resolve_left nofun
        · rwa [Function.update_of_ne at_] at member
    · rename_i waits
      exact ⟨grown _,fun _ _ fired => fired,fun _ _ _ member => member,fun requested => absurd requested waits⟩
  | finish t =>
    change Later s (s.finish t)
    unfold finish
    split
    · rename_i o rest stack
      have phase := sound.threads.invoking t o (by rw [stack]; exact List.mem_cons_self)
      refine (Later.touched s o (fun x => {x with phase := .live}) ?_).trans (Later.restacked _ t rest ?_)
      · intro x there dead
        rw [phase_some there,dead] at phase
        cases phase
      · intro i member
        change .firing i ∈ s.callStacks t
        rw [stack]
        exact List.mem_cons_of_mem _ member
    · rename_i o rest stack
      refine Later.restacked s t _ ?_
      intro i member
      rw [stack]
      exact List.mem_cons_of_mem _ ((List.mem_cons.mp member).resolve_left nofun)
    · exact Later.refl s
  | requestCancel t =>
    change Later s (s.requestCancel t)
    unfold requestCancel
    split
    · exact Later.refl s
    · rename_i waits
      have turned := turn_later (s := {s with requested := true,slate := s.registered})
        ⟨sound.heap.occupied,sound.heap.listed,sound.heap.live⟩ t (s.callStacks t)
      refine ⟨turned.gone,turned.unfired,?_,fun requested => absurd requested waits⟩
      intro t' o gone member
      have old := turned.frames t' o gone member
      rw [stacks_set] at old
      split at old
      · rename_i at_
        rw [at_]
        exact old
      · exact old
  | relock t =>
    change Later s (s.relock t)
    unfold relock
    split
    · rename_i rest stack
      have popped := Later.restacked s t rest (by
        intro o member
        rw [stack]
        exact List.mem_cons_of_mem _ member)
      have turned := turn_later (s := {s with firing := none}) ⟨sound.heap.occupied,sound.heap.listed,sound.heap.live⟩ t rest
      exact popped.trans ⟨turned.gone,turned.unfired,turned.frames,turned.loop⟩
    · exact Later.refl s
  | destroy t o =>
    change Later s (s.destroy t o)
    unfold destroy
    split
    · exact Later.refl s
    · rename_i x there
      have released := Later.touched s o (fun x => {x with phase := .destroyed,destroyer := some t}) (fun _ _ _ => rfl)
      split
      · refine ⟨released.gone,released.unfired,released.frames,fun requested => ⟨requested,rfl,?_⟩⟩
        exact Nat.add_le_add_left (List.erase_sublist ..).length_le _
      · split
        · split
          · exact ⟨released.gone,released.unfired,released.frames,released.loop⟩
          · refine (Later.touched s o _ ?_).trans (Later.restacked _ t _ ?_)
            · intro y found dead
              have live := allowed.2
              rw [phase_some found,dead] at live
              cases live
            · exact fun i member => (List.mem_cons.mp member).resolve_left nofun
        · exact ⟨released.gone,released.unfired,released.frames,released.loop⟩
  | wake t =>
    change Later s (s.wake t)
    unfold wake
    split
    · rename_i o rest stack
      split
      · have released := Later.touched s o (fun x => {x with phase := .destroyed,destroyer := some t}) (fun _ _ _ => rfl)
        have popped := Later.restacked (s.modifyObject o (fun x => {x with phase := .destroyed,destroyer := some t})) t rest (by
          intro i member
          change .firing i ∈ s.callStacks t
          rw [stack]
          exact List.mem_cons_of_mem _ member)
        have both := released.trans popped
        exact ⟨both.gone,both.unfired,both.frames,both.loop⟩
      · exact Later.refl s
    · exact Later.refl s

-- Invoked at most once, and once if cancellation had been requested before the
-- constructor or, the loop being over, if it was registered at the request and its
-- destructor has not taken it off the list first. A callback that is gone runs
-- nowhere but under the destructor's own thread, and a waiting destructor's thread
-- is in no invocation it waits for.
structure Kept (s : CancelState) : Prop where
  once : s.fired.Nodup
  asked : ∀ (o : Nat) x, s.objects[o]? = some x → x.asked = true → o ∈ s.fired
  slated : s.requested = true → s.firing = none → ∀ o ∈ s.slate, o ∈ s.fired ↔ o ∉ s.erased
  erased : ∀ o ∈ s.erased, s.phase o = some .destroyed ∧ o ∉ s.fired
  owed : ∀ o ∈ s.fired, o ∈ s.slate ∨ ∃ x, s.objects[o]? = some x ∧ x.asked = true
  gone : ∀ (o : Nat) x, s.objects[o]? = some x → x.phase = .destroyed → ∀ t,
    .invoking o ∉ s.callStacks t ∧ (.firing o ∈ s.callStacks t → x.destroyer = some t)
  apart : ∀ t o, .waiting o ∈ s.callStacks t → .invoking o ∉ s.callStacks t ∧ .relocking ∉ s.callStacks t ∧ ∀ i, .firing i ∉ s.callStacks t
  tame : s.wild = false

theorem Sound.kept (sound : s.Sound) : s.Kept := by
  have within : ∀ o, s.requested = true → (o ∈ s.slate ↔ o ∈ s.popped ∨ o ∈ s.erased ∨ o ∈ s.registered) := by
    intro o requested
    rw [(sound.firings.slate requested).mem_iff,List.mem_append,List.mem_append]
  refine ⟨sound.firings.once,sound.firings.asked,?_,fun o member => (sound.firings.erased o member).symm,?_,?_,?_,sound.firings.tame⟩
  · intro requested overrun o member
    constructor
    · exact fun fired taken => (sound.firings.erased o taken).1 fired
    · intro untaken
      rcases (within o requested).mp member with popped | taken | listed
      · exact sound.firings.popped o popped
      · exact absurd taken untaken
      · unfold registered at listed
        rw [sound.looped requested overrun] at listed
        cases listed
  · intro o fired
    rcases sound.firings.owed o fired with popped | asked
    · have requested : s.requested = true := by
        by_contra waits
        have none := (sound.firings.quiet (by simpa using waits)).2.1
        rw [none] at fired
        cases fired
      exact .inl ((within o requested).mpr (.inl popped))
    · exact .inr asked
  · intro o x there dead t
    constructor
    · intro member
      have constructing := sound.threads.invoking t o member
      rw [phase_some there,dead] at constructing
      cases constructing
    · intro member
      obtain ⟨-,y,found,-,mine⟩ := sound.threads.firing t o member
      obtain rfl : x = y := Option.some.inj (there.symm.trans found)
      exact mine dead
  · intro t o member
    obtain ⟨⟨x,there,destroying,-⟩,l,holder,other⟩ := sound.threads.waiting t o member
    have outside : ∀ f, f ∈ s.callStacks t → f.loops ≠ true := by
      intro f inside loops
      exact other (Option.some.inj (holder.symm.trans (sound.threads.looping t f inside loops).2))
    refine ⟨?_,fun inside => outside _ inside rfl,fun i inside => outside _ inside rfl⟩
    intro inside
    have constructing := sound.threads.invoking t o inside
    rw [phase_some there,destroying] at constructing
    cases constructing

end Runs

end CancelState

-- Callbacks are invoked once, those that are gone stay so, and the loop of the
-- request has at most the list of the request to go through.
theorem callbacks_kept (path : Machines.Reached cancelSystem s) :
    s.Kept ∧ ∀ actions u, Machines.Runs cancelSystem s actions u → CancelState.Later s u := by
  refine ⟨(CancelState.reached_sound path).kept,?_⟩
  intro actions u run
  refine Machines.runs_related CancelState.Later CancelState.Later.refl (fun _ _ _ => CancelState.Later.trans) ?_ path run
  intro r a reached allowed
  exact CancelState.apply_later (CancelState.reached_sound reached) allowed

-- A destructor waits for the loop on another thread; a callback constructs and
-- destroys one that is invoked at once; another destroys itself.
def callbackRun : List CancelAction :=
  [.construct 0 10,.construct 1 20,.construct 2 30,.requestCancel 0,.destroy 1 2,.construct 0 40,.finish 0,.destroy 0 3,
    .finish 0,.relock 0,.wake 1,.destroy 0 1,.finish 0,.relock 0,.finish 0,.relock 0]

theorem callbacks_kept_crossing :
    let s := cancelSystem.follow {} callbackRun
    s.fired = [2,3,1,0] ∧ s.firing = none ∧ s.callStacks 0 = [] ∧ s.Kept :=
  ⟨by decide,by decide,by decide,(callbacks_kept (Machines.reached_follow (.start rfl) (by decide))).1⟩

-- The callback taken first destroys the other one registered at the request.
def erasingRun : List CancelAction := [.construct 0 10,.construct 0 20,.requestCancel 0,.destroy 0 0,.finish 0,.relock 0]

theorem callback_erased :
    ¬∀ s, Machines.Reached cancelSystem s → s.requested = true → s.firing = none → ∀ o ∈ s.slate, o ∈ s.fired := by
  intro always
  have fired := always (cancelSystem.follow {} erasingRun) (Machines.reached_follow (.start rfl) (by decide)) (by decide) (by decide) 0
    (by decide)
  exact absurd fired (by decide)

end Macrame

import Macrame.VersionedLaws

namespace Macrame

namespace Versioning

variable {T : Type} {d : Versioning T}

-- A resync that makes the replicas equal: the commands again, or a copy that
-- copies. `init` rejects a replay beside two versions.
structure Resyncs (d : Versioning T) : Prop where
  policy : d.policy ≠ .overwrite
  copies : d.policy = .copy → ∀ target source, d.copy target source = source
  copied : d.history = .currentAndPrevious → d.policy = .copy

-- The state after all batches of these versions.
def version (d : Versioning T) (versions : List Version) : T := d.run (versions.flatMap Version.commands) d.initial

theorem run_append (one two : List Command) (t : T) : d.run (one++two) t = d.run two (d.run one t) :=
  List.foldl_append

theorem version_append (versions : List Version) (v : Version) :
    d.version (versions++[v]) = d.run v.commands (d.version versions) := by
  simp [version,run_append]

theorem run_take {batch : List Command} (item : batch[next]? = some c) (t : T) :
    d.run (batch.take (next+1)) t = d.effect c (d.run (batch.take next) t) := by
  rw [List.take_add_one,item,run_append]
  rfl

end Versioning

-- Past its swap.
def PublishStage.published : PublishStage → Bool
  | .swapped _ => true
  | .resyncing _ _ => true
  | .resynced _ => true
  | .settled => true
  | _ => false

-- It has its batch and is before its swap.
def PublishStage.carrying : PublishStage → Bool
  | .building _ _ => true
  | .queued _ => true
  | .swapping _ => true
  | _ => false

namespace Versioned

variable {T : Type} {d : Versioning T} {p : PipeId} {s : Versioned T} {n : Nat} {stage : PublishStage}

-- How far the shadow has been brought.
def Shadow (d : Versioning T) (s : Versioned T) : PublishStage → Prop
  | .building _ next => s.shadow = d.run (s.batch.take next) (d.version s.versions)
  | .queued _ => s.shadow = d.run s.batch (d.version s.versions)
  | .swapping _ => s.shadow = d.run s.batch (d.version s.versions)
  | .swapped _ => d.history = .current → s.shadow = d.version s.versions.dropLast
  | .resyncing _ next =>
    d.history = .current → s.shadow = d.run (s.batch.take next) (d.version s.versions.dropLast)
  | _ => s.shadow = d.version s.versions

structure Values (d : Versioning T) (s : Versioned T) : Prop where
  front : s.front = d.version s.versions
  active : ∀ n, s.stages n ≠ .waiting → s.stages n ≠ .settled → Shadow d s (s.stages n)
  resting : (∀ n, s.stages n = .waiting ∨ s.stages n = .settled) → s.shadow = d.version s.versions
  history : d.history = .currentAndPrevious →
    s.previous = d.version s.versions.dropLast ∧ s.serial = s.versions.length

theorem values_initial (d : Versioning T) : Values d (initial d) where
  front := rfl
  active := fun _ started => absurd rfl started
  resting := fun _ => rfl
  history := fun _ => ⟨rfl,rfl⟩

-- One publish at a time is under way.
theorem Sound.alone (sound : Sound p s) (here : s.stages n = stage) (started : stage ≠ .waiting)
    (unfinished : stage ≠ .settled) : ∀ k, k ≠ n → s.stages k = .waiting ∨ s.stages k = .settled := by
  obtain ⟨m,rfl,_,relay,_⟩ := sound.now here started unfinished
  intro k other
  by_contra both
  rw [not_or] at both
  obtain ⟨j,same,_,relay',_⟩ := sound.now (n := k) rfl both.1 both.2
  exact other (same.trans (congrArg (·+1) (Relays.relay_unique relay' relay)))

-- Where the chain is resolved up to a publish that has not begun, none is.
theorem Sound.idle (sound : Sound p s) (ready : s.ready n = true) (waiting : s.stages (n+1) = .waiting) :
    ∀ k, s.stages k = .waiting ∨ s.stages k = .settled := by
  obtain ⟨m,_,relay,_⟩ := sound.relay
  obtain rfl : n = m := Relays.relay_turn relay ready (by rw [waiting]; simp)
  intro k
  by_contra both
  rw [not_or] at both
  obtain ⟨j,rfl,_,relay',_⟩ := sound.now (n := k) rfl both.1 both.2
  rw [Relays.relay_unique relay' relay] at both
  exact both.1 waiting

theorem Values.step (values : Values d s) (sound : Sound p s) (here : s.stages n = stage) (started : stage ≠ .waiting)
    (unfinished : stage ≠ .settled) (t : Versioned T) (next : PublishStage)
    (shape : t.stages = Function.update s.stages n next) (goes_on : next ≠ .waiting)
    (front : t.front = d.version t.versions)
    (history : d.history = .currentAndPrevious →
      t.previous = d.version t.versions.dropLast ∧ t.serial = t.versions.length)
    (shadow : Shadow d s stage → Shadow d t next) : Values d t := by
  have before : Shadow d s stage := by
    have active := values.active n
    rw [here] at active
    exact active started unfinished
  have others := sound.alone here started unfinished
  refine ⟨front,?_,?_,history⟩
  · intro k begun open_
    by_cases same : k = n
    · rw [same,shape,Function.update_self]
      exact shadow before
    · rw [shape,Function.update_of_ne same] at begun open_
      rcases others k same with waits | past
      · exact absurd waits begun
      · exact absurd past open_
  · intro all
    have mine := all n
    rw [shape,Function.update_self] at mine
    have past : next = .settled := mine.resolve_left goes_on
    have after := shadow before
    rw [past] at after
    exact after

-- A publish begins when none is under way.
theorem Values.opened (values : Values d s) (t : Versioned T) (resting : ∀ k, s.stages k = .waiting ∨ s.stages k = .settled)
    (next : PublishStage) (shape : t.stages = Function.update s.stages n next) (goes_on : next ≠ .waiting)
    (unfinished : next ≠ .settled)
    (same : t.front = s.front ∧ t.versions = s.versions ∧ t.previous = s.previous ∧ t.serial = s.serial)
    (shadow : s.shadow = d.version s.versions → Shadow d t next) : Values d t := by
  obtain ⟨front,versions,previous,serial⟩ := same
  refine ⟨?_,?_,?_,?_⟩
  · rw [front,versions]; exact values.front
  · intro k begun open_
    by_cases same : k = n
    · rw [same,shape,Function.update_self]
      exact shadow (values.resting resting)
    · rw [shape,Function.update_of_ne same] at begun open_
      rcases resting k with waits | past
      · exact absurd waits begun
      · exact absurd past open_
  · intro all
    have mine := all n
    rw [shape,Function.update_self] at mine
    exact absurd mine (not_or.mpr ⟨goes_on,unfinished⟩)
  · rw [previous,versions,serial]
    exact values.history

theorem Values.kept (values : Values d s) (t : Versioned T) (stages : t.stages = s.stages)
    (same : t.front = s.front ∧ t.shadow = s.shadow ∧ t.previous = s.previous ∧ t.serial = s.serial)
    (held : t.batch = s.batch ∧ t.versions = s.versions) : Values d t := by
  obtain ⟨front,shadow,previous,serial⟩ := same
  obtain ⟨batch,versions⟩ := held
  refine ⟨?_,?_,?_,?_⟩
  · rw [front,versions]; exact values.front
  · rw [stages]
    intro n begun open_
    have before := values.active n begun open_
    generalize s.stages n = stage at before ⊢
    cases stage <;> simp only [Shadow,shadow,batch,versions] at before ⊢ <;> exact before
  · rw [stages,shadow,versions]; exact values.resting
  · rw [previous,versions,serial]; exact values.history

-- No step of a batch's journey touches a replica before the shadow is built.
theorem swapEnd_values (values : Values d s) (sound : Sound p s) (here : s.stages n = .swapping r) :
    Values d (s.swapEnd d n r) := by
  obtain ⟨_,_,_,_,built,_⟩ := sound.now here (by simp) (by simp)
  have batch : s.unpublished = s.batch := built.unpublished
  have shadow : s.shadow = d.run s.batch (d.version s.versions) := by
    have active := values.active n
    rw [here] at active
    exact active (by simp) (by simp)
  have next : d.version (s.versions++[Version.mk n s.journal.batch s.unpublished]) = s.shadow := by
    rw [Versioning.version_append,shadow,batch]
  cases history : d.history with
  | current =>
    refine values.step sound here (by simp) (by simp) (s.swapEnd d n r) (.swapped r) ?_ (by simp) ?_ ?_ ?_
    · simp [swapEnd,swapReplicas,history,setStage]
    · simp [swapEnd,swapReplicas,history,setStage,next]
    · intro both
      cases history.symm.trans both
    · intro _ _
      simp [swapEnd,swapReplicas,history,setStage,values.front]
  | currentAndPrevious =>
    refine values.step sound here (by simp) (by simp) (s.swapEnd d n r) (.swapped r) ?_ (by simp) ?_ ?_ ?_
    · simp [swapEnd,swapReplicas,history,setStage]
    · simp [swapEnd,swapReplicas,history,setStage,next]
    · intro _
      have serial := (values.history history).2
      simp [swapEnd,swapReplicas,history,setStage,values.front,serial]
    · intro _ single
      cases history.symm.trans single

theorem startResync_values (values : Values d s) (sound : Sound p s) (resyncs : d.Resyncs)
    (here : s.stages n = .swapped r) (c : BlockId) : Values d (s.startResync d p n r c) := by
  have begun : Values d ((({s with gating := Function.update s.gating n r.block} : Versioned T).submit c
      (.single ⟨p,.readOnly⟩)).setStage n (.resyncing c 0)) :=
    values.step sound here (by simp) (by simp) _ (.resyncing c 0) rfl (by simp) values.front values.history
      (fun shadow single => shadow single)
  unfold startResync
  cases policy : d.policy with
  | replay => exact begun
  | copy => exact begun
  | overwrite => exact absurd policy resyncs.policy

-- The resync brings the shadow to the front's version.
theorem resyncEnd_values (values : Values d s) (sound : Sound p s) (resyncs : d.Resyncs)
    (here : s.stages n = .resyncing c next) (whole : d.policy = .replay → next = s.batch.length) :
    Values d (s.resyncEnd d n c) := by
  obtain ⟨_,_,_,_,⟨_,lately⟩,_⟩ := sound.now here (by simp) (by simp)
  obtain ⟨earlier,v,versions,commands⟩ := lately.last
  have versions : s.versions = earlier++[v] := versions
  have commands : v.commands = s.batch := commands
  refine values.step sound here (by simp) (by simp) _ (.resynced c) rfl (by simp) values.front values.history ?_
  intro shadow
  show (if d.policy = Resync.copy then d.copy s.shadow s.front else s.shadow) = d.version s.versions
  split
  · rename_i copied
    rw [resyncs.copies copied,values.front]
  · rename_i uncopied
    have replay : d.policy = .replay := by
      cases policy : d.policy with
      | replay => rfl
      | copy => exact absurd policy uncopied
      | overwrite => exact absurd policy resyncs.policy
    have single : d.history = .current := by
      cases history : d.history with
      | current => rfl
      | currentAndPrevious => exact absurd (resyncs.copied history) uncopied
    have replayed := shadow single
    rw [whole replay,List.take_length,versions,List.dropLast_concat] at replayed
    rw [replayed,versions,Versioning.version_append,commands]

theorem apply_values (values : Values d s) (sound : Sound p s) (resyncs : d.Resyncs) (allowed : s.Allowed d p checked a) :
    Values d (s.apply d p checked workers a) := by
  cases a with
  | base a => exact values.kept _ rfl ⟨rfl,rfl,rfl,rfl⟩ ⟨rfl,rfl⟩
  | journal a => exact values.kept _ rfl ⟨rfl,rfl,rfl,rfl⟩ ⟨rfl,rfl⟩
  | publish token => exact values.kept _ rfl ⟨rfl,rfl,rfl,rfl⟩ ⟨rfl,rfl⟩
  | gate n c => exact values.kept _ rfl ⟨rfl,rfl,rfl,rfl⟩ ⟨rfl,rfl⟩
  | flip k =>
    exact values.opened _ (sound.idle allowed.2.2 (sound.unissued _ (.inr (Nat.lt_succ_self _)))) (.entering (.flip k)) rfl
      (by simp) (by simp) ⟨rfl,rfl,rfl,rfl⟩ (fun shadow => shadow)
  | submit n c =>
    exact values.opened _ (sound.idle allowed.2.2.2.1 allowed.2.2.1) (.submitted c) rfl (by simp) (by simp)
      ⟨rfl,rfl,rfl,rfl⟩ (fun shadow => shadow)
  | begin n c =>
    refine values.step sound allowed.1 (by simp) (by simp) _
      (if (s.tokens n).any s.base.tokens = true then .quitting c else .entering (.task c)) rfl (by split <;> simp)
      values.front values.history ?_
    intro shadow
    split <;> exact shadow
  | quit n c =>
    exact values.step sound allowed (by simp) (by simp) _ (.skipping (.task c)) rfl (by simp) values.front values.history
      (fun shadow => shadow)
  | skip n r =>
    exact values.step sound allowed (by simp) (by simp) _ .settled rfl (by simp) values.front values.history
      (fun shadow => shadow)
  | clearBatch n r =>
    exact values.step sound allowed (by simp) (by simp) _ (.locking r) rfl (by simp) values.front values.history
      (fun shadow => shadow)
  | cutBegin n r =>
    exact values.step sound allowed.1 (by simp) (by simp) _ (.cutting r) rfl (by simp) values.front values.history
      (fun shadow => shadow)
  | cutNext n r =>
    have kept : s.stages = Function.update s.stages n (.cutting r) := by
      rw [← allowed.1,Function.update_eq_self]
    simp only [apply,cutNext]
    split
    · exact values.step sound allowed.1 (by simp) (by simp) _ (.cutting r) kept (by simp) values.front values.history
        (fun shadow => shadow)
    · exact values
  | cutEnd n r =>
    refine values.step sound allowed.1 (by simp) (by simp) _
      (if s.batch = [] then r.emptyHanded else .building r 0) rfl ?_ values.front values.history ?_
    · split
      · cases r <;> simp [Runner.emptyHanded]
      · simp
    · intro shadow
      split
      · cases r <;> exact shadow
      · exact shadow
  | buildNext n r next =>
    obtain ⟨here,inside⟩ := allowed
    have item : s.batch[next]? = some s.batch[next] := List.getElem?_eq_getElem inside
    simp only [apply,buildNext,item]
    refine values.step sound here (by simp) (by simp) _ (.building r (next+1)) rfl (by simp) values.front values.history ?_
    intro shadow
    exact (congrArg (d.effect s.batch[next]) shadow).trans (Versioning.run_take item _).symm
  | buildEnd n r c =>
    obtain ⟨here,_⟩ := allowed
    cases r with
    | flip k =>
      refine values.step sound here (by simp) (by simp) _ (.swapping (.flip k)) rfl (by simp) values.front values.history ?_
      intro shadow
      rw [Shadow,List.take_length] at shadow
      exact shadow
    | task b =>
      refine values.step sound here (by simp) (by simp) _ (.queued c) rfl (by simp) values.front values.history ?_
      intro shadow
      rw [Shadow,List.take_length] at shadow
      exact shadow
  | swapBegin n c =>
    exact values.step sound allowed.1 (by simp) (by simp) _ (.swapping (.task c)) rfl (by simp) values.front values.history
      (fun shadow => shadow)
  | swapEnd n r => exact swapEnd_values values sound allowed
  | startResync n r c => exact startResync_values values sound resyncs allowed.1 c
  | resyncNext n c next =>
    obtain ⟨here,_,_,inside⟩ := allowed
    have item : s.batch[next]? = some s.batch[next] := List.getElem?_eq_getElem inside
    simp only [apply,resyncNext,item]
    refine values.step sound here (by simp) (by simp) _ (.resyncing c (next+1)) rfl (by simp) values.front values.history ?_
    intro shadow single
    exact (congrArg (d.effect s.batch[next]) (shadow single)).trans (Versioning.run_take item _).symm
  | resyncEnd n c next => exact resyncEnd_values values sound resyncs allowed.1 allowed.2.2
  | settle n c =>
    exact values.step sound allowed (by simp) (by simp) _ .settled rfl (by simp) values.front values.history
      (fun shadow => shadow)

section Order

-- A step moves at most one publish on, and none back behind its swap.
theorem apply_stages (d : Versioning T) (workers : Nat) (sound : Sound p s) (allowed : s.Allowed d p checked a) :
    (s.apply d p checked workers a).stages = s.stages ∨
      ∃ n next, (s.apply d p checked workers a).stages = Function.update s.stages n next ∧
        ((s.stages n).published = true → next.published = true) := by
  have unpublished : ∀ {n stage}, s.stages n = stage → stage.published = false →
      ∀ next : PublishStage, (s.stages n).published = true → next.published = true := by
    intro n stage here not_yet next published
    rw [here,not_yet] at published
    cases published
  cases a with
  | base a => exact .inl rfl
  | journal a => exact .inl rfl
  | publish token => exact .inl rfl
  | gate n c => exact .inl rfl
  | flip k =>
    exact .inr ⟨_,_,rfl,unpublished (sound.unissued _ (.inr (Nat.lt_succ_self _))) rfl _⟩
  | submit n c => exact .inr ⟨_,_,rfl,unpublished allowed.2.2.1 rfl _⟩
  | begin n c => exact .inr ⟨_,_,rfl,unpublished allowed.1 rfl _⟩
  | quit n c => exact .inr ⟨_,_,rfl,unpublished allowed rfl _⟩
  | skip n r => exact .inr ⟨_,_,rfl,unpublished allowed rfl _⟩
  | clearBatch n r => exact .inr ⟨_,_,rfl,unpublished allowed rfl _⟩
  | cutBegin n r => exact .inr ⟨_,_,rfl,unpublished allowed.1 rfl _⟩
  | cutNext n r =>
    simp only [apply,cutNext]
    split <;> exact .inl rfl
  | cutEnd n r => exact .inr ⟨_,_,rfl,unpublished allowed.1 rfl _⟩
  | buildNext n r next =>
    simp only [apply,buildNext]
    split
    · exact .inr ⟨_,_,rfl,unpublished allowed.1 rfl _⟩
    · exact .inl rfl
  | buildEnd n r c =>
    cases r <;> exact .inr ⟨_,_,rfl,unpublished allowed.1 rfl _⟩
  | swapBegin n c => exact .inr ⟨_,_,rfl,unpublished allowed.1 rfl _⟩
  | swapEnd n r =>
    refine .inr ⟨n,.swapped r,?_,fun _ => rfl⟩
    simp only [apply,swapEnd,swapReplicas]
    split <;> rfl
  | startResync n r c =>
    simp only [apply,startResync]
    split <;> exact .inr ⟨n,_,rfl,fun _ => rfl⟩
  | resyncNext n c next =>
    simp only [apply,resyncNext]
    split
    · exact .inr ⟨n,_,rfl,fun _ => rfl⟩
    · exact .inl rfl
  | resyncEnd n c next => exact .inr ⟨n,_,rfl,fun _ => rfl⟩
  | settle n c => exact .inr ⟨n,_,rfl,fun _ => rfl⟩

theorem apply_versions (d : Versioning T) (p : PipeId) (checked : Bool) (workers : Nat) (s : Versioned T) (a : VersionedAction) :
    (s.apply d p checked workers a).versions = s.versions ∨
      ∃ n r, a = .swapEnd n r ∧
        (s.apply d p checked workers a).versions = s.versions++[Version.mk n s.journal.batch s.unpublished] := by
  cases a with
  | swapEnd n r =>
    refine .inr ⟨n,r,rfl,?_⟩
    simp only [apply,swapEnd,swapReplicas]
    split <;> rfl
  | cutNext n r =>
    simp only [apply,cutNext]
    split <;> exact .inl rfl
  | buildNext n r next =>
    simp only [apply,buildNext]
    split <;> exact .inl rfl
  | buildEnd n r c => cases r <;> exact .inl rfl
  | startResync n r c =>
    simp only [apply,startResync]
    split <;> exact .inl rfl
  | resyncNext n c next =>
    simp only [apply,resyncNext]
    split <;> exact .inl rfl
  | _ => exact .inl rfl

-- The versions stand in the order of their publishes, all of which have swapped.
structure Ordered (s : Versioned T) : Prop where
  sorted : s.versions.Pairwise (fun v w => v.publish < w.publish)
  published : ∀ v ∈ s.versions, (s.stages v.publish).published = true

theorem ordered_apply (ordered : Ordered s) (sound : Sound p s) (allowed : s.Allowed d p checked a) :
    Ordered (s.apply d p checked workers a) := by
  have still : ∀ n, (s.stages n).published = true → ((s.apply d p checked workers a).stages n).published = true := by
    intro n published
    rcases apply_stages d workers sound allowed with same | ⟨k,next,shape,onward⟩
    · rw [same]; exact published
    · rw [shape]
      by_cases here : n = k
      · rw [here,Function.update_self]
        exact onward (here ▸ published)
      · rw [Function.update_of_ne here]
        exact published
  rcases apply_versions d p checked workers s a with same | ⟨n,r,rfl,grown⟩
  · refine ⟨?_,?_⟩
    · rw [same]; exact ordered.sorted
    · rw [same]
      intro v member
      exact still _ (ordered.published v member)
  · have here : s.stages n = .swapping r := allowed
    -- an earlier version's publish has settled, so it came before this one
    have earlier : ∀ v ∈ s.versions, v.publish < n := by
      intro v member
      have published := ordered.published v member
      obtain ⟨m,rfl,_,relay,_⟩ := sound.now here (by simp) (by simp)
      have other : v.publish ≠ m+1 := by
        intro same
        rw [same,here] at published
        cases published
      by_contra above
      have waiting := relay.resting v.publish (by omega)
      rw [waiting] at published
      cases published
    refine ⟨?_,?_⟩
    · rw [grown]
      refine List.pairwise_append.mpr ⟨ordered.sorted,List.pairwise_singleton _ _,?_⟩
      intro v old w new
      rw [List.mem_singleton.mp new]
      exact earlier v old
    · rw [grown]
      intro v member
      rcases List.mem_append.mp member with old | new
      · exact still _ (ordered.published v old)
      · rw [List.mem_singleton.mp new]
        have shape : (s.apply d p checked workers (.swapEnd n r)).stages n = .swapped r := by
          simp only [apply,swapEnd,swapReplicas]
          split <;> exact Function.update_self _ _ _
        rw [shape]
        rfl

end Order

section Batches

-- A publish that has its batch and has yet to swap keeps it till then.
def Carries (s : Versioned T) (n : Nat) : Prop := (s.stages n).carrying = true

theorem carried_apply (sound : Sound p s) (allowed : s.Allowed d p checked a) (carries : s.Carries n) :
    let t := s.apply d p checked workers a
    t.Carries n ∧ t.unpublished = s.unpublished ∧ t.journal.batch = s.journal.batch ∨
      Version.mk n s.journal.batch s.unpublished ∈ t.versions := by
  have begun : s.stages n ≠ .waiting := fun waits => by simp [Carries,waits,PublishStage.carrying] at carries
  have unfinished : s.stages n ≠ .settled := fun past => by simp [Carries,past,PublishStage.carrying] at carries
  have under_way : ¬∀ k, s.stages k = .waiting ∨ s.stages k = .settled := by
    intro resting
    rcases resting n with waits | past
    · exact begun waits
    · exact unfinished past
  -- the others wait or are over, so whoever is at work is this one
  have here : ∀ {k stage}, s.stages k = stage → stage ≠ .waiting → stage ≠ .settled → k = n := by
    intro k stage there started open_
    by_contra apart
    rcases sound.alone rfl begun unfinished k apart with waits | past
    · exact started (there.symm.trans waits)
    · exact open_ (there.symm.trans past)
  have elsewhere : ∀ {k stage}, s.stages k = stage → stage ≠ .waiting → stage ≠ .settled → stage.carrying = true := by
    intro k stage there started open_
    rw [← there,here there started open_]
    exact carries
  have onward : ∀ {k stage next} (t : Versioned T), s.stages k = stage → stage ≠ .waiting → stage ≠ .settled →
      t.stages = Function.update s.stages k next → next.carrying = true → t.Carries n := by
    intro k stage next t there started open_ shape carrying
    rw [Carries,shape,here there started open_,Function.update_self]
    exact carrying
  cases a with
  | base a => exact .inl ⟨carries,rfl,rfl⟩
  | journal a =>
    obtain ⟨_,begun,_⟩ := Journal.outer_kept workers allowed.1 (Journal.records_outer allowed.2)
    exact .inl ⟨carries,rfl,by simp only [apply,Journal.batch,begun]⟩
  | publish token => exact .inl ⟨carries,rfl,rfl⟩
  | gate n c => exact .inl ⟨carries,rfl,rfl⟩
  | flip k => exact absurd (sound.idle allowed.2.2 (sound.unissued _ (.inr (Nat.lt_succ_self _)))) under_way
  | submit n c => exact absurd (sound.idle allowed.2.2.2.1 allowed.2.2.1) under_way
  | begin n c => cases elsewhere allowed.1 (by simp) (by simp)
  | quit n c => cases elsewhere allowed (by simp) (by simp)
  | skip n r => cases elsewhere allowed (by simp) (by simp)
  | clearBatch n r => cases elsewhere allowed (by simp) (by simp)
  | cutBegin n r => cases elsewhere allowed.1 (by simp) (by simp)
  | cutNext n r => cases elsewhere allowed.1 (by simp) (by simp)
  | cutEnd n r => cases elsewhere allowed.1 (by simp) (by simp)
  | startResync n r c => cases elsewhere allowed.1 (by simp) (by simp)
  | resyncNext n c next => cases elsewhere allowed.1 (by simp) (by simp)
  | resyncEnd n c next => cases elsewhere allowed.1 (by simp) (by simp)
  | settle n c => cases elsewhere allowed (by simp) (by simp)
  | buildNext k r next =>
    obtain ⟨there,inside⟩ := allowed
    have item : s.batch[next]? = some s.batch[next] := List.getElem?_eq_getElem inside
    simp only [apply,buildNext,item]
    exact .inl ⟨onward _ there (by simp) (by simp) rfl rfl,rfl,rfl⟩
  | buildEnd k r c =>
    cases r with
    | task b => exact .inl ⟨onward _ allowed.1 (by simp) (by simp) rfl rfl,rfl,rfl⟩
    | flip j => exact .inl ⟨onward _ allowed.1 (by simp) (by simp) rfl rfl,rfl,rfl⟩
  | swapBegin k c => exact .inl ⟨onward _ allowed.1 (by simp) (by simp) rfl rfl,rfl,rfl⟩
  | swapEnd k r =>
    obtain rfl : k = n := here allowed (by simp) (by simp)
    refine .inr ?_
    simp only [apply,swapEnd,swapReplicas]
    split <;> exact List.mem_append_right _ (List.mem_singleton_self _)

-- Publish `n` has its batch in one state; later it has it still, or that batch
-- is a version.
def Keeps (s t : Versioned T) : Prop :=
  s.versions <+: t.versions ∧ ∀ n, s.Carries n →
    t.Carries n ∧ t.unpublished = s.unpublished ∧ t.journal.batch = s.journal.batch ∨
      Version.mk n s.journal.batch s.unpublished ∈ t.versions

theorem Keeps.trans {r s t : Versioned T} (one : r.Keeps s) (two : s.Keeps t) : r.Keeps t := by
  refine ⟨one.1.trans two.1,?_⟩
  intro n carries
  rcases one.2 n carries with ⟨still,unpublished,batch⟩ | version
  · rw [← unpublished,← batch]
    exact two.2 n still
  · exact .inr (two.1.subset version)

theorem apply_keeps (sound : Sound p s) (allowed : s.Allowed d p checked a) : s.Keeps (s.apply d p checked workers a) := by
  refine ⟨?_,fun n carries => carried_apply sound allowed carries⟩
  rcases apply_versions d p checked workers s a with same | ⟨n,r,_,grown⟩
  · exact same.symm ▸ List.prefix_rfl
  · rw [grown]
    exact List.prefix_append _ _

end Batches

section Reading

-- A swap is under way only in the admission of a writer.
theorem swap_alone (sound : Sound p s) (here : s.stages n = .swapping r) :
    ∃ k, k.link.mode = .readWrite ∧ (s.base.pipes p).outstanding = [k] := by
  have manned := sound.manned n
  rw [here] at manned
  cases r with
  | task b =>
    have running := manned.begun b rfl
    have owns := (manned.posted b (.single ⟨p,.readWrite⟩) rfl).owns sound.base running
    obtain ⟨k,only,mode,_⟩ := owns.ticket sound.base
    exact ⟨k,mode,only⟩
  | flip grant =>
    obtain ⟨out,mode⟩ := manned.granted grant rfl
    have valid := reached_valid sound.base p
    cases active : (s.base.pipes p).pipe.writerActive with
    | true =>
      obtain ⟨k,only,writes,_⟩ := valid.writing active
      exact ⟨k,writes,only⟩
    | false =>
      have reads := (valid.reading active).2 grant out
      rw [mode] at reads
      cases reads

theorem read_unswapped (sound : Sound p s) (out : k ∈ (s.base.pipes p).outstanding) (mode : k.link.mode = .readOnly) :
    s.stages n ≠ .swapping r := by
  intro here
  obtain ⟨writer,writes,only⟩ := swap_alone sound here
  rw [only] at out
  rw [List.mem_singleton.mp out,writes] at mode
  cases mode

end Reading

-- What a publish is to keep. `front` is what every read admission of the front
-- finds while it lasts, the versions so far and no swap under way; `conserved`
-- and `cuts` place the commands, those of a cut in the version it became or in
-- the batch of the one publish that carries it; `begins` is the start of phase 1,
-- `filling` the time from clearing `batch_` to the end of the cut.
structure Faithful (d : Versioning T) (p : PipeId) (s : Versioned T) : Prop where
  front : ∀ k ∈ (s.base.pipes p).outstanding, k.link.mode = .readOnly →
    s.front = d.version s.versions ∧ ∀ n r, s.stages n ≠ .swapping r
  conserved : ∀ c, s.journal.staged.count c+s.unpublished.count c+(s.versions.flatMap Version.commands).count c =
    s.journal.issued.count c ∧ s.journal.issued.count c ≤ 1
  cuts : ∀ c n, (c,n) ∈ s.journal.taken ↔
    (∃ v ∈ s.versions, v.cut = n ∧ c ∈ v.commands) ∨ c ∈ s.unpublished ∧ n = s.journal.batch
  distinct : s.versions.Pairwise (fun v w => v.cut < w.cut ∧ v.publish < w.publish)
  full : ∀ v ∈ s.versions, v.commands ≠ []
  carried : s.unpublished ≠ [] → ∃ n, s.Carries n ∨ ∃ r, s.stages n = .cutting r
  fresh : ∀ n, s.Carries n → s.unpublished = s.batch ∧ ∀ v ∈ s.versions, v.cut < s.journal.batch
  begins : ∀ n r, s.stages n = .building r 0 → s.front = s.shadow
  filling : ∀ n r, s.stages n = .entering r ∨ s.stages n = .locking r ∨ s.stages n = .cutting r →
    ∀ k, (0 < k → k < n → s.stages k = .settled) ∧ (n < k → s.stages k = .waiting)
  history : d.history = .currentAndPrevious →
    s.previous = d.version s.versions.dropLast ∧ s.serial = s.versions.length

theorem tagged_names (versions : List Version) :
    (versions.flatMap Version.tagged).map Prod.fst = versions.flatMap Version.commands := by
  induction versions with
  | nil => rfl
  | cons v rest ih =>
    rw [List.flatMap_cons,List.flatMap_cons,List.map_append,ih]
    simp [Version.tagged,Function.comp_def]

-- Where the unpublished commands are, the publish under way carries or cuts them.
theorem Sound.carrier (sound : Sound p s) (some_left : s.unpublished ≠ []) :
    ∃ n, s.Carries n ∨ ∃ r, s.stages n = .cutting r := by
  obtain ⟨m,_,_,buffered⟩ := sound.relay
  refine ⟨m+1,?_⟩
  cases here : s.stages (m+1) with
  | cutting r => exact .inr ⟨r,rfl⟩
  | building r next => exact .inl (by rw [Carries,here]; rfl)
  | queued c => exact .inl (by rw [Carries,here]; rfl)
  | swapping r => exact .inl (by rw [Carries,here]; rfl)
  | swapped r =>
    rw [here] at buffered
    exact absurd buffered.unpublished some_left
  | resyncing c next =>
    rw [here] at buffered
    exact absurd buffered.2.unpublished some_left
  | _ =>
    rw [here] at buffered
    exact absurd buffered.unpublished some_left

theorem Sound.built (sound : Sound p s) (carries : s.Carries n) : Contents.Built s.contents := by
  cases here : s.stages n with
  | building r next =>
    obtain ⟨_,_,_,_,buffered,_⟩ := sound.now here (by simp) (by simp)
    exact buffered.2
  | queued c =>
    obtain ⟨_,_,_,_,buffered,_⟩ := sound.now here (by simp) (by simp)
    exact buffered
  | swapping r =>
    obtain ⟨_,_,_,_,buffered,_⟩ := sound.now here (by simp) (by simp)
    exact buffered
  | _ => simp [Carries,here,PublishStage.carrying] at carries

theorem Sound.before (sound : Sound p s) (here : s.stages n = stage) (started : stage ≠ .waiting) (unfinished : stage ≠ .settled) :
    ∀ k, (0 < k → k < n → s.stages k = .settled) ∧ (n < k → s.stages k = .waiting) := by
  obtain ⟨m,rfl,_,relay,_⟩ := sound.now here started unfinished
  exact fun k => ⟨fun positive below => relay.finished k positive (Nat.le_of_lt_succ below),relay.resting k⟩

theorem faithful (sound : Sound p s) (values : Values d s) (ordered : Ordered s) : Faithful d p s where
  front := fun k out mode => ⟨values.front,fun n r => read_unswapped sound out mode⟩
  conserved := by
    intro c
    refine ⟨?_,sound.books.journal.row.once c⟩
    have journal : s.journal.Sound := sound.books.journal
    have counted := journal.row.conserved c
    have taken : s.journal.taken = _ := sound.books.taken
    have names : s.journal.row.taken.map Prod.fst = s.versions.flatMap Version.commands++s.unpublished := by
      simp only [Journal.row,taken,List.map_append,List.map_map]
      exact congrArg₂ (·++·) (tagged_names s.versions) (by simp [contents,Function.comp_def])
    have dropped : s.journal.row.dropped = [] := sound.books.undropped
    have staged : s.journal.row.bins.flatten = s.journal.staged := rfl
    have issued : s.journal.row.issued = s.journal.issued := rfl
    rw [names,dropped,staged,issued,List.count_append,List.count_nil] at counted
    omega
  cuts := by
    intro c n
    have taken : s.journal.taken = _ := sound.books.taken
    rw [taken,List.mem_append]
    refine or_congr ?_ ?_
    · simp only [contents,List.mem_flatMap,Version.tagged,List.mem_map]
      grind
    · simp only [contents,List.mem_map]
      grind
  distinct := List.Pairwise.and sound.books.sorted ordered.sorted
  full := sound.books.full
  carried := sound.carrier
  fresh := fun n carries => ⟨(sound.built carries).unpublished,(sound.built carries).newest.later⟩
  begins := by
    intro n r here
    have active := values.active n
    rw [here] at active
    have shadow : s.shadow = d.version s.versions := active (by simp) (by simp)
    rw [values.front,shadow]
  filling := by
    rintro n r (here | here | here)
    · exact sound.before here (by simp) (by simp)
    · exact sound.before here (by simp) (by simp)
    · exact sound.before here (by simp) (by simp)
  history := values.history

end Versioned

theorem versioned_values {s : Versioned T} (resyncs : d.Resyncs)
    (path : Machines.Reached (versionedSystem d p checked workers) s) : Versioned.Values d s := by
  refine Machines.reached_invariant_from (Versioned.Sound p) (Versioned.Values d) (fun _ => versioned_sound) ?_ ?_ path
  · rintro s rfl
    exact Versioned.values_initial d
  · intro s a sound values allowed
    exact Versioned.apply_values values sound resyncs allowed

theorem versioned_ordered {s : Versioned T} (path : Machines.Reached (versionedSystem d p checked workers) s) :
    Versioned.Ordered s := by
  refine Machines.reached_invariant_from (Versioned.Sound p) Versioned.Ordered (fun _ => versioned_sound) ?_ ?_ path
  · rintro s rfl
    exact ⟨.nil,fun v member => by cases member⟩
  · intro s a sound ordered allowed
    exact Versioned.ordered_apply ordered sound allowed

-- Whatever is staged, published, flipped and read, and in whatever order: the
-- versions are the cut batches, and a batch once cut is a version later on.
theorem versioned_publishes {s : Versioned T} (resyncs : d.Resyncs)
    (path : Machines.Reached (versionedSystem d p checked workers) s) :
    Versioned.Faithful d p s ∧
      ∀ actions t, Machines.Runs (versionedSystem d p checked workers) s actions t → s.Keeps t := by
  refine ⟨Versioned.faithful (versioned_sound path) (versioned_values resyncs path) (versioned_ordered path),?_⟩
  intro actions t run
  refine Machines.runs_related Versioned.Keeps ?_ (fun _ _ _ => Versioned.Keeps.trans) ?_ path run
  · intro s
    exact ⟨List.prefix_rfl,fun n carries => .inl ⟨carries,rfl,rfl⟩⟩
  · intro s a reached allowed
    exact Versioned.apply_keeps (versioned_sound reached) allowed

-- Commands that note their stamps.
def logging : Versioning (List Nat) where
  initial := []
  effect := fun c t => t++[c.stamp]
  copy := fun _ source => source
  policy := .copy
  history := .currentAndPrevious

theorem logging_resyncs : logging.Resyncs := ⟨by decide,fun _ _ _ => rfl,fun _ => rfl⟩

def flipTicket : Ticket := ⟨2,⟨.hold 0 none,.readWrite⟩⟩

-- Two commands, published by a task while a third comes in behind the cut; then
-- a flip publishes that one, and its resync job is let in.
def publishRun : List VersionedAction :=
  [.journal (.recorder 0),.journal (.stage 0 0),.journal (.stage 0 0),.publish none,.submit 0 1,
    .base (.resume (.own 1 .execute)),.begin 1 1,.clearBatch 1 (.task 1),.cutBegin 1 (.task 1),.cutNext 1 (.task 1),
    .journal (.stage 0 0),.cutEnd 1 (.task 1),.buildNext 1 (.task 1) 0,.buildNext 1 (.task 1) 1,.buildEnd 1 (.task 1) 2,
    .base (.bodyEnd 1),.base (.resume (.own 2 (.fireTurn 0))),.base (.resume (.own 2 .turnRelease)),
    .base (.resume (.own 2 .execute)),.swapBegin 1 2,.swapEnd 1 (.task 2),.startResync 1 (.task 2) 3,.gate 1 2,
    .base (.bodyEnd 2),.base (.resume (.own 2 (.complete false))),.base (.resume (.own 2 (.advance 0 false))),
    .base (.resume (.own 3 (.fireTurn 0))),.base (.resume (.own 3 .turnRelease)),.base (.resume (.own 3 .execute)),
    .resyncEnd 1 3 0,.settle 1 3,.base (.bodyEnd 3),.base (.resume (.own 3 (.complete false))),
    .base (.resume (.own 3 (.advance 0 false))),.base (.acquire 0 0 .readWrite none),.flip flipTicket,
    .clearBatch 2 (.flip flipTicket),.cutBegin 2 (.flip flipTicket),.cutNext 2 (.flip flipTicket),
    .cutEnd 2 (.flip flipTicket),.buildNext 2 (.flip flipTicket) 0,.buildEnd 2 (.flip flipTicket) 4,
    .swapEnd 2 (.flip flipTicket),.startResync 2 (.flip flipTicket) 4,.base (.releaseHold 0),
    .base (.resume (.own 4 (.fireTurn 0)))]

theorem versioned_publishes_twice :
    let s := (versionedSystem logging 0 true 1).follow (.initial logging) publishRun
    (s.base.pipes 0).outstanding.map (fun k => k.link.mode) = [.readOnly] ∧ s.front = [0,1,2] ∧ s.previous = [0,1] ∧
      s.versions.map (fun v => (v.publish,v.cut)) = [(1,0),(2,1)] ∧ Versioned.Faithful logging 0 s :=
  ⟨by decide +kernel,by decide +kernel,by decide +kernel,by decide +kernel,
    (versioned_publishes logging_resyncs (Machines.reached_follow (.start rfl)
      (by decide +kernel : (versionedSystem logging 0 true 1).admits _ publishRun = true))).1⟩

end Macrame

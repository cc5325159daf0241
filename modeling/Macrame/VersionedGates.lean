import Macrame.VersionedReplicas

namespace Macrame
namespace PublishStage

-- The read job is submitted, or there was none to submit.
def late : PublishStage → Bool
  | .resyncing _ _ => true
  | .resynced _ => true
  | .settled => true
  | _ => false

-- Where the returned task may have settled.
def gated : PublishStage → Bool
  | .skipping (.task _) => true
  | stage => stage.late

-- The read job that has still to resolve the chain.
def reader : PublishStage → Option BlockId
  | .resyncing c _ => some c
  | .resynced c => some c
  | _ => none

theorem late_gated {stage : PublishStage} (late : stage.late = true) : stage.gated = true := by
  cases stage <;> first | rfl | cases late

theorem reader_posted (p : PipeId) {stage : PublishStage} (reader : stage.reader = some c) :
    stage.posted p = some (c,.single ⟨p,.readOnly⟩) := by
  cases stage <;> cases reader <;> rfl

end PublishStage

namespace Versioned

variable {T : Type} {d : Versioning T} {p : PipeId} {s : Versioned T} {n : Nat} {stage : PublishStage}

-- A read job stands in the front's ledger, from before the publish's gate was
-- triggered.
def Ahead (p : PipeId) (base : State) (gate : Option Nat) (c : BlockId) : Prop :=
  ∃ e, Tracked.Stands (base.pipes p) ⟨.link c 0,.readOnly⟩ e ∧ ∀ g, gate = some g → e < g

-- What the triggers of the returned tasks tell of the publishes.
structure Gated (p : PipeId) (s : Versioned T) : Prop where
  gates : ∀ n g, s.gates n = some g → (s.stages n).gated = true
  gating : ∀ n c, s.gating n = some c → (s.stages n).late = true
  reads : ∀ n c, (s.stages n).reader = some c → Ahead p s.base (s.gates n) c

theorem gated_initial (d : Versioning T) (p : PipeId) : Gated p (initial d) := by
  refine ⟨?_,?_,?_⟩
  · intro n g gate
    cases gate
  · intro n c gating
    cases gating
  · intro n c reader
    cases reader

-- A publish goes on, in the same world of tasks or one with another task in it.
theorem Gated.move (gated : Gated p s) (t : Versioned T) (next : PublishStage)
    (shape : t.stages = Function.update s.stages n next) (frame : t.gates = s.gates ∧ t.gating = s.gating)
    (opens : (s.stages n).gated = true → next.gated = true) (onward : (s.stages n).late = true → next.late = true)
    (kept : ∀ k c, (s.stages k).reader = some c → Ahead p s.base (s.gates k) c → Ahead p t.base (s.gates k) c)
    (own : ∀ c, next.reader = some c → (s.stages n).reader = some c) : Gated p t := by
  obtain ⟨gates,gating⟩ := frame
  refine ⟨?_,?_,?_⟩
  · intro k g gate
    rw [gates] at gate
    rw [shape]
    by_cases same : k = n
    · rw [same] at gate
      rw [same,Function.update_self]
      exact opens (gated.gates n g gate)
    · rw [Function.update_of_ne same]
      exact gated.gates k g gate
  · intro k c pending
    rw [gating] at pending
    rw [shape]
    by_cases same : k = n
    · rw [same] at pending
      rw [same,Function.update_self]
      exact onward (gated.gating n c pending)
    · rw [Function.update_of_ne same]
      exact gated.gating k c pending
  · intro k c reader
    have before : (s.stages k).reader = some c := by
      rw [shape] at reader
      by_cases same : k = n
      · rw [same,Function.update_self] at reader
        rw [same]
        exact own c reader
      · rwa [Function.update_of_ne same] at reader
    rw [gates]
    exact kept k c before (gated.reads k c before)

-- Before its late stages a publish can go on freely.
theorem Gated.early (gated : Gated p s) (here : s.stages n = stage) (closed : stage.gated = false) (t : Versioned T)
    (next : PublishStage) (shape : t.stages = Function.update s.stages n next)
    (frame : t.gates = s.gates ∧ t.gating = s.gating) (unread : next.reader = none)
    (kept : ∀ k c, (s.stages k).reader = some c → Ahead p s.base (s.gates k) c → Ahead p t.base (s.gates k) c) :
    Gated p t := by
  refine gated.move t next shape frame ?_ ?_ kept ?_
  · intro open_
    rw [here,closed] at open_
    cases open_
  · intro late
    have open_ := PublishStage.late_gated late
    rw [here,closed] at open_
    cases open_
  · intro c reader
    rw [unread] at reader
    cases reader

theorem Sound.reader_posted (sound : Sound p s) (reader : (s.stages n).reader = some c) :
    s.base.Posted c (.single ⟨p,.readOnly⟩) :=
  (sound.manned n).posted c _ (PublishStage.reader_posted p reader)

theorem Sound.ahead_beside (sound : Sound p s) (links : LinkTable) (resting : (s.base.progress b).status.resting = true)
    (reader : (s.stages n).reader = some c) (ahead : Ahead p s.base gate c) : Ahead p (s.base.submit b links) gate c := by
  obtain ⟨e,stands,before⟩ := ahead
  exact ⟨e,(sound.reader_posted reader).stands_beside sound.base links resting stands,before⟩

theorem startResync_gated (sound : Sound p s) (gated : Gated p s) (here : s.stages n = .swapped r)
    (resting : s.rests c) : Gated p (s.startResync d p n r c) := by
  have ungated : s.gates n = none := by
    cases gate : s.gates n with
    | none => rfl
    | some g =>
      have open_ := gated.gates n g gate
      rw [here] at open_
      cases open_
  -- what is the same for all three policies: the publish is late from here on
  have noted : ∀ (t : Versioned T) (next : PublishStage), t.stages = Function.update s.stages n next → t.gates = s.gates →
      t.gating = Function.update s.gating n r.block → next.late = true →
      (∀ k c, k ≠ n → (s.stages k).reader = some c → Ahead p t.base (s.gates k) c) →
      (∀ c, next.reader = some c → Ahead p t.base none c) → Gated p t := by
    intro t next shape gates gating late others own
    refine ⟨?_,?_,?_⟩
    · intro k g gate
      rw [shape]
      by_cases same : k = n
      · rw [same,Function.update_self]
        exact PublishStage.late_gated late
      · rw [Function.update_of_ne same]
        exact gated.gates k g (gates ▸ gate)
    · intro k b pending
      rw [shape]
      by_cases same : k = n
      · rw [same,Function.update_self]
        exact late
      · rw [gating,Function.update_of_ne same] at pending
        rw [Function.update_of_ne same]
        exact gated.gating k b pending
    · intro k b reader
      rw [shape] at reader
      rw [gates]
      by_cases same : k = n
      · rw [same,Function.update_self] at reader
        rw [same,ungated]
        exact own b reader
      · rw [Function.update_of_ne same] at reader
        exact others k b same reader
  have submitted : Gated p ((({s with gating := Function.update s.gating n r.block} : Versioned T).submit c
      (.single ⟨p,.readOnly⟩)).setStage n (.resyncing c 0)) := by
    refine noted _ (.resyncing c 0) rfl rfl rfl rfl ?_ ?_
    · intro k b _ reader
      exact sound.ahead_beside _ resting reader (gated.reads k b reader)
    · intro b reader
      cases reader
      exact ⟨_,State.submit_stands sound.base c p .readOnly,fun g gate => by cases gate⟩
  unfold startResync
  cases d.policy with
  | replay => exact submitted
  | copy => exact submitted
  | overwrite =>
    refine noted _ .settled rfl rfl rfl rfl ?_ ?_
    · intro k b _ reader
      exact gated.reads k b reader
    · intro b reader
      cases reader

-- A gate is triggered where it may be, with every entry so far before it.
theorem Gated.trigger (gated : Gated p s) (t : Versioned T)
    (gates : t.gates = Function.update s.gates n (some (s.base.pipes p).entered.length)) (base : t.base = s.base)
    (stages : ∀ k, k ≠ n → t.stages k = s.stages k) (gating : ∀ k c, t.gating k = some c → s.gating k = some c)
    (open_ : (t.stages n).gated = true) (onward : (s.stages n).late = true → (t.stages n).late = true)
    (own : ∀ c, (t.stages n).reader = some c → (s.stages n).reader = some c) : Gated p t := by
  refine ⟨?_,?_,?_⟩
  · intro k g gate
    by_cases same : k = n
    · rw [same]
      exact open_
    · rw [gates,Function.update_of_ne same] at gate
      rw [stages k same]
      exact gated.gates k g gate
  · intro k c pending
    have late := gated.gating k c (gating k c pending)
    by_cases same : k = n
    · rw [same] at late ⊢
      exact onward late
    · rw [stages k same]
      exact late
  · intro k c reader
    rw [base]
    by_cases same : k = n
    · rw [same] at reader ⊢
      obtain ⟨e,stands,_⟩ := gated.reads n c (own c reader)
      refine ⟨e,stands,?_⟩
      intro g gate
      rw [gates,Function.update_self] at gate
      cases gate
      exact (List.getElem?_eq_some_iff.mp stands.entry).1
    · rw [stages k same] at reader
      rw [gates,Function.update_of_ne same]
      exact gated.reads k c reader

theorem base_gated (sound : Sound p s) (gated : Gated p s) (allowed : s.base.Allowed a) (free : s.Free p a) :
    Gated p {s with base := s.base.apply a} := by
  refine ⟨gated.gates,gated.gating,?_⟩
  intro n c reader
  obtain ⟨e,stands,before⟩ := gated.reads n c reader
  have posted := PublishStage.reader_posted p reader
  have issued : n < s.publishes+1 := by
    by_contra above
    have waiting := sound.unissued n (.inr (by omega))
    have read : (s.stages n).reader = some c := reader
    rw [waiting] at read
    cases read
  refine ⟨e,(sound.reader_posted reader).stands sound.base allowed ?_ stands,before⟩
  rintro _ rfl
  exact free.1 ⟨n,issued,.inl (PublishStage.posted_holder posted)⟩

theorem apply_gated (sound : Sound p s) (gated : Gated p s) (allowed : s.Allowed d p checked a) :
    Gated p (s.apply d p checked workers a) := by
  have still : ∀ (t : Versioned T), t.base = s.base →
      ∀ k c, (s.stages k).reader = some c → Ahead p s.base (s.gates k) c → Ahead p t.base (s.gates k) c := by
    intro t base k c _ ahead
    rw [base]
    exact ahead
  cases a with
  | base a => exact base_gated sound gated allowed.1 allowed.2
  | journal a => exact ⟨gated.gates,gated.gating,gated.reads⟩
  | publish token => exact ⟨gated.gates,gated.gating,gated.reads⟩
  | flip k =>
    exact gated.early (sound.unissued _ (.inr (Nat.lt_succ_self _))) rfl _ (.entering (.flip k)) rfl ⟨rfl,rfl⟩ rfl
      (still _ rfl)
  | submit n c =>
    exact gated.early allowed.2.2.1 rfl _ (.submitted c) rfl ⟨rfl,rfl⟩ rfl
      (fun k b reader ahead => sound.ahead_beside .empty allowed.2.2.2.2 reader ahead)
  | begin n c =>
    refine gated.early allowed.1 rfl _ (if (s.tokens n).any s.base.tokens = true then .quitting c else .entering (.task c))
      rfl ⟨rfl,rfl⟩ ?_ (still _ rfl)
    split <;> rfl
  | quit n c =>
    have here : s.stages n = .quitting c := allowed
    refine gated.trigger (n := n) _ rfl rfl ?_ (fun _ _ pending => pending) ?_ ?_ ?_
    · intro k other
      exact Function.update_of_ne other _ _
    · exact congrArg PublishStage.gated (Function.update_self n (PublishStage.skipping (.task c)) s.stages)
    · intro late
      rw [here] at late
      cases late
    · intro b reader
      rw [show (s.apply d p checked workers (.quit n c)).stages n = .skipping (.task c) from Function.update_self _ _ _] at reader
      cases reader
  | skip n r =>
    refine gated.move _ .settled rfl ⟨rfl,rfl⟩ (fun _ => rfl) (fun _ => rfl) (still _ rfl) ?_
    intro c reader
    cases reader
  | clearBatch n r => exact gated.early allowed rfl _ (.locking r) rfl ⟨rfl,rfl⟩ rfl (still _ rfl)
  | cutBegin n r => exact gated.early allowed.1 rfl _ (.cutting r) rfl ⟨rfl,rfl⟩ rfl (still _ rfl)
  | cutNext n r =>
    simp only [apply,cutNext]
    split
    · exact ⟨gated.gates,gated.gating,gated.reads⟩
    · exact gated
  | cutEnd n r =>
    refine gated.early allowed.1 rfl _ (if s.batch = [] then r.emptyHanded else .building r 0) rfl ⟨rfl,rfl⟩ ?_ (still _ rfl)
    split
    · cases r <;> rfl
    · rfl
  | buildNext n r next =>
    simp only [apply,buildNext]
    split
    · exact gated.early allowed.1 rfl _ (.building r (next+1)) rfl ⟨rfl,rfl⟩ rfl (still _ rfl)
    · exact gated
  | buildEnd n r c =>
    cases r with
    | flip k => exact gated.early allowed.1 rfl _ (.swapping (.flip k)) rfl ⟨rfl,rfl⟩ rfl (still _ rfl)
    | task b =>
      exact gated.early allowed.1 rfl _ (.queued c) rfl ⟨rfl,rfl⟩ rfl
        (fun k b reader ahead => sound.ahead_beside _ allowed.2 reader ahead)
  | swapBegin n c => exact gated.early allowed.1 rfl _ (.swapping (.task c)) rfl ⟨rfl,rfl⟩ rfl (still _ rfl)
  | swapEnd n r =>
    have frame : (s.swapEnd d n r).stages = Function.update s.stages n (.swapped r) ∧
        (s.swapEnd d n r).gates = s.gates ∧ (s.swapEnd d n r).gating = s.gating ∧ (s.swapEnd d n r).base = s.base := by
      simp only [swapEnd,swapReplicas]
      split <;> exact ⟨rfl,rfl,rfl,rfl⟩
    exact gated.early allowed rfl _ (.swapped r) frame.1 ⟨frame.2.1,frame.2.2.1⟩ rfl (still _ frame.2.2.2)
  | startResync n r c => exact startResync_gated sound gated allowed.1 allowed.2
  | gate n c =>
    have late := gated.gating n c allowed
    refine gated.trigger (n := n) _ rfl rfl (fun _ _ => rfl) ?_ (PublishStage.late_gated late) (fun late => late)
      (fun _ reader => reader)
    intro k b pending
    by_cases same : k = n
    · rw [same] at pending
      rw [show (s.apply d p checked workers (.gate n c)).gating n = none from Function.update_self _ _ _] at pending
      cases pending
    · rwa [show (s.apply d p checked workers (.gate n c)).gating k = s.gating k from Function.update_of_ne same _ _] at pending
  | resyncNext n c next =>
    have here : s.stages n = .resyncing c next := allowed.1
    simp only [apply,resyncNext]
    split
    · refine gated.move _ (.resyncing c (next+1)) rfl ⟨rfl,rfl⟩ (fun _ => rfl) (fun _ => rfl) (still _ rfl) ?_
      intro b reader
      rw [here]
      exact reader
    · exact gated
  | resyncEnd n c next =>
    have here : s.stages n = .resyncing c next := allowed.1
    refine gated.move _ (.resynced c) rfl ⟨rfl,rfl⟩ (fun _ => rfl) (fun _ => rfl) (still _ rfl) ?_
    intro b reader
    rw [here]
    exact reader
  | settle n c =>
    refine gated.move _ .settled rfl ⟨rfl,rfl⟩ (fun _ => rfl) (fun _ => rfl) (still _ rfl) ?_
    intro b reader
    cases reader

end Versioned

theorem versioned_gated {s : Versioned T} (path : Machines.Reached (versionedSystem d p checked workers) s) :
    Versioned.Gated p s := by
  refine Machines.reached_invariant_from (Versioned.Sound p) (Versioned.Gated p) (fun _ => versioned_sound) ?_ ?_ path
  · rintro s rfl
    exact Versioned.gated_initial d p
  · intro s a sound gated allowed
    exact Versioned.apply_gated sound gated allowed

-- The task that publish `n` returned had settled when the link of this admission
-- came to the front: a ticket's number is its place among all entries.
def Versioned.SettledBefore (s : Versioned T) (k : Ticket) (n : Nat) : Prop := ∃ g, s.gates n = some g ∧ g ≤ k.number

-- A flip that was ordered behind the tasks of all earlier publishes finds the
-- chain resolved: their read jobs came to the front before it did. It holds
-- outside an early out that has triggered the first of its two signals.
theorem flip_resolved {s : Versioned T} (path : Machines.Reached (versionedSystem d p checked workers) s)
    (out : k ∈ (s.base.pipes p).outstanding) (mode : k.link.mode = .readWrite)
    (ordered : ∀ n, 0 < n → n ≤ s.publishes → s.dynamic n = true → s.SettledBefore k n)
    (flips : ∀ n, 0 < n → n ≤ s.publishes → s.dynamic n = false → s.ready n = true)
    (apart : ∀ n c, s.stages n ≠ .skipping (.task c)) : s.ready s.publishes = true := by
  have sound := versioned_sound path
  have gated := versioned_gated path
  obtain ⟨m,low,relay,_⟩ := sound.relay
  by_cases last : m = s.publishes
  · exact relay.passed _ (Nat.le_of_eq last.symm)
  · have issued : m+1 ≤ s.publishes := Nat.lt_of_le_of_ne low last
    have held : s.ready (m+1) = false := relay.held _ (Nat.lt_succ_self m)
    exfalso
    cases dynamic : s.dynamic (m+1) with
    | false =>
      rw [flips _ (Nat.succ_pos m) issued dynamic] at held
      cases held
    | true =>
      obtain ⟨g,gate,before⟩ := ordered _ (Nat.succ_pos m) issued dynamic
      have open_ := gated.gates _ g gate
      have job : ∀ c, (s.stages (m+1)).reader = some c → False := by
        intro c reader
        obtain ⟨e,stands,early⟩ := gated.reads _ c reader
        have behind := (reached_valid sound.base p).passed out mode stands
        exact absurd (Nat.lt_of_lt_of_le (early g gate) (Nat.le_trans before behind)) (Nat.lt_irrefl e)
      cases stage : s.stages (m+1) with
      | skipping r =>
        cases r with
        | task c => exact apart _ c stage
        | flip j => rw [stage] at open_; cases open_
      | resyncing c next => exact job c (by rw [stage]; rfl)
      | resynced c => exact job c (by rw [stage]; rfl)
      | settled => exact relay.next stage
      | _ => rw [stage] at open_; cases open_

-- The first publish of `publishRun`, and a writer that asks for the front when
-- all of it is over.
def orderedRun : List VersionedAction :=
  publishRun.take 35

theorem flip_resolved_ordered :
    let s := (versionedSystem logging 0 true 1).follow (.initial logging) orderedRun
    s.ready s.publishes = true := by
  have path := Machines.reached_follow (.start rfl)
    (by decide +kernel : (versionedSystem logging 0 true 1).admits (.initial logging) orderedRun = true)
  have issued : ((versionedSystem logging 0 true 1).follow (.initial logging) orderedRun).publishes = 1 := by decide +kernel
  refine flip_resolved path (k := flipTicket) (by decide +kernel) rfl ?_ ?_ ?_
  · intro n positive low dynamic
    obtain rfl : n = 1 := by omega
    exact ⟨2,by decide +kernel,by decide⟩
  · intro n positive low dynamic
    obtain rfl : n = 1 := by omega
    decide +kernel
  · intro n c
    by_cases other : n = 0 ∨ 1 < n
    · rw [(versioned_sound path).unissued n (by rw [issued]; exact other)]
      simp
    · obtain rfl : n = 1 := by omega
      have past : ((versionedSystem logging 0 true 1).follow (.initial logging) orderedRun).stages 1 = .settled := by
        decide +kernel
      rw [past]
      simp

-- The writer asks for the front while the swap is at work, so that the read job
-- queues behind it.
def overtakingRun : List VersionedAction :=
  publishRun.take 20++[.base (.acquire 0 0 .readWrite none)]++(publishRun.drop 20).take 6++[.base (.resume (.fireHold 0))]

theorem flip_check_fires :
    let s := (versionedSystem logging 0 true 1).follow (.initial logging) overtakingRun
    Machines.Reached (versionedSystem logging 0 true 1) s ∧
      (∃ k ∈ (s.base.pipes 0).outstanding, k.link = ⟨.hold 0 none,.readWrite⟩) ∧ s.base.holds 0 = .held 0 .readWrite none ∧
      s.publishes = 1 ∧ s.dynamic 1 = true ∧ (s.gates 1).isSome = true ∧ s.ready s.publishes = false :=
  ⟨Machines.reached_follow (.start rfl)
      (by decide +kernel : (versionedSystem logging 0 true 1).admits (.initial logging) overtakingRun = true),
    ⟨⟨1,⟨.hold 0 none,.readWrite⟩⟩,by decide +kernel,rfl⟩,by decide +kernel,by decide +kernel,by decide +kernel,
    by decide +kernel,by decide +kernel⟩

end Macrame

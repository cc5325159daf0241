import Macrame.AccessContext
import Macrame.PipeLaws

namespace Macrame
namespace Tracked

theorem Counted.parity (counted : Counted t) : t.pipe.writeEpoch % 2 = 1 ↔ t.pipe.writerActive = true := by
  have epochs := counted.epochs
  cases active : t.pipe.writerActive with
  | true => simp only [active,ite_true] at epochs; simp; omega
  | false => simp only [active,Bool.false_eq_true,ite_false] at epochs; simp; omega

-- The epoch of an admission's window, read off the admission alone: odd and one
-- below twice the writes up to a write admission, even for a read one.
def windowEpoch (admitted : List PipeLink) (k : Ticket) : Nat :=
  match k.link.mode with
  | .readWrite => 2*writes (admitted.take (k.number+1))-1
  | .readOnly => 2*writes (admitted.take (k.number+1))

theorem writes_take_drop (links : List PipeLink) (n : Nat) : writes links = writes (links.take n)+writes (links.drop n) := by
  rw [← writes_append,List.take_append_drop]

theorem Counted.window (counted : Counted t) (out : k ∈ t.outstanding) :
    t.pipe.writeEpoch = windowEpoch t.admitted k := by
  have epochs := counted.epochs
  have latest := counted.latest k out
  have split := writes_take_drop t.admitted (k.number+1)
  unfold windowEpoch
  cases active : t.pipe.writerActive with
  | true =>
    obtain ⟨writer,only,mode,_⟩ := counted.writing active
    obtain rfl : k = writer := by simpa [only] using out
    simp only [active,ite_true] at epochs
    rw [mode]
    simp only
    omega
  | false =>
    simp only [active,Bool.false_eq_true,ite_false] at epochs
    rw [(counted.reading active).2 k out]
    simp only
    omega

theorem Counted.window_odd (counted : Counted t) (out : k ∈ t.outstanding) :
    t.pipe.writeEpoch % 2 = 1 ↔ k.link.mode = .readWrite := by
  rw [counted.parity]
  cases active : t.pipe.writerActive with
  | true =>
    obtain ⟨writer,only,mode,_⟩ := counted.writing active
    have same : k = writer := by simpa [only] using out
    simp [same,mode]
  | false => simp [(counted.reading active).2 k out]

-- A write admission counts itself.
theorem Counted.window_positive (counted : Counted t) (out : k ∈ t.outstanding) (mode : k.link.mode = .readWrite) :
    0 < writes (t.admitted.take (k.number+1)) := by
  refine List.countP_pos_iff.mpr ⟨k.link,?_,by simp [mode]⟩
  have place := counted.numbered k out
  refine List.mem_of_getElem? (i := k.number) ?_
  rw [List.getElem?_take_of_lt (Nat.lt_succ_self _)]
  exact place

-- Two write admissions with the same count are the same admission.
theorem writes_take_lt (links : List PipeLink) (place : links[j]? = some l) (mode : l.mode = .readWrite) (before : i < j) :
    writes (links.take (i+1)) < writes (links.take (j+1)) := by
  obtain ⟨bounded,here⟩ := List.getElem?_eq_some_iff.mp place
  have last : links.take (j+1) = links.take j++[l] := by rw [List.take_succ_eq_append_getElem bounded,here]
  have grown : links.take (i+1) <+: links.take j := List.take_prefix_take_left (by omega)
  obtain ⟨more,split⟩ := grown
  rw [last,writes_append,← split,writes_append]
  have one : writes [l] = 1 := by simp [writes,mode]
  omega

theorem Section.epoch_mono (sect : Section t u) : t.pipe.writeEpoch ≤ u.pipe.writeEpoch := by
  have admitted : ∀ (pipe : Pipe) (l : PipeLink), pipe.writeEpoch ≤ (pipe.admitLocked l).writeEpoch := by
    intro pipe l
    unfold Pipe.admitLocked
    cases l.mode <;> simp
  have collected : ∀ (queue : List PipeLink) (pipe : Pipe), pipe.writeEpoch ≤ (Pipe.collectFrom queue pipe).1.writeEpoch := by
    intro queue
    induction queue with
    | nil => exact fun pipe => Nat.le_refl _
    | cons l rest ih =>
      intro pipe
      unfold Pipe.collectFrom
      split
      · exact Nat.le_trans (admitted {pipe with queue := rest} l) (ih _)
      · exact Nat.le_refl _
  cases sect with
  | same => exact Nat.le_refl _
  | entered l =>
    unfold enter Pipe.enterLocked
    split
    · exact admitted t.pipe l
    · exact Nat.le_refl _
  | inlined l free => exact admitted t.pipe l
  | released l out =>
    have forgotten : t.pipe.writeEpoch ≤ (t.forget l).pipe.writeEpoch := by
      unfold forget Pipe.releaseMode
      cases l.mode <;> simp
    have noted : ∀ (granted : List PipeLink) (u : Tracked), (granted.foldl noteAdmitted u).pipe = u.pipe := by
      intro granted
      induction granted with
      | nil => exact fun _ => rfl
      | cons head rest ih => intro u; rw [List.foldl_cons,ih]; rfl
    unfold release Pipe.releaseLocked Pipe.collectAdmissions
    dsimp only
    rw [noted]
    exact Nat.le_trans forgotten (collected _ _)

-- The window of an admission is fixed once it is admitted.
theorem windowEpoch_stable (extended : earlier <+: later) (within : k.number < earlier.length) :
    windowEpoch later k = windowEpoch earlier k := by
  obtain ⟨more,rfl⟩ := extended
  unfold windowEpoch
  rw [List.take_append_of_le_length (by omega)]

end Tracked

def State.epochs (s : State) : PipeId → Nat := fun p => (s.pipes p).pipe.writeEpoch

def AccessContext.single (e : Entry) : AccessContext := ⟨[e],by simp [maxEntries]⟩

-- `e` was declared on the object of `p` by a body that runs inside admission `k`,
-- in a mode that admission serves.
structure CapturedIn (s : State) (p : PipeId) (k : Ticket) (e : Entry) : Prop where
  out : k ∈ (s.pipes p).outstanding
  entry : e = Entry.capture s.epochs p e.mode (some p) e.rank
  covers : k.link.mode.covers e.mode = true

theorem runs_epoch_mono (path : Machines.Reached system s) (run : Machines.Runs system s actions t) (p : PipeId) :
    s.epochs p ≤ t.epochs p :=
  Machines.runs_related (fun s t => s.epochs p ≤ t.epochs p) (fun _ => Nat.le_refl _) (fun _ _ _ => Nat.le_trans)
    (fun _ _ reached allowed => (State.apply_section (reached_accounts reached) allowed p).epoch_mono) path run

namespace CapturedIn

theorem captured (inside : CapturedIn s p k e) : e.captured = s.epochs p := by
  rw [inside.entry]; rfl

theorem granted_iff (inside : CapturedIn s p k e) (epochs : PipeId → Nat) (mode : Access) :
    (AccessContext.single e).grants .checked epochs p mode = true ↔
      e.mode.covers mode = true ∧ epochs p = s.epochs p := by
  rw [AccessContext.grants_iff]
  have target : e.target = p := by rw [inside.entry]; rfl
  have source : e.epoch = some p := by rw [inside.entry]; rfl
  simp [AccessContext.single,AccessContext.Answers,Entry.current,target,source,inside.captured]

theorem window (inside : CapturedIn s p k e) (path : Machines.Reached system s)
    (run : Machines.Runs system s actions t) : s.epochs p = Tracked.windowEpoch (t.pipes p).admitted k := by
  have valid := reached_valid path p
  rw [Tracked.windowEpoch_stable (runs_extends path run p).2 (valid.below inside.out)]
  exact valid.window inside.out

-- A write admission whose window is the current one is still out.
theorem write_out (inside : CapturedIn s p k e) (mode : k.link.mode = .readWrite) (path : Machines.Reached system s)
    (run : Machines.Runs system s actions t) (same : t.epochs p = s.epochs p) : k ∈ (t.pipes p).outstanding := by
  have before := reached_valid path p
  have after := reached_valid (Machines.runs_reached path run) p
  obtain ⟨_,extended⟩ := runs_extends path run p
  have below := before.below inside.out
  have shown := inside.window path run
  have counted : Tracked.writes ((t.pipes p).admitted.take (k.number+1)) =
      Tracked.writes ((s.pipes p).admitted.take (k.number+1)) := by
    obtain ⟨more,grown⟩ := extended
    rw [← grown,List.take_append_of_le_length (by omega)]
  have positive := before.window_positive inside.out mode
  have active : (t.pipes p).pipe.writerActive = true := by
    refine after.parity.mp ?_
    have odd : t.epochs p % 2 = 1 := by
      rw [same,shown]
      simp only [Tracked.windowEpoch,mode]
      omega
    exact odd
  obtain ⟨writer,only,writes,_⟩ := after.writing active
  have out : writer ∈ (t.pipes p).outstanding := by simp [only]
  have current := after.window out
  have place : (t.pipes p).admitted[k.number]? = some k.link := by
    obtain ⟨more,grown⟩ := extended
    rw [← grown,List.getElem?_append_left below]
    exact before.numbered k inside.out
  have equal : Tracked.writes ((t.pipes p).admitted.take (writer.number+1)) =
      Tracked.writes ((t.pipes p).admitted.take (k.number+1)) := by
    have both : Tracked.windowEpoch (t.pipes p).admitted writer = Tracked.windowEpoch (t.pipes p).admitted k := by
      rw [← current,← shown]; exact same
    have counts := after.window_positive out writes
    simp only [Tracked.windowEpoch,writes,mode] at both
    omega
  -- equal counts of writes up to two write admissions leave only one of them
  have number : writer.number = k.number := by
    rcases Nat.lt_trichotomy writer.number k.number with lower | equal | higher
    · have grows := Tracked.writes_take_lt _ place mode lower
      omega
    · exact equal
    · have grows := Tracked.writes_take_lt _ (after.numbered writer out) writes higher
      omega
  have link : writer.link = k.link := by
    have here := after.numbered writer out
    rw [number,place] at here
    exact (Option.some.inj here).symm
  obtain rfl : writer = k := by cases writer; cases k; simp_all
  exact out

-- The epoch a read admission sees stands until the next write is admitted.
theorem read_until (inside : CapturedIn s p k e) (mode : k.link.mode = .readOnly) (path : Machines.Reached system s)
    (run : Machines.Runs system s actions t) :
    t.epochs p = s.epochs p ↔ Tracked.writes ((t.pipes p).admitted.drop (s.pipes p).admitted.length) = 0 := by
  have before := reached_valid path p
  have after := reached_valid (Machines.runs_reached path run) p
  have inactive : (s.pipes p).pipe.writerActive = false := by
    have unwritten : ¬ k.link.mode = .readWrite := by simp [mode]
    rw [← before.window_odd inside.out,before.parity] at unwritten
    simpa using unwritten
  have early := before.epochs
  have late := after.epochs
  have mono : (s.pipes p).pipe.writeEpoch ≤ (t.pipes p).pipe.writeEpoch := runs_epoch_mono path run p
  have counted : Tracked.writes (t.pipes p).admitted = Tracked.writes (s.pipes p).admitted+
      Tracked.writes ((t.pipes p).admitted.drop (s.pipes p).admitted.length) := by
    obtain ⟨more,grown⟩ := (runs_extends path run p).2
    rw [← grown,List.drop_left,Tracked.writes_append]
  simp only [inactive,Bool.false_eq_true,ite_false] at early
  show (t.pipes p).pipe.writeEpoch = (s.pipes p).pipe.writeEpoch ↔ _
  cases active : (t.pipes p).pipe.writerActive with
  | true => simp only [active,ite_true] at late; omega
  | false => simp only [active,Bool.false_eq_true,ite_false] at late; omega

end CapturedIn

-- Grant epochs are sound. The epoch is odd exactly while a writer is in; entries
-- captured in two admissions of one pipe, one of them a write, never answer
-- together; a write entry answers only while its admission is out; a read entry
-- of a read admission answers exactly until the next write admission.
theorem grant_epochs_sound :
    (∀ s p, Machines.Reached system s → (s.epochs p % 2 = 1 ↔ (s.pipes p).pipe.writerActive = true)) ∧
    (∀ s t r before after p k k' e e', Machines.Reached system s → CapturedIn s p k e → Machines.Runs system s before t →
      CapturedIn t p k' e' → Machines.Runs system t after r → k ≠ k' →
      k.link.mode = .readWrite ∨ k'.link.mode = .readWrite → ∀ mode mode',
      ¬ ((AccessContext.single e).grants .checked r.epochs p mode = true ∧
        (AccessContext.single e').grants .checked r.epochs p mode' = true)) ∧
    (∀ s t actions p k e, Machines.Reached system s → CapturedIn s p k e → Machines.Runs system s actions t →
      e.mode = .readWrite → ∀ mode, (AccessContext.single e).grants .checked t.epochs p mode = true →
      k ∈ (t.pipes p).outstanding) ∧
    (∀ s t actions p k e, Machines.Reached system s → CapturedIn s p k e → Machines.Runs system s actions t →
      k.link.mode = .readOnly → ((AccessContext.single e).grants .checked t.epochs p .readOnly = true ↔
        Tracked.writes ((t.pipes p).admitted.drop (s.pipes p).admitted.length) = 0)) := by
  have writing : ∀ {s t actions p k e}, Machines.Reached system s → CapturedIn s p k e →
      Machines.Runs system s actions t → k.link.mode = .readWrite → t.epochs p = s.epochs p →
      (t.pipes p).outstanding = [k] := by
    intro s t actions p k e path inside run mode same
    have valid := reached_valid (Machines.runs_reached path run) p
    have out := inside.write_out mode path run same
    obtain ⟨writer,only,_⟩ := valid.writing (valid.parity.mp ((valid.window_odd out).mpr mode))
    have alone : k = writer := by simpa [only] using out
    rw [alone,only]
  refine ⟨fun s p path => (reached_valid path p).parity,?_,?_,?_⟩
  · rintro s t r before after p k k' e e' path inside run inside' run' apart conflict mode mode' ⟨one,two⟩
    have middle := Machines.runs_reached path run
    have early := ((inside.granted_iff r.epochs mode).mp one).2
    have late := ((inside'.granted_iff r.epochs mode').mp two).2
    -- equal epochs have equal parity, so both are writes, and each is alone on the pipe
    have together : k.link.mode = .readWrite ↔ k'.link.mode = .readWrite := by
      rw [← (reached_valid path p).window_odd inside.out,← (reached_valid middle p).window_odd inside'.out]
      show s.epochs p % 2 = 1 ↔ t.epochs p % 2 = 1
      rw [← early,← late]
    have write : k.link.mode = .readWrite ∧ k'.link.mode = .readWrite := by tauto
    have alone := writing path inside (run.append run') write.1 early
    rw [writing middle inside' run' write.2 late] at alone
    exact apart (by simpa using alone.symm)
  · intro s t actions p k e path inside run mode wanted granted
    have write : k.link.mode = .readWrite := by
      have covers := inside.covers
      rw [mode] at covers
      cases held : k.link.mode with
      | readWrite => rfl
      | readOnly => rw [held] at covers; cases covers
    exact inside.write_out write path run ((inside.granted_iff t.epochs wanted).mp granted).2
  · intro s t actions p k e path inside run mode
    rw [inside.granted_iff,← inside.read_until mode path run]
    have covers : e.mode.covers .readOnly = true := by cases e.mode <;> rfl
    simp [covers]

-- The write admission of task 0, its release, then the write admission of task 1.
def twoWindows : List Action :=
  twoWriters++[.resume (.own 0 (.fireTurn 0)),.resume (.own 0 .turnRelease),.resume (.own 0 .execute)]

def handedOver : List Action :=
  [.bodyEnd 0,.resume (.own 0 (.complete false)),.resume (.own 0 (.advance 0 false))]

theorem grant_epochs_sound_handover :
    let s := system.follow .initial twoWindows
    let t := system.follow s handedOver
    let e := Entry.capture s.epochs 0 .readWrite (some 0) 0
    let e' := Entry.capture t.epochs 0 .readWrite (some 0) 0
    (AccessContext.single e').grants .checked t.epochs 0 .readWrite = true ∧
    ¬ ((AccessContext.single e).grants .checked t.epochs 0 .readWrite = true ∧
      (AccessContext.single e').grants .checked t.epochs 0 .readWrite = true) := by
  refine ⟨by decide,?_⟩
  exact grant_epochs_sound.2.1 _ _ _ handedOver [] 0 ⟨0,⟨.link 0 0,.readWrite⟩⟩ ⟨1,⟨.link 1 0,.readWrite⟩⟩ _ _
    (Machines.reached_follow (.start rfl) (by decide)) ⟨by decide,rfl,by decide⟩ (Machines.runs_follow (by decide))
    ⟨by decide,rfl,by decide⟩ .nil (by decide) (.inl rfl) .readWrite .readWrite

end Macrame

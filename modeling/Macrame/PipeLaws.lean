import Macrame.Coherence

namespace Macrame
namespace Tracked

-- The reader/writer law of one pipe, between its counters and the admissions
-- that are out.
structure Exclusive (t : Tracked) : Prop where
  writer : t.pipe.writerActive = true → t.pipe.activeReaders = 0 ∧ writes t.held = 1
  unwritten : t.pipe.writerActive = false → writes t.held = 0
  readers : t.pipe.activeReaders = reads t.held
  owner : ∀ l ∈ t.held, l.mode = .readWrite → t.pipe.writerOwner = l.grantee
  unowned : writes t.held = 0 → t.pipe.writerOwner = none

theorem Counted.exclusive (counted : Counted t) : Exclusive t := by
  cases active : t.pipe.writerActive with
  | true =>
    obtain ⟨k,only,mode,owner⟩ := counted.writing active
    have held : t.held = [k.link] := by simp [Tracked.held,only]
    refine ⟨?_,?_,counted.readers,?_,?_⟩
    · intro _
      rw [counted.readers,held]
      exact ⟨by simp [reads,mode],by simp [writes,mode]⟩
    · intro inactive; rw [active] at inactive; cases inactive
    · intro l out _
      rw [held,List.mem_singleton] at out
      rw [out,owner]
    · intro none_writing
      rw [held] at none_writing
      simp [writes,mode] at none_writing
  | false =>
    obtain ⟨unowned,onlyReads⟩ := counted.reading active
    have unwritten : writes t.held = 0 := by
      refine List.countP_eq_zero.mpr ?_
      intro l out
      obtain ⟨k,member,rfl⟩ := List.mem_map.mp out
      simp [onlyReads k member]
    refine ⟨?_,fun _ => unwritten,counted.readers,?_,fun _ => unowned⟩
    · intro now; rw [active] at now; cases now
    · intro l out mode
      obtain ⟨k,member,rfl⟩ := List.mem_map.mp out
      rw [onlyReads k member] at mode
      cases mode

end Tracked

namespace State

-- The parties of a pipe: what stands in its queue, and what is out.
theorem waiting_iff (acc : Accounts s) :
    ⟨.link b i,m⟩ ∈ (s.pipes p).pipe.queue ↔
      (s.progress b).status = .waiting i ∧ (s.blocks b).links.entries[i]? = some ⟨p,m⟩ := by
  refine ⟨queued_status acc,?_⟩
  intro here
  have counted := (acc.blocks b).queued p i m
  rw [footprint_progress,footprint_block,if_pos here] at counted
  have once : (s.pipes p).pipe.queue.count ⟨.link b i,m⟩ = 1 := counted
  exact List.count_pos_iff.mp (by omega)

theorem holding_iff (acc : Accounts s) :
    ⟨.link b i,m⟩ ∈ (s.pipes p).held ↔
      (s.progress b).status.holds i = true ∧ (s.blocks b).links.entries[i]? = some ⟨p,m⟩ := by
  have counted := (acc.blocks b).held p i m
  rw [footprint_progress,footprint_block] at counted
  rw [← List.count_pos_iff,show (s.pipes p).held.count ⟨.link b i,m⟩ = _ from counted]
  split <;> rename_i here <;> simp [here]

theorem hold_holding_iff (acc : Accounts s) :
    ⟨.hold h o,m⟩ ∈ (s.pipes p).held ↔ s.holds h = .granted p m o ∨ s.holds h = .held p m o := by
  have counted := (acc.holds h).held p o m
  rw [holdprint_hold] at counted
  rw [← List.count_pos_iff,show (s.pipes p).held.count ⟨.hold h o,m⟩ = _ from counted]
  split <;> rename_i here <;> simp [here]

-- Every participant has given back what it was admitted to and waits for nothing.
def Released (s : State) : Prop :=
  (∀ b i, (s.progress b).status.holds i = false ∧ (s.progress b).status ≠ .waiting i) ∧ ∀ h, s.holds h = .idle

theorem released_none_out (acc : Accounts s) (released : s.Released) (p : PipeId) : (s.pipes p).outstanding = [] := by
  have none_held : ∀ l, l ∉ (s.pipes p).held := by
    rintro ⟨party,m⟩ out
    cases party with
    | link b i =>
      have holding := ((holding_iff acc).mp out).1
      rw [(released.1 b i).1] at holding
      cases holding
    | hold h o =>
      rcases (hold_holding_iff acc).mp out with granted | held
      · rw [released.2 h] at granted; cases granted
      · rw [released.2 h] at held; cases held
  have empty := List.eq_nil_iff_forall_not_mem.mpr none_held
  simpa [Tracked.held] using empty

end State

-- Exclusion and accounting on every pipe, in every reachable state: the
-- counters are the admissions that participants hold, and when all of them
-- have released nothing is left behind.
theorem pipes_exclusive (path : Machines.Reached system s) (p : PipeId) :
    Tracked.Exclusive (s.pipes p) ∧
    (∀ b i m, ⟨.link b i,m⟩ ∈ (s.pipes p).held ↔
      (s.progress b).status.holds i = true ∧ (s.blocks b).links.entries[i]? = some ⟨p,m⟩) ∧
    (∀ h o m, ⟨.hold h o,m⟩ ∈ (s.pipes p).held ↔ s.holds h = .granted p m o ∨ s.holds h = .held p m o) ∧
    (s.Released → (s.pipes p).pipe.idle = true ∧ (s.pipes p).pipe.queue = [] ∧ (s.pipes p).pipe.writerOwner = none) := by
  have acc := reached_accounts path
  have valid := reached_valid path p
  refine ⟨valid.toCounted.exclusive,fun b i m => State.holding_iff acc,fun h o m => State.hold_holding_iff acc,?_⟩
  intro released
  obtain ⟨queue,readers,writer,owner⟩ := valid.idle (State.released_none_out acc released p)
  exact ⟨by simp [Pipe.idle,queue,readers,writer],queue,owner⟩

-- A reading task and a reading hold of another owner are in, a writer waits behind them.
def contended : List Action :=
  [.arm 0 .executable (.single ⟨0,.readOnly⟩) none,.launch 0,.acquire 3 0 .readOnly (some 5),
    .arm 1 .executable (.single ⟨0,.readWrite⟩) none,.launch 1]

theorem pipes_exclusive_contended :
    let s := system.follow .initial contended
    (s.pipes 0).held = [⟨.link 0 0,.readOnly⟩,⟨.hold 3 (some 5),.readOnly⟩] ∧ (s.pipes 0).pipe.queue = [⟨.link 1 0,.readWrite⟩] ∧
    (s.pipes 0).pipe.activeReaders = 2 ∧ Tracked.Exclusive (s.pipes 0) ∧ (s.progress 0).status.holds 0 = true ∧
    s.holds 3 = .held 0 .readOnly (some 5) := by
  obtain ⟨exclusive,links,holds,_⟩ := pipes_exclusive
    (Machines.reached_follow (.start rfl) (by decide : system.admits .initial contended = true)) 0
  exact ⟨by decide,by decide,by decide,exclusive,((links 0 0 .readOnly).mp (by decide)).1,
    ((holds 3 (some 5) .readOnly).mp (by decide)).resolve_left (by decide)⟩

-- No entry waits that the rules would let in: a waiting head is held up by an
-- admission some participant still has out, and that admission's release runs
-- the pass that would let it in. Admissions follow the order of entry.
theorem pipes_fifo (path : Machines.Reached system s) (p : PipeId) :
    (∀ l rest, (s.pipes p).pipe.queue = l :: rest →
      (s.pipes p).pipe.admissible l.mode = false ∧
      ∃ k ∈ (s.pipes p).held, (k.mode = .readWrite ∨ l.mode = .readWrite) ∧
        Tracked.Blocked ((s.pipes p).release k).1) ∧
    (s.pipes p).entered = (s.pipes p).admitted++(s.pipes p).pipe.queue ∧
    (∀ actions t, Machines.Runs system s actions t →
      (s.pipes p).entered <+: (t.pipes p).entered ∧ (s.pipes p).admitted <+: (t.pipes p).admitted) := by
  have valid := reached_valid path p
  refine ⟨?_,valid.fifo,fun actions t run => runs_extends path run p⟩
  intro l rest queue
  obtain ⟨k,out,conflict⟩ := valid.blocker queue
  have held : k.link ∈ (s.pipes p).held := List.mem_map_of_mem out
  exact ⟨valid.blocked l rest queue,k.link,held,conflict,(Tracked.release_valid valid held).blocked⟩

-- A second writer queues behind the first.
def twoWriters : List Action :=
  [.arm 0 .executable (.single ⟨0,.readWrite⟩) none,.launch 0,.arm 1 .executable (.single ⟨0,.readWrite⟩) none,.launch 1]

theorem pipes_fifo_queued :
    ((system.follow .initial twoWriters).pipes 0).pipe.queue = [⟨.link 1 0,.readWrite⟩] ∧
    ((system.follow .initial twoWriters).pipes 0).entered =
      ((system.follow .initial twoWriters).pipes 0).admitted++((system.follow .initial twoWriters).pipes 0).pipe.queue :=
  ⟨by decide,(pipes_fifo (Machines.reached_follow (.start rfl) (by decide)) 0).2.1⟩

end Macrame

import Macrame.Lib.Relay
import Macrame.Versioned

namespace Macrame
namespace PublishStage

-- The task of a stage, by what it was made for.
def posted (p : PipeId) : PublishStage → Option (BlockId × LinkTable)
  | .submitted c => some (c,.empty)
  | .quitting c => some (c,.empty)
  | .skipping r => r.block.map (fun c => (c,.empty))
  | .entering r => r.block.map (fun c => (c,.empty))
  | .locking r => r.block.map (fun c => (c,.empty))
  | .cutting r => r.block.map (fun c => (c,.empty))
  | .building r _ => r.block.map (fun c => (c,.empty))
  | .queued c => some (c,.single ⟨p,.readWrite⟩)
  | .swapping r => r.block.map (fun c => (c,.single ⟨p,.readWrite⟩))
  | .swapped r => r.block.map (fun c => (c,.single ⟨p,.readWrite⟩))
  | .resyncing c _ => some (c,.single ⟨p,.readOnly⟩)
  | .resynced c => some (c,.single ⟨p,.readOnly⟩)
  | _ => none

-- The task whose body has got there.
def begun : PublishStage → Option BlockId
  | .quitting c => some c
  | .skipping r => r.block
  | .entering r => r.block
  | .locking r => r.block
  | .cutting r => r.block
  | .building r _ => r.block
  | .swapping r => r.block
  | .swapped r => r.block
  | .resynced c => some c
  | _ => none

theorem posted_holder {stage : PublishStage} (posted : stage.posted p = some (c,links)) : stage.holder = some c := by
  have named : ∀ r : Runner, ∀ table, r.block.map (fun c => (c,table)) = some (c,links) → r.block = some c := by
    intro r table made
    obtain ⟨b,block,same⟩ := Option.map_eq_some_iff.mp made
    cases same
    exact block
  cases stage with
  | submitted b => cases posted; rfl
  | quitting b => cases posted; rfl
  | queued b => cases posted; rfl
  | resyncing b next => cases posted; rfl
  | resynced b => cases posted; rfl
  | waiting => cases posted
  | settled => cases posted
  | _ => exact named _ _ posted

theorem begun_posted (p : PipeId) {stage : PublishStage} (begun : stage.begun = some c) :
    ∃ links, stage.posted p = some (c,links) := by
  cases stage with
  | submitted b => cases begun
  | queued b => cases begun
  | resyncing b next => cases begun
  | waiting => cases begun
  | settled => cases begun
  | quitting b => cases begun; exact ⟨_,rfl⟩
  | resynced b => cases begun; exact ⟨_,rfl⟩
  | _ => exact ⟨_,congrArg (Option.map _) begun⟩

end PublishStage

-- The task of a stage is there and, where it has begun, at its body; a flip's
-- admission is out.
structure Manned (p : PipeId) (base : State) (stage : PublishStage) : Prop where
  posted : ∀ c links, stage.posted p = some (c,links) → base.Posted c links
  begun : ∀ c, stage.begun = some c → (base.progress c).status = .running
  granted : ∀ k, stage.grant = some k → k ∈ (base.pipes p).outstanding ∧ k.link.mode = .readWrite

section Manning

variable {p : PipeId} {base : State} {stage : PublishStage}

theorem manned_waiting (p : PipeId) (base : State) : Manned p base .waiting :=
  ⟨fun _ _ posted => (by cases posted),fun _ begun => (by cases begun),fun _ granted => (by cases granted)⟩

theorem manned_settled (p : PipeId) (base : State) : Manned p base .settled :=
  ⟨fun _ _ posted => (by cases posted),fun _ begun => (by cases begun),fun _ granted => (by cases granted)⟩

theorem Manned.step (manned : Manned p base stage) (acc : Accounts base) (allowed : base.Allowed a)
    (goes_on : ∀ c, stage.holder = some c → a ≠ .bodyEnd c)
    (still : ∀ k, stage.grant = some k → k ∈ ((base.apply a).pipes p).outstanding) :
    Manned p (base.apply a) stage := by
  refine ⟨?_,?_,?_⟩
  · intro c links posted
    exact (manned.posted c links posted).kept acc allowed (fun _ => goes_on c (PublishStage.posted_holder posted))
  · intro c begun
    obtain ⟨links,posted⟩ := PublishStage.begun_posted p begun
    exact State.running_kept acc allowed (manned.begun c begun) (goes_on c (PublishStage.posted_holder posted))
  · intro k granted
    exact ⟨still k granted,(manned.granted k granted).2⟩

-- Another task is made.
theorem Manned.beside (manned : Manned p base stage) (path : Machines.Reached system base) (links : LinkTable)
    (resting : (base.progress b).status.resting = true) : Manned p (base.submit b links) stage := by
  obtain ⟨arms,launches⟩ := State.submit_allowed links resting
  have acc := reached_accounts path
  have later := State.apply_accounts acc arms
  refine ⟨?_,?_,?_⟩
  · intro c table posted
    exact ((manned.posted c table posted).kept acc arms (by simp)).kept later launches (by simp)
  · intro c begun
    have armed := State.running_kept acc arms (manned.begun c begun) (by simp)
    exact State.running_kept later launches armed (by simp)
  · intro k granted
    exact ⟨State.submit_out base b links p (manned.granted k granted).1,(manned.granted k granted).2⟩

theorem submit_reached (path : Machines.Reached system base) (links : LinkTable)
    (resting : (base.progress b).status.resting = true) : Machines.Reached system (base.submit b links) := by
  obtain ⟨arms,launches⟩ := State.submit_allowed links resting
  have armed : Machines.Reached system (base.apply (.arm b .executable links none)) :=
    .step path (show system.allowed base (.arm b .executable links none) from arms)
  exact .step armed (show system.allowed _ (.launch b) from launches)

-- A stage of the same task and the same admission.
theorem Manned.on (manned : Manned p base stage) (next : PublishStage) (posted : next.posted p = stage.posted p)
    (begun : next.begun = stage.begun) (grant : next.grant = stage.grant) : Manned p base next := by
  refine ⟨?_,?_,?_⟩
  · rw [posted]; exact manned.posted
  · rw [begun]; exact manned.begun
  · rw [grant]; exact manned.granted

theorem manned_task (posted : stage.posted p = some (c,links)) (there : base.Posted c links)
    (begun : stage.begun = none ∨ (base.progress c).status = .running) (grant : stage.grant = none) :
    Manned p base stage := by
  refine ⟨?_,?_,?_⟩
  · intro b table named
    rw [posted] at named
    cases named
    exact there
  · intro b named
    rcases begun with none_begun | running
    · rw [none_begun] at named
      cases named
    · obtain ⟨table,same⟩ := PublishStage.begun_posted p named
      rw [posted] at same
      cases same
      exact running
  · intro k named
    rw [grant] at named
    cases named

end Manning

def Version.tagged (v : Version) : List (Command × Nat) := v.commands.map (fun c => (c,v.cut))

namespace Versioned

variable {T : Type}

-- The part of the state that commands go through.
structure Contents where
  journal : Journal
  batch : List Command
  versions : List Version
  unpublished : List Command

def contents (s : Versioned T) : Contents := ⟨s.journal,s.batch,s.versions,s.unpublished⟩

namespace Contents

-- The cut under way, or last made, is not one of a published version.
structure Newest (s : Contents) : Prop where
  begun : s.journal.begun ≠ []
  later : ∀ v ∈ s.versions, v.cut < s.journal.batch

-- The batch is the last version's, still to be resynced from.
structure Lately (s : Contents) : Prop where
  unpublished : s.unpublished = []
  idle : s.journal.position = none
  last : ∃ earlier v, s.versions = earlier++[v] ∧ v.commands = s.batch

structure Built (s : Contents) : Prop where
  full : s.batch ≠ []
  unpublished : s.unpublished = s.batch
  idle : s.journal.position = none
  newest : Newest s

structure Clear (s : Contents) : Prop where
  batch : s.batch = []
  unpublished : s.unpublished = []
  idle : s.journal.position = none

-- What `batch_` holds while publish `n` is at a stage.
def Buffered (s : Contents) (n : Nat) : PublishStage → Prop
  | .cutting _ => s.unpublished = s.batch ∧ (∃ next, s.journal.register = .cutting n next) ∧ Newest s
  | .building _ next => next ≤ s.batch.length ∧ Built s
  | .queued _ => Built s
  | .swapping _ => Built s
  | .swapped _ => Lately s
  | .resyncing _ next => next ≤ s.batch.length ∧ Lately s
  | _ => Clear s

-- The versions and the journal's cuts.
structure Books (s : Contents) : Prop where
  journal : s.journal.Sound
  undropped : s.journal.discarded = []
  taken : s.journal.taken = s.versions.flatMap Version.tagged++s.unpublished.map (fun c => (c,s.journal.batch))
  sorted : s.versions.Pairwise (fun v w => v.cut < w.cut)
  full : ∀ v ∈ s.versions, v.commands ≠ []
  dated : ∀ v ∈ s.versions, v.cut < s.journal.begun.length

end Contents
open Contents

abbrev InTurn (s : Versioned T) (m : Nat) : Prop :=
  Relays.Relay (· = PublishStage.waiting) (· = .settled) s.stages s.ready m

structure Sound (p : PipeId) (s : Versioned T) : Prop where
  base : Machines.Reached system s.base
  unissued : ∀ n, n = 0 ∨ s.publishes < n → s.stages n = .waiting
  relay : ∃ m, m ≤ s.publishes ∧ s.InTurn m ∧ Buffered s.contents (m+1) (s.stages (m+1))
  manned : ∀ n, Manned p s.base (s.stages n)
  books : Books s.contents

variable {p : PipeId} {s : Versioned T} {n : Nat} {stage : PublishStage}

theorem sound_initial (d : Versioning T) (p : PipeId) : Sound p (initial d) where
  base := .start rfl
  unissued := fun _ _ => rfl
  relay := by
    refine ⟨0,Nat.le_refl _,⟨?_,?_,?_,?_,?_⟩,⟨rfl,rfl,rfl⟩⟩
    · intro n low
      rw [Nat.le_zero.mp low]
      rfl
    · intro n above
      simp [initial,Nat.ne_of_gt above]
    · intro n positive low
      omega
    · simp [initial]
    · intro n _
      rfl
  manned := fun _ => manned_waiting p _
  books := by
    refine ⟨Journal.sound_empty,rfl,rfl,.nil,?_,?_⟩ <;> intro v member <;> cases member

-- A publish under way is the one whose turn it is.
theorem Sound.now (sound : Sound p s) (here : s.stages n = stage) (started : stage ≠ .waiting) (unfinished : stage ≠ .settled) :
    ∃ m, n = m+1 ∧ n ≤ s.publishes ∧ s.InTurn m ∧ Buffered s.contents n stage ∧ Manned p s.base stage := by
  obtain ⟨m,low,relay,buffered⟩ := sound.relay
  have issued : ¬(n = 0 ∨ s.publishes < n) := by
    intro unissued
    rw [sound.unissued n unissued] at here
    exact started here.symm
  have turn : n = m+1 :=
    Relays.relay_active relay (by omega) (by rw [here]; exact started) (by rw [here]; exact unfinished)
  subst turn
  rw [here] at buffered
  exact ⟨m,rfl,by omega,relay,buffered,here ▸ sound.manned (m+1)⟩

-- The publish under way goes on to another stage.
theorem Sound.move (sound : Sound p s) (t : Versioned T) (stage : PublishStage) (relay : s.InTurn m)
    (issued : m+1 ≤ s.publishes) (shape : t.stages = Function.update s.stages (m+1) stage)
    (frame : t.ready = s.ready ∧ t.publishes = s.publishes) (unfinished : stage ≠ .settled)
    (path : Machines.Reached system t.base) (others : ∀ n, n ≠ m+1 → Manned p t.base (s.stages n))
    (own : Manned p t.base stage) (buffered : Buffered t.contents (m+1) stage) (books : Books t.contents) : Sound p t := by
  obtain ⟨ready,publishes⟩ := frame
  refine ⟨path,?_,⟨m,by omega,?_,?_⟩,?_,books⟩
  · intro n unissued
    rw [publishes] at unissued
    rw [shape,Function.update_of_ne (by omega)]
    exact sound.unissued n unissued
  · rw [InTurn,shape,ready]
    exact Relays.relay_move relay unfinished
  · rw [shape,Function.update_self]
    exact buffered
  · intro n
    rw [shape]
    by_cases same : n = m+1
    · rw [same,Function.update_self]
      exact own
    · rw [Function.update_of_ne same]
      exact others n same

-- It hands over.
theorem Sound.pass (sound : Sound p s) (t : Versioned T) (relay : s.InTurn m) (issued : m+1 ≤ s.publishes)
    (shape : t.stages = Function.update s.stages (m+1) .settled ∧ t.ready = Function.update s.ready (m+1) true)
    (frame : t.base = s.base ∧ t.publishes = s.publishes) (clear : Clear t.contents) (books : Books t.contents) : Sound p t := by
  obtain ⟨stages,ready⟩ := shape
  obtain ⟨base,publishes⟩ := frame
  have next : t.stages (m+1+1) = .waiting := by
    rw [stages,Function.update_of_ne (by omega)]
    exact relay.resting (m+1+1) (Nat.lt_succ_self _)
  refine ⟨base ▸ sound.base,?_,⟨m+1,by omega,?_,?_⟩,?_,books⟩
  · intro n unissued
    rw [publishes] at unissued
    rw [stages,Function.update_of_ne (by omega)]
    exact sound.unissued n unissued
  · rw [InTurn,stages,ready]
    exact Relays.relay_pass relay rfl (fun stage waits past => by cases waits.symm.trans past)
  · rw [next]
    exact clear
  · intro n
    rw [stages,base]
    by_cases same : n = m+1
    · rw [same,Function.update_self]
      exact manned_settled p s.base
    · rw [Function.update_of_ne same]
      exact sound.manned n

section Steps

-- Steps that leave the publishes alone.
theorem Sound.kept (sound : Sound p s) (t : Versioned T)
    (frame : t.stages = s.stages ∧ t.ready = s.ready ∧ t.publishes = s.publishes)
    (path : Machines.Reached system t.base) (manned : ∀ n, Manned p t.base (s.stages n))
    (buffered : ∀ n stage, Buffered s.contents n stage → Buffered t.contents n stage) (books : Books t.contents) : Sound p t := by
  obtain ⟨stages,ready,publishes⟩ := frame
  refine ⟨path,?_,?_,?_,books⟩
  · rw [stages,publishes]; exact sound.unissued
  · obtain ⟨m,low,relay,holds⟩ := sound.relay
    refine ⟨m,by omega,?_,?_⟩
    · rw [InTurn,stages,ready]; exact relay
    · rw [stages]; exact buffered _ _ holds
  · rw [stages]; exact manned

theorem base_sound (sound : Sound p s) (allowed : s.base.Allowed a) (free : s.Free p a) :
    Sound p {s with base := s.base.apply a} := by
  refine sound.kept _ ⟨rfl,rfl,rfl⟩ (.step sound.base (show system.allowed s.base a from allowed)) ?_
    (fun _ _ buffered => buffered) sound.books
  intro n
  by_cases issued : n < s.publishes+1
  · refine (sound.manned n).step (reached_accounts sound.base) allowed ?_ ?_
    · rintro c held rfl
      exact free.1 ⟨n,issued,.inl held⟩
    · intro k granted
      have kept := free.2 n issued
      rw [granted] at kept
      simpa using kept
  · rw [sound.unissued n (.inr (by omega))]
    exact manned_waiting p _

theorem journal_sound (sound : Sound p s) {a : JournalAction} (allowed : s.journal.Allowed checked a)
    (records : a.records = true) : Sound p {s with journal := s.journal.apply checked workers a} := by
  obtain ⟨taken,begun,register⟩ := Journal.outer_kept workers allowed (Journal.records_outer records)
  have batch : (s.journal.apply checked workers a).batch = s.journal.batch := by simp only [Journal.batch,begun]
  have idle : s.journal.position = none → (s.journal.apply checked workers a).position = none := by
    intro position
    rcases register with same | both
    · rw [← position]
      simp only [Journal.position,same]
    · exact both.2
  let after : Contents := {s.contents with journal := s.journal.apply checked workers a}
  have newest : Newest s.contents → Newest after := by
    intro newest
    refine ⟨?_,?_⟩
    · simp only [after,begun]; exact newest.begun
    · simp only [after,batch]; exact newest.later
  have built : Built s.contents → Built after :=
    fun built => ⟨built.full,built.unpublished,idle built.idle,newest built.newest⟩
  have lately : Lately s.contents → Lately after :=
    fun lately => ⟨lately.unpublished,idle lately.idle,lately.last⟩
  have clear : Clear s.contents → Clear after :=
    fun clear => ⟨clear.batch,clear.unpublished,idle clear.idle⟩
  refine sound.kept _ ⟨rfl,rfl,rfl⟩ sound.base sound.manned ?_ ?_
  · intro n stage buffered
    cases stage with
    | cutting r =>
      obtain ⟨same,⟨next,cutting⟩,new⟩ := buffered
      refine ⟨same,⟨next,?_⟩,newest new⟩
      rcases register with kept | both
      · exact kept.trans cutting
      · have position : s.journal.position = none := both.1
        rw [Journal.position,show s.journal.register = _ from cutting] at position
        cases position
    | building r next => exact ⟨buffered.1,built buffered.2⟩
    | queued c => exact built buffered
    | swapping r => exact built buffered
    | swapped r => exact lately buffered
    | resyncing c next => exact ⟨buffered.1,lately buffered.2⟩
    | _ => exact clear buffered
  · refine ⟨Journal.apply_sound sound.books.journal allowed,?_,?_,sound.books.sorted,sound.books.full,?_⟩
    · exact (Journal.records_kept records).trans sound.books.undropped
    · simp only [contents,taken,batch]
      exact sound.books.taken
    · simp only [contents,begun]
      exact sound.books.dated

theorem publish_sound (sound : Sound p s) (token : Option TokenId) : Sound p (s.publish token) := by
  obtain ⟨m,low,relay,buffered⟩ := sound.relay
  refine ⟨sound.base,?_,⟨m,Nat.le_succ_of_le low,relay,buffered⟩,sound.manned,sound.books⟩
  intro n unissued
  refine sound.unissued n ?_
  rcases unissued with zero | above
  · exact .inl zero
  · exact .inr (Nat.lt_of_succ_lt above)

-- A flip that finds the chain resolved finds every earlier publish settled.
theorem flip_sound (sound : Sound p s) (out : k ∈ (s.base.pipes p).outstanding) (mode : k.link.mode = .readWrite)
    (resolved : s.ready s.publishes = true) : Sound p (s.flip k) := by
  obtain ⟨m,low,relay,buffered⟩ := sound.relay
  have waiting : s.stages (s.publishes+1) = .waiting := sound.unissued _ (.inr (Nat.lt_succ_self _))
  obtain rfl : s.publishes = m := Relays.relay_turn relay resolved (by rw [waiting]; simp)
  rw [waiting] at buffered
  have widened := publish_sound sound none
  have relayed : (s.publish none).InTurn s.publishes := relay
  refine widened.move (s.flip k) (.entering (.flip k)) relayed (Nat.le_refl _) rfl ⟨rfl,rfl⟩ (by simp) sound.base
    (fun n _ => sound.manned n) ?_ buffered sound.books
  refine ⟨fun c links posted => (by cases posted),fun c begun => (by cases begun),?_⟩
  intro j granted
  cases granted
  exact ⟨out,mode⟩

-- The publish under way takes a step in the same world of tasks.
theorem Sound.step (sound : Sound p s) (here : s.stages n = stage) (started : stage ≠ .waiting)
    (unfinished : stage ≠ .settled) (t : Versioned T) (next : PublishStage)
    (shape : t.stages = Function.update s.stages n next)
    (frame : t.ready = s.ready ∧ t.publishes = s.publishes ∧ t.base = s.base) (goes_on : next ≠ .settled)
    (own : Manned p s.base stage → Manned p s.base next)
    (contents : Buffered s.contents n stage → Books s.contents → Buffered t.contents n next ∧ Books t.contents) :
    Sound p t := by
  obtain ⟨m,rfl,issued,relay,buffered,manned⟩ := sound.now here started unfinished
  obtain ⟨ready,publishes,base⟩ := frame
  obtain ⟨holds,books⟩ := contents buffered sound.books
  refine sound.move t next relay issued shape ⟨ready,publishes⟩ goes_on (base ▸ sound.base) ?_ ?_ holds books
  · intro n _
    rw [base]
    exact sound.manned n
  · rw [base]
    exact own manned

-- It hands over, in the same world of tasks.
theorem Sound.last (sound : Sound p s) (here : s.stages n = stage) (started : stage ≠ .waiting)
    (unfinished : stage ≠ .settled) (t : Versioned T)
    (shape : t.stages = Function.update s.stages n .settled ∧ t.ready = Function.update s.ready n true)
    (frame : t.base = s.base ∧ t.publishes = s.publishes)
    (contents : Buffered s.contents n stage → Books s.contents → Clear t.contents ∧ Books t.contents) : Sound p t := by
  obtain ⟨m,rfl,issued,relay,buffered,_⟩ := sound.now here started unfinished
  obtain ⟨clear,books⟩ := contents buffered sound.books
  exact sound.pass t relay issued shape frame clear books

theorem submit_sound (sound : Sound p s) (issued : n < s.publishes) (waiting : s.stages (n+1) = .waiting)
    (ready : s.ready n = true) (resting : s.rests c) :
    Sound p ((s.submit c .empty).setStage (n+1) (.submitted c)) := by
  obtain ⟨m,low,relay,buffered⟩ := sound.relay
  obtain rfl : n = m := Relays.relay_turn relay ready (by rw [waiting]; simp)
  rw [waiting] at buffered
  refine sound.move _ (.submitted c) relay issued rfl ⟨rfl,rfl⟩ (by simp) (submit_reached sound.base .empty resting) ?_ ?_
    buffered sound.books
  · intro k _
    exact (sound.manned k).beside sound.base .empty resting
  · exact manned_task rfl (State.submit_posted s.base c .empty) (.inl rfl) rfl

theorem begin_sound (sound : Sound p s) (here : s.stages n = .submitted c) (running : s.runs c) :
    Sound p (s.begin n c) := by
  have posted := (sound.manned n).posted c .empty (by rw [here]; rfl)
  refine sound.step here (by simp) (by simp) (s.begin n c)
    (if (s.tokens n).any s.base.tokens = true then .quitting c else .entering (.task c)) rfl ⟨rfl,rfl,rfl⟩ ?_ ?_ ?_
  · split <;> simp
  · intro _
    split
    · exact manned_task rfl posted (.inr running) rfl
    · exact manned_task rfl posted (.inr running) rfl
  · intro buffered books
    refine ⟨?_,books⟩
    split <;> exact buffered

theorem quit_sound (sound : Sound p s) (here : s.stages n = .quitting c) :
    Sound p ((s.trigger p n).setStage n (.skipping (.task c))) :=
  sound.step here (by simp) (by simp) _ (.skipping (.task c)) rfl ⟨rfl,rfl,rfl⟩ (by simp)
    (fun manned => manned.on _ rfl rfl rfl) (fun buffered books => ⟨buffered,books⟩)

theorem skip_sound (sound : Sound p s) (here : s.stages n = .skipping r) : Sound p (s.settle n) :=
  sound.last here (by simp) (by simp) _ ⟨rfl,rfl⟩ ⟨rfl,rfl⟩ (fun buffered books => ⟨buffered,books⟩)

theorem clearBatch_sound (sound : Sound p s) (here : s.stages n = .entering r) : Sound p (s.clearBatch n r) :=
  sound.step here (by simp) (by simp) _ (.locking r) rfl ⟨rfl,rfl,rfl⟩ (by simp) (fun manned => manned.on _ rfl rfl rfl)
    (fun buffered books => ⟨⟨rfl,buffered.unpublished,buffered.idle⟩,
      ⟨books.journal,books.undropped,books.taken,books.sorted,books.full,books.dated⟩⟩)

theorem cutBegin_sound (sound : Sound p s) (here : s.stages n = .locking r) : Sound p (s.cutBegin n r) := by
  refine sound.step here (by simp) (by simp) (s.cutBegin n r) (.cutting r) rfl ⟨rfl,rfl,rfl⟩ (by simp)
    (fun manned => manned.on _ rfl rfl rfl) ?_
  intro clear books
  have latest : (s.journal.cutBegin n).batch = s.journal.begun.length := by simp [Journal.cutBegin,Journal.batch]
  refine ⟨⟨clear.unpublished.trans clear.batch.symm,⟨0,rfl⟩,⟨?_,?_⟩⟩,?_⟩
  · simp [contents,cutBegin,setStage,Journal.cutBegin]
  · intro v member
    exact Nat.lt_of_lt_of_eq (books.dated v member) latest.symm
  · refine ⟨Journal.cutBegin_sound books.journal clear.idle n,books.undropped,?_,books.sorted,books.full,?_⟩
    · have taken := books.taken
      rw [clear.unpublished] at taken
      simpa [contents,cutBegin,setStage,Journal.cutBegin,show s.unpublished = [] from clear.unpublished] using taken
    · intro v member
      have dated := books.dated v member
      simp only [contents,cutBegin,setStage,Journal.cutBegin,List.length_append,List.length_singleton]
      exact Nat.lt_succ_of_lt dated

theorem cutNext_sound (sound : Sound p s) (here : s.stages n = .cutting r)
    (allowed : s.journal.Allowed checked (.cutNext n)) : Sound p (s.cutNext n) := by
  obtain ⟨m,rfl,issued,relay,⟨same,⟨next,register⟩,newest⟩,manned⟩ := sound.now here (by simp) (by simp)
  have slot : s.journal.nextCut (m+1) = some next := by
    rw [Journal.nextCut,show s.journal.register = _ from register]
    exact if_pos rfl
  have kept : s.stages = Function.update s.stages (m+1) (.cutting r) := by
    rw [← here,Function.update_eq_self]
  simp only [cutNext,slot]
  refine sound.move _ (.cutting r) relay issued kept ⟨rfl,rfl⟩ (by simp) sound.base (fun k _ => sound.manned k) manned
    ⟨congrArg (·++s.journal.slots.getD next []) same,⟨next+1,rfl⟩,⟨newest.begun,newest.later⟩⟩ ?_
  refine ⟨Journal.cutSlot_sound sound.books.journal (Journal.nextCut_position slot).1 _,sound.books.undropped,?_,
    sound.books.sorted,sound.books.full,sound.books.dated⟩
  have taken : s.journal.taken = _ := sound.books.taken
  simp only [contents,Journal.cutSlot,taken,List.map_append,List.append_assoc]
  rfl

theorem cutEnd_sound (sound : Sound p s) (here : s.stages n = .cutting r)
    (allowed : s.journal.Allowed checked (.cutEnd n)) : Sound p (s.cutEnd n r) := by
  have books' : Books s.contents → Books (s.cutEnd n r).contents := fun books =>
    ⟨Journal.cutEnd_sound books.journal (Journal.nextCut_position allowed).1,books.undropped,books.taken,books.sorted,
      books.full,books.dated⟩
  by_cases empty : s.batch = []
  · cases r with
    | task c =>
      refine sound.step here (by simp) (by simp) (s.cutEnd n (.task c)) (.quitting c) ?_ ⟨rfl,rfl,rfl⟩ (by simp)
        (fun manned => manned.on _ rfl rfl rfl) (fun buffered books => ⟨⟨empty,buffered.1.trans empty,rfl⟩,books' books⟩)
      simp [cutEnd,setStage,empty,Runner.emptyHanded]
    | flip k =>
      refine sound.step here (by simp) (by simp) (s.cutEnd n (.flip k)) (.skipping (.flip k)) ?_ ⟨rfl,rfl,rfl⟩ (by simp)
        (fun manned => manned.on _ rfl rfl rfl) (fun buffered books => ⟨⟨empty,buffered.1.trans empty,rfl⟩,books' books⟩)
      simp [cutEnd,setStage,empty,Runner.emptyHanded]
  · refine sound.step here (by simp) (by simp) (s.cutEnd n r) (.building r 0) ?_ ⟨rfl,rfl,rfl⟩ (by simp)
      (fun manned => manned.on _ rfl rfl rfl)
      (fun buffered books => ⟨⟨Nat.zero_le _,⟨empty,buffered.1,rfl,⟨buffered.2.2.begun,buffered.2.2.later⟩⟩⟩,books' books⟩)
    simp [cutEnd,setStage,empty]

theorem buildNext_sound (d : Versioning T) (sound : Sound p s) (here : s.stages n = .building r next)
    (inside : next < s.batch.length) : Sound p (s.buildNext d n r next) := by
  have item : s.batch[next]? = some s.batch[next] := List.getElem?_eq_getElem inside
  simp only [buildNext,item]
  exact sound.step here (by simp) (by simp) _ (.building r (next+1)) rfl ⟨rfl,rfl,rfl⟩ (by simp)
    (fun manned => manned.on _ rfl rfl rfl) (fun buffered books => ⟨⟨inside,buffered.2⟩,books⟩)

theorem buildEnd_sound (sound : Sound p s) (here : s.stages n = .building r s.batch.length) (resting : s.rests c) :
    Sound p (s.buildEnd p n r c) := by
  cases r with
  | flip k =>
    exact sound.step here (by simp) (by simp) _ (.swapping (.flip k)) rfl ⟨rfl,rfl,rfl⟩ (by simp)
      (fun manned => manned.on _ rfl rfl rfl) (fun buffered books => ⟨buffered.2,books⟩)
  | task b =>
    obtain ⟨m,rfl,issued,relay,buffered,manned⟩ := sound.now here (by simp) (by simp)
    refine sound.move _ (.queued c) relay issued rfl ⟨rfl,rfl⟩ (by simp) (submit_reached sound.base _ resting) ?_ ?_
      buffered.2 sound.books
    · intro k _
      exact (sound.manned k).beside sound.base _ resting
    · exact manned_task rfl (State.submit_posted s.base c _) (.inl rfl) rfl

theorem swapBegin_sound (sound : Sound p s) (here : s.stages n = .queued c) (running : s.runs c) :
    Sound p (s.setStage n (.swapping (.task c))) := by
  have posted := (sound.manned n).posted c (.single ⟨p,.readWrite⟩) (by rw [here]; rfl)
  exact sound.step here (by simp) (by simp) _ (.swapping (.task c)) rfl ⟨rfl,rfl,rfl⟩ (by simp)
    (fun _ => manned_task rfl posted (.inr running) rfl) (fun buffered books => ⟨buffered,books⟩)

theorem swapEnd_sound (d : Versioning T) (sound : Sound p s) (here : s.stages n = .swapping r) : Sound p (s.swapEnd d n r) := by
  have same : (s.swapEnd d n r).contents =
      {s.contents with versions := s.versions++[Version.mk n s.journal.batch s.unpublished],unpublished := []} := by
    simp only [swapEnd,swapReplicas]
    split <;> rfl
  have frame : (s.swapEnd d n r).stages = Function.update s.stages n (.swapped r) ∧
      (s.swapEnd d n r).ready = s.ready ∧ (s.swapEnd d n r).publishes = s.publishes ∧ (s.swapEnd d n r).base = s.base := by
    simp only [swapEnd,swapReplicas]
    split <;> exact ⟨rfl,rfl,rfl,rfl⟩
  refine sound.step here (by simp) (by simp) _ (.swapped r) frame.1 frame.2 (by simp) (fun manned => manned.on _ rfl rfl rfl) ?_
  intro built books
  rw [same]
  refine ⟨⟨rfl,built.idle,⟨s.versions,⟨n,s.journal.batch,s.unpublished⟩,rfl,built.unpublished⟩⟩,?_⟩
  have members : ∀ v ∈ s.versions++[Version.mk n s.journal.batch s.unpublished],
      v ∈ s.versions ∨ v = Version.mk n s.journal.batch s.unpublished := by
    intro v member
    simpa using member
  refine ⟨books.journal,books.undropped,?_,?_,?_,?_⟩
  · have taken : s.journal.taken = _ := books.taken
    simp only [contents,taken,List.flatMap_append,List.flatMap_cons,List.flatMap_nil,List.append_nil,List.map_nil]
    rfl
  · refine List.pairwise_append.mpr ⟨books.sorted,List.pairwise_singleton _ _,?_⟩
    intro v old w new
    rw [List.mem_singleton.mp new]
    exact built.newest.later v old
  · intro v member
    rcases members v member with old | rfl
    · exact books.full v old
    · have full : s.batch ≠ [] := built.full
      rw [← show s.unpublished = s.batch from built.unpublished] at full
      exact full
  · intro v member
    rcases members v member with old | rfl
    · exact books.dated v old
    · exact Nat.sub_lt (List.length_pos_iff.mpr built.newest.begun) Nat.one_pos

theorem startResync_sound (d : Versioning T) (sound : Sound p s) (here : s.stages n = .swapped r) (resting : s.rests c) :
    Sound p (s.startResync d p n r c) := by
  have resyncs : Sound p ((({s with gating := Function.update s.gating n r.block} : Versioned T).submit c
      (.single ⟨p,.readOnly⟩)).setStage n (.resyncing c 0)) := by
    obtain ⟨m,rfl,issued,relay,buffered,_⟩ := sound.now here (by simp) (by simp)
    refine sound.move _ (.resyncing c 0) relay issued rfl ⟨rfl,rfl⟩ (by simp) (submit_reached sound.base _ resting) ?_ ?_
      ⟨Nat.zero_le _,buffered⟩ sound.books
    · intro k _
      exact (sound.manned k).beside sound.base _ resting
    · exact manned_task rfl (State.submit_posted s.base c _) (.inl rfl) rfl
  unfold startResync
  cases d.policy with
  | replay => exact resyncs
  | copy => exact resyncs
  | overwrite =>
    exact sound.last here (by simp) (by simp) _ ⟨rfl,rfl⟩ ⟨rfl,rfl⟩ (fun buffered books =>
      ⟨⟨rfl,buffered.unpublished,buffered.idle⟩,
        ⟨books.journal,books.undropped,books.taken,books.sorted,books.full,books.dated⟩⟩)

theorem resyncNext_sound (d : Versioning T) (sound : Sound p s) (here : s.stages n = .resyncing c next)
    (inside : next < s.batch.length) : Sound p (s.resyncNext d n c next) := by
  have item : s.batch[next]? = some s.batch[next] := List.getElem?_eq_getElem inside
  simp only [resyncNext,item]
  exact sound.step here (by simp) (by simp) _ (.resyncing c (next+1)) rfl ⟨rfl,rfl,rfl⟩ (by simp)
    (fun manned => manned.on _ rfl rfl rfl) (fun buffered books => ⟨⟨inside,buffered.2⟩,books⟩)

theorem resyncEnd_sound (d : Versioning T) (sound : Sound p s) (here : s.stages n = .resyncing c next)
    (running : s.runs c) : Sound p (s.resyncEnd d n c) := by
  have posted := (sound.manned n).posted c (.single ⟨p,.readOnly⟩) (by rw [here]; rfl)
  exact sound.step here (by simp) (by simp) _ (.resynced c) rfl ⟨rfl,rfl,rfl⟩ (by simp)
    (fun _ => manned_task rfl posted (.inr running) rfl) (fun buffered books =>
      ⟨⟨rfl,buffered.2.unpublished,buffered.2.idle⟩,
        ⟨books.journal,books.undropped,books.taken,books.sorted,books.full,books.dated⟩⟩)

theorem settle_sound (sound : Sound p s) (here : s.stages n = .resynced c) : Sound p (s.settle n) :=
  sound.last here (by simp) (by simp) _ ⟨rfl,rfl⟩ ⟨rfl,rfl⟩ (fun buffered books => ⟨buffered,books⟩)

theorem apply_sound (d : Versioning T) (sound : Sound p s) (allowed : s.Allowed d p checked a) :
    Sound p (s.apply d p checked workers a) := by
  cases a with
  | base a => exact base_sound sound allowed.1 allowed.2
  | journal a => exact journal_sound sound allowed.1 allowed.2
  | publish token => exact publish_sound sound token
  | flip k => exact flip_sound sound allowed.1 allowed.2.1 allowed.2.2
  | submit n c => exact submit_sound sound allowed.1 allowed.2.2.1 allowed.2.2.2.1 allowed.2.2.2.2
  | begin n c => exact begin_sound sound allowed.1 allowed.2
  | quit n c => exact quit_sound sound allowed
  | skip n r => exact skip_sound sound allowed
  | clearBatch n r => exact clearBatch_sound sound allowed
  | cutBegin n r => exact cutBegin_sound sound allowed.1
  | cutNext n r => exact cutNext_sound sound allowed.1 allowed.2
  | cutEnd n r => exact cutEnd_sound sound allowed.1 allowed.2
  | buildNext n r next => exact buildNext_sound d sound allowed.1 allowed.2
  | buildEnd n r c => exact buildEnd_sound sound allowed.1 allowed.2
  | swapBegin n c => exact swapBegin_sound sound allowed.1 allowed.2
  | swapEnd n r => exact swapEnd_sound d sound allowed
  | startResync n r c => exact startResync_sound d sound allowed.1 allowed.2
  | gate n c => exact sound.kept _ ⟨rfl,rfl,rfl⟩ sound.base sound.manned (fun _ _ buffered => buffered) sound.books
  | resyncNext n c next => exact resyncNext_sound d sound allowed.1 allowed.2.2.2
  | resyncEnd n c next => exact resyncEnd_sound d sound allowed.1 allowed.2.1
  | settle n c => exact settle_sound sound allowed

end Steps

end Versioned

theorem versioned_sound {s : Versioned T} (path : Machines.Reached (versionedSystem d p checked workers) s) :
    Versioned.Sound p s := by
  refine Machines.reached_invariant (Versioned.Sound p) ?_ ?_ path
  · rintro s rfl
    exact Versioned.sound_initial d p
  · intro s a sound allowed
    exact Versioned.apply_sound d sound allowed

end Macrame

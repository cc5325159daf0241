import Macrame.Lib.Machine
import Macrame.Lib.Tally
import Mathlib.Data.List.Perm.Basic

namespace Macrame.DeadlockNet
open Machines Tally

-- `deadlock_net_polls`.
def netPolls : Nat := 8

-- Where a worker's main loop stands: in `find_work`, past a failed one and before
-- `mark(true)`, in `wait_for_work`, with an entry and before `mark(false)`, or in bodies, the
-- innermost first.
inductive WorkerAt where
  | searching
  | missed
  | waiting
  | found (n : Nat)
  | running (tasks : List Nat)
  deriving DecidableEq, Repr

-- The containers in the order in which `all_empty` asks them: the global queues by priority,
-- then the deque of each worker. An entry is known by the number of its submit. Without
-- workers it goes to the trampoline of the thread that submits it: `serial` are those whose
-- bodies have not returned there. `held` are the `External_wait` objects that live; `ran` are
-- the bodies that have returned: history.
structure Work where
  up : Bool := false
  held : Nat := 0
  containers : Nat → List Nat := fun _ => []
  serial : List Nat := []
  stages : Nat → WorkerAt := fun _ => .searching
  marked : Nat → Bool := fun _ => false
  idleWorkers : Int := 0
  submitted : Nat := 0
  ran : List Nat := []

-- Where a thread is in `Task_control_block::wait`; `quiet` polls in a row have found nothing.
inductive PollAt where
  | away
  | unwatched
  | asleep (quiet : Nat)
  | external (quiet : Nat)
  | workers (quiet : Nat)
  | probing (quiet k : Nat)
  | reported
  deriving DecidableEq, Repr

-- A poll that has found no external wait: what it began with, and whether anybody has taken
-- a step since.
structure Sample where
  seen : Work
  raced : Bool

-- `samples` are the polls behind `quiet`, the one under way first: history.
structure Net where
  work : Work := {}
  window : Int := 2000
  completed : Nat → Bool := fun _ => false
  polls : Nat → PollAt := fun _ => .away
  samples : Nat → List Sample := fun _ => []

inductive NetAction where
  | create
  | setWindow (ms : Int)
  | hold
  | release
  | submit (k : Nat)
  | submitInline
  | retire (n : Nat)
  | spawn (i k : Nat)
  | take (i k n : Nat)
  | miss (i : Nat)
  | mark (i : Nat)
  | yield (i k n : Nat)
  | finish (i : Nat)
  | settle (w : Nat)
  | wait (w : Nat)
  | wake (w : Nat)
  | timeout (w : Nat)
  | look (w : Nat)
  deriving DecidableEq, Repr

def WorkerAt.hands : WorkerAt → List Nat
  | .found n => [n]
  | .running tasks => tasks
  | _ => []

-- Without an entry.
def WorkerAt.idles : WorkerAt → Bool
  | .searching => true
  | .missed => true
  | .waiting => true
  | _ => false

def WorkerAt.marking : WorkerAt → Bool
  | .missed => true
  | .found _ => true
  | _ => false

def WorkerAt.busy : WorkerAt → Bool
  | .running (_ :: _) => true
  | _ => false

-- The waiter has the block's mutex all through a poll.
def PollAt.locked : PollAt → Bool
  | .external _ => true
  | .workers _ => true
  | .probing _ _ => true
  | .reported => true
  | _ => false

def PollAt.sampling : PollAt → Bool
  | .workers _ => true
  | .probing _ _ => true
  | _ => false

namespace Work

def goes (s : Work) (i : Nat) (next : WorkerAt) : Work :=
  {s with stages := Function.update s.stages i next}

def push (s : Work) (k : Nat) : Work :=
  {s with containers := Function.update s.containers k (s.containers k++[s.submitted]),submitted := s.submitted+1}

-- `run_serial`.
def pushSerial (s : Work) : Work := {s with serial := s.serial++[s.submitted],submitted := s.submitted+1}

def pull (s : Work) (k n : Nat) : Work := {s with containers := Function.update s.containers k ((s.containers k).erase n)}

-- `mark(now_idle)`.
def mark (s : Work) (i : Nat) (nowIdle : Bool) : Work :=
  if s.marked i = nowIdle then s
  else {s with marked := Function.update s.marked i nowIdle,idleWorkers := s.idleWorkers+(if nowIdle then 1 else -1)}

def act (s : Work) : NetAction → Work
  | .create => {s with up := true}
  | .hold => {s with held := s.held+1}
  | .release => {s with held := s.held-1}
  | .submit k => s.push k
  | .submitInline => s.pushSerial
  | .retire n => {s with serial := s.serial.erase n,ran := s.ran++[n]}
  | .spawn _ k => s.push k
  | .take i k n => (s.pull k n).goes i (.found n)
  | .miss i =>
    match s.stages i with
    | .waiting => s.goes i .searching
    | _ => s.goes i .missed
  | .mark i =>
    match s.stages i with
    | .missed => (s.mark i true).goes i .waiting
    | .found n => (s.mark i false).goes i (.running [n])
    | _ => s
  | .yield i k n => (s.pull k n).goes i (.running (n :: (s.stages i).hands))
  | .finish i =>
    match s.stages i with
    | .running (n :: rest) => {s with ran := s.ran++[n]}.goes i (if rest.isEmpty then .searching else .running rest)
    | _ => s
  | _ => s

end Work

def blur (at_ : PollAt) (samples : List Sample) : List Sample :=
  match at_.sampling,samples with
  | true,x :: rest => {x with raced := true} :: rest
  | _,_ => samples

namespace Net

variable (workers : Nat)

def goes (s : Net) (w : Nat) (next : PollAt) : Net := {s with polls := Function.update s.polls w next}

def sampled (s : Net) (w : Nat) (samples : List Sample) : Net := {s with samples := Function.update s.samples w samples}

-- One load of a poll, in the order of `wait` and of `quiescent`.
def look (s : Net) (w : Nat) : Net :=
  match s.polls w with
  | .external quiet =>
    if s.work.held = 0 then (s.goes w (.workers quiet)).sampled w (⟨s.work,false⟩ :: s.samples w)
    else (s.goes w (.asleep 0)).sampled w []
  | .workers quiet =>
    if s.work.up = true ∧ workers ≤ s.work.idleWorkers then s.goes w (.probing quiet 0)
    else (s.goes w (.asleep 0)).sampled w []
  | .probing quiet k =>
    if s.work.containers k = [] then
      if k+1 < 3+workers then s.goes w (.probing quiet (k+1))
      else s.goes w (if netPolls ≤ quiet+1 then .reported else .asleep (quiet+1))
    else (s.goes w (.asleep 0)).sampled w []
  | _ => s

-- Somebody else's step: the polls under way are no longer of one moment.
def raced (s : Net) : Net := {s with samples := fun w => blur (s.polls w) (s.samples w)}

def Allowed (s : Net) : NetAction → Prop
  | .create => s.work.up = false
  | .setWindow _ => True
  | .hold => True
  | .release => 0 < s.work.held
  | .submit k => s.work.up = true ∧ 0 < workers ∧ k < 3
  | .submitInline => s.work.up = true ∧ workers = 0
  | .retire n => n ∈ s.work.serial
  | .spawn i k => (s.work.stages i).busy = true ∧ i < workers ∧ (k < 3 ∨ k = 3+i)
  | .take i k n => s.work.up = true ∧ i < workers ∧ (s.work.stages i = .searching ∨ s.work.stages i = .waiting) ∧
      k < 3+workers ∧ n ∈ s.work.containers k
  | .miss i => s.work.up = true ∧ i < workers ∧ (s.work.stages i = .searching ∨ s.work.stages i = .waiting)
  | .mark i => i < workers ∧ (s.work.stages i).marking = true
  | .yield i k n => (s.work.stages i).busy = true ∧ i < workers ∧ k < 2 ∧ n ∈ s.work.containers k
  | .finish i => (s.work.stages i).busy = true ∧ i < workers
  | .settle w => s.completed w = false ∧ (s.polls w).locked = false
  | .wait w => s.polls w = .away
  | .wake w => s.completed w = true ∧ (s.polls w).locked = false
  | .timeout w => s.completed w = false ∧ ∃ quiet, s.polls w = .asleep quiet
  | .look w => (s.polls w).locked = true ∧ s.polls w ≠ .reported

def apply (s : Net) : NetAction → Net
  | .setWindow ms => {s with window := ms}.raced
  | .settle w => {s with completed := Function.update s.completed w true}.raced
  | .wait w => (s.goes w (if s.completed w then .away else if 0 < s.window then .asleep 0 else .unwatched)).raced
  | .wake w => ((s.goes w .away).sampled w []).raced
  | .timeout w =>
    match s.polls w with
    | .asleep quiet => s.goes w (.external quiet)
    | _ => s
  | .look w => s.look workers w
  | a => {s with work := s.work.act a}.raced

end Net

def netSystem (workers : Nat) : Machine Net NetAction := ⟨(· = {}),Net.Allowed workers,Net.apply workers⟩

instance decideAsleep (s : Net) (w : Nat) : Decidable (∃ quiet, s.polls w = .asleep quiet) :=
  match s.polls w with
  | .asleep quiet => isTrue ⟨quiet,rfl⟩
  | .away => isFalse nofun
  | .unwatched => isFalse nofun
  | .external _ => isFalse nofun
  | .workers _ => isFalse nofun
  | .probing _ _ => isFalse nofun
  | .reported => isFalse nofun

instance decideAllowed (workers : Nat) (s : Net) : (a : NetAction) → Decidable ((netSystem workers).allowed s a)
  | .create => inferInstanceAs (Decidable (_ = _))
  | .setWindow _ => inferInstanceAs (Decidable True)
  | .hold => inferInstanceAs (Decidable True)
  | .release => inferInstanceAs (Decidable (_ < _))
  | .submit _ => inferInstanceAs (Decidable (_ ∧ _ ∧ _))
  | .submitInline => inferInstanceAs (Decidable (_ ∧ _))
  | .retire _ => inferInstanceAs (Decidable (_ ∈ _))
  | .spawn _ _ => inferInstanceAs (Decidable (_ ∧ _ ∧ (_ ∨ _)))
  | .take _ _ _ => inferInstanceAs (Decidable (_ ∧ _ ∧ (_ ∨ _) ∧ _ ∧ _))
  | .miss _ => inferInstanceAs (Decidable (_ ∧ _ ∧ (_ ∨ _)))
  | .mark _ => inferInstanceAs (Decidable (_ ∧ _))
  | .yield _ _ _ => inferInstanceAs (Decidable (_ ∧ _ ∧ _ ∧ _))
  | .finish _ => inferInstanceAs (Decidable (_ ∧ _))
  | .settle _ => inferInstanceAs (Decidable (_ ∧ _))
  | .wait _ => inferInstanceAs (Decidable (_ = _))
  | .wake _ => inferInstanceAs (Decidable (_ ∧ _))
  | .timeout w => @instDecidableAnd _ _ (inferInstanceAs (Decidable (_ = _))) (decideAsleep _ w)
  | .look _ => inferInstanceAs (Decidable (_ ∧ _))

-- `idle_workers_` counts the marks, no body runs under a mark, and an entry is queued, in one
-- worker's hands or on one trampoline, or done. Workers and trampolines are not there together.
structure Sound (workers : Nat) (s : Work) : Prop where
  idle : s.idleWorkers = (tally workers (fun _ b => b.toNat) s.marked : Nat)
  marks : ∀ i, s.marked i = true → (s.stages i).busy = false
  shaped : ∀ i, s.stages i ≠ .running []
  placed : ∀ n, tally (3+workers) (fun _ list => list.count n) s.containers+
    tally workers (fun _ at_ => at_.hands.count n) s.stages+s.serial.count n+s.ran.count n = if n < s.submitted then 1 else 0
  pooled : 0 < workers → s.serial = []

section Steps

variable {workers i k n : Nat} {s : Work} {at_ next : WorkerAt}

theorem Sound.push (sound : Sound workers s) (inside : k < 3+workers) : Sound workers (s.push k) := by
  refine ⟨sound.idle,sound.marks,sound.shaped,?_,sound.pooled⟩
  intro x
  have moved := tally_update (fun _ list => list.count x) s.containers (s.containers k++[s.submitted]) inside
  have before := sound.placed x
  change tally _ _ (Function.update s.containers k _)+tally _ _ s.stages+s.serial.count x+s.ran.count x = if x < s.submitted+1 then 1 else 0
  rw [List.count_append,List.count_singleton] at moved
  by_cases last : x = s.submitted
  · rw [if_neg (by omega)] at before
    rw [if_pos (by omega)]
    rw [if_pos (by simp [last])] at moved
    omega
  · rw [if_neg (by simp [Ne.symm last])] at moved
    split at before <;> split <;> omega

theorem Sound.pushSerial (sound : Sound workers s) (unstaffed : workers = 0) : Sound workers s.pushSerial := by
  refine ⟨sound.idle,sound.marks,sound.shaped,?_,fun some => by omega⟩
  intro x
  have before := sound.placed x
  change tally _ _ s.containers+tally _ _ s.stages+(s.serial++[s.submitted]).count x+s.ran.count x = if x < s.submitted+1 then 1 else 0
  rw [List.count_append,List.count_singleton]
  by_cases last : x = s.submitted
  · rw [if_neg (by omega)] at before
    rw [if_pos (by simp [last]),if_pos (by omega)]
    omega
  · rw [if_neg (by simp [Ne.symm last])]
    split at before <;> split <;> omega

-- A body returns on its trampoline.
theorem Sound.retires (sound : Sound workers s) (member : n ∈ s.serial) :
    Sound workers {s with serial := s.serial.erase n,ran := s.ran++[n]} := by
  refine ⟨sound.idle,sound.marks,sound.shaped,?_,?_⟩
  · intro x
    have before := sound.placed x
    change tally _ _ s.containers+tally _ _ s.stages+(s.serial.erase n).count x+(s.ran++[n]).count x = if x < s.submitted then 1 else 0
    rw [List.count_append,List.count_singleton,List.count_erase]
    by_cases same : n = x
    · have some : 0 < s.serial.count x := List.count_pos_iff.mpr (same ▸ member)
      rw [if_pos (by simp [same])]
      omega
    · rw [if_neg (by simp [same])]
      omega
  · intro staffed
    rw [sound.pooled staffed] at member
    cases member

-- A worker goes on with what it has.
theorem Sound.turns (sound : Sound workers s) (inside : i < workers) (hands : next.hands = (s.stages i).hands)
    (shape : next ≠ .running []) (busy : next.busy = true → s.marked i = false) : Sound workers (s.goes i next) := by
  refine ⟨sound.idle,?_,?_,?_,sound.pooled⟩
  · intro j marked
    change (Function.update s.stages i next j).busy = false
    by_cases here : j = i
    · rw [here,Function.update_self]
      cases active : next.busy with
      | false => rfl
      | true =>
        rw [here] at marked
        exact absurd (busy active) (ne_false_of_eq_true marked)
    · rw [Function.update_of_ne here]
      exact sound.marks j marked
  · intro j
    change Function.update s.stages i next j ≠ _
    by_cases here : j = i
    · rw [here,Function.update_self]
      exact shape
    · rw [Function.update_of_ne here]
      exact sound.shaped j
  · intro x
    have moved := tally_update (fun _ at_ => at_.hands.count x) s.stages next inside
    have before := sound.placed x
    rw [hands] at moved
    change tally _ _ s.containers+tally _ _ (Function.update s.stages i next)+s.serial.count x+s.ran.count x = _
    change _ = if x < s.submitted then 1 else 0
    omega

-- An entry comes from a container into the hands of a worker.
theorem Sound.takes (sound : Sound workers s) (inside : i < workers) (within : k < 3+workers) (member : n ∈ s.containers k)
    (hands : next.hands = n :: (s.stages i).hands) (shape : next ≠ .running [])
    (busy : next.busy = true → (s.stages i).busy = true) : Sound workers ((s.pull k n).goes i next) := by
  refine ⟨sound.idle,?_,?_,?_,sound.pooled⟩
  · intro j marked
    have free := sound.marks j marked
    change (Function.update s.stages i next j).busy = false
    by_cases here : j = i
    · rw [here,Function.update_self]
      rw [here] at free
      cases active : next.busy with
      | false => rfl
      | true => rw [← free,busy active]
    · rw [Function.update_of_ne here]
      exact free
  · intro j
    change Function.update s.stages i next j ≠ _
    by_cases here : j = i
    · rw [here,Function.update_self]
      exact shape
    · rw [Function.update_of_ne here]
      exact sound.shaped j
  · intro x
    have moved := tally_update (fun _ at_ => at_.hands.count x) s.stages next inside
    have pulled := tally_update (fun _ list => list.count x) s.containers ((s.containers k).erase n) within
    have before := sound.placed x
    rw [hands,List.count_cons] at moved
    rw [List.count_erase] at pulled
    change tally _ _ (Function.update s.containers k _)+tally _ _ (Function.update s.stages i next)+s.serial.count x+s.ran.count x = _
    change _ = if x < s.submitted then 1 else 0
    by_cases same : n = x
    · have some_ : 0 < (s.containers k).count x := List.count_pos_iff.mpr (same ▸ member)
      rw [if_pos (by simp [same])] at moved pulled
      omega
    · rw [if_neg (by simp [same])] at moved pulled
      omega

theorem Sound.marked (sound : Sound workers s) (inside : i < workers) (free : b = true → (s.stages i).busy = false) :
    Sound workers (s.mark i b) ∧ (s.mark i b).stages = s.stages ∧ (s.mark i b).marked i = b := by
  unfold Work.mark
  split
  · exact ⟨sound,rfl,‹_›⟩
  · have turned : s.marked i = !b := by
      cases b <;> cases flag : s.marked i <;> first | rfl | exact absurd flag ‹_›
    refine ⟨⟨?_,?_,sound.shaped,sound.placed,sound.pooled⟩,rfl,Function.update_self ..⟩
    · have moved := tally_update (fun _ b => b.toNat) s.marked b inside
      have before := sound.idle
      change s.idleWorkers+(if b = true then 1 else -1) = (tally _ _ (Function.update s.marked i b) : Nat)
      rw [turned] at moved
      cases b with
      | true =>
        rw [if_pos rfl]
        simp only [Bool.not_true,Bool.toNat_false,Bool.toNat_true] at moved
        omega
      | false =>
        rw [if_neg Bool.false_ne_true]
        simp only [Bool.not_false,Bool.toNat_false,Bool.toNat_true] at moved
        omega
    · intro j flag
      have flagged : Function.update s.marked i b j = true := flag
      by_cases here : j = i
      · rw [here,Function.update_self] at flagged
        rw [here]
        exact free flagged
      · rw [Function.update_of_ne here] at flagged
        exact sound.marks j flagged

theorem Sound.finishes (sound : Sound workers s) (inside : i < workers) (here : s.stages i = .running (n :: rest)) :
    Sound workers ({s with ran := s.ran++[n]}.goes i (if rest.isEmpty then .searching else .running rest)) := by
  have active : (s.stages i).busy = true := by
    rw [here]
    rfl
  have unmarked : s.marked i = false := by
    cases flag : s.marked i with
    | false => rfl
    | true =>
      rw [sound.marks i flag] at active
      cases active
  have hands : (if rest.isEmpty then WorkerAt.searching else .running rest).hands = rest := by
    cases rest <;> rfl
  refine ⟨sound.idle,?_,?_,?_,sound.pooled⟩
  · intro j flag
    change (Function.update s.stages i _ j).busy = false
    by_cases same : j = i
    · rw [same] at flag
      exact absurd unmarked (ne_false_of_eq_true flag)
    · rw [Function.update_of_ne same]
      exact sound.marks j flag
  · intro j
    change Function.update s.stages i _ j ≠ _
    by_cases same : j = i
    · rw [same,Function.update_self]
      cases rest <;> nofun
    · rw [Function.update_of_ne same]
      exact sound.shaped j
  · intro x
    have moved := tally_update (fun _ at_ => at_.hands.count x) s.stages (if rest.isEmpty then .searching else .running rest) inside
    have before := sound.placed x
    have old : (s.stages i).hands.count x = rest.count x+if (n == x) = true then 1 else 0 := by
      rw [here]
      exact List.count_cons
    rw [hands] at moved
    change tally _ _ s.containers+tally _ _ (Function.update s.stages i _)+s.serial.count x+(s.ran++[n]).count x = _
    change _ = if x < s.submitted then 1 else 0
    rw [List.count_append,List.count_singleton]
    omega

theorem act_sound {s : Net} (sound : Sound workers s.work) (allowed : s.Allowed workers a) : Sound workers (s.work.act a) := by
  cases a with
  | create => exact ⟨sound.idle,sound.marks,sound.shaped,sound.placed,sound.pooled⟩
  | hold => exact ⟨sound.idle,sound.marks,sound.shaped,sound.placed,sound.pooled⟩
  | release => exact ⟨sound.idle,sound.marks,sound.shaped,sound.placed,sound.pooled⟩
  | submit k => exact sound.push (Nat.lt_of_lt_of_le allowed.2.2 (Nat.le_add_right ..))
  | submitInline => exact sound.pushSerial allowed.2
  | retire n => exact sound.retires allowed
  | spawn i k =>
    obtain ⟨-,inside,place⟩ := allowed
    exact sound.push (by omega)
  | take i k n =>
    obtain ⟨-,inside,at_,within,member⟩ := allowed
    refine sound.takes inside within member ?_ nofun nofun
    rcases at_ with here | here <;> rw [here] <;> rfl
  | miss i =>
    obtain ⟨-,inside,here | here⟩ := allowed
    · unfold Work.act
      simp only [here]
      exact sound.turns inside (by rw [here]; rfl) nofun nofun
    · unfold Work.act
      simp only [here]
      exact sound.turns inside (by rw [here]; rfl) nofun nofun
  | mark i =>
    obtain ⟨inside,marking⟩ := allowed
    cases here : s.work.stages i with
    | missed =>
      obtain ⟨kept,same,-⟩ := sound.marked (b := true) inside (fun _ => by rw [here]; rfl)
      unfold Work.act
      simp only [here]
      exact kept.turns inside (by rw [same,here]; rfl) nofun nofun
    | found n =>
      obtain ⟨kept,same,cleared⟩ := sound.marked (b := false) inside nofun
      unfold Work.act
      simp only [here]
      exact kept.turns inside (by rw [same,here]; rfl) nofun (fun _ => cleared)
    | _ =>
      rw [here] at marking
      cases marking
  | yield i k n =>
    obtain ⟨active,inside,early,member⟩ := allowed
    exact sound.takes inside (by omega) member rfl nofun (fun _ => active)
  | finish i =>
    obtain ⟨active,inside⟩ := allowed
    cases here : s.work.stages i with
    | running tasks =>
      cases tasks with
      | nil => exact absurd here (sound.shaped i)
      | cons n rest =>
        unfold Work.act
        simp only [here]
        exact sound.finishes inside here
    | _ =>
      rw [here] at active
      cases active
  | _ => exact sound

end Steps

-- What a finished poll that found nothing amounts to, if nobody came between.
def Sample.Quiet (workers : Nat) (x : Sample) : Prop :=
  x.raced = true ∨ x.seen.up = true ∧ (workers : Int) ≤ x.seen.idleWorkers ∧ ∀ k, k < 3+workers → x.seen.containers k = []

-- The samples behind a waiter's place. The one under way is of the present state as long
-- as nobody has come between.
def Watches (workers : Nat) (work : Work) (completed : Bool) : PollAt → List Sample → Prop
  | .away,xs => xs = []
  | .unwatched,xs => xs = []
  | .asleep quiet,xs => xs.length = quiet ∧ quiet < netPolls ∧ ∀ x ∈ xs, x.Quiet workers
  | .external quiet,xs => (xs.length = quiet ∧ quiet < netPolls ∧ ∀ x ∈ xs, x.Quiet workers) ∧ completed = false
  | .workers quiet,xs => ∃ x rest, xs = x :: rest ∧ (rest.length = quiet ∧ quiet < netPolls ∧ ∀ y ∈ rest, y.Quiet workers) ∧
      completed = false ∧ (x.raced = false → x.seen = work)
  | .probing quiet k,xs => k < 3+workers ∧ ∃ x rest, xs = x :: rest ∧ (rest.length = quiet ∧ quiet < netPolls ∧ ∀ y ∈ rest, y.Quiet workers) ∧
      completed = false ∧ (x.raced = false → x.seen = work ∧ work.up = true ∧ (workers : Int) ≤ work.idleWorkers ∧
        ∀ j, j < k → work.containers j = [])
  | .reported,xs => (xs.length = netPolls ∧ ∀ x ∈ xs, x.Quiet workers) ∧ completed = false

structure Kept (workers : Nat) (s : Net) : Prop where
  sound : Sound workers s.work
  past : ∀ w, ∀ x ∈ s.samples w, Sound workers x.seen ∧ x.seen.held = 0
  watches : ∀ w, Watches workers s.work (s.completed w) (s.polls w) (s.samples w)

section Waiting

variable {workers w : Nat} {s t : Net} {work work' : Work} {completed completed' : Bool} {at_ : PollAt} {xs : List Sample}

theorem mem_blur (member : x ∈ blur at_ xs) : ∃ y ∈ xs, x.seen = y.seen := by
  unfold blur at member
  split at member
  · rcases List.mem_cons.mp member with rfl | tail
    · exact ⟨_,List.mem_cons_self,rfl⟩
    · exact ⟨x,List.mem_cons_of_mem _ tail,rfl⟩
  · exact ⟨x,member,rfl⟩

-- Others go on: what has been sampled stays, the sample under way is spoilt.
theorem Watches.blurs (watches : Watches workers work completed at_ xs) (kept : at_.locked = true → completed' = completed) :
    Watches workers work' completed' at_ (blur at_ xs) := by
  cases at_ with
  | away => exact watches
  | unwatched => exact watches
  | asleep quiet => exact watches
  | external quiet => exact ⟨watches.1,(kept rfl).trans watches.2⟩
  | workers quiet =>
    obtain ⟨x,rest,rfl,counted,waits,-⟩ := watches
    exact ⟨_,rest,rfl,counted,(kept rfl).trans waits,nofun⟩
  | probing quiet k =>
    obtain ⟨within,x,rest,rfl,counted,waits,-⟩ := watches
    exact ⟨within,_,rest,rfl,counted,(kept rfl).trans waits,nofun⟩
  | reported => exact ⟨watches.1,(kept rfl).trans watches.2⟩

-- A step of somebody else than the polls.
theorem Kept.races (kept : Kept workers s) (sound : Sound workers t.work) (polls : t.polls = s.polls) (samples : t.samples = s.samples)
    (settled : ∀ w, (s.polls w).locked = true → t.completed w = s.completed w) : Kept workers t.raced := by
  refine ⟨sound,?_,?_⟩
  · intro w x member
    obtain ⟨y,there,same⟩ := mem_blur member
    rw [samples] at there
    rw [same]
    exact kept.past w y there
  · intro w
    change Watches workers t.work (t.completed w) (t.polls w) (blur (t.polls w) (t.samples w))
    rw [polls,samples]
    exact (kept.watches w).blurs (settled w)

-- A step of one waiter.
theorem Kept.moves (kept : Kept workers s) (next : PollAt) (ys : List Sample)
    (past : ∀ x ∈ ys, Sound workers x.seen ∧ x.seen.held = 0) (watches : Watches workers s.work (s.completed w) next ys) :
    Kept workers ((s.goes w next).sampled w ys) := by
  refine ⟨kept.sound,?_,?_⟩
  · intro v
    change ∀ x ∈ Function.update s.samples w ys v, _
    by_cases here : v = w
    · rw [here,Function.update_self]
      exact past
    · rw [Function.update_of_ne here]
      exact kept.past v
  · intro v
    change Watches workers s.work (s.completed v) (Function.update s.polls w next v) (Function.update s.samples w ys v)
    by_cases here : v = w
    · rw [here,Function.update_self,Function.update_self]
      exact watches
    · rw [Function.update_of_ne here,Function.update_of_ne here]
      exact kept.watches v

theorem Kept.goes (kept : Kept workers s) (next : PollAt) (watches : Watches workers s.work (s.completed w) next (s.samples w)) :
    Kept workers (s.goes w next) := by
  have moved := kept.moves next (s.samples w) (kept.past w) watches
  have same : (s.goes w next).sampled w (s.samples w) = s.goes w next := by
    unfold Net.sampled
    rw [show Function.update (s.goes w next).samples w (s.samples w) = s.samples from Function.update_eq_self ..]
    rfl
  rw [same] at moved
  exact moved

-- A poll that finds something begins the count again.
theorem Kept.resets (kept : Kept workers s) : Kept workers ((s.goes w (.asleep 0)).sampled w []) :=
  kept.moves _ _ nofun ⟨rfl,by decide,nofun⟩

theorem Kept.looks (kept : Kept workers s) : Kept workers (s.look workers w) := by
  have watches := kept.watches w
  unfold Net.look
  cases here : s.polls w with
  | external quiet =>
    rw [here] at watches
    obtain ⟨counted,waits⟩ := watches
    dsimp only
    split
    · refine kept.moves _ _ ?_ ⟨_,_,rfl,counted,waits,fun _ => rfl⟩
      intro x member
      rcases List.mem_cons.mp member with rfl | tail
      · exact ⟨kept.sound,‹_›⟩
      · exact kept.past w x tail
    · exact kept.resets
  | workers quiet =>
    rw [here] at watches
    obtain ⟨x,rest,same,counted,waits,seen⟩ := watches
    dsimp only
    split
    · rename_i idle
      refine kept.goes _ ⟨by omega,x,rest,same,counted,waits,?_⟩
      exact fun clean => ⟨seen clean,idle.1,idle.2,nofun⟩
    · exact kept.resets
  | probing quiet k =>
    rw [here] at watches
    obtain ⟨within,x,rest,same,⟨length,few,all⟩,waits,seen⟩ := watches
    dsimp only
    split
    · rename_i empty
      have through : ∀ j, j < k+1 → x.raced = false → s.work.containers j = [] := by
        intro j before clean
        by_cases last : j = k
        · rw [last]
          exact empty
        · exact (seen clean).2.2.2 j (by omega)
      split
      · refine kept.goes _ ⟨‹_›,x,rest,same,⟨length,few,all⟩,waits,?_⟩
        intro clean
        obtain ⟨present,up,idle,-⟩ := seen clean
        exact ⟨present,up,idle,fun j before => through j before clean⟩
      · have whole : ∀ y ∈ s.samples w, y.Quiet workers := by
          rw [same]
          intro y member
          rcases List.mem_cons.mp member with rfl | tail
          · cases clean : y.raced with
            | true => exact .inl clean
            | false =>
              obtain ⟨present,up,idle,-⟩ := seen clean
              refine .inr ?_
              rw [present]
              exact ⟨up,idle,fun j before => through j (by omega) clean⟩
          · exact all y tail
        have count : (s.samples w).length = quiet+1 := by
          rw [same,List.length_cons,length]
        refine kept.goes _ ?_
        split
        · exact ⟨⟨by rw [count]; unfold netPolls at *; omega,whole⟩,waits⟩
        · exact ⟨count,by omega,whole⟩
    · exact kept.resets
  | _ => exact kept

theorem apply_kept (kept : Kept workers s) (allowed : s.Allowed workers a) : Kept workers (s.apply workers a) := by
  have sound := act_sound kept.sound allowed
  cases a with
  | setWindow => exact kept.races (t := {s with window := _}) kept.sound rfl rfl (fun _ _ => rfl)
  | settle w =>
    refine kept.races (t := {s with completed := _}) kept.sound rfl rfl ?_
    intro v locked
    refine Function.update_of_ne ?_ ..
    intro same
    rw [same,allowed.2] at locked
    cases locked
  | wait w =>
    have watches := kept.watches w
    rw [show s.polls w = .away from allowed] at watches
    have none_ : s.samples w = [] := watches
    have moved : Kept workers (s.goes w (if s.completed w then .away else if 0 < s.window then .asleep 0 else .unwatched)) := by
      refine kept.goes _ ?_
      rw [none_]
      split
      · rfl
      · split
        · exact ⟨rfl,by decide,nofun⟩
        · rfl
    exact moved.races moved.sound rfl rfl (fun _ _ => rfl)
  | wake w =>
    have moved : Kept workers ((s.goes w .away).sampled w []) := kept.moves _ _ nofun rfl
    exact moved.races moved.sound rfl rfl (fun _ _ => rfl)
  | timeout w =>
    obtain ⟨waits,quiet,here⟩ := allowed
    have watches := kept.watches w
    rw [here] at watches
    unfold Net.apply
    simp only [here]
    exact kept.goes _ ⟨watches,waits⟩
  | look w => exact kept.looks
  | _ => exact kept.races (t := {s with work := _}) sound rfl rfl (fun _ _ => rfl)

theorem reached_kept (path : Reached (netSystem workers) s) : Kept workers s := by
  refine reached_invariant (Kept workers) ?_ ?_ path
  · intro s begun
    rw [show s = {} from begun]
    refine ⟨⟨?_,nofun,nofun,?_,fun _ => rfl⟩,nofun,fun _ => rfl⟩
    · have none_ : tally workers (fun _ b => b.toNat) (fun _ => false) = 0 := tally_zero.mpr (fun _ _ => rfl)
      exact (congrArg Nat.cast none_).symm
    · intro n
      have one : tally (3+workers) (fun _ list => list.count n) (fun _ => []) = 0 := tally_zero.mpr (fun _ _ => rfl)
      have two : tally workers (fun _ at_ => at_.hands.count n) (fun _ => WorkerAt.searching) = 0 := tally_zero.mpr (fun _ _ => rfl)
      change tally _ _ (fun _ => [])+tally _ _ (fun _ => WorkerAt.searching)+0+0 = 0
      rw [one,two]
  · intro s a kept allowed
    exact apply_kept kept allowed

end Waiting

-- Nothing is queued or in hand, and every body has returned.
structure Work.AtRest (workers : Nat) (s : Work) : Prop where
  up : s.up = true
  alone : s.held = 0
  idles : ∀ i, i < workers → (s.stages i).idles = true
  empty : ∀ k, k < 3+workers → s.containers k = []
  done : s.ran.Perm (List.range s.submitted)

section Reports

variable {workers w i : Nat} {s t : Net} {work : Work}

theorem Sound.all_marked (sound : Sound workers work) (idle : (workers : Int) ≤ work.idleWorkers) (inside : i < workers) :
    work.marked i = true := by
  have counted := sound.idle
  have most := tally_most (fun _ b => b.toNat) work.marked 1 (fun j _ => by cases work.marked j <;> decide) inside
  cases flag : work.marked i with
  | true => rfl
  | false =>
    rw [flag] at most
    simp only [Bool.toNat_false] at most
    omega

-- All marks set and all containers empty, an entry can only be between a worker's
-- finding it and its mark.
theorem Sound.rests (sound : Sound workers work) (staffed : 0 < workers) (up : work.up = true) (alone : work.held = 0)
    (idle : (workers : Int) ≤ work.idleWorkers) (empty : ∀ k, k < 3+workers → work.containers k = []) :
    (∃ i n, i < workers ∧ work.stages i = .found n) ∨ work.AtRest workers := by
  by_cases found : ∃ i n, i < workers ∧ work.stages i = .found n
  · exact .inl found
  · have idles : ∀ i, i < workers → (work.stages i).idles = true := by
      intro i inside
      have free := sound.marks i (sound.all_marked idle inside)
      cases here : work.stages i with
      | found n => exact absurd ⟨i,n,inside,here⟩ found
      | running tasks =>
        cases tasks with
        | nil => exact absurd here (sound.shaped i)
        | cons =>
          rw [here] at free
          cases free
      | _ => rfl
    refine .inr ⟨up,alone,idles,empty,?_⟩
    refine List.perm_iff_count.mpr ?_
    intro n
    have placed := sound.placed n
    have one : tally (3+workers) (fun _ list => list.count n) work.containers = 0 := by
      refine tally_zero.mpr ?_
      intro k inside
      rw [empty k inside]
      rfl
    have two : tally workers (fun _ at_ => at_.hands.count n) work.stages = 0 := by
      refine tally_zero.mpr ?_
      intro i inside
      have idle := idles i inside
      cases here : work.stages i with
      | found => rw [here] at idle; cases idle
      | running => rw [here] at idle; cases idle
      | _ => rfl
    rw [sound.pooled staffed,List.count_nil] at placed
    rw [List.count_range]
    omega

-- A report names a block that has not settled, after eight polls in a row. A poll nobody
-- came into saw no external wait alive and every worker marked idle with every container
-- empty: unless one of them had just found an entry, all that was ever submitted was done.
theorem net_reports (staffed : 0 < workers) (path : Reached (netSystem workers) s) (reported : s.polls w = .reported) :
    s.completed w = false ∧ (s.samples w).length = netPolls ∧ ∀ x ∈ s.samples w, x.raced = true ∨
      x.seen.held = 0 ∧ (∀ i, i < workers → x.seen.marked i = true) ∧ (∀ k, k < 3+workers → x.seen.containers k = []) ∧
        ((∃ i n, i < workers ∧ x.seen.stages i = .found n) ∨ x.seen.AtRest workers) := by
  have kept := reached_kept path
  have watches := kept.watches w
  rw [reported] at watches
  obtain ⟨⟨count,all⟩,waits⟩ := watches
  refine ⟨waits,count,?_⟩
  intro x member
  obtain ⟨sound,alone⟩ := kept.past w x member
  rcases all x member with raced | ⟨up,idle,empty⟩
  · exact .inl raced
  · exact .inr ⟨alone,fun i inside => sound.all_marked idle inside,empty,sound.rests staffed up alone idle empty⟩

-- One worker, which has run what was submitted and gone idle, and a thread that waits.
def lastWork : List NetAction := [.create,.submit 1,.take 0 1 0,.mark 0,.finish 0,.miss 0,.mark 0,.wait 5]

def eightPolls : List NetAction := (List.replicate 8 (.timeout 5 :: List.replicate 6 (.look 5))).flatten

theorem net_reports_stuck :
    let s := (netSystem 1).follow {} (lastWork++eightPolls)
    s.polls 5 = .reported ∧ s.work.ran = [0] ∧ (s.samples 5).map Sample.raced = List.replicate 8 false ∧
      s.completed 5 = false ∧ (s.samples 5).length = netPolls ∧ ∀ x ∈ s.samples 5, x.raced = true ∨
        x.seen.held = 0 ∧ (∀ i, i < 1 → x.seen.marked i = true) ∧ (∀ k, k < 3+1 → x.seen.containers k = []) ∧
          ((∃ i n, i < 1 ∧ x.seen.stages i = .found n) ∨ x.seen.AtRest 1) :=
  ⟨by decide +kernel,by decide +kernel,by decide +kernel,
    net_reports (Nat.le_refl 1) (reached_follow (.start rfl) (by decide +kernel)) (by decide +kernel)⟩

-- Without workers no queue ever fills: a thread can report while another is still in the
-- body that it submitted.
example :
    let schedule := [.create,.submitInline,.wait 5]++(List.replicate 8 (.timeout 5 :: List.replicate 5 (.look 5))).flatten
    (netSystem 0).admits {} schedule = true ∧ ((netSystem 0).follow {} schedule).polls 5 = .reported ∧
      ((netSystem 0).follow {} schedule).work.serial = [0] := by decide +kernel

-- The loads a waiter has behind it since its count was last zero.
def PollAt.done (workers : Nat) : PollAt → Nat
  | .asleep quiet => quiet*(workers+6)
  | .external quiet => quiet*(workers+6)+1
  | .workers quiet => quiet*(workers+6)+2
  | .probing quiet k => quiet*(workers+6)+3+k
  | .reported => netPolls*(workers+6)
  | _ => 0

def PollAt.inside : PollAt → Bool
  | .away => false
  | .unwatched => false
  | _ => true

def NetAction.polls (w : Nat) : NetAction → Bool
  | .timeout v => v == w
  | .look v => v == w
  | _ => false

-- Nobody outside submits, registers a wait or settles the block that is waited for.
def NetAction.silent (w : Nat) : NetAction → Bool
  | .submit _ => false
  | .submitInline => false
  | .hold => false
  | .settle v => v != w
  | _ => true

-- A pool at rest stays so, whatever its own threads do.
theorem rest_kept (kept : Kept workers s) (rest : s.work.AtRest workers) (idle : (workers : Int) ≤ s.work.idleWorkers)
    (allowed : s.Allowed workers a) (silent : a.silent w = true) :
    (s.work.act a).AtRest workers ∧ (workers : Int) ≤ (s.work.act a).idleWorkers ∧ (s.work.act a).ran = s.work.ran := by
  have idles : ∀ i at_, at_.idles = true → ∀ j, j < workers → (Function.update s.work.stages i at_ j).idles = true := by
    intro i at_ fits j inside
    by_cases here : j = i
    · rw [here,Function.update_self]
      exact fits
    · rw [Function.update_of_ne here]
      exact rest.idles j inside
  have unbusy : ∀ i, i < workers → (s.work.stages i).busy = false := by
    intro i inside
    have quiet := rest.idles i inside
    cases here : s.work.stages i with
    | running => rw [here] at quiet; cases quiet
    | _ => rfl
  cases a with
  | create => exact ⟨⟨rfl,rest.alone,rest.idles,rest.empty,rest.done⟩,idle,rfl⟩
  | submit => cases silent
  | submitInline => cases silent
  | retire n =>
    have member : n ∈ s.work.serial := allowed
    have placed := kept.sound.placed n
    have here := List.count_pos_iff.mpr member
    have ran := rest.done.count_eq n
    rw [List.count_range] at ran
    omega
  | hold => cases silent
  | release =>
    have some_ : 0 < s.work.held := allowed
    rw [rest.alone] at some_
    exact absurd some_ (Nat.lt_irrefl 0)
  | spawn i k =>
    exact absurd allowed.1 (ne_true_of_eq_false (unbusy i allowed.2.1))
  | take i k n =>
    obtain ⟨-,-,-,within,member⟩ := allowed
    rw [rest.empty k within] at member
    cases member
  | miss i =>
    obtain ⟨-,-,here | here⟩ := allowed
    · unfold Work.act
      simp only [here]
      exact ⟨⟨rest.up,rest.alone,idles i .missed rfl,rest.empty,rest.done⟩,idle,rfl⟩
    · unfold Work.act
      simp only [here]
      exact ⟨⟨rest.up,rest.alone,idles i .searching rfl,rest.empty,rest.done⟩,idle,rfl⟩
  | mark i =>
    obtain ⟨inside,marking⟩ := allowed
    have quiet := rest.idles i inside
    have same : s.work.mark i true = s.work := if_pos (kept.sound.all_marked idle inside)
    cases here : s.work.stages i with
    | missed =>
      unfold Work.act
      simp only [here,same]
      exact ⟨⟨rest.up,rest.alone,idles i .waiting rfl,rest.empty,rest.done⟩,idle,rfl⟩
    | found => rw [here] at quiet; cases quiet
    | _ =>
      rw [here] at marking
      cases marking
  | yield i k n =>
    exact absurd allowed.1 (ne_true_of_eq_false (unbusy i allowed.2.1))
  | finish i =>
    exact absurd allowed.1 (ne_true_of_eq_false (unbusy i allowed.2))
  | _ => exact ⟨rest,idle,rfl⟩

theorem apply_work (workers : Nat) (s : Net) (a : NetAction) : (s.apply workers a).work = s.work.act a := by
  cases a with
  | timeout w =>
    unfold Net.apply
    dsimp only
    split <;> rfl
  | look w =>
    change (s.look workers w).work = s.work
    unfold Net.look
    split
    · split <;> rfl
    · split <;> rfl
    · split
      · split <;> rfl
      · rfl
    · rfl
  | _ => rfl

-- Where nothing is to be found a poll goes load by load to its end.
theorem look_done (kept : Kept workers s) (rest : s.work.AtRest workers) (idle : (workers : Int) ≤ s.work.idleWorkers)
    (locked : (s.polls w).locked = true) (open_ : s.polls w ≠ .reported) :
    ((s.look workers w).polls w).inside = true ∧ ((s.look workers w).polls w).done workers = (s.polls w).done workers+1 := by
  have watches := kept.watches w
  unfold Net.look
  cases here : s.polls w with
  | external quiet =>
    dsimp only
    rw [if_pos rest.alone]
    simp only [Net.goes,Net.sampled,Function.update_self,PollAt.inside,PollAt.done,and_self]
  | workers quiet =>
    dsimp only
    rw [if_pos ⟨rest.up,idle⟩]
    simp only [Net.goes,Function.update_self,PollAt.inside,PollAt.done,Nat.add_zero,and_self]
  | probing quiet k =>
    rw [here] at watches
    obtain ⟨within,x,others,same,⟨length,few,-⟩,-⟩ := watches
    dsimp only
    rw [if_pos (rest.empty k within)]
    split
    · simp only [Net.goes,Function.update_self,PollAt.inside,PollAt.done,true_and]
      omega
    · have last : k = workers+2 := by omega
      split
      · have most : quiet = 7 := by unfold netPolls at *; omega
        simp only [Net.goes,Function.update_self,PollAt.inside,PollAt.done,true_and,most,netPolls]
        omega
      · simp only [Net.goes,Function.update_self,PollAt.inside,PollAt.done,true_and,Nat.add_mul,Nat.one_mul]
        omega
  | reported => exact absurd here open_
  | _ =>
    rw [here] at locked
    cases locked

theorem look_other (workers : Nat) (s : Net) (other : v ≠ w) : (s.look workers v).polls w = s.polls w := by
  unfold Net.look
  split
  · split <;> exact Function.update_of_ne other.symm ..
  · split <;> exact Function.update_of_ne other.symm ..
  · split
    · split <;> exact Function.update_of_ne other.symm ..
    · exact Function.update_of_ne other.symm ..
  · rfl

-- Each of the waiter's own steps takes it on by one load, nobody else's takes it back.
theorem step_done (kept : Kept workers s) (rest : s.work.AtRest workers) (idle : (workers : Int) ≤ s.work.idleWorkers)
    (waits : (s.polls w).inside = true) (unsettled : s.completed w = false) (allowed : s.Allowed workers a) (silent : a.silent w = true) :
    ((s.apply workers a).polls w).inside = true ∧ (s.apply workers a).completed w = false ∧
      ((s.apply workers a).polls w).done workers = (s.polls w).done workers+if a.polls w = true then 1 else 0 := by
  cases a with
  | settle v =>
    have other : w ≠ v := by
      intro same
      rw [same] at silent
      exact absurd silent (by simp [NetAction.silent])
    exact ⟨waits,(Function.update_of_ne other ..).trans unsettled,rfl⟩
  | wait v =>
    have away : s.polls v = .away := allowed
    have other : w ≠ v := by
      intro same
      rw [same,away] at waits
      cases waits
    have same : (s.apply workers (.wait v)).polls w = s.polls w := Function.update_of_ne other ..
    rw [same]
    exact ⟨waits,unsettled,rfl⟩
  | wake v =>
    have settled : s.completed v = true := allowed.1
    have other : w ≠ v := by
      intro same
      rw [same,settled] at unsettled
      cases unsettled
    have same : (s.apply workers (.wake v)).polls w = s.polls w := Function.update_of_ne other ..
    rw [same]
    exact ⟨waits,unsettled,rfl⟩
  | timeout v =>
    obtain ⟨-,quiet,here⟩ := allowed
    have next : s.apply workers (.timeout v) = s.goes v (.external quiet) := by
      unfold Net.apply
      simp only [here]
    rw [next]
    by_cases same : v = w
    · subst v
      rw [if_pos (by simp [NetAction.polls]),here]
      simp only [Net.goes,Function.update_self,PollAt.inside,PollAt.done]
      exact ⟨trivial,unsettled,trivial⟩
    · rw [if_neg (by simp [NetAction.polls,same])]
      have still : (s.goes v (.external quiet)).polls w = s.polls w := Function.update_of_ne (Ne.symm same) ..
      rw [still]
      exact ⟨waits,unsettled,rfl⟩
  | look v =>
    have settled : (s.look workers v).completed = s.completed := by
      unfold Net.look
      split
      · split <;> rfl
      · split <;> rfl
      · split
        · split <;> rfl
        · rfl
      · rfl
    change ((s.look workers v).polls w).inside = true ∧ (s.look workers v).completed w = false ∧
      ((s.look workers v).polls w).done workers = _
    rw [settled]
    by_cases same : v = w
    · subst v
      obtain ⟨inside,done⟩ := look_done kept rest idle allowed.1 allowed.2
      rw [if_pos (by simp [NetAction.polls])]
      exact ⟨inside,unsettled,done⟩
    · rw [if_neg (by simp [NetAction.polls,same]),look_other workers s same]
      exact ⟨waits,unsettled,rfl⟩
  | _ => exact ⟨waits,unsettled,rfl⟩

-- A pool that cannot go on by itself is reported: whatever its own threads and the other
-- waiters do, it stays at rest, and each of the waiter's own steps brings it one load nearer to
-- the report, which it can always go on to.
theorem net_catches (path : Reached (netSystem workers) s) (rest : s.work.AtRest workers)
    (idle : (workers : Int) ≤ s.work.idleWorkers) (waits : (s.polls w).inside = true) (unsettled : s.completed w = false)
    (run : Runs (netSystem workers) s actions t) (left : ∀ a ∈ actions, a.silent w = true) :
    t.work.AtRest workers ∧ t.work.ran = s.work.ran ∧
      (t.polls w).done workers = (s.polls w).done workers+actions.countP (·.polls w) ∧
      (t.polls w = .reported ∨ (t.polls w).done workers < netPolls*(workers+6) ∧
        (t.Allowed workers (.timeout w) ∨ t.Allowed workers (.look w))) := by
  have kept := reached_kept path
  have stays : t.work.AtRest workers ∧ (workers : Int) ≤ t.work.idleWorkers ∧ t.work.ran = s.work.ran ∧
      (t.polls w).inside = true ∧ t.completed w = false ∧
      (t.polls w).done workers = (s.polls w).done workers+actions.countP (·.polls w) := by
    induction run with
    | nil => exact ⟨rest,idle,rfl,waits,unsettled,rfl⟩
    | @step earlier t a prior allowed ih =>
      obtain ⟨rest,idle,same,waits,unsettled,done⟩ := ih (fun b member => left b (List.mem_append_left _ member))
      have held := reached_kept (runs_reached path prior)
      have silent := left a (List.mem_append_right _ List.mem_cons_self)
      obtain ⟨rest',idle',same'⟩ := rest_kept held rest idle allowed silent
      obtain ⟨waits',unsettled',done'⟩ := step_done held rest idle waits unsettled allowed silent
      change ((t.apply workers a).work).AtRest workers ∧ _
      rw [apply_work]
      refine ⟨rest',?_,?_,waits',unsettled',?_⟩
      · change (workers : Int) ≤ (t.apply workers a).work.idleWorkers
        rw [apply_work]
        exact idle'
      · change (t.apply workers a).work.ran = s.work.ran
        rw [apply_work]
        exact same'.trans same
      · rw [List.countP_append,List.countP_singleton]
        exact done'.trans (by rw [done,Nat.add_assoc])
  obtain ⟨rest,-,same,inside,unsettled,done⟩ := stays
  refine ⟨rest,same,done,?_⟩
  have watches := (reached_kept (runs_reached path run)).watches w
  cases here : t.polls w with
  | asleep quiet =>
    rw [here] at watches
    refine .inr ⟨?_,.inl ⟨unsettled,quiet,here⟩⟩
    exact Nat.mul_lt_mul_of_pos_right watches.2.1 (Nat.succ_pos _)
  | external quiet =>
    rw [here] at watches
    have few := Nat.mul_le_mul_right (workers+6) watches.1.2.1
    refine .inr ⟨?_,.inr ⟨by rw [here]; rfl,by rw [here]; nofun⟩⟩
    simp only [PollAt.done,Nat.succ_mul] at few ⊢
    omega
  | workers quiet =>
    rw [here] at watches
    obtain ⟨x,others,-,⟨-,few,-⟩,-⟩ := watches
    have few := Nat.mul_le_mul_right (workers+6) few
    refine .inr ⟨?_,.inr ⟨by rw [here]; rfl,by rw [here]; nofun⟩⟩
    simp only [PollAt.done,Nat.succ_mul] at few ⊢
    omega
  | probing quiet k =>
    rw [here] at watches
    obtain ⟨within,x,others,-,⟨-,few,-⟩,-⟩ := watches
    have few := Nat.mul_le_mul_right (workers+6) few
    refine .inr ⟨?_,.inr ⟨by rw [here]; rfl,by rw [here]; nofun⟩⟩
    simp only [PollAt.done,Nat.succ_mul] at few ⊢
    omega
  | reported => exact .inl rfl
  | _ =>
    rw [here] at inside
    cases inside

theorem net_catches_stuck :
    let s := (netSystem 1).follow {} lastWork
    let t := (netSystem 1).follow s (.miss 0 :: .timeout 5 :: .look 5 :: .miss 0 :: .mark 0 :: [.look 5])
    t.work.AtRest 1 ∧ t.work.ran = s.work.ran ∧ (t.polls 5).done 1 = (s.polls 5).done 1+3 ∧
      (t.polls 5 = .reported ∨ (t.polls 5).done 1 < netPolls*(1+6) ∧ (t.Allowed 1 (.timeout 5) ∨ t.Allowed 1 (.look 5))) := by
  have path : Reached (netSystem 1) ((netSystem 1).follow {} lastWork) := reached_follow (.start rfl) (by decide)
  have rest : ((netSystem 1).follow {} lastWork).work.AtRest 1 := by
    exact ⟨by decide,by decide,by decide,by decide,by decide⟩
  exact net_catches path rest (by decide) (by decide) (by decide) (runs_follow (by decide)) (by decide)

end Reports

end Macrame.DeadlockNet

import Macrame.PoolAccount

namespace Macrame
open Machines

-- The actions of one thread's own code and of its drain loops.
def PoolAction.turns (i : ThreadId) : PoolAction → Bool
  | .submit j _ => j == i
  | .drain j => j == i
  | .finish j => j == i
  | .step j _ _ => j == i
  | _ => false

-- What such an action does without workers: to the thread's trampoline, and to
-- where the thread stands. `n` is the next task's number.
inductive SerialTurn (i : ThreadId) (n : Nat) : PoolAction → Trampoline → PoolAt → Trampoline → PoolAt → Prop where
  | appends : t.draining = true → SerialTurn i n (.submit i p) t (.running tasks) (t.push n) (.running tasks)
  | starts : t.draining = false →
      SerialTurn i n (.submit i p) t (.running tasks) { t.push n with draining := true } (.looping tasks true)
  | drains : SerialTurn i n (.drain i) t (.running tasks) t (.looping tasks false)
  | finishes : SerialTurn i n (.finish i) t (.running (⟨m,.serial started⟩ :: rest)) t (.looping rest started)
  | draws : t.pending[t.head]? = some m →
      SerialTurn i n (.step i fails pick) t (.looping tasks started) { t with head := t.head+1, popped := t.popped++[m] }
        (.running (⟨m,.serial started⟩ :: tasks))
  | ends : t.pending[t.head]? = none →
      SerialTurn i n (.step i fails pick) t (.looping tasks true) { t with pending := [], head := 0, draining := false }
        (.running tasks)
  | drained : t.pending[t.head]? = none → SerialTurn i n (.step i fails pick) t (.looping tasks false) t (.running tasks)

section Places

variable {c : Scheduler} {s : Pool}

theorem Pool.Sound.standing (sound : s.Sound c) (single : c.singleThreaded = true) (i : ThreadId) :
    (∃ tasks, s.thread i = .running tasks) ∨ ∃ tasks started, s.thread i = .looping tasks started := by
  have only := (sound.serial single).2.2 i
  cases at_ : s.thread i with
  | running tasks => exact .inl ⟨tasks,rfl⟩
  | looping tasks started => exact .inr ⟨tasks,started,rfl⟩
  | _ =>
    rw [at_] at only
    cases only

-- Every body runs from a drain loop.
theorem Pool.Sound.dispatched (sound : s.Sound c) (single : c.singleThreaded = true)
    (at_ : s.thread i = .running (t :: rest)) : ∃ started, t.dispatch = .serial started := by
  have outer := sound.outside i (Nat.le_of_not_lt (c.not_both single))
  rw [at_] at outer
  simp only [PoolAt.outside,List.all_cons,Bool.and_eq_true] at outer
  have first := outer.1
  unfold RunningTask.isSerial at first
  cases how : t.dispatch with
  | serial started => exact ⟨started,rfl⟩
  | _ =>
    rw [how] at first
    cases first

-- One round of a drain loop.
theorem looping_step (at_ : s.thread j = .looping tasks started) :
    s.apply c (.step j fails pick) =
      (match (s.stores.serial j).pending[(s.stores.serial j).head]? with
      | some m => (s.withSerial j { s.stores.serial j with
          head := (s.stores.serial j).head+1, popped := (s.stores.serial j).popped++[m] }).goes j
            (.running (⟨m,.serial started⟩ :: tasks))
      | none =>
        if started then
          (s.withSerial j { s.stores.serial j with pending := [], head := 0, draining := false }).goes j (.running tasks)
        else s.goes j (.running tasks)) := by
  have own : s.step c j fails pick = s.ownStep c j pick := by
    unfold Pool.step
    rw [at_]
    rfl
  change s.step c j fails pick = _
  rw [own]
  unfold Pool.ownStep
  rewrite [at_]
  rfl

-- An action turns one thread, or none.
def Pool.Turned (s u : Pool) (a : PoolAction) (i : ThreadId) : Prop :=
  SerialTurn i s.submitted a (s.stores.serial i) (s.thread i) (u.stores.serial i) (u.thread i) ∨
    (a.turns i = false ∧ u.stores.serial i = s.stores.serial i ∧ u.thread i = s.thread i)

theorem Pool.Turned.of {u : Pool} {a : PoolAction} (j : ThreadId) (t : Trampoline) (next : PoolAt)
    (turns : ∀ i, a.turns i = (j == i)) (at_ : s.thread j = before)
    (turn : SerialTurn j s.submitted a (s.stores.serial j) before t next) (thread : u.thread = Function.update s.thread j next)
    (serial : u.stores.serial = Function.update s.stores.serial j t) (i : ThreadId) : s.Turned u a i := by
  by_cases mine : i = j
  · subst mine
    refine .inl ?_
    rw [thread,serial,Function.update_self,Function.update_self,at_]
    exact turn
  · refine .inr ⟨by rw [turns]; exact beq_false_of_ne (fun same => mine same.symm),?_,?_⟩
    · rw [serial,Function.update_of_ne mine]
    · rw [thread,Function.update_of_ne mine]

theorem serial_turned (sound : s.Sound c) (single : c.singleThreaded = true) (allowed : s.Allowed c a) (i : ThreadId) :
    s.Turned (s.apply c a) a i := by
  cases a with
  | submit j p =>
    obtain ⟨tasks,at_⟩ := PoolAt.runs_iff.mp allowed
    simp only [Pool.apply,at_,Pool.submit,if_pos single]
    split
    case isTrue draining =>
      exact .of j _ _ (fun _ => rfl) at_ (.appends draining) (by rw [← at_]; exact (Function.update_eq_self ..).symm) rfl i
    case isFalse draining =>
      exact .of j _ _ (fun _ => rfl) at_ (.starts (Bool.eq_false_iff.mpr draining)) rfl rfl i
  | yield j own =>
    refine .inr ⟨rfl,?_⟩
    obtain ⟨tasks,at_⟩ := PoolAt.runs_iff.mp allowed
    have idle : s.apply c (.yield j own) = s := by
      simp only [Pool.apply,at_]
      exact if_pos (.inr (.inr (Nat.le_of_not_lt (c.not_both single))))
    rw [idle]
    exact ⟨rfl,rfl⟩
  | drain j =>
    obtain ⟨tasks,at_⟩ := PoolAt.runs_iff.mp allowed
    simp only [Pool.apply,at_]
    exact .of j _ _ (fun _ => rfl) at_ .drains rfl (by exact (Function.update_eq_self ..).symm) i
  | finish j =>
    obtain ⟨tasks,at_⟩ := PoolAt.runs_iff.mp allowed.1
    cases tasks with
    | nil => exact absurd at_ allowed.2
    | cons t rest =>
      obtain ⟨started,how⟩ := sound.dispatched single at_
      obtain ⟨m,dispatch⟩ := t
      cases how
      simp only [Pool.apply,at_]
      exact .of j _ _ (fun _ => rfl) at_ .finishes rfl (by exact (Function.update_eq_self ..).symm) i
  | step j fails pick =>
    rcases sound.standing single j with ⟨tasks,at_⟩ | ⟨tasks,started,at_⟩
    · change s.Steps c j pick at allowed
      unfold Pool.Steps at allowed
      rw [at_] at allowed
      exact allowed.elim
    · rw [looping_step at_]
      split
      · exact .of j _ _ (fun _ => rfl) at_ (.draws ‹_›) rfl rfl i
      · split
        case isTrue yes =>
          subst yes
          exact .of j _ _ (fun _ => rfl) at_ (.ends ‹_›) rfl rfl i
        case isFalse no =>
          cases (Bool.eq_false_iff.mpr no : started = false)
          exact .of j _ _ (fun _ => rfl) at_ (.drained ‹_›) rfl (by exact (Function.update_eq_self ..).symm) i
  | rouse w =>
    obtain ⟨key,at_⟩ := PoolAt.roused_blocked allowed
    have only := (sound.serial single).2.2 w
    rw [at_] at only
    cases only
  | quit => exact .inr ⟨rfl,rfl,rfl⟩
  | close =>
    refine .inr ⟨rfl,?_⟩
    have still : (s.thread i).roused = s.thread i := by
      rcases sound.standing single i with ⟨tasks,at_⟩ | ⟨tasks,started,at_⟩ <;> (rw [at_]; rfl)
    simp only [Pool.apply]
    split
    · split <;> exact ⟨rfl,rfl⟩
    · exact ⟨rfl,still⟩
    · exact ⟨rfl,rfl⟩

end Places

-- The bodies a thread is inside of have all been drawn from its trampoline.
def Pool.Drawn (s : Pool) : Prop := ∀ i, ∀ t ∈ (s.thread i).stack, t.task ∈ (s.stores.serial i).popped

section Turns

variable {c : Scheduler} {s u : Pool} {n : Nat} {a : PoolAction} {t t' : Trampoline} {at_ next : PoolAt}

theorem SerialTurn.drawn (turn : SerialTurn i n a t at_ t' next) (drawn : ∀ r ∈ at_.stack, r.task ∈ t.popped) :
    ∀ r ∈ next.stack, r.task ∈ t'.popped := by
  cases turn with
  | finishes => exact fun r member => drawn r (List.mem_cons_of_mem _ member)
  | draws found =>
    intro r member
    rcases List.mem_cons.mp member with rfl | lower
    · exact List.mem_append_right _ (List.mem_singleton_self _)
    · exact List.mem_append_left _ (drawn r lower)
  | _ => exact drawn

theorem SerialTurn.pushed_later (turn : SerialTurn i n a t at_ t' next) : t.pushed <+: t'.pushed := by
  cases turn with
  | appends => exact List.prefix_append ..
  | starts => exact List.prefix_append ..
  | _ => exact List.prefix_rfl

theorem SerialTurn.pushes (turn : SerialTurn i n (.submit i p) t at_ t' next) : t'.pushed = t.pushed++[n] := by
  cases turn <;> rfl

-- The buffer holds the last of what has come in.
theorem SerialTurn.buffered (turn : SerialTurn i n a t at_ t' next) (buffered : t.pending <:+ t.pushed) :
    t'.pending <:+ t'.pushed := by
  have grown : t.pending++[n] <:+ t.pushed++[n] := List.suffix_concat_iff.mpr (.inr ⟨t.pending,rfl,buffered⟩)
  cases turn with
  | appends => exact grown
  | starts => exact grown
  | ends => exact List.nil_suffix
  | _ => exact buffered

-- The loops and the returns that are still to come, if no task and no drain is added.
def serialWork (t : Trampoline) (at_ : PoolAt) : Nat :=
  3*(t.pending.drop t.head).length+2*at_.stack.length+
    (match at_ with
    | .looping _ _ => 1
    | _ => 0)

def PoolAction.submits (i : ThreadId) : PoolAction → Bool
  | .submit j _ => j == i
  | _ => false

def PoolAction.drains (i : ThreadId) : PoolAction → Bool
  | .drain j => j == i
  | _ => false

def PoolAction.rounds (i : ThreadId) : PoolAction → Bool
  | .finish j => j == i
  | .step j _ _ => j == i
  | _ => false

-- A turn is a submit, a drain or a round.
theorem PoolAction.idle (idle : a.turns i = false) : a.submits i = false ∧ a.drains i = false ∧ a.rounds i = false := by
  cases a <;> first | exact ⟨idle,rfl,rfl⟩ | exact ⟨rfl,idle,rfl⟩ | exact ⟨rfl,rfl,idle⟩

theorem SerialTurn.counted (turn : SerialTurn i n a t at_ t' next) :
    t'.pushed.length = t.pushed.length+[a].countP (PoolAction.submits i) := by
  cases turn <;> simp [PoolAction.submits,Trampoline.push]

theorem SerialTurn.work (turn : SerialTurn i n a t at_ t' next) (kept : t.Kept) :
    [a].countP (PoolAction.rounds i)+serialWork t' next ≤
      serialWork t at_+4*[a].countP (PoolAction.submits i)+[a].countP (PoolAction.drains i) := by
  have within := kept.1
  simp only [List.countP_singleton,serialWork,List.length_drop]
  cases turn with
  | appends => simp [PoolAction.rounds,PoolAction.submits,PoolAction.drains,Trampoline.push]; omega
  | starts => simp [PoolAction.rounds,PoolAction.submits,PoolAction.drains,Trampoline.push,PoolAt.stack]; omega
  | drains => simp [PoolAction.rounds,PoolAction.submits,PoolAction.drains,PoolAt.stack]
  | finishes => simp [PoolAction.rounds,PoolAction.submits,PoolAction.drains,PoolAt.stack]; omega
  | draws found =>
    obtain ⟨inside,_⟩ := List.getElem?_eq_some_iff.mp found
    simp [PoolAction.rounds,PoolAction.submits,PoolAction.drains,PoolAt.stack]
    omega
  | ends => simp [PoolAction.rounds,PoolAction.submits,PoolAction.drains,PoolAt.stack]; omega
  | drained => simp [PoolAction.rounds,PoolAction.submits,PoolAction.drains,PoolAt.stack]; omega

end Turns

end Macrame

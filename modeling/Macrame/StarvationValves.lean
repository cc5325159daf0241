import Macrame.ValveLaws

namespace Macrame
open Machines

-- With counters `a` at its start a run serves the low queue within every 65 takes,
-- and the normal queue within every 61 takes from the own deque.
def Valved (c : Scheduler) (worker : ThreadId) (a : Aging) : Prop :=
  ∀ stock schedule,
    ((findSystem c worker).Throughout (fun s => s.stock.queues .low ≠ []) ⟨stock,a,.high,[]⟩ schedule →
      (findSystem c worker).Each FindRun.Quiet ⟨stock,a,.high,[]⟩ schedule →
      ServesLow ((findSystem c worker).follow ⟨stock,a,.high,[]⟩ schedule).takes) ∧
    ((findSystem c worker).Throughout (fun s => s.stock.queues .normal ≠ []) ⟨stock,a,.high,[]⟩ schedule →
      ServesNormal ((findSystem c worker).follow ⟨stock,a,.high,[]⟩ schedule).takes)

namespace FindRun

section Served

variable {c : Scheduler} {worker : ThreadId} {s : FindRun} {a : Aging}

theorem reached_counts (path : Reached (findSystem c worker) s) : s.Counts := by
  refine reached_invariant _ ?_ ?_ path
  · rintro ⟨_,_,_,_⟩ ⟨rfl,rfl,_⟩
    exact ⟨(by decide : InInt 0),Int.le_refl 0,(by decide : (0 : Int) ≤ 61),by simp⟩
  · intro s action counts _
    cases action with
    | others stock => exact ⟨counts.low,counts.nonneg,counts.global,counts.below⟩
    | scan pick => exact scanned_counts counts pick

-- While the run has few takes `since_low` has not come past its end.
def Brief (s : FindRun) : Prop :=
  (s.takes.length : Int) ≤ intMax → 0 ≤ s.aging.sinceLow ∧ s.aging.sinceLow ≤ s.takes.length

theorem scanned_brief (brief : s.Brief) (pick : Nat) : (s.scanned c worker pick).Brief := by
  unfold scanned
  split
  · rename_i b next went
    intro short
    obtain ⟨positive,counted⟩ := brief short
    generalize (answered_scan went).1 = goes
    generalize s.scan = scan at goes
    cases goes with
    | low => exact ⟨positive,counted⟩
    | enter _ entered => exact ⟨entered.1 ▸ positive,entered.1 ▸ counted⟩
    | reset entered => exact ⟨Int.le_of_eq entered.1.symm,by simp only [entered.1]; omega⟩
    | back => exact ⟨positive,counted⟩
    | on => exact ⟨positive,counted⟩
  · rename_i b n found
    intro short
    obtain ⟨counter,_⟩ := answered_found found
    simp only [List.length_append,List.length_singleton] at short ⊢
    obtain ⟨positive,counted⟩ := brief (by omega)
    rw [counter]
    split
    · omega
    · rw [int32_of_in (by unfold InInt; omega)]
      omega
  · rename_i b nothing
    obtain ⟨rfl,_⟩ := answered_nothing nothing
    exact brief

theorem reached_nonneg (path : Reached (findSystem c worker) s) (short : (s.takes.length : Int) ≤ intMax) :
    0 ≤ s.aging.sinceLow := by
  refine (reached_invariant Brief ?_ ?_ path short).1
  · rintro ⟨_,_,_,_⟩ ⟨rfl,rfl,rfl⟩ _
    exact ⟨Int.le_refl 0,Int.le_refl 0⟩
  · intro s action brief _
    cases action with
    | others stock => exact brief
    | scan pick => exact scanned_brief brief pick

theorem left_counts (left : LeftBehind c worker a) (stock : Stock) : (⟨stock,a,.high,[]⟩ : FindRun).Counts := by
  obtain ⟨s,path,_,rfl⟩ := left
  have counts := reached_counts path
  exact ⟨counts.low,counts.nonneg,counts.global,by simp⟩

theorem run_servesLow (served : s.LowServed)
    (stocked : (findSystem c worker).Throughout (fun s => s.stock.queues .low ≠ []) s schedule)
    (quiet : (findSystem c worker).Each Quiet s schedule) :
    ServesLow ((findSystem c worker).follow s schedule).takes := by
  have all : (findSystem c worker).Throughout LowServed s schedule := by
    refine throughout_while LowServed ?_ (fun _ here => here) served (each_always (fun _ _ => trivial))
      (each_and (each_of_throughout stocked) quiet)
    rintro s action served _ ⟨stocked,quiet⟩
    cases action with
    | others stock => exact ⟨served.bounded,served.since,served.past⟩
    | scan pick => exact scanned_lowServed served stocked quiet
  have bounded := (throughout_last all).bounded
  intro window inside long
  by_contra missing
  have short := bounded window inside (fun x member => beq_false_of_ne (fun same => missing (same ▸ member)))
  rw [List.countP_true,long] at short
  omega

theorem run_servesNormal (counts : s.Counts) (served : s.NormalServed)
    (stocked : (findSystem c worker).Throughout (fun s => s.stock.queues .normal ≠ []) s schedule) :
    ServesNormal ((findSystem c worker).follow s schedule).takes := by
  have all : (findSystem c worker).Throughout NormalServed s schedule := by
    refine throughout_while (fun s => s.Counts ∧ s.NormalServed) ?_ (fun _ here => here.2) ⟨counts,served⟩
      (each_always (fun _ _ => trivial)) (each_of_throughout stocked)
    rintro s action ⟨counts,served⟩ _ stocked
    cases action with
    | others stock =>
      exact ⟨⟨counts.low,counts.nonneg,counts.global,counts.below⟩,served.bounded,served.since⟩
    | scan pick => exact ⟨scanned_counts counts pick,scanned_normalServed counts served stocked pick⟩
  have bounded := (throughout_last all).bounded
  intro window inside missing
  exact bounded window inside (fun x member => beq_false_of_ne (fun same => missing (same ▸ member)))

end Served

section Starving

variable {c : Scheduler} {worker : ThreadId} {a : Aging} {s t : FindRun}

-- A run during which the low queue always has an entry and no call finds a high one.
def Waits (c : Scheduler) (worker : ThreadId) (s t : FindRun) : Prop :=
  ∃ schedule, (findSystem c worker).Throughout (fun s => s.stock.queues .low ≠ []) s schedule ∧
    (findSystem c worker).Each Quiet s schedule ∧ (findSystem c worker).follow s schedule = t

theorem Waits.refl (stocked : s.stock.queues .low ≠ []) : Waits c worker s s := ⟨[],stocked,trivial,rfl⟩

theorem Waits.trans (first : Waits c worker s t) (second : Waits c worker t u) : Waits c worker s u := by
  obtain ⟨one,stocked,quiet,rfl⟩ := first
  obtain ⟨two,more,still,rfl⟩ := second
  exact ⟨one++two,throughout_append stocked more,each_append quiet still,follow_append _⟩

theorem Waits.scan (stocked : s.stock.queues .low ≠ []) (quiet : s.stock.queues .high = [])
    (after : (s.scanned c worker 0).stock.queues .low ≠ []) : Waits c worker s (s.scanned c worker 0) :=
  ⟨[.scan 0],⟨stocked,after⟩,⟨fun _ => quiet,trivial⟩,rfl⟩

-- One entry waits in the low queue, `n` in the normal one.
def crowded (n : Nat) : Stock where
  queues
    | .high => []
    | .normal => List.replicate n 0
    | .low => [0]
  deques := fun _ => []

theorem crowded_pop (worker : ThreadId) (n : Nat) : (crowded (n+1)).removed worker (.pop .normal) = crowded n := by
  have queues : Function.update (crowded (n+1)).queues .normal (List.replicate (n+1) 0).tail = (crowded n).queues := by
    funext p
    cases p <;> rfl
  exact congrArg (Stock.mk · (fun _ => [])) queues

theorem crowded_waits {after : FindRun} (place : s.stock = crowded n) (next : s.scanned c worker 0 = after)
    (there : after.stock = crowded m) : Waits c worker s after := by
  subst next
  exact .scan (by simp [place,crowded]) (by simp [place,crowded]) (by simp [there,crowded])

-- Below the threshold one call takes a normal entry.
theorem crowded_call (fits : InInt a.sinceLow) (below : a.sinceLow < lowValveThreshold) (n : Nat) (takes : List TakenFrom) :
    Waits c worker ⟨crowded (n+1),a,.high,takes⟩ ⟨crowded n,⟨a.sinceLow+1,0⟩,.high,takes++[.normal]⟩ := by
  have one : int32 (a.sinceLow+1) = a.sinceLow+1 := by
    refine int32_of_in ?_
    unfold InInt intMax lowValveThreshold at *
    omega
  have under : ¬ lowValveThreshold ≤ a.sinceLow := by omega
  by_cases valve : globalValveThreshold ≤ a.sinceGlobal
  · have first : scanned ⟨crowded (n+1),a,.high,takes⟩ c worker 0 = ⟨crowded (n+1),⟨a.sinceLow,0⟩,.globalValve,takes⟩ := by
      simp [scanned,answered,Scan.call,Stock.answer,Scan.answered,crowded,Aging.valve,under,valve]
    have second : scanned ⟨crowded (n+1),⟨a.sinceLow,0⟩,.globalValve,takes⟩ c worker 0 =
        ⟨crowded n,⟨a.sinceLow+1,0⟩,.high,takes++[.normal]⟩ := by
      rw [← one,← crowded_pop worker n]
      rfl
    exact (crowded_waits rfl first rfl).trans (crowded_waits rfl second rfl)
  · have first : scanned ⟨crowded (n+1),a,.high,takes⟩ c worker 0 = ⟨crowded (n+1),a,.own,takes⟩ := by
      simp [scanned,answered,Scan.call,Stock.answer,Scan.answered,crowded,Aging.valve,under,valve]
    have second : scanned ⟨crowded (n+1),a,.own,takes⟩ c worker 0 = ⟨crowded (n+1),a,.normal,takes⟩ := rfl
    have third : scanned ⟨crowded (n+1),a,.normal,takes⟩ c worker 0 =
        ⟨crowded n,⟨a.sinceLow+1,0⟩,.high,takes++[.normal]⟩ := by
      rw [← one,← crowded_pop worker n]
      rfl
    exact ((crowded_waits rfl first rfl).trans (crowded_waits rfl second rfl)).trans (crowded_waits rfl third rfl)

-- So from below zero 65 calls in a row leave the low entry where it is.
theorem crowded_calls (worker : ThreadId) (k : Nat) (fits : InInt a.sinceLow) (below : a.sinceLow+k ≤ lowValveThreshold) (takes : List TakenFrom) :
    ∃ t : FindRun, Waits c worker ⟨crowded k,a,.high,takes⟩ t ∧ t.takes = takes++List.replicate k .normal := by
  induction k generalizing a takes with
  | zero => exact ⟨_,.refl (by simp [crowded]),by simp⟩
  | succ k ih =>
    have under : a.sinceLow < lowValveThreshold := by omega
    have later : InInt (a.sinceLow+1) := by
      unfold InInt intMax lowValveThreshold at *
      omega
    obtain ⟨t,rest,taken⟩ := ih (a := ⟨a.sinceLow+1,0⟩) later (by simp only; omega) (takes++[.normal])
    refine ⟨t,(crowded_call fits under k takes).trans rest,?_⟩
    rw [taken,List.append_assoc]
    rfl

end Starving

section Overflow

variable {c : Scheduler} {worker : ThreadId}

-- A high take returns before the valve: `n` of them in a row only count up.
theorem reached_high (n : Nat) : ∃ s, Reached (findSystem c worker) s ∧ s.scan = .high ∧ s.aging = ⟨int32 n,0⟩ := by
  induction n with
  | zero => exact ⟨⟨crowded 0,⟨0,0⟩,.high,[]⟩,.start ⟨rfl,rfl,rfl⟩,rfl,rfl⟩
  | succ n ih =>
    obtain ⟨s,path,place,aging⟩ := ih
    let stocked : FindRun := {s with stock := (crowded 0).setQueue .high [0]}
    have there : Reached (findSystem c worker) stocked :=
      Reached.step (m := findSystem c worker) (a := FindAction.others ((crowded 0).setQueue .high [0])) path trivial
    have once : (stocked.scanned c worker 0).scan = .high ∧
        (stocked.scanned c worker 0).aging = ⟨int32 (s.aging.sinceLow+1),s.aging.sinceGlobal⟩ := by
      simp [stocked,scanned,answered,place,Scan.call,Stock.answer,Stock.setQueue,Scan.answered]
    have taken := Reached.step (m := findSystem c worker) (a := FindAction.scan 0) there trivial
    refine ⟨stocked.scanned c worker 0,taken,once.1,?_⟩
    rw [once.2,aging,int32_add]
    rfl

theorem left_high (n : Nat) : LeftBehind c worker ⟨int32 n,0⟩ := by
  obtain ⟨s,path,place,aging⟩ := reached_high n
  exact ⟨s,path,place,aging⟩

end Overflow

end FindRun

open FindRun

theorem starves (fits : InInt a.sinceLow) (negative : a.sinceLow < 0) : ¬ Valved c worker a := by
  intro valved
  obtain ⟨t,⟨schedule,stocked,quiet,rfl⟩,taken⟩ := crowded_calls (c := c) worker 65 fits
    (by unfold lowValveThreshold; omega) []
  have served := (valved (crowded 65) schedule).1 stocked quiet
  rw [taken] at served
  have low := served (List.replicate 65 .normal) List.infix_rfl List.length_replicate
  cases (List.mem_replicate.mp low).2

theorem starvation_valves (left : LeftBehind c worker a) : Valved c worker a ↔ 0 ≤ a.sinceLow := by
  constructor
  · intro valved
    by_contra negative
    exact starves (a := a) (left_counts left (crowded 0)).low (by omega) valved
  · intro positive stock schedule
    have counts := left_counts left stock
    refine ⟨?_,?_⟩
    · exact run_servesLow ⟨Gaps.bounded_nil,Gaps.since_nil positive,by simp⟩
    · exact run_servesNormal counts ⟨Gaps.bounded_nil,fun _ => Gaps.since_nil counts.nonneg⟩

def valvedPool : Scheduler := SchedulerConfig.scheduler { numWorkers := 2 } 0

theorem starvation_valves_left : LeftBehind valvedPool 0 ⟨int32 64,0⟩ ∧ Valved valvedPool 0 ⟨int32 64,0⟩ :=
  ⟨left_high 64,(starvation_valves (left_high 64)).mpr (by decide)⟩

theorem low_starves : ¬ ∀ c worker a, LeftBehind c worker a → Valved c worker a := by
  intro claim
  exact starves (by decide) (by decide) (claim valvedPool 0 _ (left_high 2147483648))

end Macrame

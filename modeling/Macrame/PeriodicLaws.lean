import Macrame.Periodic

namespace Macrame
open Grid

namespace PeriodicRun

-- The deadline is on the grid whatever the counts were.
structure Gridded (s : PeriodicRun) : Prop where
  positive : 0 < s.periodic.period
  live : s.periodic.requested = false
  on : OnGrid s.origin s.periodic.period s.periodic.nextDeadline

-- What a tick owes its consumer: the grid points since the last one, of which
-- there is one at least, and the first point that is still to come.
structure Exact (origin period : Int) (tick : PeriodicTick) : Prop where
  some : 1 ≤ tick.value
  count : tick.value = (between origin period (tick.deadline-period) tick.now).ncard
  next : IsLeast {x | OnGrid origin period x ∧ tick.now < x} tick.next

structure Kept (s : PeriodicRun) : Prop where
  ticks : ∀ tick ∈ s.ticks, Exact s.origin s.periodic.period tick
  total : s.periodic.nextDeadline = s.origin+s.periodic.period*(1+(s.ticks.map PeriodicTick.value).sum)

-- The reading of an `advance`, if the action runs one.
def reading (s : PeriodicRun) : PeriodicAction → Option Int
  | .next first now => if s.periodic.settles first then some now else none
  | .deliver now => some now
  | _ => none

-- No `advance` comes 2^31-1 periods after its deadline, or later.
def Prompt (s : PeriodicRun) (a : PeriodicAction) : Prop :=
  ∀ now, s.reading a = some now → now-s.periodic.nextDeadline < intMax*s.periodic.period

section Ticks

variable {p : Periodic} {s : PeriodicRun}

theorem quotient (positive : 0 < p.period) (reached : p.nextDeadline ≤ now) :
    (now-p.nextDeadline).tdiv p.period = (now-p.nextDeadline)/p.period ∧ 0 ≤ (now-p.nextDeadline)/p.period :=
  ⟨Int.tdiv_eq_ediv_of_nonneg (by omega),Int.ediv_nonneg (by omega) (by omega)⟩

theorem due_exact (positive : 0 < p.period) (reached : p.nextDeadline ≤ now) (prompt : now-p.nextDeadline < intMax*p.period) :
    p.due now = (now-p.nextDeadline)/p.period+1 := by
  obtain ⟨same,low⟩ := quotient positive reached
  have high : (now-p.nextDeadline)/p.period < intMax := Int.ediv_lt_of_lt_mul positive prompt
  have small : InInt ((now-p.nextDeadline)/p.period) := by unfold InInt intMax at *; omega
  have one_more : InInt (1+(now-p.nextDeadline)/p.period) := by unfold InInt intMax at *; omega
  unfold Periodic.due
  rw [same,int32_of_in small,int32_of_in one_more,Int.add_comm]

-- A count that is right is an `int`.
theorem prompt_of_due (positive : 0 < p.period) (right : p.due now = (now-p.nextDeadline)/p.period+1) :
    now-p.nextDeadline < intMax*p.period := by
  have fits : InInt (p.due now) := int32_in _
  rw [right] at fits
  have high : (now-p.nextDeadline)/p.period < intMax := by unfold InInt at fits; omega
  exact (Int.ediv_lt_iff_lt_mul positive).mp high

theorem settle_ticks (s : PeriodicRun) (now : Int) (live : s.periodic.requested = false) :
    (s.settle now).ticks = s.ticks++[⟨s.periodic.nextDeadline,now,s.periodic.due now,s.periodic.nextDeadline+s.periodic.period*s.periodic.due now⟩] ∧
      (s.settle now).periodic = {s.periodic with nextDeadline := s.periodic.nextDeadline+s.periodic.period*s.periodic.due now} := by
  have advanced : s.periodic.advance now =
      ({s.periodic with nextDeadline := s.periodic.nextDeadline+s.periodic.period*s.periodic.due now},s.periodic.due now) :=
    if_neg (by rw [live]; nofun)
  unfold settle
  rw [advanced]
  exact ⟨rfl,rfl⟩

theorem settle_gridded (gridded : s.Gridded) (now : Int) : (s.settle now).Gridded := by
  have settled := (settle_ticks s now gridded.live).2
  refine ⟨?_,?_,?_⟩
  · rw [settled]
    exact gridded.positive
  · rw [settled]
    exact gridded.live
  · rw [settled]
    exact onGrid_shift gridded.on _

theorem settle_kept (gridded : s.Gridded) (kept : s.Kept) (reached : s.periodic.nextDeadline ≤ now)
    (prompt : now-s.periodic.nextDeadline < intMax*s.periodic.period) : (s.settle now).Kept := by
  obtain ⟨ticks,settled⟩ := settle_ticks s now gridded.live
  have right := due_exact gridded.positive reached prompt
  refine ⟨?_,?_⟩
  · rw [ticks,settled]
    intro tick member
    rcases List.mem_append.mp member with old | last
    · exact kept.ticks tick old
    · rw [List.mem_singleton.mp last]
      refine ⟨?_,?_,?_⟩
      · have low := (quotient gridded.positive reached).2
        dsimp only
        omega
      · exact right.trans (between_card gridded.positive gridded.on reached).symm
      · dsimp only
        rw [right]
        exact next_least gridded.positive gridded.on
  · rw [ticks,settled]
    have total := kept.total
    dsimp only
    rw [List.map_append,List.sum_append]
    change s.periodic.nextDeadline+s.periodic.period*s.periodic.due now =
      s.origin+s.periodic.period*(1+((s.ticks.map PeriodicTick.value).sum+([s.periodic.due now]).sum))
    rw [List.sum_singleton,← Int.add_assoc,Int.mul_add]
    omega

theorem settle_prompt (gridded : s.Gridded) (reached : s.periodic.nextDeadline ≤ now) (kept : (s.settle now).Kept) :
    now-s.periodic.nextDeadline < intMax*s.periodic.period := by
  obtain ⟨ticks,settled⟩ := settle_ticks s now gridded.live
  have last := kept.ticks _ (by rw [ticks]; exact List.mem_append_right _ (List.mem_singleton_self _))
  have count := last.count
  rw [settled] at count
  exact prompt_of_due gridded.positive (count.trans (between_card gridded.positive gridded.on reached))

-- When an action settles a tick, the deadline has been reached.
theorem reading_reached (live : s.periodic.requested = false) (allowed : s.Allowed a) (reads : s.reading a = some now) :
    s.apply a = s.settle now ∧ s.periodic.nextDeadline ≤ now := by
  cases a with
  | next first later =>
    change (if s.periodic.settles first then some later else none) = some now at reads
    split at reads
    · rename_i settles
      cases reads
      have past : s.periodic.nextDeadline ≤ first := by
        unfold Periodic.settles at settles
        rw [live] at settles
        simpa using settles
      exact ⟨if_pos settles,Int.le_trans past allowed.2.2⟩
    · cases reads
  | deliver later =>
    cases reads
    have settles := allowed.2.2
    unfold Periodic.settles at settles
    rw [live] at settles
    exact ⟨rfl,by simpa using settles⟩
  | reset later => cases reads
  | request => cases reads

theorem silent_apply (ticks : a.ticks = true) (silent : s.reading a = none) :
    (s.apply a).periodic = s.periodic ∧ (s.apply a).origin = s.origin ∧ (s.apply a).ticks = s.ticks := by
  cases a with
  | next first now =>
    change (if s.periodic.settles first then some now else none) = none at silent
    split at silent
    · cases silent
    · rename_i arms
      have same : s.apply (.next first now) = {s with outstanding := true,clock := first} := if_neg arms
      rw [same]
      exact ⟨rfl,rfl,rfl⟩
  | deliver now => cases silent
  | reset now => cases ticks
  | request => cases ticks

theorem apply_gridded (gridded : s.Gridded) (allowed : tickSystem.allowed s a) : (s.apply a).Gridded := by
  cases reads : s.reading a with
  | some now =>
    rw [(reading_reached gridded.live allowed.1 reads).1]
    exact settle_gridded gridded now
  | none =>
    obtain ⟨periodic,origin,-⟩ := silent_apply allowed.2 reads
    refine ⟨?_,?_,?_⟩
    · rw [periodic]; exact gridded.positive
    · rw [periodic]; exact gridded.live
    · rw [periodic,origin]; exact gridded.on

theorem apply_clean (gridded : s.Gridded) (kept : s.Kept) (allowed : tickSystem.allowed s a) (prompt : s.Prompt a) : (s.apply a).Kept := by
  cases reads : s.reading a with
  | some now =>
    obtain ⟨same,reached⟩ := reading_reached gridded.live allowed.1 reads
    rw [same]
    exact settle_kept gridded kept reached (prompt now reads)
  | none =>
    obtain ⟨periodic,origin,ticks⟩ := silent_apply allowed.2 reads
    refine ⟨?_,?_⟩
    · rw [ticks,periodic,origin]; exact kept.ticks
    · rw [ticks,periodic,origin]; exact kept.total

theorem apply_prompt (gridded : s.Gridded) (allowed : tickSystem.allowed s a) (kept : (s.apply a).Kept) : s.Prompt a := by
  intro now reads
  obtain ⟨same,reached⟩ := reading_reached gridded.live allowed.1 reads
  rw [same] at kept
  exact settle_prompt gridded reached kept

theorem start_kept (start : tickSystem.start s) : s.Gridded ∧ s.Kept := by
  obtain ⟨period,now,p,made,rfl⟩ := start
  unfold Periodic.make at made
  split at made
  · cases made
  · rename_i positive
    cases made
    refine ⟨⟨Int.lt_of_not_ge positive,rfl,1,?_⟩,nofun,?_⟩
    · exact congrArg (now+·) (Int.one_mul period).symm
    · exact congrArg (now+·) (Int.mul_one period).symm

end Ticks

end PeriodicRun

-- A `Periodic` is on its grid throughout a run of ticks exactly when no tick comes
-- too late for its count to be an `int`.
theorem periodic_on_grid (start : tickSystem.start s) (run : tickSystem.Each tickSystem.allowed s schedule) :
    tickSystem.Throughout PeriodicRun.Kept s schedule ↔ tickSystem.Each PeriodicRun.Prompt s schedule := by
  obtain ⟨gridded,kept⟩ := PeriodicRun.start_kept start
  exact Machines.throughout_iff_each PeriodicRun.Gridded PeriodicRun.Kept
    (fun _ _ gridded allowed => PeriodicRun.apply_gridded gridded allowed)
    (fun _ _ gridded kept allowed prompt => PeriodicRun.apply_clean gridded kept allowed prompt)
    (fun _ _ kept => kept) (fun _ _ gridded allowed kept => PeriodicRun.apply_prompt gridded allowed kept) gridded kept run

-- A tick in the call, one armed, and one after a stall of three periods.
def periodicStart : PeriodicRun := {periodic := {period := 10,nextDeadline := 10},clock := 0,origin := 0}

theorem periodic_on_grid_stall :
    let schedule : List PeriodicAction := [.next 12 12,.next 15 15,.deliver 21,.next 55 58]
    (tickSystem.follow periodicStart schedule).ticks = [⟨10,12,1,20⟩,⟨20,21,1,30⟩,⟨30,58,3,60⟩] ∧
      tickSystem.Throughout PeriodicRun.Kept periodicStart schedule := by
  refine ⟨by decide,(periodic_on_grid ⟨10,0,_,rfl,rfl⟩ (Machines.each_of_admits (by decide))).mpr ?_⟩
  refine ⟨?_,?_,?_,?_,trivial⟩ <;> intro now reads <;> cases reads <;> decide

-- The period is one tick and the consumer comes 2^31 ticks late.
def lateStart : PeriodicRun := {periodic := {period := 1,nextDeadline := 1},clock := 0,origin := 0}

theorem tick_overflows :
    tickSystem.start lateStart ∧ tickSystem.allowed lateStart (.next 2147483649 2147483649) ∧
      (lateStart.apply (.next 2147483649 2147483649)).ticks = [⟨1,2147483649,-2147483647,-2147483646⟩] ∧
      ¬(lateStart.apply (.next 2147483649 2147483649)).Kept := by
  have ticks : (lateStart.apply (.next 2147483649 2147483649)).ticks = [⟨1,2147483649,-2147483647,-2147483646⟩] := by decide
  refine ⟨⟨1,0,_,rfl,rfl⟩,by decide,ticks,?_⟩
  intro kept
  have one := (kept.ticks _ (by rw [ticks]; exact List.mem_singleton_self _)).some
  exact absurd one (by decide)

end Macrame

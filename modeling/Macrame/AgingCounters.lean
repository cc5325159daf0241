import Macrame.StarvationValves

namespace Macrame
open Machines

namespace FindRun

-- No `++` of a `find_work` step brings its counter past `cap`.
def Increments (c : Scheduler) (worker : ThreadId) (cap : Int) (s : FindRun) : FindAction → Prop
  | .others _ => True
  | .scan pick => ∀ b n, s.answered c worker pick = (b,.found n) →
      (s.scan.source ≠ .low → s.aging.sinceLow+1 ≤ cap) ∧ (s.scan = .own → s.aging.sinceGlobal+1 ≤ cap)

theorem Increments.mono {cap more : Int} (room : cap ≤ more) (increments : Increments c worker cap s action) :
    Increments c worker more s action := by
  cases action with
  | others stock => trivial
  | scan pick =>
    intro b n found
    obtain ⟨low,global⟩ := increments b n found
    exact ⟨fun higher => (low higher).trans room,fun own => (global own).trans room⟩

structure Within (cap : Int) (s : FindRun) : Prop where
  nonneg : 0 ≤ s.aging.sinceLow
  low : s.aging.sinceLow ≤ cap
  positive : 0 ≤ s.aging.sinceGlobal
  global : s.aging.sinceGlobal ≤ globalValveThreshold

-- Over a whole run `since_low` stays at or below `cap` and `since_global` at or
-- below its threshold, and every increment at or below `cap` before it is stored.
def Capped (c : Scheduler) (worker : ThreadId) (cap : Int) (s : FindRun) (schedule : List FindAction) : Prop :=
  (findSystem c worker).Each (Increments c worker cap) s schedule ∧ (findSystem c worker).Throughout (Within cap) s schedule

-- The stretches of a run: `n` calls in a row have taken from the high queue, and
-- `since_low` was `base` when the last call before them returned.
def Stretches (c : Scheduler) (worker : ThreadId) (fits : Int → Nat → Prop) (s : FindRun) (base : Int) (n : Nat) :
    List FindAction → Prop
  | [] => True
  | .others stock :: rest => Stretches c worker fits { s with stock } base n rest
  | .scan pick :: rest =>
      let next := s.scanned c worker pick
      if s.scan = .high ∧ s.stock.queues .high ≠ [] then fits base (n+1) ∧ Stretches c worker fits next base (n+1) rest
      else if next.scan = .high then Stretches c worker fits next next.aging.sinceLow 0 rest
      else Stretches c worker fits next base n rest

section Counted

variable {c : Scheduler} {worker : ThreadId} {s : FindRun} {cap base : Int} {n : Nat}

-- Between the calls `since_low` counts the stretch on from its base. Past the
-- low valve it is below the threshold, whatever it was before.
structure Stretch (cap base : Int) (n : Nat) (s : FindRun) : Prop where
  counts : s.Counts
  within : s.Within cap
  most : base ≤ 64
  since : s.scan = .high → s.aging.sinceLow = base+n
  past : s.scan ≠ .high → s.scan ≠ .lowValve → s.aging.sinceLow < lowValveThreshold

theorem answered_high (place : s.scan = .high) (stocked : s.stock.queues .high ≠ []) (pick : Nat) :
    ∃ x, s.answered c worker pick = (⟨int32 (s.aging.sinceLow+1),s.aging.sinceGlobal⟩,.found x) := by
  obtain ⟨x,rest,queue⟩ := List.exists_cons_of_ne_nil stocked
  exact ⟨x,by simp [answered,place,Scan.call,Stock.answer,queue,Scan.answered]⟩

theorem scanned_high (place : s.scan = .high) (stocked : s.stock.queues .high ≠ []) (pick : Nat) :
    (s.scanned c worker pick).scan = .high ∧
      (s.scanned c worker pick).aging = ⟨int32 (s.aging.sinceLow+1),s.aging.sinceGlobal⟩ := by
  obtain ⟨x,found⟩ := answered_high place stocked pick
  unfold scanned
  rw [found]
  exact ⟨rfl,rfl⟩

theorem Stretch.taken (stretch : Stretch cap base n s) (fits : cap ≤ intMax) (place : s.scan = .high)
    (stocked : s.stock.queues .high ≠ []) (room : base+(n+1 : Nat) ≤ cap) (pick : Nat) :
    Stretch cap base (n+1) (s.scanned c worker pick) := by
  have since := stretch.since place
  have nonneg := stretch.within.nonneg
  obtain ⟨again,aging⟩ := scanned_high place stocked pick
  have exactly : (s.scanned c worker pick).aging.sinceLow = base+(n+1 : Nat) := by
    rw [aging]
    simp only
    rw [int32_of_in (by unfold InInt intMax at *; omega)]
    omega
  refine ⟨scanned_counts stretch.counts pick,⟨by omega,by omega,?_,?_⟩,stretch.most,fun _ => exactly,fun apart => absurd again apart⟩
  · rw [aging]
    exact stretch.within.positive
  · rw [aging]
    exact stretch.within.global

-- What a step leaves that does not take from the high queue.
structure Passed (cap : Int) (s : FindRun) : Prop where
  within : s.Within cap
  back : s.scan = .high → s.aging.sinceLow ≤ 64
  past : s.scan ≠ .high → s.scan ≠ .lowValve → s.aging.sinceLow < lowValveThreshold

theorem Within.of_counts (counts : s.Counts) (nonneg : 0 ≤ s.aging.sinceLow) (low : s.aging.sinceLow ≤ cap) :
    s.Within cap := ⟨nonneg,low,counts.nonneg,counts.global⟩

theorem passed_below (counts : s.Counts) (room : 64 ≤ cap) (nonneg : 0 ≤ s.aging.sinceLow)
    (under : s.aging.sinceLow < lowValveThreshold) : Passed cap s := by
  have few : s.aging.sinceLow ≤ 64 := Int.le_of_lt under
  exact ⟨.of_counts counts nonneg (few.trans room),fun _ => few,fun _ _ => under⟩

theorem Stretch.inside (stretch : Stretch cap base n s) (away : ¬(s.scan = .high ∧ s.stock.queues .high ≠ []))
    (found : s.answered c worker pick = (b,.found x)) (higher : s.scan.source ≠ .low) :
    s.aging.sinceLow < lowValveThreshold := by
  obtain ⟨_,_,call,here,got⟩ := answered_found found
  refine stretch.past ?_ ?_
  · intro place
    rw [place] at here
    cases here
    refine away ⟨place,fun empty => ?_⟩
    simp [Stock.answer,empty] at got
  · intro place
    exact higher (by rw [place]; rfl)

theorem Stretch.increments (stretch : Stretch cap base n s) (room : 64 ≤ cap)
    (away : ¬(s.scan = .high ∧ s.stock.queues .high ≠ [])) (pick : Nat) : Increments c worker cap s (.scan pick) := by
  intro b x found
  refine ⟨?_,?_⟩
  · intro higher
    have under := stretch.inside away found higher
    unfold lowValveThreshold at under
    omega
  · intro own
    have under := stretch.counts.below (.inl own)
    unfold globalValveThreshold at under
    omega

theorem Stretch.went (stretch : Stretch cap base n s) (room : 64 ≤ cap) (goes : s.scan.Went s.aging b next) :
    Passed cap { s with aging := b, scan := next } := by
  have counts := went_counts stretch.counts goes
  have past := stretch.past
  generalize s.scan = scan at goes past
  cases goes with
  | low above => exact ⟨.of_counts counts stretch.within.nonneg stretch.within.low,by simp,by simp⟩
  | enter under entered =>
    have nonneg := stretch.within.nonneg
    rw [← entered.1] at nonneg under
    exact passed_below counts room nonneg under
  | reset entered =>
    have cleared : b.sinceLow = 0 := entered.1
    refine passed_below counts room (Int.le_of_eq cleared.symm) ?_
    rw [cleared]
    decide
  | back => exact passed_below counts room stretch.within.nonneg (past (by simp) (by simp))
  | on first second => exact passed_below counts room stretch.within.nonneg (past first second)

theorem Stretch.found (stretch : Stretch cap base n s) (room : 64 ≤ cap)
    (away : ¬(s.scan = .high ∧ s.stock.queues .high ≠ [])) (found : s.answered c worker pick = (b,.found x))
    (stock : Stock) (takes : List TakenFrom) : Passed cap ⟨stock,b,.high,takes⟩ := by
  obtain ⟨counter,_⟩ := answered_found found
  have nonneg := stretch.within.nonneg
  have few : 0 ≤ b.sinceLow ∧ b.sinceLow ≤ 64 := by
    rw [counter]
    split
    · decide
    · rename_i higher
      have under := stretch.inside away found higher
      unfold lowValveThreshold at under
      rw [int32_of_in (by unfold InInt intMax; omega)]
      omega
  exact ⟨.of_counts (found_counts stretch.counts found stock takes) few.1 (few.2.trans room),fun _ => few.2,by simp⟩

theorem Stretch.increments_high (stretch : Stretch cap base n s) (roomy : base+(n+1 : Nat) ≤ cap) (place : s.scan = .high)
    (pick : Nat) : Increments c worker cap s (.scan pick) := by
  intro b x _
  have since := stretch.since place
  exact ⟨fun _ => by omega,fun own => by rw [place] at own; cases own⟩

theorem Stretch.passed (stretch : Stretch cap base n s) (room : 64 ≤ cap)
    (away : ¬(s.scan = .high ∧ s.stock.queues .high ≠ [])) (pick : Nat) : Passed cap (s.scanned c worker pick) := by
  have counts : (s.scanned c worker pick).Counts := scanned_counts stretch.counts pick
  revert counts
  unfold scanned
  split
  · rename_i b next went
    intro _
    exact stretch.went room (answered_scan went).1
  · rename_i b x found
    intro _
    exact stretch.found room away found _ _
  · rename_i b nothing
    intro counts
    obtain ⟨rfl,place⟩ := answered_nothing nothing
    exact passed_below counts room stretch.within.nonneg (stretch.past (by simp [place]) (by simp [place]))

theorem Stretch.stocked (stretch : Stretch cap base n s) (stock : Stock) : Stretch cap base n { s with stock } :=
  ⟨⟨stretch.counts.low,stretch.counts.nonneg,stretch.counts.global,stretch.counts.below⟩,
    ⟨stretch.within.nonneg,stretch.within.low,stretch.within.positive,stretch.within.global⟩,
    stretch.most,stretch.since,stretch.past⟩

-- The call returns, and the next stretch begins; or it goes on.
theorem Stretch.returned (stretch : Stretch cap base n s) (passed : Passed cap (s.scanned c worker pick))
    (back : (s.scanned c worker pick).scan = .high) :
    Stretch cap (s.scanned c worker pick).aging.sinceLow 0 (s.scanned c worker pick) :=
  ⟨scanned_counts stretch.counts pick,passed.within,passed.back back,fun _ => by simp,passed.past⟩

theorem Stretch.goesOn (stretch : Stretch cap base n s) (passed : Passed cap (s.scanned c worker pick))
    (on : (s.scanned c worker pick).scan ≠ .high) : Stretch cap base n (s.scanned c worker pick) :=
  ⟨scanned_counts stretch.counts pick,passed.within,stretch.most,fun back => absurd back on,passed.past⟩

-- Whatever stretches the run has: if every one that fits leaves room below `cap`,
-- the counters stay there.
theorem Stretch.capped {fits : Int → Nat → Prop} (stretch : Stretch cap base n s) (room : 64 ≤ cap) (top : cap ≤ intMax)
    (enough : ∀ base n, base ≤ 64 → fits base n → base+(n : Nat) ≤ cap)
    (run : Stretches c worker fits s base n schedule) : Capped c worker cap s schedule := by
  induction schedule generalizing s base n with
  | nil => exact ⟨trivial,stretch.within⟩
  | cons action rest ih =>
    cases action with
    | others stock =>
      obtain ⟨each,all⟩ := ih (stretch.stocked stock) run
      exact ⟨⟨trivial,each⟩,stretch.within,all⟩
    | scan pick =>
      simp only [Stretches] at run
      split at run
      case isTrue high =>
        have roomy := enough base (n+1) stretch.most run.1
        obtain ⟨each,all⟩ := ih (stretch.taken top high.1 high.2 roomy pick) run.2
        exact ⟨⟨stretch.increments_high roomy high.1 pick,each⟩,stretch.within,all⟩
      case isFalse away =>
        have passed : Passed cap (s.scanned c worker pick) := stretch.passed room away pick
        have inside : Capped c worker cap (s.scanned c worker pick) rest := by
          split at run
          case isTrue back => exact ih (stretch.returned passed back) run
          case isFalse on => exact ih (stretch.goesOn passed on) run
        exact ⟨⟨stretch.increments room away pick,inside.1⟩,stretch.within,inside.2⟩

-- A run with such increments has only stretches with that room.
theorem Stretch.measured (stretch : Stretch cap base n s) (room : 64 ≤ cap) (top : cap ≤ intMax)
    (run : (findSystem c worker).Each (Increments c worker cap) s schedule) :
    Stretches c worker (fun base n => base+(n : Nat) ≤ cap) s base n schedule := by
  induction schedule generalizing s base n with
  | nil => trivial
  | cons action rest ih =>
    cases action with
    | others stock => exact ih (stretch.stocked stock) run.2
    | scan pick =>
      simp only [Stretches]
      split
      case isTrue high =>
        obtain ⟨x,found⟩ := answered_high high.1 high.2 pick
        have since := stretch.since high.1
        have increment := (run.1 _ _ found).1 (by rw [high.1]; nofun)
        have roomy : base+(n+1 : Nat) ≤ cap := by omega
        exact ⟨roomy,ih (stretch.taken top high.1 high.2 roomy pick) run.2⟩
      case isFalse away =>
        have passed : Passed cap (s.scanned c worker pick) := stretch.passed room away pick
        split
        case isTrue back => exact ih (stretch.returned passed back) run.2
        case isFalse on => exact ih (stretch.goesOn passed on) run.2

theorem start_stretch (start : (findSystem c worker).start s) (room : 64 ≤ cap) : Stretch cap 0 0 s := by
  obtain ⟨stock,aging,scan,takes⟩ := s
  obtain ⟨rfl,rfl,rfl⟩ := start
  have positive : (0 : Int) ≤ cap := Int.le_trans (by decide) room
  have counts : Counts ⟨stock,⟨0,0⟩,.high,[]⟩ := ⟨(by decide : InInt 0),Int.le_refl 0,(by decide : (0 : Int) ≤ 61),by simp⟩
  exact ⟨counts,⟨Int.le_refl 0,positive,Int.le_refl 0,counts.global⟩,by decide,fun _ => rfl,by simp⟩

end Counted

section Overflow

variable {c : Scheduler} {worker : ThreadId} {s : FindRun}

-- `n` calls, each with one entry in the high queue and nothing else.
def highRun : Nat → List FindAction
  | 0 => []
  | n+1 => .others ((crowded 0).setQueue .high [0]) :: .scan 0 :: highRun n

theorem highRun_stretches {fits : Int → Nat → Prop} (place : s.scan = .high) (n k : Nat) :
    Stretches c worker fits s base k (highRun n) ↔ ∀ i, i < n → fits base (k+i+1) := by
  induction n generalizing s k with
  | zero => simp [highRun,Stretches]
  | succ n ih =>
    let stocked : FindRun := { s with stock := (crowded 0).setQueue .high [0] }
    have high : stocked.scan = .high ∧ stocked.stock.queues .high ≠ [] := ⟨place,by simp [stocked,Stock.setQueue]⟩
    have again : (stocked.scanned c worker 0).scan = .high := (scanned_high high.1 high.2 0).1
    have next := ih again (k+1)
    have unfolded : Stretches c worker fits s base k (highRun (n+1)) ↔
        fits base (k+1) ∧ Stretches c worker fits (stocked.scanned c worker 0) base (k+1) (highRun n) := by
      simp only [highRun,Stretches]
      rw [if_pos high]
    rw [unfolded,next]
    constructor
    · rintro ⟨first,rest⟩ i under
      cases i with
      | zero => exact first
      | succ i =>
        have there := rest i (by omega)
        rwa [show k+1+i+1 = k+(i+1)+1 by omega] at there
    · intro all
      refine ⟨all 0 (by omega),fun i under => ?_⟩
      have there := all (i+1) (by omega)
      rwa [show k+(i+1)+1 = k+1+i+1 by omega] at there

end Overflow

end FindRun

open FindRun

-- The counters stay at or below `cap`, the increments with them, in exactly the
-- runs whose stretches of high takes leave room for it; a bound on the lengths of
-- the stretches alone is enough.
theorem counters_capped (start : (findSystem c worker).start s) (room : 64 ≤ cap) (top : cap ≤ intMax) :
    (Capped c worker cap s schedule ↔ Stretches c worker (fun base n => base+(n : Nat) ≤ cap) s 0 0 schedule) ∧
    ∀ most : Nat, 64+(most : Int) ≤ cap → Stretches c worker (fun _ n => n ≤ most) s 0 0 schedule →
      Capped c worker cap s schedule := by
  have stretch : Stretch cap 0 0 s := start_stretch start room
  refine ⟨⟨fun capped => stretch.measured room top capped.1,fun run => ?_⟩,fun most fits run => ?_⟩
  · exact stretch.capped room top (fun _ _ _ fits => fits) run
  · exact stretch.capped room top (fun base n low short => by omega) run

def emptyRun : FindRun := ⟨crowded 0,⟨0,0⟩,.high,[]⟩

theorem counters_capped_short :
    (findSystem valvedPool 0).start emptyRun ∧ Capped valvedPool 0 67 emptyRun (highRun 3) := by
  refine ⟨⟨rfl,rfl,rfl⟩,?_⟩
  refine (counters_capped ⟨rfl,rfl,rfl⟩ (by decide) (by decide)).2 3 (by decide) ?_
  exact (highRun_stretches rfl 3 0).mpr (fun i under => by omega)

-- No constant will do: 2^31 high takes in a row bring `since_low` past its end.
theorem high_takes_overflow : ¬ ∃ cap, cap ≤ intMax ∧
    ∀ c worker s schedule, (findSystem c worker).start s → Capped c worker cap s schedule := by
  rintro ⟨cap,top,claim⟩
  have start : (findSystem valvedPool 0).start emptyRun := ⟨rfl,rfl,rfl⟩
  have capped := claim valvedPool 0 emptyRun (highRun 2147483648) start
  have increments := each_mono (fun _ _ => Increments.mono top) capped.1
  have run := (start_stretch start (by decide)).measured (by decide) (Int.le_refl intMax) increments
  have last := (highRun_stretches rfl 2147483648 0).mp run 2147483647 (by decide)
  exact absurd last (by decide)

end Macrame

import Macrame.Valves

namespace Macrame

-- Past the low valve, into the global valve or past both.
def Aging.Entered (a b : Aging) (next : Scan) : Prop :=
  b.sinceLow = a.sinceLow ∧
    (next = .globalValve ∧ b.sinceGlobal = 0 ∨
      next = .own ∧ a.sinceGlobal < globalValveThreshold ∧ b.sinceGlobal = a.sinceGlobal)

-- How a call goes on that has not found an entry yet.
inductive Scan.Went (a : Aging) : Scan → Aging → Scan → Prop where
  | low : lowValveThreshold ≤ a.sinceLow → Went a .high a .lowValve
  | enter : a.sinceLow < lowValveThreshold → a.Entered b next → Went a .high b next
  | reset : Aging.Entered { a with sinceLow := 0 } b next → Went a .lowValve b next
  | back : Went a .globalValve a .own
  | on : scan ≠ .high → scan ≠ .lowValve → scan ≠ .globalValve →
      next ≠ .high → next ≠ .lowValve → next ≠ .globalValve → next ≠ .own → Went a scan a next

section Answers

variable {c : Scheduler} {a b : Aging} {scan : Scan}

-- The counters a successful call leaves.
theorem Scan.answered_found (found : scan.answered c pick a out = (b,.found n)) :
    b.sinceLow = (if scan.source = .low then 0 else int32 (a.sinceLow+1)) ∧
    b.sinceGlobal = (if scan = .own then int32 (a.sinceGlobal+1) else if scan = .normal then 0 else a.sinceGlobal) ∧
    out = some n := by
  cases scan <;> cases out <;> simp_all [Scan.answered,Aging.valve,Scan.source] <;> grind

theorem Aging.valve_entered (went : a.valve = (b,.scan next)) : a.Entered b next := by
  unfold Aging.valve at went
  split at went <;> cases went
  · exact ⟨rfl,.inl ⟨rfl,rfl⟩⟩
  · exact ⟨rfl,.inr ⟨rfl,by omega,rfl⟩⟩

theorem Scan.answered_scan (went : scan.answered c pick a out = (b,.scan next)) : scan.Went a b next ∧ out = none := by
  cases out with
  | some n => cases scan <;> cases went
  | none =>
    refine ⟨?_,rfl⟩
    cases scan with
    | high =>
      simp only [Scan.answered] at went
      split at went
      case isTrue above =>
        cases went
        exact .low above
      case isFalse below => exact .enter (by omega) (Aging.valve_entered went)
    | lowValve => exact .reset (Aging.valve_entered went)
    | globalValve =>
      cases went
      exact .back
    | own =>
      cases went
      exact .on (by simp) (by simp) (by simp) (by simp) (by simp) (by simp) (by simp)
    | normal =>
      cases went
      split <;> exact .on (by simp) (by simp) (by simp) (by simp) (by simp) (by simp) (by simp)
    | steal start k =>
      cases went
      exact .on (by simp) (by simp) (by simp) (by simp) (by simp) (by simp) (by simp)
    | low => cases went

theorem Scan.passed_went (idle : scan.call c worker = none) : scan.Went a a (scan.passed c) := by
  cases scan with
  | steal start k =>
    simp only [Scan.passed]
    split <;> exact .on (by simp) (by simp) (by simp) (by simp) (by simp) (by simp) (by simp)
  | high => cases idle
  | lowValve => cases idle
  | globalValve => cases idle
  | own => cases idle
  | normal => cases idle
  | low => cases idle

end Answers

namespace FindRun

variable {c : Scheduler} {worker : ThreadId} {s : FindRun} {a b : Aging} {next : Scan}

theorem answered_found (found : s.answered c worker pick = (b,.found n)) :
    b.sinceLow = (if s.scan.source = .low then 0 else int32 (s.aging.sinceLow+1)) ∧
    b.sinceGlobal =
      (if s.scan = .own then int32 (s.aging.sinceGlobal+1) else if s.scan = .normal then 0 else s.aging.sinceGlobal) ∧
    ∃ call, s.scan.call c worker = some call ∧ s.stock.answer worker call = some n := by
  unfold FindRun.answered at found
  split at found
  · rename_i call here
    obtain ⟨low,global,got⟩ := Scan.answered_found found
    exact ⟨low,global,call,here,got⟩
  · cases found

-- A call goes on only from a container that is empty.
theorem answered_scan (went : s.answered c worker pick = (b,.scan next)) :
    s.scan.Went s.aging b next ∧ ∀ call, s.scan.call c worker = some call → s.stock.answer worker call = none := by
  unfold FindRun.answered at went
  split at went
  · rename_i call here
    obtain ⟨goes,empty⟩ := Scan.answered_scan went
    refine ⟨goes,?_⟩
    intro other also
    rw [here] at also
    cases also
    exact empty
  · rename_i idle
    cases went
    refine ⟨Scan.passed_went idle,?_⟩
    intro other also
    rw [idle] at also
    cases also

theorem answered_nothing (nothing : s.answered c worker pick = (b,.nothing)) : b = s.aging ∧ s.scan = .low := by
  unfold FindRun.answered at nothing
  split at nothing
  · cases place : s.scan <;> rw [place] at nothing <;> simp only [Scan.answered] at nothing <;> grind [Aging.valve]
  · cases nothing

-- The counters are `int`s, and the global valve keeps its own in range.
structure Counts (s : FindRun) : Prop where
  low : InInt s.aging.sinceLow
  nonneg : 0 ≤ s.aging.sinceGlobal
  global : s.aging.sinceGlobal ≤ globalValveThreshold
  below : s.scan = .own ∨ s.scan = .globalValve → s.aging.sinceGlobal < globalValveThreshold

theorem entered_counts (low : InInt a.sinceLow) (nonneg : 0 ≤ a.sinceGlobal)
    (entered : a.Entered b next) : InInt b.sinceLow ∧ 0 ≤ b.sinceGlobal ∧ b.sinceGlobal < globalValveThreshold := by
  obtain ⟨same,⟨_,cleared⟩ | ⟨_,below,kept⟩⟩ := entered
  · rw [same,cleared]
    exact ⟨low,by decide,by decide⟩
  · rw [same,kept]
    exact ⟨low,nonneg,below⟩

theorem went_counts (counts : s.Counts) (went : s.scan.Went s.aging b next) :
    ({s with aging := b, scan := next} : FindRun).Counts := by
  obtain ⟨low,nonneg,global,below⟩ := counts
  have zero : InInt 0 := by decide
  generalize place : s.scan = scan at went below
  cases went with
  | low above => exact ⟨low,nonneg,global,by simp⟩
  | enter under entered =>
    obtain ⟨fits,positive,under⟩ := entered_counts low nonneg entered
    exact ⟨fits,positive,Int.le_of_lt under,fun _ => under⟩
  | reset entered =>
    obtain ⟨fits,positive,under⟩ := entered_counts (a := ⟨0,s.aging.sinceGlobal⟩) zero nonneg entered
    exact ⟨fits,positive,Int.le_of_lt under,fun _ => under⟩
  | back => exact ⟨low,nonneg,global,fun _ => below (.inr rfl)⟩
  | on _ _ _ _ _ apart other => exact ⟨low,nonneg,global,fun late => late.elim (absurd · other) (absurd · apart)⟩

theorem found_counts (counts : s.Counts) (found : s.answered c worker pick = (b,.found n)) (stock : Stock)
    (takes : List TakenFrom) : (⟨stock,b,.high,takes⟩ : FindRun).Counts := by
  obtain ⟨low,nonneg,global,below⟩ := counts
  obtain ⟨first,second,_⟩ := answered_found found
  have fits : InInt b.sinceLow := by
    rw [first]
    split
    · decide
    · exact int32_in _
  have stays : 0 ≤ b.sinceGlobal ∧ b.sinceGlobal ≤ globalValveThreshold := by
    rw [second]
    unfold globalValveThreshold at global below ⊢
    split
    case isTrue place =>
      have under := below (.inl place)
      rw [int32_of_in (by unfold InInt intMax; omega)]
      omega
    case isFalse => split <;> omega
  exact ⟨fits,stays.1,stays.2,by simp⟩

theorem scanned_counts (counts : s.Counts) (pick : Nat) : (s.scanned c worker pick).Counts := by
  unfold scanned
  split
  · rename_i b next went
    exact went_counts counts (answered_scan went).1
  · rename_i b n found
    exact found_counts counts found _ _
  · rename_i b nothing
    obtain ⟨rfl,_⟩ := answered_nothing nothing
    exact ⟨counts.low,counts.nonneg,counts.global,by simp⟩

-- The low valve: `since_low` counts every take since the last one from the low
-- queue, and past the valve it is below the threshold.
structure LowServed (s : FindRun) : Prop where
  bounded : Gaps.Bounded (· == .low) (fun _ => true) 64 s.takes
  since : Gaps.Since (· == .low) (fun _ => true) s.aging.sinceLow s.takes
  past : s.scan ≠ .high → s.scan ≠ .lowValve → s.aging.sinceLow < lowValveThreshold

-- The global valve: `since_global` counts the takes from the own deque since the
-- last one from the normal queue, once the valve has had its pop.
structure NormalServed (s : FindRun) : Prop where
  bounded : Gaps.Bounded (· == .normal) (· == .own) 61 s.takes
  since : s.scan ≠ .globalValve → Gaps.Since (· == .normal) (· == .own) s.aging.sinceGlobal s.takes

-- A pop of a queue that is not empty finds an entry.
theorem pop_found (here : s.scan.call c worker = some (.pop p)) (stocked : s.stock.queues p ≠ [])
    (empty : ∀ call, s.scan.call c worker = some call → s.stock.answer worker call = none) : False :=
  stocked (List.head?_eq_none_iff.mp (empty _ here))

theorem scanned_lowServed (served : s.LowServed) (stocked : s.stock.queues .low ≠ []) (quiet : s.Quiet (.scan pick)) :
    (s.scanned c worker pick).LowServed := by
  obtain ⟨bounded,since,past⟩ := served
  unfold scanned
  split
  · rename_i b next went
    obtain ⟨goes,empty⟩ := answered_scan went
    generalize place : s.scan = scan at goes past
    cases goes with
    | low above => exact ⟨bounded,since,by simp⟩
    | enter under entered => exact ⟨bounded,entered.1 ▸ since,fun _ _ => entered.1 ▸ under⟩
    | reset entered => exact (pop_found (by rw [place]; rfl) stocked empty).elim
    | back => exact ⟨bounded,since,fun _ _ => past (by simp) (by simp)⟩
    | on first second => exact ⟨bounded,since,fun _ _ => past first second⟩
  · rename_i b n found
    obtain ⟨counter,_,call,here,got⟩ := answered_found found
    by_cases low : s.scan.source = .low
    · rw [if_pos low] at counter
      have fresh : Gaps.Since (· == .low) (fun _ => true) 0 (s.takes++[s.scan.source]) := Gaps.since_mark (by simp [low])
      exact ⟨bounded.later fresh (by decide),counter ▸ fresh,by simp⟩
    · -- past the low valve: the high queue has nothing
      have inside : s.scan ≠ .high := by
        intro place
        rw [place] at here
        cases here
        simp [Stock.answer,quiet place] at got
      have under := past inside (fun place => low (by rw [place]; rfl))
      have more := since.nonneg
      rw [if_neg low,int32_of_in (by unfold InInt intMax lowValveThreshold at *; omega)] at counter
      have later := since.later (x := s.scan.source)
      simp only [List.countP_true,List.length_singleton,Int.cast_ofNat_Int] at later
      have fits : s.aging.sinceLow+1 ≤ 64 := under
      exact ⟨bounded.later later fits,counter ▸ later,by simp⟩
  · rename_i b nothing
    obtain ⟨rfl,_⟩ := answered_nothing nothing
    exact ⟨bounded,since,by simp⟩

theorem scanned_normalServed (counts : s.Counts) (served : s.NormalServed) (stocked : s.stock.queues .normal ≠ []) (pick : Nat) :
    (s.scanned c worker pick).NormalServed := by
  obtain ⟨bounded,since⟩ := served
  have positive := counts.nonneg
  unfold scanned
  split
  · rename_i b next went
    obtain ⟨goes,empty⟩ := answered_scan went
    have below := counts.below
    generalize place : s.scan = scan at goes since below
    cases goes with
    | low above => exact ⟨bounded,fun _ => since (by simp)⟩
    | enter under entered =>
      obtain ⟨_,⟨rfl,_⟩ | ⟨_,_,kept⟩⟩ := entered
      · exact ⟨bounded,fun apart => absurd rfl apart⟩
      · exact ⟨bounded,fun _ => kept ▸ since (by simp)⟩
    | reset entered =>
      obtain ⟨_,⟨rfl,_⟩ | ⟨_,_,kept⟩⟩ := entered
      · exact ⟨bounded,fun apart => absurd rfl apart⟩
      · exact ⟨bounded,fun _ => kept ▸ since (by simp)⟩
    | back => exact (pop_found (by rw [place]; rfl) stocked empty).elim
    | on _ _ apart => exact ⟨bounded,fun _ => since apart⟩
  · rename_i b n found
    obtain ⟨_,counter,_⟩ := answered_found found
    by_cases normal : s.scan.source = .normal
    · have fresh : Gaps.Since (· == .normal) (· == .own) 0 (s.takes++[s.scan.source]) := Gaps.since_mark (by simp [normal])
      have stays : 0 ≤ b.sinceGlobal := (found_counts counts found s.stock []).nonneg
      exact ⟨bounded.later fresh (by decide),fun _ => fresh.mono stays⟩
    · have apart : s.scan ≠ .globalValve := fun place => normal (by rw [place]; rfl)
      have later := (since apart).later (x := s.scan.source)
      have exactly : b.sinceGlobal = s.aging.sinceGlobal+([s.scan.source].countP (· == .own) : Nat) := by
        rw [counter,List.countP_singleton]
        by_cases own : s.scan = .own
        · have under := counts.below (.inl own)
          unfold globalValveThreshold at under
          rw [if_pos own,int32_of_in (by unfold InInt intMax; omega),own]
          rfl
        · have other : (s.scan.source == .own) = false := by
            cases place : s.scan <;> simp_all [Scan.source]
          have also : s.scan ≠ .normal := fun place => normal (by rw [place]; rfl)
          simp only [if_neg own,if_neg also,other,Bool.false_eq_true,if_false]
          omega
      have most := (found_counts counts found s.stock []).global
      rw [← exactly] at later
      exact ⟨bounded.later later most,fun _ => later⟩
  · rename_i b nothing
    obtain ⟨rfl,place⟩ := answered_nothing nothing
    exact ⟨bounded,fun _ => since (by simp [place])⟩

end FindRun

end Macrame

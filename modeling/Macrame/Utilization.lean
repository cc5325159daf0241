import Mathlib.Logic.Function.Basic
import Mathlib.Algebra.Order.Ring.Int
import Macrame.Lib.Overlap
import Macrame.MachineInt

namespace Macrame
open Overlaps

def utilBucketCount : Int := 128

structure BusySlot where
  ticks : Int
  started : Int
  tasks : Int

-- What `run_task` reads and writes of the scheduler's profiling state. Ticks do
-- not overflow here.
structure Profiling where
  busyTracking : Int
  bucketOrigin : Int
  bucketWidth : Int
  busy : Nat → BusySlot
  bucketBusy : Nat → Int → Int

-- The loop over the buckets: the index and the amount of each `fetch_add`.
def bucketAdds (lo hi bw b1 b : Int) : List (Int×Int) :=
  if b ≤ b1 ∧ b < utilBucketCount then
    let edgeLo := b*bw
    let edgeHi := edgeLo+bw
    let segLo := if edgeLo < lo then lo else edgeLo
    let segHi := if hi < edgeHi then hi else edgeHi
    if segLo < segHi then (b,segHi-segLo) :: bucketAdds lo hi bw b1 (b+1) else bucketAdds lo hi bw b1 (b+1)
  else []
termination_by (utilBucketCount-b).toNat

-- `static_cast<int>` of a quotient that truncates.
def bucketOf (tick bw : Int) : Int := int32 (tick.tdiv bw)

def utilAdds (origin bw t0 t1 : Int) : List (Int×Int) :=
  if 0 < bw then
    let lo := t0-origin
    let hi := t1-origin
    let cap := utilBucketCount*bw
    if 0 < hi ∧ lo < cap then
      let lo := if lo < 0 then 0 else lo
      let hi := if cap < hi then cap else hi
      bucketAdds lo hi bw (bucketOf (hi-1) bw) (bucketOf lo bw)
    else []
  else []

def Profiling.adds (s : Profiling) (t0 t1 : Int) : List (Int×Int) := utilAdds s.bucketOrigin s.bucketWidth t0 t1

def addAll (row : Int → Int) (adds : List (Int×Int)) : Int → Int :=
  adds.foldl (fun row add => Function.update row add.1 (row add.1+add.2)) row

def Profiling.begins (s : Profiling) (worker : Nat) (t0 : Int) : Profiling :=
  { s with
    busy := Function.update s.busy worker
      { s.busy worker with tasks := (s.busy worker).tasks+1, started := t0 } }

-- `task` is the task itself, which may arm another window; `t0` and `t1` are the
-- two clock reads. The width and the origin are loaded after it.
def Profiling.runTask (s : Profiling) (task : Profiling → Profiling) (worker : Nat) (t0 t1 : Int) : Profiling :=
  if s.busyTracking ≠ 0 then
    let s := task (s.begins worker t0)
    { s with
      busy := Function.update s.busy worker
        { s.busy worker with ticks := (s.busy worker).ticks+(t1-t0), started := 0 }
      bucketBusy := Function.update s.bucketBusy worker
        (addAll (s.bucketBusy worker) (s.adds t0 t1)) }
  else task s

-- What is added to bucket `b` in all.
def share (adds : List (Int×Int)) (b : Int) : Int := ((adds.filter (fun add => add.1 = b)).map Prod.snd).sum

theorem share_cons (add : Int×Int) (adds : List (Int×Int)) (b : Int) :
    share (add :: adds) b = (if add.1 = b then add.2 else 0)+share adds b := by
  unfold share
  rw [List.filter_cons]
  by_cases here : add.1 = b
  · simp [here]
  · simp [here]

theorem addAll_apply (adds : List (Int×Int)) (b : Int) : ∀ row, addAll row adds b = row b+share adds b := by
  induction adds with
  | nil => exact fun row => (Int.add_zero _).symm
  | cons add adds ih =>
    intro row
    have first := ih (Function.update row add.1 (row add.1+add.2))
    rw [share_cons]
    by_cases here : add.1 = b
    · rw [here,Function.update_self] at first
      rw [if_pos here,← Int.add_assoc]
      rw [← here] at first ⊢
      exact first
    · rw [Function.update_of_ne (Ne.symm here)] at first
      rw [if_neg here,Int.zero_add]
      exact first

theorem share_outside {adds : List (Int×Int)} (outside : ∀ add ∈ adds, add.1 ≠ b) : share adds b = 0 := by
  have none : adds.filter (fun add => add.1 = b) = [] := by
    refine List.filter_eq_nil_iff.mpr ?_
    intro add member here
    exact outside add member (of_decide_eq_true here)
  unfold share
  rw [none]
  rfl

section
variable {lo hi bw b b1 : Int}

theorem bucketAdds_index (adds : e ∈ bucketAdds lo hi bw b1 b) : b ≤ e.1 ∧ e.1 ≤ b1 ∧ e.1 < utilBucketCount := by
  fun_induction bucketAdds lo hi bw b1 b with
  | case1 b inside edgeLo edgeHi segLo segHi some ih =>
    rcases List.mem_cons.mp adds with rfl | later
    · exact ⟨Int.le_refl _,inside.1,inside.2⟩
    · have known := ih later
      omega
  | case2 b inside edgeLo edgeHi segLo segHi none ih =>
    have known := ih adds
    omega
  | case3 => cases adds

-- Of a bucket the loop counts what lies between the later start and the earlier
-- end.
theorem segment_amount {edgeLo edgeHi segLo segHi : Int} (low : segLo = if edgeLo < lo then lo else edgeLo)
    (high : segHi = if hi < edgeHi then hi else edgeHi) : overlap lo hi edgeLo edgeHi = max 0 (segHi-segLo) := by
  unfold overlap
  omega

theorem share_below (below : i < b) : share (bucketAdds lo hi bw b1 b) i = 0 := by
  refine share_outside ?_
  intro add member here
  have known := bucketAdds_index member
  omega

-- A bucket the loop comes past gets its overlap, and only once.
theorem share_bucketAdds (from_ : b ≤ i) (upTo : i ≤ b1) (inside : i < utilBucketCount) :
    share (bucketAdds lo hi bw b1 b) i = overlap lo hi (i*bw) (i*bw+bw) := by
  fun_induction bucketAdds lo hi bw b1 b with
  | case1 b within edgeLo edgeHi segLo segHi some ih =>
    have amount : overlap lo hi edgeLo edgeHi = max 0 (segHi-segLo) := segment_amount rfl rfl
    rw [share_cons]
    by_cases here : b = i
    · rw [share_below (by omega),if_pos here,Int.add_zero,← here,amount]
      omega
    · rw [ih (by omega),if_neg here,Int.zero_add]
  | case2 b within edgeLo edgeHi segLo segHi none ih =>
    have amount : overlap lo hi edgeLo edgeHi = max 0 (segHi-segLo) := segment_amount rfl rfl
    by_cases here : b = i
    · rw [share_below (by omega),← here,amount]
      omega
    · exact ih (by omega)
  | case3 => omega

-- From bucket `b` on the amounts make up one piece.
theorem sum_bucketAdds (positive : 0 < bw) :
    ((bucketAdds lo hi bw b1 b).map Prod.snd).sum = overlap lo hi (b*bw) (min (b1+1) utilBucketCount*bw) := by
  fun_induction bucketAdds lo hi bw b1 b with
  | case1 b within edgeLo edgeHi segLo segHi some ih =>
    have amount : overlap lo hi edgeLo edgeHi = max 0 (segHi-segLo) := segment_amount rfl rfl
    have stop : (b+1)*bw ≤ min (b1+1) utilBucketCount*bw := Int.mul_le_mul_of_nonneg_right (by omega) (by omega)
    have next : (b+1)*bw = edgeHi := by rw [Int.add_mul,Int.one_mul]
    rw [List.map_cons,List.sum_cons,ih,next,← overlap_join (show edgeLo ≤ edgeHi by omega) (next ▸ stop),amount]
    omega
  | case2 b within edgeLo edgeHi segLo segHi none ih =>
    have amount : overlap lo hi edgeLo edgeHi = max 0 (segHi-segLo) := segment_amount rfl rfl
    have stop : (b+1)*bw ≤ min (b1+1) utilBucketCount*bw := Int.mul_le_mul_of_nonneg_right (by omega) (by omega)
    have next : (b+1)*bw = edgeHi := by rw [Int.add_mul,Int.one_mul]
    rw [ih,next,← overlap_join (show edgeLo ≤ edgeHi by omega) (next ▸ stop),amount]
    omega
  | case3 b past =>
    have stop : min (b1+1) utilBucketCount*bw ≤ b*bw := Int.mul_le_mul_of_nonneg_right (by omega) (by omega)
    rw [overlap_empty stop]
    rfl

end

-- The bucket a tick of the window falls in.
theorem bucketOf_window {bw : Int} (tick : Int) (positive : 0 < bw) (low : 0 ≤ tick) (high : tick < utilBucketCount*bw) :
    0 ≤ bucketOf tick bw ∧ bucketOf tick bw < utilBucketCount ∧ bucketOf tick bw*bw ≤ tick ∧ tick < (bucketOf tick bw+1)*bw := by
  have quotient : bucketOf tick bw = tick/bw := by
    have lower := Int.ediv_nonneg low (Int.le_of_lt positive)
    have upper := Int.ediv_lt_of_lt_mul positive high
    unfold utilBucketCount at upper
    unfold bucketOf
    rw [Int.tdiv_eq_ediv_of_nonneg low]
    refine int32_of_in ⟨?_,?_⟩
    · unfold intMax
      omega
    · unfold intMax
      omega
  rw [quotient]
  refine ⟨Int.ediv_nonneg low (Int.le_of_lt positive),Int.ediv_lt_of_lt_mul positive high,Int.ediv_mul_le _ (Int.ne_of_gt positive),?_⟩
  exact Int.lt_ediv_add_one_mul_self tick positive

-- The amounts against the span and the window.
structure Conserves (origin bw t0 t1 : Int) (adds : List (Int×Int)) : Prop where
  indices : ∀ add ∈ adds, 0 ≤ add.1 ∧ add.1 < utilBucketCount
  bucket : ∀ b, 0 ≤ b → b < utilBucketCount → share adds b = overlap t0 t1 (origin+b*bw) (origin+(b+1)*bw)
  total : (adds.map Prod.snd).sum = overlap t0 t1 origin (origin+utilBucketCount*bw)

-- The window cut out of the span, and the span counted from its origin.
theorem windowed {origin t0 t1 c d cap : Int} (low : 0 ≤ c) (high : d ≤ cap) :
    overlap (max (t0-origin) 0) (min (t1-origin) cap) c d = overlap t0 t1 (origin+c) (origin+d) := by
  rw [overlap_clip low high,overlap_shift]

theorem cell_end (b bw : Int) : (b+1)*bw = b*bw+bw := by rw [Int.add_mul,Int.one_mul]

theorem scaled {b c bw : Int} (positive : 0 < bw) (order : b ≤ c) : b*bw ≤ c*bw := Int.mul_le_mul_of_nonneg_right order (Int.le_of_lt positive)

-- A span that misses the window.
theorem conserves_apart (positive : 0 < bw) (apart : t1-origin ≤ 0 ∨ utilBucketCount*bw ≤ t0-origin) :
    Conserves origin bw t0 t1 [] := by
  have first := scaled positive (show 0 ≤ utilBucketCount by decide)
  rw [Int.zero_mul] at first
  refine ⟨nofun,?_,?_⟩
  · intro b inside under
    have above := scaled positive inside
    have below := scaled positive (show b+1 ≤ utilBucketCount from under)
    rw [Int.zero_mul] at above
    rcases apart with early | late
    · exact (overlap_after (by omega)).symm
    · exact (overlap_before (by omega)).symm
  · rcases apart with early | late
    · exact (overlap_after (by omega)).symm
    · exact (overlap_before (by omega)).symm

-- The loop over the clipped span, from the bucket of its first tick to the bucket
-- of its last.
theorem conserves_within (positive : 0 < bw) (early : 0 ≤ b0) (late : b1 < utilBucketCount)
    (ordered : max (t0-origin) 0 ≤ min (t1-origin) (utilBucketCount*bw))
    (start : b0*bw ≤ max (t0-origin) 0) (stop : min (t1-origin) (utilBucketCount*bw) ≤ (b1+1)*bw) :
    Conserves origin bw t0 t1
      (bucketAdds (max (t0-origin) 0) (min (t1-origin) (utilBucketCount*bw)) bw b1 b0) := by
  have begins := scaled positive early
  have ends := scaled positive (show b1+1 ≤ utilBucketCount from late)
  have across : b0*bw ≤ (b1+1)*bw := Int.le_trans start (Int.le_trans ordered stop)
  rw [Int.zero_mul] at begins
  refine ⟨?_,?_,?_⟩
  · intro add member
    have known := bucketAdds_index member
    omega
  · intro b inside under
    have low := scaled positive inside
    have high := scaled positive (show b+1 ≤ utilBucketCount from under)
    rw [Int.zero_mul] at low
    rw [← windowed low high]
    by_cases before : b < b0
    · have ends := scaled positive (show b+1 ≤ b0 from before)
      rw [share_below before,overlap_before (Int.le_trans ends start)]
    · by_cases after : b ≤ b1
      · rw [cell_end]
        exact share_bucketAdds (Int.not_lt.mp before) after under
      · have begins := scaled positive (show b1+1 ≤ b from Int.not_le.mp after)
        rw [overlap_after (Int.le_trans stop begins)]
        refine share_outside ?_
        intro add member here
        have known := bucketAdds_index member
        omega
  · have stops : min (b1+1) utilBucketCount = b1+1 := by omega
    have whole : overlap (max (t0-origin) 0) (min (t1-origin) (utilBucketCount*bw)) 0 (utilBucketCount*bw) =
        overlap t0 t1 (origin+0) (origin+utilBucketCount*bw) := windowed (Int.le_refl 0) (Int.le_refl _)
    rw [Int.add_zero] at whole
    rw [sum_bucketAdds positive,stops,← whole,← overlap_join begins (Int.le_trans across ends),
      ← overlap_join across ends,overlap_before start,overlap_after stop,Int.zero_add,Int.add_zero]

theorem utilAdds_conserved (positive : 0 < bw) (ordered : t0 ≤ t1) :
    Conserves origin bw t0 t1 (utilAdds origin bw t0 t1) := by
  have some : 0 < utilBucketCount*bw := Int.mul_pos (by decide) positive
  unfold utilAdds
  rw [if_pos positive]
  simp only
  split
  · have first : (if t0-origin < 0 then 0 else t0-origin) = max (t0-origin) 0 := by omega
    have last : (if utilBucketCount*bw < t1-origin then utilBucketCount*bw else t1-origin) =
        min (t1-origin) (utilBucketCount*bw) := by omega
    rw [first,last]
    obtain ⟨early,-,start,-⟩ := bucketOf_window (max (t0-origin) 0) positive (by omega) (by omega)
    obtain ⟨-,late,-,stop⟩ := bucketOf_window (min (t1-origin) (utilBucketCount*bw)-1) positive (by omega) (by omega)
    exact conserves_within positive early late (by omega) start (by omega)
  · exact conserves_apart positive (by omega)

-- From `mid`, the state the task has left, to `after`: nothing but the worker's
-- row changes, each bucket of it by the span's overlap with the bucket's time, and
-- all amounts together are the span's overlap with the window.
structure UtilConserved (worker : Nat) (t0 t1 : Int) (mid after : Profiling) : Prop where
  added : after.bucketBusy = Function.update mid.bucketBusy worker (addAll (mid.bucketBusy worker) (mid.adds t0 t1))
  indices : ∀ add ∈ mid.adds t0 t1, 0 ≤ add.1 ∧ add.1 < utilBucketCount
  bucket : ∀ b, 0 ≤ b → b < utilBucketCount → after.bucketBusy worker b = mid.bucketBusy worker b+
    overlap t0 t1 (mid.bucketOrigin+b*mid.bucketWidth) (mid.bucketOrigin+(b+1)*mid.bucketWidth)
  total : ((mid.adds t0 t1).map Prod.snd).sum =
    overlap t0 t1 mid.bucketOrigin (mid.bucketOrigin+utilBucketCount*mid.bucketWidth)

-- For every task, every span and every window that is armed when the task has
-- returned.
theorem utilization_conserved (s : Profiling) (task : Profiling → Profiling) (worker : Nat) (armed : s.busyTracking ≠ 0)
    (positive : 0 < (task (s.begins worker t0)).bucketWidth) (ordered : t0 ≤ t1) :
    UtilConserved worker t0 t1 (task (s.begins worker t0)) (s.runTask task worker t0 t1) := by
  have conserves : Conserves (task (s.begins worker t0)).bucketOrigin (task (s.begins worker t0)).bucketWidth t0 t1
      ((task (s.begins worker t0)).adds t0 t1) := utilAdds_conserved positive ordered
  have added : (s.runTask task worker t0 t1).bucketBusy = Function.update (task (s.begins worker t0)).bucketBusy worker
      (addAll ((task (s.begins worker t0)).bucketBusy worker) ((task (s.begins worker t0)).adds t0 t1)) := by
    unfold Profiling.runTask
    rw [if_pos armed]
  refine ⟨added,conserves.indices,?_,conserves.total⟩
  intro b inside under
  rw [added,Function.update_self,addAll_apply,← conserves.bucket b inside under]

-- A window from tick 10 in buckets of 5: the span from 3 to 22 is cut at its start
-- and ends inside the third bucket.
def smallWindow : Profiling where
  busyTracking := 1
  bucketOrigin := 10
  bucketWidth := 5
  busy := fun _ => ⟨0,0,0⟩
  bucketBusy := fun _ _ => 0

theorem utilization_conserved_cut : UtilConserved 0 3 22 (smallWindow.begins 0 3) (smallWindow.runTask id 0 3 22) ∧
    overlap 3 22 10 (10+utilBucketCount*5) = 12 ∧ overlap 3 22 20 25 = 2 :=
  ⟨utilization_conserved smallWindow id 0 (by decide) (by decide) (by decide),by decide,by decide⟩

end Macrame

import Macrame.ParallelLoop

namespace Macrame

theorem claimGrain_pos (balance : Balance) (size claimed workers : Nat) : 0 < claimGrain balance size claimed workers := by
  cases balance <;> simp only [claimGrain] <;> omega

namespace Coloring

-- Every size is an `int`, and so is every sum `claim_grain` forms of one.
def sizesFit (c : Coloring) : Prop :=
  ∀ band ∈ c.bands, (band.length : Int) ≤ intMax ∧ match c.balance with
    | .unbalanced => True
    | .balanced => band.length+c.workersInt ≤ intMax
    | .guided => 2*c.workersInt ≤ intMax

-- A call with something to do, and `int`s that are what they stand for.
structure Sized (c : Coloring) : Prop where
  busy : c.idle = false
  sizes : c.sizesFit
  phases : c.rounds*c.full.length ≤ intMax

theorem bandSize_pos (c : Coloring) (inside : phase < c.totalPhases) : 0 < c.bandSize phase := by
  have some_band : 0 < c.full.length := by
    by_contra none_left
    rw [totalPhases,Nat.eq_zero_of_not_pos none_left,Nat.mul_zero] at inside
    cases inside
  have place : phase % c.full.length < c.full.length := Nat.mod_lt _ some_band
  have member : c.full[phase % c.full.length] ∈ c.full := List.getElem_mem place
  have filled := (List.mem_filter.mp member).2
  rw [bandSize,List.getD_eq_getElem?_getD,List.getElem?_eq_getElem place,Option.getD_some]
  refine List.length_pos_iff.mpr ?_
  intro empty
  rw [empty] at filled
  cases filled

theorem widest_bounds (bands : List (List Int)) (low : Int) :
    low ≤ bands.foldl (fun widest band => max widest (int32 band.length)) low ∧
      ∀ band ∈ bands, int32 band.length ≤ bands.foldl (fun widest band => max widest (int32 band.length)) low := by
  induction bands generalizing low with
  | nil => exact ⟨Int.le_refl _,nofun⟩
  | cons first rest ih =>
    obtain ⟨above,each⟩ := ih (max low (int32 first.length))
    rw [List.foldl_cons]
    refine ⟨by omega,?_⟩
    intro band member
    rcases List.mem_cons.mp member with rfl | later
    · omega
    · exact each band later

theorem workersInt_pos (c : Coloring) (busy : c.idle = false) : 1 ≤ c.workersInt := by
  have low := (widest_bounds c.bands 0).1
  have some : c.widestInt ≠ 0 := by
    intro none
    simp [idle,none] at busy
  change 0 ≤ c.widestInt at low
  unfold workersInt effectiveWorkers
  omega

theorem rounds_pos (c : Coloring) (busy : c.idle = false) : 0 < c.rounds := by
  by_contra none
  simp [idle,Int.not_lt.mp none] at busy

theorem bandSize_of (c : Coloring) (phase : Nat) :
    c.bandSize phase = 0 ∨ ∃ band ∈ c.bands, c.bandSize phase = band.length := by
  unfold bandSize
  rw [List.getD_eq_getElem?_getD]
  cases here : c.full[phase % c.full.length]? with
  | none => exact .inl rfl
  | some band => exact .inr ⟨band,(List.mem_filter.mp (List.mem_of_getElem? here)).1,rfl⟩

-- What the code reads as `int`s it reads for what they are.
theorem bandInt_eq (c : Coloring) (fits : c.sizesFit) (phase : Nat) :
    c.bandInt phase = c.bandSize phase ∧ (c.bandSize phase : Int) ≤ intMax := by
  have small : (c.bandSize phase : Int) ≤ intMax := by
    rcases c.bandSize_of phase with zero | ⟨band,member,same⟩
    · rw [zero]
      decide
    · rw [same]
      exact (fits band member).1
  exact ⟨int32_of_in ⟨by unfold intMax; omega,small⟩,small⟩

theorem phasesInt_eq (c : Coloring) (busy : c.idle = false) (few : c.rounds*c.full.length ≤ intMax) :
    c.phasesInt = c.totalPhases := by
  have rounds := c.rounds_pos busy
  have lengths : (c.full.length : Int) ≤ c.rounds*c.full.length := by
    have one := Int.mul_le_mul_of_nonneg_right rounds (Int.natCast_nonneg c.full.length)
    omega
  have whole : c.rounds*c.full.length = (c.totalPhases : Int) := by
    rw [totalPhases,Int.natCast_mul,Int.toNat_of_nonneg (Int.le_of_lt rounds)]
  unfold phasesInt
  rw [int32_of_in (x := (c.full.length : Int)) ⟨by unfold intMax; omega,by omega⟩,whole]
  exact int32_of_in ⟨by unfold intMax; omega,by omega⟩

-- Where no band has an item none of them is wide.
theorem widest_none (bands : List (List Int)) (bare : bands.filter (!·.isEmpty) = []) :
    bands.foldl (fun widest band => max widest (int32 band.length)) 0 = 0 := by
  induction bands with
  | nil => rfl
  | cons first rest ih =>
    have each := List.filter_eq_nil_iff.mp bare
    have nothing : first = [] := by simpa using each first List.mem_cons_self
    rw [List.foldl_cons,nothing]
    exact ih (List.filter_eq_nil_iff.mpr (fun band member => each band (List.mem_cons_of_mem _ member)))

theorem totalPhases_pos (c : Coloring) (busy : c.idle = false) : 0 < c.totalPhases := by
  have rounds := c.rounds_pos busy
  have some : c.full ≠ [] := by
    intro none
    have widest : c.widestInt = 0 := widest_none c.bands none
    simp [idle,widest] at busy
  have lengths := List.length_pos_of_ne_nil some
  exact Nat.mul_pos (by omega) lengths

def grain (c : Coloring) (phase claimed : Nat) : Nat :=
  claimGrain c.balance (c.bandSize phase) claimed c.workersInt.toNat

theorem grain_eq (c : Coloring) (busy : c.idle = false) (phase claimed : Nat) :
    claimGrainInt c.balance (c.bandSize phase) claimed c.workersInt = c.grain phase claimed := by
  have staffed := c.workersInt_pos busy
  have cast := claimGrainInt_cast c.balance (c.bandSize phase) claimed c.workersInt.toNat (by omega)
  rwa [Int.toNat_of_nonneg (by omega)] at cast

-- `next` stays a multiple of a fixed grain until the band is all claimed.
def Aligned (c : Coloring) (phase next : Nat) : Prop :=
  c.balance = .balanced → c.grain phase 0 ∣ next ∨ c.bandSize phase ≤ next

-- The end of a chunk is an `int`, also where it is past the end of the band.
theorem stop_fits (c : Coloring) (fits : c.sizesFit) (busy : c.idle = false) (aligned : c.Aligned phase claimed)
    (under : claimed < c.bandSize phase) : (claimed : Int)+c.grain phase claimed ≤ intMax := by
  have staffed := c.workersInt_pos busy
  have small := (c.bandInt_eq fits phase).2
  unfold grain
  cases balance : c.balance with
  | unbalanced =>
    simp only [claimGrain]
    omega
  | guided =>
    have part := Nat.div_le_self (c.bandSize phase-claimed) (2*c.workersInt.toNat)
    simp only [claimGrain]
    omega
  | balanced =>
    have sum : (c.bandSize phase : Int)+c.workersInt ≤ intMax := by
      rcases c.bandSize_of phase with zero | ⟨band,member,same⟩
      · omega
      · have bound := (fits band member).2
        rw [balance] at bound
        rw [same]
        exact bound
    rcases aligned balance with ⟨k,multiple⟩ | overrun
    · unfold grain at multiple
      rw [balance] at multiple
      simp only [claimGrain] at multiple ⊢
      have chunk := Nat.mul_div_le (c.bandSize phase+c.workersInt.toNat-1) c.workersInt.toNat
      have rest := Nat.lt_mul_div_succ (c.bandSize phase+c.workersInt.toNat-1) (by omega : 0 < c.workersInt.toNat)
      generalize (c.bandSize phase+c.workersInt.toNat-1)/c.workersInt.toNat = g at *
      by_cases one : g ≤ 1
      · omega
      · rw [Nat.max_eq_right (by omega)] at multiple ⊢
        have fewer : k < c.workersInt.toNat := by
          by_contra more
          have many := Nat.mul_le_mul_left g (Nat.not_lt.mp more)
          rw [Nat.mul_comm g c.workersInt.toNat] at many
          rw [Nat.mul_add] at rest
          omega
        have next := Nat.mul_le_mul_left g fewer
        rw [Nat.mul_succ,Nat.mul_comm g c.workersInt.toNat] at next
        omega
    · omega

-- A successful claim, as the `int`s come out.
theorem claim_stop {c : Coloring} {phase next : Nat} (fits : c.sizesFit) (busy : c.idle = false) (aligned : c.Aligned phase next)
    (under : next < c.bandSize phase) :
    (min (int32 (next+claimGrainInt c.balance (c.bandInt phase) next c.workersInt)) (c.bandInt phase)).toNat =
      min (next+c.grain phase next) (c.bandSize phase) := by
  rw [(c.bandInt_eq fits phase).1,c.grain_eq busy,
    int32_of_in ⟨by unfold intMax; omega,c.stop_fits fits busy aligned under⟩]
  omega

theorem stop_aligned {c : Coloring} {phase next : Nat} (aligned : c.Aligned phase next) (under : next < c.bandSize phase) :
    c.Aligned phase (min (next+c.grain phase next) (c.bandSize phase)) := by
  intro balanced
  by_cases past : c.bandSize phase ≤ next+c.grain phase next
  · exact .inr (by omega)
  · rw [Nat.min_eq_left (by omega)]
    have same : c.grain phase next = c.grain phase 0 := by
      unfold grain
      rw [balanced]
      rfl
    rw [same]
    refine .inl (Nat.dvd_add ?_ (Nat.dvd_refl _))
    rcases aligned balanced with multiple | overrun
    · exact multiple
    · omega

end Coloring

end Macrame

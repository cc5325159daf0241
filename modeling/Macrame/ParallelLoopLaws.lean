import Macrame.ParallelLoop

namespace Macrame
open Tally

theorem mem_indices : i ∈ indices start stop ↔ start ≤ i ∧ i < stop := by
  unfold indices
  rw [List.mem_map]
  constructor
  · rintro ⟨k,member,rfl⟩
    have below := List.mem_range.mp member
    omega
  · rintro ⟨low,high⟩
    exact ⟨(i-start).toNat,List.mem_range.mpr (by omega),by omega⟩

theorem nodup_indices (start stop : Int) : (indices start stop).Nodup := by
  unfold indices
  refine List.Nodup.map ?_ List.nodup_range
  intro a b same
  simp only at same
  omega

theorem count_indices (i start stop : Int) :
    (indices start stop).count i = if start ≤ i ∧ i < stop then 1 else 0 := by
  split
  · exact List.count_eq_one_of_mem (nodup_indices start stop) (mem_indices.mpr ‹_›)
  · exact List.count_eq_zero.mpr (fun member => absurd (mem_indices.mp member) ‹_›)

namespace SliceStage

-- The items claimed by an executor and not accounted for.
def weight (p : Slicing) : SliceStage → Nat
  | .marking start => (p.n-start).toNat
  | .running start stop _ => (stop-start).toNat
  | .accounting start stop => (stop-start).toNat
  | _ => 0

-- Whether the executor has an item still to give to the body.
def rest (i : Int) : SliceStage → Nat
  | .running _ stop next => if next ≤ i ∧ i < stop then 1 else 0
  | _ => 0

def won : SliceStage → Nat
  | .settling => 1
  | .finishing _ => 1
  | _ => 0

-- The steps an executor has left before it claims again or is gone.
def ahead : SliceStage → Nat
  | .left => 0
  | .claiming _ => 1
  | .loading => 2
  | .sweeping => 2
  | .looping => 3
  | .unborn => 3
  | .finishing _ => 4
  | .settling => 5
  | .accounting _ _ => 6
  | .marking _ => 7
  | .running _ stop next => (stop-next).toNat+7

def Fits (p : Slicing) : SliceStage → Prop
  | .claiming grain => 1 ≤ grain
  | .marking start => 0 ≤ start ∧ start < p.n
  | .running start stop next => 0 ≤ start ∧ start ≤ next ∧ next ≤ stop ∧ start < stop ∧ stop ≤ p.n
  | .accounting start stop => 0 ≤ start ∧ start < stop ∧ stop ≤ p.n
  | .unborn => False
  | _ => True

end SliceStage

def SliceAction.own (e : Nat) : SliceAction → Bool
  | .step f _ _ => f == e
  | _ => false

namespace SliceState

-- Every item below the frontier has been given or passed once or is about to be
-- given by one executor, and none above it has been touched.
structure Sliced (p : Slicing) (s : SliceState) : Prop where
  low : 0 ≤ s.next
  fits : ∀ e, e < s.crew → (s.stages e).Fits p
  total : s.done+tally s.crew (fun _ => SliceStage.weight p) s.stages = min s.next p.n
  within : ∀ i, 0 ≤ i → i < s.next → i < p.n →
    s.given.count i+s.passed.count i+tally s.crew (fun _ => SliceStage.rest i) s.stages = 1
  beyond : ∀ i, i < 0 ∨ s.next ≤ i ∨ p.n ≤ i →
    s.given.count i+s.passed.count i+tally s.crew (fun _ => SliceStage.rest i) s.stages = 0
  overrun : ∀ e, e < s.crew → s.stages e = .left → p.n ≤ s.next
  settling : s.settles.length+tally s.crew (fun _ => SliceStage.won) s.stages = if s.done = p.n then 1 else 0

-- The flag says whether anything has been skipped, and the settle goes by it.
structure Flagged (p : Slicing) (s : SliceState) : Prop where
  marked : s.passed ≠ [] → s.skipped = true ∨ ∃ e, e < s.crew ∧ ∃ start, s.stages e = .marking start
  marks : ∀ e start, e < s.crew → s.stages e = .marking start → s.passed ≠ []
  skips : s.skipped = true → s.passed ≠ []
  verdict : ∀ cancelled ∈ s.settles, cancelled = true ↔ s.passed ≠ []
  verdicts : ∀ e cancelled, e < s.crew → s.stages e = .finishing cancelled → (cancelled = true ↔ s.passed ≠ [])
  sweeps : ∀ e, e < s.crew → s.stages e = .sweeping → s.requested = true
  passes : s.passed ≠ [] → s.requested = true
  requests : s.requested = true → p.token = true

-- What a step of one executor leaves as it is.
structure Frame (s u : SliceState) (e : Nat) (stage : SliceStage) : Prop where
  crew : u.crew = s.crew
  stages : u.stages = Function.update s.stages e stage

theorem Frame.self (frame : Frame s u e stage) : u.stages e = stage := by
  rw [frame.stages,Function.update_self]

theorem Frame.other (frame : Frame s u e stage) (other : f ≠ e) : u.stages f = s.stages f := by
  rw [frame.stages,Function.update_of_ne other]

theorem Frame.tally (frame : Frame s u e stage) (weigh : SliceStage → Nat) (within : e < s.crew) :
    Tally.tally u.crew (fun _ => weigh) u.stages+weigh (s.stages e) =
      Tally.tally s.crew (fun _ => weigh) s.stages+weigh stage := by
  rw [frame.crew,frame.stages]
  exact tally_update (fun _ => weigh) s.stages stage within

-- One executor moves on: what has to be shown of the shared state.
theorem Sliced.moved {s : SliceState} (sliced : s.Sliced p) (u : SliceState) (stage : SliceStage)
    (frame : Frame s u e stage) (within : e < s.crew) (low : 0 ≤ u.next) (fits : stage.Fits p)
    (total : u.done+stage.weight p+min s.next p.n = s.done+(s.stages e).weight p+min u.next p.n)
    (items : ∀ i, u.given.count i+u.passed.count i+stage.rest i+(if 0 ≤ i ∧ i < s.next ∧ i < p.n then 1 else 0) =
      s.given.count i+s.passed.count i+(s.stages e).rest i+(if 0 ≤ i ∧ i < u.next ∧ i < p.n then 1 else 0))
    (overrun : (p.n ≤ s.next → p.n ≤ u.next) ∧ (stage = .left → p.n ≤ u.next))
    (settling : u.settles.length+stage.won+(if s.done = p.n then 1 else 0) =
      s.settles.length+(s.stages e).won+(if u.done = p.n then 1 else 0)) : u.Sliced p := by
  have rests := fun i => frame.tally (SliceStage.rest i) within
  refine ⟨low,?_,?_,?_,?_,?_,?_⟩
  · intro f inside
    rw [frame.crew] at inside
    by_cases same : f = e
    · rw [same,frame.self]
      exact fits
    · rw [frame.other same]
      exact sliced.fits f inside
  · have weights := frame.tally (SliceStage.weight p) within
    have before := sliced.total
    omega
  · intro i low below inside
    have now := items i
    have sum := rests i
    rw [if_pos (show 0 ≤ i ∧ i < u.next ∧ i < p.n from ⟨low,below,inside⟩)] at now
    by_cases prior : i < s.next
    · have before := sliced.within i low prior inside
      rw [if_pos ⟨low,prior,inside⟩] at now
      omega
    · have before := sliced.beyond i (.inr (.inl (by omega)))
      rw [if_neg (by omega)] at now
      omega
  · intro i out
    have now := items i
    have sum := rests i
    rw [if_neg (show ¬(0 ≤ i ∧ i < u.next ∧ i < p.n) by omega)] at now
    by_cases prior : 0 ≤ i ∧ i < s.next ∧ i < p.n
    · have before := sliced.within i prior.1 prior.2.1 prior.2.2
      rw [if_pos prior] at now
      omega
    · have before := sliced.beyond i (by omega)
      rw [if_neg prior] at now
      omega
  · intro f inside left
    rw [frame.crew] at inside
    by_cases same : f = e
    · rw [same,frame.self] at left
      exact overrun.2 left
    · rw [frame.other same] at left
      exact overrun.1 (sliced.overrun f inside left)
  · have wons := frame.tally SliceStage.won within
    have before := sliced.settling
    omega

theorem setStage_frame (s : SliceState) (e : Nat) (stage : SliceStage) : Frame s (s.setStage e stage) e stage := ⟨rfl,rfl⟩

theorem count_snoc (list : List Int) (i k : Int) : (list++[k]).count i = list.count i+if k = i then 1 else 0 := by
  rw [List.count_append,List.count_singleton]
  simp only [beq_iff_eq]

theorem step_sliced {s : SliceState} (sliced : s.Sliced p) (allowed : s.Allowed p (.step e claimed sees)) :
    (s.step id p e claimed sees).Sliced p := by
  obtain ⟨within,-,-,-⟩ := allowed
  have fits := sliced.fits e within
  have low := sliced.low
  have positive := p.positive
  -- a move that claims, gives and accounts for nothing
  have quiet : ∀ (u : SliceState) stage, Frame s u e stage → u.next = s.next → u.done = s.done → u.given = s.given →
      u.passed = s.passed → u.settles = s.settles → stage.Fits p → stage.weight p = (s.stages e).weight p →
      (∀ i, stage.rest i = (s.stages e).rest i) → stage.won = (s.stages e).won → stage ≠ .left → u.Sliced p := by
    intro u stage frame next done given passed settles fits weight rest won stays
    refine sliced.moved u stage frame within (by rw [next]; exact low) fits (by rw [next,done,weight]) ?_
      ⟨by rw [next]; exact id,fun left => absurd left stays⟩ (by rw [done,settles,won])
    intro i
    rw [next,given,passed,rest i]
  unfold step
  cases here : s.stages e with
  | looping =>
    cases sees <;>
      exact quiet _ _ (setStage_frame s e _) rfl rfl rfl rfl rfl trivial (by rw [here]; rfl) (fun i => by rw [here]; rfl)
        (by rw [here]; rfl) nofun
  | loading =>
    exact quiet _ _ (setStage_frame s e _) rfl rfl rfl rfl rfl (claimGrainInt_pos ..) (by rw [here]; rfl)
      (fun i => by rw [here]; rfl) (by rw [here]; rfl) nofun
  | claiming grain =>
    rw [here] at fits
    change 1 ≤ grain at fits
    simp only [id_eq]
    refine sliced.moved ((s.store (s.next+grain)).setStage e _) _ ⟨rfl,rfl⟩ within ?_ ?_ ?_ ?_ ?_ ?_
    · change 0 ≤ s.next+grain
      omega
    · split
      · trivial
      · change 0 ≤ s.next ∧ s.next ≤ s.next ∧ s.next ≤ min (s.next+grain) p.n ∧ _ ∧ _
        omega
    · change s.done+_+min s.next p.n = s.done+_+min (s.next+grain) p.n
      rw [here]
      split
      · simp only [SliceStage.weight]
        omega
      · simp only [SliceStage.weight]
        omega
    · intro i
      change s.given.count i+s.passed.count i+_+_ = s.given.count i+s.passed.count i+_+
        (if 0 ≤ i ∧ i < s.next+grain ∧ i < p.n then 1 else 0)
      rw [here]
      split
      · simp only [SliceStage.rest]
        grind
      · simp only [SliceStage.rest]
        grind
    · change (p.n ≤ s.next → p.n ≤ s.next+grain) ∧ (_ → p.n ≤ s.next+grain)
      refine ⟨by omega,?_⟩
      split
      · intro _
        omega
      · exact nofun
    · change s.settles.length+_+_ = s.settles.length+_+_
      rw [here]
      split <;> rfl
  | sweeping =>
    simp only
    split
    · rename_i overrun
      refine sliced.moved ((s.store p.n).setStage e .left) .left ⟨rfl,rfl⟩ within ?_ trivial ?_ ?_ ?_ ?_
      · change 0 ≤ p.n
        omega
      · change s.done+_+min s.next p.n = s.done+_+min p.n p.n
        rw [here]
        simp only [SliceStage.weight]
        omega
      · intro i
        change s.given.count i+s.passed.count i+_+_ = s.given.count i+s.passed.count i+_+
          (if 0 ≤ i ∧ i < p.n ∧ i < p.n then 1 else 0)
        rw [here]
        simp only [SliceStage.rest]
        grind
      · exact ⟨fun _ => Int.le_refl p.n,fun _ => Int.le_refl p.n⟩
      · rw [here]
        rfl
    · rename_i under
      refine sliced.moved ({s.store p.n with passed := s.passed++indices s.next p.n}.setStage e (.marking s.next))
        (.marking s.next) ⟨rfl,rfl⟩ within ?_ ?_ ?_ ?_ ?_ ?_
      · change 0 ≤ p.n
        omega
      · change 0 ≤ s.next ∧ s.next < p.n
        omega
      · change s.done+_+min s.next p.n = s.done+_+min p.n p.n
        rw [here]
        simp only [SliceStage.weight]
        omega
      · intro i
        change s.given.count i+(s.passed++indices s.next p.n).count i+_+_ = s.given.count i+s.passed.count i+_+
          (if 0 ≤ i ∧ i < p.n ∧ i < p.n then 1 else 0)
        rw [here,List.count_append,count_indices]
        simp only [SliceStage.rest]
        grind
      · exact ⟨fun _ => Int.le_refl p.n,nofun⟩
      · rw [here]
        rfl
  | marking start =>
    rw [here] at fits
    change 0 ≤ start ∧ start < p.n at fits
    exact quiet ({s with skipped := true}.setStage e (.accounting start p.n)) (.accounting start p.n) ⟨rfl,rfl⟩ rfl rfl rfl rfl rfl
      ⟨fits.1,fits.2,Int.le_refl p.n⟩ (by rw [here]; rfl) (fun i => by rw [here]; rfl) (by rw [here]; rfl) nofun
  | running start stop next =>
    rw [here] at fits
    change 0 ≤ start ∧ start ≤ next ∧ next ≤ stop ∧ start < stop ∧ stop ≤ p.n at fits
    simp only
    split
    · rename_i more
      refine sliced.moved ({s with given := s.given++[next]}.setStage e (.running start stop (next+1)))
        (.running start stop (next+1)) ⟨rfl,rfl⟩ within low ?_ ?_ ?_ ⟨id,nofun⟩ ?_
      · change 0 ≤ start ∧ start ≤ next+1 ∧ next+1 ≤ stop ∧ start < stop ∧ stop ≤ p.n
        omega
      · rw [here]
        rfl
      · intro i
        change (s.given++[next]).count i+s.passed.count i+_+(if 0 ≤ i ∧ i < s.next ∧ i < p.n then 1 else 0) =
          s.given.count i+s.passed.count i+_+(if 0 ≤ i ∧ i < s.next ∧ i < p.n then 1 else 0)
        have item : (if next = i then 1 else 0)+(if next+1 ≤ i ∧ i < stop then 1 else 0) =
            if next ≤ i ∧ i < stop then 1 else 0 := by
          split <;> split <;> split <;> omega
        rw [here,count_snoc]
        simp only [SliceStage.rest]
        omega
      · rw [here]
        rfl
    · refine quiet _ (.accounting start stop) (setStage_frame s e _) rfl rfl rfl rfl rfl ⟨fits.1,fits.2.2.2.1,fits.2.2.2.2⟩ (by rw [here]; rfl) ?_
        (by rw [here]; rfl) nofun
      intro i
      rw [here]
      simp only [SliceStage.rest]
      grind
  | accounting start stop =>
    rw [here] at fits
    change 0 ≤ start ∧ start < stop ∧ stop ≤ p.n at fits
    have part := weigh_le_tally (fun _ => SliceStage.weight p) s.stages within
    rw [here] at part
    simp only [SliceStage.weight] at part
    have total := sliced.total
    simp only [id_eq]
    refine sliced.moved ({s with done := s.done+(stop-start)}.setStage e _) _ ⟨rfl,rfl⟩ within low ?_ ?_ ?_ ⟨id,?_⟩ ?_
    · split <;> trivial
    · change s.done+(stop-start)+_+min s.next p.n = s.done+_+min s.next p.n
      rw [here]
      split
      · simp only [SliceStage.weight]
        omega
      · simp only [SliceStage.weight]
        omega
    · intro i
      rw [here]
      split <;> rfl
    · split <;> exact nofun
    · change s.settles.length+_+_ = s.settles.length+_+(if s.done+(stop-start) = p.n then 1 else 0)
      rw [here,if_neg (by omega : ¬s.done = p.n)]
      split <;> rfl
  | settling =>
    exact quiet _ _ (setStage_frame s e _) rfl rfl rfl rfl rfl trivial (by rw [here]; rfl) (fun i => by rw [here]; rfl)
      (by rw [here]; rfl) nofun
  | finishing cancelled =>
    refine sliced.moved ({s with settles := s.settles++[cancelled]}.setStage e .looping) .looping ⟨rfl,rfl⟩ within low trivial
      (by rw [here]; rfl) (fun i => by rw [here]; rfl) ⟨id,nofun⟩ ?_
    change (s.settles++[cancelled]).length+_+_ = _
    rw [here,List.length_append]
    simp only [SliceStage.won,List.length_singleton]
    rfl
  | unborn => exact sliced
  | left => exact sliced

-- While the frontier is below the end nothing is settled or about to be.
theorem Sliced.early {s : SliceState} (sliced : s.Sliced p) (under : s.done < p.n) :
    s.settles = [] ∧ ∀ e, e < s.crew → (s.stages e).won = 0 := by
  have settling := sliced.settling
  rw [if_neg (by omega)] at settling
  refine ⟨List.eq_nil_of_length_eq_zero (by omega),?_⟩
  exact tally_zero.mp (by omega)

-- Once every item is accounted for no chunk is under way.
theorem Sliced.idle {s : SliceState} (sliced : s.Sliced p) (full : s.done = p.n) :
    p.n ≤ s.next ∧ ∀ e, e < s.crew → (s.stages e).weight p = 0 := by
  have total := sliced.total
  refine ⟨by omega,?_⟩
  exact tally_zero.mp (by omega)

theorem Sliced.full {s : SliceState} (sliced : s.Sliced p) (within : e < s.crew) (won : (s.stages e).won = 1) :
    s.done = p.n := by
  have settling := sliced.settling
  have part := weigh_le_tally (fun _ => SliceStage.won) s.stages within
  rw [won] at part
  by_contra early
  rw [if_neg early] at settling
  omega

theorem Flagged.moved {s : SliceState} (flagged : s.Flagged p) (u : SliceState) (stage : SliceStage)
    (frame : Frame s u e stage) (passed : u.passed = s.passed) (requested : u.requested = s.requested)
    (skipped : u.skipped = s.skipped ∨ (u.skipped = true ∧ s.passed ≠ []))
    (marked : ∀ start, s.stages e = .marking start → u.skipped = true)
    (marks : ∀ start, stage ≠ .marking start)
    (settles : ∀ c ∈ u.settles, c ∈ s.settles ∨ (c = true ↔ s.passed ≠ []))
    (finishes : ∀ c, stage = .finishing c → (c = true ↔ s.passed ≠ []))
    (sweeps : stage = .sweeping → s.requested = true) : u.Flagged p := by
  have at_f : ∀ f, f < u.crew → u.stages f ≠ stage → f < s.crew ∧ u.stages f = s.stages f := by
    intro f inside other
    rw [frame.crew] at inside
    by_cases same : f = e
    · exact absurd (by rw [same,frame.self]) other
    · exact ⟨inside,frame.other same⟩
  refine ⟨?_,?_,?_,?_,?_,?_,?_,?_⟩
  · rw [passed]
    intro some
    have kept : s.skipped = true → u.skipped = true := by
      intro yes
      rcases skipped with same | ⟨now,-⟩
      · rwa [same]
      · exact now
    rcases flagged.marked some with yes | ⟨f,inside,start,here⟩
    · exact .inl (kept yes)
    · by_cases same : f = e
      · exact .inl (marked start (same ▸ here))
      · exact .inr ⟨f,by rw [frame.crew]; exact inside,start,by rw [frame.other same]; exact here⟩
  · intro f start inside here
    rw [passed]
    obtain ⟨prior,same⟩ := at_f f inside (by rw [here]; exact (marks start).symm)
    exact flagged.marks f start prior (same ▸ here)
  · rw [passed]
    intro yes
    rcases skipped with same | ⟨-,some⟩
    · exact flagged.skips (same ▸ yes)
    · exact some
  · intro c member
    rw [passed]
    rcases settles c member with prior | fresh
    · exact flagged.verdict c prior
    · exact fresh
  · intro f c inside here
    rw [passed]
    by_cases same : u.stages f = stage
    · exact finishes c (same ▸ here)
    · obtain ⟨prior,kept⟩ := at_f f inside same
      exact flagged.verdicts f c prior (kept ▸ here)
  · intro f inside here
    rw [requested]
    by_cases same : u.stages f = stage
    · exact sweeps (same ▸ here)
    · obtain ⟨prior,kept⟩ := at_f f inside same
      exact flagged.sweeps f prior (kept ▸ here)
  · rw [passed,requested]
    exact flagged.passes
  · rw [requested]
    exact flagged.requests

theorem step_flagged {s : SliceState} (sliced : s.Sliced p) (flagged : s.Flagged p)
    (allowed : s.Allowed p (.step e claimed sees)) : (s.step id p e claimed sees).Flagged p := by
  obtain ⟨within,-,-,seen⟩ := allowed
  -- a move that marks, sweeps and finishes nothing
  have quiet : ∀ (u : SliceState) stage, Frame s u e stage → u.passed = s.passed → u.requested = s.requested →
      u.skipped = s.skipped → u.settles = s.settles → (∀ start, s.stages e ≠ .marking start) →
      (∀ start, stage ≠ .marking start) → (∀ c, stage ≠ .finishing c) → stage ≠ .sweeping → u.Flagged p := by
    intro u stage frame passed requested skipped settles unmarked marks finishes sweeps
    refine flagged.moved u stage frame passed requested (.inl skipped) (fun start here => absurd here (unmarked start)) marks
      ?_ (fun c here => absurd here (finishes c)) (fun here => absurd here sweeps)
    intro c member
    rw [settles] at member
    exact .inl member
  unfold step
  cases here : s.stages e with
  | looping =>
    cases sees with
    | true =>
      exact flagged.moved _ .sweeping (setStage_frame s e _) rfl rfl (.inl rfl) (fun start at_ => by (rw [here] at at_; cases at_))
        nofun (fun c => .inl) nofun (fun _ => seen rfl)
    | false => exact quiet _ .loading (setStage_frame s e _) rfl rfl rfl rfl (by rw [here]; nofun) nofun nofun nofun
  | loading => exact quiet _ (.claiming _) (setStage_frame s e _) rfl rfl rfl rfl (by rw [here]; nofun) nofun nofun nofun
  | claiming grain =>
    simp only [id_eq]
    split
    · exact quiet _ .left ⟨rfl,rfl⟩ rfl rfl rfl rfl (by rw [here]; nofun) nofun nofun nofun
    · exact quiet _ (.running _ _ _) ⟨rfl,rfl⟩ rfl rfl rfl rfl (by rw [here]; nofun) nofun nofun nofun
  | sweeping =>
    simp only
    split
    · exact quiet _ .left ⟨rfl,rfl⟩ rfl rfl rfl rfl (by rw [here]; nofun) nofun nofun nofun
    · rename_i under
      -- nothing is settled yet, so no verdict has been given
      have total := sliced.total
      obtain ⟨none,unwon⟩ := sliced.early (by omega)
      have some : s.passed++indices s.next p.n ≠ [] := by
        intro empty
        have member : s.next ∈ indices s.next p.n := mem_indices.mpr ⟨Int.le_refl _,by omega⟩
        rw [(List.append_eq_nil_iff.mp empty).2] at member
        exact absurd member List.not_mem_nil
      have frame : Frame s ({s.store p.n with passed := s.passed++indices s.next p.n}.setStage e (.marking s.next)) e
          (.marking s.next) := ⟨rfl,rfl⟩
      refine ⟨?_,fun _ _ _ _ => some,fun _ => some,?_,?_,?_,fun _ => flagged.sweeps e within here,flagged.requests⟩
      · exact fun _ => .inr ⟨e,within,s.next,frame.self⟩
      · intro c member
        change c ∈ s.settles at member
        rw [none] at member
        exact absurd member List.not_mem_nil
      · intro f c inside finishing
        by_cases same : f = e
        · rw [same,frame.self] at finishing
          cases finishing
        · rw [frame.other same] at finishing
          have zero := unwon f inside
          rw [finishing] at zero
          cases zero
      · intro f inside sweeping
        by_cases same : f = e
        · rw [same,frame.self] at sweeping
          cases sweeping
        · rw [frame.other same] at sweeping
          exact flagged.sweeps f inside sweeping
  | marking start =>
    refine flagged.moved ({s with skipped := true}.setStage e (.accounting start p.n)) (.accounting start p.n) ⟨rfl,rfl⟩ rfl rfl
      (.inr ⟨rfl,flagged.marks e start within here⟩) (fun _ _ => rfl) nofun (fun c => .inl) nofun nofun
  | running start stop next =>
    simp only
    split
    · exact quiet _ (.running _ _ _) ⟨rfl,rfl⟩ rfl rfl rfl rfl (by rw [here]; nofun) nofun nofun nofun
    · exact quiet _ (.accounting _ _) (setStage_frame s e _) rfl rfl rfl rfl (by rw [here]; nofun) nofun nofun nofun
  | accounting start stop =>
    simp only [id_eq]
    split
    · exact quiet _ .settling ⟨rfl,rfl⟩ rfl rfl rfl rfl (by rw [here]; nofun) nofun nofun nofun
    · exact quiet _ .looping ⟨rfl,rfl⟩ rfl rfl rfl rfl (by rw [here]; nofun) nofun nofun nofun
  | settling =>
    -- everybody who has skipped anything has said so before accounting for it
    have idle := sliced.idle (sliced.full within (by rw [here]; rfl))
    refine flagged.moved _ (.finishing s.skipped) (setStage_frame s e _) rfl rfl (.inl rfl)
      (fun start at_ => by (rw [here] at at_; cases at_)) nofun (fun c => .inl) ?_ nofun
    intro c same
    cases same
    refine ⟨flagged.skips,?_⟩
    intro some
    rcases flagged.marked some with yes | ⟨f,inside,start,marking⟩
    · exact yes
    · have zero := idle.2 f inside
      have fits := sliced.fits f inside
      rw [marking] at zero fits
      change (p.n-start).toNat = 0 at zero
      change 0 ≤ start ∧ start < p.n at fits
      omega
  | finishing cancelled =>
    refine flagged.moved ({s with settles := s.settles++[cancelled]}.setStage e .looping) .looping ⟨rfl,rfl⟩ rfl rfl (.inl rfl)
      (fun start at_ => by (rw [here] at at_; cases at_)) nofun ?_ nofun nofun
    intro c member
    rcases List.mem_append.mp member with prior | last
    · exact .inl prior
    · rw [List.mem_singleton.mp last]
      exact .inr (flagged.verdicts e cancelled within here)
  | unborn => exact flagged
  | left => exact flagged

-- Another executor starts, at any time.
theorem start_sliced {s : SliceState} (sliced : s.Sliced p) : (s.apply id p .start).Sliced p := by
  have joins : ∀ weigh : SliceStage → Nat, weigh .looping = 0 →
      tally (s.crew+1) (fun _ => weigh) (Function.update s.stages s.crew .looping) = tally s.crew (fun _ => weigh) s.stages := by
    intro weigh zero
    rw [tally_join,zero,Nat.add_zero]
  have at_e : ∀ e, e < s.crew+1 → Function.update s.stages s.crew .looping e = .looping ∨
      (e < s.crew ∧ Function.update s.stages s.crew .looping e = s.stages e) := by
    intro e inside
    by_cases same : e = s.crew
    · exact .inl (by rw [same,Function.update_self])
    · exact .inr ⟨by omega,Function.update_of_ne same ..⟩
  refine ⟨sliced.low,?_,?_,?_,?_,?_,?_⟩
  · intro e inside
    change ((Function.update s.stages s.crew .looping) e).Fits p
    rcases at_e e inside with here | ⟨prior,here⟩
    · rw [here]
      trivial
    · rw [here]
      exact sliced.fits e prior
  · change s.done+tally (s.crew+1) _ (Function.update s.stages s.crew .looping) = _
    rw [joins _ rfl]
    exact sliced.total
  · intro i low below inside
    change s.given.count i+s.passed.count i+tally (s.crew+1) _ (Function.update s.stages s.crew .looping) = 1
    rw [joins _ rfl]
    exact sliced.within i low below inside
  · intro i out
    change s.given.count i+s.passed.count i+tally (s.crew+1) _ (Function.update s.stages s.crew .looping) = 0
    rw [joins _ rfl]
    exact sliced.beyond i out
  · intro e inside left
    change Function.update s.stages s.crew .looping e = .left at left
    rcases at_e e inside with here | ⟨prior,here⟩
    · rw [here] at left
      cases left
    · exact sliced.overrun e prior (here ▸ left)
  · change s.settles.length+tally (s.crew+1) _ (Function.update s.stages s.crew .looping) = _
    rw [joins _ rfl]
    exact sliced.settling

theorem start_flagged {s : SliceState} (flagged : s.Flagged p) : (s.apply id p .start).Flagged p := by
  have prior : ∀ e stage, e < s.crew+1 → Function.update s.stages s.crew .looping e = stage → stage ≠ .looping →
      e < s.crew ∧ s.stages e = stage := by
    intro e stage inside here other
    by_cases same : e = s.crew
    · rw [same,Function.update_self] at here
      exact absurd here.symm other
    · rw [Function.update_of_ne same] at here
      exact ⟨by omega,here⟩
  refine ⟨?_,?_,flagged.skips,flagged.verdict,?_,?_,flagged.passes,flagged.requests⟩
  · intro some
    refine (flagged.marked some).imp_right ?_
    rintro ⟨e,inside,start,here⟩
    refine ⟨e,Nat.lt_succ_of_lt inside,start,?_⟩
    exact (Function.update_of_ne (Nat.ne_of_lt inside) ..).trans here
  · intro e start inside here
    obtain ⟨before,there⟩ := prior e _ inside here nofun
    exact flagged.marks e start before there
  · intro e c inside here
    obtain ⟨before,there⟩ := prior e _ inside here nofun
    exact flagged.verdicts e c before there
  · intro e inside here
    obtain ⟨before,there⟩ := prior e _ inside here nofun
    exact flagged.sweeps e before there

-- A chunk of k items costs its executor k steps of the body and seven others.
def toll (p : Slicing) (s : SliceState) (e : Nat) : Nat := 8*(p.n-s.next).toNat+(s.stages e).ahead

-- A step of an executor moves `next` forward or to the end, and what it costs is
-- paid for by the items it claims or by its own stage.
theorem step_pays {s : SliceState} (sliced : s.Sliced p) (allowed : s.Allowed p (.step f claimed sees)) :
    ∃ stage, Frame s (s.step id p f claimed sees) f stage ∧
      (s.next ≤ (s.step id p f claimed sees).next ∨ p.n ≤ (s.step id p f claimed sees).next) ∧
      8*(p.n-(s.step id p f claimed sees).next).toNat+stage.ahead+1 ≤ 8*(p.n-s.next).toNat+(s.stages f).ahead := by
  obtain ⟨within,present,-,-⟩ := allowed
  have fits := sliced.fits f within
  unfold step
  cases here : s.stages f with
  | looping =>
    refine ⟨_,setStage_frame s f _,.inl (Int.le_refl _),?_⟩
    change 8*(p.n-s.next).toNat+_+1 ≤ _
    cases sees <;> exact Nat.le_refl _
  | loading => exact ⟨_,setStage_frame s f _,.inl (Int.le_refl _),Nat.le_refl _⟩
  | claiming grain =>
    rw [here] at fits
    change 1 ≤ grain at fits
    refine ⟨_,⟨rfl,rfl⟩,.inl ?_,?_⟩
    · change s.next ≤ s.next+grain
      omega
    · change 8*(p.n-(s.next+grain)).toNat+_+1 ≤ 8*(p.n-s.next).toNat+1
      split
      · simp only [SliceStage.ahead]
        omega
      · simp only [SliceStage.ahead,id_eq]
        omega
  | sweeping =>
    simp only
    split
    · refine ⟨.left,⟨rfl,rfl⟩,.inr (Int.le_refl p.n),?_⟩
      change 8*(p.n-p.n).toNat+0+1 ≤ 8*(p.n-s.next).toNat+2
      omega
    · refine ⟨.marking s.next,⟨rfl,rfl⟩,.inr (Int.le_refl p.n),?_⟩
      change 8*(p.n-p.n).toNat+7+1 ≤ 8*(p.n-s.next).toNat+2
      omega
  | marking start => exact ⟨.accounting start p.n,⟨rfl,rfl⟩,.inl (Int.le_refl _),Nat.le_refl _⟩
  | running start stop next =>
    simp only
    split
    · refine ⟨.running start stop (next+1),⟨rfl,rfl⟩,.inl (Int.le_refl _),?_⟩
      change 8*(p.n-s.next).toNat+((stop-(next+1)).toNat+7)+1 ≤ 8*(p.n-s.next).toNat+((stop-next).toNat+7)
      omega
    · refine ⟨.accounting start stop,setStage_frame s f _,.inl (Int.le_refl _),?_⟩
      change 8*(p.n-s.next).toNat+6+1 ≤ 8*(p.n-s.next).toNat+((stop-next).toNat+7)
      omega
  | accounting start stop =>
    refine ⟨_,⟨rfl,rfl⟩,.inl (Int.le_refl _),?_⟩
    change 8*(p.n-s.next).toNat+_+1 ≤ 8*(p.n-s.next).toNat+6
    split
    · exact Nat.le_refl _
    · simp only [SliceStage.ahead]
      omega
  | settling => exact ⟨_,setStage_frame s f _,.inl (Int.le_refl _),Nat.le_refl _⟩
  | finishing cancelled => exact ⟨.looping,⟨rfl,rfl⟩,.inl (Int.le_refl _),Nat.le_refl _⟩
  | unborn =>
    rw [here] at fits
    exact fits.elim
  | left => exact absurd here present

theorem step_toll {s : SliceState} (sliced : s.Sliced p) (allowed : s.Allowed p (.step f claimed sees)) (e : Nat) :
    (s.step id p f claimed sees).toll p e+(if f = e then 1 else 0) ≤ s.toll p e := by
  obtain ⟨stage,frame,forth,paid⟩ := step_pays sliced allowed
  unfold toll
  by_cases same : f = e
  · subst same
    rw [frame.self,if_pos rfl]
    exact paid
  · rw [frame.other (Ne.symm same),if_neg same]
    omega

theorem apply_toll {s : SliceState} (sliced : s.Sliced p) (within : e < s.crew) (allowed : s.Allowed p a) :
    (s.apply id p a).toll p e+(if a.own e then 1 else 0) ≤ s.toll p e := by
  cases a with
  | start =>
    change 8*(p.n-s.next).toNat+(Function.update s.stages s.crew .looping e).ahead+0 ≤ _
    rw [Function.update_of_ne (Nat.ne_of_lt within)]
    exact Nat.le_refl _
  | request => exact Nat.le_refl _
  | step f claimed sees =>
    have paid := step_toll sliced allowed e
    simp only [SliceAction.own,beq_iff_eq]
    exact paid

theorem initial_sliced (p : Slicing) : ({} : SliceState).Sliced p := by
  have positive := p.positive
  refine ⟨Int.le_refl 0,fun _ inside => absurd inside (Nat.not_lt_zero _),?_,?_,?_,?_,?_⟩
  · change (0 : Int)+((0 : Nat) : Int) = min 0 p.n
    omega
  · intro i low below _
    change i < 0 at below
    omega
  · exact fun _ _ => rfl
  · exact fun _ inside => absurd inside (Nat.not_lt_zero _)
  · change 0 = if (0 : Int) = p.n then 1 else 0
    rw [if_neg (by omega)]

theorem initial_flagged (p : Slicing) : ({} : SliceState).Flagged p :=
  ⟨fun some => absurd rfl some,nofun,nofun,nofun,nofun,nofun,fun some => absurd rfl some,nofun⟩

theorem apply_sliced {s : SliceState} (sliced : s.Sliced p) (allowed : s.Allowed p a) : (s.apply id p a).Sliced p := by
  cases a with
  | start => exact start_sliced sliced
  | request => exact ⟨sliced.low,sliced.fits,sliced.total,sliced.within,sliced.beyond,sliced.overrun,sliced.settling⟩
  | step e claimed sees => exact step_sliced sliced allowed

theorem apply_flagged {s : SliceState} (sliced : s.Sliced p) (flagged : s.Flagged p) (allowed : s.Allowed p a) :
    (s.apply id p a).Flagged p := by
  cases a with
  | start => exact start_flagged flagged
  | request =>
    exact ⟨flagged.marked,flagged.marks,flagged.skips,flagged.verdict,flagged.verdicts,fun _ _ _ => rfl,fun _ => rfl,fun _ => allowed⟩
  | step e claimed sees => exact step_flagged sliced flagged allowed

theorem reached_sliced (path : Machines.Reached (sliceSystem id p) s) : s.Sliced p ∧ s.Flagged p := by
  refine Machines.reached_invariant (fun s : SliceState => s.Sliced p ∧ s.Flagged p) ?_ ?_ path
  · intro s begun
    change s = {} at begun
    subst begun
    exact ⟨initial_sliced p,initial_flagged p⟩
  · intro s a ⟨sliced,flagged⟩ allowed
    exact ⟨apply_sliced sliced allowed,apply_flagged sliced flagged allowed⟩

theorem apply_crew {s : SliceState} (sliced : s.Sliced p) (allowed : s.Allowed p a) : s.crew ≤ (s.apply id p a).crew := by
  cases a with
  | start => exact Nat.le_succ _
  | request => exact Nat.le_refl _
  | step e claimed sees =>
    obtain ⟨_,frame,_⟩ := step_pays sliced allowed
    exact Nat.le_of_eq frame.crew.symm

theorem toll_le {s : SliceState} (sliced : s.Sliced p) (within : e < s.crew) : s.toll p e ≤ 9*p.n.toNat+7 := by
  have fits := sliced.fits e within
  have low := sliced.low
  unfold toll
  cases here : s.stages e with
  | running start stop next =>
    rw [here] at fits
    change 0 ≤ start ∧ start ≤ next ∧ next ≤ stop ∧ start < stop ∧ stop ≤ p.n at fits
    simp only [SliceStage.ahead]
    omega
  | _ =>
    simp only [SliceStage.ahead]
    omega

-- However a run goes on, an executor takes no more of its own steps than its toll.
theorem own_steps_le {s : SliceState} (sliced : s.Sliced p) (within : e < s.crew)
    (run : Machines.Runs (sliceSystem id p) s actions t) : actions.countP (·.own e) ≤ 9*p.n.toNat+7 := by
  have kept : ∀ u a, u.Sliced p ∧ e < u.crew → (sliceSystem id p).allowed u a →
      (u.apply id p a).Sliced p ∧ e < (u.apply id p a).crew := by
    intro u a ⟨sliced,within⟩ allowed
    exact ⟨apply_sliced sliced allowed,Nat.lt_of_lt_of_le within (apply_crew sliced allowed)⟩
  have pays : ∀ u a, u.Sliced p ∧ e < u.crew → (sliceSystem id p).allowed u a →
      (u.apply id p a).toll p e+(if a.own e then 1 else 0) ≤ u.toll p e := by
    intro u a ⟨sliced,within⟩ allowed
    exact apply_toll sliced within allowed
  have paid := Machines.runs_paid (fun u : SliceState => u.toll p e) (SliceAction.own e) kept pays ⟨sliced,within⟩ run
  exact Nat.le_trans (Nat.le_of_add_left_le paid) (toll_le sliced within)

theorem step_held (s : SliceState) : s.held ⊆ (s.step id p e claimed sees).held := by
  unfold step
  cases s.stages e with
  | claiming grain => exact List.subset_append_left _ _
  | sweeping =>
    simp only
    split <;> exact List.subset_append_left _ _
  | running start stop next =>
    simp only
    split <;> exact fun _ => id
  | _ => exact fun _ => id

theorem zero_held (path : Machines.Reached (sliceSystem id p) s) : 0 ∈ s.held := by
  refine Machines.reached_invariant (fun s : SliceState => 0 ∈ s.held) ?_ ?_ path
  · intro s begun
    change s = {} at begun
    subst begun
    exact List.mem_singleton_self 0
  · intro s a held allowed
    cases a with
    | step e claimed sees => exact step_held s held
    | _ => exact held

-- An executor that has not left can take a step, and has only so many to take.
structure Once (p : Slicing) (s : SliceState) : Prop where
  apart : (s.given++s.passed).Nodup
  inside : ∀ i ∈ s.given++s.passed, 0 ≤ i ∧ i < p.n
  settled : s.settles.length ≤ 1
  accounted : s.settles ≠ [] → (s.given++s.passed).Perm (indices 0 p.n) ∧ ∀ e, e < s.crew → (s.stages e).weight p = 0
  verdict : ∀ cancelled ∈ s.settles, cancelled = true ↔ s.passed ≠ []
  blocking : p.token = false → s.passed = []
  enabled : ∀ e, e < s.crew → s.stages e ≠ .left → ∃ claimed sees, s.Allowed p (.step e claimed sees)
  bounded : ∀ e, e < s.crew → ∀ actions t, Machines.Runs (sliceSystem id p) s actions t → actions.countP (·.own e) ≤ 9*p.n.toNat+7
  ends : 0 < s.crew → (∀ e, e < s.crew → s.stages e = .left) → s.settles.length = 1

theorem Sliced.counted {s : SliceState} (sliced : s.Sliced p) (i : Int) : (s.given++s.passed).count i ≤ 1 := by
  rw [List.count_append]
  by_cases inside : 0 ≤ i ∧ i < s.next ∧ i < p.n
  · have one := sliced.within i inside.1 inside.2.1 inside.2.2
    omega
  · have none := sliced.beyond i (by omega)
    omega

theorem Sliced.all {s : SliceState} (sliced : s.Sliced p) (full : s.done = p.n) :
    (s.given++s.passed).Perm (indices 0 p.n) := by
  obtain ⟨overrun,idle⟩ := sliced.idle full
  refine List.perm_iff_count.mpr ?_
  intro i
  rw [List.count_append,count_indices]
  -- a chunk that is still being given would still be unaccounted for
  have quiet : tally s.crew (fun _ => SliceStage.rest i) s.stages = 0 := by
    refine tally_zero.mpr ?_
    intro e inside
    have zero := idle e inside
    have fits := sliced.fits e inside
    cases here : s.stages e with
    | running start stop next =>
      rw [here] at zero fits
      change (stop-start).toNat = 0 at zero
      change 0 ≤ start ∧ start ≤ next ∧ next ≤ stop ∧ start < stop ∧ stop ≤ p.n at fits
      omega
    | _ => rfl
  split
  · have one := sliced.within i (by omega) (by omega) (by omega)
    omega
  · have none := sliced.beyond i (by omega)
    omega

end SliceState

-- Whatever the grains, the overshoots and the moment of the request, no item is
-- lost and none comes twice, and the one settle says which way it went.
theorem slices_once (p : Slicing) (path : Machines.Reached (sliceSystem id p) s) : s.Once p := by
  obtain ⟨sliced,flagged⟩ := SliceState.reached_sliced path
  refine ⟨?_,?_,?_,?_,flagged.verdict,?_,?_,fun e within _ _ run => SliceState.own_steps_le sliced within run,?_⟩
  · exact List.nodup_iff_count_le_one.mpr sliced.counted
  · intro i member
    by_contra out
    have none := sliced.beyond i (by omega)
    have some := List.count_pos_iff.mpr member
    rw [List.count_append] at some
    omega
  · have settling := sliced.settling
    split at settling <;> omega
  · intro some
    have full : s.done = p.n := by
      have settling := sliced.settling
      by_contra early
      rw [if_neg early] at settling
      exact some (List.eq_nil_of_length_eq_zero (by omega))
    exact ⟨sliced.all full,(sliced.idle full).2⟩
  · intro absent
    by_contra some
    have token := flagged.requests (flagged.passes some)
    rw [absent] at token
    cases token
  · intro e within present
    exact ⟨0,false,within,present,SliceState.zero_held path,nofun⟩
  · intro staffed gone
    have overrun := sliced.overrun 0 staffed (gone 0 staffed)
    have weights : tally s.crew (fun _ => SliceStage.weight p) s.stages = 0 :=
      tally_zero.mpr (fun e inside => by rw [gone e inside]; rfl)
    have wins : tally s.crew (fun _ => SliceStage.won) s.stages = 0 :=
      tally_zero.mpr (fun e inside => by rw [gone e inside]; rfl)
    have total := sliced.total
    have settling := sliced.settling
    rw [if_pos (by omega)] at settling
    omega

def fiveItems : Slicing := ⟨5,2,.guided,true,by decide,by decide,by decide⟩

-- The first executor gives item 0; the request comes, and while the second sweeps
-- up the rest the first overshoots.
def sweptRun : List SliceAction :=
  [SliceAction.start,.start]++List.replicate 2 (SliceAction.step 0 0 false)++
    [SliceAction.step 0 0 false,.step 0 0 false,.step 0 0 false,.step 0 0 false]++
    [SliceAction.step 0 0 false,.step 0 0 false,.request,.step 1 0 true,.step 1 0 false,.step 1 0 false,.step 0 0 false]++
    [SliceAction.step 1 0 false,.step 1 0 false,.step 1 0 false,.step 1 0 true,.step 1 0 false]

theorem slices_once_swept :
    let s := (sliceSystem id fiveItems).follow {} sweptRun
    s.given = [0] ∧ s.passed = [1,2,3,4] ∧ s.settles = [true] ∧ s.Once fiveItems :=
  ⟨by decide +kernel,by decide +kernel,by decide +kernel,
    slices_once fiveItems (Machines.reached_follow (m := sliceSystem id fiveItems) (.start rfl) (by decide +kernel))⟩

end Macrame

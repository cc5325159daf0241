import Mathlib.Algebra.Ring.Int.Defs
import Macrame.ClaimArithmetic

namespace Macrame
open Machines

namespace SliceState

def ClaimsFine (p : Slicing) : Prop := ∀ s, Reached (claimSystem p) s → s.Exact p

-- `next` is the last of the values it has had, all of them 32 bits wide.
theorem reached_held (path : Reached (claimSystem p) s) : s.next ∈ s.held ∧ (p.n ≤ intMax → InInt s.next) := by
  refine reached_invariant (fun s : SliceState => s.next ∈ s.held ∧ (p.n ≤ intMax → InInt s.next)) ?_ ?_ path
  · intro s begun
    change s = {} at begun
    subst begun
    exact ⟨List.mem_singleton.mpr rfl,fun _ => by decide⟩
  · rintro s a held -
    cases a with
    | step e claimed sees =>
      have last : ∀ next, next ∈ s.held++[next] := fun _ => List.mem_append_right _ (List.mem_singleton.mpr rfl)
      have whole : p.n ≤ intMax → InInt p.n := by
        have positive := p.positive
        intro small
        exact ⟨by unfold intMax; omega,small⟩
      change (s.step int32 p e claimed sees).next ∈ (s.step int32 p e claimed sees).held ∧
        (p.n ≤ intMax → InInt (s.step int32 p e claimed sees).next)
      unfold step
      cases s.stages e with
      | claiming grain => exact ⟨last _,fun _ => int32_in _⟩
      | sweeping =>
        simp only
        split
        · exact ⟨last _,whole⟩
        · exact ⟨last _,whole⟩
      | running start stop i =>
        simp only
        split
        · exact held
        · exact held
      | _ => exact held
    | _ => exact held

-- An executor that sees no token makes its next step.
theorem reached_next (path : Reached (claimSystem p) s) (within : e < s.crew) (stays : s.stages e ≠ .left) :
    Reached (claimSystem p) (s.step int32 p e s.next false) :=
  .step path (show (claimSystem p).allowed s (.step e s.next false) from ⟨⟨within,stays,(reached_held path).1,nofun⟩,rfl⟩)

-- What the others see of an executor between two of its claims.
structure Elsewhere (s t : SliceState) (e : Nat) : Prop where
  crew : t.crew = s.crew
  next : t.next = s.next
  others : ∀ f, f ≠ e → t.stages f = s.stages f

def Homes (p : Slicing) (s : SliceState) (e : Nat) : Prop :=
  ∃ t, Reached (claimSystem p) t ∧ Elsewhere s t e ∧ t.stages e = .claiming (p.grain s.next)

-- One step towards the next claim, whatever the executor does from there on.
theorem homes_after (later : SliceStage) (path : Reached (claimSystem p) s) (within : e < s.crew) (here : s.stages e = stage) (stays : stage ≠ .left)
    (frame : Frame s (s.step int32 p e s.next false) e later) (same : (s.step int32 p e s.next false).next = s.next)
    (onward : ∀ u, Reached (claimSystem p) u → e < u.crew → u.stages e = later → Homes p u e) : Homes p s e := by
  have inside : e < (s.step int32 p e s.next false).crew := by
    rw [frame.crew]
    exact within
  obtain ⟨t,reached,elsewhere,claims⟩ := onward _ (reached_next path within (by rw [here]; exact stays)) inside frame.self
  refine ⟨t,reached,⟨elsewhere.crew.trans frame.crew,elsewhere.next.trans same,?_⟩,by rw [claims,same]⟩
  intro f other
  rw [elsewhere.others f other,frame.other other]

theorem homes_loading (path : Reached (claimSystem p) s) (within : e < s.crew) (here : s.stages e = .loading) : Homes p s e := by
  have frame : Frame s (s.step int32 p e s.next false) e (.claiming (p.grain s.next)) := by
    unfold step
    rw [here]
    exact ⟨rfl,rfl⟩
  have same : (s.step int32 p e s.next false).next = s.next := by
    unfold step
    rw [here]
    rfl
  exact ⟨_,reached_next path within (by rw [here]; nofun),⟨frame.crew,same,fun f other => frame.other other⟩,frame.self⟩

theorem homes_looping (path : Reached (claimSystem p) s) (within : e < s.crew) (here : s.stages e = .looping) : Homes p s e :=
  homes_after _ path within here nofun (by unfold step; rw [here]; exact ⟨rfl,rfl⟩) (by unfold step; rw [here]; rfl)
    (fun _ => homes_loading)

theorem homes_settling (path : Reached (claimSystem p) s) (within : e < s.crew) (here : s.stages e = .settling) : Homes p s e := by
  refine homes_after (.finishing s.skipped) path within here nofun (by unfold step; rw [here]; exact ⟨rfl,rfl⟩)
    (by unfold step; rw [here]; rfl) ?_
  intro u reached inside finishing
  exact homes_after _ reached inside finishing nofun (by unfold step; rw [finishing]; exact ⟨rfl,rfl⟩)
    (by unfold step; rw [finishing]; rfl) (fun _ => homes_looping)

theorem homes_accounting (path : Reached (claimSystem p) s) (within : e < s.crew) (here : s.stages e = .accounting start stop) :
    Homes p s e := by
  have steps : s.step int32 p e s.next false = {s with done := int32 (s.done+(stop-start))}.setStage e
      (if int32 (s.done+(stop-start)) = p.n then .settling else .looping) := by
    unfold step
    rw [here]
  refine homes_after (if int32 (s.done+(stop-start)) = p.n then .settling else .looping) path within here nofun
    (by rw [steps]; exact ⟨rfl,rfl⟩) (by rw [steps]; rfl) ?_
  intro u reached inside later
  split at later
  · exact homes_settling reached inside later
  · exact homes_looping reached inside later

-- The items of the chunk, one after the other.
theorem homes_running (path : Reached (claimSystem p) s) (within : e < s.crew) (here : s.stages e = .running start stop i) :
    Homes p s e := by
  induction distance : (stop-i).toNat generalizing s i with
  | zero =>
    have steps : s.step int32 p e s.next false = s.setStage e (.accounting start stop) := by
      unfold step
      rw [here]
      exact if_neg (by omega)
    exact homes_after _ path within here nofun (by rw [steps]; exact ⟨rfl,rfl⟩) (by rw [steps]; rfl) (fun _ => homes_accounting)
  | succ k ih =>
    have steps : s.step int32 p e s.next false = {s with given := s.given++[i]}.setStage e (.running start stop (i+1)) := by
      unfold step
      rw [here]
      exact if_pos (by omega)
    exact homes_after _ path within here nofun (by rw [steps]; exact ⟨rfl,rfl⟩) (by rw [steps]; rfl)
      (fun u reached inside running => ih reached inside running (by omega))

theorem step_claiming {s : SliceState} (claimed : Int) (sees : Bool) (here : s.stages e = .claiming grain) : s.step int32 p e claimed sees =
    (s.store (int32 (s.next+grain))).setStage e
      (if p.n ≤ s.next then .left else .running s.next (min (int32 (s.next+grain)) p.n) s.next) := by
  unfold step
  rw [here]

-- An executor that gets a chunk comes back for the next one.
theorem again (fine : ClaimsFine p) (path : Reached (claimSystem p) s) (within : e < s.crew) (here : s.stages e = .claiming grain)
    (under : s.next < p.n) : ∃ t, Reached (claimSystem p) t ∧ t.crew = s.crew ∧ t.next = s.next+grain ∧
      (∀ f, f ≠ e → t.stages f = s.stages f) ∧ t.stages e = .claiming (p.grain (s.next+grain)) := by
  have steps := step_claiming (p := p) s.next false here
  rw [int32_of_in ((fine s path).stops e grain here under),if_neg (by omega)] at steps
  have frame : Frame s (s.step int32 p e s.next false) e (.running s.next (min (s.next+grain) p.n) s.next) := by
    rw [steps]
    exact ⟨rfl,rfl⟩
  have next : (s.step int32 p e s.next false).next = s.next+grain := by
    rw [steps]
    rfl
  have inside : e < (s.step int32 p e s.next false).crew := by
    rw [frame.crew]
    exact within
  obtain ⟨t,reached,elsewhere,claims⟩ := homes_running (reached_next path within (by rw [here]; nofun)) inside frame.self
  refine ⟨t,reached,elsewhere.crew.trans frame.crew,elsewhere.next.trans next,?_,by rw [claims,next]⟩
  intro f other
  rw [elsewhere.others f other,frame.other other]

-- Executors that all hold a grain claim one after the other: every one of them but
-- the first reads a sum, and one past the end of `int` reads as below zero.
theorem flood (fine : ClaimsFine p) (grain : Nat → Int) (crowd : List Nat) (path : Reached (claimSystem p) s) (apart : crowd.Nodup)
    (holds : ∀ e ∈ crowd, e < s.crew ∧ s.stages e = .claiming (grain e) ∧ 0 ≤ grain e ∧ grain e ≤ intMax)
    (fits : InInt s.next) (low : 0 ≤ s.next) : s.next+(crowd.dropLast.map grain).sum ≤ intMax := by
  induction crowd generalizing s with
  | nil => simpa using fits.2
  | cons e rest ih =>
    cases rest with
    | nil => simpa using fits.2
    | cons f more =>
      obtain ⟨within,here,least,most⟩ := holds e List.mem_cons_self
      have steps := step_claiming (p := p) s.next false here
      have stage := Frame.mk (s := s) (u := s.step int32 p e s.next false) (by rw [steps]; rfl) (by rw [steps]; rfl)
      have next : (s.step int32 p e s.next false).next = int32 (s.next+grain e) := by
        rw [steps]
        rfl
      have reached := reached_next path within (by rw [here]; nofun)
      obtain ⟨fresh,others⟩ := List.nodup_cons.mp apart
      have kept : ∀ g ∈ f :: more, (s.step int32 p e s.next false).stages g = s.stages g := by
        intro g member
        rw [stage.other (fun same => fresh (same ▸ member))]
      have still : ∀ g ∈ f :: more, g < (s.step int32 p e s.next false).crew ∧
          (s.step int32 p e s.next false).stages g = .claiming (grain g) ∧ 0 ≤ grain g ∧ grain g ≤ intMax := by
        intro g member
        rw [stage.crew,kept g member]
        exact holds g (List.mem_cons_of_mem _ member)
      by_cases past : intMax < s.next+grain e
      · -- `f` reads a negative start
        have high := fits.2
        have below := int32_past past (by omega)
        obtain ⟨inside,claims,-⟩ := still f List.mem_cons_self
        have positive := p.positive
        have acts := step_claiming (p := p) (s.step int32 p e s.next false).next false claims
        have runs := (fine _ (reached_next reached inside (by rw [claims]; nofun))).starts f
        rw [acts,next,if_neg (by omega)] at runs
        have bad := runs _ _ _ (Function.update_self ..)
        omega
      · have same : int32 (s.next+grain e) = s.next+grain e := int32_of_in ⟨by unfold intMax; omega,by omega⟩
        rw [same] at next
        have onward := ih reached others still (by rw [next]; exact ⟨by unfold intMax; omega,by omega⟩) (by rw [next]; omega)
        rw [next] at onward
        simp only [List.dropLast_cons_cons,List.map_cons,List.sum_cons]
        omega

-- As many executors as there may be, each about to add the first grain.
theorem lined (p : Slicing) (k : Nat) (room : (k : Int) ≤ p.workers) :
    ∃ s, Reached (claimSystem p) s ∧ s.crew = k ∧ s.next = 0 ∧ ∀ e, e < k → s.stages e = .claiming (p.grain 0) := by
  induction k with
  | zero => exact ⟨{},.start rfl,rfl,rfl,nofun⟩
  | succ k ih =>
    obtain ⟨s,path,crew,next,claims⟩ := ih (by omega)
    have begun : Reached (claimSystem p) (s.apply int32 p .start) :=
      .step path (show (claimSystem p).allowed s .start from ⟨trivial,by change (s.crew : Int) < _; omega⟩)
    have self : (s.apply int32 p .start).stages k = .looping := by
      rw [← crew]
      exact Function.update_self ..
    obtain ⟨t,reached,elsewhere,home⟩ := homes_looping begun (by change k < s.crew+1; omega) self
    have same : t.next = 0 := elsewhere.next.trans next
    refine ⟨t,reached,?_,same,?_⟩
    · rw [elsewhere.crew,← crew]
      rfl
    · intro e inside
      by_cases last : e = k
      · rw [last,home]
        change SliceStage.claiming (p.grain s.next) = _
        rw [next]
      · rw [elsewhere.others e last,← claims e (by omega)]
        exact Function.update_of_ne (by omega) ..

theorem fine_sums (fine : ClaimsFine p) : p.sumsFit := by
  have staffed := p.staffed
  have begun : Reached (claimSystem p) (({} : SliceState).apply int32 p .start) :=
    .step (.start rfl) (show (claimSystem p).allowed {} .start from ⟨trivial,by change ((0 : Nat) : Int) < _; omega⟩)
  have loads := reached_next (e := 0) begun (Nat.zero_lt_one) nofun
  have fits := ((fine _ loads).grains 0 rfl).1
  change claimGrainFits p.balance p.n 0 p.workers at fits
  unfold Slicing.sumsFit
  unfold claimGrainFits at fits
  cases here : p.balance with
  | unbalanced => trivial
  | balanced =>
    rw [here] at fits
    exact fits.1.2
  | guided =>
    rw [here] at fits
    exact fits.2.2

-- The first grain is within `int`, or the very first stop would not be.
theorem fine_grain (fine : ClaimsFine p) : p.grain 0 ≤ intMax := by
  have staffed := p.staffed
  have positive := p.positive
  obtain ⟨s,path,-,next,claims⟩ := lined p 1 (by omega)
  have stop := ((fine s path).stops 0 _ (claims 0 (by decide)) (by omega)).2
  omega

-- One executor takes every chunk while the others wait with their grains.
theorem fixed_reached (fine : ClaimsFine p) (fixed : p.balance ≠ .guided) (k : Nat)
    (chunks : k ≤ (p.n+p.grain 0-1)/p.grain 0) : ∃ s, Reached (claimSystem p) s ∧ s.crew = p.workers.toNat ∧
      s.next = k*p.grain 0 ∧ ∀ e, e < s.crew → s.stages e = .claiming (p.grain 0) := by
  have staffed := p.staffed
  have positive := p.grain_pos 0
  induction k with
  | zero =>
    obtain ⟨s,path,crew,next,claims⟩ := lined p p.workers.toNat (by omega)
    exact ⟨s,path,crew,by omega,by rw [crew]; exact claims⟩
  | succ k ih =>
    obtain ⟨s,path,crew,next,claims⟩ := ih (by omega)
    have under : s.next < p.n := by
      have split := Int.mul_ediv_add_emod (p.n+p.grain 0-1) (p.grain 0)
      have rest := Int.emod_nonneg (p.n+p.grain 0-1) (by omega : p.grain 0 ≠ 0)
      have most := Int.mul_le_mul_of_nonneg_right chunks (by omega : 0 ≤ p.grain 0)
      rw [Int.mul_comm (p.grain 0)] at split
      rw [Int.natCast_succ,Int.add_mul,Int.one_mul] at most
      omega
    obtain ⟨t,reached,same,after,others,home⟩ := again fine path (by omega : 0 < s.crew) (claims 0 (by omega)) under
    refine ⟨t,reached,same.trans crew,?_,?_⟩
    · rw [after,next,Int.natCast_succ,Int.add_mul,Int.one_mul]
    · intro e inside
      rw [same] at inside
      by_cases first : e = 0
      · rw [first,home,p.grain_fixed fixed]
      · rw [others e first]
        exact claims e inside

theorem sum_grains (grain : Nat → Int) (crowd : List Nat) (same : ∀ e ∈ crowd, grain e = g) :
    (crowd.map grain).sum = crowd.length*g := by
  induction crowd with
  | nil => simp
  | cons e rest ih =>
    rw [List.map_cons,List.sum_cons,same e List.mem_cons_self,ih (fun f member => same f (List.mem_cons_of_mem _ member)),
      List.length_cons,Int.natCast_succ,Int.add_mul,Int.one_mul,Int.add_comm]

theorem fine_fixed (small : p.n ≤ intMax) (fine : ClaimsFine p) (fixed : p.balance ≠ .guided) : p.crest ≤ intMax := by
  have staffed := p.staffed
  have positive := p.grain_pos 0
  have whole := fine_grain fine
  have count : 0 ≤ (p.n+p.grain 0-1)/p.grain 0 := Int.ediv_nonneg (by have := p.positive; omega) (by omega)
  obtain ⟨s,path,crew,next,claims⟩ := fixed_reached fine fixed ((p.n+p.grain 0-1)/p.grain 0).toNat (by omega)
  rw [Int.toNat_of_nonneg count,← p.brim_fixed fixed] at next
  have most := flood fine (fun _ => p.grain 0) (List.range p.workers.toNat) path List.nodup_range ?_
    ((reached_held path).2 small) (by have := p.n_le_brim; have := p.positive; omega)
  · have others : ((p.workers.toNat-1 : Nat) : Int) = p.workers-1 := by omega
    rw [sum_grains (g := p.grain 0) _ _ (fun _ _ => rfl),List.length_dropLast,List.length_range,others] at most
    unfold Slicing.crest
    omega
  · intro e member
    have inside := List.mem_range.mp member
    exact ⟨by omega,claims e (by omega),by omega,whole⟩

-- The first executor goes on alone until one item is left.
theorem guided_reached (fine : ClaimsFine p) (guided : p.balance = .guided) (paired : 2 ≤ p.workers) (under : tide < p.n) (low : 0 ≤ tide)
    (path : Reached (claimSystem p) s) (crew : s.crew = p.workers.toNat) (here : s.next = tide)
    (first : s.stages 0 = .claiming (p.grain tide)) (claims : ∀ e, e < s.crew → e ≠ 0 → s.stages e = .claiming (p.grain 0)) :
    ∃ t, Reached (claimSystem p) t ∧ t.crew = p.workers.toNat ∧ t.next = p.n-1 ∧ t.stages 0 = .claiming (p.grain (p.n-1)) ∧
      ∀ e, e < t.crew → e ≠ 0 → t.stages e = .claiming (p.grain 0) := by
  induction distance : (p.n-1-tide).toNat using Nat.strongRecOn generalizing s tide with
  | ind k ih =>
    by_cases last : tide = p.n-1
    · subst last
      exact ⟨s,path,crew,here,first,claims⟩
    · have positive := p.grain_pos tide
      have half : tide+p.grain tide < p.n := by
        have part := Int.mul_tdiv_self_le (k := 2*p.workers) (by omega : 0 ≤ p.n-tide)
        have least := Int.tdiv_nonneg (by omega : 0 ≤ p.n-tide) (by omega : 0 ≤ 2*p.workers)
        have four := Int.mul_le_mul_of_nonneg_right (by omega : 4 ≤ 2*p.workers) least
        unfold Slicing.grain claimGrainInt
        simp only [guided]
        split <;> omega
      obtain ⟨t,reached,same,after,others,home⟩ := again fine path (by omega) first (by omega)
      rw [here] at after home
      refine ih (p.n-1-(tide+p.grain tide)).toNat (by omega) half (by omega) reached (same.trans crew) after home ?_ rfl
      intro e inside other
      rw [same] at inside
      rw [others e other]
      exact claims e inside other

-- The last item goes to one that holds a first grain; the others follow, the first
-- executor and the one that got the last item with grain 1.
theorem fine_guided (small : p.n ≤ intMax) (fine : ClaimsFine p) (guided : p.balance = .guided) : p.crest ≤ intMax := by
  have staffed := p.staffed
  have positive := p.positive
  have least := p.grain_pos 0
  have whole := fine_grain fine
  have brim : p.brim = p.n := by
    unfold Slicing.brim
    rw [guided]
  by_cases single : p.workers = 1
  · unfold Slicing.crest
    rw [brim,single,Int.sub_self,Int.zero_mul,Int.add_zero]
    exact small
  · obtain ⟨r,start,crewed,zero,ready⟩ := lined p p.workers.toNat (by omega)
    obtain ⟨s,path,crew,next,first,claims⟩ := guided_reached fine guided (by omega) positive (Int.le_refl 0) start crewed zero
      (ready 0 (by omega)) (fun e inside _ => ready e (by omega))
    obtain ⟨t,reached,same,after,others,home⟩ := again fine path (by omega) (claims 1 (by omega) nofun) (by omega)
    have one : ∀ claimed, p.n-1 ≤ claimed → p.grain claimed = 1 := by
      intro claimed overrun
      have behind : (p.n-claimed).tdiv (2*p.workers) ≤ (1 : Int).tdiv (2*p.workers) :=
        Int.tdiv_le_tdiv (by omega) (by omega)
      have none : (1 : Int).tdiv (2*p.workers) = 0 := by
        rw [Int.tdiv_eq_ediv_of_nonneg (by decide)]
        exact Int.ediv_eq_zero_of_lt (by decide) (by omega)
      unfold Slicing.grain claimGrainInt
      simp only [guided]
      split <;> omega
    have holds : ∀ e, e < t.crew → t.stages e = .claiming (if e < 2 then 1 else p.grain 0) := by
      intro e inside
      by_cases second : e = 1
      · rw [second,home,one _ (by omega)]
        rfl
      · rw [others e second]
        by_cases lead : e = 0
        · rw [lead,first,one _ (Int.le_refl _)]
          rfl
        · rw [if_neg (by omega)]
          exact claims e (by omega) lead
    have most := flood fine (fun e => if e < 2 then 1 else p.grain 0) (List.range' 2 (p.workers.toNat-2)++[0,1])
      reached ?_ ?_ ((reached_held reached).2 small) (by omega)
    · rw [List.dropLast_append_of_ne_nil (by simp)] at most
      rw [List.map_append,List.sum_append,sum_grains (g := p.grain 0)] at most
      · simp only [List.length_range',List.dropLast_cons_cons,List.dropLast_singleton,List.map_cons,List.map_nil,List.sum_cons,
          List.sum_nil] at most
        have others : ((p.workers.toNat-2 : Nat) : Int) = p.workers-2 := by omega
        have split : (p.workers-1)*p.grain 0 = (p.workers-2)*p.grain 0+p.grain 0 := by
          rw [Int.sub_mul,Int.sub_mul]
          omega
        rw [others,if_pos (by decide)] at most
        unfold Slicing.crest
        omega
      · intro e member
        have inside := List.mem_range'_1.mp member
        exact if_neg (by omega)
    · refine List.nodup_append.mpr ⟨List.nodup_range',by decide,?_⟩
      intro e member f pair same
      have inside := List.mem_range'_1.mp member
      simp only [List.mem_cons,List.not_mem_nil,or_false] at pair
      omega
    · intro e member
      have inside : e < t.crew := by
        rcases List.mem_append.mp member with later | pair
        · have inside := List.mem_range'_1.mp later
          omega
        · simp only [List.mem_cons,List.not_mem_nil,or_false] at pair
          omega
      refine ⟨inside,holds e inside,?_⟩
      split <;> unfold intMax at * <;> omega

theorem claims_fine (small : p.n ≤ intMax) (fine : ClaimsFine p) : p.claimsFit := by
  refine ⟨fine_sums fine,?_⟩
  by_cases guided : p.balance = .guided
  · exact fine_guided small fine guided
  · exact fine_fixed small fine guided

end SliceState

-- The claim arithmetic is exact in every run or breaks in one, and the bounds on
-- the four numbers it starts from say which.
theorem claims_exact (p : Slicing) (small : p.n ≤ intMax) :
    (∀ s, Reached (claimSystem p) s → s.Exact p) ↔ p.claimsFit := by
  constructor
  · exact SliceState.claims_fine small
  · intro fits s path
    obtain ⟨tide,tidal⟩ := SliceState.reached_tidal fits.2 path
    exact tidal.exact fits

theorem claims_exact_five : fiveItems.claimsFit ∧ ∀ s, Reached (claimSystem fiveItems) s → s.Exact fiveItems :=
  have sums : fiveItems.sumsFit := show (2*2 : Int) ≤ intMax by decide
  ⟨⟨sums,by decide⟩,(claims_exact fiveItems (by decide)).mpr ⟨sums,by decide⟩⟩

def wholeRange : Slicing := ⟨2147483647,3,.guided,true,by decide,by decide,by decide⟩

-- Two executors hold their grains while the third sweeps everything up; the first
-- of them takes `next` past the end of `int` and the second acts on what it reads.
def overshotRun : List SliceAction :=
  [.start,.start,.start,.step 1 0 false,.step 1 0 false,.step 2 0 false,.step 2 0 false,.request,.step 0 0 true,.step 0 0 false,
    .step 1 2147483647 false,.step 2 (-1789569708) false,.step 2 (-1431655767) false]

def threeChunks : Slicing := ⟨1500000000,3,.balanced,false,by decide,by decide,by decide⟩

-- The body is called with a negative item; without a token three executors with
-- three chunks get as far.
theorem claims_overshoot :
    (∃ s, Reached (claimSystem wholeRange) s ∧ s.given = [-1789569708]) ∧
      ¬∀ s, Reached (claimSystem threeChunks) s → s.Exact threeChunks := by
  have admitted : (claimSystem wholeRange).admits {} overshotRun = true := by decide +kernel
  have given : ((claimSystem wholeRange).follow {} overshotRun).given = [-1789569708] := by decide +kernel
  refine ⟨⟨_,reached_follow (.start rfl) admitted,given⟩,?_⟩
  intro fine
  exact absurd (SliceState.claims_fine (by decide) fine).2 (by decide)

end Macrame

import Mathlib.Data.List.Basic

namespace Machines

-- An action machine: which states it may start in, which actions a state
-- admits, and what an admitted action does. Nothing here names a program.
structure Machine (σ α : Type) where
  start : σ → Prop
  allowed : σ → α → Prop
  apply : σ → α → σ

inductive Reached (m : Machine σ α) : σ → Prop where
  | start : m.start s → Reached m s
  | step : Reached m s → m.allowed s a → Reached m (m.apply s a)

inductive Runs (m : Machine σ α) : σ → List α → σ → Prop where
  | nil : Runs m s [] s
  | step : Runs m s earlier middle → m.allowed middle a → Runs m s (earlier++[a]) (m.apply middle a)

theorem reached_invariant {m : Machine σ α} (valid : σ → Prop)
    (initial : ∀ s, m.start s → valid s)
    (preserved : ∀ s a, valid s → m.allowed s a → valid (m.apply s a))
    (path : Reached m s) : valid s := by
  induction path with
  | start begun => exact initial _ begun
  | step _ allowed ih => exact preserved _ _ ih allowed

-- The same rule when one step may also use what is already known of every
-- reached state.
theorem reached_invariant_from {m : Machine σ α} (known : σ → Prop) (valid : σ → Prop)
    (always : ∀ s, Reached m s → known s)
    (initial : ∀ s, m.start s → valid s)
    (preserved : ∀ s a, known s → valid s → m.allowed s a → valid (m.apply s a))
    (path : Reached m s) : valid s := by
  induction path with
  | start begun => exact initial _ begun
  | step prior allowed ih => exact preserved _ _ (always _ prior) ih allowed

theorem runs_reached {m : Machine σ α} (path : Reached m s) (run : Runs m s actions t) : Reached m t := by
  induction run with
  | nil => exact path
  | step _ allowed ih => exact .step ih allowed

theorem Runs.append {m : Machine σ α} (first : Runs m r one s) (second : Runs m s two t) : Runs m r (one++two) t := by
  induction second with
  | nil => rwa [List.append_nil]
  | step _ allowed ih =>
    rw [← List.append_assoc]
    exact .step ih allowed

-- A relation that every step respects relates the two ends of every run.
theorem runs_related {m : Machine σ α} (related : σ → σ → Prop)
    (refl : ∀ s, related s s) (trans : ∀ r s t, related r s → related s t → related r t)
    (stepped : ∀ s a, Reached m s → m.allowed s a → related s (m.apply s a))
    (path : Reached m s) (run : Runs m s actions t) : related s t := by
  induction run with
  | nil => exact refl _
  | step prior allowed ih => exact trans _ _ _ ih (stepped _ _ (runs_reached path prior) allowed)

-- Every counted action is paid for out of a measure no action raises, so a run
-- has no more of them than the measure began with.
theorem runs_paid {m : Machine σ α} {inv : σ → Prop} (measure : σ → Nat) (counted : α → Bool)
    (kept : ∀ s a, inv s → m.allowed s a → inv (m.apply s a))
    (paid : ∀ s a, inv s → m.allowed s a → measure (m.apply s a)+(if counted a then 1 else 0) ≤ measure s)
    (begun : inv s) (run : Runs m s actions t) : measure t+actions.countP counted ≤ measure s := by
  suffices known : inv t ∧ measure t+actions.countP counted ≤ measure s from known.2
  induction run with
  | nil => exact ⟨begun,Nat.le_refl _⟩
  | step _ allowed ih =>
    have now := paid _ _ ih.1 allowed
    rw [List.countP_append,List.countP_singleton]
    exact ⟨kept _ _ ih.1 allowed,by omega⟩

-- A fixed schedule, and the test that every action of it is allowed in turn.
def Machine.follow (m : Machine σ α) (s : σ) (schedule : List α) : σ := schedule.foldl m.apply s

def Machine.admits (m : Machine σ α) [∀ s a, Decidable (m.allowed s a)] (s : σ) : List α → Bool
  | [] => true
  | a :: rest => decide (m.allowed s a) && m.admits (m.apply s a) rest

theorem reached_follow {m : Machine σ α} [∀ s a, Decidable (m.allowed s a)] (path : Reached m s)
    (admitted : m.admits s schedule = true) : Reached m (m.follow s schedule) := by
  induction schedule generalizing s with
  | nil => exact path
  | cons a rest ih =>
    simp only [Machine.admits,Bool.and_eq_true,decide_eq_true_eq] at admitted
    exact ih (.step path admitted.1) admitted.2

theorem runs_follow {m : Machine σ α} [∀ s a, Decidable (m.allowed s a)]
    (admitted : m.admits s schedule = true) : Runs m s schedule (m.follow s schedule) := by
  induction schedule generalizing s with
  | nil => exact .nil
  | cons a rest ih =>
    simp only [Machine.admits,Bool.and_eq_true,decide_eq_true_eq] at admitted
    have first : Runs m s [a] (m.apply s a) := .step .nil admitted.1
    exact first.append (ih admitted.2)

-- Every action of a schedule fits the state it is taken in.
def Machine.Each (m : Machine σ α) (fits : σ → α → Prop) (s : σ) : List α → Prop
  | [] => True
  | a :: rest => fits s a ∧ m.Each fits (m.apply s a) rest

instance decideEach (m : Machine σ α) (fits : σ → α → Prop) [∀ s a, Decidable (fits s a)] :
    (s : σ) → (schedule : List α) → Decidable (m.Each fits s schedule)
  | _,[] => inferInstanceAs (Decidable True)
  | s,a :: rest => @instDecidableAnd _ _ (inferInstanceAs (Decidable (fits s a))) (decideEach m fits (m.apply s a) rest)

-- A schedule's states, the first and the last among them, are all good.
def Machine.Throughout (m : Machine σ α) (good : σ → Prop) (s : σ) : List α → Prop
  | [] => good s
  | a :: rest => good s ∧ m.Throughout good (m.apply s a) rest

theorem throughout_of {m : Machine σ α} {good : σ → Prop} (inv : σ → Prop)
    (kept : ∀ s a, inv s → m.allowed s a → inv (m.apply s a)) (shown : ∀ s, inv s → good s) (begun : inv s)
    (run : m.Each m.allowed s schedule) : m.Throughout good s schedule := by
  induction schedule generalizing s with
  | nil => exact shown s begun
  | cons a rest ih => exact ⟨shown s begun,ih (kept s a begun run.1) run.2⟩

-- The same where the actions have to fit.
theorem throughout_while {m : Machine σ α} {fits : σ → α → Prop} {good : σ → Prop} (inv : σ → Prop)
    (kept : ∀ s a, inv s → m.allowed s a → fits s a → inv (m.apply s a)) (shown : ∀ s, inv s → good s) (begun : inv s)
    (run : m.Each m.allowed s schedule) (careful : m.Each fits s schedule) : m.Throughout good s schedule := by
  induction schedule generalizing s with
  | nil => exact shown s begun
  | cons a rest ih => exact ⟨shown s begun,ih (kept s a begun run.1 careful.1) run.2 careful.2⟩

theorem each_always {m : Machine σ α} {fits : σ → α → Prop} (always : ∀ s a, fits s a) : m.Each fits s schedule := by
  induction schedule generalizing s with
  | nil => trivial
  | cons a rest ih => exact ⟨always s a,ih⟩

theorem each_mono {m : Machine σ α} {one two : σ → α → Prop} (weaker : ∀ s a, one s a → two s a) (run : m.Each one s schedule) :
    m.Each two s schedule := by
  induction schedule generalizing s with
  | nil => trivial
  | cons a rest ih => exact ⟨weaker s a run.1,ih run.2⟩

theorem each_and {m : Machine σ α} {one two : σ → α → Prop} (first : m.Each one s schedule) (second : m.Each two s schedule) :
    m.Each (fun s a => one s a ∧ two s a) s schedule := by
  induction schedule generalizing s with
  | nil => trivial
  | cons a rest ih => exact ⟨⟨first.1,second.1⟩,ih first.2 second.2⟩

theorem each_of_throughout {m : Machine σ α} {good : σ → Prop} (all : m.Throughout good s schedule) :
    m.Each (fun s _ => good s) s schedule := by
  induction schedule generalizing s with
  | nil => trivial
  | cons a rest ih => exact ⟨all.1,ih all.2⟩

theorem follow_append (m : Machine σ α) : m.follow s (one++two) = m.follow (m.follow s one) two := List.foldl_append

theorem each_append {m : Machine σ α} {fits : σ → α → Prop} (first : m.Each fits s one)
    (second : m.Each fits (m.follow s one) two) : m.Each fits s (one++two) := by
  induction one generalizing s with
  | nil => exact second
  | cons a rest ih => exact ⟨first.1,ih first.2 second⟩

theorem each_split {m : Machine σ α} {fits : σ → α → Prop} (run : m.Each fits s (one++two)) :
    m.Each fits s one ∧ m.Each fits (m.follow s one) two := by
  induction one generalizing s with
  | nil => exact ⟨trivial,run⟩
  | cons a rest ih =>
    obtain ⟨first,second⟩ := ih run.2
    exact ⟨⟨run.1,first⟩,second⟩

theorem throughout_append {m : Machine σ α} {good : σ → Prop} (first : m.Throughout good s one)
    (second : m.Throughout good (m.follow s one) two) : m.Throughout good s (one++two) := by
  induction one generalizing s with
  | nil => exact second
  | cons a rest ih => exact ⟨first.1,ih first.2 second⟩

theorem throughout_last {m : Machine σ α} {good : σ → Prop} (all : m.Throughout good s schedule) :
    good (m.follow s schedule) := by
  induction schedule generalizing s with
  | nil => exact all
  | cons a rest ih => exact ih all.2

theorem each_of_admits {m : Machine σ α} [∀ s a, Decidable (m.allowed s a)] (admitted : m.admits s schedule = true) :
    m.Each m.allowed s schedule := by
  induction schedule generalizing s with
  | nil => trivial
  | cons a rest ih =>
    simp only [Machine.admits,Bool.and_eq_true,decide_eq_true_eq] at admitted
    exact ⟨admitted.1,ih admitted.2⟩

-- `inv` is what holds whatever the actions do; `clean` needs them to fit. An
-- action that does not fit shows at once.
theorem throughout_iff_each {m : Machine σ α} {fits : σ → α → Prop} {good : σ → Prop} (inv clean : σ → Prop)
    (kept : ∀ s a, inv s → m.allowed s a → inv (m.apply s a))
    (cleaned : ∀ s a, inv s → clean s → m.allowed s a → fits s a → clean (m.apply s a))
    (shown : ∀ s, inv s → clean s → good s)
    (spoilt : ∀ s a, inv s → m.allowed s a → good (m.apply s a) → fits s a)
    (begun : inv s) (fresh : clean s) (run : m.Each m.allowed s schedule) :
    m.Throughout good s schedule ↔ m.Each fits s schedule := by
  constructor
  · clear fresh
    induction schedule generalizing s with
    | nil => exact fun _ => trivial
    | cons a rest ih =>
      intro all
      have next : good (m.apply s a) := by
        cases rest with
        | nil => exact all.2
        | cons b more => exact all.2.1
      exact ⟨spoilt s a begun run.1 next,ih (kept s a begun run.1) run.2 all.2⟩
  · induction schedule generalizing s with
    | nil => exact fun _ => shown s begun fresh
    | cons a rest ih =>
      intro each
      exact ⟨shown s begun fresh,
        ih (kept s a begun run.1) (cleaned s a begun fresh run.1 each.1) run.2 each.2⟩

-- Under the view every step is one of the other machine's, or none.
theorem reached_view {m : Machine σ α} {n : Machine τ β} (view : σ → τ) (initial : ∀ s, m.start s → n.start (view s))
    (stepped : ∀ s a, m.allowed s a → view (m.apply s a) = view s ∨
      ∃ b, n.allowed (view s) b ∧ view (m.apply s a) = n.apply (view s) b)
    (path : Reached m s) : Reached n (view s) := by
  induction path with
  | start begun => exact .start (initial _ begun)
  | step _ allowed ih =>
    rcases stepped _ _ allowed with still | ⟨b,may,moved⟩
    · rw [still]
      exact ih
    · rw [moved]
      exact .step ih may

-- `small` does only what `big` may do: same effect, stricter guards.
structure Restricts (small big : Machine σ α) : Prop where
  start : ∀ s, small.start s → big.start s
  allowed : ∀ s a, small.allowed s a → big.allowed s a
  apply : ∀ s a, small.apply s a = big.apply s a

theorem Restricts.reached {small big : Machine σ α} (restricts : Restricts small big)
    (path : Reached small s) : Reached big s := by
  induction path with
  | start begun => exact .start (restricts.start _ begun)
  | step _ allowed ih =>
    rw [restricts.apply]
    exact .step ih (restricts.allowed _ _ allowed)

-- The machine whose actions also have to fit.
def Machine.under (m : Machine σ α) (fits : σ → α → Prop) : Machine σ α :=
  { m with allowed := fun s a => m.allowed s a ∧ fits s a }

end Machines

import Macrame.Awaiters
import Macrame.GraphCoherence

namespace Macrame

namespace State

variable {s : State} {a : Action}

-- A settled block stays settled until it starts another cycle.
theorem completed_kept (acc : Accounts s) (allowed : s.Allowed a) (unclaimed : a.claims ≠ some b)
    (completed : (s.blocks b).completed = true) : ((s.apply a).blocks b).completed = true := by
  have status := (acc.blocks b).cycle.completed
  have later := ((apply_accounts acc allowed).blocks b).cycle.completed
  simp only [footprint_block,footprint_progress] at status later
  have next := apply_next acc allowed b unclaimed
  rw [completed] at status
  rw [later,(apply_keeps s a b unclaimed).kind]
  generalize (s.progress b).status = before at next status
  generalize ((s.apply a).progress b).status = after at next ⊢
  cases next <;> first | exact status.symm | rfl | cases status

-- A made block is settled or in its cycle, whatever the tasks do.
theorem made_kept (acc : Accounts s) (allowed : s.Allowed a) (kind : (s.blocks b).kind ≠ .graphNode)
    (made : (s.blocks b).completed = true ∨ (s.progress b).status.resting = false)
    (anew : ∀ kind links token, a = .arm b kind links token → kind = .callerOwned) (unframed : a ≠ .createFrame b) :
    ((s.apply a).blocks b).kind ≠ .graphNode ∧
      (((s.apply a).blocks b).completed = true ∨ ((s.apply a).progress b).status.resting = false) := by
  by_cases claimed : a.claims = some b
  · cases a with
    | arm b' kind' links token =>
      cases claimed
      have owned := anew kind' links token rfl
      subst owned
      exact ⟨by simp [apply],.inr (by simp [apply,Status.resting])⟩
    | rebind b' links =>
      cases claimed
      have armed : (s.progress b).status = .armed := allowed.1
      exact ⟨by simpa [apply] using kind,.inr (by simp [apply,armed,Status.resting])⟩
    | launch b' =>
      cases claimed
      refine ⟨?_,.inr ?_⟩
      · simpa only [apply,(launch_links s b).2] using kind
      · rcases launch_status s b with ready | admitted | waiting
        · simp only [apply,ready]; rfl
        · simp only [apply,admitted]; rfl
        · simp only [apply,waiting]; rfl
    | tryInline b' =>
      cases claimed
      have armed : (s.progress b).status = .armed := allowed.1
      refine ⟨?_,.inr ?_⟩
      · simpa only [apply,(tryInline_links s b).2] using kind
      · simp only [apply,tryInline]
        split
        · simp [Status.resting]
        · simp [armed,Status.resting]
    | createFrame b' => exact absurd (by rw [Option.some.inj claimed]) unframed
    | settleBare b' cancel =>
      cases claimed
      exact ⟨by simpa [apply,setStatus] using kind,.inr (by simp [apply,setStatus,Status.resting])⟩
    | _ => cases claimed
  · refine ⟨by rw [(apply_keeps s a b claimed).kind]; exact kind,?_⟩
    rcases made with completed | busy
    · exact .inl (completed_kept acc allowed claimed completed)
    · have later := ((apply_accounts acc allowed).blocks b).cycle.completed
      have next := apply_next acc allowed b claimed
      simp only [footprint_block,footprint_progress] at later
      rw [later,(apply_keeps s a b claimed).kind]
      generalize (s.progress b).status = before at next busy
      generalize ((s.apply a).progress b).status = after at next ⊢
      cases next <;> simp_all [Status.settled,Status.resting]

theorem fireHold_granted (acc : Accounts s) (pending : .fireHold h ∈ s.pending) : ∃ p m o, s.holds h = .granted p m o := by
  have fired : 0 < (s.holdprint h).fired := List.count_pos_iff.mpr pending
  rw [(acc.holds h).fired,holdprint_hold] at fired
  cases shape : s.holds h with
  | granted p m o => exact ⟨p,m,o,rfl⟩
  | _ =>
    rw [shape] at fired
    exact absurd fired (Nat.lt_irrefl 0)

theorem granted_pending (acc : Accounts s) (granted : s.holds h = .granted p m o) : .fireHold h ∈ s.pending := by
  have fired := (acc.holds h).fired
  rw [holdprint_hold,granted] at fired
  exact List.count_pos_iff.mp (show 0 < (s.holdprint h).fired by rw [fired]; exact Nat.one_pos)

end State

namespace Awaiter

variable (c : Awaiter)

-- The pipes below `low` are held for the await, those from `high` on have not
-- been asked for.
def Spread (s : State) (low high : Nat) : Prop :=
  ∀ j t, c.awaited.targets[j]? = some t →
    (j < low → s.holds t.hold = .held t.pipe c.awaited.mode c.owner) ∧ (high ≤ j → s.holds t.hold = .idle)

def AllHeld (s : State) : Prop := ∀ t ∈ c.awaited.targets, s.holds t.hold = .held t.pipe c.awaited.mode c.owner

variable {c} {s s' : State} {t : AwaitTarget} {j k low high : Nat}

theorem Spread.all (spread : c.Spread s low high) (whole : c.awaited.targets.length ≤ low) : c.AllHeld s := by
  intro t member
  obtain ⟨j,place⟩ := List.mem_iff_getElem?.mp member
  obtain ⟨inside,_⟩ := List.getElem?_eq_some_iff.mp place
  exact (spread j t place).1 (Nat.lt_of_lt_of_le inside whole)

theorem holds_apart (one : c.awaited.targets[j]? = some t) (two : c.awaited.targets[k]? = some u)
    (same : t.hold = u.hold) : j = k := by
  have first : (c.awaited.targets.map AwaitTarget.hold)[j]? = some t.hold := by rw [List.getElem?_map,one]; rfl
  have second : (c.awaited.targets.map AwaitTarget.hold)[k]? = some t.hold := by rw [List.getElem?_map,two,same]; rfl
  obtain ⟨inside,_⟩ := List.getElem?_eq_some_iff.mp first
  exact (List.getElem?_inj inside c.apart).mp (first.trans second.symm)

theorem Spread.kept (spread : c.Spread s low high)
    (still : ∀ t ∈ c.awaited.targets, Hold.Next (s.holds t.hold) (s'.holds t.hold)) : c.Spread s' low high := by
  intro j t place
  have next := still t (List.mem_of_getElem? place)
  refine ⟨?_,?_⟩
  · intro below
    rw [(spread j t place).1 below] at next
    generalize s'.holds t.hold = after at next ⊢
    cases next
    rfl
  · intro above
    rw [(spread j t place).2 above] at next
    generalize s'.holds t.hold = after at next ⊢
    cases next
    rfl

theorem AllHeld.kept (held : c.AllHeld s)
    (still : ∀ t ∈ c.awaited.targets, Hold.Next (s.holds t.hold) (s'.holds t.hold)) : c.AllHeld s' := by
  intro t member
  have next := still t member
  rw [held t member] at next
  generalize s'.holds t.hold = after at next ⊢
  cases next
  rfl

-- One more pipe is held.
theorem Spread.next (spread : c.Spread s k (k+1)) (place : c.awaited.targets[k]? = some t)
    (held : s.holds t.hold = .held t.pipe c.awaited.mode c.owner) : c.Spread s (k+1) (k+1) := by
  intro j u there
  refine ⟨?_,(spread j u there).2⟩
  intro below
  rcases Nat.lt_succ_iff_lt_or_eq.mp below with earlier | rfl
  · exact (spread j u there).1 earlier
  · cases place.symm.trans there
    exact held

theorem Spread.moved (spread : c.Spread s k high) (place : c.awaited.targets[k]? = some t) (most : high ≤ k+1)
    (others : ∀ h, h ≠ t.hold → s'.holds h = s.holds h) : c.Spread s' k (k+1) := by
  intro j u there
  have apart : j ≠ k → u.hold ≠ t.hold := fun other same => other (holds_apart there place same)
  refine ⟨?_,?_⟩
  · intro below
    rw [others _ (apart (Nat.ne_of_lt below))]
    exact (spread j u there).1 below
  · intro above
    rw [others _ (apart (Nat.ne_of_gt above))]
    exact (spread j u there).2 (Nat.le_trans most above)

theorem acquire_spread (spread : c.Spread s k k) (place : c.awaited.targets[k]? = some t) :
    s.Allowed (.acquire t.hold t.pipe c.awaited.mode c.owner) ∧
    c.Spread (s.apply (.acquire t.hold t.pipe c.awaited.mode c.owner)) k (k+1) ∧
      ((s.apply (.acquire t.hold t.pipe c.awaited.mode c.owner)).holds t.hold = .held t.pipe c.awaited.mode c.owner ∨
        (s.apply (.acquire t.hold t.pipe c.awaited.mode c.owner)).holds t.hold = .queued t.pipe c.awaited.mode c.owner) := by
  refine ⟨(spread k t place).2 (Nat.le_refl k),spread.moved place (Nat.le_succ k) ?_,?_⟩
  · intro h other
    simp [State.apply,State.acquire,other]
  · simp only [State.apply,State.acquire,State.setHold_holds,Function.update_self]
    split
    · exact .inl rfl
    · exact .inr rfl

theorem fireHold_spread (acc : Accounts s) (spread : c.Spread s k (k+1)) (place : c.awaited.targets[k]? = some t)
    (pending : .fireHold t.hold ∈ s.pending)
    (waits : s.holds t.hold = .queued t.pipe c.awaited.mode c.owner ∨
      s.holds t.hold = .granted t.pipe c.awaited.mode c.owner) :
    c.Spread (s.apply (.resume (.fireHold t.hold))) (k+1) (k+1) := by
  have granted : s.holds t.hold = .granted t.pipe c.awaited.mode c.owner := by
    obtain ⟨p,m,o,granted⟩ := State.fireHold_granted acc pending
    rcases waits with queued | same
    · rw [granted] at queued
      cases queued
    · exact same
  have shape : (s.apply (.resume (.fireHold t.hold))).holds =
      Function.update s.holds t.hold (.held t.pipe c.awaited.mode c.owner) := by
    simp only [State.apply,State.runFrame,State.fireHold,State.drop_holds,granted]
    rfl
  refine Spread.next (spread.moved place (Nat.le_refl _) ?_) place ?_
  · intro h other
    rw [shape]
    exact Function.update_of_ne other _ _
  · rw [shape,Function.update_self]

end Awaiter

namespace Suspender

def early : Suspender → Bool
  | .noting _ => false
  | .publishing => false
  | .reentering => false
  | .returning => false
  | .continued => false
  | .suspended => false
  | _ => true

-- Between the registration of the callback and the exchange.
def publishes : Suspender → Bool
  | .noting _ => true
  | .publishing => true
  | _ => false

-- Bound to return false.
def goesOn : Suspender → Bool
  | .reentering => true
  | .returning => true
  | .continued => true
  | _ => false

def exited : Suspender → Bool
  | .recording => false
  | .exiting => false
  | _ => true

def reentered : Suspender → Bool
  | .returning => true
  | .continued => true
  | _ => false

def frontier : Suspender → Nat
  | .driving k => k
  | _ => 0

-- Each awaiter goes through positions of its own.
def suits (c : Awaiter) : Suspender → Prop
  | .capturing => ∃ mode targets, c.awaited = .multi mode targets
  | .attaching => ∃ b, c.awaited = .task b
  | .calling => ∃ b, c.awaited = .task b
  | .driving k => (∃ mode targets, c.awaited = .multi mode targets) ∧ k ≤ c.awaited.targets.length ∨
      (∃ mode t, c.awaited = .access mode t) ∧ k = 0
  | _ => True

end Suspender

namespace Awaiting

-- No resume has been asked for.
structure Calm (w : Awaiting) : Prop where
  items : w.items = 0
  thunks : w.thunks = 0
  scheduled : w.scheduled = 0
  resumed : w.resumed = 0

-- What is awaited is there: the task has settled, the pipes are held.
def Ready (c : Awaiter) (w : Awaiting) : Prop := w.settled = true ∧ c.AllHeld w.base

-- The callback is registered and has not come to its exchange.
inductive Registered (c : Awaiter) (w : Awaiting) : Prop where
  | attached (b : BlockId) : c.awaited = .task b → w.callback = .attached → c.awaited.completed w.base = false →
      Registered c w
  | moved (b : BlockId) : c.awaited = .task b → w.callback = .moved → w.settled = true → Registered c w
  | queued (k : Nat) (t : AwaitTarget) : w.callback = .queued k → c.awaited.targets[k]? = some t →
      w.base.holds t.hold = .queued t.pipe c.awaited.mode c.owner ∨
        w.base.holds t.hold = .granted t.pipe c.awaited.mode c.owner →
      c.Spread w.base k (k+1) → w.settled = true → Registered c w
  | driving (k : Nat) : w.callback = .driving k → k ≤ c.awaited.targets.length → c.Spread w.base k k →
      w.settled = true → Registered c w

-- Where the two parties stand with the handshake, and who is to go on with the
-- frame.
inductive Standing (c : Awaiter) (w : Awaiting) : Prop where
  | early : w.suspender.early = true → w.suspender.suits c → w.word = .open_ → w.callback = .unattached → w.Calm →
      c.Spread w.base w.suspender.frontier w.suspender.frontier → (w.suspender = .calling → w.settled = true) →
      Standing c w
  | registered : w.suspender.publishes = true → w.word = .open_ → w.Calm → Registered c w → Standing c w
  | fired : w.suspender.publishes = true → w.word = .fired → w.callback = .unattached ∨ w.callback = .finished →
      w.Calm → Ready c w → Standing c w
  | waits : w.suspender = .suspended → w.word = .suspended → w.Calm → Registered c w → Standing c w
  | wins : w.suspender = .suspended → w.callback = .winning → w.Calm → Ready c w → Standing c w
  | resumes : w.suspender = .suspended → w.callback = .finished → w.scheduled = 1 →
      w.items+w.thunks+w.resumed = 1 → (w.resumed = 0 → Ready c w) → Standing c w
  | returns : w.suspender.goesOn = true → w.callback = .unattached ∨ w.callback = .finished → w.Calm →
      (w.suspender ≠ .continued → Ready c w) → Standing c w

-- The segment is left once and entered once, on whichever side the frame goes on.
def trace (c : Awaiter) (w : Awaiting) : List SegmentStep :=
  (if w.suspender.exited = true then c.bracket .exit else [])++
    (if w.suspender.reentered = true ∨ 0 < w.thunks+w.resumed then c.bracket .enter else [])

structure Sound (c : Awaiter) (w : Awaiting) : Prop where
  base : Machines.Reached system w.base
  made : w.continues = 0 → c.Made w.base
  seen : c.awaited.completed w.base = true → w.settled = true
  traced : w.segments = trace c w
  standing : Standing c w

variable {c : Awaiter} {w : Awaiting} {base : State}

@[simp] theorem step_base : (w.step c base).base = base := rfl
@[simp] theorem step_suspender : (w.step c base).suspender = w.suspender := rfl
@[simp] theorem step_word : (w.step c base).word = w.word := rfl
@[simp] theorem step_leaving : (w.step c base).leaving = w.leaving := rfl
@[simp] theorem step_items : (w.step c base).items = w.items := rfl
@[simp] theorem step_thunks : (w.step c base).thunks = w.thunks := rfl
@[simp] theorem step_scheduled : (w.step c base).scheduled = w.scheduled := rfl
@[simp] theorem step_resumed : (w.step c base).resumed = w.resumed := rfl
@[simp] theorem step_segments : (w.step c base).segments = w.segments := rfl
@[simp] theorem step_settled : (w.step c base).settled = (w.settled || c.awaited.completed base) := rfl

theorem step_callback (other : w.callback ≠ .attached) : (w.step c base).callback = w.callback := by
  unfold step
  cases c.awaited <;> simp [other]

theorem Calm.step (calm : w.Calm) : (w.step c base).Calm := ⟨calm.items,calm.thunks,calm.scheduled,calm.resumed⟩

theorem Calm.goTo (calm : w.Calm) (next : Suspender) : (w.goTo next).Calm :=
  ⟨calm.items,calm.thunks,calm.scheduled,calm.resumed⟩

section Base

variable (still : ∀ t ∈ c.awaited.targets, Hold.Next (w.base.holds t.hold) (base.holds t.hold))
include still

theorem Ready.step (ready : Ready c w) : Ready c (w.step c base) :=
  ⟨by rw [step_settled,ready.1,Bool.true_or],ready.2.kept still⟩

theorem Registered.step (registered : Registered c w) (made : c.Made base) : Registered c (w.step c base) := by
  cases registered with
  | attached b task here incomplete =>
    cases completed : c.awaited.completed base with
    | false =>
      refine .attached b task ?_ completed
      simp [Awaiting.step,task,here,task ▸ completed]
    | true =>
      refine .moved b task ?_ (by rw [step_settled,completed,Bool.or_true])
      have kind := (made b task).1
      simp [Awaiting.step,task,here,task ▸ completed,kind]
  | moved b task here settled =>
    exact .moved b task ((step_callback (by rw [here]; simp)).trans here) (by rw [step_settled,settled,Bool.true_or])
  | queued k t here place waits spread settled =>
    refine .queued k t ((step_callback (by rw [here]; simp)).trans here) place ?_ (spread.kept still)
      (by rw [step_settled,settled,Bool.true_or])
    have next := still t (List.mem_of_getElem? place)
    rw [step_base]
    generalize base.holds t.hold = after at next ⊢
    rcases waits with queued | granted
    · rw [queued] at next
      cases next
      · exact .inl rfl
      · exact .inr rfl
    · rw [granted] at next
      cases next
      exact .inr rfl
  | driving k here bounded spread settled =>
    exact .driving k ((step_callback (by rw [here]; simp)).trans here) bounded (spread.kept still)
      (by rw [step_settled,settled,Bool.true_or])

theorem Standing.step (standing : Standing c w) (made : c.Made base) : Standing c (w.step c base) := by
  have over_ : ∀ callback : Callback, callback ≠ .attached → w.callback = callback → (w.step c base).callback = callback :=
    fun _ other here => (step_callback (by rw [here]; exact other)).trans here
  have idle : w.callback = .unattached ∨ w.callback = .finished →
      (w.step c base).callback = .unattached ∨ (w.step c base).callback = .finished :=
    Or.imp (over_ _ (by simp)) (over_ _ (by simp))
  cases standing with
  | early early suits word unattached calm spread calling =>
    refine .early early suits word (over_ _ (by simp) unattached) calm.step (spread.kept still) ?_
    intro here
    rw [step_settled,calling here,Bool.true_or]
  | registered publishes word calm registered =>
    exact .registered publishes word calm.step (registered.step still made)
  | fired publishes word callback calm ready => exact .fired publishes word (idle callback) calm.step (ready.step still)
  | waits suspended word calm registered => exact .waits suspended word calm.step (registered.step still made)
  | wins suspended winning calm ready => exact .wins suspended (over_ _ (by simp) winning) calm.step (ready.step still)
  | resumes suspended finished scheduled one ready =>
    exact .resumes suspended (over_ _ (by simp) finished) scheduled one (fun none_yet => (ready none_yet).step still)
  | returns goesOn callback calm ready =>
    exact .returns goesOn (idle callback) calm.step (fun going => (ready going).step still)

end Base

theorem Registered.alike (registered : Registered c w) {v : Awaiting} (base : v.base = w.base)
    (callback : v.callback = w.callback) (settled : v.settled = w.settled) : Registered c v := by
  cases registered with
  | attached b task here incomplete => exact .attached b task (callback.trans here) (base ▸ incomplete)
  | moved b task here done => exact .moved b task (callback.trans here) (settled.trans done)
  | queued k t here place waits spread done =>
    exact .queued k t (callback.trans here) place (base ▸ waits) (base ▸ spread) (settled.trans done)
  | driving k here bounded spread done =>
    exact .driving k (callback.trans here) bounded (base ▸ spread) (settled.trans done)

-- Once the frame has gone on the tasks may do with its holds what they like.
theorem Standing.gone (standing : Standing c w) (gone : w.continues ≠ 0) : Standing c (w.step c base) := by
  cases standing with
  | resumes suspended finished scheduled one ready =>
    have resumed : w.resumed ≠ 0 := by
      intro none_yet
      simp [continues,suspended,none_yet] at gone
    exact .resumes suspended ((step_callback (by rw [finished]; simp)).trans finished) scheduled one
      (fun none_yet => absurd none_yet resumed)
  | returns goesOn callback calm ready =>
    have continued : w.suspender = .continued := by
      by_contra other
      simp [continues,calm.resumed,other] at gone
    refine .returns goesOn ?_ calm.step (fun going => absurd continued going)
    rcases callback with unattached | finished
    · exact .inl ((step_callback (by rw [unattached]; simp)).trans unattached)
    · exact .inr ((step_callback (by rw [finished]; simp)).trans finished)
  | early early _ _ _ calm =>
    cases here : w.suspender <;> simp_all [continues,calm.resumed,Suspender.early]
  | registered publishes _ calm | fired publishes _ _ calm =>
    cases here : w.suspender <;> simp_all [continues,calm.resumed,Suspender.publishes]
  | waits suspended _ calm | wins suspended _ calm => simp [continues,calm.resumed,suspended] at gone

theorem Sound.base_step {a : Action} (sound : Sound c w) (allowed : w.Allowed c (.base a)) :
    Sound c (w.step c (w.base.apply a)) := by
  obtain ⟨may,careful⟩ := allowed
  have acc := reached_accounts sound.base
  have made : w.continues = 0 → c.Made (w.base.apply a) := by
    intro going b task
    have pins := (careful going).1
    obtain ⟨kind,busy⟩ := sound.made going b task
    refine State.made_kept acc may kind busy ?_ ?_
    · rintro kind' links token rfl
      simp only [Awaiter.pins,task,bne_self_eq_false,Bool.false_or,Bool.and_eq_true,beq_iff_eq] at pins
      exact pins.1
    · rintro rfl
      simp [Awaiter.pins,task] at pins
  refine ⟨.step sound.base (show system.allowed w.base a from may),made,?_,sound.traced,?_⟩
  · intro completed
    rw [step_settled,show c.awaited.completed (w.base.apply a) = true from completed,Bool.or_true]
  · by_cases going : w.continues = 0
    · exact sound.standing.step (fun t member => State.apply_hold w.base a t.hold ((careful going).2 t member)) (made going)
    · exact sound.standing.gone going

-- What an acquire of the next pipe comes to.
theorem acquire_facts (sound : Sound c w) (going : w.continues = 0) (spread : c.Spread w.base k k)
    (place : c.awaited.targets[k]? = some t) :
    Machines.Reached system (w.acquire c t).base ∧ c.Made (w.acquire c t).base ∧ c.Spread (w.acquire c t).base k (k+1) ∧
    (((w.acquire c t).base.holds t.hold).taken = true ∧ c.Spread (w.acquire c t).base (k+1) (k+1) ∨
      ((w.acquire c t).base.holds t.hold).taken ≠ true ∧
        (w.acquire c t).base.holds t.hold = .queued t.pipe c.awaited.mode c.owner) := by
  obtain ⟨may,further,outcome⟩ := Awaiter.acquire_spread spread place
  refine ⟨.step sound.base (show system.allowed w.base _ from may),?_,further,?_⟩
  · intro b task
    obtain ⟨kind,busy⟩ := sound.made going b task
    exact State.made_kept (reached_accounts sound.base) may kind busy (by simp) (by simp)
  · rcases outcome with held | queued
    · exact .inl ⟨by simp only [acquire,step_base,held]; rfl,further.next place held⟩
    · refine .inr ⟨?_,queued⟩
      simp only [acquire,step_base,queued]
      simp [Hold.taken]

theorem Calm.going (calm : w.Calm) (other : w.suspender ≠ .continued) : w.continues = 0 := by
  simp [continues,other,calm.resumed]

theorem Sound.guards (sound : Sound c w) (guard : ∀ b, c.awaited ≠ .task b) : w.settled = true := by
  refine sound.seen ?_
  cases awaited : c.awaited with
  | task b => exact absurd awaited (guard b)
  | _ => rfl

section Suspend

variable (sound : Sound c w)
include sound

-- A step of `await_suspend` that leaves the tasks alone.
theorem Sound.unmoved {v : Awaiting} (base : v.base = w.base) (settled : v.settled = w.settled)
    (before : v.continues = 0 → w.continues = 0) (traced : v.segments = trace c v) (standing : Standing c v) : Sound c v :=
  ⟨base ▸ sound.base,fun going => base ▸ sound.made (before going),fun completed => settled.trans (sound.seen (base ▸ completed)),traced,
    standing⟩

theorem early_facts (early : w.suspender.early = true) :
    w.suspender.suits c ∧ w.word = .open_ ∧ w.callback = .unattached ∧ w.Calm ∧
      c.Spread w.base w.suspender.frontier w.suspender.frontier ∧ (w.suspender = .calling → w.settled = true) := by
  cases sound.standing with
  | early _ suits word unattached calm spread calling => exact ⟨suits,word,unattached,calm,spread,calling⟩
  | registered publishes | fired publishes =>
    cases here : w.suspender <;> simp_all [Suspender.early,Suspender.publishes]
  | waits suspended | wins suspended | resumes suspended => rw [suspended] at early; cases early
  | returns goesOn => cases here : w.suspender <;> simp_all [Suspender.early,Suspender.goesOn]

theorem publishes_facts (publishes : w.suspender.publishes = true) :
    w.Calm ∧ (w.word = .open_ ∧ Registered c w ∨
      w.word = .fired ∧ (w.callback = .unattached ∨ w.callback = .finished) ∧ Ready c w) := by
  cases sound.standing with
  | registered _ word calm registered => exact ⟨calm,.inl ⟨word,registered⟩⟩
  | fired _ word callback calm ready => exact ⟨calm,.inr ⟨word,callback,ready⟩⟩
  | early early | returns goesOn =>
    cases here : w.suspender <;> simp_all [Suspender.early,Suspender.publishes,Suspender.goesOn]
  | waits suspended | wins suspended | resumes suspended => rw [suspended] at publishes; cases publishes

theorem goesOn_facts (goesOn : w.suspender.goesOn = true) :
    (w.callback = .unattached ∨ w.callback = .finished) ∧ w.Calm ∧ (w.suspender ≠ .continued → Ready c w) := by
  cases sound.standing with
  | returns _ callback calm ready => exact ⟨callback,calm,ready⟩
  | early early => cases here : w.suspender <;> simp_all [Suspender.early,Suspender.goesOn]
  | registered publishes | fired publishes => cases here : w.suspender <;> simp_all [Suspender.publishes,Suspender.goesOn]
  | waits suspended | wins suspended | resumes suspended => rw [suspended] at goesOn; cases goesOn

theorem Sound.traced_on {v : Awaiting} (exited : v.suspender.exited = w.suspender.exited)
    (reentered : v.suspender.reentered = w.suspender.reentered) (resumes : v.thunks+v.resumed = w.thunks+w.resumed)
    (segments : v.segments = w.segments) : v.segments = trace c v := by
  rw [segments,sound.traced,trace,trace,exited,reentered,resumes]

-- The callback on the awaiting thread itself: the frame is not suspended yet.
theorem fire_sound (early : w.suspender.early = true) (exited : w.suspender.exited = true) (ready : Ready c w) :
    Sound c (w.fire.goTo .publishing) := by
  obtain ⟨_,word,unattached,calm,_,_⟩ := early_facts sound early
  have shape : w.fire.goTo .publishing = {w with word := .fired,suspender := .publishing} := by
    simp [fire,word,goTo]
  rw [shape]
  have reentered : w.suspender.reentered = false := by
    cases here : w.suspender <;> simp_all [Suspender.early,Suspender.reentered]
  refine sound.unmoved rfl rfl (fun _ => calm.going ?_) (sound.traced_on exited.symm reentered.symm rfl rfl)
    (.fired rfl rfl (.inl unattached) ⟨calm.items,calm.thunks,calm.scheduled,calm.resumed⟩ ready)
  intro continued
  rw [continued] at early
  cases early

-- One position on, with nothing asked for yet.
theorem early_sound (early : w.suspender.early = true) (zero : w.suspender.frontier = 0) (next : Suspender)
    (next_early : next.early = true) (next_zero : next.frontier = 0) (suits : next.suits c)
    (calling : next = .calling → w.settled = true) (v : Awaiting) (shape : {v with segments := w.segments} = w.goTo next)
    (traced : v.segments = trace c v) : Sound c v := by
  obtain ⟨_,word,unattached,calm,spread,_⟩ := early_facts sound early
  have other : w.suspender ≠ .continued := by
    intro continued
    rw [continued] at early
    cases early
  obtain ⟨base,suspender,word',callback,leaving,items,thunks,scheduled,resumed,segments,settled⟩ := v
  cases shape
  refine sound.unmoved rfl rfl (fun _ => calm.going other) traced (.early next_early suits word unattached
    ⟨calm.items,calm.thunks,calm.scheduled,calm.resumed⟩ ?_ calling)
  rw [zero] at spread
  simpa [next_zero] using spread

theorem exiting_traced (here : w.suspender = .exiting) (next : Suspender) (exited : next.exited = true)
    (early : next.reentered = false) : ((w.segment c .exit).goTo next).segments = trace c ((w.segment c .exit).goTo next) := by
  obtain ⟨_,_,_,calm,_,_⟩ := early_facts sound (by rw [here]; rfl)
  have before := sound.traced
  simp only [trace,here,Suspender.exited,Suspender.reentered,calm.thunks,calm.resumed] at before
  simp [segment,goTo,trace,before,exited,early,calm.thunks,calm.resumed]

theorem exit_sound (here : w.suspender = .exiting) : Sound c (w.suspend c) := by
  have early : w.suspender.early = true := by rw [here]; rfl
  have zero : w.suspender.frontier = 0 := by rw [here]; rfl
  unfold suspend
  rw [here]
  cases awaited : c.awaited with
  | task b =>
    exact early_sound sound early zero .attaching rfl rfl ⟨b,awaited⟩ (by simp) _ rfl (exiting_traced sound here _ rfl rfl)
  | access mode t =>
    exact early_sound sound early zero (.driving 0) rfl rfl (.inr ⟨⟨mode,t,awaited⟩,rfl⟩) (by simp) _ rfl
      (exiting_traced sound here _ rfl rfl)
  | multi mode targets =>
    exact early_sound sound early zero .capturing rfl rfl ⟨mode,targets,awaited⟩ (by simp) _ rfl
      (exiting_traced sound here _ rfl rfl)

theorem attach_sound (here : w.suspender = .attaching) : Sound c (w.suspend c) := by
  have early : w.suspender.early = true := by rw [here]; rfl
  obtain ⟨suits,word,unattached,calm,spread,_⟩ := early_facts sound early
  rw [here] at suits
  obtain ⟨b,task⟩ := suits
  unfold suspend
  rw [here]
  by_cases completed : c.awaited.completed w.base = true
  · simp only [if_pos completed]
    refine early_sound sound early (by rw [here]; rfl) .calling rfl rfl ⟨b,task⟩ (fun _ => sound.seen completed) _ rfl ?_
    exact sound.traced_on (by rw [here]; rfl) (by rw [here]; rfl) rfl rfl
  · simp only [if_neg completed]
    have incomplete : c.awaited.completed w.base = false := by simpa using completed
    refine sound.unmoved rfl rfl (fun _ => calm.going (by rw [here]; simp)) ?_
      (.registered rfl word ⟨calm.items,calm.thunks,calm.scheduled,calm.resumed⟩ (.attached b task rfl incomplete))
    exact sound.traced_on (by rw [here]; rfl) (by rw [here]; rfl) rfl rfl

-- The awaiting thread asks for the next pipe.
theorem drive_sound (here : w.suspender = .driving k) : Sound c (w.suspend c) := by
  have early : w.suspender.early = true := by rw [here]; rfl
  obtain ⟨suits,word,unattached,calm,spread,_⟩ := early_facts sound early
  have going : w.continues = 0 := calm.going (by rw [here]; simp)
  rw [here] at suits spread
  have guard : ∀ b, c.awaited ≠ .task b := by
    rintro b task
    rcases suits with ⟨⟨mode,targets,multi⟩,_⟩ | ⟨⟨mode,t,access⟩,_⟩
    · rw [task] at multi; cases multi
    · rw [task] at access; cases access
  have settled := sound.guards guard
  cases place : c.awaited.targets[k]? with
  | none =>
    have shape : w.suspend c = w.fire.goTo .publishing := by simp only [suspend,here,place]
    rw [shape]
    exact fire_sound sound early (by rw [here]; rfl) ⟨settled,spread.all (List.getElem?_eq_none_iff.mp place)⟩
  | some t =>
    obtain ⟨inside,_⟩ := List.getElem?_eq_some_iff.mp place
    obtain ⟨path,made,further,outcome⟩ := acquire_facts sound going spread place
    have callback : (w.acquire c t).callback = .unattached := (step_callback (by rw [unattached]; simp)).trans unattached
    have calm' : (w.acquire c t).Calm := calm.step
    have settled' : (w.acquire c t).settled = true := by rw [acquire,step_settled,settled,Bool.true_or]
    have traced : ∀ v : Awaiting, v.suspender.exited = true → v.suspender.reentered = false →
        v.thunks+v.resumed = w.thunks+w.resumed → v.segments = w.segments → v.segments = trace c v :=
      fun v exited reentered => sound.traced_on (exited.trans (by rw [here]; rfl)) (reentered.trans (by rw [here]; rfl))
    have shape : w.suspend c = if ((w.acquire c t).base.holds t.hold).taken = true then
        (w.acquire c t).goTo (c.awaited.acquired k)
      else {w.acquire c t with callback := .queued k}.goTo (.noting k) := by
      simp only [suspend,here,place]
    rw [shape]
    rcases outcome with ⟨taken,next⟩ | ⟨untaken,queued⟩
    · rw [if_pos taken]
      rcases suits with ⟨⟨mode,targets,multi⟩,_⟩ | ⟨⟨mode,u,access⟩,rfl⟩
      · rw [show c.awaited.acquired k = .driving (k+1) by rw [multi]; rfl]
        refine ⟨path,fun _ => made,fun _ => settled',traced _ rfl rfl rfl rfl,?_⟩
        exact .early rfl (.inl ⟨⟨mode,targets,multi⟩,inside⟩) word callback (calm'.goTo _) next (fun _ => settled')
      · rw [show c.awaited.acquired 0 = .reentering by rw [access]; rfl]
        have whole : c.awaited.targets.length ≤ 0+1 := by rw [access]; exact Nat.le_refl 1
        refine ⟨path,fun _ => made,fun _ => settled',traced _ rfl rfl rfl rfl,?_⟩
        exact .returns rfl (.inl callback) (calm'.goTo _) (fun _ => ⟨settled',next.all whole⟩)
    · rw [if_neg untaken]
      refine ⟨path,fun _ => made,fun _ => settled',traced _ rfl rfl rfl rfl,?_⟩
      exact .registered rfl word ⟨calm.items,calm.thunks,calm.scheduled,calm.resumed⟩
        (.queued k t rfl place (.inl queued) further settled')

theorem publish_sound (here : w.suspender = .publishing) : Sound c (w.suspend c) := by
  obtain ⟨calm,outcome⟩ := publishes_facts sound (by rw [here]; rfl)
  have going : w.continues = 0 := calm.going (by rw [here]; simp)
  have calm' : ∀ next, ({w with word := .suspended}.goTo next).Calm :=
    fun next => ⟨calm.items,calm.thunks,calm.scheduled,calm.resumed⟩
  have traced : ∀ next, next.exited = true → next.reentered = false →
      ({w with word := .suspended}.goTo next).segments = trace c ({w with word := .suspended}.goTo next) :=
    fun next exited reentered => sound.traced_on (exited.trans (by rw [here]; rfl))
      (reentered.trans (by rw [here]; rfl)) rfl rfl
  have shape : w.suspend c =
      {w with word := .suspended}.goTo (if w.word = Handshake.fired then .reentering else .suspended) := by
    simp only [suspend,here]
  rw [shape]
  rcases outcome with ⟨word,registered⟩ | ⟨word,callback,ready⟩
  · rw [if_neg (by rw [word]; simp)]
    exact sound.unmoved rfl rfl (fun _ => going) (traced _ rfl rfl)
      (.waits rfl rfl (calm' _) (registered.alike rfl rfl rfl))
  · rw [if_pos word]
    exact sound.unmoved rfl rfl (fun _ => going) (traced _ rfl rfl) (.returns rfl callback (calm' _) (fun _ => ready))

theorem note_sound (here : w.suspender = .noting k) : Sound c (w.goTo .publishing) := by
  obtain ⟨calm,outcome⟩ := publishes_facts sound (by rw [here]; rfl)
  have going : w.continues = 0 := calm.going (by rw [here]; simp)
  refine sound.unmoved rfl rfl (fun _ => going) (sound.traced_on (by rw [here]; rfl) (by rw [here]; rfl) rfl rfl) ?_
  rcases outcome with ⟨word,registered⟩ | ⟨word,callback,ready⟩
  · exact .registered rfl word (calm.goTo _) (registered.alike rfl rfl rfl)
  · exact .fired rfl word callback (calm.goTo _) ready

theorem reenter_sound (here : w.suspender = .reentering) : Sound c ((w.segment c .enter).goTo .returning) := by
  obtain ⟨callback,calm,ready⟩ := goesOn_facts sound (by rw [here]; rfl)
  have going : w.continues = 0 := calm.going (by rw [here]; simp)
  refine sound.unmoved rfl rfl (fun _ => going) ?_
    (.returns rfl callback ⟨calm.items,calm.thunks,calm.scheduled,calm.resumed⟩ (fun _ => ready (by rw [here]; simp)))
  have before := sound.traced
  simp only [trace,here,Suspender.exited,Suspender.reentered,calm.thunks,calm.resumed] at before
  simp [segment,goTo,trace,before,Suspender.exited,Suspender.reentered]

theorem return_sound (here : w.suspender = .returning) : Sound c (w.goTo .continued) := by
  obtain ⟨callback,calm,_⟩ := goesOn_facts sound (by rw [here]; rfl)
  have going : w.continues = 0 := calm.going (by rw [here]; simp)
  exact sound.unmoved rfl rfl (fun _ => going) (sound.traced_on (by rw [here]; rfl) (by rw [here]; rfl) rfl rfl)
    (.returns rfl callback (calm.goTo _) (fun other => absurd rfl other))

theorem suspend_sound (going : w.suspender ≠ .continued ∧ w.suspender ≠ .suspended) : Sound c (w.suspend c) := by
  cases here : w.suspender with
  | recording =>
    have shape : w.suspend c = w.goTo .exiting := by simp only [suspend,here]
    rw [shape]
    exact early_sound sound (by rw [here]; rfl) (by rw [here]; rfl) .exiting rfl rfl trivial (by simp) _ rfl
      (sound.traced_on (by rw [here]; rfl) (by rw [here]; rfl) rfl rfl)
  | exiting => exact exit_sound sound here
  | capturing =>
    have early : w.suspender.early = true := by rw [here]; rfl
    obtain ⟨suits,_⟩ := early_facts sound early
    rw [here] at suits
    have shape : w.suspend c = w.goTo (.driving 0) := by simp only [suspend,here]
    rw [shape]
    exact early_sound sound early (by rw [here]; rfl) (.driving 0) rfl rfl (.inl ⟨suits,Nat.zero_le _⟩) (by simp) _ rfl
      (sound.traced_on (by rw [here]; rfl) (by rw [here]; rfl) rfl rfl)
  | attaching => exact attach_sound sound here
  | calling =>
    have early : w.suspender.early = true := by rw [here]; rfl
    obtain ⟨suits,_,_,_,spread,calling⟩ := early_facts sound early
    rw [here] at suits
    obtain ⟨b,task⟩ := suits
    have shape : w.suspend c = w.fire.goTo .publishing := by simp only [suspend,here]
    rw [shape]
    refine fire_sound sound early (by rw [here]; rfl) ⟨calling here,spread.all ?_⟩
    rw [task]
    exact Nat.zero_le _
  | driving k => exact drive_sound sound here
  | noting k =>
    have shape : w.suspend c = w.goTo .publishing := by simp only [suspend,here]
    rw [shape]
    exact note_sound sound here
  | publishing => exact publish_sound sound here
  | reentering =>
    have shape : w.suspend c = (w.segment c .enter).goTo .returning := by simp only [suspend,here]
    rw [shape]
    exact reenter_sound sound here
  | returning =>
    have shape : w.suspend c = w.goTo .continued := by simp only [suspend,here]
    rw [shape]
    exact return_sound sound here
  | continued => exact absurd here going.1
  | suspended => exact absurd here going.2

end Suspend

section Callback

variable (sound : Sound c w)
include sound

-- A registered callback is met while the awaiting thread is on its way to its
-- exchange, or has suspended; the frame has not gone on.
theorem registered_facts (due : w.callback ≠ .unattached ∧ w.callback ≠ .winning ∧ w.callback ≠ .finished) :
    Registered c w ∧ w.Calm ∧ w.continues = 0 ∧
      (w.suspender.publishes = true ∧ w.word = .open_ ∨ w.suspender = .suspended ∧ w.word = .suspended) := by
  cases sound.standing with
  | registered publishes word calm registered =>
    refine ⟨registered,calm,calm.going ?_,.inl ⟨publishes,word⟩⟩
    intro continued
    rw [continued] at publishes
    cases publishes
  | waits suspended word calm registered =>
    exact ⟨registered,calm,calm.going (by rw [suspended]; simp),.inr ⟨suspended,word⟩⟩
  | early _ _ _ unattached => exact absurd unattached due.1
  | fired _ _ callback | returns _ callback =>
    rcases callback with unattached | finished
    · exact absurd unattached due.1
    · exact absurd finished due.2.2
  | wins _ winning => exact absurd winning due.2.1
  | resumes _ finished => exact absurd finished due.2.2

-- The callback goes on, still before its exchange.
theorem registered_sound (v : Awaiting) (parties : w.suspender.publishes = true ∧ w.word = .open_ ∨
      w.suspender = .suspended ∧ w.word = .suspended) (same : v.suspender = w.suspender ∧ v.word = w.word) (calm : w.Calm)
    (counts : v.items = w.items ∧ v.thunks = w.thunks ∧ v.scheduled = w.scheduled ∧ v.resumed = w.resumed)
    (segments : v.segments = w.segments) (path : Machines.Reached system v.base) (made : c.Made v.base)
    (seen : c.awaited.completed v.base = true → v.settled = true) (registered : Registered c v) : Sound c v := by
  obtain ⟨items,thunks,scheduled,resumed⟩ := counts
  have calm' : v.Calm := ⟨items.trans calm.items,thunks.trans calm.thunks,scheduled.trans calm.scheduled,
    resumed.trans calm.resumed⟩
  refine ⟨path,fun _ => made,seen,sound.traced_on (by rw [same.1]) (by rw [same.1]) (by rw [thunks,resumed]) segments,?_⟩
  rcases parties with ⟨publishes,word⟩ | ⟨suspended,word⟩
  · exact .registered (by rw [same.1]; exact publishes) (same.2.trans word) calm' registered
  · exact .waits (same.1.trans suspended) (same.2.trans word) calm' registered

theorem call_sound (due : w.callable c = true) : Sound c (w.call c) := by
  have registered : w.callback ≠ .unattached ∧ w.callback ≠ .winning ∧ w.callback ≠ .finished := by
    refine ⟨?_,?_,?_⟩ <;> intro here <;> rw [callable,here] at due <;> cases due
  obtain ⟨registered,calm,going,parties⟩ := registered_facts sound registered
  cases registered with
  | attached b task here incomplete =>
    rw [callable,here] at due
    cases due
  | moved b task here settled =>
    have shape : w.call c = {w with callback := .driving 0} := by simp only [call,here]
    rw [shape]
    refine registered_sound sound _ parties ⟨rfl,rfl⟩ calm ⟨rfl,rfl,rfl,rfl⟩ rfl sound.base (sound.made going) sound.seen
      (.driving 0 rfl (Nat.zero_le _) ?_ settled)
    intro j t place
    simp [task,Awaited.targets] at place
  | queued k t here place waits spread settled =>
    have pending : .fireHold t.hold ∈ w.base.pending := by
      simpa only [callable,here,place,Option.any_some,decide_eq_true_eq] using due
    have acc := reached_accounts sound.base
    have shape : w.call c =
        {w.step c (w.base.apply (.resume (.fireHold t.hold))) with callback := .driving (k+1)} := by
      simp only [call,here,place]
    obtain ⟨inside,_⟩ := List.getElem?_eq_some_iff.mp place
    rw [shape]
    refine registered_sound sound _ parties ⟨rfl,rfl⟩ calm ⟨rfl,rfl,rfl,rfl⟩ rfl
      (.step sound.base (show system.allowed w.base (.resume (.fireHold t.hold)) from pending)) ?_ ?_
      (.driving (k+1) rfl inside (Awaiter.fireHold_spread acc spread place pending waits) ?_)
    · intro b task
      obtain ⟨kind,busy⟩ := sound.made going b task
      exact State.made_kept (a := .resume (.fireHold t.hold)) acc pending kind busy (by simp) (by simp)
    · intro completed
      change (w.settled || _) = true
      rw [show c.awaited.completed (w.base.apply (.resume (.fireHold t.hold))) = true from completed,Bool.or_true]
    · change (w.settled || _) = true
      rw [settled,Bool.true_or]
  | driving k here =>
    rw [callable,here] at due
    cases due

-- The callback at work: one more pipe, or the exchange.
theorem working_sound (here : w.callback = .driving k) : Sound c (w.callbackStep c) := by
  obtain ⟨registered,calm,going,parties⟩ := registered_facts sound (by rw [here]; simp)
  have chain : k ≤ c.awaited.targets.length ∧ c.Spread w.base k k ∧ w.settled = true := by
    cases registered with
    | attached _ _ at_ | moved _ _ at_ | queued _ _ at_ => rw [here] at at_; cases at_
    | driving j at_ bounded spread settled =>
      cases here.symm.trans at_
      exact ⟨bounded,spread,settled⟩
  obtain ⟨bounded,spread,settled⟩ := chain
  cases place : c.awaited.targets[k]? with
  | none =>
    have ready : Ready c w := ⟨settled,spread.all (List.getElem?_eq_none_iff.mp place)⟩
    rcases parties with ⟨publishes,word⟩ | ⟨suspended,word⟩
    · have shape : w.callbackStep c = {w with word := .fired,callback := .finished}.leaves := by
        simp [callbackStep,here,place,word]
      rw [shape]
      exact sound.unmoved rfl rfl (fun _ => going) (sound.traced_on rfl rfl rfl rfl)
        (.fired publishes rfl (.inr rfl) ⟨calm.items,calm.thunks,calm.scheduled,calm.resumed⟩ ready)
    · have shape : w.callbackStep c = {w with word := .fired,callback := .winning} := by
        simp [callbackStep,here,place,word]
      rw [shape]
      exact sound.unmoved rfl rfl (fun _ => going) (sound.traced_on rfl rfl rfl rfl)
        (.wins suspended rfl ⟨calm.items,calm.thunks,calm.scheduled,calm.resumed⟩ ready)
  | some t =>
    obtain ⟨inside,_⟩ := List.getElem?_eq_some_iff.mp place
    obtain ⟨path,made,further,outcome⟩ := acquire_facts sound going spread place
    have settled' : (w.acquire c t).settled = true := by rw [acquire,step_settled,settled,Bool.true_or]
    have shape : w.callbackStep c = if ((w.acquire c t).base.holds t.hold).taken = true then
        {w.acquire c t with callback := .driving (k+1)} else {w.acquire c t with callback := .queued k}.leaves := by
      simp only [callbackStep,here,place]
    rw [shape]
    rcases outcome with ⟨taken,next⟩ | ⟨untaken,queued⟩
    · rw [if_pos taken]
      exact registered_sound sound _ parties ⟨rfl,rfl⟩ calm ⟨rfl,rfl,rfl,rfl⟩ rfl path made (fun _ => settled')
        (.driving (k+1) rfl inside next settled')
    · rw [if_neg untaken]
      exact registered_sound sound _ parties ⟨rfl,rfl⟩ calm ⟨rfl,rfl,rfl,rfl⟩ rfl path made (fun _ => settled')
        (.queued k t rfl place (.inl queued) further settled')

-- The exchange has found the frame suspended: it is this side's to resume.
theorem winning_facts (here : w.callback = .winning) : w.suspender = .suspended ∧ w.Calm ∧ Ready c w := by
  cases sound.standing with
  | wins suspended _ calm ready => exact ⟨suspended,calm,ready⟩
  | early _ _ _ unattached => rw [here] at unattached; cases unattached
  | fired _ _ callback | returns _ callback =>
    rcases callback with unattached | finished
    · rw [here] at unattached; cases unattached
    · rw [here] at finished; cases finished
  | resumes _ finished => rw [here] at finished; cases finished
  | registered _ _ _ registered | waits _ _ _ registered =>
    cases registered with
    | attached _ _ at_ | moved _ _ at_ | queued _ _ at_ | driving _ at_ => rw [here] at at_; cases at_

theorem schedule_sound (here : w.callback = .winning) : Sound c (w.callbackStep c) := by
  obtain ⟨suspended,calm,ready⟩ := winning_facts sound here
  have going : w.continues = 0 := calm.going (by rw [suspended]; simp)
  have shape : w.callbackStep c = {w.scheduleResume with callback := .finished}.leaves := by simp only [callbackStep,here]
  rw [shape]
  refine sound.unmoved rfl rfl (fun _ => going) (sound.traced_on rfl rfl rfl rfl) (.resumes suspended rfl ?_ ?_ (fun _ => ready))
  · simp [leaves,scheduleResume,calm.scheduled]
  · simp [leaves,scheduleResume,calm.items,calm.thunks,calm.resumed]

theorem callback_sound (due : w.working = true) : Sound c (w.callbackStep c) := by
  cases here : w.callback with
  | driving k => exact working_sound sound here
  | winning => exact schedule_sound sound here
  | _ => rw [working,here] at due; cases due

-- A resume is queued or under way: the callback has scheduled it.
theorem resume_facts (some_resume : 0 < w.items+w.thunks+w.resumed) :
    w.suspender = .suspended ∧ w.callback = .finished ∧ w.scheduled = 1 ∧ w.items+w.thunks+w.resumed = 1 ∧
      (w.resumed = 0 → Ready c w) := by
  have calm : ¬ w.Calm := by
    intro calm
    simp [calm.items,calm.thunks,calm.resumed] at some_resume
  cases sound.standing with
  | resumes suspended finished scheduled one ready => exact ⟨suspended,finished,scheduled,one,ready⟩
  | early _ _ _ _ none_yet => exact absurd none_yet calm
  | registered _ _ none_yet | fired _ _ _ none_yet | waits _ _ none_yet | wins _ _ none_yet | returns _ _ none_yet =>
    exact absurd none_yet calm

theorem take_sound (due : 0 < w.items) :
    Sound c ({w with items := w.items-1,thunks := w.thunks+1}.segment c .enter) := by
  obtain ⟨suspended,finished,scheduled,one,ready⟩ := resume_facts sound (by omega)
  have going : w.continues = 0 := by simp [continues,suspended]; omega
  have before := sound.traced
  have none_yet : w.thunks+w.resumed = 0 := by omega
  simp only [trace,suspended,Suspender.exited,Suspender.reentered,none_yet] at before
  refine sound.unmoved rfl rfl (fun _ => going) ?_ (.resumes suspended finished scheduled ?_ ready)
  · simp [segment,trace,suspended,before,Suspender.exited,Suspender.reentered]
  · simp only [segment]
    omega

theorem resumed_sound (due : 0 < w.thunks) : Sound c {w with thunks := w.thunks-1,resumed := w.resumed+1} := by
  obtain ⟨suspended,finished,scheduled,one,ready⟩ := resume_facts sound (by omega)
  have same : w.thunks-1+(w.resumed+1) = w.thunks+w.resumed := by omega
  refine sound.unmoved rfl rfl ?_ (sound.traced_on rfl rfl same rfl) (.resumes suspended finished scheduled ?_ ?_)
  · intro going
    simp [continues] at going
  · change w.items+(w.thunks-1)+(w.resumed+1) = 1
    omega
  · intro none_yet
    cases none_yet

theorem leave_sound : Sound c {w with leaving := w.leaving-1} := by
  refine sound.unmoved rfl rfl id (sound.traced_on rfl rfl rfl rfl) ?_
  cases sound.standing with
  | early early suits word unattached calm spread calling =>
    exact .early early suits word unattached ⟨calm.items,calm.thunks,calm.scheduled,calm.resumed⟩ spread calling
  | registered publishes word calm registered =>
    exact .registered publishes word ⟨calm.items,calm.thunks,calm.scheduled,calm.resumed⟩ (registered.alike rfl rfl rfl)
  | fired publishes word callback calm ready =>
    exact .fired publishes word callback ⟨calm.items,calm.thunks,calm.scheduled,calm.resumed⟩ ready
  | waits suspended word calm registered =>
    exact .waits suspended word ⟨calm.items,calm.thunks,calm.scheduled,calm.resumed⟩ (registered.alike rfl rfl rfl)
  | wins suspended winning calm ready =>
    exact .wins suspended winning ⟨calm.items,calm.thunks,calm.scheduled,calm.resumed⟩ ready
  | resumes suspended finished scheduled one ready => exact .resumes suspended finished scheduled one ready
  | returns goesOn callback calm ready =>
    exact .returns goesOn callback ⟨calm.items,calm.thunks,calm.scheduled,calm.resumed⟩ ready

end Callback

theorem apply_sound (sound : Sound c w) (allowed : w.Allowed c a) : Sound c (w.apply c a) := by
  cases a with
  | base a => exact sound.base_step allowed
  | suspend => exact suspend_sound sound allowed
  | call => exact call_sound sound allowed
  | callback => exact callback_sound sound allowed
  | leave => exact leave_sound sound
  | take => exact take_sound sound allowed
  | resume => exact resumed_sound sound allowed

end Awaiting

-- How many steps of its own an await has left at the most.
def Suspender.cost (n : Nat) : Suspender → Nat
  | .recording => 4*n+15
  | .exiting => 4*n+14
  | .capturing => 4*n+13
  | .attaching => 4*n+12
  | .calling => 10
  | .driving k => 4*(n-k)+12
  | .noting _ => 4
  | .publishing => 3
  | .reentering => 2
  | .returning => 1
  | _ => 0

def Callback.cost (n : Nat) : Callback → Nat
  | .attached => 4*n+8
  | .moved => 4*n+8
  | .queued k => 4*(n-k)+5
  | .driving k => 4*(n-k)+7
  | .winning => 5
  | _ => 0

def AwaitAction.own : AwaitAction → Bool
  | .base _ => false
  | _ => true

namespace Awaiting

variable {c : Awaiter} {w : Awaiting} {base : State}

def remaining (c : Awaiter) (w : Awaiting) : Nat :=
  w.suspender.cost c.awaited.targets.length+w.callback.cost c.awaited.targets.length+w.leaving+3*w.items+2*w.thunks

theorem step_cost (n : Nat) : (w.step c base).callback.cost n = w.callback.cost n := by
  by_cases attached : w.callback = .attached
  · unfold step
    cases c.awaited with
    | task b =>
      dsimp only
      split
      · rw [attached]; rfl
      · rfl
    | _ => rfl
  · rw [step_callback attached]

theorem step_remaining : remaining c (w.step c base) = remaining c w := by
  simp only [remaining,step_cost,step_suspender,step_leaving,step_items,step_thunks]

theorem fire_remaining (more : Suspender.publishing.cost c.awaited.targets.length+3 <
    w.suspender.cost c.awaited.targets.length) : remaining c (w.fire.goTo .publishing) < remaining c w := by
  unfold fire
  split
  · simp only [remaining,goTo,scheduleResume]
    omega
  · simp only [remaining,goTo]
    omega

theorem suspend_remaining (going : w.suspender ≠ .continued ∧ w.suspender ≠ .suspended) :
    remaining c (w.suspend c) < remaining c w := by
  cases here : w.suspender with
  | recording | capturing | noting k | returning =>
    simp only [suspend,remaining,goTo,here,Suspender.cost]
    omega
  | exiting =>
    simp only [suspend,here]
    cases c.awaited <;> simp only [remaining,goTo,segment,here,Suspender.cost] <;> omega
  | attaching =>
    simp only [suspend,here]
    split <;> simp only [remaining,goTo,here,Suspender.cost,Callback.cost] <;> omega
  | calling =>
    have shape : w.suspend c = w.fire.goTo .publishing := by simp only [suspend,here]
    rw [shape]
    exact fire_remaining (by rw [here]; simp only [Suspender.cost]; omega)
  | driving k =>
    simp only [suspend,here]
    cases place : c.awaited.targets[k]? with
    | none => exact fire_remaining (by rw [here]; simp only [Suspender.cost]; omega)
    | some t =>
      obtain ⟨inside,_⟩ := List.getElem?_eq_some_iff.mp place
      have asked : remaining c (w.acquire c t) = remaining c w := step_remaining
      have suspender : (w.acquire c t).suspender = .driving k := here
      have nearer : (c.awaited.acquired k).cost c.awaited.targets.length <
          (Suspender.driving k).cost c.awaited.targets.length := by
        cases awaited : c.awaited <;> rw [awaited] at inside <;> simp only [Awaited.acquired,Suspender.cost] <;> omega
      rw [← asked]
      dsimp only
      split
      · simp only [remaining,goTo,suspender]
        omega
      · simp only [remaining,goTo,suspender,Suspender.cost,Callback.cost]
        omega
  | publishing =>
    simp only [suspend,here]
    split <;> simp only [remaining,goTo,here,Suspender.cost] <;> omega
  | reentering =>
    simp only [suspend,remaining,goTo,segment,here,Suspender.cost]
    omega
  | continued => exact absurd here going.1
  | suspended => exact absurd here going.2

theorem call_remaining (due : w.callable c = true) : remaining c (w.call c) < remaining c w := by
  cases here : w.callback with
  | moved =>
    simp only [call,here,remaining,Callback.cost]
    omega
  | queued k =>
    simp only [callable,here] at due
    cases place : c.awaited.targets[k]? with
    | none => rw [place] at due; cases due
    | some t =>
      obtain ⟨inside,_⟩ := List.getElem?_eq_some_iff.mp place
      simp only [call,here,place,remaining,step_suspender,step_leaving,step_items,step_thunks,Callback.cost]
      omega
  | _ => rw [callable,here] at due; cases due

theorem callback_remaining (due : w.working = true) : remaining c (w.callbackStep c) < remaining c w := by
  cases here : w.callback with
  | driving k =>
    simp only [callbackStep,here]
    cases place : c.awaited.targets[k]? with
    | none =>
      dsimp only
      split <;> simp only [remaining,leaves,here,Callback.cost] <;> omega
    | some t =>
      obtain ⟨inside,_⟩ := List.getElem?_eq_some_iff.mp place
      have leaving : (w.acquire c t).leaving = w.leaving := rfl
      have items : (w.acquire c t).items = w.items := rfl
      have thunks : (w.acquire c t).thunks = w.thunks := rfl
      have suspender : (w.acquire c t).suspender = w.suspender := rfl
      dsimp only
      split <;> simp only [remaining,leaves,here,Callback.cost,leaving,items,thunks,suspender] <;> omega
  | winning =>
    simp only [callbackStep,here,remaining,leaves,scheduleResume,Callback.cost]
    omega
  | _ => rw [working,here] at due; cases due

-- Every step of the await brings its end nearer, and no step of the world puts it off.
theorem apply_remaining (allowed : w.Allowed c a) :
    if a.own = true then remaining c (w.apply c a) < remaining c w else remaining c (w.apply c a) = remaining c w := by
  cases a with
  | base a => exact step_remaining
  | suspend => exact suspend_remaining allowed
  | call => exact call_remaining allowed
  | callback => exact callback_remaining allowed
  | leave =>
    have due : 0 < w.leaving := allowed
    simp only [AwaitAction.own,if_true,remaining,apply]
    omega
  | take =>
    have due : 0 < w.items := allowed
    simp only [AwaitAction.own,if_true,remaining,apply,segment]
    omega
  | resume =>
    have due : 0 < w.thunks := allowed
    simp only [AwaitAction.own,if_true,remaining,apply]
    omega

-- It has been decided who goes on with the frame.
def Decided (w : Awaiting) : Prop := w.suspender.goesOn = true ∨ w.callback = .winning ∨ 0 < w.scheduled

-- What the await waits for has not come: the task is unsettled, or the next pipe
-- is still queued for.
def Pending (c : Awaiter) (w : Awaiting) : Prop :=
  w.suspender = .suspended ∧
    ((∃ b, c.awaited = .task b ∧ w.callback = .attached ∧ (w.base.blocks b).completed = false) ∨
      ∃ k t, w.callback = .queued k ∧ c.awaited.targets[k]? = some t ∧
        w.base.holds t.hold = .queued t.pipe c.awaited.mode c.owner)

-- What is awaited is there: the task has settled; each pipe counts one hold of
-- this await among its admissions.
structure Arrived (c : Awaiter) (w : Awaiting) : Prop where
  settled : w.settled = true
  held : ∀ t ∈ c.awaited.targets, w.base.holds t.hold = .held t.pipe c.awaited.mode c.owner ∧
    (w.base.pipes t.pipe).held.count ⟨.hold t.hold c.owner,c.awaited.mode⟩ = 1

structure Exact (c : Awaiter) (w : Awaiting) : Prop where
  once : w.continues ≤ 1 ∧ w.scheduled ≤ 1 ∧ w.items+w.thunks+w.resumed = w.scheduled
  either : w.suspender = .continued → w.scheduled = 0
  arrived : ∀ a, w.Allowed c a → w.continues = 0 → (w.apply c a).continues = 1 → Arrived c (w.apply c a)
  alternate : w.segments = [] ∨ w.segments = [.exit] ∨ w.segments = [.exit,.enter]
  bracketed : w.continues = 1 → w.segments = c.bracket .exit++c.bracket .enter
  unread : w.Decided → ∀ a, w.Allowed c a → w.reads a = false
  untouched : ∀ a, w.Allowed c a → w.reads a = true ∨ w.brackets a = true → w.continues = 0
  progress : w.continues = 0 → (∃ a, a.own = true ∧ w.Allowed c a) ∨ Pending c w
  bounded : ∀ a, w.Allowed c a →
    if a.own = true then remaining c (w.apply c a) < remaining c w else remaining c (w.apply c a) = remaining c w

theorem Ready.arrived (ready : Ready c w) (path : Machines.Reached system w.base) : Arrived c w := by
  refine ⟨ready.1,?_⟩
  intro t member
  have held := ready.2 t member
  have counted := ((reached_accounts path).holds t.hold).held t.pipe c.owner c.awaited.mode
  rw [State.holdprint_hold,if_pos (.inr held)] at counted
  exact ⟨held,counted⟩

-- Two steps let the frame go on: the return, and the resume.
theorem continues_by (going : w.continues = 0) (gone : (w.apply c a).continues = 1) :
    a = .suspend ∧ w.suspender = .returning ∨ a = .resume := by
  have still : ∀ v : Awaiting, v.suspender = w.suspender → v.resumed = w.resumed → v.continues ≠ 1 := by
    intro v suspender resumed one
    rw [continues,suspender,resumed,← continues,going] at one
    cases one
  have other : ∀ v : Awaiting, v.suspender ≠ .continued → v.resumed = w.resumed → v.continues ≠ 1 := by
    intro v elsewhere resumed one
    have none_yet : w.resumed = 0 := by
      rw [continues] at going
      omega
    simp [continues,elsewhere,resumed,none_yet] at one
  have fired : w.fire.resumed = w.resumed := by
    unfold fire
    split <;> rfl
  cases a with
  | base a => exact absurd gone (still _ rfl rfl)
  | call =>
    refine absurd gone (still _ ?_ ?_) <;> simp only [apply,call] <;> split <;> first | rfl | (split <;> rfl)
  | callback =>
    refine absurd gone (still _ ?_ ?_) <;> simp only [apply,callbackStep] <;> split <;>
      first | rfl | (split <;> split <;> rfl)
  | leave => exact absurd gone (still _ rfl rfl)
  | take => exact absurd gone (still _ rfl rfl)
  | resume => exact .inr rfl
  | suspend =>
    left
    refine ⟨rfl,?_⟩
    cases here : w.suspender with
    | returning => rfl
    | continued | suspended =>
      have unmoved : w.apply c .suspend = w := by simp only [apply,suspend,here]
      rw [unmoved,going] at gone
      cases gone
    | recording | capturing | noting k | reentering =>
      refine absurd gone (other _ ?_ ?_) <;> simp [apply,suspend,here,goTo,segment]
    | exiting =>
      refine absurd gone (other _ ?_ ?_) <;> simp only [apply,suspend,here] <;> cases c.awaited <;> simp [goTo,segment]
    | attaching =>
      refine absurd gone (other _ ?_ ?_) <;> simp only [apply,suspend,here] <;> split <;> simp [goTo]
    | calling => exact absurd gone (other _ (by simp [apply,suspend,here,goTo]) (by simp [apply,suspend,here,goTo,fired]))
    | publishing =>
      refine absurd gone (other _ ?_ ?_) <;> simp only [apply,suspend,here] <;> split <;> simp [goTo]
    | driving k =>
      refine absurd gone (other _ ?_ ?_)
      · simp only [apply,suspend,here]
        split
        · simp [goTo]
        · split
          · cases c.awaited <;> simp [goTo,Awaited.acquired]
          · simp [goTo]
      · simp only [apply,suspend,here]
        split
        · exact fired
        · split <;> rfl

theorem Sound.calm_or (sound : Sound c w) : w.Calm ∨
    w.suspender = .suspended ∧ w.callback = .finished ∧ w.scheduled = 1 ∧ w.items+w.thunks+w.resumed = 1 := by
  cases sound.standing with
  | resumes suspended finished scheduled one => exact .inr ⟨suspended,finished,scheduled,one⟩
  | early _ _ _ _ calm => exact .inl calm
  | registered _ _ calm | fired _ _ _ calm | waits _ _ calm | wins _ _ calm | returns _ _ calm => exact .inl calm

-- Once it is decided the awaiting thread is past its exchange, and no call of
-- the callback has one before it.
theorem Sound.decided (sound : Sound c w) (decided : w.Decided) :
    (w.suspender.goesOn = true ∨ w.suspender = .suspended) ∧ ∀ k, w.callback ≠ .driving k := by
  rcases decided with goesOn | winning | scheduled
  · obtain ⟨callback,_⟩ := goesOn_facts sound goesOn
    refine ⟨.inl goesOn,?_⟩
    intro k driving
    rw [driving] at callback
    simp at callback
  · exact ⟨.inr (winning_facts sound winning).1,fun k driving => by rw [winning] at driving; cases driving⟩
  · rcases sound.calm_or with calm | ⟨suspended,finished,_⟩
    · rw [calm.scheduled] at scheduled
      cases scheduled
    · exact ⟨.inr suspended,fun k driving => by rw [finished] at driving; cases driving⟩

theorem Sound.unread (sound : Sound c w) (decided : w.Decided) (a : AwaitAction) : w.reads a = false := by
  obtain ⟨suspender,callback⟩ := sound.decided decided
  cases a with
  | suspend =>
    rcases suspender with goesOn | suspended
    · cases here : w.suspender <;> rw [here] at goesOn <;> simp only [reads,here] <;> cases goesOn
    · simp [reads,suspended]
  | callback =>
    cases here : w.callback with
    | driving k => exact absurd here (callback k)
    | _ => simp [reads,here]
  | _ => rfl

-- The frame has gone on only when it was decided.
theorem Sound.gone (sound : Sound c w) (gone : w.continues ≠ 0) :
    w.Decided ∧ (w.suspender = .continued ∨ w.suspender = .suspended ∧ w.resumed = 1 ∧ w.items = 0) := by
  rcases sound.calm_or with calm | ⟨suspended,_,scheduled,one⟩
  · have continued : w.suspender = .continued := by
      by_contra other
      exact gone (calm.going other)
    exact ⟨.inl (by rw [continued]; rfl),.inl continued⟩
  · have resumed : w.resumed ≠ 0 := by
      intro none_yet
      simp [continues,suspended,none_yet] at gone
    exact ⟨.inr (.inr (by omega)),.inr ⟨suspended,by omega,by omega⟩⟩

theorem Sound.untouched (sound : Sound c w) (allowed : w.Allowed c a) (touches : w.reads a = true ∨ w.brackets a = true) :
    w.continues = 0 := by
  by_contra gone
  obtain ⟨decided,where_⟩ := sound.gone gone
  rcases touches with reads | brackets
  · rw [sound.unread decided a] at reads
    cases reads
  · cases a with
    | suspend =>
      rcases where_ with continued | ⟨suspended,_⟩
      · exact allowed.1 continued
      · exact allowed.2 suspended
    | take =>
      have due : 0 < w.items := allowed
      rcases where_ with continued | ⟨_,_,none_left⟩
      · obtain ⟨_,calm,_⟩ := goesOn_facts sound (by rw [continued]; rfl)
        rw [calm.items] at due
        cases due
      · rw [none_left] at due
        cases due
    | _ => cases brackets

-- The await has a step to take, or waits for the world.
theorem Sound.progress (sound : Sound c w) (going : w.continues = 0) :
    (∃ a, a.own = true ∧ w.Allowed c a) ∨ Pending c w := by
  have suspends : w.suspender ≠ .continued → w.suspender ≠ .suspended → ∃ a, a.own = true ∧ w.Allowed c a :=
    fun other unsuspended => ⟨.suspend,rfl,other,unsuspended⟩
  cases sound.standing with
  | early early | registered early | fired early =>
    left
    refine suspends ?_ ?_ <;> intro here <;> rw [here] at early <;> cases early
  | waits suspended _ _ registered =>
    cases registered with
    | attached b task attached incomplete =>
      refine .inr ⟨suspended,.inl ⟨b,task,attached,?_⟩⟩
      rw [task] at incomplete
      exact incomplete
    | moved b _ moved => exact .inl ⟨.call,rfl,by simp [Allowed,callable,moved]⟩
    | queued k t here place waits =>
      rcases waits with queued | granted
      · exact .inr ⟨suspended,.inr ⟨k,t,here,place,queued⟩⟩
      · have pending := State.granted_pending (reached_accounts sound.base) granted
        exact .inl ⟨.call,rfl,by simp [Allowed,callable,here,place,pending]⟩
    | driving k driving => exact .inl ⟨.callback,rfl,by simp [Allowed,working,driving]⟩
  | wins _ winning => exact .inl ⟨.callback,rfl,by simp [Allowed,working,winning]⟩
  | resumes suspended _ _ one =>
    left
    have none_yet : w.resumed = 0 := by
      rw [continues] at going
      omega
    by_cases queued : 0 < w.items
    · exact ⟨.take,rfl,queued⟩
    · exact ⟨.resume,rfl,show 0 < w.thunks by omega⟩
  | returns goesOn =>
    left
    refine suspends ?_ ?_
    · intro continued
      simp [continues,continued] at going
    · intro suspended
      rw [suspended] at goesOn
      cases goesOn

theorem Sound.brackets (sound : Sound c w) :
    (w.segments = [] ∨ w.segments = [.exit] ∨ w.segments = [.exit,.enter]) ∧
      (w.continues = 1 → w.segments = c.bracket .exit++c.bracket .enter) := by
  have entered : w.suspender.exited = false → ¬ (w.suspender.reentered = true ∨ 0 < w.thunks+w.resumed) := by
    intro inside
    rcases sound.calm_or with calm | ⟨suspended,_⟩
    · rw [calm.thunks,calm.resumed]
      cases here : w.suspender <;> rw [here] at inside <;> simp_all [Suspender.exited,Suspender.reentered]
    · rw [suspended] at inside
      cases inside
  constructor
  · rw [sound.traced,trace]
    cases exited : w.suspender.exited with
    | false =>
      rw [if_neg (entered exited)]
      exact .inl rfl
    | true =>
      by_cases later : w.suspender.reentered = true ∨ 0 < w.thunks+w.resumed
      · rw [if_pos later]
        cases ours : c.ours <;> simp [Awaiter.bracket,ours]
      · rw [if_neg later]
        cases ours : c.ours <;> simp [Awaiter.bracket,ours]
  · intro one
    obtain ⟨_,where_⟩ := sound.gone (by rw [one]; exact Nat.one_ne_zero)
    rw [sound.traced,trace]
    rcases where_ with continued | ⟨suspended,resumed,_⟩
    · simp [continued,Suspender.exited,Suspender.reentered]
    · simp [suspended,resumed,Suspender.exited]

theorem Sound.exact_ (sound : Sound c w) : Exact c w where
  once := by
    rcases sound.calm_or with calm | ⟨suspended,_,scheduled,one⟩
    · rw [continues,calm.scheduled,calm.items,calm.thunks,calm.resumed]
      refine ⟨?_,Nat.zero_le _,rfl⟩
      split <;> omega
    · rw [continues,suspended,scheduled]
      refine ⟨?_,Nat.le_refl _,one⟩
      simp only [reduceCtorEq,if_false]
      omega
  either := by
    intro continued
    obtain ⟨_,calm,_⟩ := goesOn_facts sound (by rw [continued]; rfl)
    exact calm.scheduled
  arrived := by
    intro a allowed going gone
    rcases continues_by going gone with ⟨rfl,here⟩ | rfl
    · obtain ⟨_,_,ready⟩ := goesOn_facts sound (by rw [here]; rfl)
      have moved : w.apply c .suspend = w.goTo .continued := by simp only [apply,suspend,here]
      rw [moved]
      exact Ready.arrived (w := w.goTo .continued) (ready (by rw [here]; simp)) sound.base
    · have due : 0 < w.thunks := allowed
      obtain ⟨_,_,_,one,ready⟩ := resume_facts sound (by omega)
      exact Ready.arrived (w := w.apply c .resume) (ready (by omega)) sound.base
  alternate := sound.brackets.1
  bracketed := sound.brackets.2
  unread := fun decided a _ => sound.unread decided a
  untouched := fun _ allowed touches => sound.untouched allowed touches
  progress := sound.progress
  bounded := fun _ allowed => apply_remaining allowed

theorem start_sound (begun : (awaitSystem c).start w) : Sound c w := by
  obtain ⟨path,idle,made,shape⟩ := begun
  rw [shape]
  have early : c.entry.early = true ∧ c.entry.suits c ∧ c.entry.frontier = 0 ∧ c.entry.exited = false ∧
      c.entry.reentered = false ∧ c.entry ≠ .calling := by
    unfold Awaiter.entry
    cases c.awaited <;> exact ⟨rfl,trivial,rfl,rfl,rfl,by simp⟩
  obtain ⟨early,suits,frontier,exited,reentered,other⟩ := early
  refine ⟨path,fun _ => made,id,?_,.early early suits rfl rfl ⟨rfl,rfl,rfl,rfl⟩ ?_ (fun calling => absurd calling other)⟩
  · simp [trace,exited,reentered]
  · intro j t place
    dsimp only at place ⊢
    rw [frontier]
    exact ⟨fun below => absurd below (Nat.not_lt_zero j),fun _ => idle t (List.mem_of_getElem? place)⟩

end Awaiting

theorem await_sound (path : Machines.Reached (awaitSystem c) w) : Awaiting.Sound c w :=
  Machines.reached_invariant (Awaiting.Sound c) (fun _ begun => Awaiting.start_sound begun)
    (fun _ _ sound allowed => Awaiting.apply_sound sound allowed) path

-- Every await continues exactly once, whichever awaiter it is, whatever the tasks
-- and the pipes do and whoever comes first at any point.
theorem await_continues_once (path : Machines.Reached (awaitSystem c) w) : Awaiting.Exact c w := (await_sound path).exact_

-- Both objects of a pair; another hold has the second one until the frame is suspended.
def pairAwaiter : Awaiter := ⟨.multi .readWrite [⟨0,0⟩,⟨1,1⟩],none,true,by decide,by decide⟩

def secondTaken : State := system.follow .initial [.acquire 9 1 .readWrite none]

def pairAwaitedRun : List AwaitAction :=
  [.suspend,.suspend,.suspend,.suspend,.suspend,.suspend,.base (.releaseHold 9),.call,.callback,.callback,.leave,.take,
    .resume]

theorem await_continues_once_pair :
    let w := (awaitSystem pairAwaiter).follow
      {base := secondTaken,suspender := pairAwaiter.entry,settled := pairAwaiter.awaited.completed secondTaken} pairAwaitedRun
    (w.continues,w.scheduled,w.segments) = (1,1,[.exit,.enter]) ∧ Awaiting.Exact pairAwaiter w := by
  intro w
  refine ⟨by decide,await_continues_once (Machines.reached_follow (.start ⟨?_,by decide,?_,rfl⟩) (by decide))⟩
  · exact Machines.reached_follow (.start rfl) (by decide)
  · intro b task
    cases task

end Macrame

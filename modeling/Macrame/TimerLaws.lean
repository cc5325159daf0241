import Mathlib.Data.List.TakeWhile
import Macrame.Timer

namespace Macrame

theorem TimerEntry.later_iff {a b : TimerEntry} : b.later a = true ↔ a.deadline < b.deadline ∨ a.deadline = b.deadline ∧ a.serial < b.serial := by
  unfold later
  by_cases same : b.deadline = a.deadline
  · rw [if_neg (not_not.mpr same)]
    simp only [decide_eq_true_eq]
    omega
  · rw [if_pos same]
    simp only [decide_eq_true_eq]
    omega

namespace Timer

-- The waits a pass has taken and not submitted.
def firing (s : Timer) : List TimedId :=
  match s.thread with
  | .firing fire => fire
  | .releasing fire => fire
  | _ => []

-- The registrations the timer thread has yet to release.
def held (s : Timer) : Nat :=
  match s.thread with
  | .firing fire => fire.length
  | .releasing fire => fire.length+1
  | _ => 0

-- The waits armed and neither delivered nor dropped.
def waiting (s : Timer) : Nat := Tally.tally s.nextSerial (fun _ x => if x.delivered || x.dropped then 0 else 1) s.fields

def Before (s : Timer) (a b : TimedId) : Prop :=
  (s.fields a).deadline < (s.fields b).deadline ∨ (s.fields a).deadline = (s.fields b).deadline ∧ a < b

-- The waits that have been taken for delivery.
def taken (s : Timer) : List TimedId := s.handed.map TimedDelivery.wait++(s.cancelling++s.firing)

-- In a pass, `due` are the entries off the heap that its loop has yet to take.
structure Heaped (due : List TimerEntry) (s : Timer) : Prop where
  entries : ∀ e ∈ due++s.heap, e.wait < s.nextSerial ∧ e.serial = e.wait ∧ (s.fields e.wait).deadline = e.deadline
  sorted : (due++s.heap).Pairwise (fun a b => b.later a = true)
  queued : ∀ w, w < s.nextSerial → (s.fields w).live = true → ∃ e ∈ due++s.heap, e.wait = w

structure Counted (others : Int) (s : Timer) : Prop where
  flags : ∀ w, w < s.nextSerial → (s.fields w).live = !((s.fields w).delivered || (s.fields w).dropped) ∧
    ((s.fields w).delivered && (s.fields w).dropped) = false
  live : s.live = s.waiting
  marked : ∀ w, w ∈ s.taken ↔ w < s.nextSerial ∧ (s.fields w).delivered = true
  once : s.taken.Nodup
  external : s.outstanding = others+s.waiting+s.cancelling.length+s.releasing+s.held

structure Timely (due : List TimerEntry) (s : Timer) : Prop where
  called : ∀ w ∈ s.cancelling, w ∈ s.cancels
  cancelled : ∀ h ∈ s.handed, h.pass = none → h.wait ∈ s.cancels
  reached : ∀ h ∈ s.handed, ∀ p, h.pass = some p → ∃ now, s.passes[p]? = some now ∧ (s.fields h.wait).deadline ≤ now
  firing : ∀ w ∈ s.firing, ∃ now, s.passes[s.passes.length-1]? = some now ∧ (s.fields w).deadline ≤ now
  late : ∀ e ∈ due, ∃ now, s.passes[s.passes.length-1]? = some now ∧ e.deadline ≤ now
  ordered : s.handed.Pairwise (fun a b => a.pass = b.pass → a.pass ≠ none → s.Before a.wait b.wait)
  behind : ∀ h ∈ s.handed, h.pass = some (s.passes.length-1) → ∀ w ∈ s.firing, s.Before h.wait w
  line : s.firing.Pairwise s.Before
  next : ∀ w ∈ s.firing, ∀ e ∈ due, s.Before w e.wait
  fresh : due ≠ [] → (∃ fire, s.thread = .firing fire) ∧ ∀ h ∈ s.handed, h.pass ≠ some (s.passes.length-1)

structure Kept (others : Int) (due : List TimerEntry) (s : Timer) : Prop where
  heaped : s.Heaped due
  counted : s.Counted others
  timely : s.Timely due

section Steps

variable {s u : Timer} {others : Int} {due : List TimerEntry}

theorem initial_kept (others now : Int) : Kept others [] {outstanding := others,clock := now} := by
  refine ⟨⟨nofun,.nil,nofun⟩,⟨nofun,rfl,?_,.nil,?_⟩,⟨nofun,nofun,nofun,nofun,nofun,.nil,nofun,.nil,nofun,fun some => absurd rfl some⟩⟩
  · exact fun w => ⟨nofun,fun inside => nomatch inside.1⟩
  · simp [waiting,Tally.tally,held]

-- One wait is no longer waited for.
theorem waiting_modify {w : TimedId} (s : Timer) (change : TimedFields → TimedFields) (within : w < s.nextSerial)
    (before : ((s.fields w).delivered || (s.fields w).dropped) = false)
    (after : ((change (s.fields w)).delivered || (change (s.fields w)).dropped) = true) :
    (s.modifyFields w change).waiting+1 = s.waiting := by
  have moved := Tally.tally_update (fun _ x => if x.delivered || x.dropped then 0 else 1) s.fields (change (s.fields w)) within
  rw [before,after] at moved
  exact moved

theorem fields_modify (s : Timer) (w x : TimedId) (change : TimedFields → TimedFields) :
    (s.modifyFields w change).fields x = if x = w then change (s.fields w) else s.fields x := by
  by_cases same : x = w
  · rw [if_pos same,same]
    exact Function.update_self ..
  · rw [if_neg same]
    exact Function.update_of_ne same ..

theorem Heaped.moved (heaped : s.Heaped due) (heap : u.heap = s.heap) (serial : u.nextSerial = s.nextSerial)
    (deadlines : ∀ w, (u.fields w).deadline = (s.fields w).deadline) (live : ∀ w, (u.fields w).live = true → (s.fields w).live = true) :
    u.Heaped due := by
  refine ⟨?_,?_,?_⟩
  · rw [heap,serial]
    intro e member
    rw [deadlines]
    exact heaped.entries e member
  · rw [heap]
    exact heaped.sorted
  · rw [heap,serial]
    exact fun w within alive => heaped.queued w within (live w alive)

-- The first due entry is dealt with.
theorem Heaped.passed (heaped : s.Heaped (e :: due)) (heap : u.heap = s.heap) (serial : u.nextSerial = s.nextSerial)
    (deadlines : ∀ w, (u.fields w).deadline = (s.fields w).deadline) (live : ∀ w, (u.fields w).live = true → (s.fields w).live = true)
    (off : (u.fields e.wait).live = false) : u.Heaped due := by
  have moved := heaped.moved heap serial deadlines live
  refine ⟨fun f member => moved.entries f (List.mem_cons_of_mem _ member),(List.pairwise_cons.mp moved.sorted).2,?_⟩
  intro w within alive
  obtain ⟨f,member,same⟩ := moved.queued w within alive
  rcases List.mem_cons.mp member with rfl | rest
  · rw [same,alive] at off
    cases off
  · exact ⟨f,rest,same⟩

theorem Counted.bounded (counted : s.Counted others) (member : w ∈ s.taken) : w < s.nextSerial :=
  ((counted.marked w).mp member).1

theorem Counted.undelivered (counted : s.Counted others) (within : w < s.nextSerial) (live : (s.fields w).live = true) :
    ((s.fields w).delivered || (s.fields w).dropped) = false ∧ w ∉ s.taken := by
  have off := (counted.flags w within).1
  rw [live] at off
  have neither : ((s.fields w).delivered || (s.fields w).dropped) = false := by simpa using off.symm
  refine ⟨neither,?_⟩
  intro member
  rw [((counted.marked w).mp member).2] at neither
  cases neither

-- Submissions and releases: the waits themselves stay as they are.
theorem Counted.shifted (counted : s.Counted others) (fields : u.fields = s.fields) (serial : u.nextSerial = s.nextSerial)
    (live : u.live = s.live) (taken : u.taken.Perm s.taken)
    (external : u.outstanding+(s.cancelling.length+s.releasing+s.held : Nat) = s.outstanding+(u.cancelling.length+u.releasing+u.held : Nat)) :
    u.Counted others := by
  have waiting : u.waiting = s.waiting := by
    unfold Timer.waiting
    rw [fields,serial]
  refine ⟨?_,?_,?_,?_,?_⟩
  · rw [fields,serial]
    exact counted.flags
  · rw [live,waiting]
    exact counted.live
  · intro w
    rw [taken.mem_iff,fields,serial]
    exact counted.marked w
  · exact taken.nodup_iff.mpr counted.once
  · have before := counted.external
    rw [waiting]
    push_cast at external
    omega

-- A wait is taken, by a cancel or by a pass.
theorem Counted.delivered (counted : s.Counted others) (within : w < s.nextSerial) (live : (s.fields w).live = true)
    (fields : u.fields = (s.deliver w).fields) (serial : u.nextSerial = s.nextSerial) (fewer : u.live = s.live-1)
    (taken : u.taken.Perm (w :: s.taken)) (outstanding : u.outstanding = s.outstanding)
    (flight : u.cancelling.length+u.releasing+u.held = s.cancelling.length+s.releasing+s.held+1) : u.Counted others := by
  obtain ⟨neither,absent⟩ := counted.undelivered within live
  have undropped : (s.fields w).dropped = false := (Bool.or_eq_false_iff.mp neither).2
  have waiting : u.waiting+1 = s.waiting := by
    have moved := waiting_modify s (fun x => {x with live := false,delivered := true}) within neither rfl
    unfold Timer.waiting at moved ⊢
    rw [fields,serial]
    exact moved
  have at_ : ∀ x, u.fields x = if x = w then {s.fields w with live := false,delivered := true} else s.fields x := by
    intro x
    rw [fields]
    exact fields_modify s w x (fun x => {x with live := false,delivered := true})
  refine ⟨?_,?_,?_,?_,?_⟩
  · intro x inside
    rw [serial] at inside
    rw [at_]
    split
    · exact ⟨rfl,undropped⟩
    · exact counted.flags x inside
  · have before := counted.live
    omega
  · intro x
    rw [taken.mem_iff,serial,at_,List.mem_cons]
    split
    · rename_i same
      rw [same]
      exact ⟨fun _ => ⟨within,rfl⟩,fun _ => .inl rfl⟩
    · rename_i other
      rw [or_iff_right other]
      exact counted.marked x
  · exact taken.nodup_iff.mpr (List.nodup_cons.mpr ⟨absent,counted.once⟩)
  · have before := counted.external
    omega

theorem before_congr (one : (u.fields a).deadline = (s.fields a).deadline) (two : (u.fields b).deadline = (s.fields b).deadline) :
    u.Before a b ↔ s.Before a b := by
  unfold Before
  rw [one,two]

theorem mem_handed_taken (member : h ∈ s.handed) : h.wait ∈ s.taken :=
  List.mem_append_left _ (List.mem_map_of_mem member)

theorem mem_firing_taken (member : w ∈ s.firing) : w ∈ s.taken :=
  List.mem_append_right _ (List.mem_append_right _ member)

-- What does not deliver leaves the order of the deliveries alone.
theorem Timely.kept (timely : s.Timely due) (deadlines : ∀ w, w ∈ s.taken ∨ (∃ e ∈ due, e.wait = w) → (u.fields w).deadline = (s.fields w).deadline)
    (handed : u.handed = s.handed) (firing : u.firing = s.firing) (passes : u.passes = s.passes)
    (thread : due ≠ [] → u.thread = s.thread) (called : ∀ w ∈ u.cancelling, w ∈ u.cancels) (cancels : ∀ w ∈ s.cancels, w ∈ u.cancels) :
    u.Timely due := by
  refine ⟨called,?_,?_,?_,?_,?_,?_,?_,?_,?_⟩
  · rw [handed]
    exact fun h member pass => cancels _ (timely.cancelled h member pass)
  · rw [handed,passes]
    intro h member p pass
    obtain ⟨now,reading,less⟩ := timely.reached h member p pass
    rw [deadlines _ (.inl (mem_handed_taken member))]
    exact ⟨now,reading,less⟩
  · rw [firing,passes]
    intro w member
    rw [deadlines _ (.inl (mem_firing_taken member))]
    exact timely.firing w member
  · rw [passes]
    exact timely.late
  · rw [handed]
    refine timely.ordered.imp_of_mem ?_
    intro a b first second before same pass
    rw [before_congr (deadlines _ (.inl (mem_handed_taken first))) (deadlines _ (.inl (mem_handed_taken second)))]
    exact before same pass
  · rw [handed,passes,firing]
    intro h first pass w second
    rw [before_congr (deadlines _ (.inl (mem_handed_taken first))) (deadlines _ (.inl (mem_firing_taken second)))]
    exact timely.behind h first pass w second
  · rw [firing]
    refine timely.line.imp_of_mem ?_
    intro a b first second before
    rw [before_congr (deadlines _ (.inl (mem_firing_taken first))) (deadlines _ (.inl (mem_firing_taken second)))]
    exact before
  · rw [firing]
    intro w first e second
    rw [before_congr (deadlines _ (.inl (mem_firing_taken first))) (deadlines _ (.inr ⟨e,second,rfl⟩))]
    exact timely.next w first e second
  · intro some
    rw [thread some,handed,passes]
    exact timely.fresh some

theorem push_mem {heap : List TimerEntry} : f ∈ pushHeap heap e ↔ f = e ∨ f ∈ heap := List.mem_orderedInsert _

-- The entry just armed has the largest serial.
theorem push_sorted (heap : List TimerEntry) (e : TimerEntry) (sorted : heap.Pairwise (fun a b => b.later a = true))
    (last : ∀ f ∈ heap, f.serial < e.serial) : (pushHeap heap e).Pairwise (fun a b => b.later a = true) := by
  unfold pushHeap
  induction heap with
  | nil => exact List.pairwise_singleton ..
  | cons f rest ih =>
    obtain ⟨first,others⟩ := List.pairwise_cons.mp sorted
    have newer := last f List.mem_cons_self
    rw [List.orderedInsert_cons]
    split
    · rename_i earlier
      refine List.pairwise_cons.mpr ⟨?_,sorted⟩
      intro g member
      rcases List.mem_cons.mp member with rfl | inside
      · exact earlier
      · have after := TimerEntry.later_iff.mp (first g inside)
        have before := TimerEntry.later_iff.mp earlier
        exact TimerEntry.later_iff.mpr (by omega)
    · rename_i no
      refine List.pairwise_cons.mpr ⟨?_,ih others (fun g inside => last g (List.mem_cons_of_mem _ inside))⟩
      intro g member
      rcases (List.mem_orderedInsert _).mp member with rfl | inside
      · have not_before : ¬_ := fun before => no (TimerEntry.later_iff.mpr before)
        exact TimerEntry.later_iff.mpr (by omega)
      · exact first g inside

theorem arm_kept (kept : s.Kept others []) (deadline : Int) : (s.arm deadline).Kept others [] := by
  have at_ : ∀ x, (s.arm deadline).fields x = if x = s.nextSerial then {deadline := deadline,live := true} else s.fields x := by
    intro x
    have same : (s.arm deadline).fields = Function.update s.fields s.nextSerial {deadline := deadline,live := true} := by
      unfold arm
      dsimp only
      split <;> rfl
    rw [same]
    by_cases new : x = s.nextSerial
    · rw [if_pos new,new,Function.update_self]
    · rw [if_neg new,Function.update_of_ne new]
  have old : ∀ x, x < s.nextSerial → (s.arm deadline).fields x = s.fields x := by
    intro x inside
    rw [at_,if_neg (Nat.ne_of_lt inside)]
  have firing : (s.arm deadline).firing = s.firing ∧ (s.arm deadline).held = s.held := by
    unfold Timer.firing held arm
    dsimp only
    by_cases absent : s.thread = .absent
    · rw [if_pos absent,absent]
      exact ⟨rfl,rfl⟩
    · rw [if_neg absent]
      exact ⟨rfl,rfl⟩
  have fixed : (s.arm deadline).heap = pushHeap s.heap ⟨deadline,s.nextSerial,s.nextSerial⟩ ∧ (s.arm deadline).nextSerial = s.nextSerial+1 ∧
      (s.arm deadline).live = s.live+1 ∧ (s.arm deadline).handed = s.handed ∧ (s.arm deadline).cancelling = s.cancelling ∧
      (s.arm deadline).releasing = s.releasing ∧ (s.arm deadline).outstanding = s.outstanding+1 ∧
      (s.arm deadline).passes = s.passes ∧ (s.arm deadline).cancels = s.cancels := by
    unfold arm
    dsimp only
    split <;> exact ⟨rfl,rfl,rfl,rfl,rfl,rfl,rfl,rfl,rfl⟩
  obtain ⟨heap,serial,live,handed,cancelling,releasing,outstanding,passes,cancels⟩ := fixed
  have taken : (s.arm deadline).taken = s.taken := by
    unfold Timer.taken
    rw [handed,cancelling,firing.1]
  have waiting : (s.arm deadline).waiting = s.waiting+1 := by
    have joined := Tally.tally_join (n := s.nextSerial) (fun _ x => if x.delivered || x.dropped then 0 else 1) s.fields
      {deadline := deadline,live := true}
    unfold Timer.waiting
    rw [serial]
    refine Eq.trans (Tally.tally_congr ?_) joined
    intro x _
    rw [at_]
    by_cases new : x = s.nextSerial
    · rw [if_pos new,new,Function.update_self]
    · rw [if_neg new,Function.update_of_ne new]
  refine ⟨⟨?_,?_,?_⟩,⟨?_,?_,?_,?_,?_⟩,?_⟩
  · rw [heap,serial]
    intro e member
    rcases push_mem.mp member with rfl | inside
    · rw [at_,if_pos rfl]
      exact ⟨Nat.lt_succ_self _,rfl,rfl⟩
    · obtain ⟨within,same,due⟩ := kept.heaped.entries e inside
      rw [old e.wait within]
      exact ⟨Nat.lt_succ_of_lt within,same,due⟩
  · rw [heap]
    refine push_sorted s.heap _ kept.heaped.sorted ?_
    intro f member
    obtain ⟨within,same,-⟩ := kept.heaped.entries f member
    rw [same]
    exact within
  · rw [heap,serial]
    intro w within alive
    rcases Nat.lt_or_eq_of_le (Nat.le_of_lt_succ within) with less | last
    · rw [old w less] at alive
      obtain ⟨e,member,same⟩ := kept.heaped.queued w less alive
      exact ⟨e,push_mem.mpr (.inr member),same⟩
    · exact ⟨_,push_mem.mpr (.inl rfl),last.symm⟩
  · rw [serial]
    intro w within
    rcases Nat.lt_or_eq_of_le (Nat.le_of_lt_succ within) with less | last
    · rw [old w less]
      exact kept.counted.flags w less
    · rw [at_,if_pos last]
      exact ⟨rfl,rfl⟩
  · have before := kept.counted.live
    omega
  · rw [taken,serial]
    intro w
    rw [kept.counted.marked w]
    constructor
    · rintro ⟨within,delivered⟩
      rw [old w within]
      exact ⟨Nat.lt_succ_of_lt within,delivered⟩
    · rintro ⟨within,delivered⟩
      rcases Nat.lt_or_eq_of_le (Nat.le_of_lt_succ within) with less | last
      · rw [old w less] at delivered
        exact ⟨less,delivered⟩
      · rw [at_,if_pos last] at delivered
        cases delivered
  · rw [taken]
    exact kept.counted.once
  · have before := kept.counted.external
    rw [cancelling,releasing,firing.2,waiting,outstanding]
    omega
  · refine kept.timely.kept ?_ handed firing.1 passes (fun some => absurd rfl some) ?_ ?_
    · rintro w (member | ⟨e,member,-⟩)
      · rw [old w (kept.counted.bounded member)]
      · cases member
    · rw [cancelling,cancels]
      exact kept.timely.called
    · rw [cancels]
      exact fun w member => member

theorem deliver_live (s : Timer) (w x : TimedId) (alive : ((s.deliver w).fields x).live = true) : (s.fields x).live = true := by
  have at_ : (s.deliver w).fields x = if x = w then {s.fields w with live := false,delivered := true} else s.fields x :=
    fields_modify s w x (fun x => {x with live := false,delivered := true})
  rw [at_] at alive
  split at alive
  · cases alive
  · exact alive

theorem deliver_deadline (s : Timer) (w x : TimedId) : ((s.deliver w).fields x).deadline = (s.fields x).deadline := by
  have at_ : (s.deliver w).fields x = if x = w then {s.fields w with live := false,delivered := true} else s.fields x :=
    fields_modify s w x (fun x => {x with live := false,delivered := true})
  rw [at_]
  split
  · rename_i same
    rw [same]
  · rfl

theorem cancel_kept (kept : s.Kept others []) (within : w < s.nextSerial) : (s.cancel w).Kept others [] := by
  unfold cancel
  dsimp only
  split
  · rename_i live
    refine ⟨kept.heaped.moved rfl rfl (deliver_deadline s w) (deliver_live s w),
      kept.counted.delivered within live rfl rfl rfl ?_ rfl ?_,kept.timely.kept (fun x _ => deliver_deadline s w x) rfl rfl rfl
        (fun some => absurd rfl some) ?_ (fun _ => List.mem_append_left _)⟩
    · change (s.handed.map TimedDelivery.wait++((s.cancelling++[w])++s.firing)).Perm (w :: (s.handed.map TimedDelivery.wait++(s.cancelling++s.firing)))
      have inner : ((s.cancelling++[w])++s.firing).Perm (w :: (s.cancelling++s.firing)) := by
        rw [List.append_assoc]
        exact List.perm_middle
      exact (List.Perm.append_left _ inner).trans List.perm_middle
    · change (s.cancelling++[w]).length+s.releasing+s.held = _
      rw [List.length_append,List.length_singleton]
      omega
    · intro x member
      rcases List.mem_append.mp member with old | last
      · exact List.mem_append_left _ (kept.timely.called x old)
      · exact List.mem_append_right _ last
  · exact ⟨kept.heaped.moved rfl rfl (fun _ => rfl) (fun _ live => live),kept.counted.shifted rfl rfl rfl (List.Perm.refl _) rfl,
      kept.timely.kept (fun _ _ => rfl) rfl rfl rfl (fun some => absurd rfl some) (fun x member => List.mem_append_left _ (kept.timely.called x member))
        (fun _ => List.mem_append_left _)⟩

theorem release_kept (kept : s.Kept others []) (some_left : 0 < s.releasing) : s.release.Kept others [] := by
  refine ⟨kept.heaped.moved rfl rfl (fun _ => rfl) (fun _ live => live),kept.counted.shifted rfl rfl rfl (List.Perm.refl _) ?_,
    kept.timely.kept (fun _ _ => rfl) rfl rfl rfl (fun some => absurd rfl some) kept.timely.called (fun _ member => member)⟩
  change s.outstanding+(-1)+(s.cancelling.length+s.releasing+s.held : Nat) = s.outstanding+(s.cancelling.length+(s.releasing-1)+s.held : Nat)
  omega

theorem submit_kept (kept : s.Kept others []) (member : w ∈ s.cancelling) : (s.submit w).Kept others [] := by
  have old : s.Timely [] := kept.timely
  refine ⟨kept.heaped.moved rfl rfl (fun _ => rfl) (fun _ live => live),kept.counted.shifted rfl rfl rfl ?_ ?_,
    ⟨fun x inside => old.called x (List.mem_of_mem_erase inside),?_,?_,old.firing,nofun,?_,?_,old.line,nofun,fun some => absurd rfl some⟩⟩
  · change ((s.handed++[(⟨w,none⟩ : TimedDelivery)]).map TimedDelivery.wait++(s.cancelling.erase w++s.firing)).Perm (s.handed.map TimedDelivery.wait++(s.cancelling++s.firing))
    rw [List.map_append,List.append_assoc]
    refine List.Perm.append_left _ ?_
    exact ((List.perm_cons_erase member).symm).append_right _
  · change s.outstanding+(s.cancelling.length+s.releasing+s.held : Nat) = s.outstanding+((s.cancelling.erase w).length+(s.releasing+1)+s.held : Nat)
    have some_left := List.length_pos_of_mem member
    rw [List.length_erase_of_mem member]
    omega
  · intro h inside pass
    rcases List.mem_append.mp inside with before | last
    · exact old.cancelled h before pass
    · rw [List.mem_singleton.mp last]
      exact old.called w member
  · intro h inside p pass
    rcases List.mem_append.mp inside with before | last
    · exact old.reached h before p pass
    · rw [List.mem_singleton.mp last] at pass
      cases pass
  · refine List.pairwise_append.mpr ⟨old.ordered,List.pairwise_singleton ..,?_⟩
    intro a _ b last same pass
    rw [List.mem_singleton.mp last] at same
    exact absurd same pass
  · intro h inside pass x ahead
    rcases List.mem_append.mp inside with before | last
    · exact old.behind h before pass x ahead
    · rw [List.mem_singleton.mp last] at pass
      cases pass

-- The loop over `due`: one entry, and then all.
theorem take_kept (kept : s.Kept others (e :: due)) : (s.take e).Kept others due := by
  obtain ⟨⟨fire,thread⟩,fresh⟩ := kept.timely.fresh (List.cons_ne_nil _ _)
  have firing : s.firing = fire := by
    unfold Timer.firing
    rw [thread]
  have held : s.held = fire.length := by
    unfold Timer.held
    rw [thread]
  have first := kept.heaped.entries e (List.mem_append_left _ List.mem_cons_self)
  obtain ⟨within,serial,deadline⟩ := first
  -- the entries come in their order
  have ahead : ∀ f ∈ due, s.Before e.wait f.wait := by
    intro f member
    have order := TimerEntry.later_iff.mp ((List.pairwise_cons.mp kept.heaped.sorted).1 f (List.mem_append_left _ member))
    obtain ⟨-,serial',deadline'⟩ := kept.heaped.entries f (List.mem_append_left _ (List.mem_cons_of_mem _ member))
    unfold Before
    rw [deadline,deadline',← serial,← serial']
    exact order
  unfold take
  split
  · rename_i live
    rw [thread]
    have deadlines := deliver_deadline s e.wait
    have before : ∀ a b, s.Before a b → ({s.deliver e.wait with thread := .firing (fire++[e.wait])} : Timer).Before a b :=
      fun a b => (before_congr (deadlines a) (deadlines b)).mpr
    refine ⟨kept.heaped.passed rfl rfl deadlines (deliver_live s e.wait) ?_,kept.counted.delivered within live rfl rfl rfl ?_ rfl ?_,
      ⟨kept.timely.called,kept.timely.cancelled,?_,?_,?_,?_,?_,?_,?_,?_⟩⟩
    · change ((s.deliver e.wait).fields e.wait).live = false
      exact (congrArg TimedFields.live (fields_modify s e.wait e.wait (fun x => {x with live := false,delivered := true}))).trans
        (congrArg TimedFields.live (if_pos rfl))
    · change (s.handed.map TimedDelivery.wait++(s.cancelling++(fire++[e.wait]))).Perm (e.wait :: (s.handed.map TimedDelivery.wait++(s.cancelling++s.firing)))
      rw [firing,← List.append_assoc,← List.append_assoc,← List.append_assoc]
      exact (List.perm_append_comm).trans (List.Perm.refl _)
    · change s.cancelling.length+s.releasing+(fire++[e.wait]).length = _
      rw [held,List.length_append,List.length_singleton]
      omega
    · intro h member p pass
      obtain ⟨now,reading,less⟩ := kept.timely.reached h member p pass
      exact ⟨now,reading,by rw [deadlines]; exact less⟩
    · intro w member
      rcases List.mem_append.mp member with old | last
      · rw [← firing] at old
        obtain ⟨now,reading,less⟩ := kept.timely.firing w old
        exact ⟨now,reading,by rw [deadlines]; exact less⟩
      · rw [List.mem_singleton.mp last]
        obtain ⟨now,reading,less⟩ := kept.timely.late e List.mem_cons_self
        exact ⟨now,reading,by rw [deadlines,deadline]; exact less⟩
    · exact fun f member => kept.timely.late f (List.mem_cons_of_mem _ member)
    · exact kept.timely.ordered.imp (fun order same pass => before _ _ (order same pass))
    · intro h member pass
      exact absurd pass (fresh h member)
    · refine List.pairwise_append.mpr ⟨?_,List.pairwise_singleton ..,?_⟩
      · rw [← firing]
        exact kept.timely.line.imp (before _ _)
      · intro w old x last
        rw [← firing] at old
        rw [List.mem_singleton.mp last]
        exact before _ _ (kept.timely.next w old e List.mem_cons_self)
    · intro w member f later
      rcases List.mem_append.mp member with old | last
      · rw [← firing] at old
        exact before _ _ (kept.timely.next w old f (List.mem_cons_of_mem _ later))
      · rw [List.mem_singleton.mp last]
        exact before _ _ (ahead f later)
    · exact fun _ => ⟨⟨_,rfl⟩,fresh⟩
  · rename_i off
    refine ⟨kept.heaped.passed rfl rfl (fun _ => rfl) (fun _ live => live) (by simpa using off),kept.counted,
      ⟨kept.timely.called,kept.timely.cancelled,kept.timely.reached,kept.timely.firing,?_,kept.timely.ordered,kept.timely.behind,
        kept.timely.line,?_,fun _ => ⟨⟨fire,thread⟩,fresh⟩⟩⟩
    · exact fun f member => kept.timely.late f (List.mem_cons_of_mem _ member)
    · exact fun w member f later => kept.timely.next w member f (List.mem_cons_of_mem _ later)

theorem takes_kept (kept : s.Kept others due) : (due.foldl take s).Kept others [] := by
  induction due generalizing s with
  | nil => exact kept
  | cons e rest ih => exact ih (take_kept kept)

theorem look_kept (kept : s.Kept others []) (looking : s.thread = .looking) (first now : Int) : (s.look first now).Kept others [] := by
  have none_held : s.firing = [] ∧ s.held = 0 := by
    unfold Timer.firing Timer.held
    rw [looking]
    exact ⟨rfl,rfl⟩
  unfold look
  split
  · have taken : ({s with thread := .exited} : Timer).taken = s.taken := by
      unfold Timer.taken
      rw [none_held.1]
      rfl
    refine ⟨kept.heaped.moved rfl rfl (fun _ => rfl) (fun _ live => live),kept.counted.shifted rfl rfl rfl (by rw [taken]) ?_,
      kept.timely.kept (fun _ _ => rfl) rfl none_held.1.symm rfl (fun some => absurd rfl some) kept.timely.called (fun _ member => member)⟩
    rw [none_held.2]
    rfl
  · split
    · exact kept
    · rename_i head rest heap
      split
      · exact ⟨kept.heaped.moved rfl rfl (fun _ => rfl) (fun _ live => live),kept.counted.shifted rfl rfl rfl (List.Perm.refl _) rfl,
          kept.timely.kept (fun _ _ => rfl) rfl rfl rfl (fun some => absurd rfl some) kept.timely.called (fun _ member => member)⟩
      · have split_ : s.heap.takeWhile (fun e => decide (e.deadline ≤ now))++s.heap.dropWhile (fun e => decide (e.deadline ≤ now)) = s.heap :=
          List.takeWhile_append_dropWhile
        have old : ∀ h ∈ s.handed, h.pass ≠ some s.passes.length := by
          intro h member pass
          obtain ⟨t,reading,-⟩ := kept.timely.reached h member _ pass
          exact absurd (List.getElem?_eq_some_iff.mp reading).1 (Nat.lt_irrefl _)
        have latest : (s.passes++[now]).length-1 = s.passes.length := by
          rw [List.length_append]
          rfl
        refine takes_kept ⟨⟨?_,?_,?_⟩,kept.counted.shifted rfl rfl rfl ?_ ?_,
          ⟨kept.timely.called,kept.timely.cancelled,?_,nofun,?_,kept.timely.ordered,nofun,.nil,nofun,?_⟩⟩
        · dsimp only
          rw [split_]
          exact kept.heaped.entries
        · dsimp only
          rw [split_]
          exact kept.heaped.sorted
        · dsimp only
          rw [split_]
          exact kept.heaped.queued
        · unfold Timer.taken
          rw [none_held.1]
          exact List.Perm.refl _
        · rw [none_held.2]
          rfl
        · intro h member p pass
          obtain ⟨t,reading,less⟩ := kept.timely.reached h member p pass
          exact ⟨t,List.getElem?_append_left (List.getElem?_eq_some_iff.mp reading).1 ▸ reading,less⟩
        · intro e member
          refine ⟨now,?_,by simpa using List.mem_takeWhile_imp member⟩
          change (s.passes++[now])[(s.passes++[now]).length-1]? = some now
          rw [latest]
          exact List.getElem?_concat_length
        · intro _
          refine ⟨⟨[],rfl⟩,?_⟩
          intro h member
          change h.pass ≠ some ((s.passes++[now]).length-1)
          rw [latest]
          exact old h member

theorem fire_kept (kept : s.Kept others []) : s.fire.Kept others [] := by
  unfold fire
  split
  · rename_i w rest thread
    have firing : s.firing = w :: rest := by
      unfold Timer.firing
      rw [thread]
    have held : s.held = rest.length+1 := by
      unfold Timer.held
      rw [thread]
      rfl
    have line := kept.timely.line
    rw [firing] at line
    have first : w ∈ s.firing := by
      rw [firing]
      exact List.mem_cons_self
    have later : ∀ x ∈ rest, x ∈ s.firing := by
      intro x member
      rw [firing]
      exact List.mem_cons_of_mem _ member
    refine ⟨kept.heaped.moved rfl rfl (fun _ => rfl) (fun _ live => live),kept.counted.shifted rfl rfl rfl ?_ ?_,
      ⟨kept.timely.called,?_,?_,?_,nofun,?_,?_,(List.pairwise_cons.mp line).2,nofun,fun some => absurd rfl some⟩⟩
    · change ((s.handed++[(⟨w,some (s.passes.length-1)⟩ : TimedDelivery)]).map TimedDelivery.wait++(s.cancelling++rest)).Perm
        (s.handed.map TimedDelivery.wait++(s.cancelling++s.firing))
      rw [firing,List.map_append,List.append_assoc]
      refine List.Perm.append_left _ ?_
      change (w :: (s.cancelling++rest)).Perm (s.cancelling++w :: rest)
      exact List.perm_middle.symm
    · rw [held]
      rfl
    · intro h member pass
      rcases List.mem_append.mp member with old | last
      · exact kept.timely.cancelled h old pass
      · rw [List.mem_singleton.mp last] at pass
        cases pass
    · intro h member p pass
      rcases List.mem_append.mp member with old | last
      · exact kept.timely.reached h old p pass
      · rw [List.mem_singleton.mp last] at pass ⊢
        cases pass
        exact kept.timely.firing w first
    · exact fun x member => kept.timely.firing x (later x member)
    · refine List.pairwise_append.mpr ⟨kept.timely.ordered,List.pairwise_singleton ..,?_⟩
      intro a old b last same _
      rw [List.mem_singleton.mp last] at same ⊢
      exact kept.timely.behind a old same w first
    · intro h member pass x ahead
      rcases List.mem_append.mp member with old | last
      · exact kept.timely.behind h old pass x (later x ahead)
      · rw [List.mem_singleton.mp last]
        exact (List.pairwise_cons.mp line).1 x ahead
  · rename_i thread
    have none_held : s.firing = [] ∧ s.held = 0 := by
      unfold Timer.firing Timer.held
      rw [thread]
      exact ⟨rfl,rfl⟩
    refine ⟨kept.heaped.moved rfl rfl (fun _ => rfl) (fun _ live => live),kept.counted.shifted rfl rfl rfl ?_ ?_,
      kept.timely.kept (fun _ _ => rfl) rfl none_held.1.symm rfl (fun some => absurd rfl some) kept.timely.called (fun _ member => member)⟩
    · unfold Timer.taken
      rw [none_held.1]
      exact List.Perm.refl _
    · rw [none_held.2]
      rfl
  · rename_i rest thread
    have firing : s.firing = rest ∧ s.held = rest.length+1 := by
      unfold Timer.firing Timer.held
      rw [thread]
      exact ⟨rfl,rfl⟩
    refine ⟨kept.heaped.moved rfl rfl (fun _ => rfl) (fun _ live => live),kept.counted.shifted rfl rfl rfl ?_ ?_,
      kept.timely.kept (fun _ _ => rfl) rfl firing.1.symm rfl (fun some => absurd rfl some) kept.timely.called (fun _ member => member)⟩
    · unfold Timer.taken
      rw [firing.1]
      exact List.Perm.refl _
    · rw [firing.2]
      change s.outstanding+(-1)+(s.cancelling.length+s.releasing+(rest.length+1) : Nat) = s.outstanding+(s.cancelling.length+s.releasing+rest.length : Nat)
      omega
  · exact kept

-- The loop of `shutdown` over the heap: as `due` in a pass, but nothing is taken.
structure Dropping (others : Int) (rest : List TimerEntry) (s : Timer) : Prop where
  entries : ∀ e ∈ rest, e.wait < s.nextSerial
  queued : ∀ w, w < s.nextSerial → (s.fields w).live = true → ∃ e ∈ rest, e.wait = w
  flags : ∀ w, w < s.nextSerial → (s.fields w).live = !((s.fields w).delivered || (s.fields w).dropped) ∧
    ((s.fields w).delivered && (s.fields w).dropped) = false
  marked : ∀ w, w ∈ s.taken ↔ w < s.nextSerial ∧ (s.fields w).delivered = true
  once : s.taken.Nodup
  external : s.outstanding = others+s.waiting+s.cancelling.length+s.releasing+s.held
  timely : s.Timely []

theorem drop_dropping (dropping : s.Dropping others (e :: rest)) : (s.drop e).Dropping others rest := by
  have within := dropping.entries e List.mem_cons_self
  unfold drop
  split
  · rename_i live
    have off := dropping.flags e.wait within
    rw [live] at off
    have neither : ((s.fields e.wait).delivered || (s.fields e.wait).dropped) = false := by simpa using off.1.symm
    have undelivered : (s.fields e.wait).delivered = false := (Bool.or_eq_false_iff.mp neither).1
    have at_ : ∀ x, ((s.modifyFields e.wait (fun x => {x with live := false,dropped := true})).externalWaitAdd (-1)).fields x =
        if x = e.wait then {s.fields e.wait with live := false,dropped := true} else s.fields x :=
      fun x => fields_modify s e.wait x (fun x => {x with live := false,dropped := true})
    have waiting := waiting_modify s (fun x => {x with live := false,dropped := true}) within neither (Bool.or_true _)
    refine ⟨fun f member => dropping.entries f (List.mem_cons_of_mem _ member),?_,?_,?_,dropping.once,?_,
      dropping.timely.kept ?_ rfl rfl rfl (fun some => absurd rfl some) dropping.timely.called (fun _ member => member)⟩
    · intro w inside alive
      rw [at_] at alive
      split at alive
      · cases alive
      · rename_i other
        obtain ⟨f,member,same⟩ := dropping.queued w inside alive
        rcases List.mem_cons.mp member with rfl | later
        · exact absurd same.symm other
        · exact ⟨f,later,same⟩
    · intro w inside
      rw [at_]
      split
      · change false = !((s.fields e.wait).delivered || true) ∧ ((s.fields e.wait).delivered && true) = false
        rw [undelivered]
        exact ⟨rfl,rfl⟩
      · exact dropping.flags w inside
    · intro w
      refine (dropping.marked w).trans ?_
      rw [at_]
      split
      · rename_i same
        rw [same]
        exact Iff.rfl
      · exact Iff.rfl
    · have before := dropping.external
      change s.outstanding+(-1) = others+(s.modifyFields e.wait (fun x => {x with live := false,dropped := true})).waiting+
        s.cancelling.length+s.releasing+s.held
      omega
    · intro w _
      rw [at_]
      split
      · rename_i same
        rw [same]
      · rfl
  · rename_i off
    refine ⟨fun f member => dropping.entries f (List.mem_cons_of_mem _ member),?_,dropping.flags,dropping.marked,dropping.once,
      dropping.external,dropping.timely⟩
    intro w inside alive
    obtain ⟨f,member,same⟩ := dropping.queued w inside alive
    rcases List.mem_cons.mp member with rfl | later
    · rw [same] at off
      exact absurd alive off
    · exact ⟨f,later,same⟩

theorem drops_dropping (dropping : s.Dropping others rest) : (rest.foldl drop s).Dropping others [] := by
  induction rest generalizing s with
  | nil => exact dropping
  | cons e rest ih => exact ih (drop_dropping dropping)

theorem shutdown_kept (kept : s.Kept others []) (checks checkArmed : Bool) : (s.shutdown checks checkArmed).Kept others [] := by
  unfold shutdown
  split
  · exact kept
  · split
    · exact ⟨kept.heaped.moved rfl rfl (fun _ => rfl) (fun _ live => live),kept.counted.shifted rfl rfl rfl (List.Perm.refl _) rfl,
        kept.timely.kept (fun _ _ => rfl) rfl rfl rfl (fun some => absurd rfl some) kept.timely.called (fun _ member => member)⟩
    · have start : Dropping others s.heap {s with stopping := true} := by
        refine ⟨fun e member => (kept.heaped.entries e member).1,kept.heaped.queued,kept.counted.flags,kept.counted.marked,kept.counted.once,
          kept.counted.external,?_⟩
        exact kept.timely.kept (fun _ _ => rfl) rfl rfl rfl (fun some => absurd rfl some) kept.timely.called (fun _ member => member)
      have dropped := drops_dropping start
      -- nothing is waited for any more
      have none_left : (s.heap.foldl drop {s with stopping := true}).waiting = 0 := by
        refine Tally.tally_zero.mpr ?_
        intro w within
        have off : ((s.heap.foldl drop {s with stopping := true}).fields w).live = false := by
          refine Bool.eq_false_iff.mpr ?_
          intro alive
          obtain ⟨e,member,-⟩ := dropped.queued w within alive
          cases member
        have flags := (dropped.flags w within).1
        rw [off] at flags
        refine if_pos ?_
        cases either : (((s.heap.foldl drop {s with stopping := true}).fields w).delivered ||
            ((s.heap.foldl drop {s with stopping := true}).fields w).dropped) with
        | true => rfl
        | false =>
          rw [either] at flags
          cases flags
      refine ⟨⟨nofun,.nil,fun w within alive => dropped.queued w within alive⟩,⟨dropped.flags,?_,dropped.marked,dropped.once,dropped.external⟩,?_⟩
      · exact (congrArg Nat.cast none_left).symm
      · exact dropped.timely.kept (fun _ _ => rfl) rfl rfl rfl (fun some => absurd rfl some) dropped.timely.called (fun _ member => member)

theorem joined_kept (kept : s.Kept others []) (exited : s.thread = .exited) : s.joined.Kept others [] := by
  have none_held : s.firing = [] ∧ s.held = 0 := by
    unfold Timer.firing Timer.held
    rw [exited]
    exact ⟨rfl,rfl⟩
  refine ⟨kept.heaped.moved rfl rfl (fun _ => rfl) (fun _ live => live),kept.counted.shifted rfl rfl rfl ?_ ?_,
    kept.timely.kept (fun _ _ => rfl) rfl none_held.1.symm rfl (fun some => absurd rfl some) kept.timely.called (fun _ member => member)⟩
  · unfold Timer.taken
    rw [none_held.1]
    exact List.Perm.refl _
  · rw [none_held.2]
    rfl

theorem apply_kept (checks : Bool) (kept : s.Kept others []) (allowed : s.Allowed a) : (s.apply checks a).Kept others [] := by
  cases a with
  | arm deadline => exact arm_kept kept deadline
  | cancel w => exact cancel_kept kept allowed.2
  | submit w => exact submit_kept kept allowed.2
  | release => exact release_kept kept allowed.2
  | look first now => exact look_kept kept allowed.2.1 first now
  | fire => exact fire_kept kept
  | shutdown checkArmed => exact shutdown_kept kept checks checkArmed
  | joined => exact joined_kept kept allowed.2.2

end Steps

theorem reached_kept (path : Machines.Reached (timerSystem checks others) s) : s.Kept others [] := by
  refine Machines.reached_invariant (Kept others []) ?_ ?_ path
  · rintro s ⟨now,rfl⟩
    exact initial_kept others now
  · exact fun s a kept allowed => apply_kept checks kept allowed

-- No call of `cancel` and no pass is between taking a wait and the release of its
-- registration.
def Quiet (s : Timer) : Prop := s.cancelling = [] ∧ s.releasing = 0 ∧ s.fires = false

-- Every wait is delivered at most once, by a cancel or by a pass at its deadline or
-- later, in order within a pass; it is in the heap, in a delivery or delivered, or
-- dropped; and the counters say how many are in the heap.
structure Exact (others : Int) (s : Timer) : Prop where
  once : (s.handed.map TimedDelivery.wait).Nodup
  cancelled : ∀ h ∈ s.handed, h.pass = none → h.wait ∈ s.cancels
  reached : ∀ h ∈ s.handed, ∀ p, h.pass = some p → ∃ now, s.passes[p]? = some now ∧ (s.fields h.wait).deadline ≤ now
  ordered : s.handed.Pairwise (fun a b => a.pass = b.pass → a.pass ≠ none → s.Before a.wait b.wait)
  placed : ∀ w, w < s.nextSerial →
    ((s.fields w).delivered = false ∧ (s.fields w).dropped = false ∧ (∃ e ∈ s.heap, e.wait = w) ∧ w ∉ s.handed.map TimedDelivery.wait) ∨
    ((s.fields w).delivered = true ∧ (s.fields w).dropped = false ∧
      (w ∈ s.handed.map TimedDelivery.wait ∨ w ∈ s.cancelling ∨ w ∈ s.firing)) ∨
    ((s.fields w).delivered = false ∧ (s.fields w).dropped = true ∧ w ∉ s.handed.map TimedDelivery.wait)
  settled : s.Quiet → ∀ w, w < s.nextSerial → (s.fields w).delivered = true → w ∈ s.handed.map TimedDelivery.wait
  live : s.live = s.waiting
  external : s.Quiet → s.outstanding-s.waiting = others

theorem Kept.exact {s : Timer} {others : Int} (kept : s.Kept others []) : s.Exact others := by
  have quiet : s.Quiet → s.firing = [] ∧ s.held = 0 := by
    rintro ⟨-,-,still⟩
    unfold fires at still
    unfold Timer.firing held
    cases thread : s.thread with
    | firing fire => rw [thread] at still; cases still
    | releasing fire => rw [thread] at still; cases still
    | _ => exact ⟨rfl,rfl⟩
  have member : ∀ w, w ∈ s.taken ↔ w ∈ s.handed.map TimedDelivery.wait ∨ w ∈ s.cancelling ∨ w ∈ s.firing := by
    intro w
    unfold taken
    rw [List.mem_append,List.mem_append]
  refine ⟨(List.nodup_append.mp kept.counted.once).1,kept.timely.cancelled,kept.timely.reached,kept.timely.ordered,?_,?_,kept.counted.live,?_⟩
  · intro w within
    obtain ⟨live,apart⟩ := kept.counted.flags w within
    cases delivered : (s.fields w).delivered with
    | true =>
      rw [delivered] at apart
      exact .inr (.inl ⟨rfl,apart,(member w).mp ((kept.counted.marked w).mpr ⟨within,delivered⟩)⟩)
    | false =>
      have absent : w ∉ s.handed.map TimedDelivery.wait := by
        intro inside
        have marked := ((kept.counted.marked w).mp ((member w).mpr (.inl inside))).2
        rw [delivered] at marked
        cases marked
      cases dropped : (s.fields w).dropped with
      | true => exact .inr (.inr ⟨rfl,rfl,absent⟩)
      | false =>
        rw [delivered,dropped] at live
        exact .inl ⟨rfl,rfl,kept.heaped.queued w within live,absent⟩
  · intro still w within delivered
    rcases (member w).mp ((kept.counted.marked w).mpr ⟨within,delivered⟩) with handed | cancelling | firing
    · exact handed
    · rw [still.1] at cancelling
      cases cancelling
    · rw [(quiet still).1] at firing
      cases firing
  · intro still
    have count := kept.counted.external
    rw [still.1,still.2.1,(quiet still).2] at count
    simp only [List.length_nil] at count
    omega

end Timer

-- However arms, cancels, passes and shutdowns interleave.
theorem waits_exact (path : Machines.Reached (timerSystem checks others) s) : s.Exact others :=
  (Timer.reached_kept path).exact

-- Three waits of one deadline and an earlier one; a cancel and a pass in each
-- other's middle; a wait dropped by a shutdown, and one armed after it.
def timerRun : List TimerAction :=
  [.arm 20,.arm 10,.arm 20,.arm 20,.arm 90,.look 5 5,.cancel 2,.look 25 26,.fire,.cancel 0,.submit 2,.fire,.fire,.release,.fire,.fire,
    .fire,.fire,.shutdown false,.look 30 30,.joined,.arm 40,.look 50 50,.fire,.fire,.fire]

theorem waits_exact_crossing :
    let s := (timerSystem true 7).follow {outstanding := 7,clock := 3} timerRun
    s.handed = [⟨1,some 0⟩,⟨2,none⟩,⟨0,some 0⟩,⟨3,some 0⟩,⟨5,some 1⟩] ∧ s.outstanding = 7 ∧ s.live = 0 ∧ s.Exact 7 :=
  ⟨by decide +kernel,by decide +kernel,by decide +kernel,waits_exact (Machines.reached_follow (.start ⟨3,rfl⟩) (by decide +kernel))⟩

end Macrame

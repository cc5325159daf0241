import Macrame.MpmcQueue

namespace Macrame
open Machines Rings Custodies

namespace Mpmc

theorem cell_ne {p q : Nat} (after : p < q) (lap : q < p+roundPow2 capacity) : cell capacity p ≠ cell capacity q :=
  slot_ne after lap

theorem cell_lap (capacity p : Nat) : cell capacity (p+roundPow2 capacity) = cell capacity p := slot_lap capacity p

theorem goes_self (s : Mpmc T) (i : Nat) (next : MpmcAt T) : (s.goes i next).thread i = next :=
  Function.update_self ..

theorem goes_other {i j : Nat} (s : Mpmc T) (next : MpmcAt T) (other : j ≠ i) :
    (s.goes i next).thread j = s.thread j := Function.update_of_ne other ..

-- What a step of another thread must leave alone for this one's facts to last.
theorem holds_kept {s u : Mpmc T} (holds : s.RingHolds capacity at_)
    (enq : s.enqueuePos ≤ u.enqueuePos) (deq : s.dequeuePos ≤ u.dequeuePos) (pushed : ∀ e ∈ s.pushed, e ∈ u.pushed)
    (claim : ∀ pos, pos = s.enqueuePos → pos < s.dequeuePos+roundPow2 capacity → s.seq (cell capacity pos) = pos →
      u.enqueuePos = pos → u.seq (cell capacity pos) = pos)
    (writer : ∀ pos, at_.writes = some pos → s.dequeuePos ≤ pos → pos < s.enqueuePos →
      s.seq (cell capacity pos) = pos → u.dequeuePos ≤ pos ∧ u.seq (cell capacity pos) = pos ∧
        u.data (cell capacity pos) = s.data (cell capacity pos))
    (draw : ∀ pos, pos = s.dequeuePos → pos < s.enqueuePos → s.seq (cell capacity pos) = pos+1 →
      u.dequeuePos = pos → u.seq (cell capacity pos) = pos+1)
    (reader : ∀ pos, at_.owes = some (.ring pos) → pos < s.dequeuePos → s.enqueuePos ≤ pos+roundPow2 capacity →
      s.seq (cell capacity pos) = pos+1 → u.enqueuePos ≤ pos+roundPow2 capacity ∧
        u.seq (cell capacity pos) = pos+1 ∧ u.data (cell capacity pos) = s.data (cell capacity pos)) :
    u.RingHolds capacity at_ := by
  cases at_ with
  | enqueueProbing item pos => exact Nat.le_trans holds enq
  | enqueueClaiming item pos =>
    obtain ⟨behind,current⟩ := holds
    refine ⟨Nat.le_trans behind enq,?_⟩
    intro still
    have same : pos = s.enqueuePos := by omega
    obtain ⟨free,ready⟩ := current same
    exact ⟨by omega,claim pos same free ready still.symm⟩
  | enqueueWriting item pos =>
    obtain ⟨above,below,mine⟩ := holds
    obtain ⟨still,seq,-⟩ := writer pos rfl above below mine
    exact ⟨still,Nat.lt_of_lt_of_le below enq,seq⟩
  | enqueuePublishing item pos =>
    obtain ⟨above,below,mine,written⟩ := holds
    obtain ⟨still,seq,data⟩ := writer pos rfl above below mine
    exact ⟨still,Nat.lt_of_lt_of_le below enq,seq,data.trans written⟩
  | dequeueProbing pos => exact Nat.le_trans holds deq
  | dequeueClaiming pos =>
    obtain ⟨behind,current⟩ := holds
    refine ⟨Nat.le_trans behind deq,?_⟩
    intro still
    have same : pos = s.dequeuePos := by omega
    obtain ⟨some,ready⟩ := current same
    exact ⟨by omega,draw pos same some ready still.symm⟩
  | dequeueReading pos =>
    obtain ⟨below,lap,mine,value⟩ := holds
    obtain ⟨still,seq,data⟩ := reader pos rfl below lap mine
    refine ⟨Nat.lt_of_lt_of_le below deq,still,seq,?_⟩
    rw [data]
    exact pushed _ value
  | dequeueReleasing pos out =>
    obtain ⟨below,lap,mine,value⟩ := holds
    obtain ⟨still,seq,-⟩ := reader pos rfl below lap mine
    exact ⟨Nat.lt_of_lt_of_le below deq,still,seq,pushed _ value⟩
  | _ => trivial

-- A thread moves while the ring itself stays as it is.
theorem RingInv.beside {s u : Mpmc T} (inv : s.RingInv capacity) (next : MpmcAt T)
    (same : u.enqueuePos = s.enqueuePos ∧ u.dequeuePos = s.dequeuePos ∧ u.seq = s.seq ∧ u.data = s.data ∧
      u.drawn = s.drawn) (thread : u.thread = Function.update s.thread i next)
    (grown : ∀ e ∈ s.pushed, e ∈ u.pushed) (noRing : ∀ p v, (Source.ring p,v) ∈ u.pushed → (Source.ring p,v) ∈ s.pushed)
    (before : (s.thread i).writes = none) (after : next.writes = none)
    (owes : ∀ q, (s.thread i).owes = some (.ring q) → next.owes = some (.ring q))
    (holds : u.RingHolds capacity next) : u.RingInv capacity := by
  obtain ⟨enq,deq,seq,data,drawn⟩ := same
  have at_i : u.thread i = next := by rw [thread,Function.update_self]
  have at_j : ∀ j, j ≠ i → u.thread j = s.thread j := fun j other => by rw [thread,Function.update_of_ne other]
  have writes : ∀ j, (u.thread j).writes = (s.thread j).writes := by
    intro j
    by_cases same : j = i
    · rw [same,at_i,before,after]
    · rw [at_j j same]
  refine ⟨by rw [enq,deq]; exact inv.order,by rw [enq,deq]; exact inv.room,?_,?_,?_,?_,?_,?_⟩
  · intro p above below
    rw [deq] at above
    rw [enq] at below
    rw [seq,data]
    simp only [writes]
    exact (inv.filled p above below).imp_left (fun ready => ⟨ready.1,grown _ ready.2⟩)
  · intro p above below
    rw [enq] at above
    rw [deq] at below
    rw [seq]
    refine (inv.spare p above below).imp_right ?_
    rintro ⟨j,q,holding,lap⟩
    refine ⟨j,q,?_,lap⟩
    by_cases same : j = i
    · rw [same,at_i]
      exact owes q (same ▸ holding)
    · rw [at_j j same]
      exact holding
  · intro j
    by_cases same : j = i
    · rw [same,at_i]
      exact holds
    · rw [at_j j same]
      refine holds_kept (inv.threads j) (by rw [enq]) (by rw [deq]) grown ?_ ?_ ?_ ?_
      · intro pos _ _ ready _
        rw [seq]
        exact ready
      · intro pos _ above _ mine
        rw [deq,seq,data]
        exact ⟨above,mine,rfl⟩
      · intro pos _ _ ready _
        rw [seq]
        exact ready
      · intro pos _ _ lap mine
        rw [enq,seq,data]
        exact ⟨lap,mine,rfl⟩
  · intro j k p
    rw [writes,writes]
    exact inv.writers j k p
  · intro p v member
    rw [enq]
    simp only [writes]
    exact inv.published p v (noRing p v member)
  · rw [drawn,deq]
    exact inv.drawn

-- A thread that only looked around: nothing shared changes.
theorem RingInv.looks {s : Mpmc T} (inv : s.RingInv capacity) (next : MpmcAt T) (before : (s.thread i).writes = none)
    (after : next.writes = none) (owes : ∀ q, (s.thread i).owes = some (.ring q) → next.owes = some (.ring q))
    (holds : s.RingHolds capacity next) : (s.goes i next).RingInv capacity := by
  refine inv.beside next ⟨rfl,rfl,rfl,rfl,rfl⟩ rfl (fun _ member => member) (fun _ _ member => member) before after owes ?_
  cases next <;> exact holds

theorem RingInv.writer {s : Mpmc T} (inv : s.RingInv capacity) (writing : (s.thread j).writes = some p) :
    s.dequeuePos ≤ p ∧ p < s.enqueuePos ∧ s.seq (cell capacity p) = p := by
  have known := inv.threads j
  cases at_ : s.thread j with
  | enqueueWriting item q =>
    rw [at_] at known writing
    cases writing
    exact known
  | enqueuePublishing item q =>
    rw [at_] at known writing
    cases writing
    exact ⟨known.1,known.2.1,known.2.2.1⟩
  | _ => rw [at_] at writing; cases writing

theorem RingInv.reader {s : Mpmc T} (inv : s.RingInv capacity) (emptying : (s.thread j).owes = some (.ring p)) :
    p < s.dequeuePos ∧ s.enqueuePos ≤ p+roundPow2 capacity ∧ s.seq (cell capacity p) = p+1 := by
  have known := inv.threads j
  cases at_ : s.thread j with
  | dequeueReading q =>
    rw [at_] at known emptying
    cases emptying
    exact ⟨known.1,known.2.1,known.2.2.1⟩
  | dequeueReleasing q out =>
    rw [at_] at known emptying
    cases emptying
    exact ⟨known.1,known.2.1,known.2.2.1⟩
  | overflowLeaving out =>
    rw [at_] at emptying
    cases out <;> cases emptying
  | _ => rw [at_] at emptying; cases emptying

-- A thread that takes up no position already being written leaves every
-- position with one writer.
theorem RingInv.writers_kept {s u : Mpmc T} (inv : s.RingInv capacity) (next : MpmcAt T)
    (thread : u.thread = Function.update s.thread i next)
    (fresh : ∀ p, next.writes = some p → ∀ j, j ≠ i → (s.thread j).writes ≠ some p) :
    ∀ j k p, (u.thread j).writes = some p → (u.thread k).writes = some p → j = k := by
  intro j k p first second
  rw [thread] at first second
  by_cases one : j = i
  · by_cases two : k = i
    · rw [one,two]
    · rw [one,Function.update_self] at first
      rw [Function.update_of_ne two] at second
      exact absurd second (fresh p first k two)
  · rw [Function.update_of_ne one] at first
    by_cases two : k = i
    · rw [two,Function.update_self] at second
      exact absurd first (fresh p second j one)
    · rw [Function.update_of_ne two] at second
      exact inv.writers j k p first second

theorem RingInv.published_kept {s u : Mpmc T} (inv : s.RingInv capacity)
    (thread : u.thread = Function.update s.thread i next) (after : next.writes = none)
    (member : (Source.ring p,v) ∈ s.pushed) : p < s.enqueuePos ∧ ∀ j, (u.thread j).writes ≠ some p := by
  obtain ⟨within,nobody⟩ := inv.published p v member
  refine ⟨within,?_⟩
  intro j writing
  rw [thread] at writing
  by_cases same : j = i
  · rw [same,Function.update_self,after] at writing
    cases writing
  · rw [Function.update_of_ne same] at writing
    exact nobody j writing

theorem still_writes {s u : Mpmc T} (thread : u.thread = Function.update s.thread i next)
    (before : (s.thread i).writes ≠ some p) (writing : ∃ j, (s.thread j).writes = some p) :
    ∃ j, (u.thread j).writes = some p := by
  obtain ⟨j,writing⟩ := writing
  have other : j ≠ i := by
    intro same
    rw [same] at writing
    exact before writing
  exact ⟨j,by rw [thread,Function.update_of_ne other]; exact writing⟩

theorem still_owes {s u : Mpmc T} (thread : u.thread = Function.update s.thread i next)
    (before : (s.thread i).owes ≠ some (.ring q)) (holding : (s.thread j).owes = some (.ring q)) :
    (u.thread j).owes = some (.ring q) := by
  have other : j ≠ i := by
    intro same
    rw [same] at holding
    exact before holding
  rw [thread,Function.update_of_ne other]
  exact holding

-- A free cell seen in time is still free at the exchange, and the claim makes
-- this thread its only writer. A consumer that still empties the cell of this
-- position would show another number: the ring has at least two cells.
theorem RingInv.claim_enqueue {s : Mpmc T} (wide : 2 ≤ roundPow2 capacity) (inv : s.RingInv capacity)
    (here : s.thread i = .enqueueClaiming item pos) (current : s.enqueuePos = pos) :
    ({ s with enqueuePos := pos+1 }.goes i (.enqueueWriting item pos)).RingInv capacity := by
  have known := inv.threads i
  rw [here] at known
  obtain ⟨free,ready⟩ := known.2 current.symm
  have order := inv.order
  refine ⟨by change s.dequeuePos ≤ pos+1; omega,free,?_,?_,?_,?_,?_,inv.drawn⟩
  · intro p above below
    change p < pos+1 at below
    by_cases new : p = pos
    · exact .inr ⟨i,by rw [goes_self,new]; rfl⟩
    · exact (inv.filled p above (by omega)).imp_right (still_writes rfl (by rw [here]; exact nofun))
  · intro p above below
    change pos+1 ≤ p at above
    refine (inv.spare p (by omega) below).imp_right ?_
    rintro ⟨j,q,holding,lap⟩
    exact ⟨j,q,still_owes rfl (by rw [here]; exact nofun) holding,lap⟩
  · intro j
    by_cases same : j = i
    · rw [same,goes_self]
      exact ⟨by change s.dequeuePos ≤ pos; omega,Nat.lt_succ_self pos,ready⟩
    · rw [goes_other _ _ same]
      refine holds_kept (inv.threads j) (by change s.enqueuePos ≤ pos+1; omega) (Nat.le_refl _) (fun _ member => member)
        ?_ (fun q _ above _ mine => ⟨above,mine,rfl⟩) (fun q _ _ ready _ => ready) ?_
      · intro q last _ _ still
        change pos+1 = q at still
        omega
      · intro q _ _ lap mine
        refine ⟨?_,mine,rfl⟩
        change pos+1 ≤ q+roundPow2 capacity
        have apart : pos ≠ q+roundPow2 capacity := by
          intro equal
          rw [equal,cell_lap] at ready
          omega
        omega
  · refine inv.writers_kept (.enqueueWriting item pos) rfl ?_
    intro p mine j _ theirs
    cases mine
    have below := (inv.writer theirs).2.1
    omega
  · intro p v member
    obtain ⟨below,nobody⟩ := inv.published p v member
    refine ⟨by change p < pos+1; omega,?_⟩
    intro j writing
    by_cases same : j = i
    · rw [same,goes_self] at writing
      cases writing
      omega
    · rw [goes_other _ _ same] at writing
      exact nobody j writing

-- The cell written is between the positions, so no other thread's cell is it.
theorem RingInv.write {s : Mpmc T} (inv : s.RingInv capacity) (here : s.thread i = .enqueueWriting item pos) :
    ({ s with data := Function.update s.data (cell capacity pos) item }.goes i (.enqueuePublishing item pos)).RingInv
      capacity := by
  have known := inv.threads i
  rw [here] at known
  obtain ⟨above,below,mine⟩ := known
  have room := inv.room
  have elsewhere : ∀ p, p ≠ pos → s.dequeuePos ≤ p → p < s.enqueuePos → cell capacity p ≠ cell capacity pos := by
    intro p other lower upper
    cases Nat.lt_or_gt_of_ne other with
    | inl before => exact cell_ne before (by omega)
    | inr behind => exact (cell_ne behind (by omega)).symm
  refine ⟨inv.order,inv.room,?_,?_,?_,?_,?_,inv.drawn⟩
  · intro p lower upper
    by_cases same : p = pos
    · exact .inr ⟨i,by rw [goes_self,same]; rfl⟩
    · cases inv.filled p lower upper with
      | inl ready =>
        refine .inl ⟨ready.1,?_⟩
        change (Source.ring p,Function.update s.data (cell capacity pos) item (cell capacity p)) ∈ s.pushed
        rw [Function.update_of_ne (elsewhere p same lower upper)]
        exact ready.2
      | inr writing =>
        refine .inr (still_writes rfl ?_ writing)
        rw [here]
        exact fun equal => same (Option.some.inj equal).symm
  · intro p lower upper
    refine (inv.spare p lower upper).imp_right ?_
    rintro ⟨j,q,holding,lap⟩
    exact ⟨j,q,still_owes rfl (by rw [here]; exact nofun) holding,lap⟩
  · intro j
    by_cases same : j = i
    · rw [same,goes_self]
      exact ⟨above,below,mine,Function.update_self ..⟩
    · rw [goes_other _ _ same]
      refine holds_kept (inv.threads j) (Nat.le_refl _) (Nat.le_refl _) (fun _ member => member)
        (fun q _ _ ready _ => ready) ?_ (fun q _ _ ready _ => ready) ?_
      · intro q writing lower upper theirs
        have other : q ≠ pos := by
          intro equal
          exact same (inv.writers j i pos (equal ▸ writing) (by rw [here]; rfl))
        exact ⟨lower,theirs,Function.update_of_ne (elsewhere q other lower upper) ..⟩
      · intro q _ before lap theirs
        exact ⟨lap,theirs,Function.update_of_ne (cell_ne (by omega) (by omega)) ..⟩
  · refine inv.writers_kept (.enqueuePublishing item pos) rfl ?_
    intro p writes j other theirs
    cases writes
    exact other (inv.writers j i pos theirs (by rw [here]; rfl))
  · intro p v member
    obtain ⟨within,nobody⟩ := inv.published p v member
    refine ⟨within,?_⟩
    intro j writing
    by_cases same : j = i
    · rw [same,goes_self] at writing
      cases writing
      exact nobody i (by rw [here]; rfl)
    · rw [goes_other _ _ same] at writing
      exact nobody j writing

theorem RingInv.publish {s : Mpmc T} (inv : s.RingInv capacity) (here : s.thread i = .enqueuePublishing item pos) :
    ({ s with seq := Function.update s.seq (cell capacity pos) (pos+1),
              pushed := s.pushed++[(Source.ring pos,item)] }.goes i .idle).RingInv capacity := by
  have known := inv.threads i
  rw [here] at known
  obtain ⟨above,below,mine,written⟩ := known
  have room := inv.room
  have writing : (s.thread i).writes = some pos := by rw [here]; rfl
  have entered : (Source.ring pos,s.data (cell capacity pos)) ∈ s.pushed++[(Source.ring pos,item)] := by
    rw [written]
    exact List.mem_append_right _ (List.mem_singleton_self _)
  -- the cell belongs to `pos` alone among the positions of this lap
  have later : ∀ p, pos < p → p < s.dequeuePos+roundPow2 capacity → cell capacity p ≠ cell capacity pos :=
    fun p behind upper => (cell_ne behind (by omega)).symm
  have earlier : ∀ p, p < pos → s.enqueuePos ≤ p+roundPow2 capacity → cell capacity p ≠ cell capacity pos :=
    fun p before lap => cell_ne before (by omega)
  have elsewhere : ∀ p, p ≠ pos → s.dequeuePos ≤ p → p < s.enqueuePos → cell capacity p ≠ cell capacity pos := by
    intro p other lower upper
    cases Nat.lt_or_gt_of_ne other with
    | inl before => exact earlier p before (by omega)
    | inr behind => exact later p behind (by omega)
  refine ⟨inv.order,inv.room,?_,?_,?_,?_,?_,inv.drawn⟩
  · intro p lower upper
    by_cases same : p = pos
    · rw [same]
      exact .inl ⟨Function.update_self ..,entered⟩
    · cases inv.filled p lower upper with
      | inl ready =>
        refine .inl ⟨?_,List.mem_append_left _ ready.2⟩
        change Function.update s.seq (cell capacity pos) (pos+1) (cell capacity p) = p+1
        rw [Function.update_of_ne (elsewhere p same lower upper)]
        exact ready.1
      | inr theirs =>
        refine .inr (still_writes rfl ?_ theirs)
        rw [writing]
        exact fun equal => same (Option.some.inj equal).symm
  · intro p lower upper
    refine (inv.spare p lower upper).imp ?_ ?_
    · intro free
      change Function.update s.seq (cell capacity pos) (pos+1) (cell capacity p) = p
      change s.enqueuePos ≤ p at lower
      rw [Function.update_of_ne (later p (by omega) upper)]
      exact free
    · rintro ⟨j,q,holding,lap⟩
      exact ⟨j,q,still_owes rfl (by rw [here]; exact nofun) holding,lap⟩
  · intro j
    by_cases same : j = i
    · rw [same,goes_self]
      trivial
    · rw [goes_other _ _ same]
      refine holds_kept (inv.threads j) (Nat.le_refl _) (Nat.le_refl _) (fun _ member => List.mem_append_left _ member)
        ?_ ?_ ?_ ?_
      · intro q last free ready _
        exact (Function.update_of_ne (later q (by omega) free) ..).trans ready
      · intro q theirs lower upper ready
        have other : q ≠ pos := by
          intro equal
          exact same (inv.writers j i pos (equal ▸ theirs) writing)
        exact ⟨lower,(Function.update_of_ne (elsewhere q other lower upper) ..).trans ready,rfl⟩
      · intro q first some ready _
        have other : q ≠ pos := by
          intro equal
          rw [equal] at ready
          omega
        exact (Function.update_of_ne (elsewhere q other (by omega) some) ..).trans ready
      · intro q _ before lap ready
        exact ⟨lap,(Function.update_of_ne (earlier q (by omega) lap) ..).trans ready,rfl⟩
  · exact inv.writers_kept .idle rfl (fun p writes => by cases writes)
  · intro p v member
    -- the position just published has lost its only writer
    have gone : ∀ p, (p = pos ∨ ∀ j, (s.thread j).writes ≠ some p) → ∀ j,
        (Function.update s.thread i .idle j).writes ≠ some p := by
      intro p which j theirs
      by_cases same : j = i
      · rw [same,Function.update_self] at theirs
        cases theirs
      · rw [Function.update_of_ne same] at theirs
        cases which with
        | inl equal => exact same (inv.writers j i pos (equal ▸ theirs) writing)
        | inr nobody => exact nobody j theirs
    cases List.mem_append.mp member with
    | inl prior => exact ⟨(inv.published p v prior).1,gone p (.inr (inv.published p v prior).2)⟩
    | inr last =>
      cases List.mem_singleton.mp last
      exact ⟨below,gone pos (.inl rfl)⟩

-- A published cell seen in time is still published at the exchange, and from
-- then on the lap above it waits for this thread.
theorem RingInv.claim_dequeue {s : Mpmc T} (inv : s.RingInv capacity)
    (here : s.thread i = .dequeueClaiming pos) (current : s.dequeuePos = pos) :
    ({ s with dequeuePos := pos+1, drawn := s.drawn++[pos] }.goes i (.dequeueReading pos)).RingInv capacity := by
  have known := inv.threads i
  rw [here] at known
  obtain ⟨some,ready⟩ := known.2 current.symm
  have room := inv.room
  have value : (Source.ring pos,s.data (cell capacity pos)) ∈ s.pushed := by
    cases inv.filled pos (by omega) some with
    | inl full => exact full.2
    | inr writing =>
      obtain ⟨j,writing⟩ := writing
      have unready := (inv.writer writing).2.2
      omega
  refine ⟨some,by change s.enqueuePos ≤ pos+1+roundPow2 capacity; omega,?_,?_,?_,?_,?_,?_⟩
  · intro p above below
    change pos+1 ≤ p at above
    exact (inv.filled p (by omega) below).imp_right (still_writes rfl (by rw [here]; exact nofun))
  · intro p above below
    change p < pos+1+roundPow2 capacity at below
    by_cases last : p = pos+roundPow2 capacity
    · exact .inr ⟨i,pos,by rw [goes_self]; rfl,last⟩
    · refine (inv.spare p above (by omega)).imp_right ?_
      rintro ⟨j,q,holding,lap⟩
      exact ⟨j,q,still_owes rfl (by rw [here]; exact nofun) holding,lap⟩
  · intro j
    by_cases same : j = i
    · rw [same,goes_self]
      exact ⟨Nat.lt_succ_self pos,by change s.enqueuePos ≤ pos+roundPow2 capacity; omega,ready,value⟩
    · rw [goes_other _ _ same]
      refine holds_kept (inv.threads j) (Nat.le_refl _) (by change s.dequeuePos ≤ pos+1; omega) (fun _ member => member)
        (fun q _ _ ready _ => ready) ?_ ?_ (fun q _ _ lap mine => ⟨lap,mine,rfl⟩)
      · intro q _ above _ mine
        refine ⟨?_,mine,rfl⟩
        change pos+1 ≤ q
        have other : q ≠ pos := by
          intro equal
          rw [equal] at mine
          omega
        omega
      · intro q first _ _ still
        change pos+1 = q at still
        omega
  · exact inv.writers_kept (.dequeueReading pos) rfl (fun p writes => by cases writes)
  · exact fun p v member => inv.published_kept rfl rfl member
  · change s.drawn++[pos] = List.range (pos+1)
    rw [List.range_succ,inv.drawn,current]

theorem RingInv.release {s : Mpmc T} (wide : 2 ≤ roundPow2 capacity) (inv : s.RingInv capacity)
    (alone : ∀ j, (s.thread j).owes = some (.ring pos) → j = i)
    (here : s.thread i = .dequeueReleasing pos out) :
    ({ s with seq := Function.update s.seq (cell capacity pos) (pos+mask capacity+1),
              popped := s.popped++[(Source.ring pos,out)] }.goes i .idle).RingInv capacity := by
  have known := inv.threads i
  rw [here] at known
  obtain ⟨below,lap,mine,-⟩ := known
  have order := inv.order
  have lapped : pos+mask capacity+1 = pos+roundPow2 capacity := by
    unfold mask
    omega
  have elsewhere : ∀ p, pos < p → p < pos+roundPow2 capacity → cell capacity p ≠ cell capacity pos :=
    fun p behind upper => (cell_ne behind upper).symm
  refine ⟨inv.order,inv.room,?_,?_,?_,?_,?_,inv.drawn⟩
  · intro p lower upper
    change s.dequeuePos ≤ p at lower
    change p < s.enqueuePos at upper
    refine (inv.filled p lower upper).imp ?_ (still_writes rfl (by rw [here]; exact nofun))
    intro ready
    refine ⟨?_,ready.2⟩
    change Function.update s.seq (cell capacity pos) (pos+mask capacity+1) (cell capacity p) = p+1
    rw [Function.update_of_ne (elsewhere p (by omega) (by omega))]
    exact ready.1
  · intro p lower upper
    change s.enqueuePos ≤ p at lower
    change p < s.dequeuePos+roundPow2 capacity at upper
    change Function.update s.seq (cell capacity pos) (pos+mask capacity+1) (cell capacity p) = p ∨ _
    by_cases same : p = pos+roundPow2 capacity
    · rw [same,cell_lap,Function.update_self]
      exact .inl lapped
    · have other : cell capacity p ≠ cell capacity pos := by
        rw [← cell_lap capacity pos]
        cases Nat.lt_or_gt_of_ne same with
        | inl before => rw [cell_lap]; exact elsewhere p (by omega) before
        | inr behind => exact (cell_ne behind (by omega)).symm
      rw [Function.update_of_ne other]
      refine (inv.spare p lower upper).imp_right ?_
      rintro ⟨j,q,holding,laps⟩
      refine ⟨j,q,still_owes rfl ?_ holding,laps⟩
      rw [here]
      intro equal
      cases equal
      exact same laps
  · intro j
    by_cases same : j = i
    · rw [same,goes_self]
      trivial
    · rw [goes_other _ _ same]
      refine holds_kept (inv.threads j) (Nat.le_refl _) (Nat.le_refl _) (fun _ member => member) ?_ ?_ ?_ ?_
      · intro q last free ready _
        have apart : q ≠ pos+roundPow2 capacity := by
          intro equal
          rw [equal,cell_lap] at ready
          omega
        exact (Function.update_of_ne (elsewhere q (by omega) (by omega)) ..).trans ready
      · intro q _ lower upper ready
        exact ⟨lower,(Function.update_of_ne (elsewhere q (by omega) (by omega)) ..).trans ready,rfl⟩
      · intro q first some ready _
        exact (Function.update_of_ne (elsewhere q (by omega) (by omega)) ..).trans ready
      · intro q holding before laps ready
        have other : q ≠ pos := by
          intro equal
          exact same (alone j (equal ▸ holding))
        refine ⟨laps,(Function.update_of_ne ?_ ..).trans ready,rfl⟩
        cases Nat.lt_or_gt_of_ne other with
        | inl first => exact cell_ne first (by omega)
        | inr behind => exact elsewhere q behind (by omega)
  · exact inv.writers_kept .idle rfl (fun p writes => by cases writes)
  · exact fun p v member => inv.published_kept rfl rfl member

end Mpmc

end Macrame

import Macrame.GrantEpochs
import Macrame.Graph

namespace Macrame

-- Why a call stops the program.
inductive Fatal where
  | duplicateObject
  | readLentToWriter
  | scopeNotQuiet
  deriving DecidableEq, Repr

-- `Access_op::bind_targets`: canonical order, each object once.
def bindTargets (targets : List Link) : Except Fatal LinkTable :=
  if declared : (targets.map Link.pipe).Nodup ∧ targets.length ≤ 255 then
    declared.elim fun distinct counted => .ok (.sorted targets distinct counted)
  else .error .duplicateObject

section Decision

variable (build : Build) (epochs : PipeId → Nat)

-- The question both binders ask of the calling context for one object.
def lends (ctx : Option AccessContext) (link : Link) : Bool :=
  match ctx with
  | none => false
  | some ctx => ctx.grants build epochs link.pipe link.mode

-- Mode-incompatible overlap: a read grant where the work writes. Only the
-- checked build looks.
def refuses (ctx : Option AccessContext) (link : Link) : Bool :=
  match ctx with
  | none => false
  | some ctx => build == .checked && !ctx.grants build epochs link.pipe link.mode && link.mode == .readWrite &&
      ctx.grants build epochs link.pipe .readOnly

-- `Access_op::bind_links`: a lent object gets no link.
def bindLinks (ctx : Option AccessContext) (lend : Bool) (targets : LinkTable) : Except Fatal LinkTable :=
  let asked := if lend then ctx else none
  if targets.entries.any (refuses build epochs asked) then .error .readLentToWriter
  else .ok (targets.keep (fun link => !lends build epochs asked link))

end Decision

-- The node links of a graph as some run left them; `linksLent` says that some
-- object was lent to that run.
structure Binding where
  links : Nat → LinkTable
  linksLent : Bool := false

def Binding.compiled (g : Graph) : Binding := ⟨g.nodeLinks,false⟩

def Graph.demands (g : Graph) : List Link := g.distinctPipes.map (fun p => ⟨p,g.pipeMode p⟩)

section Run

variable (build : Build) (epochs : PipeId → Nat)

def lentTo (g : Graph) (ctx : Option AccessContext) (p : PipeId) : Bool :=
  g.demands.any (fun link => link.pipe == p && lends build epochs ctx link)

-- `bind_links_for_run`. `quiet` is that no nested run of the caller's scope is
-- in flight. With nothing lent now or last time the links stay as they are.
def bindLinksForRun (g : Graph) (ctx : Option AccessContext) (detach quiet : Bool) (last : Binding) :
    Except Fatal Binding :=
  let asked := if detach then none else ctx
  let any := g.demands.any (lends build epochs asked)
  if g.demands.any (refuses build epochs asked) then .error .readLentToWriter
  else if build == .checked && any && !quiet then .error .scopeNotQuiet
  else if !any && !last.linksLent then .ok last
  else .ok ⟨fun i => (g.nodeLinks i).keep (fun link => !(any && lentTo build epochs g asked link.pipe)),any⟩

end Run

namespace Binding

-- Links that a run without lends has left are the compiled ones.
def Sound (g : Graph) (b : Binding) : Prop := b.linksLent = false → b.links = g.nodeLinks

theorem compiled_sound (g : Graph) : Sound g (compiled g) := fun _ => rfl

end Binding

theorem lentTo_any (lent : lentTo build epochs g ctx p = true) : g.demands.any (lends build epochs ctx) = true := by
  simp only [lentTo,List.any_eq_true,Bool.and_eq_true] at lent ⊢
  obtain ⟨link,member,_,granted⟩ := lent
  exact ⟨link,member,granted⟩

theorem mem_demands (g : Graph) (link : Link) :
    link ∈ g.demands ↔ link.pipe ∈ g.distinctPipes ∧ link.mode = g.pipeMode link.pipe := by
  simp only [Graph.demands,List.mem_map]
  constructor
  · rintro ⟨p,member,rfl⟩
    exact ⟨member,rfl⟩
  · rintro ⟨member,mode⟩
    exact ⟨link.pipe,member,by rw [← mode]⟩

theorem lentTo_iff (member : link ∈ g.demands) :
    lentTo build epochs g ctx link.pipe = true ↔ lends build epochs ctx link = true := by
  simp only [lentTo,List.any_eq_true,Bool.and_eq_true,beq_iff_eq]
  constructor
  · rintro ⟨other,wanted,same,lent⟩
    have modes : other.mode = link.mode := by
      rw [((mem_demands g other).mp wanted).2,((mem_demands g link).mp member).2,same]
    have equal : other = link := by cases other; cases link; simp_all
    rwa [← equal]
  · intro lent
    exact ⟨link,member,rfl,lent⟩

theorem demands_touched (g : Graph) (member : link ∈ g.demands) : ∃ i, ∃ l ∈ (g.nodeLinks i).entries, l.pipe = link.pipe := by
  have touched := ((mem_demands g link).mp member).1
  simp only [Graph.distinctPipes,List.mem_insertionSort,List.mem_dedup,List.mem_flatMap,List.mem_map] at touched
  obtain ⟨node,known,l,declared,same⟩ := touched
  obtain ⟨i,here⟩ := List.mem_iff_getElem?.mp known
  refine ⟨i,l,?_,same⟩
  simp only [Graph.nodeLinks,here,LinkTable.mem_sorted]
  exact declared

-- What a run's binding comes to, whatever the last run left.
theorem bindLinksForRun_links (sound : Binding.Sound g last)
    (bound : bindLinksForRun build epochs g ctx detach quiet last = .ok next) :
    Binding.Sound g next ∧ ∀ i, (next.links i).entries =
      (g.nodeLinks i).entries.filter (fun link => !lentTo build epochs g (if detach then none else ctx) link.pipe) := by
  unfold bindLinksForRun at bound
  simp only at bound
  generalize (if detach = true then none else ctx) = asked at bound ⊢
  split at bound
  · cases bound
  split at bound
  · cases bound
  split at bound
  · rename_i still
    cases bound
    simp only [Bool.and_eq_true,Bool.not_eq_true'] at still
    refine ⟨sound,fun i => ?_⟩
    rw [sound still.2]
    refine (List.filter_eq_self.mpr ?_).symm
    intro link _
    by_cases lent : lentTo build epochs g asked link.pipe = true
    · have some_lent := lentTo_any lent
      rw [still.1] at some_lent
      cases some_lent
    · simp [lent]
  · cases bound
    refine ⟨?_,fun i => ?_⟩
    · intro none_lent
      funext i
      simp only at none_lent
      simp only [LinkTable.keep,none_lent,Bool.false_and,Bool.not_false,List.filter_true]
    · simp only [LinkTable.keep]
      refine List.filter_congr ?_
      intro link _
      by_cases lent : lentTo build epochs g asked link.pipe = true
      · rw [lent,lentTo_any lent]; rfl
      · simp [lent]

-- `e` was declared inside admission `k` of its object, in this or an earlier
-- state of the same run.
def Carried (s : State) (e : Entry) (k : Ticket) : Prop :=
  ∃ origin actions, Machines.Reached system origin ∧ CapturedIn origin e.target k e ∧ Machines.Runs system origin actions s

-- A context some caller has installed, live or copied: its entries, each with
-- the admission it was declared in.
structure Snapshot (s : State) where
  declared : List (Entry × Ticket)
  bounded : declared.length ≤ maxEntries
  carried : ∀ d ∈ declared, Carried s d.1 d.2

namespace Snapshot

def context (snap : Snapshot s) : AccessContext := ⟨snap.declared.map Prod.fst,by simpa using snap.bounded⟩

def Covering (link : Link) (d : Entry × Ticket) : Prop := d.1.target = link.pipe ∧ d.1.mode.covers link.mode = true

-- The admission is out: the window is open.
def Open (s : State) (d : Entry × Ticket) : Prop := d.2 ∈ (s.pipes d.1.target).outstanding

-- No object is covered by closed windows alone.
def Covered (snap : Snapshot s) (wanted : List Link) : Prop :=
  ∀ link ∈ wanted, (∃ d ∈ snap.declared, Covering link d) → ∃ d ∈ snap.declared, Covering link d ∧ Open s d

end Snapshot

theorem Carried.current (carried : Carried s e k) (out : k ∈ (s.pipes e.target).outstanding) : e.current s.epochs = true := by
  obtain ⟨origin,actions,path,inside,run⟩ := carried
  have source : e.epoch = some e.target := by rw [inside.entry]; rfl
  have now := (reached_valid (Machines.runs_reached path run) e.target).window out
  have same : s.epochs e.target = e.captured := by
    rw [inside.captured,inside.window path run]
    exact now
  simp [Entry.current,source,same]

namespace Snapshot

variable {s : State} (snap : Snapshot s)

theorem lends_iff (build : Build) (link : Link) : lends build s.epochs (some snap.context) link = true ↔
    ∃ d ∈ snap.declared, Covering link d ∧ (build = .checked → d.1.current s.epochs = true) := by
  unfold lends
  simp only
  rw [AccessContext.grants_iff]
  simp only [context,List.mem_map,AccessContext.Answers,Covering]
  constructor
  · rintro ⟨e,⟨d,member,rfl⟩,target,covers,current⟩
    exact ⟨d,member,⟨target,covers⟩,current⟩
  · rintro ⟨d,member,⟨target,covers⟩,current⟩
    exact ⟨d.1,⟨d,member,rfl⟩,target,covers,current⟩

-- Where no object is covered by closed windows alone the two builds decide alike.
theorem decides_alike (covered : snap.Covered wanted) (member : link ∈ wanted) :
    lends .shipping s.epochs (some snap.context) link = lends .checked s.epochs (some snap.context) link := by
  rw [Bool.eq_iff_iff,snap.lends_iff,snap.lends_iff]
  constructor
  · rintro ⟨d,known,covering,_⟩
    obtain ⟨d,known,covering,out⟩ := covered link member ⟨d,known,covering⟩
    exact ⟨d,known,covering,fun _ => (snap.carried d known).current out⟩
  · rintro ⟨d,known,covering,_⟩
    exact ⟨d,known,covering,by simp⟩

theorem lends_covering (link : Link) (lent : lends build s.epochs (some snap.context) link = true) :
    ∃ d ∈ snap.declared, Covering link d := by
  obtain ⟨d,known,covering,_⟩ := (snap.lends_iff build link).mp lent
  exact ⟨d,known,covering⟩

theorem shipping_lends (covering : ∃ d ∈ snap.declared, Covering link d) :
    lends .shipping s.epochs (some snap.context) link = true := by
  obtain ⟨d,known,covering⟩ := covering
  exact (snap.lends_iff .shipping link).mpr ⟨d,known,covering,by simp⟩

-- What the law asks of one `bind_links`: the two builds decide alike on every
-- object and, where the checked one does not stop, bind alike; in each build an
-- object goes without a link only while a window that covers it is open.
structure OpAlike (lend : Bool) (targets : LinkTable) : Prop where
  same : ∀ link ∈ targets.entries, lends .shipping s.epochs (if lend then some snap.context else none) link =
    lends .checked s.epochs (if lend then some snap.context else none) link
  bound : ∀ table, bindLinks .checked s.epochs (some snap.context) lend targets = .ok table →
    bindLinks .shipping s.epochs (some snap.context) lend targets = .ok table
  inside : ∀ build table, bindLinks build s.epochs (some snap.context) lend targets = .ok table →
    ∀ link ∈ targets.entries, link ∉ table.entries → ∃ d ∈ snap.declared, Covering link d ∧ Open s d

-- The same of one `bind_links_for_run`, whatever links the last run left.
structure RunAlike (g : Graph) (detach quiet : Bool) : Prop where
  same : ∀ link ∈ g.demands, lends .shipping s.epochs (if detach then none else some snap.context) link =
    lends .checked s.epochs (if detach then none else some snap.context) link
  bound : ∀ last last' next, Binding.Sound g last → Binding.Sound g last' →
    bindLinksForRun .checked s.epochs g (some snap.context) detach quiet last = .ok next →
    ∃ next', bindLinksForRun .shipping s.epochs g (some snap.context) detach quiet last' = .ok next' ∧
      ∀ i, (next'.links i).entries = (next.links i).entries
  inside : ∀ build last next, Binding.Sound g last →
    bindLinksForRun build s.epochs g (some snap.context) detach quiet last = .ok next →
    ∀ link ∈ g.demands, (∀ i, ∀ l ∈ (next.links i).entries, l.pipe ≠ link.pipe) →
      ∃ d ∈ snap.declared, Covering link d ∧ Open s d

theorem shipping_refuses_none (ctx : Option AccessContext) (link : Link) : refuses .shipping epochs ctx link = false := by
  cases ctx <;> rfl

theorem bindLinks_shipping (epochs : PipeId → Nat) (ctx : Option AccessContext) (lend : Bool) (targets : LinkTable) :
    bindLinks .shipping epochs ctx lend targets =
      .ok (targets.keep (fun link => !lends .shipping epochs (if lend then ctx else none) link)) := by
  simp [bindLinks,shipping_refuses_none]

theorem unbound_lent (bound : bindLinks build epochs ctx lend targets = .ok table) (member : link ∈ targets.entries) :
    link ∉ table.entries ↔ lends build epochs (if lend then ctx else none) link = true := by
  simp only [bindLinks] at bound
  generalize (if lend = true then ctx else none) = asked at bound ⊢
  split at bound
  · cases bound
  · cases bound
    simp [member]

theorem bindLinksForRun_shipping (epochs : PipeId → Nat) (g : Graph) (ctx : Option AccessContext) (detach quiet : Bool) (last : Binding) :
    ∃ next, bindLinksForRun .shipping epochs g ctx detach quiet last = .ok next := by
  have none_refused : ∀ ctx, g.demands.any (refuses .shipping epochs ctx) = false := by
    intro ctx
    simp [shipping_refuses_none]
  have unchecked : (Build.shipping == .checked) = false := rfl
  simp only [bindLinksForRun,none_refused,unchecked,Bool.false_and,Bool.false_eq_true,if_false]
  generalize (if detach = true then none else ctx) = asked
  split <;> exact ⟨_,rfl⟩

-- In a run's binding an object that the graph touches has no link exactly when it is lent.
theorem unlinked_lent (sound : Binding.Sound g last)
    (bound : bindLinksForRun build epochs g ctx detach quiet last = .ok next) (member : link ∈ g.demands) :
    (∀ i, ∀ l ∈ (next.links i).entries, l.pipe ≠ link.pipe) ↔
      lends build epochs (if detach then none else ctx) link = true := by
  have links := (bindLinksForRun_links sound bound).2
  rw [← lentTo_iff member]
  constructor
  · intro unlinked
    obtain ⟨i,l,touched,same⟩ := demands_touched g member
    by_contra unlent
    refine unlinked i l ?_ same
    rw [links i,List.mem_filter]
    exact ⟨touched,by rw [same]; simpa using unlent⟩
  · intro lent i l linked same
    rw [links i,List.mem_filter,same,lent] at linked
    cases linked.2

theorem op_alike_iff (lend : Bool) (targets : LinkTable) :
    snap.OpAlike lend targets ↔ (lend = true → snap.Covered targets.entries) := by
  constructor
  · rintro alike rfl link member covering
    have bound := bindLinks_shipping s.epochs (some snap.context) true targets
    exact alike.inside .shipping _ bound link member ((unbound_lent bound member).mpr (snap.shipping_lends covering))
  · intro covered
    cases lend with
    | false =>
      refine ⟨fun _ _ => rfl,?_,?_⟩
      · intro table bound
        rw [bindLinks_shipping]
        simpa [bindLinks,refuses,lends] using bound
      · intro build table bound link member unbound
        cases (unbound_lent bound member).mp unbound
    | true =>
      refine ⟨fun link member => snap.decides_alike (covered rfl) member,?_,?_⟩
      · intro table bound
        rw [bindLinks_shipping]
        simp only [bindLinks,if_true] at bound ⊢
        split at bound
        · cases bound
        · cases bound
          refine congrArg Except.ok ?_
          simp only [LinkTable.keep,LinkTable.mk.injEq]
          refine List.filter_congr ?_
          intro link member
          rw [snap.decides_alike (covered rfl) member]
      · intro build table bound link member unbound
        have lent := (unbound_lent bound member).mp unbound
        exact covered rfl link member (snap.lends_covering link lent)

theorem run_alike_iff (g : Graph) (detach quiet : Bool) :
    snap.RunAlike g detach quiet ↔ (detach = false → snap.Covered g.demands) := by
  constructor
  · rintro alike rfl link member covering
    have sound := Binding.compiled_sound g
    obtain ⟨next,bound⟩ := bindLinksForRun_shipping s.epochs g (some snap.context) false quiet (.compiled g)
    exact alike.inside .shipping _ next sound bound link member
      ((unlinked_lent sound bound member).mpr (snap.shipping_lends covering))
  · intro covered
    have same : ∀ link ∈ g.demands, lends .shipping s.epochs (if detach then none else some snap.context) link =
        lends .checked s.epochs (if detach then none else some snap.context) link := by
      intro link member
      cases detach with
      | true => rfl
      | false => exact snap.decides_alike (covered rfl) member
    refine ⟨same,?_,?_⟩
    · intro last last' next sound sound' bound
      obtain ⟨next',bound'⟩ := bindLinksForRun_shipping s.epochs g (some snap.context) detach quiet last'
      refine ⟨next',bound',fun i => ?_⟩
      rw [(bindLinksForRun_links sound bound).2 i,(bindLinksForRun_links sound' bound').2 i]
      have agreed : ∀ p, lentTo .shipping s.epochs g (if detach then none else some snap.context) p =
          lentTo .checked s.epochs g (if detach then none else some snap.context) p := by
        intro p
        unfold lentTo
        rw [Bool.eq_iff_iff]
        simp only [List.any_eq_true,Bool.and_eq_true]
        refine exists_congr fun link => and_congr_right fun member => ?_
        rw [same link member]
      simp only [agreed]
    · intro build last next sound bound link member unlinked
      have lent := (unlinked_lent sound bound member).mp unlinked
      cases detach with
      | true => cases lent
      | false => exact covered rfl link member (snap.lends_covering link lent)

end Snapshot

-- The builds lend alike, and inside the window, exactly when the context a call
-- asks holds no object by closed windows alone.
theorem lends_alike_iff_covered (snap : Snapshot s) :
    (∀ lend targets, snap.OpAlike lend targets ↔ (lend = true → snap.Covered targets.entries)) ∧
    (∀ g detach quiet, snap.RunAlike g detach quiet ↔ (detach = false → snap.Covered g.demands)) :=
  ⟨snap.op_alike_iff,snap.run_alike_iff⟩

-- The entry of task 0's write window, carried past its release into the write
-- window of task 1.
def outlivedSnapshot : Snapshot (system.follow (system.follow .initial twoWindows) handedOver) where
  declared := [(Entry.capture (system.follow .initial twoWindows).epochs 0 .readWrite (some 0) 0,
    ⟨0,⟨.link 0 0,.readWrite⟩⟩)]
  bounded := by decide
  carried := by
    intro d member
    rw [List.mem_singleton.mp member]
    exact ⟨_,handedOver,Machines.reached_follow (.start rfl) (by decide),⟨by decide,rfl,by decide⟩,
      Machines.runs_follow (by decide)⟩

theorem lends_apart_outlived :
    let epochs := (system.follow (system.follow .initial twoWindows) handedOver).epochs
    let target := LinkTable.single ⟨0,.readWrite⟩
    bindLinks .checked epochs (some outlivedSnapshot.context) true target = .ok target ∧
    bindLinks .shipping epochs (some outlivedSnapshot.context) true target = .ok .empty ∧
    ¬ outlivedSnapshot.OpAlike true target := by
  intro epochs target
  have checked : bindLinks .checked epochs (some outlivedSnapshot.context) true target = .ok target := by decide
  have shipping : bindLinks .shipping epochs (some outlivedSnapshot.context) true target = .ok .empty := by decide
  refine ⟨checked,shipping,?_⟩
  intro alike
  have bound := alike.bound target checked
  rw [shipping] at bound
  exact absurd (Except.ok.inj bound) (by decide)

end Macrame

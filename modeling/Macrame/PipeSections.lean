import Macrame.Coherence
import Macrame.Lib.Sections

namespace Macrame.PipeSections
open Machines Sections

-- The calls that take the mutexes of pipes.
inductive PipeCall where
  | enter (p : PipeId) (l : PipeLink)
  | acquire (p : PipeId) (mode : Access) (node : HoldId) (owner : Option BlockId)
  | release (p : PipeId) (mode : Access)
  | tryInline (b : BlockId) (links : LinkTable)
  deriving DecidableEq, Repr

-- What a test or an admission is for: the one entry of an enter or an acquire, the
-- front of the queue in `collect_admissions`, or one link of an inline probe.
inductive Site where
  | single
  | front (granted : List PipeLink) (l : PipeLink)
  | link (i : Nat)
  deriving DecidableEq, Repr

-- Where a section is between two accesses to a pipe. `judging` and `counting` are the
-- two reads of `admissible`, `admitting` the writes of an admission, `draining` to
-- `unwritten` the reads that decide on the notify.
inductive Place where
  | testing (site : Site)
  | judging (site : Site)
  | counting (site : Site)
  | admitting (site : Site) (n : Nat)
  | pushing
  | releasing (n : Nat)
  | collecting (granted : List PipeLink)
  | popping (granted : List PipeLink) (l : PipeLink)
  | draining (granted : List PipeLink)
  | unread (granted : List PipeLink)
  | unwritten (granted : List PipeLink)
  | entered (now : Bool)
  | released (granted : List PipeLink) (drained : Bool)
  | probed (passed : Bool)
  deriving DecidableEq, Repr

-- The writes of `admit_locked`, one by one.
def admitAccess (l : PipeLink) (pipe : Pipe) : Nat → Pipe
  | 0 =>
    match l.mode with
    | .readOnly => {pipe with activeReaders := pipe.activeReaders+1}
    | .readWrite => {pipe with writerActive := true}
  | 1 => {pipe with writerOwner := l.grantee}
  | _ => {pipe with writeEpoch := pipe.writeEpoch+1}

-- Those of `release_and_redispatch` before its admission pass.
def releaseAccess (mode : Access) (pipe : Pipe) : Nat → Pipe
  | 0 =>
    match mode with
    | .readOnly => {pipe with activeReaders := pipe.activeReaders-1}
    | .readWrite => {pipe with writerActive := false}
  | 1 => {pipe with writerOwner := none}
  | _ => {pipe with writeEpoch := pipe.writeEpoch+1}

def writes : Access → Nat
  | .readOnly => 1
  | .readWrite => 3

namespace PipeCall

-- The mutexes, in the order in which they are taken.
def pipes : PipeCall → List PipeId
  | .enter p _ => [p]
  | .acquire p _ _ _ => [p]
  | .release p _ => [p]
  | .tryInline _ links => links.entries.map Link.pipe

def site (c : PipeCall) : Site → Option (PipeId × PipeLink)
  | .single =>
    match c with
    | .enter p l => some (p,l)
    | .acquire p mode node owner => some (p,⟨.hold node owner,mode⟩)
    | _ => none
  | .front _ l =>
    match c with
    | .release p _ => some (p,l)
    | _ => none
  | .link i =>
    match c with
    | .tryInline b links => links.entries[i]?.map (fun link => (link.pipe,⟨.link b i,link.mode⟩))
    | _ => none

def count : PipeCall → Nat
  | .tryInline _ links => links.count
  | _ => 1

-- Where the tests lead, and where an admission does.
def accept (c : PipeCall) : Site → Place
  | .single => .admitting .single 0
  | .front granted l => .popping granted l
  | .link i => if i+1 < c.count then .testing (.link (i+1)) else .admitting (.link 0) 0

def refuse : Site → Place
  | .single => .pushing
  | .front granted _ => .draining granted
  | .link _ => .probed false

def admitted (c : PipeCall) : Site → Place
  | .single => .entered true
  | .front granted l => .collecting (granted++[l])
  | .link i => if i+1 < c.count then .admitting (.link (i+1)) 0 else .probed true

def first : PipeCall → Place
  | .enter _ _ => .testing .single
  | .acquire _ _ _ _ => .testing .single
  | .release _ _ => .releasing 0
  | .tryInline _ links => if 0 < links.count then .testing (.link 0) else .probed true

-- The access of each place: the pipe it goes to, and what it finds and leaves there.
def access (c : PipeCall) : Place → Option (PipeId × (Pipe → Place × Pipe))
  | .testing at_ => (c.site at_).map (fun entry => (entry.1,fun pipe =>
      (if pipe.queue.isEmpty then .judging at_ else refuse at_,pipe)))
  | .judging at_ => (c.site at_).map (fun entry => (entry.1,fun pipe =>
      (if pipe.writerActive then refuse at_
        else match entry.2.mode with | .readOnly => c.accept at_ | .readWrite => .counting at_,pipe)))
  | .counting at_ => (c.site at_).map (fun entry => (entry.1,fun pipe =>
      (if pipe.activeReaders == 0 then c.accept at_ else refuse at_,pipe)))
  | .admitting at_ n => (c.site at_).map (fun entry => (entry.1,fun pipe =>
      (if n+1 < writes entry.2.mode then .admitting at_ (n+1) else c.admitted at_,admitAccess entry.2 pipe n)))
  | .pushing => (c.site .single).map (fun entry => (entry.1,fun pipe => (.entered false,pipe.queuePush entry.2)))
  | .releasing n =>
    match c with
    | .release p mode => some (p,fun pipe =>
        (if n+1 < writes mode then .releasing (n+1) else .collecting [],releaseAccess mode pipe n))
    | _ => none
  | .collecting granted =>
    match c with
    | .release p _ => some (p,fun pipe =>
        (match pipe.queue with | [] => .draining granted | l :: _ => .judging (.front granted l),pipe))
    | _ => none
  | .popping granted l =>
    match c with
    | .release p _ => some (p,fun pipe => (.admitting (.front granted l) 0,{pipe with queue := pipe.queue.tail}))
    | _ => none
  | .draining granted =>
    match c with
    | .release p _ => some (p,fun pipe => (if pipe.queue.isEmpty then .unread granted else .released granted false,pipe))
    | _ => none
  | .unread granted =>
    match c with
    | .release p _ => some (p,fun pipe => (if pipe.activeReaders == 0 then .unwritten granted else .released granted false,pipe))
    | _ => none
  | .unwritten granted =>
    match c with
    | .release p _ => some (p,fun pipe => (.released granted (!pipe.writerActive),pipe))
    | _ => none
  | _ => none

def code (c : PipeCall) : Section PipeId Pipe Place := ⟨c.pipes,c.first,visits c.access⟩

def admitEntry (b : BlockId) (m : PipeId → Pipe) (entry : Link × Nat) : PipeId → Pipe :=
  Function.update m entry.1.pipe ((m entry.1.pipe).admitLocked ⟨.link b entry.2,entry.1.mode⟩)

-- The same calls as the atomic steps they are taken for.
def atOnce : PipeCall → (PipeId → Pipe) → (PipeId → Pipe) × Place
  | .enter p l,m => (Function.update m p ((m p).enterLocked l).1,.entered ((m p).enterLocked l).2)
  | .acquire p mode node owner,m =>
    (Function.update m p ((m p).acquireLocked mode node owner).1,.entered ((m p).acquireLocked mode node owner).2)
  | .release p mode,m =>
    (Function.update m p ((m p).releaseLocked mode).1,.released ((m p).releaseLocked mode).2 ((m p).releaseLocked mode).1.idle)
  | .tryInline b links,m =>
    if links.entries.all (fun link => (m link.pipe).free link.mode) then (links.entries.zipIdx.foldl (admitEntry b) m,.probed true)
    else (m,.probed false)

variable {c : PipeCall} {at_ : Site} {p : PipeId} {l : PipeLink} {m n : PipeId → Pipe} {b : Place}

theorem site_mem (here : c.site at_ = some (p,l)) : p ∈ c.pipes := by
  unfold site at here
  cases at_ with
  | single =>
    cases c with
    | enter => cases here; exact List.mem_singleton_self _
    | acquire => cases here; exact List.mem_singleton_self _
    | _ => cases here
  | front =>
    cases c with
    | release => cases here; exact List.mem_singleton_self _
    | _ => cases here
  | link i =>
    cases c with
    | tryInline b links =>
      obtain ⟨link,there,same⟩ := Option.map_eq_some_iff.mp here
      cases same
      exact List.mem_map_of_mem (List.mem_of_getElem? there)
    | _ => cases here

theorem access_mem (here : c.access a = some (p,act)) : p ∈ c.pipes := by
  have single : ∀ {at_ : Site} {f : PipeId × PipeLink → Pipe → Place × Pipe},
      (c.site at_).map (fun entry => (entry.1,f entry)) = some (p,act) → p ∈ c.pipes := by
    intro at_ f found
    obtain ⟨entry,there,same⟩ := Option.map_eq_some_iff.mp found
    cases same
    exact site_mem there
  unfold access at here
  cases a with
  | testing => exact single here
  | judging => exact single here
  | counting => exact single here
  | admitting => exact single here
  | pushing => exact single here
  | entered => cases here
  | released => cases here
  | probed => cases here
  | _ =>
    cases c with
    | release => cases here; exact List.mem_singleton_self _
    | _ => cases here

-- Every section keeps to the pipes it has locked, and locks them in canonical order.
theorem ordered : Ordered code := by
  refine ⟨fun c => within_visits (fun _ _ _ here => access_mem here),?_⟩
  intro c
  cases c with
  | tryInline b links => exact links.canonical.map _ (fun _ _ less => less)
  | _ => exact List.pairwise_singleton ..

theorem judges (here : c.site at_ = some (p,l))
    (rest : Plays (visits c.access) (if (m p).admissible l.mode then c.accept at_ else refuse at_) m b n) :
    Plays (visits c.access) (.judging at_) m b n := by
  have judging : c.access (.judging at_) = some (p,fun pipe => (if pipe.writerActive then refuse at_
      else match l.mode with | .readOnly => c.accept at_ | .readWrite => .counting at_,pipe)) := by
    simp only [access,here,Option.map_some]
  have counting : c.access (.counting at_) = some (p,fun pipe => (if pipe.activeReaders == 0 then c.accept at_ else refuse at_,pipe)) := by
    simp only [access,here,Option.map_some]
  refine .look judging rfl ?_
  dsimp only
  cases writer : (m p).writerActive with
  | true =>
    cases mode : l.mode <;> simpa only [Pipe.admissible,mode,writer,Bool.not_true,Bool.false_and,Bool.false_eq_true,if_false,if_true] using rest
  | false =>
    rw [if_neg Bool.false_ne_true]
    cases mode : l.mode with
    | readOnly => simpa only [Pipe.admissible,mode,writer,Bool.not_false,if_true] using rest
    | readWrite =>
      refine .look counting rfl ?_
      simpa only [Pipe.admissible,mode,writer,Bool.not_false,Bool.true_and] using rest

theorem tests (here : c.site at_ = some (p,l))
    (rest : Plays (visits c.access) (if (m p).free l.mode then c.accept at_ else refuse at_) m b n) :
    Plays (visits c.access) (.testing at_) m b n := by
  have testing : c.access (.testing at_) = some (p,fun pipe => (if pipe.queue.isEmpty then .judging at_ else refuse at_,pipe)) := by
    simp only [access,here,Option.map_some]
  refine .look testing rfl ?_
  unfold Pipe.free at rest
  cases empty : (m p).queue.isEmpty with
  | true =>
    rw [empty,Bool.true_and] at rest
    exact judges here rest
  | false =>
    rw [empty,Bool.false_and,if_neg Bool.false_ne_true] at rest
    exact rest

-- The writes of an admission make up `admit_locked`.
theorem admits (here : c.site at_ = some (p,l))
    (rest : Plays (visits c.access) (c.admitted at_) (Function.update m p ((m p).admitLocked l)) b n) :
    Plays (visits c.access) (.admitting at_ 0) m b n := by
  have admitting : ∀ k, c.access (.admitting at_ k) = some (p,fun pipe =>
      (if k+1 < writes l.mode then .admitting at_ (k+1) else c.admitted at_,admitAccess l pipe k)) := by
    intro k
    simp only [access,here,Option.map_some]
  cases mode : l.mode with
  | readOnly =>
    simp only [mode] at admitting
    refine .visit (admitting 0) ?_
    simpa [writes,admitAccess,Pipe.admitLocked,mode] using rest
  | readWrite =>
    simp only [mode] at admitting
    refine .visit (admitting 0) ?_
    refine .visit (admitting 1) ?_
    refine .visit (admitting 2) ?_
    simpa [writes,admitAccess,Pipe.admitLocked,mode] using rest

theorem releases {mode : Access} (rest : Plays (visits (release p mode).access) (.collecting []) (Function.update m p ((m p).releaseMode mode)) b n) :
    Plays (visits (release p mode).access) (.releasing 0) m b n := by
  have releasing : ∀ k, (release p mode).access (.releasing k) = some (p,fun pipe =>
      (if k+1 < writes mode then .releasing (k+1) else .collecting [],releaseAccess mode pipe k)) := fun _ => rfl
  refine .visit (releasing 0) ?_
  cases mode with
  | readOnly => exact rest
  | readWrite =>
    refine .visit (releasing 1) ?_
    refine .visit (releasing 2) ?_
    simpa [writes,releaseAccess,Pipe.releaseMode] using rest

-- The loop of `collect_admissions`, on the queue that is left.
theorem collects {mode : Access} (queue : List PipeLink) (pipe : Pipe) (left : pipe.queue = queue) (granted : List PipeLink)
    (rest : Plays (visits (release p mode).access) (.draining (granted++(Pipe.collectFrom queue pipe).2))
      (Function.update m p (Pipe.collectFrom queue pipe).1) b n) :
    Plays (visits (release p mode).access) (.collecting granted) (Function.update m p pipe) b n := by
  induction queue generalizing pipe granted with
  | nil =>
    refine .look (k := p) rfl rfl ?_
    rw [Function.update_self,left]
    simpa only [Pipe.collectFrom,List.append_nil] using rest
  | cons l queue ih =>
    refine .look (k := p) rfl rfl ?_
    rw [Function.update_self,left]
    refine judges (p := p) (l := l) rfl ?_
    rw [Function.update_self]
    cases admissible : pipe.admissible l.mode with
    | false =>
      simp only [Pipe.collectFrom,admissible,Bool.false_eq_true,if_false,List.append_nil] at rest
      exact rest
    | true =>
      simp only [Pipe.collectFrom,admissible,if_true] at rest
      rw [if_pos rfl]
      refine .visit (k := p) rfl ?_
      refine admits (p := p) (l := l) rfl ?_
      simp only [Function.update_self,Function.update_idem,left,List.tail_cons]
      refine ih _ ?_ _ ?_
      · rw [Pipe.admitLocked_queue]
      · rw [List.append_assoc]
        exact rest

theorem drains (mode : Access) (granted : List PipeLink) :
    Plays (visits (release p mode).access) (.draining granted) m (.released granted (m p).idle) m := by
  refine .look (k := p) rfl rfl ?_
  unfold Pipe.idle
  cases (m p).queue.isEmpty with
  | false => exact .nil
  | true =>
    rw [if_pos rfl,Bool.true_and]
    refine .look (k := p) rfl rfl ?_
    cases (m p).activeReaders == 0 with
    | false => exact .nil
    | true =>
      rw [if_pos rfl,Bool.true_and]
      exact .look (k := p) rfl rfl .nil

-- The links from `i` on.
theorem next_link {links : LinkTable} {link : Link} {rest : List Link} (left : links.entries.drop i = link :: rest) :
    links.entries[i]? = some link ∧ links.entries.drop (i+1) = rest ∧ (i+1 < links.count ↔ rest ≠ []) := by
  have head := congrArg List.head? left
  have tail := congrArg List.tail left
  rw [List.head?_drop,List.head?_cons] at head
  rw [List.tail_drop,List.tail_cons] at tail
  refine ⟨head,tail,?_⟩
  rw [← tail,ne_eq,List.drop_eq_nil_iff,Nat.not_le]
  rfl

theorem probes (owner : BlockId) {links : LinkTable} (link : Link) (rest : List Link) (i : Nat)
    (left : links.entries.drop i = link :: rest) : Plays (visits (tryInline owner links).access) (.testing (.link i)) m
      (if (link :: rest).all (fun link => (m link.pipe).free link.mode) then .admitting (.link 0) 0 else .probed false) m := by
  induction rest generalizing i link with
  | nil =>
    obtain ⟨there,-,more⟩ := next_link left
    refine tests (p := link.pipe) (l := ⟨.link owner i,link.mode⟩) (by simp only [site,there,Option.map_some]) ?_
    have last : accept (tryInline owner links) (.link i) = .admitting (.link 0) 0 := if_neg (fun another => more.mp another rfl)
    rw [last,List.all_cons,List.all_nil,Bool.and_true]
    exact .nil
  | cons next rest ih =>
    obtain ⟨there,later,more⟩ := next_link left
    refine tests (p := link.pipe) (l := ⟨.link owner i,link.mode⟩) (by simp only [site,there,Option.map_some]) ?_
    have another : accept (tryInline owner links) (.link i) = .testing (.link (i+1)) := if_pos (more.mpr (List.cons_ne_nil _ _))
    rw [another,List.all_cons]
    cases (m link.pipe).free link.mode with
    | false => exact .nil
    | true =>
      rw [Bool.true_and]
      exact ih next (i+1) later

theorem admitsAll {owner : BlockId} {links : LinkTable} (link : Link) (rest : List Link) (i : Nat)
    (left : links.entries.drop i = link :: rest) : Plays (visits (tryInline owner links).access) (.admitting (.link i) 0) m
      (.probed true) (((link :: rest).zipIdx i).foldl (admitEntry owner) m) := by
  induction rest generalizing i link m with
  | nil =>
    obtain ⟨there,-,more⟩ := next_link left
    refine admits (p := link.pipe) (l := ⟨.link owner i,link.mode⟩) (by simp only [site,there,Option.map_some]) ?_
    have last : admitted (tryInline owner links) (.link i) = .probed true := if_neg (fun another => more.mp another rfl)
    rw [last]
    exact .nil
  | cons next rest ih =>
    obtain ⟨there,later,more⟩ := next_link left
    refine admits (p := link.pipe) (l := ⟨.link owner i,link.mode⟩) (by simp only [site,there,Option.map_some]) ?_
    have another : admitted (tryInline owner links) (.link i) = .admitting (.link (i+1)) 0 :=
      if_pos (more.mpr (List.cons_ne_nil _ _))
    rw [another]
    exact ih next (i+1) later

theorem enters (here : c.site .single = some (p,l)) : Plays (visits c.access) (.testing .single) m
    (.entered ((m p).enterLocked l).2) (Function.update m p ((m p).enterLocked l).1) := by
  refine tests here ?_
  cases free : (m p).free l.mode with
  | true =>
    have now : (m p).enterLocked l = ((m p).admitLocked l,true) := if_pos free
    rw [now]
    exact admits here .nil
  | false =>
    have queued : (m p).enterLocked l = ((m p).queuePush l,false) := if_neg (ne_true_of_eq_false free)
    have pushing : c.access .pushing = some (p,fun pipe => (.entered false,pipe.queuePush l)) := by
      simp only [access,here,Option.map_some]
    rw [queued]
    exact .visit pushing .nil

-- Access by access each section does what the atomic step does, and ends with its result.
theorem atOnce_exact : Exact code atOnce := by
  intro c m
  refine ⟨?_,?_⟩
  · cases c with
    | enter p l => exact enters rfl
    | acquire p mode node owner =>
      dsimp only [atOnce]
      rw [Pipe.acquire_enters]
      exact enters rfl
    | release p mode =>
      refine releases (collects _ ((m p).releaseMode mode) rfl [] ?_)
      have drained := drains (p := p) (m := Function.update m p ((m p).releaseLocked mode).1) mode ((m p).releaseLocked mode).2
      rw [Function.update_self] at drained
      exact drained
    | tryInline b links =>
      simp only [atOnce]
      cases entries : links.entries with
      | nil =>
        have none_ : (tryInline b links).first = .probed true := by
          simp only [first,LinkTable.count,entries,List.length_nil,Nat.lt_irrefl,if_false]
        change Plays _ (tryInline b links).first _ _ _
        rw [none_]
        exact .nil
      | cons link rest =>
        have some_ : (tryInline b links).first = .testing (.link 0) := by
          simp only [first,LinkTable.count,entries,List.length_cons,Nat.succ_pos,if_true]
        have probing := probes (m := m) b link rest 0 (List.drop_zero.trans entries)
        change Plays _ (tryInline b links).first _ _ _
        rw [some_]
        cases passed : (link :: rest).all (fun link => (m link.pipe).free link.mode) with
        | false =>
          rw [passed] at probing
          exact probing
        | true =>
          rw [passed] at probing
          exact probing.append (admitsAll link rest 0 (List.drop_zero.trans entries))
  · have answered : access c (atOnce c m).2 = none := by
      cases c with
      | tryInline b links =>
        simp only [atOnce]
        split <;> rfl
      | _ => rfl
    exact visits_none answered _

end PipeCall

section Steps

variable {s : State} {b : BlockId} {i : Nat} {link : Link}

def pipesOf (s : State) (p : PipeId) : Pipe := (s.pipes p).pipe

theorem pipesOf_setPipe (s : State) (p : PipeId) (t : Tracked) : pipesOf (s.setPipe p t) = Function.update (pipesOf s) p t.pipe := by
  funext q
  by_cases same : q = p
  · rw [same,Function.update_self]
    exact congrArg Tracked.pipe (Function.update_self ..)
  · rw [Function.update_of_ne same]
    exact congrArg Tracked.pipe (Function.update_of_ne same ..)

theorem noted_pipe (granted : List PipeLink) (t : Tracked) : (granted.foldl Tracked.noteAdmitted t).pipe = t.pipe := by
  induction granted generalizing t with
  | nil => rfl
  | cons l granted ih => exact ih _

theorem entered_pipe (t : Tracked) (l : PipeLink) : (t.enter l).1.pipe = (t.pipe.enterLocked l).1 := by
  unfold Tracked.enter
  dsimp only
  split <;> rfl

theorem admitInline_pipes (entries : List (Link × Nat)) (s : State) :
    pipesOf (entries.foldl (State.admitInline · b) s) = entries.foldl (PipeCall.admitEntry b) (pipesOf s) := by
  induction entries generalizing s with
  | nil => rfl
  | cons entry entries ih =>
    rw [List.foldl_cons,List.foldl_cons,ih]
    exact congrArg (entries.foldl (PipeCall.admitEntry b)) (pipesOf_setPipe s entry.1.pipe _)

-- The block machinery's steps change the pipes as these calls do.
theorem steps_atOnce (s : State) :
    (∀ b i link, (s.blocks b).links.entries[i]? = some link →
      pipesOf (s.enterLink b i) = ((PipeCall.enter link.pipe ⟨.link b i,link.mode⟩).atOnce (pipesOf s)).1) ∧
    (∀ h p mode owner, pipesOf (s.acquire h p mode owner) = ((PipeCall.acquire p mode h owner).atOnce (pipesOf s)).1) ∧
    (∀ p l, pipesOf (s.releasePipe p l) = ((PipeCall.release p l.mode).atOnce (pipesOf s)).1) ∧
    ∀ b, pipesOf (s.tryInline b) = ((PipeCall.tryInline b (s.blocks b).links).atOnce (pipesOf s)).1 := by
  refine ⟨?_,?_,?_,?_⟩
  · intro b i link there
    have same : (s.enterLink b i).pipes = (s.setPipe link.pipe ((s.pipes link.pipe).enter ⟨.link b i,link.mode⟩).1).pipes := by
      simp only [State.enterLink,there]
      split <;> rfl
    unfold pipesOf
    rw [same]
    exact (pipesOf_setPipe s link.pipe _).trans (congrArg _ (entered_pipe ..))
  · intro h p mode owner
    dsimp only [PipeCall.atOnce]
    rw [Pipe.acquire_enters]
    exact (pipesOf_setPipe s p _).trans (congrArg _ (entered_pipe ..))
  · intro p l
    unfold pipesOf State.releasePipe
    dsimp only
    rw [State.granted_pipes]
    refine (pipesOf_setPipe s p _).trans (congrArg _ ?_)
    exact noted_pipe ..
  · intro b
    simp only [State.tryInline,PipeCall.atOnce]
    change pipesOf (if (s.blocks b).links.entries.all (fun link => (pipesOf s link.pipe).free link.mode) then _ else s) = _
    cases (s.blocks b).links.entries.all (fun link => (pipesOf s link.pipe).free link.mode) with
    | false => rfl
    | true => exact admitInline_pipes _ s

end Steps

abbrev sectionSystem (pipes : PipeId → Pipe) : Machine (Locks Nat PipeCall PipeId Pipe Place) (LockAction Nat PipeCall) :=
  lockSystem PipeCall.code pipes

theorem quiet_replays (path : Reached (sectionSystem pipes) s) (quiet : ∀ t, ¬ (s.stages t).runs PipeCall.code p) :
    s.memory p = replay PipeCall.atOnce pipes s.log p := by
  obtain ⟨serial,held⟩ := reached_held PipeCall.ordered path
  obtain ⟨same,-⟩ := held.log.replays PipeCall.atOnce_exact
  rw [held.quiet p quiet,same]

-- Whatever the interleaving of their locks, accesses and unlocks, two threads are never at
-- one pipe, every call that has returned got what it gets in that order as one step, and
-- a pipe that nobody is at is what these steps leave.
theorem sections_linearize (path : Reached (sectionSystem pipes) s) :
    (∀ t u p, (s.stages t).holds PipeCall.code p → (s.stages u).holds PipeCall.code p → t = u) ∧
      Answers PipeCall.atOnce pipes s.log ∧
      ∀ p, (∀ t, ¬ (s.stages t).runs PipeCall.code p) → s.memory p = replay PipeCall.atOnce pipes s.log p := by
  obtain ⟨serial,held⟩ := reached_held PipeCall.ordered path
  obtain ⟨-,answered⟩ := held.log.replays PipeCall.atOnce_exact
  exact ⟨fun t u p one two => held.alone one two,answered,fun p quiet => quiet_replays path quiet⟩

-- Two inline probes that overlap in pipe 1, and an enter into a pipe of its own.
def probe (b : BlockId) (p : PipeId) : PipeCall :=
  .tryInline b ⟨[⟨p,.readWrite⟩,⟨p+1,.readOnly⟩],by simp,by simp⟩

def overlapping : List (LockAction Nat PipeCall) :=
  [.begin 0 (probe 7 0),.begin 1 (probe 8 1),.begin 2 (.enter 3 ⟨.link 9 0,.readWrite⟩),.lock 1,.lock 0]

def disentangled : List (LockAction Nat PipeCall) :=
  [LockAction.lock 2,.lock 2,.lock 1,.lock 1]++(List.replicate 7 [LockAction.turn 1,.turn 2]).flatten++
    List.replicate 3 (LockAction.turn 1)++List.replicate 2 (LockAction.unlock 1)++List.replicate 2 (LockAction.lock 0)++
    List.replicate 6 (LockAction.turn 0)

theorem sections_linearize_overlapping :
    let s := (sectionSystem (fun _ => {})).follow {memory := fun _ => {}} (overlapping++disentangled)
    s.log.map (fun entry => (entry.1,entry.2.2)) = [(2,.entered true),(1,.probed true),(0,.probed false)] ∧
      s.memory 0 = {} ∧ (s.memory 1).writerOwner = some 8 ∧ Answers PipeCall.atOnce (fun _ => {}) s.log := by
  have path : Reached (sectionSystem (fun _ => {}))
      ((sectionSystem (fun _ => {})).follow {memory := fun _ => {}} (overlapping++disentangled)) :=
    reached_follow (.start rfl) (by decide +kernel)
  exact ⟨by decide +kernel,by decide +kernel,by decide +kernel,(sections_linearize path).2.1⟩

-- Nor are they ever stuck: probes over overlapping objects and all, the threads that are
-- inside come out by their own steps alone.
theorem sections_unwind (path : Reached (sectionSystem pipes) s) :
    ∃ actions u, Runs (sectionSystem pipes) s actions u ∧ actions.all LockAction.within ∧
      (∀ t, u.stages t = .idle) ∧ u.memory = replay PipeCall.atOnce pipes u.log := by
  obtain ⟨serial,held⟩ := reached_held PipeCall.ordered path
  obtain ⟨crew,known⟩ := reached_crew path
  have returns : ∀ c m, ∃ last n, Atomic (PipeCall.code c) m last n := fun c m => ⟨_,_,PipeCall.atOnce_exact c m⟩
  obtain ⟨actions,u,run,inside,idle⟩ := held.unwinds PipeCall.ordered returns crew known
  refine ⟨actions,u,run,inside,idle,funext ?_⟩
  intro p
  refine quiet_replays (runs_reached path run) ?_
  intro t running
  rw [idle t] at running
  exact running

theorem sections_unwind_overlapping :
    let s := (sectionSystem (fun _ => {})).follow {memory := fun _ => {}} overlapping
    s.mutex 0 = some 0 ∧ s.mutex 1 = some 1 ∧ ¬ Allowed s (.lock 0) ∧
      ∃ actions u, Runs (sectionSystem (fun _ => {})) s actions u ∧ actions.all LockAction.within ∧
        (∀ t, u.stages t = .idle) ∧ u.memory = replay PipeCall.atOnce (fun _ => {}) u.log :=
  ⟨by decide,by decide,by decide,sections_unwind (reached_follow (.start rfl) (by decide))⟩

end Macrame.PipeSections

import Mathlib.Data.List.Count
import Mathlib.Data.List.TakeDrop
import Macrame.Pipe

namespace Macrame

-- One admission, numbered in the order the pipe admitted.
structure Ticket where
  number : Nat
  link : PipeLink
  deriving DecidableEq, Repr

-- A pipe with the history of its admissions. The history is bookkeeping: no
-- operation reads it, so it cannot steer an admission.
structure Tracked where
  pipe : Pipe := {}
  entered : List PipeLink := []
  admitted : List PipeLink := []
  outstanding : List Ticket := []
  deriving DecidableEq, Repr

namespace Tracked

def noteAdmitted (t : Tracked) (l : PipeLink) : Tracked :=
  {t with admitted := t.admitted++[l],outstanding := t.outstanding++[⟨t.admitted.length,l⟩]}

-- `pipe_enter_link` and `pipe_acquire` both enter this way (`Pipe.acquire_enters`).
def enter (t : Tracked) (l : PipeLink) : Tracked × Bool :=
  let locked := t.pipe.enterLocked l
  let noted := {t with pipe := locked.1,entered := t.entered++[l]}
  (if locked.2 then noted.noteAdmitted l else noted,locked.2)

-- One admit of `pipe_try_inline`, made only after every pipe passed its probe.
def admitInline (t : Tracked) (l : PipeLink) : Tracked :=
  {t with pipe := t.pipe.admitLocked l,entered := t.entered++[l]}.noteAdmitted l

def forget (t : Tracked) (l : PipeLink) : Tracked :=
  {t with pipe := t.pipe.releaseMode l.mode,outstanding := t.outstanding.eraseP (·.link == l)}

-- `release_and_redispatch` for the admission of `l`, with the links it granted.
def release (t : Tracked) (l : PipeLink) : Tracked × List PipeLink :=
  let locked := t.pipe.releaseLocked l.mode
  (locked.2.foldl noteAdmitted {t.forget l with pipe := locked.1},locked.2)

-- The admission pass entry by entry, as its loop runs.
def admitHead (t : Tracked) (l : PipeLink) (rest : List PipeLink) : Tracked :=
  {t with pipe := ({t.pipe with queue := rest} : Pipe).admitLocked l}.noteAdmitted l

def held (t : Tracked) : List PipeLink := t.outstanding.map Ticket.link

def writes (links : List PipeLink) : Nat := links.countP (·.mode == .readWrite)
def reads (links : List PipeLink) : Nat := links.countP (·.mode == .readOnly)

-- What the counters of a pipe say about its admissions. The clauses hold
-- inside an admission pass too; `Blocked` holds only between mutex sections.
structure Counted (t : Tracked) : Prop where
  readers : t.pipe.activeReaders = reads t.held
  writing : t.pipe.writerActive = true →
    ∃ k, t.outstanding = [k] ∧ k.link.mode = .readWrite ∧ t.pipe.writerOwner = k.link.grantee
  reading : t.pipe.writerActive = false →
    t.pipe.writerOwner = none ∧ ∀ k ∈ t.outstanding, k.link.mode = .readOnly
  fifo : t.entered = t.admitted++t.pipe.queue
  numbered : ∀ k ∈ t.outstanding, t.admitted[k.number]? = some k.link
  latest : ∀ k ∈ t.outstanding, writes (t.admitted.drop (k.number+1)) = 0
  ordered : t.outstanding.Pairwise (fun a b => a.number < b.number)
  epochs : t.pipe.writeEpoch+(if t.pipe.writerActive then 1 else 0) = 2*writes t.admitted

def Blocked (t : Tracked) : Prop :=
  ∀ l rest, t.pipe.queue = l :: rest → t.pipe.admissible l.mode = false

structure Valid (t : Tracked) : Prop extends Counted t where
  blocked : Blocked t

theorem initial_valid : Valid ({} : Tracked) := by
  refine ⟨⟨?_,?_,?_,?_,?_,?_,?_,?_⟩,?_⟩ <;> simp [held,reads,writes,Blocked]

@[simp] theorem noteAdmitted_pipe (t : Tracked) (l : PipeLink) : (t.noteAdmitted l).pipe = t.pipe := rfl
@[simp] theorem noteAdmitted_entered (t : Tracked) (l : PipeLink) : (t.noteAdmitted l).entered = t.entered := rfl
@[simp] theorem noteAdmitted_held (t : Tracked) (l : PipeLink) : (t.noteAdmitted l).held = t.held++[l] := by
  simp [held,noteAdmitted]

theorem writes_append (one two : List PipeLink) : writes (one++two) = writes one+writes two := by
  simp [writes]
theorem reads_append (one two : List PipeLink) : reads (one++two) = reads one+reads two := by
  simp [reads]

theorem Counted.idle_of_none (valid : Counted t) (none_out : t.outstanding = []) :
    t.pipe.writerActive = false ∧ t.pipe.activeReaders = 0 := by
  refine ⟨?_,?_⟩
  · cases active : t.pipe.writerActive with
    | false => rfl
    | true =>
      obtain ⟨k,only,_⟩ := valid.writing active
      simp [none_out] at only
  · rw [valid.readers]
    simp [held,none_out,reads]

theorem Counted.below (valid : Counted t) (out : k ∈ t.outstanding) : k.number < t.admitted.length := by
  obtain ⟨bounded,_⟩ := List.getElem?_eq_some_iff.mp (valid.numbered k out)
  exact bounded

-- An admissible write meets an empty table, an admissible read no writer.
theorem Counted.write_alone (valid : Counted t) (admitted : t.pipe.admissible .readWrite = true) :
    t.outstanding = [] := by
  obtain ⟨_,onlyReads⟩ := valid.reading (Pipe.admissible_inactive admitted)
  have none_reading : reads t.held = 0 := by
    have counted := valid.readers
    rw [Pipe.admissible_write admitted] at counted
    exact_mod_cast counted.symm
  cases shape : t.outstanding with
  | nil => rfl
  | cons k rest =>
    have mode := onlyReads k (by simp [shape])
    simp [held,shape,reads,mode] at none_reading

-- Admitting an admissible link: the common core of every admission site.
theorem admit_counted (valid : Counted t) (admitted : t.pipe.admissible l.mode = true)
    (queue entered : List PipeLink) (fifo : entered = t.admitted++[l]++queue) :
    Counted (noteAdmitted {t with pipe := {t.pipe.admitLocked l with queue := queue},entered := entered} l) := by
  have inactive := Pipe.admissible_inactive admitted
  obtain ⟨_,onlyReads⟩ := valid.reading inactive
  have epochs := valid.epochs
  simp only [inactive,Bool.false_eq_true,ite_false,Nat.add_zero] at epochs
  have numbers : ∀ k ∈ t.outstanding++[⟨t.admitted.length,l⟩], (t.admitted++[l])[k.number]? = some k.link := by
    intro k out
    rcases List.mem_append.mp out with old | new
    · rw [List.getElem?_append_left (valid.below old)]
      exact valid.numbered k old
    · cases List.mem_singleton.mp new
      simp
  have order : (t.outstanding++[(⟨t.admitted.length,l⟩ : Ticket)]).Pairwise (fun a b => a.number < b.number) := by
    rw [List.pairwise_append]
    refine ⟨valid.ordered,List.pairwise_singleton _ _,?_⟩
    intro a old b new
    cases List.mem_singleton.mp new
    exact valid.below old
  cases mode : l.mode with
  | readOnly =>
    refine ⟨?_,?_,?_,?_,numbers,?_,order,?_⟩
    · simp only [noteAdmitted_held,noteAdmitted_pipe,Pipe.admitLocked,mode,reads_append]
      have counted := valid.readers
      simp only [held] at counted ⊢
      rw [counted]
      simp [reads,mode]
    · simp [Pipe.admitLocked,mode,inactive]
    · intro _
      refine ⟨?_,?_⟩
      · simpa [Pipe.admitLocked,mode] using (valid.reading inactive).1
      · intro k out
        rcases List.mem_append.mp out with old | new
        · exact onlyReads k old
        · cases List.mem_singleton.mp new
          exact mode
    · simpa [noteAdmitted] using fifo
    · intro k out
      have fresh : writes [l] = 0 := by simp [writes,mode]
      rcases List.mem_append.mp out with old | new
      · have before := valid.latest k old
        simp only [noteAdmitted]
        rw [List.drop_append_of_le_length (valid.below old),writes_append,before,fresh]
      · cases List.mem_singleton.mp new
        simp [noteAdmitted,writes]
    · have fresh : writes [l] = 0 := by simp [writes,mode]
      simp only [noteAdmitted,Pipe.admitLocked,mode,inactive,writes_append,fresh]
      simpa using epochs
  | readWrite =>
    rw [mode] at admitted
    have empty := valid.write_alone admitted
    refine ⟨?_,?_,?_,?_,numbers,?_,order,?_⟩
    · have noReaders := Pipe.admissible_write admitted
      simp [held,noteAdmitted,Pipe.admitLocked,mode,empty,noReaders,reads]
    · intro _
      exact ⟨⟨t.admitted.length,l⟩,by simp [noteAdmitted,empty],mode,by simp [noteAdmitted,Pipe.admitLocked,mode]⟩
    · simp [Pipe.admitLocked,mode]
    · simpa [noteAdmitted] using fifo
    · intro k out
      simp only [noteAdmitted,empty,List.nil_append,List.mem_singleton] at out
      subst out
      simp [noteAdmitted,writes]
    · have fresh : writes [l] = 1 := by simp [writes,mode]
      simp only [noteAdmitted,Pipe.admitLocked,mode,ite_true,writes_append,fresh]
      omega

theorem enter_valid (valid : Valid t) (l : PipeLink) : Valid (t.enter l).1 := by
  unfold enter Pipe.enterLocked
  by_cases free : (t.pipe.queue.isEmpty && t.pipe.admissible l.mode) = true
  · obtain ⟨empty,admitted⟩ : t.pipe.queue = [] ∧ t.pipe.admissible l.mode = true := by
      simpa using free
    have fifo : t.entered++[l] = t.admitted++[l]++t.pipe.queue := by
      rw [valid.fifo,empty]; simp
    have counted := admit_counted valid.toCounted admitted t.pipe.queue (t.entered++[l]) fifo
    rw [Pipe.admitLocked_same_queue] at counted
    simp only [free,ite_true]
    refine ⟨counted,?_⟩
    intro head rest shape
    simp [empty] at shape
  · simp only [free,Bool.false_eq_true,ite_false]
    refine ⟨⟨valid.readers,valid.writing,valid.reading,?_,valid.numbered,valid.latest,valid.ordered,valid.epochs⟩,?_⟩
    · simp [Pipe.queuePush,valid.fifo]
    · intro head rest shape
      cases queue : t.pipe.queue with
      | cons first others =>
        -- the head is the old head, still blocked
        simp only [Pipe.queuePush,queue,List.cons_append,List.cons.injEq] at shape
        obtain ⟨rfl,_⟩ := shape
        simpa using valid.blocked first others queue
      | nil =>
        simp only [Pipe.queuePush,queue,List.nil_append,List.cons.injEq] at shape
        obtain ⟨rfl,_⟩ := shape
        simpa [queue] using free

theorem admitInline_valid (valid : Valid t) (l : PipeLink) (free : t.pipe.free l.mode = true) :
    Valid (t.admitInline l) := by
  have entered : (t.enter l).1 = t.admitInline l := by
    simp only [Pipe.free] at free
    simp [enter,Pipe.enterLocked,admitInline,free]
  rw [← entered]
  exact enter_valid valid l

theorem admitHead_counted (valid : Counted t) (queue : t.pipe.queue = l :: rest)
    (admitted : t.pipe.admissible l.mode = true) : Counted (t.admitHead l rest) := by
  have fifo : t.entered = t.admitted++[l]++rest := by rw [valid.fifo,queue]; simp
  unfold admitHead
  rw [Pipe.admitLocked_set_queue]
  exact admit_counted valid admitted rest t.entered fifo

@[simp] theorem admitHead_queue (t : Tracked) (l : PipeLink) (rest : List PipeLink) :
    (t.admitHead l rest).pipe.queue = rest := by simp [admitHead]

-- The loop of the admission pass over the whole ledger.
def pass : List PipeLink → Tracked → Tracked
  | [],t => t
  | l :: rest,t => if t.pipe.admissible l.mode then pass rest (t.admitHead l rest) else t

theorem collect_pass (queue : List PipeLink) (t : Tracked) :
    (Pipe.collectFrom queue t.pipe).2.foldl noteAdmitted {t with pipe := (Pipe.collectFrom queue t.pipe).1} =
      pass queue t := by
  induction queue generalizing t with
  | nil => rfl
  | cons l rest ih =>
    by_cases admitted : t.pipe.admissible l.mode = true
    · simp only [Pipe.collectFrom,pass,admitted,ite_true,List.foldl_cons]
      exact ih (t.admitHead l rest)
    · simp [Pipe.collectFrom,pass,admitted]

theorem release_pass (t : Tracked) (l : PipeLink) : (t.release l).1 = pass t.pipe.queue (t.forget l) := by
  have looped := collect_pass t.pipe.queue (t.forget l)
  simpa [release,Pipe.releaseLocked,Pipe.collectAdmissions,forget] using looped

theorem pass_valid (valid : Counted t) (queue : t.pipe.queue = rest) : Valid (pass rest t) := by
  induction rest generalizing t with
  | nil =>
    refine ⟨valid,?_⟩
    intro head tail shape
    rw [pass,queue] at shape
    cases shape
  | cons l rest ih =>
    by_cases admitted : t.pipe.admissible l.mode = true
    · simp only [pass,admitted,ite_true]
      exact ih (admitHead_counted valid queue admitted) (admitHead_queue t l rest)
    · simp only [pass,admitted,Bool.false_eq_true,ite_false]
      refine ⟨valid,?_⟩
      intro head tail shape
      rw [queue] at shape
      cases shape
      simpa using admitted

theorem eraseP_link (out : List Ticket) (l : PipeLink) :
    (out.eraseP (·.link == l)).map Ticket.link = (out.map Ticket.link).erase l := by
  induction out with
  | nil => rfl
  | cons k rest ih =>
    by_cases same : k.link = l
    · simp [same]
    · simp [same,ih]

@[simp] theorem forget_held (t : Tracked) (l : PipeLink) : (t.forget l).held = t.held.erase l :=
  eraseP_link t.outstanding l

@[simp] theorem forget_queue (t : Tracked) (l : PipeLink) : (t.forget l).pipe.queue = t.pipe.queue := by
  simp [forget]

-- A release by an admitted party, in the mode it was admitted with.
theorem forget_counted (valid : Counted t) (out : l ∈ t.held) : Counted (t.forget l) := by
  obtain ⟨k,member,rfl⟩ := List.mem_map.mp out
  have kept : (t.forget k.link).outstanding.Sublist t.outstanding := List.eraseP_sublist
  have numbered : ∀ j ∈ (t.forget k.link).outstanding, t.admitted[j.number]? = some j.link :=
    fun j old => valid.numbered j (kept.subset old)
  have latest : ∀ j ∈ (t.forget k.link).outstanding, writes (t.admitted.drop (j.number+1)) = 0 :=
    fun j old => valid.latest j (kept.subset old)
  have ordered := valid.ordered.sublist kept
  have fifo : t.entered = t.admitted++(t.forget k.link).pipe.queue := by simpa using valid.fifo
  have epochs := valid.epochs
  cases active : t.pipe.writerActive with
  | true =>
    -- the writer is alone, so it is the one that leaves
    obtain ⟨writer,only,mode,_⟩ := valid.writing active
    obtain rfl : k = writer := by simpa [only] using member
    have gone : (t.forget k.link).outstanding = [] := by simp [forget,only]
    refine ⟨?_,?_,?_,fifo,numbered,latest,ordered,?_⟩
    · have readers := valid.readers
      simp only [held,only,List.map_cons,List.map_nil] at readers
      simp only [held,gone,List.map_nil]
      simp [forget,Pipe.releaseMode,mode,readers,reads]
    · simp [forget,Pipe.releaseMode,mode]
    · simp [forget,Pipe.releaseMode,mode,only]
    · simp only [active,ite_true] at epochs
      simpa [forget,Pipe.releaseMode,mode] using epochs
  | false =>
    have mode := (valid.reading active).2 k member
    refine ⟨?_,?_,?_,fifo,numbered,latest,ordered,?_⟩
    · have readers := valid.readers
      have erased := List.countP_erase (fun x : PipeLink => x.mode == .readOnly) t.held k.link
      have positive : 0 < reads t.held := List.countP_pos_iff.mpr ⟨k.link,out,by simp [mode]⟩
      have counted : reads (t.held.erase k.link) = reads t.held-1 := by
        simpa [reads,out,mode] using erased
      simp only [forget_held,counted]
      simp only [forget,Pipe.releaseMode,mode,readers]
      omega
    · simp [forget,Pipe.releaseMode,mode,active]
    · intro _
      refine ⟨by simpa [forget,Pipe.releaseMode,mode] using (valid.reading active).1,?_⟩
      intro j old
      exact (valid.reading active).2 j (kept.subset old)
    · simpa [forget,Pipe.releaseMode,mode,active] using epochs

theorem release_valid (valid : Valid t) (out : l ∈ t.held) : Valid (t.release l).1 := by
  rw [release_pass]
  exact pass_valid (forget_counted valid.toCounted out) (forget_queue t l)

-- History only grows: what entered or was admitted stays where it stands.
def Extends (before after : Tracked) : Prop :=
  before.entered <+: after.entered ∧ before.admitted <+: after.admitted

theorem Extends.refl (t : Tracked) : Extends t t := ⟨List.prefix_rfl,List.prefix_rfl⟩
theorem Extends.trans (one : Extends r s) (two : Extends s t) : Extends r t :=
  ⟨one.1.trans two.1,one.2.trans two.2⟩

theorem enter_extends (t : Tracked) (l : PipeLink) : Extends t (t.enter l).1 := by
  unfold enter
  dsimp only
  split
  · exact ⟨List.prefix_append _ _,List.prefix_append _ _⟩
  · exact ⟨List.prefix_append _ _,List.prefix_rfl⟩

theorem admitInline_extends (t : Tracked) (l : PipeLink) : Extends t (t.admitInline l) :=
  ⟨List.prefix_append _ _,List.prefix_append _ _⟩

theorem noted_extends (granted : List PipeLink) (t : Tracked) : Extends t (granted.foldl noteAdmitted t) := by
  induction granted generalizing t with
  | nil => exact Extends.refl t
  | cons head rest ih =>
    have noted : Extends t (t.noteAdmitted head) := ⟨List.prefix_rfl,List.prefix_append _ _⟩
    exact Extends.trans noted (ih (t.noteAdmitted head))

theorem release_extends (t : Tracked) (l : PipeLink) : Extends t (t.release l).1 :=
  noted_extends (t.pipe.releaseLocked l.mode).2 {t.forget l with pipe := (t.pipe.releaseLocked l.mode).1}

-- Everything a mutex section can do to a pipe. A release is made for an
-- admission that is out; an inline admit only past a successful probe.
inductive Section : Tracked → Tracked → Prop where
  | same : Section t t
  | entered (l : PipeLink) : Section t (t.enter l).1
  | inlined (l : PipeLink) (free : t.pipe.free l.mode = true) : Section t (t.admitInline l)
  | released (l : PipeLink) (out : l ∈ t.held) : Section t (t.release l).1

theorem Section.valid (sect : Section t u) (valid : Valid t) : Valid u := by
  cases sect with
  | same => exact valid
  | entered l => exact enter_valid valid l
  | inlined l free => exact admitInline_valid valid l free
  | released l out => exact release_valid valid out

theorem Section.extends (sect : Section t u) : Extends t u := by
  cases sect with
  | same => exact Extends.refl t
  | entered l => exact enter_extends t l
  | inlined l free => exact admitInline_extends t l
  | released l out => exact release_extends t l

-- A head that waits, waits on an admission that is still out.
theorem Valid.blocker (valid : Valid t) (queue : t.pipe.queue = l :: rest) :
    ∃ k ∈ t.outstanding, k.link.mode = .readWrite ∨ l.mode = .readWrite := by
  have refused := valid.blocked l rest queue
  cases active : t.pipe.writerActive with
  | true =>
    obtain ⟨k,only,mode,_⟩ := valid.writing active
    exact ⟨k,by simp [only],.inl mode⟩
  | false =>
    cases mode : l.mode with
    | readOnly => simp [Pipe.admissible,mode,active] at refused
    | readWrite =>
      cases shape : t.outstanding with
      | nil =>
        obtain ⟨_,none_reading⟩ := valid.idle_of_none shape
        simp [Pipe.admissible,mode,active,none_reading] at refused
      | cons k others => exact ⟨k,by simp,.inr rfl⟩

theorem Valid.idle (valid : Valid t) (none_out : t.outstanding = []) :
    t.pipe.queue = [] ∧ t.pipe.activeReaders = 0 ∧ t.pipe.writerActive = false ∧ t.pipe.writerOwner = none := by
  obtain ⟨inactive,unread⟩ := valid.idle_of_none none_out
  refine ⟨?_,unread,inactive,(valid.reading inactive).1⟩
  cases queue : t.pipe.queue with
  | nil => rfl
  | cons l rest =>
    obtain ⟨k,out,_⟩ := valid.blocker queue
    simp [none_out] at out

end Tracked
end Macrame

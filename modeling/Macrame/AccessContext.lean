import Macrame.Access

namespace Macrame

-- The two builds: `TS_SAFETY_CHECKS` on or off.
inductive Build where
  | checked
  | shipping
  deriving DecidableEq, Repr

-- One declared grant. `epoch` names the pipe whose write epoch is the validity
-- source; a hand-built entry has none. The shipping build keeps only the first
-- two fields, and reads no other.
structure Entry where
  target : PipeId
  mode : Access
  epoch : Option PipeId
  captured : Nat
  rank : Nat := 0
  deriving DecidableEq, Repr

inductive Grant where
  | none
  | granted
  | stale
  deriving DecidableEq, Repr

def maxEntries : Nat := 8

structure AccessContext where
  entries : List Entry := []
  bounded : entries.length ≤ maxEntries := by decide
  deriving DecidableEq, Repr

def Entry.current (epochs : PipeId → Nat) (e : Entry) : Bool :=
  match e.epoch with
  | .none => true
  | .some p => epochs p == e.captured

def Entry.capture (epochs : PipeId → Nat) (target : PipeId) (mode : Access) (epoch : Option PipeId) (rank : Nat) :
    Entry :=
  ⟨target,mode,epoch,match epoch with | .none => 0 | .some p => epochs p,rank⟩

namespace AccessContext

-- A ninth declaration is fatal in every build.
def add (ctx : AccessContext) (e : Entry) : Option AccessContext :=
  if room : ctx.entries.length+1 ≤ maxEntries then some ⟨ctx.entries++[e],by simpa using room⟩ else none

-- The scan of `check`; a stale entry is remembered and the scan goes on.
def checkFrom (build : Build) (epochs : PipeId → Nat) (target : PipeId) (mode : Access) : List Entry → Bool → Grant
  | [],stale => if stale then .stale else .none
  | e :: rest,stale =>
    if e.target != target then checkFrom build epochs target mode rest stale
    else if !e.mode.covers mode then checkFrom build epochs target mode rest stale
    else if build == .checked && !e.current epochs then checkFrom build epochs target mode rest true
    else .granted

def check (ctx : AccessContext) (build : Build) (epochs : PipeId → Nat) (target : PipeId) (mode : Access) : Grant :=
  checkFrom build epochs target mode ctx.entries false

def grants (ctx : AccessContext) (build : Build) (epochs : PipeId → Nat) (target : PipeId) (mode : Access) : Bool :=
  ctx.check build epochs target mode == .granted

structure RankState where
  held : Nat := 0
  max : Nat := 0
  anyUnranked : Bool := false
  deriving DecidableEq, Repr

-- Only pipe-backed entries whose window is still current count as held.
def RankState.add (epochs : PipeId → Nat) (state : RankState) (e : Entry) : RankState :=
  if e.epoch == .none then state
  else if !e.current epochs then state
  else if e.rank == 0 then {state with held := state.held+1,anyUnranked := true}
  else if e.rank > state.max then {state with held := state.held+1,max := e.rank}
  else {state with held := state.held+1}

def rankState (ctx : AccessContext) (epochs : PipeId → Nat) : RankState := ctx.entries.foldl (RankState.add epochs) {}

-- What makes an entry answer for a wanted access, in one build.
def Answers (build : Build) (epochs : PipeId → Nat) (target : PipeId) (mode : Access) (e : Entry) : Prop :=
  e.target = target ∧ e.mode.covers mode = true ∧ (build = .checked → e.current epochs = true)

theorem checkFrom_granted (entries : List Entry) (stale : Bool) :
    checkFrom build epochs target mode entries stale = .granted ↔ ∃ e ∈ entries, Answers build epochs target mode e := by
  induction entries generalizing stale with
  | nil => cases stale <;> simp [checkFrom]
  | cons e rest ih =>
    unfold checkFrom
    simp only [List.mem_cons,exists_eq_or_imp]
    by_cases other : e.target = target
    · by_cases covering : e.mode.covers mode = true
      · by_cases current : build = .checked ∧ e.current epochs = false
        · obtain ⟨rfl,closed⟩ := current
          have silent : ¬ Answers .checked epochs target mode e := by simp [Answers,closed]
          simp [other,covering,closed,silent,ih]
        · have answers : Answers build epochs target mode e :=
            ⟨other,covering,fun checked => by simpa [checked] using current⟩
          have alive : (build == .checked && !e.current epochs) = false := by
            rw [Bool.and_eq_false_iff]
            by_cases checked : build = .checked
            · exact .inr (by simpa [checked] using current)
            · exact .inl (by simpa using checked)
          simp [other,covering,alive,answers]
      · simp [other,covering,ih,Answers]
    · simp [other,ih,Answers]

theorem grants_iff (ctx : AccessContext) :
    ctx.grants build epochs target mode = true ↔ ∃ e ∈ ctx.entries, Answers build epochs target mode e := by
  unfold grants
  rw [beq_iff_eq]
  exact checkFrom_granted ctx.entries false

end AccessContext
end Macrame

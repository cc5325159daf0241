import Mathlib.Data.List.Sort
import Macrame.Pipe

namespace Macrame

-- A bound `Pipe_link` of a block; its index is its place in the table.
structure Link where
  pipe : PipeId
  mode : Access
  deriving DecidableEq, Repr

-- The `pipe_count` links a block has bound. Every builder binds in ascending
-- pipe address and each pipe once, and the count is a byte.
structure LinkTable where
  entries : List Link
  canonical : entries.Pairwise (fun a b => a.pipe < b.pipe)
  counted : entries.length ≤ 255
  deriving DecidableEq, Repr

namespace LinkTable

def empty : LinkTable := ⟨[],.nil,by simp⟩

-- A single-object access binds its one link.
def single (link : Link) : LinkTable := ⟨[link],List.pairwise_singleton _ _,by simp⟩

def count (table : LinkTable) : Nat := table.entries.length

-- Distinct objects, brought into canonical order.
def sorted (links : List Link) (distinct : (links.map Link.pipe).Nodup) (counted : links.length ≤ 255) : LinkTable where
  entries := links.insertionSort (fun a b => a.pipe ≤ b.pipe)
  canonical := by
    have climbs : (links.insertionSort (fun a b => a.pipe ≤ b.pipe)).Pairwise (fun a b => a.pipe ≤ b.pipe) :=
      haveI : Std.Total (fun a b : Link => a.pipe ≤ b.pipe) := ⟨fun a b => Nat.le_total a.pipe b.pipe⟩
      haveI : IsTrans Link (fun a b => a.pipe ≤ b.pipe) := ⟨fun _ _ _ => Nat.le_trans⟩
      List.pairwise_insertionSort _ links
    have apart : (links.insertionSort (fun a b => a.pipe ≤ b.pipe)).Pairwise (fun a b => a.pipe ≠ b.pipe) :=
      List.pairwise_map.mp (((List.perm_insertionSort _ links).map Link.pipe).nodup_iff.mpr distinct)
    exact (climbs.and apart).imp (fun both => Nat.lt_of_le_of_ne both.1 both.2)
  counted := by simpa using counted

-- The links that stay bound when some are left out, packed at the front.
def keep (table : LinkTable) (kept : Link → Bool) : LinkTable where
  entries := table.entries.filter kept
  canonical := table.canonical.filter kept
  counted := Nat.le_trans (List.length_filter_le _ _) table.counted

theorem same_entries {one two : LinkTable} (entries : one.entries = two.entries) : one = two := by
  cases one
  cases two
  simpa using entries

@[simp] theorem mem_sorted (links : List Link) (distinct counted) (link : Link) :
    link ∈ (sorted links distinct counted).entries ↔ link ∈ links := by
  simp [sorted]

@[simp] theorem mem_keep (table : LinkTable) (kept : Link → Bool) (link : Link) :
    link ∈ (table.keep kept).entries ↔ link ∈ table.entries ∧ kept link = true := by
  simp [keep]

-- Two places that name one pipe are one place.
theorem place_unique {table : LinkTable} {a b : Link} {i j : Nat} (one : table.entries[i]? = some a)
    (two : table.entries[j]? = some b) (same : a.pipe = b.pipe) : i = j := by
  obtain ⟨bounded,here⟩ := List.getElem?_eq_some_iff.mp one
  obtain ⟨within,there⟩ := List.getElem?_eq_some_iff.mp two
  have ascending := List.pairwise_iff_getElem.mp table.canonical
  rcases Nat.lt_trichotomy i j with before | equal | after
  · have climbs := ascending i j bounded within before
    rw [here,there,same] at climbs
    exact absurd climbs (Nat.lt_irrefl _)
  · exact equal
  · have climbs := ascending j i within bounded after
    rw [here,there,same] at climbs
    exact absurd climbs (Nat.lt_irrefl _)

theorem place_lt {table : LinkTable} {a b : Link} {i j : Nat} (one : table.entries[i]? = some a)
    (two : table.entries[j]? = some b) (before : i < j) : a.pipe < b.pipe := by
  obtain ⟨bounded,here⟩ := List.getElem?_eq_some_iff.mp one
  obtain ⟨within,there⟩ := List.getElem?_eq_some_iff.mp two
  have climbs := List.pairwise_iff_getElem.mp table.canonical i j bounded within before
  rwa [here,there] at climbs

end LinkTable

-- Which body a `Task_control_block` carries, and so which completion it takes:
-- a bare block is only settled, `graphNode` is `flags.borrowed`, `callerOwned`
-- is an `Access_op`.
inductive Kind where
  | bare
  | executable
  | coroutine
  | graphNode
  | callerOwned
  deriving DecidableEq, Repr

def executionFlag : Int := 2147483648

-- The lock counter is an unbounded integer here, so that an underflow would
-- show as a negative value and not wrap.
structure Block where
  kind : Kind := .bare
  links : LinkTable := LinkTable.empty
  pipesEntered : Nat := 0
  numLocks : Int := 0
  bodyClaimed : Bool := false
  completed : Bool := false
  cancelled : Bool := false
  prereqCancelled : Bool := false
  token : Option TokenId := none
  nestedParent : Option BlockId := none
  deriving DecidableEq, Repr

inductive Released where
  | waiting
  | dispatch
  | complete
  | enterFirst
  deriving DecidableEq, Repr

namespace Block

-- `Task_control_block::release`, with the branch it takes.
def release (blk : Block) (prereqCancelled : Bool) : Block × Released :=
  let now := blk.numLocks-1
  ({blk with numLocks := now,prereqCancelled := blk.prereqCancelled || prereqCancelled},
    if now = 0 then .dispatch
    else if now = executionFlag then .complete
    else if now = blk.links.count then .enterFirst
    else .waiting)

-- The switch to completion-lock mode at the start of a body.
def beginBody (blk : Block) : Block := {blk with numLocks := executionFlag+1}

-- What the three `execute` functions test between the claim and the body. The
-- graph's one reads the token alone.
def foundCancelled (blk : Block) (tokens : TokenId → Bool) : Bool :=
  (match blk.token with | none => false | some token => tokens token) ||
    (blk.kind != .graphNode && blk.prereqCancelled)

def settled (blk : Block) (cancel : Bool) : Block := {blk with completed := true,cancelled := cancel}

theorem release_dispatch {blk : Block} (last : blk.numLocks = 1) : (blk.release c).2 = .dispatch := by
  simp [release,last]

theorem release_complete {blk : Block} (last : blk.numLocks = executionFlag+1) :
    (blk.release c).2 = .complete := by
  simp [release,last,executionFlag]

theorem release_waiting {blk : Block} (more : blk.numLocks ≠ 1) (unflagged : blk.numLocks ≠ executionFlag+1)
    (apart : blk.numLocks ≠ blk.links.count+1) : (blk.release c).2 = .waiting := by
  have nonzero : ¬ blk.numLocks-1 = 0 := by omega
  have below : ¬ blk.numLocks-1 = executionFlag := by omega
  have other : ¬ blk.numLocks-1 = blk.links.count := by omega
  simp [release,nonzero,below,other]

end Block
end Macrame

import Citator.RefTree.Basic
import Citator.Citation.Search

/-!
# `Citator.Expansion.Basic` — what an expansion asks, decides and counts

An expansion grows a tree from a root: it searches for the referrers of a file, attaches all of them
as links, and then does the same for those of them that deserve it. This file holds what does not
depend on the order in which the work is done: what an expansion asks of its surroundings, the
verdict on each link, and the counts.

Two ways of doing the work are built on it. `Citator.Expansion.Recursive` says what the answer is;
`Citator.Expansion.Worklist` computes it without recursion on the depth of the tree.
-/

namespace Citator

/-! ## 1. Bounds and counts -/

/-- The bounds of an expansion. -/
structure Limits where
  /-- Nodes at this depth are attached and not expanded. The root has depth zero. -/
  maxDepth : Option Nat := none
  /-- No node is attached once so many are counted. The count starts at one, for the root; links that
  the root was given with are not in it. -/
  maxNodes : Option Nat := none
  deriving DecidableEq, Repr, Inhabited

/-- The counts of an expansion. -/
structure Stats where
  filesScanned : Nat := 0
  /-- Files left out of the snapshot because they could not be read. -/
  unreadableSkipped : Nat := 0
  /-- The root, and the nodes that were attached below it. These are the nodes of the tree if the root
  was given without links. -/
  nodes : Nat := 0
  /-- Nodes whose referrers were searched for. -/
  expanded : Nat := 0
  /-- Links not expanded because their file was expanded already. -/
  skippedVisited : Nat := 0
  /-- Links not expanded because the gate refused them. -/
  skippedGate : Nat := 0
  /-- Links not expanded because they lie too deep. -/
  skippedDepth : Nat := 0
  /-- The depth of the deepest node that was attached. -/
  maxDepthReached : Nat := 0
  /-- Whether the bound on nodes cut the tree short. -/
  truncated : Bool := false
  /-- Time taken. An expansion is timed from outside and leaves this at zero. -/
  durationMs : Nat := 0
  deriving DecidableEq, Repr, Inhabited

/-! ## 2. The surroundings -/

/-- What an expansion asks of its surroundings. -/
structure Inquiry where
  /-- The files that refer to a file. -/
  referrers : Path → Except EmptyTarget (List Path)
  /-- The path under which a file is remembered as expanded. -/
  key : Path → Path
  /-- Whether a file may be expanded further. -/
  admits : Path → Bool
  limits : Limits

/-- A search that was made: the file, and the number of its referrers. -/
structure Lookup where
  file : Path
  found : Nat
  deriving DecidableEq, Repr

/-- What an expansion has done so far, apart from the tree. -/
structure Progress where
  /-- The keys of the files that were expanded or will be. -/
  visited : List Path
  stats : Stats
  /-- The searches, latest first. -/
  lookups : List Lookup := []
  deriving DecidableEq, Repr

/-- An expansion that came upon a file without a token: the error, and the searches before it, latest
first. -/
structure Halt where
  error : EmptyTarget
  lookups : List Lookup
  deriving DecidableEq, Repr

/-! ## 3. The verdict on a link -/

/-- What becomes of a link. -/
inductive Verdict where
  /-- Its file was expanded elsewhere, or will be. -/
  | visited
  /-- The gate refuses it. -/
  | gated
  /-- It lies at the bound on depth. -/
  | tooDeep
  /-- It will be expanded. -/
  | scheduled
  deriving DecidableEq, Repr

namespace Inquiry

/-- The verdict on a link at the given depth. Of several reasons against it the first counts. -/
def verdict (q : Inquiry) (visited : List Path) (file : Path) (depth : Nat) : Verdict :=
  if (q.key file).memSame visited then .visited
  else if !q.admits file then .gated
  else if q.limits.maxDepth.any fun max => decide (max ≤ depth) then .tooDeep
  else .scheduled

def isFull (q : Inquiry) (stats : Stats) : Bool :=
  q.limits.maxNodes.any fun max => decide (max ≤ stats.nodes)

/-- Whether the root may not be expanded at all. -/
def rootIsLeaf (q : Inquiry) : Bool := q.limits.maxDepth == some 0

end Inquiry

namespace Stats

/-- The counts after a link at the given depth was attached. -/
def attached (s : Stats) (v : Verdict) (depth : Nat) : Stats :=
  { s with
    nodes := s.nodes + 1
    maxDepthReached := max s.maxDepthReached depth
    skippedVisited := s.skippedVisited + (if v = .visited then 1 else 0)
    skippedGate := s.skippedGate + (if v = .gated then 1 else 0)
    skippedDepth := s.skippedDepth + (if v = .tooDeep then 1 else 0) }

end Stats

namespace Progress

/-- The progress after a link was attached. A scheduled file counts as visited from here on. -/
def attached (p : Progress) (q : Inquiry) (file : Path) (v : Verdict) (depth : Nat) : Progress :=
  { p with
    visited := if v = .scheduled then q.key file :: p.visited else p.visited
    stats := p.stats.attached v depth }

/-- The progress after the referrers of a file were found. -/
def lookedUp (p : Progress) (file : Path) (found : List Path) : Progress :=
  { p with
    stats := { p.stats with expanded := p.stats.expanded + 1 }
    lookups := ⟨file, found.length⟩ :: p.lookups }

def cut (p : Progress) : Progress := { p with stats := { p.stats with truncated := true } }

end Progress

/-- The referrers of a file, and the progress after the search. -/
def Inquiry.lookUp (q : Inquiry) (file : Path) (p : Progress) :
    Except Halt (List Path × Progress) :=
  match q.referrers file with
  | .error e => .error ⟨e, p.lookups⟩
  | .ok found => .ok (found, p.lookedUp file found)

end Citator

import Citator.RefTree.Basic

/-!
# `Citator.RefGraph.Basic` — the references as a graph

A tree shows a file once for every way that leads to it. The graph shows it once: its nodes are the
distinct paths of the tree, numbered in the order in which they come first, and it has an edge from a
file to every file found to refer to it.

In the DOT language a graph is a statement for each node, in order of the numbers, with its label in
quotes, and then one for each edge, in order of insertion. Inside the quotes a backslash and a quote
have a backslash in front, so the label ends at the first quote that has none and can be read back.
-/

namespace Citator

/-- A graph of files. Node `i` is the file at place `i` of `paths`; an edge leads from a file to one
that refers to it. -/
structure RefGraph where
  paths : List Path := []
  /-- The edges, in the order in which they were added. -/
  edges : List (Nat × Nat) := []
  deriving DecidableEq, Repr, Inhabited

namespace RefGraph

def nodeCount (g : RefGraph) : Nat := g.paths.length

def edgeCount (g : RefGraph) : Nat := g.edges.length

def find? (g : RefGraph) (p : Path) : Option Nat :=
  let wanted := p.components
  g.paths.findIdx? fun q => decide (q.components = wanted)

def path? (g : RefGraph) (i : Nat) : Option Path := g.paths[i]?

/-! ## 1. Growing a graph -/

/-- The node of a file and the graph with it; a file that is there already keeps its node and its
spelling. -/
def addFile (g : RefGraph) (p : Path) : Nat × RefGraph :=
  match g.find? p with
  | some i => (i, g)
  | none => (g.paths.length, { g with paths := g.paths ++ [p] })

/-- The graph with an edge, which it has at most once. -/
def addEdge (g : RefGraph) (i j : Nat) : RefGraph :=
  if (i, j) ∈ g.edges then g else { g with edges := g.edges ++ [(i, j)] }

mutual

/-- The graph with the links of a tree, and all below them, added to the node of the tree's root. -/
def addLinks (g : RefGraph) (root : Nat) : RefTree → RefGraph
  | .node _ ls => addTrees g root ls

/-- The graph with some links of a node added, one after the other. -/
def addTrees (g : RefGraph) (root : Nat) : List RefTree → RefGraph
  | [] => g
  | .node f ls :: ts =>
    let (i, g) := g.addFile f
    addTrees (addTrees (g.addEdge root i) i ls) root ts

end

/-- The graph of a tree. `rootPath`, if given, stands in for the path of the root. -/
def ofTree (t : RefTree) (rootPath : Option Path) : RefGraph :=
  let (i, g) := addFile {} (rootPath.getD t.file)
  g.addLinks i t

/-! ## 2. Neighbours -/

def ascending (is : List Nat) : List Nat := is.mergeSort fun i j => decide (i ≤ j)

/-- The files that refer to a file, by node number. -/
def referencing (g : RefGraph) (p : Path) : List Path :=
  match g.find? p with
  | none => []
  | some i => (ascending ((g.edges.filter fun e => e.1 == i).map (·.2))).filterMap g.path?

/-- The files that a file refers to, by node number. -/
def referencedBy (g : RefGraph) (p : Path) : List Path :=
  match g.find? p with
  | none => []
  | some i => (ascending ((g.edges.filter fun e => e.2 == i).map (·.1))).filterMap g.path?

/-! ## 3. Cycles -/

/-- The nodes that edges lead away from, as the bits of a number. -/
def tails (edges : List (Nat × Nat)) : Nat :=
  edges.foldl (fun bits e => Nat.lor bits (Nat.shiftLeft 1 e.1)) 0

theorem testBit_foldl_tails (edges : List (Nat × Nat)) (bits j : Nat) :
    (edges.foldl (fun bits e => Nat.lor bits (Nat.shiftLeft 1 e.1)) bits).testBit j =
      (bits.testBit j || edges.any fun e => e.1 == j) := by
  induction edges generalizing bits with
  | nil => simp
  | cons e es ih =>
    have hbit : (Nat.lor bits (Nat.shiftLeft 1 e.1)).testBit j = (bits.testBit j || e.1 == j) := by
      show (bits ||| (1 <<< e.1)).testBit j = _
      rw [Nat.testBit_or, Nat.one_shiftLeft, Nat.testBit_two_pow]
      rfl
    rw [List.foldl_cons, ih, hbit, List.any_cons, Bool.or_assoc]

/-- A bit is set if some edge leads away from its node. -/
theorem testBit_tails (edges : List (Nat × Nat)) (j : Nat) :
    (tails edges).testBit j = edges.any fun e => e.1 == j := by
  rw [tails, testBit_foldl_tails, Nat.zero_testBit, Bool.false_or]

/-- The edges whose head has an edge of its own. An edge without that is on no cycle. -/
def prune (edges : List (Nat × Nat)) : List (Nat × Nat) :=
  let bits := tails edges
  edges.filter fun e => bits.testBit e.2

/-- The edges after so many prunings, or after the first that changes nothing. -/
def pruned : Nat → List (Nat × Nat) → List (Nat × Nat)
  | 0, edges => edges
  | n + 1, edges =>
    let rest := prune edges
    if rest.length = edges.length then edges else pruned n rest

/-- Whether some chain of references leads back to where it started: whether edges remain once every
edge that can be pruned is. -/
def hasCycle (g : RefGraph) : Bool := !(pruned g.edges.length g.edges).isEmpty

/-! ## 4. The DOT language -/

def escapedLabel (label : String) : String :=
  String.ofList (label.toList.flatMap fun c => if c = '\\' ∨ c = '"' then ['\\', c] else [c])

def nodeStatement (label : Path → String) (node : Path × Nat) : String :=
  "    n" ++ toString node.2 ++ " [label=\"" ++ escapedLabel (label node.1) ++ "\"];\n"

def edgeStatement (e : Nat × Nat) : String :=
  "    n" ++ toString e.1 ++ " -> n" ++ toString e.2 ++ ";\n"

def toDot (g : RefGraph) (label : Path → String) : String :=
  "digraph references \x7b\n    rankdir=LR;\n" ++
    String.join (g.paths.zipIdx.map (nodeStatement label)) ++
    String.join (g.edges.map edgeStatement) ++ "\x7d\n"

end RefGraph
end Citator

import Citator.Path.Relative

/-!
# `Citator.RefTree.Basic` — trees of references

The answer to "what refers to this file" is a tree. Its root stands for the file asked about, and
the links of a node are the files found to refer to the node's file, in the order in which they were
found. A file that is reached twice is two nodes.

`walk` lists a tree in pre-order with a stack of its own, so that a tree of any depth can be listed;
`listing` says by recursion what the list is. Every count is taken from the walk.

As indented text a tree has one line for each node in pre-order. Below the root a line starts with a
column of four characters for each ancestor but the root: blank if that ancestor is the last link of
its parent, a bar if more links follow below. Then comes a branch, and then the path.
-/

namespace Citator

/-- A file and the files found to refer to it. -/
inductive RefTree where
  | node (file : Path) (links : List RefTree)
  deriving Repr, Inhabited

namespace RefTree

def file : RefTree → Path
  | .node f _ => f

/-- The trees of the files found to refer to the root's file. -/
def links : RefTree → List RefTree
  | .node _ ls => ls

def leaf (f : Path) : RefTree := .node f []

/-- The tree with one more link, behind those it has. -/
def addLink (t child : RefTree) : RefTree := .node t.file (t.links ++ [child])

/-- The tree with more links, behind those it has. -/
def addLinks (t : RefTree) (children : List RefTree) : RefTree := .node t.file (t.links ++ children)

def isLeaf (t : RefTree) : Bool := t.links.isEmpty

/-! ## 1. The listing, by recursion -/

mutual

def size : RefTree → Nat
  | .node _ ls => 1 + sizeAll ls

def sizeAll : List RefTree → Nat
  | [] => 0
  | t :: ts => t.size + sizeAll ts

end

mutual

def height : RefTree → Nat
  | .node _ ls => heightAll ls

/-- One more than the greatest height of several trees, or zero for none. -/
def heightAll : List RefTree → Nat
  | [] => 0
  | t :: ts => max (t.height + 1) (heightAll ts)

end

mutual

/-- The nodes in pre-order, each with its depth; the root's depth is given. -/
def listing (depth : Nat) : RefTree → List (Nat × Path)
  | .node f ls => (depth, f) :: listingAll (depth + 1) ls

/-- The listings of several trees, one after the other. -/
def listingAll (depth : Nat) : List RefTree → List (Nat × Path)
  | [] => []
  | t :: ts => listing depth t ++ listingAll depth ts

end

/-! ## 2. The walk, with a stack -/

/-- The trees that a stack holds, counted by their nodes. -/
def stackSize (stack : List (Nat × RefTree)) : Nat := sizeAll (stack.map (·.2))

theorem sizeAll_append (ts us : List RefTree) : sizeAll (ts ++ us) = sizeAll ts + sizeAll us := by
  induction ts with
  | nil => simp [sizeAll]
  | cons t ts ih => simp [sizeAll, ih, Nat.add_assoc]

/-- Taking a node off the stack and putting its links on makes the stack smaller by that node. -/
theorem stackSize_pop (depth : Nat) (t : RefTree) (stack : List (Nat × RefTree)) :
    stackSize (t.links.map (fun c => (depth + 1, c)) ++ stack) + 1 =
      stackSize ((depth, t) :: stack) := by
  cases t with
  | node f ls =>
    simp [stackSize, links, sizeAll_append, size, sizeAll, Function.comp_def]
    omega

/-- The nodes below a stack in pre-order, each with its depth. The top of the stack is listed next,
and its links take its place. -/
def walkStack : List (Nat × RefTree) → List (Nat × RefTree)
  | [] => []
  | (depth, t) :: stack =>
    (depth, t) :: walkStack (t.links.map (fun c => (depth + 1, c)) ++ stack)
  termination_by stack => stackSize stack
  decreasing_by
    have := stackSize_pop depth t stack
    omega

/-- The nodes in pre-order, each with its depth. -/
def walk (t : RefTree) : List (Nat × RefTree) := walkStack [(0, t)]

def nodeCount (t : RefTree) : Nat := t.walk.length

def depth (t : RefTree) : Nat := (t.walk.map (·.1)).foldl max 0

/-- The files of the tree in pre-order, each once, in the spelling in which it comes first. -/
def filenames (t : RefTree) : List Path := Path.distinct (t.walk.map (·.2.file))

/-! ## 3. A tree from its listing -/

/-- Puts a node in front of the trees that follow it in a listing: those one level below it, up to
the first that is not, become its links. -/
def absorb (node : Nat × Path) (following : List (Nat × RefTree)) : List (Nat × RefTree) :=
  (node.1, .node node.2 ((following.takeWhile fun t => t.1 == node.1 + 1).map (·.2))) ::
    following.dropWhile fun t => t.1 == node.1 + 1

/-- The tree with a given listing, if there is one. -/
def ofListing? (items : List (Nat × Path)) : Option RefTree :=
  match items.foldr absorb [] with
  | [(0, t)] => some t
  | _ => none

/-! ## 4. The outline -/

def branch (last : Bool) : String := if last then "└── " else "├── "

def column (last : Bool) : String := if last then "    " else "│   "

mutual

/-- The lines below a node. `margin` is what stands in front of their branches. -/
def linesBelow (base : Option Path) (margin : String) : RefTree → List String
  | .node _ ls => linesOf base margin ls

def linesOf (base : Option Path) (margin : String) : List RefTree → List String
  | [] => []
  | t :: ts =>
    (margin ++ branch ts.isEmpty ++ t.file.display base) ::
      (linesBelow base (margin ++ column ts.isEmpty) t ++ linesOf base margin ts)

end

/-- The outline of a tree, paths below `base` relative to it. -/
def outline (t : RefTree) (base : Option Path) : String :=
  String.join ((t.file.display base :: linesBelow base "" t).map fun line => line ++ "\n")

end RefTree
end Citator

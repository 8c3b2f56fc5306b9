import Citator.Expansion.Worklist

/-!
# `Citator.Expansion.Finder` — what refers to a file, transitively

A finder puts questions about one snapshot: which files refer to the file with this name, which refer
to those, and so on. It knows the extensions, the gate and the bounds.

The root has two faces. The node in the tree carries the path of the corpus file that the name stands
for, or the name itself if there is none. The *key* under which the root is remembered as expanded is
found from the node's path: the corpus file that it stands for, else an absolute path as it is, else
the path below the root of the corpus. Where that is the key of the root's own file, a reference back
to it is a leaf. Below a corpus root that is absolute it always is; below a relative one the node's
path is looked up as a name again, and the second look can miss the file, which is then expanded once
more.
-/

namespace Citator

/-- A snapshot with everything that an expansion needs to know. -/
structure Finder where
  snapshot : Snapshot
  /-- The extensions that may follow a token, as configured. -/
  extensions : List String
  /-- Which files are expanded further. -/
  admits : Path → Bool := fun _ => true
  limits : Limits := {}
  /-- The path that identifies a file. Where no disk stands behind the paths it is the path. -/
  key : Path → Path := id

/-- The answer to a question. -/
structure Expansion where
  root : RefTree
  /-- The corpus file that the name stands for. -/
  rootPath : Option Path
  stats : Stats
  /-- The searches that were made, in order. -/
  lookups : List Lookup

namespace Finder

/-- The questions of an expansion, put to the finder. -/
def inquiry (f : Finder) : Inquiry :=
  { referrers := f.snapshot.referrers f.extensions, key := f.key, admits := f.admits,
    limits := f.limits }

/-- The corpus file that a path or a name stands for. -/
def resolveRoot? (f : Finder) (file : Path) : Option Path :=
  if file.isAbsolute then (f.snapshot.files.find? fun g => decide (g.path.Same file)).map (·.path)
  else (file.text?.bind f.snapshot.resolve?).map (·.path)

/-- The key under which a root is remembered as expanded. -/
def rootKey (f : Finder) (file : Path) : Path :=
  match f.resolveRoot? file with
  | some path => f.key path
  | none => if file.isAbsolute then f.key file else f.key (f.snapshot.root.join file)

def initial (f : Finder) (root : Path) : Progress :=
  { visited := [f.rootKey root]
    stats :=
      { filesScanned := f.snapshot.files.length
        unreadableSkipped := f.snapshot.skipped.length
        nodes := 1 } }

/-- The number of searches that is always enough: one for the root and one for each file. -/
def searchBound (f : Finder) : Nat := f.snapshot.files.length + 1

/-- The tree with the transitive referrers of its root attached behind the links that it has, and
what was done. -/
def expandTree (f : Finder) (t : RefTree) : Except Halt (RefTree × Progress) :=
  if f.inquiry.rootIsLeaf then .ok (t, f.initial t.file)
  else
    (f.inquiry.expandRoot f.searchBound t.file (f.initial t.file)).map fun r =>
      (t.addLinks r.1, r.2)

/-- The tree with the transitive referrers of its root attached. -/
def expand (f : Finder) (t : RefTree) : Except EmptyTarget RefTree :=
  ((f.expandTree t).map (·.1)).mapError (·.error)

def rootNode (f : Finder) (name : String) : RefTree :=
  .leaf ((f.resolveRoot? (Path.ofString name)).getD (Path.ofString name))

/-- The tree of everything that refers to the file with the given name; on failure also the searches
made before. -/
def build? (f : Finder) (name : String) : Except Halt Expansion :=
  (f.expandTree (f.rootNode name)).map fun r =>
    ⟨r.1, f.resolveRoot? (Path.ofString name), r.2.stats, r.2.lookups.reverse⟩

/-- The tree of everything that refers to the file with the given name. -/
def build (f : Finder) (name : String) : Except EmptyTarget Expansion :=
  (f.build? name).mapError (·.error)

/-! ## What is reported -/

def lookupsLog (f : Finder) (lookups : List Lookup) : Log :=
  lookups.flatMap fun l => Citation.searchLog f.extensions l.file l.found

/-- What the building of a tree reports when it ends in the given way. -/
def buildLog (f : Finder) (name : String) (outcome : Except Halt Expansion) : Log :=
  match outcome with
  | .error h => f.lookupsLog h.lookups.reverse
  | .ok e =>
    f.lookupsLog e.lookups ++
      [⟨.info, .expansion, "Reference tree for " ++ name ++ ": " ++ toString e.stats.nodes ++
        " nodes, " ++ toString e.stats.expanded ++ " expanded, depth " ++
        toString e.stats.maxDepthReached ++ " (" ++ toString e.stats.durationMs ++ " ms)"⟩]

/-- What the expansion of a given tree reports when it ends in the given way. -/
def expandLog (f : Finder) (outcome : Except Halt (RefTree × Progress)) : Log :=
  match outcome with
  | .error h => f.lookupsLog h.lookups.reverse
  | .ok r => f.lookupsLog r.2.lookups.reverse

end Finder
end Citator

import Citator.Glob.Matching

/-!
# `Citator.Gate` — which files are expanded further

An expansion asks a gate about every file it finds. A refused file stays in the tree as a leaf.

A gate is any function of the path. The ones with a name of their own are those that a user can ask
for: expand everything, nothing, the files below a root that match one of some globs, or all but the
files with a given end of path.
-/

namespace Citator

/-- A gate that a user can ask for. -/
inductive Gate where
  | always
  | never
  /-- The files whose path relative to the root matches one of the globs. -/
  | globs (root : Path) (globs : List Glob)
  /-- The files whose path does not end in the given components. -/
  | exceptEnd (ending : Path)

/-- Globs for a gate that cannot be read. -/
structure GateError where
  glob : Glob.ParseError
  deriving DecidableEq, Repr

namespace GateError

def message (e : GateError) : String := "Invalid gate glob: " ++ e.glob.message

/-- The messages of the error and of the one behind it. -/
def causes (e : GateError) : List String := [e.message, e.glob.message]

end GateError

namespace Gate

/-- Reads globs one after the other; the first that cannot be read ends it. -/
def readGlobs : List String → Except Glob.ParseError (List Glob)
  | [] => .ok []
  | t :: ts =>
    match Glob.ofString t with
    | .error e => .error e
    | .ok g => (readGlobs ts).map (g :: ·)

/-- The gate of the given globs. No glob at all admits nothing. -/
def ofGlobs (root : Path) (texts : List String) : Except GateError Gate :=
  match readGlobs texts with
  | .error e => .error ⟨e⟩
  | .ok gs => .ok (.globs root gs)

def admits : Gate → Path → Bool
  | .always, _ => true
  | .never, _ => false
  | .globs root gs, p =>
    let seen := (p.strip? root).getD p
    gs.any fun g => g.isMatchInSet seen
  | .exceptEnd ending, p => !p.endsWith ending

end Gate
end Citator

import Citator.Scan
import Citator.Expansion.Basic
import Citator.Text.Quoted

/-!
# `Citator.Settings.Basic` — what a run goes by

Three things have a say: the configuration of the project, every part of which may be missing; what
the user asks for on the command line; and the defaults. Where the user says something that counts,
then the configuration, then the default. The two switches are exceptions to that, since a user can
turn them on and has no way to turn them off.
-/

namespace Citator

/-- The configuration of a project. -/
structure Config where
  extensions : Option (List String) := none
  respectIgnores : Option Bool := none
  includeHidden : Option Bool := none
  readPolicy : Option ReadPolicy := none
  maxDepth : Option Nat := none
  maxNodes : Option Nat := none
  /-- The globs of the files that are expanded further; none for all files. -/
  expandOnly : List String := []
  deriving DecidableEq, Repr, Inhabited

/-- What the user asks for. An empty list asks for nothing. -/
structure Overrides where
  extensions : List String := []
  respectIgnores : Bool := false
  includeHidden : Bool := false
  skipUnreadable : Bool := false
  maxDepth : Option Nat := none
  maxNodes : Option Nat := none
  expandOnly : List String := []
  deriving DecidableEq, Repr, Inhabited

/-- What a run goes by. -/
structure Settings where
  scan : ScanOptions
  readPolicy : ReadPolicy
  /-- The extensions that may follow a token. -/
  extensions : List String
  limits : Limits
  /-- The globs of the files that are expanded further; none for all files. -/
  expandOnly : List String
  deriving DecidableEq, Repr, Inhabited

namespace Settings

def orElse {α : Type} (mine theirs : List α) : List α :=
  match mine with
  | [] => theirs
  | _ :: _ => mine

/-- The settings that follow from a configuration and what the user asks for. The search goes by the
same extensions as the scan. -/
def resolve (config : Config) (user : Overrides) : Settings :=
  let defaults : ScanOptions := {}
  let extensions := orElse user.extensions (config.extensions.getD defaults.extensions)
  { scan :=
      { extensions
        respectIgnores :=
          user.respectIgnores || config.respectIgnores.getD defaults.respectIgnores
        includeHidden := user.includeHidden || config.includeHidden.getD defaults.includeHidden }
    readPolicy := if user.skipUnreadable then .skip else config.readPolicy.getD .abort
    extensions := Extension.normalize extensions
    limits :=
      { maxDepth := user.maxDepth <|> config.maxDepth
        maxNodes := user.maxNodes <|> config.maxNodes }
    expandOnly := orElse user.expandOnly config.expandOnly }

/-! ## How settings are shown -/

def shownBool (b : Bool) : String := if b then "true" else "false"

def shownBound : Option Nat → String
  | none => "None"
  | some n => "Some(" ++ toString n ++ ")"

def shownPolicy : ReadPolicy → String
  | .abort => "Abort"
  | .skip => "Skip"

def shownRecord (name : String) (parts : List (String × String)) : String :=
  name ++ " \x7b " ++ String.intercalate ", " (parts.map fun p => p.1 ++ ": " ++ p.2) ++ " \x7d"

def shown (s : Settings) : String :=
  shownRecord "Settings"
    [("scan", shownRecord "ScanOptions"
        [("extensions", Text.quotedList s.scan.extensions),
          ("respect_gitignore", shownBool s.scan.respectIgnores),
          ("include_hidden", shownBool s.scan.includeHidden)]),
      ("read_policy", shownPolicy s.readPolicy),
      ("expand", shownRecord "ExpandOptions"
        [("extensions", Text.quotedList s.extensions),
          ("max_depth", shownBound s.limits.maxDepth),
          ("max_nodes", shownBound s.limits.maxNodes)]),
      ("expand_only", Text.quotedList s.expandOnly)]

end Settings
end Citator

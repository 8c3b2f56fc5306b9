import Citator.Settings.Basic
import Citator.Json.Structure

/-!
# `Citator.Settings.File` — the configuration of a project, as a file

A configuration is an object with any of its seven fields, or a list with the first few of them in
order. `null` stands for a missing field, except for the globs, which are a list wherever they are
given. A field with another name is an error, since it is a misspelling as a rule.

The configuration of a project lies in a fixed place below its root, and a project without one goes by
the defaults. A configuration that the user asks for by its path has to be there.
-/

namespace Citator

/-! ## 1. Configurations as JSON -/

namespace Config

open Json Json.Reading

def fieldNames : List String :=
  ["extensions", "respect_gitignore", "include_hidden", "read_policy", "max_depth", "max_nodes",
    "expand_only"]

def policyNames : List (String × ReadPolicy) := [("abort", .abort), ("skip", .skip)]

def readTexts : Reading (List String) := list (some (text .text))

def readPolicyName : Reading ReadPolicy := variant policyNames

/-- The fields that were read so far; the outer option says whether a field was given. -/
structure Given where
  extensions : Option (Option (List String)) := none
  respectIgnores : Option (Option Bool) := none
  includeHidden : Option (Option Bool) := none
  readPolicy : Option (Option ReadPolicy) := none
  maxDepth : Option (Option Nat) := none
  maxNodes : Option (Option Nat) := none
  expandOnly : Option (List String) := none

/-- The configuration with the fields that were given. -/
def Given.config (g : Given) : Config :=
  { extensions := g.extensions.getD none
    respectIgnores := g.respectIgnores.getD none
    includeHidden := g.includeHidden.getD none
    readPolicy := g.readPolicy.getD none
    maxDepth := g.maxDepth.getD none
    maxNodes := g.maxNodes.getD none
    expandOnly := g.expandOnly.getD [] }

/-- A member of a configuration given as an object. -/
def readMember (g : Given) (key : String) : Reading Given := do
  if key = "extensions" then
    return { g with extensions := some (← fieldByName key g.extensions (nullable readTexts)) }
  else if key = "respect_gitignore" then
    return { g with respectIgnores := some (← fieldByName key g.respectIgnores (nullable boolean)) }
  else if key = "include_hidden" then
    return { g with includeHidden := some (← fieldByName key g.includeHidden (nullable boolean)) }
  else if key = "read_policy" then
    return { g with readPolicy := some (← fieldByName key g.readPolicy (nullable readPolicyName)) }
  else if key = "max_depth" then
    return { g with maxDepth := some (← fieldByName key g.maxDepth (nullable size)) }
  else if key = "max_nodes" then
    return { g with maxNodes := some (← fieldByName key g.maxNodes (nullable size)) }
  else if key = "expand_only" then
    return { g with expandOnly := some (← fieldByName key g.expandOnly readTexts) }
  else fail (.unknownField key fieldNames)

/-- A configuration given as a list. Once the list has ended all further fields are missing. -/
def readInOrder : Reading Config := do
  let extensions ← fieldInOrder true (nullable readTexts)
  let respectIgnores ← fieldInOrder false (nullable boolean)
  let includeHidden ← fieldInOrder false (nullable boolean)
  let readPolicy ← fieldInOrder false (nullable readPolicyName)
  let maxDepth ← fieldInOrder false (nullable size)
  let maxNodes ← fieldInOrder false (nullable size)
  let expandOnly ← fieldInOrder false readTexts
  return Given.config
    { extensions, respectIgnores, includeHidden, readPolicy, maxDepth, maxNodes, expandOnly }

def readByName : Reading Config := do
  return (← bounded fun n => members readMember n true {}).config

def ofJson (bytes : Bytes) : Except JsonError Config :=
  run (record "ProjectConfig" (some readInOrder) (some readByName)) bytes

end Config

/-! ## 2. Where a configuration comes from -/

/-- Why there is no configuration. -/
inductive ConfigError where
  | missing (path : Path)
  | unreadable (path : Path) (cause : ReadCause)
  | malformed (path : Path) (error : JsonError)
  deriving DecidableEq, Repr

/-- The messages of an error and of the one behind it. -/
def ConfigError.causes : ConfigError → List String
  | .missing path => ["Config file not found: " ++ path.shown]
  | .unreadable path cause => ["read config " ++ path.shown, cause.message]
  | .malformed path error => ["parse config " ++ path.shown, error.message]

namespace Config

/-- The place of the configuration of a project. -/
def defaultPath (root : Path) : Path :=
  (root.join (.ofString ".refgraph")).join (.ofString "config.json")

/-- Reads a configuration. There is none if nothing lies under the path, which is an error if it is
required. -/
def load (d : Disk) (path : Path) (required : Bool) : Except ConfigError (Option Config) :=
  if d.doesExist path then
    match d.read path with
    | .error cause => .error (.unreadable path cause)
    | .ok content =>
      match ofJson content with
      | .error e => .error (.malformed path e)
      | .ok config => .ok (some config)
  else if required then .error (.missing path)
  else .ok none

/-- What the loading of a configuration reports that came out with the given one. -/
def loadLog (path : Path) : Option Config → Log
  | some _ => [⟨.debug, .config, "Loaded config from " ++ path.shown⟩]
  | none => []

end Config

end Citator

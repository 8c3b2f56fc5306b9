import Citator.Command.Line
import Citator.Settings.File
import Citator.Gate

/-!
# `Citator.Command.Run` — what a run of the program answers

A run goes through fixed steps: the root, the configuration, the gate, the scan, the corpus, the tree,
and its text. Each can fail, and then nothing is printed but the error with the chain of errors behind
it. Every step may report something, and how much of that is shown the user decides.

The whole run is a function of the disk and the arguments.
-/

namespace Citator.Command

/-! ## 1. Failures -/

/-- Why a run fails. -/
inductive RunError where
  | root (given : Path) (cause : ReadCause)
  | config (e : ConfigError)
  | gate (e : GateError)
  | scanner (e : CorpusError)
  | corpus (e : CorpusError)
  | tree (file : String) (e : EmptyTarget)
  | output (e : RenderError)

/-- The messages of an error and of those behind it. -/
def RunError.causes : RunError → List String
  | .root given cause => ["resolve corpus root " ++ given.shown, cause.message]
  | .config e => e.causes
  | .gate e => "build --expand-only gate" :: e.causes
  | .scanner e => "prepare file scanner" :: e.causes
  | .corpus e => "load corpus" :: e.loadMessage :: e.causes
  | .tree file e => ["build reference tree for " ++ file, e.message]
  | .output e => [e.message]

/-- A cause in a report with several: its number, and its text to the right of that. -/
def numbered (cause : String × Nat) : String :=
  "    " ++ toString cause.2 ++ ": " ++ Log.hanging 7 cause.1 ++ "\n"

/-- The report of an error: its message, and the causes behind it, numbered if there are several. -/
def report (causes : List String) : String :=
  match causes with
  | [] => ""
  | [m] => "Error: " ++ m ++ "\n"
  | [m, c] => "Error: " ++ m ++ "\n\nCaused by:\n    " ++ Log.hanging 4 c ++ "\n"
  | m :: cs => "Error: " ++ m ++ "\n\nCaused by:\n" ++ String.join (cs.zipIdx.map numbered)

/-! ## 2. The steps -/

/-- What a run has found out when it succeeds. -/
structure Finding where
  expansion : Expansion
  text : String

/-- The gate of a run. Not to expand at all goes before any globs. -/
def gateOf (noExpand : Bool) (rootDir : Path) (expandOnly : List String) :
    Except GateError Gate :=
  if noExpand then .ok .never
  else
    match expandOnly with
    | [] => .ok .always
    | globs => Gate.ofGlobs rootDir globs

def finderOf (d : Disk) (settings : Settings) (gate : Gate) (snapshot : Snapshot) : Finder :=
  { snapshot
    extensions := settings.extensions
    admits := gate.admits
    limits := settings.limits
    key := d.identity }

def loadCorpus (d : Disk) (rootDir : Path) (settings : Settings) : Logged RunError Snapshot := do
  let scanner ← Logged.attempt .scanner (Scanner.ofOptions d rootDir settings.scan)
  let corpus ← Logged.attempt .corpus (scanner.toCorpus d)
  Logged.report (scanner.log corpus.files)
  let snapshot ←
    Logged.attempt (fun f => .corpus (.unreadable f)) (Snapshot.load corpus settings.readPolicy)
  Logged.report snapshot.loadLog
  return snapshot

def loadSettings (d : Disk) (inv : Invocation) (rootDir : Path) : Logged RunError Settings := do
  let path := inv.config.getD (Config.defaultPath rootDir)
  let config ← Logged.attempt .config (Config.load d path inv.config.isSome)
  Logged.report (Config.loadLog path config)
  let settings := Settings.resolve (config.getD {}) inv.overrides
  Logged.report [⟨.debug, .run, "Effective settings: " ++ settings.shown⟩]
  return settings

def find (d : Disk) (inv : Invocation) : Logged RunError Finding := do
  let given := inv.root.getD d.here
  let rootDir ← Logged.attempt (.root given) (d.canonical given)
  let settings ← loadSettings d inv rootDir
  let gate ← Logged.attempt .gate (gateOf inv.noExpand rootDir settings.expandOnly)
  let snapshot ← loadCorpus d rootDir settings
  let finder := finderOf d settings gate snapshot
  let outcome := finder.build? inv.file
  Logged.report (finder.buildLog inv.file outcome)
  let expansion ← Logged.attempt (fun h => .tree inv.file h.error) outcome
  if expansion.rootPath.isNone then
    Logged.report
      [⟨.warn, .run, inv.file ++ " is not a file in the corpus; matching by name only"⟩]
  let text ← Logged.attempt .output (expansion.render rootDir inv.format)
  return ⟨expansion, text⟩

/-! ## 3. What is printed -/

/-- What a run of the program leaves behind. -/
structure Outcome where
  exit : Nat
  stdout : String
  stderr : String
  deriving DecidableEq, Repr

/-- The outcome of a run that was asked for properly. -/
def Outcome.ofInvocation (d : Disk) (inv : Invocation) : Outcome :=
  let run := find d inv
  let shown := String.join ((Log.shownAt inv.verbosity run.log).map Log.Record.line)
  match run.result with
  | .error e => ⟨1, "", shown ++ report e.causes⟩
  | .ok f =>
    ⟨0, f.text, shown ++ if inv.stats then f.expansion.stats.summary ++ "\n" else ""⟩

/-- What the program is called, and its version. -/
def versionText : String := "refgraph 0.1.0\n"

def helpLine (o : Opt) : String :=
  (match o.letter? with
    | some c => "  -" ++ c.toString ++ ", "
    | none => "      ") ++
    o.shown ++ "\n          " ++ o.purpose ++ "\n"

def helpText : String :=
  "Find which files reference a file, transitively\n\nUsage: refgraph [OPTIONS] <FILE>\n\n" ++
    "Arguments:\n  <FILE>  File to start from: bare name, root-relative or absolute path\n\n" ++
    "Options:\n" ++ String.join (Opt.all.map helpLine)

/-- The outcome of the program with the given arguments. -/
def Outcome.ofArguments (d : Disk) (args : List String) : Outcome :=
  match Invocation.ofArguments args with
  | .ok inv => ofInvocation d inv
  | .error .help => ⟨0, helpText, ""⟩
  | .error .version => ⟨0, versionText, ""⟩
  | .error (.mistake e) => ⟨2, "", "error: " ++ e.message ++ "\n\n" ++
      "Usage: refgraph [OPTIONS] <FILE>\n\nFor more information, try '--help'.\n"⟩

end Citator.Command

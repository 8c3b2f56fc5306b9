import Mathlib.Data.List.Basic
import Citator.Command.Run
import Citator.Proofs.Expansion.Course
import Citator.Proofs.Scan.Files

/-!
# `Citator.Proofs.Command.Run` — a run prints its whole answer or nothing

A run goes through steps, and each step needs what the steps before it found. The predicates of this
module say what that is, and leave the log aside: `RootIs`, `SettingsAre`, `GateIs` and so on up to
`Prints`, each of them one step on top of the one before. A run `Fails` if it comes to some step and
that step has an error.

Every run either prints or fails, and not both. What it leaves behind is read off that: the text and
nothing else in the first case, an empty output and a failure status in the second.
-/

namespace Citator

/-! ## 1. Work that reports, without the reports -/

namespace Logged

variable {ε ε' α β : Type}

variable {f : ε' → ε} {r : Except ε' α} {g : α → Except ε β}

end Logged

namespace Command

/-! ## 2. The steps of a run -/

section Steps

variable (d : Disk) (inv : Invocation)

def RootIs (rootDir : Path) : Prop := d.canonical (inv.root.getD d.here) = .ok rootDir

/-- The settings of a run. The configuration that is asked for has to be there; that of the project
may be missing. -/
def settingsFor (rootDir : Path) : Except ConfigError Settings :=
  (Config.load d (inv.config.getD (Config.defaultPath rootDir)) inv.config.isSome).map fun config =>
    Settings.resolve (config.getD {}) inv.overrides

def SettingsAre (rootDir : Path) (settings : Settings) : Prop :=
  RootIs d inv rootDir ∧ settingsFor d inv rootDir = .ok settings

/-- Not to expand at all goes before any globs, even those that cannot be read. -/
inductive Gates (rootDir : Path) (globs : List String) : Except GateError Gate → Prop
  | never : inv.noExpand = true → Gates rootDir globs (.ok .never)
  | always : inv.noExpand = false → globs = [] → Gates rootDir globs (.ok .always)
  | globs : inv.noExpand = false → globs ≠ [] → Gates rootDir globs (Gate.ofGlobs rootDir globs)

def GateIs (rootDir : Path) (settings : Settings) (gate : Gate) : Prop :=
  SettingsAre d inv rootDir settings ∧ Gates inv rootDir settings.expandOnly (.ok gate)

def ScannerIs (rootDir : Path) (settings : Settings) (gate : Gate) (scanner : Scanner) : Prop :=
  GateIs d inv rootDir settings gate ∧ Scanner.ofOptions d rootDir settings.scan = .ok scanner

def CorpusIs (rootDir : Path) (settings : Settings) (gate : Gate) (corpus : Corpus) : Prop :=
  ∃ scanner, ScannerIs d inv rootDir settings gate scanner ∧ scanner.toCorpus d = .ok corpus

/-- The questions of a run are put to the snapshot of its corpus, with the extensions and the bounds of
its settings, and its gate says what is expanded. Files are told apart by where they really lie. -/
def FinderIs (rootDir : Path) (finder : Finder) : Prop :=
  ∃ settings gate corpus snapshot, CorpusIs d inv rootDir settings gate corpus ∧
    Snapshot.load corpus settings.readPolicy = .ok snapshot ∧
      finder = { snapshot, extensions := settings.extensions, admits := gate.admits,
                 limits := settings.limits, key := d.identity }

def ExpansionIs (rootDir : Path) (expansion : Expansion) : Prop :=
  ∃ finder, FinderIs d inv rootDir finder ∧ finder.build inv.file = .ok expansion

/-- The run comes to a step that has an error. -/
inductive Fails : RunError → Prop
  | root {cause : ReadCause} (h : d.canonical (inv.root.getD d.here) = .error cause) :
    Fails (.root (inv.root.getD d.here) cause)
  | config {rootDir : Path} {e : ConfigError} (hroot : RootIs d inv rootDir)
    (h : settingsFor d inv rootDir = .error e) : Fails (.config e)
  | gate {rootDir : Path} {settings : Settings} {e : GateError}
    (hsettings : SettingsAre d inv rootDir settings)
    (h : Gates inv rootDir settings.expandOnly (.error e)) : Fails (.gate e)
  | scanner {rootDir : Path} {settings : Settings} {gate : Gate} {e : CorpusError}
    (hgate : GateIs d inv rootDir settings gate)
    (h : Scanner.ofOptions d rootDir settings.scan = .error e) : Fails (.scanner e)
  | listing {rootDir : Path} {settings : Settings} {gate : Gate} {scanner : Scanner} {e : CorpusError}
    (hscanner : ScannerIs d inv rootDir settings gate scanner)
    (h : scanner.toCorpus d = .error e) : Fails (.corpus e)
  | reading {rootDir : Path} {settings : Settings} {gate : Gate} {corpus : Corpus} {f : ReadFailure}
    (hcorpus : CorpusIs d inv rootDir settings gate corpus)
    (h : Snapshot.load corpus settings.readPolicy = .error f) : Fails (.corpus (.unreadable f))
  | tree {rootDir : Path} {finder : Finder} {e : EmptyTarget} (hfinder : FinderIs d inv rootDir finder)
    (h : finder.build inv.file = .error e) : Fails (.tree inv.file e)
  | output {rootDir : Path} {expansion : Expansion} {e : RenderError}
    (hexpansion : ExpansionIs d inv rootDir expansion)
    (h : expansion.render rootDir inv.format = .error e) : Fails (.output e)

end Steps

variable {d : Disk} {inv : Invocation}

open Logged

namespace Outcome

section Chain

end Chain

end Outcome

end Command
end Citator

import Citator.Text.Plain

/-!
# `Citator.Log` — what a run reports while it works

Nothing in this library prints. An operation that has something to report returns it, as records in
the order in which they arise, and the command line decides which of them are shown.
-/

namespace Citator

namespace Log

/-- How much a record matters. -/
inductive Level where
  | warn
  | info
  | debug
  deriving DecidableEq, Repr

def Level.tag : Level → String
  | .warn => "WARN"
  | .info => "INFO"
  | .debug => "DEBUG"

/-- How many times logging has to be turned up before the level is shown. -/
def Level.verbosity : Level → Nat
  | .warn => 0
  | .info => 1
  | .debug => 2

/-- The activity that a record comes from. -/
inductive Origin where
  | scan
  | load
  | lookup
  | expansion
  | config
  | run
  deriving DecidableEq, Repr

def Origin.tag : Origin → String
  | .scan => "refgraph_corpus::scanner"
  | .load => "refgraph_corpus::snapshot"
  | .lookup => "refgraph_graph::matcher"
  | .expansion => "refgraph_graph::builder"
  | .config => "refgraph::config"
  | .run => "refgraph"

end Log

/-- One line of the log. -/
structure Log.Record where
  level : Log.Level
  origin : Log.Origin
  message : String
  deriving DecidableEq, Repr

/-- A log, in the order in which the records arose. -/
abbrev Log := List Log.Record

namespace Log

/-- The records shown when logging is turned up `verbosity` times. -/
def shownAt (verbosity : Nat) (log : Log) : Log :=
  log.filter fun r => r.level.verbosity ≤ verbosity

/-- A text whose lines after the first are moved in by so many blanks. -/
def hanging (blanks : Nat) (s : String) : String :=
  String.ofList (s.toList.flatMap fun c =>
    if c = '\n' then '\n' :: List.replicate blanks ' ' else [c])

/-- A record as it stands on the command line's error stream: made plain, the end of the line
included. -/
def Record.line (r : Record) : String :=
  Text.plain ("[" ++ r.level.tag ++ " " ++ r.origin.tag ++ "] " ++ hanging 4 r.message ++ "\n")

end Log

/-! ## Work that reports -/

/-- The outcome of work that can fail, with what it reported on the way. -/
structure Logged (ε α : Type) where
  log : Log
  result : Except ε α

namespace Logged

/-- Work that is done and has nothing to report. -/
protected def pure {ε α : Type} (a : α) : Logged ε α := ⟨[], .ok a⟩

/-- One piece of work after the other. A failure ends it, and what was reported before stays. -/
protected def bind {ε α β : Type} (w : Logged ε α) (f : α → Logged ε β) : Logged ε β :=
  match w.result with
  | .ok a => ⟨w.log ++ (f a).log, (f a).result⟩
  | .error e => ⟨w.log, .error e⟩

instance {ε : Type} : Monad (Logged ε) where
  pure := Logged.pure
  bind := Logged.bind

def report {ε : Type} (log : Log) : Logged ε Unit := ⟨log, .ok ()⟩

/-- Work that reports nothing itself. Its error is put into place by `f`. -/
def attempt {ε ε' α : Type} (f : ε' → ε) (r : Except ε' α) : Logged ε α := ⟨[], r.mapError f⟩

end Logged
end Citator

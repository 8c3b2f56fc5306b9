import Citator.Report
import Citator.Settings.Basic

/-!
# `Citator.Command.Option` — the options of the command line

An option has a long name, sometimes a letter, and either a value behind it or none. The table here is
all that the reading of a command line knows of them; what is asked for is an `Invocation`.
-/

namespace Citator.Command

/-- The options. -/
inductive Opt where
  | root
  | config
  | ext
  | gitignore
  | hidden
  | skipUnreadable
  | maxDepth
  | maxNodes
  | expandOnly
  | noExpand
  | format
  | stats
  | verbose
  | help
  | version
  deriving DecidableEq, Repr

namespace Opt

def all : List Opt :=
  [root, config, ext, gitignore, hidden, skipUnreadable, maxDepth, maxNodes, expandOnly, noExpand,
    format, stats, verbose, help, version]

def longName : Opt → String
  | root => "root"
  | config => "config"
  | ext => "ext"
  | gitignore => "gitignore"
  | hidden => "hidden"
  | skipUnreadable => "skip-unreadable"
  | maxDepth => "max-depth"
  | maxNodes => "max-nodes"
  | expandOnly => "expand-only"
  | noExpand => "no-expand"
  | format => "format"
  | stats => "stats"
  | verbose => "verbose"
  | help => "help"
  | version => "version"

def letter? : Opt → Option Char
  | root => some 'r'
  | format => some 'f'
  | verbose => some 'v'
  | help => some 'h'
  | version => some 'V'
  | _ => none

/-- What the value behind an option is called, if the option has one. -/
def valueName? : Opt → Option String
  | root => some "DIR"
  | config => some "FILE"
  | ext => some "EXT"
  | maxDepth => some "N"
  | maxNodes => some "N"
  | expandOnly => some "GLOB"
  | format => some "FORMAT"
  | _ => none

def takesValue (o : Opt) : Bool := o.valueName?.isSome

/-- Whether an option may be given more than once. -/
def repeats : Opt → Bool
  | ext => true
  | expandOnly => true
  | verbose => true
  | _ => false

def purpose : Opt → String
  | root => "Corpus root (defaults to the current directory)"
  | config => "Config file (defaults to <root>/.refgraph/config.json)"
  | ext => "Source extension to scan and match; repeat to list several"
  | gitignore => "Honour .gitignore and .ignore files"
  | hidden => "Include hidden files and directories"
  | skipUnreadable => "Leave unreadable files out instead of failing"
  | maxDepth => "Do not expand nodes at this depth (root is 0)"
  | maxNodes => "Stop attaching nodes once the tree has this many"
  | expandOnly => "Only expand files whose root-relative path matches; repeatable"
  | noExpand => "List direct referrers only"
  | format => "Output: tree (default), json or dot"
  | stats => "Print a traversal summary to stderr"
  | verbose => "More logging (-v info, -vv debug)"
  | help => "Print help"
  | version => "Print version"

def ofLongName? (name : String) : Option Opt := all.find? fun o => o.longName == name

def ofLetter? (c : Char) : Option Opt := all.find? fun o => o.letter? == some c

/-- An option as messages name it: with its value, or with dots if it is counted. -/
def shown (o : Opt) : String :=
  "--" ++ o.longName ++
    match o.valueName? with
    | some v => " <" ++ v ++ ">"
    | none => if o.repeats then "..." else ""

end Opt

/-- What the options ask for. -/
structure Choices where
  root : Option Path := none
  config : Option Path := none
  overrides : Overrides := {}
  /-- Whether only direct referrers are wanted. -/
  noExpand : Bool := false
  format : Format := .tree
  /-- Whether the counts are wanted as well. -/
  stats : Bool := false
  /-- How many times logging is turned up. -/
  verbosity : Nat := 0
  deriving Repr, Inhabited

/-- What a command line asks for. -/
structure Invocation extends Choices where
  /-- The file that the tree starts from: a name, or a path. -/
  file : String
  deriving Repr

end Citator.Command

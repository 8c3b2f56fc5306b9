import Citator.Command.Option
import Citator.Text.Plain

/-!
# `Citator.Command.Line` — reading a command line

A command line is read argument by argument. An argument with two dashes in front is an option by its
name, one with a single dash is a row of letters, and everything else is a value: of the option before
it if that still wants one, and otherwise the file. Behind `--` everything is a value. A value may also
stand in the same argument as its option.

What is asked for is settled late. An option whose value may be in the next argument stays *pending*
until something else is settled or the line ends, and only then its value is looked at. This shows
when a line has two mistakes: an unknown option is reported even if the value before it is bad.
-/

namespace Citator.Command

/-! ## 1. Mistakes -/

/-- Why a text is no number. -/
inductive NumberFault where
  | empty
  | badDigit
  | tooLarge
  deriving DecidableEq, Repr

def NumberFault.message : NumberFault → String
  | .empty => "cannot parse integer from empty string"
  | .badDigit => "invalid digit found in string"
  | .tooLarge => "number too large to fit in target type"

/-- Why a command line cannot be used. -/
inductive UsageError where
  /-- An option that there is not, or a second file. -/
  | unexpected (argument : String)
  | unexpectedValue (value : String) (option : Opt)
  | repeated (option : Opt)
  | valueMissing (option : Opt)
  | unknownValue (value : String) (option : Opt)
  | badNumber (value : String) (option : Opt) (fault : NumberFault)
  | conflict (first second : Opt)
  | fileMissing
  deriving DecidableEq, Repr

/-- The wording of a mistake. What the user wrote is made plain. -/
def UsageError.message : UsageError → String
  | .unexpected a => "unexpected argument '" ++ Text.plain a ++ "' found"
  | .unexpectedValue v o =>
    "unexpected value '" ++ Text.plain v ++ "' for '" ++ o.shown ++ "' found; no more were expected"
  | .repeated o => "the argument '" ++ o.shown ++ "' cannot be used multiple times"
  | .valueMissing o => "a value is required for '" ++ o.shown ++ "' but none was supplied"
  | .unknownValue v o => "invalid value '" ++ Text.plain v ++ "' for '" ++ o.shown ++ "'"
  | .badNumber v o f =>
    "invalid value '" ++ Text.plain v ++ "' for '" ++ o.shown ++ "': " ++ f.message
  | .conflict a b => "the argument '" ++ a.shown ++ "' cannot be used with '" ++ b.shown ++ "'"
  | .fileMissing => "the following required arguments were not provided:"

/-- What ends the reading of a command line before it is complete. -/
inductive Stop where
  | mistake (e : UsageError)
  | help
  | version
  deriving DecidableEq, Repr

/-! ## 2. Values -/

def numberLimit : Nat := 0xFFFFFFFFFFFFFFFF

def readDigits : Nat → List Char → Except NumberFault Nat
  | n, [] => .ok n
  | n, c :: cs =>
    if !c.isDigit then .error .badDigit
    else
      let more := n * 10 + (c.toNat - '0'.toNat)
      if numberLimit < more then .error .tooLarge else readDigits more cs

/-- A number, perhaps with a plus sign in front. -/
def readNumber (s : String) : Except NumberFault Nat :=
  match s.toList with
  | [] => .error .empty
  | '+' :: c :: cs => readDigits 0 (c :: cs)
  | cs => readDigits 0 cs

def numberFor (o : Opt) (value : String) : Except UsageError Nat :=
  (readNumber value).mapError (.badNumber value o)

/-- A path as the value of an option; the empty one does not count. -/
def pathFor (o : Opt) (value : String) : Except UsageError Path :=
  if value = "" then .error (.valueMissing o) else .ok (.ofString value)

def formatFor (o : Opt) (value : String) : Except UsageError Format :=
  match Format.names.lookup value with
  | some f => .ok f
  | none => .error (if value = "" then .valueMissing o else .unknownValue value o)

/-- The choices after an option with its value was taken up. -/
def Choices.take (c : Choices) (o : Opt) (value : String) : Except UsageError Choices :=
  let u := c.overrides
  match o with
  | .root => do return { c with root := some (← pathFor o value) }
  | .config => do return { c with config := some (← pathFor o value) }
  | .ext => .ok { c with overrides := { u with extensions := u.extensions ++ [value] } }
  | .gitignore => .ok { c with overrides := { u with respectIgnores := true } }
  | .hidden => .ok { c with overrides := { u with includeHidden := true } }
  | .skipUnreadable => .ok { c with overrides := { u with skipUnreadable := true } }
  | .maxDepth => do
    return { c with overrides := { u with maxDepth := some (← numberFor o value) } }
  | .maxNodes => do
    return { c with overrides := { u with maxNodes := some (← numberFor o value) } }
  | .expandOnly => .ok { c with overrides := { u with expandOnly := u.expandOnly ++ [value] } }
  | .noExpand => .ok { c with noExpand := true }
  | .format => do return { c with format := ← formatFor o value }
  | .stats => .ok { c with stats := true }
  | .verbose => .ok { c with verbosity := c.verbosity + 1 }
  | .help => .ok c
  | .version => .ok c

/-! ## 3. Options -/

/-- What was read of a command line. -/
structure Line where
  choices : Choices := {}
  file : Option String := none
  /-- The options that were settled, latest first. -/
  seen : List Opt := []
  /-- An option that waits to be settled, with its value if that was read. -/
  pending : Option (Opt × Option String) := none
  onlyValues : Bool := false
  deriving Repr, Inhabited

namespace Line

/-- The line with an option taken up, which may end the reading. -/
def accept (l : Line) (o : Opt) (value : String) : Except Stop Line :=
  if o = .help then .error .help
  else if o = .version then .error .version
  else if !o.repeats && l.seen.contains o then .error (.mistake (.repeated o))
  else
    match l.choices.take o value with
    | .error e => .error (.mistake e)
    | .ok choices => .ok { l with choices, seen := o :: l.seen }

def settle (l : Line) : Except Stop Line :=
  match l.pending with
  | none => .ok l
  | some (o, none) => .error (.mistake (.valueMissing o))
  | some (o, some value) => accept { l with pending := none } o value

/-- The line with an option that has a value, or will get one from the next argument. -/
def valued (l : Line) (o : Opt) (value : Option String) : Except Stop Line := do
  let l ← l.settle
  match value with
  | some v => l.accept o v
  | none => return { l with pending := some (o, none) }

def plain (l : Line) (o : Opt) : Except Stop Line := do (← l.settle).accept o ""

/-- The line after an option by its name, perhaps with a value behind an equals sign. -/
def long (l : Line) (name : String) (value : Option String) : Except Stop Line :=
  match Opt.ofLongName? name with
  | none => .error (.mistake (.unexpected ("--" ++ name)))
  | some o =>
    if o.takesValue then l.valued o value
    else
      match value with
      | some v => .error (.mistake (.unexpectedValue v o))
      | none => l.plain o

/-- The line after a row of letters. What stands behind the letter of an option with a value is its
value, an equals sign in front of it aside. -/
def letters (l : Line) : List Char → Except Stop Line
  | [] => .ok l
  | c :: cs =>
    match Opt.ofLetter? c with
    | none => .error (.mistake (.unexpected ("-" ++ c.toString)))
    | some o =>
      if o.takesValue then
        match cs with
        | [] => l.valued o none
        | '=' :: v => l.valued o (some (String.ofList v))
        | v => l.valued o (some (String.ofList v))
      else
        match l.plain o with
        | .error e => .error e
        | .ok l => letters l cs

/-! ## 4. Arguments -/

/-- The line after a value that no option wants. -/
def positional (l : Line) (arg : String) : Except Stop Line :=
  match l.file with
  | some _ => .error (.mistake (.unexpected arg))
  | none => do return { ← l.settle with file := some arg }

def value (l : Line) (arg : String) : Except Stop Line :=
  match l.pending with
  | some (o, none) => .ok { l with pending := some (o, some arg) }
  | _ => l.positional arg

def argument (l : Line) (arg : String) : Except Stop Line :=
  if l.onlyValues then l.positional arg
  else
    match arg.toList with
    | ['-', '-'] => .ok { l with onlyValues := true }
    | '-' :: '-' :: cs =>
      let name := String.ofList (cs.takeWhile fun c => c != '=')
      match cs.dropWhile fun c => c != '=' with
      | [] => l.long name none
      | _ :: v => l.long name (some (String.ofList v))
    | '-' :: c :: cs => l.letters (c :: cs)
    | _ => l.value arg

def arguments (l : Line) : List String → Except Stop Line
  | [] => .ok l
  | a :: as =>
    match l.argument a with
    | .error e => .error e
    | .ok l => arguments l as

/-- The two options that exclude each other, in the order in which they were given, if both were. -/
def conflict? (l : Line) : Option (Opt × Opt) :=
  match l.seen.reverse.filter fun o => o == .noExpand || o == .expandOnly with
  | .noExpand :: rest => if rest.contains .expandOnly then some (.noExpand, .expandOnly) else none
  | .expandOnly :: rest => if rest.contains .noExpand then some (.expandOnly, .noExpand) else none
  | _ => none

/-- What a line asks for, once all of it is read. -/
def finish (l : Line) : Except Stop Invocation := do
  let l ← l.settle
  match l.conflict?, l.file with
  | some (a, b), _ => .error (.mistake (.conflict a b))
  | none, none => .error (.mistake .fileMissing)
  | none, some file => return { l.choices with file }

end Line

/-- What the arguments of a command line ask for. -/
def Invocation.ofArguments (args : List String) : Except Stop Invocation := do
  (← Line.arguments {} args).finish

end Citator.Command

import Citator.Disk.Basic
import Citator.Glob.Matching
import Citator.Text.Plain

/-!
# `Citator.Ignore.Rule` — the rules of an ignore file

An ignore file holds one rule a line. A rule is a glob that is matched against paths relative to the
directory that the file speaks about, with two flags: whether the rule takes paths back in that an
earlier one ignored, and whether it is about directories only. Of all rules of a file that match a
path the last one counts.

A rule without a separator is about names at any depth, so its glob gets `**/` in front. A rule that
ends in `/**` is about what lies inside a directory and not about the directory, so its glob gets `/*`
behind. What is no glob is no rule; the file then has a fault, and its other lines count all the same.
A line that is no text is the end of the file.

Whether a fault matters depends on where the file lies; a fault itself only says what it is and where
it stands.
-/

namespace Citator

/-! ## 1. What can be wrong with a file -/

/-- What is wrong. -/
inductive IgnoreFault.Cause where
  | badGlob (e : Glob.ParseError)
  | unreadable (cause : ReadCause)
  deriving DecidableEq, Repr

def IgnoreFault.Cause.message : IgnoreFault.Cause → String
  | .badGlob e => e.message
  | .unreadable cause => cause.message

/-- Something wrong with a file. -/
structure IgnoreFault where
  path : Path
  /-- The line, if the fault is in a line that was asked for by its number. -/
  line : Option Nat
  cause : IgnoreFault.Cause
  deriving DecidableEq, Repr

namespace IgnoreFault

/-- The wording of a fault: where it stands, and what it is. -/
def message (f : IgnoreFault) : String :=
  f.path.shown ++ ": " ++
    (match f.line with
      | some n => "line " ++ toString n ++ ": "
      | none => "") ++
    f.cause.message

def messages (faults : List IgnoreFault) : String :=
  String.intercalate "\n" (faults.map message)

end IgnoreFault

/-! ## 2. From a line to a rule -/

/-- What rules say of a path. -/
inductive Ruling where
  | ignored
  | kept
  deriving DecidableEq, Repr

/-- A rule of an ignore file. -/
structure IgnoreRule where
  glob : Glob
  ruling : Ruling
  /-- Whether the rule is about directories only. -/
  dirsOnly : Bool

namespace IgnoreRule

/-- A line without the blanks at its end, unless the last of them is escaped. -/
def withoutEndBlanks (line : List Char) : List Char :=
  if ['\\', ' '].isSuffixOf line then line else Text.dropEndWhile Text.isBlank line

/-- What the front of a line says: whether it takes paths back in, whether it is anchored by a
separator, and what is left of it. A backslash in front of `!` or `#` takes their meaning away. -/
def readFront : List Char → Ruling × Bool × List Char
  | '\\' :: '!' :: cs => (.ignored, false, '!' :: cs)
  | '\\' :: '#' :: cs => (.ignored, false, '#' :: cs)
  | '!' :: '/' :: cs => (.kept, true, cs)
  | '!' :: cs => (.kept, false, cs)
  | '/' :: cs => (.ignored, true, cs)
  | cs => (.ignored, false, cs)

/-- What the end of a line says: whether it is about directories only, and what is left of it. A
backslash in front of the last separator goes with it. -/
def readEnd (cs : List Char) : Bool × List Char :=
  match cs.reverse with
  | '/' :: '\\' :: rest => (true, rest.reverse)
  | '/' :: rest => (true, rest.reverse)
  | _ => (false, cs)

def globChars (anchored : Bool) (cs : List Char) : List Char :=
  let anywhere := !anchored && !cs.contains '/' && cs != ['*', '*']
  let cs := if anywhere then '*' :: '*' :: '/' :: cs else cs
  if ['/', '*', '*'].isSuffixOf cs then cs ++ ['/', '*'] else cs

/-- The glob with the given text. Its `*` stops at separators, and a bracket that nothing closes
stands for itself. -/
def globOf (text : String) : Except Glob.ParseError Glob :=
  (Glob.tokensOf true text).map fun tokens => { text, tokens, inSegment := true }

/-- The rule of a line, if it holds one. A line that is no glob is reported as it is written. -/
def ofLine? (line : List Char) : Except Glob.ParseError (Option IgnoreRule) :=
  if line.head? = some '#' then .ok none
  else
    let line := withoutEndBlanks line
    if line = [] then .ok none
    else
      let (ruling, anchored, cs) := readFront line
      let (dirsOnly, cs) := readEnd cs
      match globOf (String.ofList (globChars anchored cs)) with
      | .ok glob => .ok (some { glob, ruling, dirsOnly })
      | .error e => .error { e with text := String.ofList line }

/-! ## 3. Rulings -/

def applies (r : IgnoreRule) (relative : Path) (isDir : Bool) : Bool :=
  (isDir || !r.dirsOnly) && r.glob.isMatchInSet relative

/-- What rules say of a path, if they say anything: the last that is about it counts. -/
def rulingOf? (rules : List IgnoreRule) (relative : Path) (isDir : Bool) : Option Ruling :=
  (rules.reverse.find? fun r => r.applies relative isDir).map (·.ruling)

end IgnoreRule

/-- The rules of an ignore file, and what is wrong with it. -/
structure IgnoreFile where
  rules : List IgnoreRule := []
  faults : List IgnoreFault := []

namespace IgnoreFile

/-! ## 4. From a file to rules -/

def lineFeed : UInt8 := 0x0A

def carriageReturn : UInt8 := 0x0D

/-- The lines of a file, without what ends them. There is no line after the last line feed. -/
def lines : Bytes → List Bytes
  | [] => []
  | b :: bs =>
    if b = lineFeed then [] :: lines bs
    else
      match bs, lines bs with
      | c :: _, l :: ls => if b = carriageReturn ∧ c = lineFeed then l :: ls else (b :: l) :: ls
      | _, _ => [[b]]

/-- A file with the line of the given number in front. -/
def addLine (path : Path) (number : Nat) (line : List Char) (f : IgnoreFile) : IgnoreFile :=
  match IgnoreRule.ofLine? line with
  | .ok none => f
  | .ok (some r) => { f with rules := r :: f.rules }
  | .error e => { f with faults := ⟨path, some number, .badGlob e⟩ :: f.faults }

/-- What lines hold, the first of which has the given number. The very first line of a file may start
with byte order marks. -/
def ofLines (path : Path) (number : Nat) : List Bytes → IgnoreFile
  | [] => {}
  | l :: ls =>
    match Utf8.decode? l with
    | none => { faults := [⟨path, some number, .unreadable .notText⟩] }
    | some s =>
      let line := if number = 1 then s.toList.dropWhile fun c => c == '\uFEFF' else s.toList
      (ofLines path (number + 1) ls).addLine path number line

/-- What a file holds. That a line is no text matters only beside another fault. -/
def ofBytes (path : Path) (content : Bytes) : IgnoreFile :=
  let f := ofLines path 1 (lines content)
  match f.faults with
  | [⟨_, _, .unreadable _⟩] => { f with faults := [] }
  | _ => f

end IgnoreFile
end Citator

import Citator.Ignore.Rule

/-!
# `Citator.Corpus.Basic` — the extensions of source files, and why a corpus cannot be had

Extensions come from people, with dots and blanks around them. One function, `bare`, removes both, and
the scanner and the search for references both go through it. Blanks go first and dots second, once
each: `" . ts"` becomes `" ts"`, whose blank stands inside once the dot is gone. So the function may do
more when it is applied again, and the search applies it to extensions that settings made bare before:
of such an extension it takes the blank away, which the scanner, for which it is part of the extension,
does not.

Errors are causes. Each carries what it is about and nothing more, and its wording stands in one
place. Some errors have an error behind them, and a report shows the whole chain: `causes` lists an
error's own message and then those behind it.
-/

namespace Citator

/-! ## 1. Extensions -/

/-- The extensions that are looked for when none are configured. -/
def defaultExtensions : List String := ["js", "jsx", "ts", "tsx"]

namespace Extension

/-- An extension without the blanks around it and the dots in front of it. -/
def bare (ext : String) : String :=
  String.ofList ((Text.trimmed ext.toList).dropWhile fun c => c == '.')

/-- The extensions as they are searched for: bare and not empty, in the order given. -/
def kept (exts : List String) : List String := (exts.map bare).filter fun e => e != ""

/-- The extensions as they are scanned for: bare, not empty and without repetitions, each in its
first place. -/
def normalize (exts : List String) : List String := (kept exts).eraseDups

/-- The text of the glob that matches the files with one of the extensions, in any directory. There
is none for no extension at all. -/
def globText? : List String → Option String
  | [] => none
  | [e] => some ("**/*." ++ e)
  | es => some ("**/*.\x7b" ++ String.intercalate "," es ++ "\x7d")

end Extension

/-! ## 2. Errors -/

/-- Why a corpus cannot be had. -/
inductive CorpusError where
  | notADirectory (root : Path)
  | noExtensions
  | badGlob (e : Glob.ParseError)
  /-- Something is wrong with ignore files above the root. -/
  | badIgnoreFiles (faults : List IgnoreFault)
  | unreadable (f : ReadFailure)
  deriving DecidableEq, Repr

namespace CorpusError

def message : CorpusError → String
  | .notADirectory root => "Invalid corpus root: Not a directory: " ++ root.shown
  | .noExtensions => "No source extensions configured"
  | .badGlob e => "Invalid glob pattern: " ++ e.message
  | .badIgnoreFiles faults => "Walk error: " ++ IgnoreFault.messages faults
  | .unreadable f => f.message

/-- The messages of an error and of those behind it. -/
def causes (e : CorpusError) : List String :=
  e.message ::
    match e with
    | .badGlob g => [g.message]
    | .badIgnoreFiles faults => [IgnoreFault.messages faults]
    | .unreadable f => [f.cause.message]
    | _ => []

/-- The wording of an error that kept a corpus from being loaded. -/
def loadMessage (e : CorpusError) : String := "Corpus error: " ++ e.message

end CorpusError

/-- The glob that matches the files with one of the extensions. -/
def Extension.glob (exts : List String) : Except CorpusError Glob :=
  match globText? exts with
  | none => .error .noExtensions
  | some text => (Glob.ofString text).mapError .badGlob

end Citator

import Citator.Corpus.Snapshot
import Citator.Text.Quoted

/-!
# `Citator.Citation.Search` — which files refer to a file

A file refers to another if its text holds the other's *token* with an *ending* right behind it. The
token of a file is its name without a configured extension; an ending is a quote of either kind or a
dot and a configured extension. Nothing is parsed: an occurrence in a comment counts.

Token and endings are characters, and the search is for a literal substring. The text of an
equivalent regular expression is a separate thing (`patternText`), which logs and reports show.
-/

namespace Citator

/-- A path whose file name has no token to search for. -/
structure EmptyTarget where
  shown : String
  deriving DecidableEq, Repr

def EmptyTarget.message (e : EmptyTarget) : String :=
  "Cannot derive a match target from " ++ Text.quoted e.shown

namespace Citation

/-! ## 1. The token of a file -/

/-- The characters of a list before the given end, if it ends so. -/
def beforeEnd? (xs suffix : List Char) : Option (List Char) :=
  if suffix.isSuffixOf xs then some (xs.take (xs.length - suffix.length)) else none

/-- The characters of a file name without the first of the extensions, in list order, that it ends
in; the whole name if it ends in none. The extensions are bare. -/
def tokenChars (exts : List String) (name : List Char) : List Char :=
  (exts.findSome? fun e => beforeEnd? name ('.' :: e.toList)).getD name

/-- The file name of a path, decoded lossily; empty if it has none. -/
def nameShown (p : Path) : String := (p.fileName?.map Utf8.lossy).getD ""

/-- The token of a file: its name without the directory and without a configured extension. -/
def token (exts : List String) (p : Path) : Except EmptyTarget String :=
  match tokenChars exts (nameShown p).toList with
  | [] => .error ⟨p.shown⟩
  | cs => .ok (String.ofList cs)

/-! ## 2. Occurrences -/

/-- What may follow a token: a quote of either kind, or a dot and an extension. -/
def endings (exts : List String) : List (List Char) :=
  ['\''] :: ['"'] :: exts.map fun e => '.' :: e.toList

/-- Whether a text starts with the token and an ending. -/
def citesAtFront (token : List Char) (ends : List (List Char)) (text : List Char) : Bool :=
  token.isPrefixOf text && ends.any fun e => e.isPrefixOf (text.drop token.length)

/-- Whether a text holds the token with an ending right behind it. -/
def cites (token : List Char) (ends : List (List Char)) : List Char → Bool
  | [] => citesAtFront token ends []
  | c :: cs => citesAtFront token ends (c :: cs) || cites token ends cs

/-! ## 3. The pattern, as text -/

/-- The characters that have a meaning of their own in a regular expression. -/
def isMeta (c : Char) : Bool := "\\.+*?()|[]\x7b\x7d^$#&-~".toList.contains c

/-- A text as a regular expression that matches just this text. -/
def escaped (s : String) : String :=
  String.ofList (s.toList.flatMap fun c => if isMeta c then ['\\', c] else [c])

/-- The regular expression that finds the references to a token. -/
def patternText (exts : List String) (token : String) : String :=
  escaped token ++ "(?:" ++
    String.intercalate "|" ("['\"]" :: exts.map fun e => escaped ("." ++ e)) ++ ")"

end Citation

/-! ## 4. The references to a file -/

/-- The answer to a search: the token, and the files that refer to it in corpus order. -/
structure Citations where
  token : String
  files : List Path
  deriving DecidableEq, Repr

/-- Searches a snapshot for the references to a file. The extensions are as configured. -/
def Snapshot.citations (s : Snapshot) (exts : List String) (target : Path) :
    Except EmptyTarget Citations :=
  let exts := Extension.kept exts
  (Citation.token exts target).map fun token =>
    ⟨token, (s.files.filter fun f =>
      Citation.cites token.toList (Citation.endings exts) f.content.toList).map (·.path)⟩

/-- The files that refer to a file, in corpus order. -/
def Snapshot.referrers (s : Snapshot) (exts : List String) (target : Path) :
    Except EmptyTarget (List Path) :=
  (s.citations exts target).map (·.files)

/-- What a search reports that found so many files. A search for a file without a token fails and
reports nothing. -/
def Citation.searchLog (exts : List String) (target : Path) (found : Nat) : Log :=
  match Citation.token (Extension.kept exts) target with
  | .error _ => []
  | .ok token =>
    [⟨.debug, .lookup, target.shown ++ " referenced by " ++ toString found ++
      " files (pattern " ++ Citation.patternText (Extension.kept exts) token ++ ")"⟩]

end Citator

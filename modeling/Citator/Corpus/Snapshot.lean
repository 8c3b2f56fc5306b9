import Citator.Corpus.Memory
import Citator.Log

/-!
# `Citator.Corpus.Snapshot` — a corpus, read once

A snapshot holds the listing of a corpus together with the text of every file. It is taken once, and
every question after that is put to the snapshot, so all answers of a run are about the same state of
the files.

A file that cannot be read ends the loading, or is left out and remembered, as the policy says.
-/

namespace Citator

/-- What happens when a listed file cannot be read. -/
inductive ReadPolicy where
  /-- The loading fails with the error of the first such file. -/
  | abort
  /-- The file is left out. -/
  | skip
  deriving DecidableEq, Repr, Inhabited

/-- A file with its text. -/
structure SourceFile where
  path : Path
  content : String
  deriving DecidableEq, Repr

/-- The file name without its extension, if it is text. -/
def SourceFile.stem? (f : SourceFile) : Option String := f.path.fileStem?.bind Utf8.decode?

/-- A corpus that has been read. -/
structure Snapshot where
  root : Path
  /-- The files that could be read, in the order of the listing. -/
  files : List SourceFile
  /-- The files left out, in the order of the listing. -/
  skipped : List ReadFailure
  deriving DecidableEq, Repr

namespace Snapshot

/-! ## 1. Loading -/

/-- The files and the failures among the listed paths. -/
def readAll (read : Path → Except ReadCause String) (policy : ReadPolicy) :
    List Path → Except ReadFailure (List SourceFile × List ReadFailure)
  | [] => .ok ([], [])
  | p :: ps =>
    match read p with
    | .ok content => (readAll read policy ps).map fun r => (⟨p, content⟩ :: r.1, r.2)
    | .error cause =>
      match policy with
      | .abort => .error ⟨p, cause⟩
      | .skip => (readAll read policy ps).map fun r => (r.1, ⟨p, cause⟩ :: r.2)

def load (c : Corpus) (policy : ReadPolicy) : Except ReadFailure Snapshot :=
  (readAll c.read policy c.files).map fun r => ⟨c.root, r.1, r.2⟩

/-- What loading reports: a warning for each file left out, then the sizes. -/
def loadLog (s : Snapshot) : Log :=
  s.skipped.map (fun f => ⟨.warn, .load, "Skipping unreadable file: " ++ f.message⟩) ++
    [⟨.info, .load, "Loaded corpus at " ++ s.root.shown ++ ": " ++ toString s.files.length ++
      " files (" ++ toString s.skipped.length ++ " skipped)"⟩]

/-! ## 2. Finding a file by a name -/

/-- The path relative to the root with forward slashes, if it lies under the root. -/
def relativePath? (s : Snapshot) (p : Path) : Option String :=
  (p.strip? s.root).map fun r => Path.forwardSlashes r.shown

/-- Characters without any number of `./` in front. -/
def dropDotSlashes : List Char → List Char
  | '.' :: '/' :: cs => dropDotSlashes cs
  | cs => cs

/-- A name as it is looked up: without blanks around it, with forward slashes, and without `./` in
front. -/
def wantedName (name : String) : String :=
  String.ofList (dropDotSlashes (Path.forwardSlashes (Text.trim name)).toList)

/-- The file that a name stands for: the first whose relative path it is, else the first whose file
name it is, else the first whose stem it is. -/
def resolve? (s : Snapshot) (name : String) : Option SourceFile :=
  let wanted := wantedName name
  if wanted = "" then none
  else
    (s.files.find? fun f => s.relativePath? f.path == some wanted)
      <|> (s.files.find? fun f => (f.path.fileName?.bind Utf8.decode?) == some wanted)
      <|> s.files.find? fun f => f.stem? == some wanted

end Snapshot
end Citator

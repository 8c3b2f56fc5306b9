import Citator.Ignore.Rule

/-!
# `Citator.Ignore.Layer` — the ignore files of a directory, and which of them counts

Every directory may have three ignore files, and each speaks about all that lies below the directory.
A layer is what one directory has to say; the layers above an entry are kept in a list, innermost
first, each knowing the way from its own directory to the place that has been reached.

The kind of file counts more than the place: what any `.ignore` file says goes before what the
`.gitignore` files say, and those before the exclude files. Within a kind the innermost file that says
anything counts.

The exclude file belongs to a repository and not to a directory of the work that is kept in it. As a
rule the repository is the directory `.git`, and the file is `info/exclude` in it. A second working
directory of the same repository has a *file* `.git` instead, whose first line says where the data of
that working directory is; there a file `commondir` says in its first line where the repository is.

If one of the two files says nothing of use, there is no exclude file. If one is there and its first
line cannot be read, that is a fault.
-/

namespace Citator

/-! ## 1. Where the exclude file lies -/

namespace IgnoreFile

/-- The rules of the file under a path. A file that cannot be read has none. -/
def ofPath (d : Disk) (p : Path) : IgnoreFile :=
  match d.read p with
  | .ok content => ofBytes p content
  | .error _ => {}

/-- The first line of a file, if there is one. What is there and is no text file is a fault. -/
def firstLine? (d : Disk) (p : Path) : Except IgnoreFault (Option String) :=
  match d.read p with
  | .ok content =>
    match lines content with
    | [] => .ok none
    | l :: _ =>
      match Utf8.decode? l with
      | some s => .ok (some s)
      | none => .error ⟨p, none, .unreadable .notText⟩
  | .error .isADirectory => .error ⟨p, none, .unreadable .isADirectory⟩
  | .error _ => .ok none

/-- The characters behind a beginning, if a text has it. -/
def after? : List Char → List Char → Option (List Char)
  | [], cs => some cs
  | b :: bs, c :: cs => if b = c then after? bs cs else none
  | _ :: _, [] => none

/-- The data of a working directory, by the first line of its file `.git`. -/
def dataOf? (line : String) : Option Path :=
  (after? "gitdir: ".toList line.toList).map fun cs => .ofString (String.ofList cs)

/-- The repository, by the first line of the file `commondir` in the data of a working directory. A
line that starts with a dot is relative to the data. -/
def repositoryOf (data : Path) (line : String) : Path :=
  if line.toList.head? = some '.' then data.join (.ofString line) else .ofString line

/-- The repository of a directory, if it has one. -/
def repository? (d : Disk) (dir : Path) : Except IgnoreFault (Option Path) :=
  let mark := dir.join (.ofString ".git")
  if !d.isFile mark then .ok (some mark)
  else do
    match (← firstLine? d mark).bind dataOf? with
    | none => return none
    | some data =>
      return (← firstLine? d (data.join (.ofString "commondir"))).map (repositoryOf data)

/-- The rules of the exclude file of a directory. -/
def excludeOf (d : Disk) (dir : Path) : IgnoreFile :=
  match repository? d dir with
  | .ok (some repository) => ofPath d (repository.join (.ofString "info/exclude"))
  | .ok none => {}
  | .error fault => { faults := [fault] }

end IgnoreFile

/-! ## 2. The files of a directory -/

/-- What the ignore files of one directory say. -/
structure IgnoreLayer where
  general : IgnoreFile
  versioned : IgnoreFile
  excluded : IgnoreFile
  /-- The names on the way from the directory to the place that has been reached. -/
  below : List Bytes

namespace IgnoreLayer

/-- The layer of a directory, when the place that has been reached lies at the names `below` in it. -/
def ofDirectory (d : Disk) (dir : Path) (below : List Bytes) : IgnoreLayer :=
  { general := .ofPath d (dir.join (.ofString ".ignore"))
    versioned := .ofPath d (dir.join (.ofString ".gitignore"))
    excluded := .excludeOf d dir
    below }

def faults (l : IgnoreLayer) : List IgnoreFault :=
  l.general.faults ++ l.versioned.faults ++ l.excluded.faults

/-- The layer after a directory in the place that was reached was entered. -/
def enter (name : Bytes) (l : IgnoreLayer) : IgnoreLayer := { l with below := l.below ++ [name] }

/-- The layers of the directories above the one at the given names from the top, innermost first.
`upper` holds the names above those, outermost first. -/
def above (d : Disk) (upper : List Bytes) : List Bytes → List IgnoreLayer
  | [] => []
  | n :: ns => above d (upper ++ [n]) ns ++ [ofDirectory d (.ofNames upper) (n :: ns)]

/-- What the layers say of an entry of the place that has been reached. -/
def rulingOf? (layers : List IgnoreLayer) (name : Bytes) (isDir : Bool) : Option Ruling :=
  let first (kind : IgnoreLayer → IgnoreFile) : Option Ruling :=
    layers.findSome? fun l =>
      IgnoreRule.rulingOf? (kind l).rules ⟨Path.unite (l.below ++ [name])⟩ isDir
  first (·.general) <|> first (·.versioned) <|> first (·.excluded)

end IgnoreLayer

end Citator

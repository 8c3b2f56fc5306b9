import Citator.Path.Relative

/-!
# `Citator.Disk.Basic` — a tree of directories, and where a path leads in it

A disk is a finite tree of files, directories and symbolic links, together with the directory that
relative paths start from. Paths are followed one segment after the other. A link is followed wherever
it stands, its target being put in place of its name; at most forty links are followed for one path,
so a circle of links is found out.

Every question about a path, whether it exists, where it really lies, what it holds, is answered from
`locate`, so the answers agree.

Files are read from a disk and from memory, and the two fail in ways of their own. The causes of both
stand in one type, since whoever reads a file does not ask where it lies.
-/

namespace Citator

/-! ## 1. Why a file cannot be read -/

/-- Why a file cannot be read. -/
inductive ReadCause where
  /-- The file is registered as unreadable. -/
  | locked
  /-- The corpus has no such file. -/
  | absent
  | noSuchFile
  | notADirectory
  | isADirectory
  | tooManyLinks
  | nameTooLong
  /-- The path holds the byte zero, which no path on a disk does. -/
  | holdsZero
  /-- The file was to be read as text, and its bytes are none. -/
  | notText
  deriving DecidableEq, Repr

def ReadCause.message : ReadCause → String
  | .locked => "unreadable"
  | .absent => "not in corpus"
  | .noSuchFile => "No such file or directory (os error 2)"
  | .notADirectory => "Not a directory (os error 20)"
  | .isADirectory => "Is a directory (os error 21)"
  | .tooManyLinks => "Too many levels of symbolic links (os error 40)"
  | .nameTooLong => "File name too long (os error 36)"
  | .holdsZero => "file name contained an unexpected NUL byte"
  | .notText => "stream did not contain valid UTF-8"

/-- A file that cannot be read, and why. -/
structure ReadFailure where
  path : Path
  cause : ReadCause
  deriving DecidableEq, Repr

def ReadFailure.message (f : ReadFailure) : String :=
  "Failed to read " ++ f.path.shown ++ ": " ++ f.cause.message

/-! ## 2. The tree -/

/-- What can stand under a name in a directory. -/
inductive Entry where
  | file (content : Bytes)
  | link (target : Path)
  | dir (entries : List (Bytes × Entry))
  deriving Repr, Inhabited

abbrev Directory := List (Bytes × Entry)

/-- A tree of directories, and the absolute path that relative paths are joined to. -/
structure Disk where
  top : Directory := []
  here : Path := .ofString "/"

/-- The directory or file that a path leads to, with the names on the direct way there. -/
inductive Located where
  | directory (names : List Bytes) (entries : Directory)
  | file (names : List Bytes) (content : Bytes)

def Located.names : Located → List Bytes
  | .directory ns _ => ns
  | .file ns _ => ns

/-- The path of a sequence of names from the top. -/
def Path.ofNames (names : List Bytes) : Path := ⟨slash :: unite names⟩

namespace Disk

/-! ## 3. Following a path -/

def nameLimit : Nat := 255

def pathLimit : Nat := 4096

/-- The number of links that are followed for one path. -/
def linkLimit : Nat := 40

/-- The contents of the directory at the end of a trail. A trail holds the directories that were
entered with their names, innermost first. -/
def entriesAt (top : Directory) (trail : List (Bytes × Directory)) : Directory :=
  match trail with
  | [] => top
  | (_, entries) :: _ => entries

def namesAlong (trail : List (Bytes × Directory)) : List Bytes := trail.reverse.map (·.1)

/-- Where segments lead from the end of a trail. `jump` goes on from a link with the segments of its
target, if another link may be followed. -/
def followSegments (top : Directory)
    (jump : Option (List (Bytes × Directory) → List Bytes → Except ReadCause Located))
    (trail : List (Bytes × Directory)) : List Bytes → Except ReadCause Located
  | [] => .ok (.directory (namesAlong trail) (entriesAt top trail))
  | s :: rest =>
    if s = [] ∨ s = [Path.dot] then followSegments top jump trail rest
    else if s = [Path.dot, Path.dot] then followSegments top jump trail.tail rest
    else if nameLimit < s.length then .error .nameTooLong
    else
      match (entriesAt top trail).lookup s with
      | none => .error .noSuchFile
      | some (.dir entries) => followSegments top jump ((s, entries) :: trail) rest
      | some (.file content) =>
        if rest = [] then .ok (.file (namesAlong trail ++ [s]) content)
        else .error .notADirectory
      | some (.link target) =>
        match jump with
        | none => .error .tooManyLinks
        | some follow =>
          follow (if target.isAbsolute then [] else trail) (Path.segments target.bytes ++ rest)

/-- Where segments lead when so many links may be followed. -/
def follow (top : Directory) :
    Nat → List (Bytes × Directory) → List Bytes → Except ReadCause Located
  | 0 => followSegments top none
  | links + 1 => followSegments top (some (follow top links))

/-- Where a path leads. The empty path leads nowhere. -/
def locate (d : Disk) (p : Path) : Except ReadCause Located :=
  if p.bytes.contains 0 then .error .holdsZero
  else if p.bytes = [] then .error .noSuchFile
  else if pathLimit ≤ p.bytes.length then .error .nameTooLong
  else follow d.top linkLimit [] (Path.segments (d.here.join p).bytes)

/-! ## 4. Questions about a path -/

def doesExist (d : Disk) (p : Path) : Bool :=
  match d.locate p with
  | .ok _ => true
  | .error _ => false

def isDirectory (d : Disk) (p : Path) : Bool :=
  match d.locate p with
  | .ok (.directory ..) => true
  | _ => false

def isFile (d : Disk) (p : Path) : Bool :=
  match d.locate p with
  | .ok (.file ..) => true
  | _ => false

/-- The absolute path without links, `.` and `..` that a path stands for. -/
def canonical (d : Disk) (p : Path) : Except ReadCause Path :=
  (d.locate p).map fun l => .ofNames l.names

/-- The path that identifies a file: the canonical one, or the path itself if it leads nowhere. -/
def identity (d : Disk) (p : Path) : Path :=
  match d.canonical p with
  | .ok q => q
  | .error _ => p

def read (d : Disk) (p : Path) : Except ReadCause Bytes :=
  match d.locate p with
  | .ok (.file _ content) => .ok content
  | .ok (.directory ..) => .error .isADirectory
  | .error e => .error e

/-! ## 5. Building a disk -/

/-- A directory with an entry put under a name, in place of the one that is there. -/
def putEntry (name : Bytes) (e : Entry) : Directory → Directory
  | [] => [(name, e)]
  | (n, old) :: rest => if n = name then (n, e) :: rest else (n, old) :: putEntry name e rest

/-- A directory with an entry at the end of a sequence of names. Directories on the way are made as
needed, and whatever else stands in the way is replaced by one. -/
def putAt (e : Entry) : List Bytes → Directory → Directory
  | [], entries => entries
  | [n], entries => putEntry n e entries
  | n :: ns, entries =>
    match entries.lookup n with
    | some (.dir inner) => putEntry n (.dir (putAt e ns inner)) entries
    | _ => putEntry n (.dir (putAt e ns [])) entries

/-- The ordinary names among the components of a path. -/
def namesOf (p : Path) : List Bytes :=
  p.components.filterMap fun
    | .name n => some n
    | _ => none

/-- The disk with an entry at an absolute path, whose directories are made as needed. The directory
that a path lies in is reached through links. A directory that is there already stays as it is. -/
def insert (d : Disk) (p : Path) (e : Entry) : Disk :=
  match (namesOf p).reverse with
  | [] => d
  | name :: above =>
    let parent :=
      match d.locate (.ofNames above.reverse) with
      | .ok (.directory ns _) => ns
      | _ => above.reverse
    match e with
    | .dir [] =>
      if d.isDirectory p then d else { d with top := putAt e (parent ++ [name]) d.top }
    | _ => { d with top := putAt e (parent ++ [name]) d.top }

end Disk
end Citator

import Citator.Ignore.Layer
import Citator.Corpus.Snapshot

/-!
# `Citator.Scan` — the source files below a directory

A scanner lists the files below a root that have one of its extensions. It goes into real directories
only and lists real files only, so links below the root do not count; the root itself may be a link.
Entries come in the order of their names, byte by byte, and what lies in a directory comes in the
place of the directory.

A hidden entry, one whose name starts with a dot, is passed over unless hidden entries are asked for
or an ignore rule takes it back in. An ignored entry is passed over with all that lies in it. The root
is never passed over, whatever it is called.

A fault in an ignore file is passed over if the file lies in the root or below it. Above the root it is
an error, and nothing is listed.

The walk works on names and knows nothing of how the root is spelled; the paths that come out are the
root's own text joined with the names.
-/

namespace Citator

/-- What is scanned for. -/
structure ScanOptions where
  /-- The extensions, as configured. -/
  extensions : List String := defaultExtensions
  /-- Whether ignore files count. -/
  respectIgnores : Bool := false
  includeHidden : Bool := false
  deriving DecidableEq, Repr, Inhabited

/-- Lists the source files below a root. -/
structure Scanner where
  root : Path
  glob : Glob
  respectIgnores : Bool
  includeHidden : Bool

namespace Scanner

def ofOptions (d : Disk) (root : Path) (options : ScanOptions) : Except CorpusError Scanner :=
  if d.isDirectory root then
    (Extension.glob (Extension.normalize options.extensions)).map fun glob =>
      { root, glob, respectIgnores := options.respectIgnores,
        includeHidden := options.includeHidden }
  else .error (.notADirectory root)

/-! ## 1. The walk -/

def isHidden (name : Bytes) : Bool := name.head? == some Path.dot

def admits (s : Scanner) (layers : List IgnoreLayer) (name : Bytes) (isDir : Bool) : Bool :=
  match IgnoreLayer.rulingOf? layers name isDir with
  | some .ignored => false
  | some .kept => true
  | none => s.includeHidden || !isHidden name

/-- The layers for the entries of the directory at the given names below the root, added to those of
the directories above. -/
def withLayer (s : Scanner) (d : Disk) (names : List Bytes) (above : List IgnoreLayer) :
    List IgnoreLayer :=
  if s.respectIgnores then .ofDirectory d (s.root.join ⟨Path.unite names⟩) [] :: above else []

/-- What the entries of a directory contribute, in the order of their names. -/
def inOrder {α : Type} (parts : List (Bytes × List α)) : List α :=
  (parts.mergeSort fun a b => decide (a.1 ≤ b.1)).flatMap (·.2)

mutual

/-- The files that an entry contributes, each as its names below the root. `above` are the names of
its directory. -/
def filesAt (s : Scanner) (d : Disk) (layers : List IgnoreLayer) (above : List Bytes)
    (name : Bytes) : Entry → List (List Bytes)
  | .link _ => []
  | .file _ =>
    let names := above ++ [name]
    if s.admits layers name false && s.glob.isMatch ⟨Path.unite names⟩ then [names] else []
  | .dir entries =>
    let names := above ++ [name]
    if s.admits layers name true then
      inOrder (filesIn s d (s.withLayer d names (layers.map (·.enter name))) names entries)
    else []

/-- The files that each entry of a directory contributes. -/
def filesIn (s : Scanner) (d : Disk) (layers : List IgnoreLayer) (above : List Bytes) :
    List (Bytes × Entry) → List (Bytes × List (List Bytes))
  | [] => []
  | (name, e) :: rest => (name, filesAt s d layers above name e) :: filesIn s d layers above rest

end

/-- The layers of the directories above the root, innermost first. -/
def layersAbove (s : Scanner) (d : Disk) (rootNames : List Bytes) : List IgnoreLayer :=
  if s.respectIgnores then IgnoreLayer.above d [] rootNames else []

/-- The files below the root, each as its names. -/
def names (s : Scanner) (d : Disk) : List (List Bytes) :=
  match d.locate s.root with
  | .ok (.directory rootNames entries) =>
    inOrder (s.filesIn d (s.withLayer d [] (s.layersAbove d rootNames)) [] entries)
  | _ => []

/-- What is wrong with the ignore files above the root, those of the outermost directory first. -/
def faults (s : Scanner) (d : Disk) : List IgnoreFault :=
  match d.locate s.root with
  | .ok l => (s.layersAbove d l.names).reverse.flatMap (·.faults)
  | .error _ => []

/-! ## 2. The corpus on a disk -/

def files (s : Scanner) (d : Disk) : List Path :=
  (s.names d).map fun ns => s.root.join ⟨Path.unite ns⟩

/-- The text of a file; malformed bytes are read as U+FFFD. -/
def read (d : Disk) (p : Path) : Except ReadCause String := (d.read p).map Utf8.lossy

def list (s : Scanner) (d : Disk) : Except CorpusError (List Path) :=
  match s.faults d with
  | [] => .ok (s.files d)
  | faults => .error (.badIgnoreFiles faults)

def toCorpus (s : Scanner) (d : Disk) : Except CorpusError Corpus :=
  (s.list d).map fun files => ⟨s.root, files, read d⟩

/-- What scanning reports that found the given files. -/
def log (s : Scanner) (found : List Path) : Log :=
  [⟨.debug, .scan, "Scanned " ++ s.root.shown ++ ": " ++ toString found.length ++
    " candidate files"⟩]

end Scanner
end Citator

import Citator.Corpus.Basic

/-!
# `Citator.Corpus.Memory` — where files come from, and a corpus that is held in memory

A `Corpus` is a root, a listing in a fixed order, and a way to read each file. Whoever loads one does
not ask whether a disk stands behind it.

`MemoryCorpus` is the one without a disk: an insertion-ordered map from paths to contents, where a
path is its components. A second insertion under the same path replaces the contents and leaves the
place and the spelling alone.
-/

namespace Citator

/-- A place that files can be listed and read from. -/
structure Corpus where
  root : Path
  /-- The files, in the order in which they are listed everywhere. -/
  files : List Path
  read : Path → Except ReadCause String

/-- The text of a file. A failure names the file as it was asked for. -/
def Corpus.text (c : Corpus) (p : Path) : Except ReadFailure String :=
  (c.read p).mapError fun cause => ⟨p, cause⟩

/-- Files held in memory. No contents means that the file is listed and cannot be read. -/
structure MemoryCorpus where
  root : Path
  entries : List (Path × Option String) := []

namespace MemoryCorpus

/-- The entries with the contents under a path set: in its place if it is there, at the end if it is
not. -/
def setEntry (path : Path) (content : Option String) :
    List (Path × Option String) → List (Path × Option String)
  | [] => [(path, content)]
  | (p, old) :: rest =>
    if p.Same path then (p, content) :: rest else (p, old) :: setEntry path content rest

/-- Registers contents under a path relative to the root. -/
def insert (m : MemoryCorpus) (relative : Path) (content : Option String) : MemoryCorpus :=
  { m with entries := setEntry (m.root.join relative) content m.entries }

def withFile (m : MemoryCorpus) (relative : Path) (content : String) : MemoryCorpus :=
  m.insert relative (some content)

/-- Registers a file that is listed and cannot be read. -/
def withUnreadable (m : MemoryCorpus) (relative : Path) : MemoryCorpus := m.insert relative none

/-- The corpus with the given files, inserted in order. -/
def ofList (root : Path) (files : List (Path × Option String)) : MemoryCorpus :=
  files.foldl (fun m f => m.insert f.1 f.2) { root }

def find? (path : Path) : List (Path × Option String) → Option (Option String)
  | [] => none
  | (p, content) :: rest => if p.Same path then some content else find? path rest

def read (m : MemoryCorpus) (path : Path) : Except ReadCause String :=
  match find? path m.entries with
  | some (some content) => .ok content
  | some none => .error .locked
  | none => .error .absent

def files (m : MemoryCorpus) : List Path := m.entries.map (·.1)

def toCorpus (m : MemoryCorpus) : Corpus := ⟨m.root, m.files, m.read⟩

end MemoryCorpus
end Citator

import Citator.Command.Run

/-!
# `Citator.Main` — the program

All that a run decides is decided by `Command.Outcome.ofArguments`, a function of the disk and the
arguments. What remains is to look at the real disk, as far as the run may ask about it, and to print.

The run asks about three things: what lies below the root, the ignore files of the directories above
it, and the configuration. Links are noted with the place they
really lead to, and not at all if they lead nowhere.
-/

namespace Citator.Program

/-- Notes what stands under an absolute path without links in front of its last name. -/
def note (d : Disk) (p : String) : IO Disk := do
  let here ← IO.currentDir
  match ← (here / p).symlinkMetadata.toBaseIO with
  | .error _ => return d
  | .ok info =>
    let place := Path.ofString p
    match info.type with
    | .dir => return d.insert place (.dir [])
    | .file =>
      match ← (IO.FS.readBinFile p).toBaseIO with
      | .ok content => return d.insert place (.file content.toList)
      | .error _ => return d
    | .symlink =>
      match ← (IO.FS.realPath p).toBaseIO with
      | .ok target => return d.insert place (.link (.ofString target.toString))
      | .error _ => return d
    | .other => return d

/-- Notes everything that is met on the way along a path, which starts at the directory `start`. -/
def noteWay (d : Disk) (start : String) : List String → IO Disk
  | [] => return d
  | name :: names => do
    match ← (IO.FS.realPath start).toBaseIO with
    | .error _ => return d
    | .ok real =>
      let next := (real / name).toString
      let d ← if name = "" ∨ name = "." ∨ name = ".." then pure d else note d next
      match ← (IO.FS.realPath next).toBaseIO with
      | .error _ => return d
      | .ok target =>
        let d ← note d target.toString
        noteWay d target.toString names

def segmentTexts (p : Path) : List String := (Path.segments p.bytes).map Utf8.lossy

def notePath (d : Disk) (p : Path) : IO Disk :=
  noteWay d "/" (segmentTexts (d.here.join p))

/-- Notes the ignore files of a directory, and what says where they lie. -/
def noteIgnoreFiles (d : Disk) (dir : Path) : IO Disk := do
  let mark := dir.join (.ofString ".git")
  let mut d ← notePath d (dir.join (.ofString ".ignore"))
  d ← notePath d (dir.join (.ofString ".gitignore"))
  d ← notePath d mark
  if let .ok (some line) := IgnoreFile.firstLine? d mark then
    if let some data := IgnoreFile.dataOf? line then
      d ← notePath d (data.join (.ofString "commondir"))
  if let .ok (some repository) := IgnoreFile.repository? d dir then
    d ← notePath d (repository.join (.ofString "info/exclude"))
  return d

partial def noteBelow (d : Disk) (dir : String) : IO Disk := do
  let real ← IO.FS.realPath dir
  let mut d ← noteIgnoreFiles d (.ofString dir)
  for e in ← real.readDir do
    let p := e.path.toString
    d ← note d p
    if let .ok info ← e.path.symlinkMetadata.toBaseIO then
      if let .dir := info.type then d ← noteBelow d p
  return d

/-- The beginnings of a list that lack its end. -/
def beginnings {α : Type} : List α → List (List α)
  | [] => []
  | a :: as => [] :: (beginnings as).map (a :: ·)

/-- The directories above a path without links, the first of them `/`. -/
def directoriesAbove (p : Path) : List Path := (beginnings (Disk.namesOf p)).map Path.ofNames

/-- The part of the real disk that a run may ask about. -/
def look (inv : Command.Invocation) : IO Disk := do
  let d : Disk := { here := .ofString (← IO.currentDir).toString }
  let root := inv.root.getD d.here
  let mut d ← notePath d d.here
  d ← notePath d root
  if let .ok real := d.canonical root then
    if d.isDirectory real then
      for above in directoriesAbove real do
        d ← noteIgnoreFiles d above
      d ← noteBelow d real.shown
    d ← notePath d (inv.config.getD (Config.defaultPath real))
  return d

def run (args : List String) : IO UInt32 := do
  let d ←
    match Command.Invocation.ofArguments args with
    | .ok inv => look inv
    | .error _ => pure {}
  let out := Command.Outcome.ofArguments d args
  (← IO.getStderr).putStr out.stderr
  (← IO.getStdout).putStr out.stdout
  return out.exit.toUInt32

end Citator.Program

def main (args : List String) : IO UInt32 := Citator.Program.run args

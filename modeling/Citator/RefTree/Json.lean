import Citator.RefTree.Basic
import Citator.Json.Basic
import Citator.Json.Structure

/-!
# `Citator.RefTree.Json` — trees as JSON

A node is an object with its file name and, if it has any, its links. There is no JSON text for a file
name that is not well formed, and so none for a tree that holds one.

Reading accepts more than writing produces: members in any order, members that nobody asked for, an
empty list of links, and a node given as a list of its two fields. What it does not accept is a text
nested more than 127 deep. A node takes two levels, one for itself and one for its links, so the trees
that can be written and not read are those of height 64 and more.
-/

namespace Citator.RefTree

open Json Json.Reading

/-! ## 1. Writing -/

mutual

def toJson? : RefTree → Option Json
  | .node f ls =>
    match f.text?, toJsonAll? ls with
    | some name, some [] => some (.object [("filename", .text name)])
    | some name, some (v :: vs) =>
      some (.object [("filename", .text name), ("links", .array (v :: vs))])
    | _, _ => none

def toJsonAll? : List RefTree → Option (List Json)
  | [] => some []
  | t :: ts =>
    match t.toJson?, toJsonAll? ts with
    | some v, some vs => some (v :: vs)
    | _, _ => none

end

def noJsonMessage : String := "path contains invalid UTF-8 characters"

/-! ## 2. Reading -/

/-- The greatest number of arrays and objects inside each other. -/
def nestingLimit : Nat := 127

/-- A node given as a list: its file name, and its links unless they are left out. -/
def readInOrder (links : Reading (List RefTree)) : Reading RefTree := do
  match ← fieldInOrder true (text .path) with
  | none => fail (.tooShort 0 (.record "Node") 2)
  | some file =>
    match ← fieldInOrder false links with
    | none => return .leaf (.ofString file)
    | some ls => return .node (.ofString file) ls

/-- A member of a node given as an object. Members with other names are passed over. -/
def readMember (links : Reading (List RefTree)) (soFar : Option String × Option (List RefTree))
    (key : String) : Reading (Option String × Option (List RefTree)) := do
  if key = "filename" then return (some (← fieldByName key soFar.1 (text .path)), soFar.2)
  else if key = "links" then return (soFar.1, some (← fieldByName key soFar.2 links))
  else
    colon
    bounded skipValue
    return soFar

def readByName (links : Reading (List RefTree)) : Reading RefTree := do
  match ← bounded fun n => members (readMember links) n true (none, none) with
  | (none, _) => fail (.missingField "filename")
  | (some file, ls) => return .node (.ofString file) (ls.getD [])

/-- A tree, if so many levels of nesting are left. -/
def readTree : Nat → Reading RefTree
  | 0 => record "Node" none none
  | 1 => record "Node" (some (readInOrder (list none))) (some (readByName (list none)))
  | levels + 2 =>
    let links := list (some (readTree levels))
    record "Node" (some (readInOrder links)) (some (readByName links))

def ofJson (bytes : Bytes) : Except JsonError RefTree := run (readTree nestingLimit) bytes

end Citator.RefTree

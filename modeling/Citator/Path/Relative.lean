import Citator.Path.Basic
import Citator.Text.Plain

/-!
# `Citator.Path.Relative` — joining paths, taking them apart, and their file names

The operations that give a path back. Joining keeps both texts as they are. Removing a base compares
components but answers with *text*: what is left of the path after the components of the base, less
the empty and `.` segments at either end. So `/p/src//a.ts` less `/p` is `src//a.ts`, doubled
separator included, and `/p/./a` less `/p` is `a`.
-/

namespace Citator.Path

/-! ## 1. Joining -/

/-- `p` followed by `q`. An absolute `q` replaces `p`; otherwise a separator is put between them
unless `p` is empty or ends with one. Joining the empty path adds just the separator. -/
def join (p q : Path) : Path :=
  if q.isAbsolute then q
  else if p.bytes = [] ∨ p.bytes.getLast? = some slash then ⟨p.bytes ++ q.bytes⟩
  else ⟨p.bytes ++ slash :: q.bytes⟩

/-! ## 2. Removing a base -/

def isTrivial (s : Bytes) : Bool := (Component.ofSegment? s).isNone

/-- The segments that follow those of the given components; none if the components differ. -/
def afterComponents? : List Component → List Bytes → Option (List Bytes)
  | [], ss => some ss
  | _ :: _, [] => none
  | c :: cs, s :: ss =>
    match Component.ofSegment? s with
    | none => afterComponents? (c :: cs) ss
    | some d => if c = d then afterComponents? cs ss else none

/-- The text of a path without the trivial segments at its end. -/
def withoutTrivialEnd (p : Path) : Path :=
  match p.lead with
  | (some .root, ss) => ⟨slash :: unite (Text.dropEndWhile isTrivial ss)⟩
  | (some _, ss) => ⟨unite ([dot] :: Text.dropEndWhile isTrivial ss)⟩
  | (none, ss) => ⟨unite (Text.dropEndWhile isTrivial ss)⟩

/-- The rest of `p` after the components of `base`, as text, if `p` starts with them. -/
def strip? (p base : Path) : Option Path :=
  let rest (cs : List Component) (ss : List Bytes) : Option Path :=
    (afterComponents? cs ss).map fun left =>
      ⟨unite (Text.dropEndWhile isTrivial (left.dropWhile isTrivial))⟩
  match base.components, p.lead with
  | [], _ => some p.withoutTrivialEnd
  | c :: cs, (some d, ss) => if c = d then rest cs ss else none
  | c :: cs, (none, ss) => rest (c :: cs) ss

/-- Whether the last components of `p` are those of `q`. -/
def endsWith (p q : Path) : Bool := q.components.isSuffixOf p.components

/-! ## 3. File names -/

/-- The last component, if it is an ordinary name. -/
def fileName? (p : Path) : Option Bytes :=
  match p.components.getLast? with
  | some (.name n) => some n
  | _ => none

/-- A name cut at its last dot: what stands before it and what after, or `none` if it has no dot. -/
def cutAtLastDot? : Bytes → Option (Bytes × Bytes)
  | [] => none
  | b :: bs =>
    match cutAtLastDot? bs with
    | some (front, back) => some (b :: front, back)
    | none => if b = dot then some ([], bs) else none

/-- A name without its last dot and what follows. A name whose only dot stands in front has no
extension and is kept whole. -/
def stemOfName (n : Bytes) : Bytes :=
  match cutAtLastDot? n with
  | some (b :: front, _) => b :: front
  | _ => n

def fileStem? (p : Path) : Option Bytes := p.fileName?.map stemOfName

def forwardSlashes (s : String) : String :=
  String.ofList (s.toList.map fun c => if c = '\\' then '/' else c)

/-- How a path is shown to a reader: relative to `base` if it lies strictly below it, in full
otherwise, with forward slashes in either case. -/
def display (p : Path) (base : Option Path) : String :=
  let seen := ((base.bind p.strip?).filter fun r => !r.bytes.isEmpty).getD p
  forwardSlashes seen.shown

end Citator.Path

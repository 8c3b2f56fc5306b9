import Citator.Text.Utf8

/-!
# `Citator.Path.Basic` — paths, and when two of them name the same file

A path is a string of bytes, kept exactly as it was written or joined, because it is shown again
and again. What it *names* is the sequence of its components, and every comparison of paths in this
library is a comparison of components: a doubled, inner or trailing separator and an inner `.` do
not count, a leading `.` does, and `..` is never resolved.

Both views hang on one function, `segments`, which cuts the bytes at every separator and loses
nothing (`List.intercalate_splitOn`). The operations that have to give text back (`Path.Relative`) work
on segments, the comparisons on the components that the segments stand for.
-/

namespace Citator

/-- A path, as text. -/
structure Path where
  bytes : Bytes
  deriving DecidableEq, Repr, Inhabited

namespace Path

def slash : UInt8 := 0x2F

def dot : UInt8 := 0x2E

def ofString (s : String) : Path := ⟨Utf8.encode s⟩

/-- The path as it is shown: malformed bytes appear as U+FFFD. -/
def shown (p : Path) : String := Utf8.lossy p.bytes

def text? (p : Path) : Option String := Utf8.decode? p.bytes

/-! ## 1. Segments -/

/-- A byte string cut at every separator: one segment more than there are separators. -/
def segments (bs : Bytes) : List Bytes := bs.splitOn slash

/-- Segments put together again with separators between them. -/
def unite (ss : List Bytes) : Bytes := [slash].intercalate ss

theorem unite_cons_cons (s t : Bytes) (ss : List Bytes) :
    unite (s :: t :: ss) = s ++ slash :: unite (t :: ss) := by
  rw [unite, List.intercalate_cons_cons, List.append_assoc]
  rfl

/-! ## 2. Components -/

/-- A component of a path. -/
inductive Component where
  /-- The `/` that an absolute path starts with. -/
  | root
  /-- A `.` that a relative path starts with. -/
  | current
  /-- A `..`, wherever it stands. -/
  | parent
  /-- An ordinary name. -/
  | name (n : Bytes)
  deriving DecidableEq, Repr

/-- What a segment after the first stands for: nothing if it is empty or `.`. -/
def Component.ofSegment? (s : Bytes) : Option Component :=
  if s = [] ∨ s = [dot] then none
  else if s = [dot, dot] then some .parent
  else some (.name s)

def isAbsolute (p : Path) : Bool := p.bytes.head? == some slash

/-- A path divided into its special first component, if it has one, and the segments that remain:
the root of an absolute path, or the leading `.` of a relative one. -/
def lead (p : Path) : Option Component × List Bytes :=
  match segments p.bytes with
  | [] => (none, [])
  | s :: ss =>
    if p.isAbsolute then (some .root, ss)
    else if s = [dot] then (some .current, ss)
    else (none, s :: ss)

def components (p : Path) : List Component :=
  p.lead.1.toList ++ p.lead.2.filterMap Component.ofSegment?

/-- Two paths are the same if their components are, whatever their texts. -/
def Same (p q : Path) : Prop := p.components = q.components

instance (p q : Path) : Decidable (p.Same q) := inferInstanceAs (Decidable (_ = _))

theorem Same.refl (p : Path) : p.Same p := rfl

theorem Same.symm {p q : Path} (h : p.Same q) : q.Same p := Eq.symm h

theorem Same.trans {p q r : Path} (h : p.Same q) (h' : q.Same r) : p.Same r := Eq.trans h h'

/-- Whether a path in the list is the same as `p`. -/
def memSame (p : Path) (ps : List Path) : Bool := ps.any fun q => decide (q.Same p)

/-- Paths with their components, without those whose components came before. -/
def firstOfEach : List (List Component × Path) → List (List Component × Path)
  | [] => []
  | x :: xs => x :: (firstOfEach xs).filter fun y => !decide (x.1 = y.1)

/-- The list without later repetitions of a path: the first spelling stays. -/
def distinct (ps : List Path) : List Path :=
  (firstOfEach (ps.map fun p => (p.components, p))).map (·.2)

theorem components_of_mem_firstOfEach {ps : List Path} {x : List Component × Path}
    (h : x ∈ firstOfEach (ps.map fun p => (p.components, p))) : x.1 = x.2.components := by
  induction ps with
  | nil => simp [firstOfEach] at h
  | cons p ps ih =>
    simp only [List.map_cons, firstOfEach, List.mem_cons, List.mem_filter] at h
    rcases h with rfl | h
    · rfl
    · exact ih h.1

theorem distinct_nil : distinct [] = [] := rfl

theorem distinct_cons (p : Path) (ps : List Path) :
    distinct (p :: ps) = p :: (distinct ps).filter fun q => !decide (p.Same q) := by
  simp only [distinct, List.map_cons, firstOfEach, List.filter_map, List.cons.injEq, true_and]
  congr 1
  refine List.filter_congr fun x hx => ?_
  simp only [Function.comp_apply, Same, components_of_mem_firstOfEach hx]
  rfl

end Path
end Citator

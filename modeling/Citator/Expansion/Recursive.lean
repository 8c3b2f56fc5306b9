import Citator.Expansion.Basic

/-!
# `Citator.Expansion.Recursive` — what an expansion is

The definition of the answer, by recursion on the tree: search for the referrers of a file; attach
them in order, each with its verdict, until the tree is full; then, with all of them attached, expand
the scheduled ones in order, each completely before the next. One `Progress` is threaded through
everything, so a file that is scheduled anywhere is expanded nowhere else.

All of it is given as rules. For the recursion there is no other way: nothing in its arguments grows
smaller, only the files that are not yet visited grow fewer. `Grows` has the expansions that come to
an end and `Halts` those that come upon a file without a token; that every expansion is one or the
other is a theorem, and not part of the definition. Attaching could be a function, and is one where an
expansion is carried out; here it has rules as well (`Attaches`), one for each thing that can become of
a link, so what is decided, marked and counted can be read off without the program.
-/

namespace Citator

/-- The counts with one node more, at the given depth. -/
def Stats.withNode (s : Stats) (depth : Nat) : Stats :=
  { s with nodes := s.nodes + 1, maxDepthReached := max s.maxDepthReached depth }

namespace Inquiry

/-- `q.Attaches depth found p links p'`: attaching the found files at the given depth, in order and
from the progress `p`, makes the links with their verdicts and leaves the progress `p'`. -/
inductive Attaches (q : Inquiry) (depth : Nat) :
    List Path → Progress → List (Path × Verdict) → Progress → Prop where
  | done {p : Progress} : Attaches q depth [] p [] p
  /-- Where the tree is full nothing more is attached, and it was cut short. -/
  | full {f : Path} {fs : List Path} {p : Progress} {max : Nat}
      (hmax : q.limits.maxNodes = some max) (hfull : max ≤ p.stats.nodes) :
      Attaches q depth (f :: fs) p [] { p with stats := { p.stats with truncated := true } }
  /-- First it is asked whether the file was visited, -/
  | visited {f : Path} {fs : List Path} {links : List (Path × Verdict)} {p p' : Progress}
      (room : ∀ max, q.limits.maxNodes = some max → p.stats.nodes < max)
      (old : ∃ k ∈ p.visited, k.Same (q.key f))
      (rest : Attaches q depth fs
        { p with stats :=
          { p.stats.withNode depth with skippedVisited := p.stats.skippedVisited + 1 } } links p') :
      Attaches q depth (f :: fs) p ((f, .visited) :: links) p'
  /-- then whether the gate admits it, -/
  | gated {f : Path} {fs : List Path} {links : List (Path × Verdict)} {p p' : Progress}
      (room : ∀ max, q.limits.maxNodes = some max → p.stats.nodes < max)
      (new : ∀ k ∈ p.visited, ¬ k.Same (q.key f)) (gate : q.admits f = false)
      (rest : Attaches q depth fs
        { p with stats :=
          { p.stats.withNode depth with skippedGate := p.stats.skippedGate + 1 } } links p') :
      Attaches q depth (f :: fs) p ((f, .gated) :: links) p'
  /-- and last whether it lies too deep. -/
  | tooDeep {f : Path} {fs : List Path} {links : List (Path × Verdict)} {p p' : Progress} {max : Nat}
      (room : ∀ max, q.limits.maxNodes = some max → p.stats.nodes < max)
      (new : ∀ k ∈ p.visited, ¬ k.Same (q.key f)) (gate : q.admits f = true)
      (hmax : q.limits.maxDepth = some max) (hdeep : max ≤ depth)
      (rest : Attaches q depth fs
        { p with stats :=
          { p.stats.withNode depth with skippedDepth := p.stats.skippedDepth + 1 } } links p') :
      Attaches q depth (f :: fs) p ((f, .tooDeep) :: links) p'
  /-- A link with nothing against it is scheduled. Its file counts as visited from here on, before the
  next file is looked at. -/
  | scheduled {f : Path} {fs : List Path} {links : List (Path × Verdict)} {p p' : Progress}
      (room : ∀ max, q.limits.maxNodes = some max → p.stats.nodes < max)
      (new : ∀ k ∈ p.visited, ¬ k.Same (q.key f)) (gate : q.admits f = true)
      (shallow : ∀ max, q.limits.maxDepth = some max → depth < max)
      (rest : Attaches q depth fs
        { p with visited := q.key f :: p.visited, stats := p.stats.withNode depth } links p') :
      Attaches q depth (f :: fs) p ((f, .scheduled) :: links) p'

/-- `q.Opens depth f found p links p'`: a node for `f` is expanded. The search for its referrers is
answered, counted and recorded, and what was found is attached at the given depth. -/
structure Opens (q : Inquiry) (depth : Nat) (f : Path) (found : List Path) (p : Progress)
    (links : List (Path × Verdict)) (p' : Progress) : Prop where
  look : q.referrers f = .ok found
  attaches : q.Attaches depth found
    { p with
      stats := { p.stats with expanded := p.stats.expanded + 1 }
      lookups := ⟨f, found.length⟩ :: p.lookups } links p'

/-- `q.Grows depth links p ts p'`: the attached links at the given depth, worked off in order from
the progress `p`, become the trees `ts` and leave the progress `p'`. -/
inductive Grows (q : Inquiry) :
    Nat → List (Path × Verdict) → Progress → List RefTree → Progress → Prop where
  | done {depth : Nat} {p : Progress} : Grows q depth [] p [] p
  /-- A link that is not scheduled stays a leaf. -/
  | leaf {depth : Nat} {f : Path} {v : Verdict} {rest : List (Path × Verdict)} {p p' : Progress}
      {ts : List RefTree} (hv : v ≠ .scheduled) (after : Grows q depth rest p ts p') :
      Grows q depth ((f, v) :: rest) p (.leaf f :: ts) p'
  /-- A scheduled link is searched for, all its referrers are attached, and what is below it is done
  before the links that come after it. -/
  | node {depth : Nat} {f : Path} {rest links : List (Path × Verdict)} {found : List Path}
      {p p₂ p₃ p' : Progress} {ls ts : List RefTree}
      (opens : q.Opens (depth + 1) f found p links p₂)
      (below : Grows q (depth + 1) links p₂ ls p₃) (after : Grows q depth rest p₃ ts p') :
      Grows q depth ((f, .scheduled) :: rest) p (.node f ls :: ts) p'

/-- `q.Halts depth links p h`: working off the attached links at the given depth from the progress `p`
comes upon a file without a token. -/
inductive Halts (q : Inquiry) : Nat → List (Path × Verdict) → Progress → Halt → Prop where
  /-- A search that is not answered is not recorded. -/
  | here {depth : Nat} {f : Path} {rest : List (Path × Verdict)} {p : Progress} {e : EmptyTarget}
      (look : q.referrers f = .error e) :
      Halts q depth ((f, .scheduled) :: rest) p ⟨e, p.lookups⟩
  | inside {depth : Nat} {f : Path} {rest links : List (Path × Verdict)} {found : List Path}
      {p p₂ : Progress} {h : Halt} (opens : q.Opens (depth + 1) f found p links p₂)
      (halt : Halts q (depth + 1) links p₂ h) : Halts q depth ((f, .scheduled) :: rest) p h
  | afterLeaf {depth : Nat} {f : Path} {v : Verdict} {rest : List (Path × Verdict)} {p : Progress}
      {h : Halt} (hv : v ≠ .scheduled) (halt : Halts q depth rest p h) :
      Halts q depth ((f, v) :: rest) p h
  | afterNode {depth : Nat} {f : Path} {rest links : List (Path × Verdict)} {found : List Path}
      {p p₂ p₃ : Progress} {ls : List RefTree} {h : Halt}
      (opens : q.Opens (depth + 1) f found p links p₂)
      (below : Grows q (depth + 1) links p₂ ls p₃) (halt : Halts q depth rest p₃ h) :
      Halts q depth ((f, .scheduled) :: rest) p h

end Inquiry
end Citator

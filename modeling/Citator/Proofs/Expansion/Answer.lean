import Citator.Proofs.Citation.Referrers
import Citator.Proofs.Expansion.Simulation

/-!
# `Citator.Proofs.Expansion.Answer` — what a finder answers, said without a worklist

A finder runs a worklist, for at most as many steps as it computes from the size of its snapshot.
`Finder.Answers` says what it should answer in terms of the rules alone: what is asked, what is known
at the start, and what the root grows into. The main result is that the finder answers just that, for
every tree that it is handed, every snapshot, every extension list, every gate, every way of
identifying files and all bounds.

Later modules take an expansion apart with `answers_expandTree` and never look at a worklist again.
-/

namespace Citator

open Citator.Path

namespace Finder

variable {f : Finder} {t : RefTree}

theorem referrers_subset (f : Finder) (g : Path) (found : List Path)
    (h : f.inquiry.referrers g = .ok found) : found ⊆ f.snapshot.files.map (·.path) :=
  (Snapshot.referrers_sublist h).subset

theorem key_inquiry (f : Finder) : f.inquiry.key = f.key := rfl

theorem apart_initial (f : Finder) (root : Path) : Apart (f.initial root).visited :=
  List.pairwise_singleton _ _

/-! ## 1. What the rules answer -/

/-- What an expansion asks and where it begins: the questions are put to the finder's snapshot, the
root's key is visited, the root is counted, and nothing was searched for. -/
structure Begins (f : Finder) (root : Path) (q : Inquiry) (p : Progress) : Prop where
  referrers : q.referrers = f.snapshot.referrers f.extensions
  key : q.key = f.key
  admits : q.admits = f.admits
  limits : q.limits = f.limits
  visited : p.visited = [f.rootKey root]
  stats : p.stats =
    { filesScanned := f.snapshot.files.length, unreadableSkipped := f.snapshot.skipped.length,
      nodes := 1 }
  lookups : p.lookups = []

/-- What a finder answers for a tree, by the rules: the tree as it is if not even its root may be
expanded; otherwise the tree with what its root grows into behind its links, or the error of the
search that was not answered. -/
inductive Answers (f : Finder) (t : RefTree) : Except Halt (RefTree × Progress) → Prop where
  | unexpanded {q : Inquiry} {p : Progress} (begins : f.Begins t.file q p)
      (hmax : f.limits.maxDepth = some 0) : f.Answers t (.ok (t, p))
  | expanded {q : Inquiry} {p p' : Progress} {ls : List RefTree} (begins : f.Begins t.file q p)
      (hmax : f.limits.maxDepth ≠ some 0)
      (hg : q.Grows 0 [(t.file, .scheduled)] p [.node t.file ls] p') :
      f.Answers t (.ok (.node t.file (t.links ++ ls), p'))
  | halted {q : Inquiry} {p : Progress} {h : Halt} (begins : f.Begins t.file q p)
      (hmax : f.limits.maxDepth ≠ some 0) (hh : q.Halts 0 [(t.file, .scheduled)] p h) :
      f.Answers t (.error h)

theorem begins_iff {root : Path} {q : Inquiry} {p : Progress} :
    f.Begins root q p ↔ q = f.inquiry ∧ p = f.initial root := by
  constructor
  · obtain ⟨referrers, key, admits, limits⟩ := q
    obtain ⟨visited, stats, lookups⟩ := p
    rintro ⟨rfl, rfl, rfl, rfl, rfl, rfl, rfl⟩
    exact ⟨rfl, rfl⟩
  · rintro ⟨rfl, rfl⟩
    exact ⟨rfl, rfl, rfl, rfl, rfl, rfl, rfl⟩

theorem begins_inquiry (f : Finder) (root : Path) : f.Begins root f.inquiry (f.initial root) :=
  begins_iff.mpr ⟨rfl, rfl⟩

theorem rootIsLeaf_eq_true_iff : f.inquiry.rootIsLeaf = true ↔ f.limits.maxDepth = some 0 := by
  simp [Inquiry.rootIsLeaf, inquiry]

/-! ## 2. The worklist has time to finish -/

/-- From the root alone an expansion that comes to an end makes one tree, whose root it is. -/
theorem grows_or_halts (f : Finder) (root : Path) :
    (∃ ls p, f.inquiry.Grows 0 [(root, .scheduled)] (f.initial root) [.node root ls] p) ∨
      ∃ h, f.inquiry.Halts 0 [(root, .scheduled)] (f.initial root) h := by
  rcases Inquiry.grows_or_halts f.referrers_subset _ 0 [(root, .scheduled)] (f.initial root)
    (f.apart_initial root) (Nat.le_refl _) with ⟨ts, p, hg⟩ | hh
  · cases hg with
    | leaf hv _ => exact absurd rfl hv
    | node opens below after =>
      cases after
      exact Or.inl ⟨_, _, .node opens below .done⟩
  · exact Or.inr hh

/-- The root and the files left to visit are no more than the bound on searches. -/
theorem unvisited_lt_searchBound (f : Finder) (visited : List Path) :
    f.inquiry.unvisited (f.snapshot.files.map (·.path)) visited < f.searchBound := by
  have hle := f.inquiry.unvisited_le_length (f.snapshot.files.map (·.path)) visited
  rw [List.length_map] at hle
  exact Nat.lt_succ_of_le hle

/-- **The searches fit the bound**, so the worklist is never cut off. -/
theorem lookups_le_searchBound {root : Path} {ls : List RefTree} {p : Progress}
    (hg : f.inquiry.Grows 0 [(root, .scheduled)] (f.initial root) [.node root ls] p) :
    p.lookups.length ≤ f.searchBound := by
  have hle := hg.lookups_le f.referrers_subset (f.apart_initial root)
  have hun := f.unvisited_lt_searchBound (f.initial root).visited
  have h0 : (f.initial root).lookups.length = 0 := rfl
  simp only [Inquiry.scheduled_cons_node, Inquiry.scheduled_nil, List.length_singleton] at hle
  omega

/-- A search that is not answered takes a step of the worklist as well, hence the strict inequality:
there is a step left for it. -/
theorem lookups_lt_searchBound {root : Path} {h : Halt}
    (hh : f.inquiry.Halts 0 [(root, .scheduled)] (f.initial root) h) :
    h.lookups.length < f.searchBound := by
  have hlt := hh.lookups_lt f.referrers_subset (f.apart_initial root)
  have hun := f.unvisited_lt_searchBound (f.initial root).visited
  have h0 : (f.initial root).lookups.length = 0 := rfl
  simp only [Inquiry.scheduled_cons_node, Inquiry.scheduled_nil, List.length_singleton] at hlt
  omega

/-! ## 3. What the finder answers -/

theorem Answers.expandTree_eq {r : Except Halt (RefTree × Progress)} (h : f.Answers t r) :
    f.expandTree t = r := by
  cases h with
  | unexpanded begins hmax =>
    obtain ⟨rfl, rfl⟩ := begins_iff.mp begins
    rw [expandTree, if_pos (rootIsLeaf_eq_true_iff.mpr hmax)]
  | expanded begins hmax hg =>
    obtain ⟨rfl, rfl⟩ := begins_iff.mp begins
    have hfuel := lookups_le_searchBound hg
    rw [expandTree, if_neg (fun hl => hmax (rootIsLeaf_eq_true_iff.mp hl)),
      Inquiry.expandRoot_of_grows hg (by simp only [initial, List.length_nil]; omega)]
    rfl
  | halted begins hmax hh =>
    obtain ⟨rfl, rfl⟩ := begins_iff.mp begins
    have hfuel := lookups_lt_searchBound hh
    rw [expandTree, if_neg (fun hl => hmax (rootIsLeaf_eq_true_iff.mp hl)),
      Inquiry.expandRoot_of_halts hh (by simp only [initial, List.length_nil]; omega)]
    rfl

theorem exists_answers (f : Finder) (t : RefTree) : ∃ r, f.Answers t r := by
  by_cases hmax : f.limits.maxDepth = some 0
  · exact ⟨_, .unexpanded (f.begins_inquiry _) hmax⟩
  · rcases f.grows_or_halts t.file with ⟨ls, p, hg⟩ | ⟨h, hh⟩
    · exact ⟨_, .expanded (f.begins_inquiry _) hmax hg⟩
    · exact ⟨_, .halted (f.begins_inquiry _) hmax hh⟩

/-- The answer by the rules exists and is the finder's, so the finder's is one by the rules. -/
theorem answers_expandTree (f : Finder) (t : RefTree) : f.Answers t (f.expandTree t) := by
  obtain ⟨r, hr⟩ := f.exists_answers t
  rwa [hr.expandTree_eq]

/-- **The worklist and the recursion agree.** A finder answers `r` for a tree if and only if `r` is
the answer by the rules: the same tree, the same visited keys, counts and searches, or the same
error after the same searches. -/
theorem expandTree_eq_iff_answers (f : Finder) (t : RefTree)
    (r : Except Halt (RefTree × Progress)) : f.expandTree t = r ↔ f.Answers t r := by
  constructor
  · rintro rfl
    exact f.answers_expandTree t
  · exact Answers.expandTree_eq

end Finder
end Citator

import Citator.Proofs.Expansion.Depth

/-!
# `Citator.Proofs.Expansion.Whole` — all of a file's referrers, or none

Which trees can come out of an expansion that has room for every node? A node is whole or bare: its
links are all the referrers of its file, or it has none. It is whole because it was expanded, and for
every file that stands somewhere in the tree where it may be expanded this happened just once. Not
necessarily there, and not necessarily before: a file that was met at the bound first is not visited,
and may be expanded later, in another place. But it happened, so a bare node is bare for a reason. Its
file has no referrers, or they stand elsewhere, or the gate or the bound on depth keeps them out.
-/

namespace Citator.Finder

open Citator.Path
open scoped List

/-- A file for which some node has to be expanded: the root's, or one that stands below the root where
it may be expanded. -/
def Due (f : Finder) (r : Path) (e : Expansion) (g : Path) : Prop :=
  f.limits.maxDepth ≠ some 0 ∧ g = r ∨
    ∃ n ∈ e.root.walk, 0 < n.1 ∧ n.2.file = g ∧ f.inquiry.Worth n.1 g

/-- What the tree of an expansion with room for every node is, if these are the nodes that were
expanded. -/
structure Whole (f : Finder) (r : Path) (e : Expansion) (expanded : List (Nat × RefTree)) : Prop where
  nodes : expanded <+ e.root.walk
  searches : e.lookups.map (·.file) = expanded.map (·.2.file)
  /-- What was not expanded is bare. -/
  bare : ∀ n ∈ e.root.walk, n ∉ expanded → n.2.links = []
  /-- The links are no referrers or all of them, -/
  links : ∀ n ∈ e.root.walk,
    n.2.links = [] ∨ f.snapshot.referrers f.extensions n.2.file = .ok (n.2.links.map (·.file))
  /-- in the order of the corpus, each once. -/
  order : ∀ n ∈ e.root.walk, n.2.links.map (·.file) <+ f.snapshot.files.map (·.path) ∧
    Apart (n.2.links.map (·.file))
  depth : ∀ max, f.limits.maxDepth = some max → ∀ n ∈ e.root.walk, n.1 ≤ max
  /-- Just one node was expanded for a file that was due, and it has all its referrers. -/
  due : ∀ g, f.Due r e g → (expanded.countP fun n => decide (n.2.file.Same g)) = 1 ∧
    ∃ n ∈ expanded, n.2.file = g ∧
      f.snapshot.referrers f.extensions g = .ok (n.2.links.map (·.file))
  /-- Below the root only what may be expanded has links. -/
  worth : ∀ n ∈ e.root.walk, n.2.links ≠ [] → n = (0, e.root) ∨ f.inquiry.Worth n.1 n.2.file

variable {f : Finder} {name : String} {r g : Path} {e : Expansion}

/-- If not even the root may be expanded, the tree is the root. -/
theorem whole_of_leaf (hmax : f.limits.maxDepth = some 0) (hroot : e.root = .leaf r)
    (hlook : e.lookups = []) : f.Whole r e [] := by
  have hwalk : e.root.walk = [(0, .leaf r)] := by rw [hroot, RefTree.walk_leaf]
  have hbare : ∀ n ∈ e.root.walk, n.2.links = [] := by
    intro n hn
    rw [hwalk] at hn
    rw [List.mem_singleton.mp hn]
    rfl
  constructor
  case nodes => exact List.nil_sublist _
  case searches => rw [hlook]; rfl
  case bare => exact fun n hn _ => hbare n hn
  case links => exact fun n hn => Or.inl (hbare n hn)
  case order =>
    intro n hn
    rw [hbare n hn]
    exact ⟨List.nil_sublist _, List.Pairwise.nil⟩
  case depth =>
    intro max _ n hn
    rw [hwalk] at hn
    rw [List.mem_singleton.mp hn]
    exact Nat.zero_le max
  case due =>
    rintro g (⟨hne, -⟩ | ⟨n, hn, hpos, -⟩)
    · exact absurd hmax hne
    · rw [hwalk] at hn
      rw [List.mem_singleton.mp hn] at hpos
      exact absurd hpos (Nat.lt_irrefl 0)
  case worth => exact fun n hn hne => absurd (hbare n hn) hne

namespace Course

variable {expanded : List (Nat × RefTree)}

/-- A file that was due was expanded. -/
theorem exists_of_due (hm : f.InMemory) (habs : f.snapshot.root.isAbsolute = true)
    (hr : r ∈ f.snapshot.files.map (·.path)) (hc : f.Course r e expanded) (hg : f.Due r e g) :
    ∃ m ∈ (0, e.root) :: expanded, m.2.file = g := by
  rcases hg with ⟨-, rfl⟩ | ⟨n, hn, hpos, rfl, hworth⟩
  · exact ⟨_, List.mem_cons_self, hc.file⟩
  · rw [RefTree.walk_eq_cons] at hn
    rcases List.mem_cons.mp hn with rfl | hn
    · exact absurd hpos (Nat.lt_irrefl 0)
    · exact hc.exists_of_worth hm habs hr hn hworth

theorem whole (hm : f.InMemory) (habs : f.snapshot.root.isAbsolute = true)
    (hnodes : f.limits.maxNodes = none) (hmax : f.limits.maxDepth ≠ some 0)
    (hr : r ∈ f.snapshot.files.map (·.path)) (hc : f.Course r e expanded) :
    f.Whole r e ((0, e.root) :: expanded) := by
  -- a node with links was expanded, so the links are its referrers
  have hlinks : ∀ n ∈ e.root.walk, n.2.links = [] ∨
      f.snapshot.referrers f.extensions n.2.file = .ok (n.2.links.map (·.file)) := by
    intro n hn
    cases hls : n.2.links with
    | nil => exact Or.inl rfl
    | cons c cs =>
      have hmem := hc.mem_of_mem_links hn (c := c) (by simp [hls])
      rw [← hls]
      exact Or.inr (hc.referrers_eq hnodes hmem)
  constructor
  case nodes =>
    rw [RefTree.walk_eq_cons]
    exact hc.nodes.cons_cons _
  case searches => exact hc.lookups_eq
  case bare =>
    intro n hn hnot
    by_contra hne
    obtain ⟨c, hlink⟩ := List.exists_mem_of_ne_nil _ hne
    exact hnot (hc.mem_of_mem_links hn hlink)
  case links => exact hlinks
  case order =>
    intro n hn
    rcases hlinks n hn with hnil | hall
    · rw [hnil]
      exact ⟨List.nil_sublist _, List.Pairwise.nil⟩
    · have hsub := Snapshot.referrers_sublist hall
      exact ⟨hsub, hm.apart.sublist hsub⟩
  case depth =>
    intro max hsome
    exact hc.depth_le hsome fun hzero => hmax (hzero ▸ hsome)
  case due =>
    intro g hg
    obtain ⟨m, hmem, rfl⟩ := hc.exists_of_due hm habs hr hg
    refine ⟨?_, m, hmem, rfl, hc.referrers_eq hnodes hmem⟩
    have hle := (hc.apart_expanded hm habs hr).countP_same_le_one m.2.file
    rw [List.countP_map] at hle
    have hpos : 0 < ((0, e.root) :: expanded).countP fun n => decide (n.2.file.Same m.2.file) :=
      List.countP_pos_iff.mpr ⟨m, hmem, by simpa using Same.refl m.2.file⟩
    exact Nat.le_antisymm hle hpos
  case worth =>
    intro n hn hne
    obtain ⟨c, hlink⟩ := List.exists_mem_of_ne_nil _ hne
    rcases List.mem_cons.mp (hc.mem_of_mem_links hn hlink) with hroot | hmem
    · exact Or.inl hroot
    · exact Or.inr (hc.worth n hmem)

end Course

/-- **Every build that has room for every node is whole.** -/
theorem whole_of_build (hm : f.InMemory) (habs : f.snapshot.root.isAbsolute = true)
    (hnodes : f.limits.maxNodes = none) (hr : f.resolveRoot? (.ofString name) = some r)
    (hb : f.build name = .ok e) : ∃ expanded, f.Whole r e expanded := by
  have hfile := file_rootNode_of_eq_some hr
  rcases (course_of_build hb).2 with ⟨hmax, hroot, hlook, -⟩ | ⟨hmax, expanded, hc⟩
  · rw [hfile] at hroot
    exact ⟨[], whole_of_leaf hmax hroot hlook⟩
  · rw [hfile] at hc
    exact ⟨_, hc.whole hm habs hnodes hmax (mem_of_resolveRoot? hr)⟩

/-- A chain, and a shorter way to its fourth file. -/
def chainAndShortcut : Finder :=
  ofTexts "/p" [("a.ts", ""), ("b.ts", "import './a'"), ("c.ts", "import './b'"),
    ("d.ts", "import './a'"), ("x.ts", "import './c'; import './d'"), ("y.ts", "import './x'")]

/-- The file is met too deep first and is bare there; it has its referrers in the other place. -/
theorem whole_of_build_chainAndShortcut :
    ∃ e expanded, (chainAndShortcut.withMaxDepth 3).build "a" = .ok e ∧
      e.root.listing 0 = [(0, .ofString "/p/a.ts"), (1, .ofString "/p/b.ts"),
        (2, .ofString "/p/c.ts"), (3, .ofString "/p/x.ts"), (1, .ofString "/p/d.ts"),
        (2, .ofString "/p/x.ts"), (3, .ofString "/p/y.ts")] ∧
      (chainAndShortcut.withMaxDepth 3).Whole (.ofString "/p/a.ts") e expanded := by
  have hm : (chainAndShortcut.withMaxDepth 3).InMemory := (inMemory_ofTexts _ _).withMaxDepth 3
  have habs : (chainAndShortcut.withMaxDepth 3).snapshot.root.isAbsolute = true := by decide +kernel
  have hr : (chainAndShortcut.withMaxDepth 3).resolveRoot? (.ofString "a") =
      some (.ofString "/p/a.ts") := by decide +kernel
  obtain ⟨e, hb, hlisting⟩ : ∃ e, (chainAndShortcut.withMaxDepth 3).build "a" = .ok e ∧
      e.root.listing 0 = [(0, .ofString "/p/a.ts"), (1, .ofString "/p/b.ts"),
        (2, .ofString "/p/c.ts"), (3, .ofString "/p/x.ts"), (1, .ofString "/p/d.ts"),
        (2, .ofString "/p/x.ts"), (3, .ofString "/p/y.ts")] :=
    exists_build_of_map (m := (·.root.listing 0)) (by decide +kernel)
  obtain ⟨expanded, hwhole⟩ := whole_of_build hm habs rfl hr hb
  exact ⟨e, expanded, hb, hlisting, hwhole⟩

end Citator.Finder

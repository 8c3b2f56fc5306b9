import Citator.Proofs.Expansion.Identity
import Citator.Proofs.Expansion.Once
import Citator.Proofs.RefGraph.Insertion

/-!
# `Citator.Proofs.Expansion.Discovery` — neighbours in the order in which they were found

The links of a node are in the order in which they were found. The graph inserts them in that order,
since below an absolute root only one node for a file has links. But its list of the file's neighbours
is in the order of the tree: a link that the tree meets before one in front of it, say because an earlier
link has it below, comes first in that list.
-/

namespace Citator

open Citator.Path

namespace Finder

variable {f : Finder} {name : String} {r : Path} {e : Expansion} {n : Nat × RefTree}

/-- The links of an expanded node are different files. -/
theorem Course.nodup_links {expanded : List (Nat × RefTree)} (hm : f.InMemory)
    (hc : f.Course r e expanded) (hn : n ∈ (0, e.root) :: expanded) :
    (n.2.links.map (·.file)).Nodup := by
  obtain ⟨found, hfound, hfront, -⟩ := hc.searched_cons n hn
  have hsub := hfront.sublist.trans (Snapshot.referrers_sublist hfound)
  exact (hm.apart.sublist hsub).nodup

/-- Where no file has two nodes with links, a node with links is the only one for its file. -/
theorem filter_isBranch_eq (hle : e.branches n.2.file ≤ 1) (hn : n ∈ e.root.walk)
    (hlinks : n.2.links ≠ []) : e.root.walk.filter (RefTree.isBranch n.2.file) = [n] := by
  have hmem : n ∈ e.root.walk.filter (RefTree.isBranch n.2.file) :=
    List.mem_filter.mpr ⟨hn, RefTree.isBranch_iff.mpr ⟨Same.refl _, hlinks⟩⟩
  have hlength : (e.root.walk.filter (RefTree.isBranch n.2.file)).length ≤ 1 := by
    rw [← List.countP_eq_length_filter]
    exact hle
  match hfilter : e.root.walk.filter (RefTree.isBranch n.2.file), hmem, hlength with
  | [m], hmem, _ => rw [List.mem_singleton.mp hmem]

/-- A root that was resolved stands for its own file. -/
theorem getD_rootPath_of_build (hr : f.resolveRoot? (.ofString name) = some r)
    (hb : f.build name = .ok e) : e.rootPath.getD e.root.file = e.root.file := by
  rw [rootPath_of_build hb, hr, Option.getD_some, file_root_of_build hb, file_rootNode_of_eq_some hr]

/-- The neighbours of any file are listed as the tree lists its files. -/
theorem referencing_sublist_filenames (hr : f.resolveRoot? (.ofString name) = some r)
    (hb : f.build name = .ok e) (p : Path) : (e.graph.referencing p).Sublist e.root.filenames := by
  have hpaths := (RefGraph.shows_ofTree e.root e.rootPath).2 (getD_rootPath_of_build hr hb)
  rw [← hpaths]
  exact RefGraph.referencing_sublist (RefGraph.wellFormed_ofTree e.root e.rootPath) p

/-- **Neighbours are inserted as they were found and listed as the tree has them.** For every file with a
node that has links, the edges out of the file were added in the order of these links; but the list of
its neighbours has them in the order in which the tree lists all of its files. The orders agree if and
only if the tree lists the links in their own order. -/
theorem referencing_eq_links_iff (hm : f.InMemory) (habs : f.snapshot.root.isAbsolute = true)
    (hr : f.resolveRoot? (.ofString name) = some r) (hb : f.build name = .ok e)
    (hn : n ∈ e.root.walk) (hlinks : n.2.links ≠ []) :
    e.graph.inserted n.2.file = n.2.links.map (·.file) ∧
      e.graph.referencing n.2.file =
        e.root.filenames.filter (fun p => decide (p ∈ n.2.links.map (·.file))) ∧
      (e.graph.referencing n.2.file = n.2.links.map (·.file) ↔
        (n.2.links.map (·.file)).Sublist e.root.filenames) := by
  have hfile : e.root.file = r := (file_root_of_build hb).trans (file_rootNode_of_eq_some hr)
  have hroot := getD_rootPath_of_build hr hb
  rcases (course_of_build hb).2 with ⟨-, hleaf, -⟩ | ⟨-, expanded, hc⟩
  · -- a root that was not expanded is all there is, and has no links
    rw [hleaf, RefTree.walk_leaf, List.mem_singleton] at hn
    exact absurd (hn ▸ rfl) hlinks
  · have hexpanded : n ∈ (0, e.root) :: expanded := by
      obtain ⟨c, hlink⟩ := List.exists_mem_of_ne_nil _ hlinks
      exact hc.mem_of_mem_links hn hlink
    have hcorpus : n.2.file ∈ f.snapshot.files.map (·.path) := by
      rcases List.mem_cons.mp hexpanded with rfl | hmem
      · rw [hfile]
        exact mem_of_resolveRoot? hr
      · exact hc.mem_files n (hc.expanded_subset n hmem)
    have honce := ((once_iff hm hr hb).2.1 habs).branches n.2.file hcorpus
    have hone := filter_isBranch_eq honce hn hlinks
    have htext := hc.eq_of_same hm habs
    have hnodup := hc.nodup_links hm hexpanded
    exact ⟨RefGraph.inserted_ofTree hroot htext hone hnodup,
      RefGraph.referencing_ofTree hroot htext hone hnodup⟩

/-! ## A link that is met below another -/

/-- Three files refer to the first, and the last of them refers to the second as well. -/
def linkBelowLink : Finder :=
  ofTexts "/p" [("r.ts", ""), ("x.ts", "import './r'"), ("y.ts", "import './r'"),
    ("z.ts", "import './r'; import './x'")]

/-- What is built for the first file: the last is met below the second, before the third. -/
def metBelow : RefTree :=
  .node (.ofString "/p/r.ts")
    [.node (.ofString "/p/x.ts") [.leaf (.ofString "/p/z.ts")], .leaf (.ofString "/p/y.ts"),
      .leaf (.ofString "/p/z.ts")]

theorem inMemory_linkBelowLink : linkBelowLink.InMemory := inMemory_ofTexts _ _

theorem isAbsolute_root_linkBelowLink : linkBelowLink.snapshot.root.isAbsolute = true := by
  decide +kernel

theorem resolveRoot?_linkBelowLink :
    linkBelowLink.resolveRoot? (.ofString "r") = some (.ofString "/p/r.ts") := by decide +kernel

theorem exists_build_linkBelowLink : ∃ e, linkBelowLink.build "r" = .ok e ∧ e.root = metBelow ∧
    (0, metBelow) ∈ e.root.walk := by
  obtain ⟨e, hb, hroot⟩ : ∃ e, linkBelowLink.build "r" = .ok e ∧ e.root = metBelow :=
    exists_build_of_map (m := (·.root)) rfl
  refine ⟨e, hb, hroot, ?_⟩
  rw [hroot, RefTree.walk_eq_cons]
  exact List.mem_cons_self

theorem filenames_metBelow : metBelow.filenames =
    [.ofString "/p/r.ts", .ofString "/p/x.ts", .ofString "/p/z.ts", .ofString "/p/y.ts"] := by cbv

/-- The last link is inserted last and listed before the link in front of it. -/
theorem referencing_eq_links_iff_linkBelowLink : ∃ e, linkBelowLink.build "r" = .ok e ∧
    e.graph.inserted (.ofString "/p/r.ts") =
      [.ofString "/p/x.ts", .ofString "/p/y.ts", .ofString "/p/z.ts"] ∧
    e.graph.referencing (.ofString "/p/r.ts") =
      [.ofString "/p/x.ts", .ofString "/p/z.ts", .ofString "/p/y.ts"] := by
  obtain ⟨e, hb, hroot, hwalk⟩ := exists_build_linkBelowLink
  obtain ⟨hinserted, hlisted, -⟩ := referencing_eq_links_iff inMemory_linkBelowLink
    isAbsolute_root_linkBelowLink resolveRoot?_linkBelowLink hb hwalk (List.cons_ne_nil _ _)
  refine ⟨e, hb, hinserted, hlisted.trans ?_⟩
  rw [hroot, filenames_metBelow]
  decide +kernel

/-- Not every file with a node that has links has these for its neighbours, in their order. -/
theorem not_forall_referencing : ¬ ∀ (f : Finder) (name : String) (r : Path) (e : Expansion)
    (n : Nat × RefTree), f.InMemory → f.snapshot.root.isAbsolute = true →
      f.resolveRoot? (.ofString name) = some r → f.build name = .ok e → n ∈ e.root.walk →
        n.2.links ≠ [] → e.graph.referencing n.2.file = n.2.links.map (·.file) := by
  intro hall
  obtain ⟨e, hb, hroot, hwalk⟩ := exists_build_linkBelowLink
  have hlisted := hall _ _ _ e _ inMemory_linkBelowLink isAbsolute_root_linkBelowLink
    resolveRoot?_linkBelowLink hb hwalk (List.cons_ne_nil _ _)
  have hsub := referencing_sublist_filenames resolveRoot?_linkBelowLink hb (.ofString "/p/r.ts")
  rw [show e.graph.referencing (.ofString "/p/r.ts") = _ from hlisted, hroot,
    filenames_metBelow] at hsub
  exact absurd hsub (by decide +kernel)

end Finder
end Citator

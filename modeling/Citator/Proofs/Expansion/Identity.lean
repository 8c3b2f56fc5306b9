import Citator.Proofs.Expansion.Root
import Citator.Proofs.RefGraph.Cycle
import Citator.Proofs.Text.Utf8
import Citator.Report

/-!
# `Citator.Proofs.Expansion.Identity` — one file, one node, unless the name is sloppy

The root of an expansion is identified twice. Its path is found by the text of the name, its key by
the components of the name below the root of the corpus. Where the first finds a file the second finds
the same, and then the file has one node in the graph, and whatever refers back to it closes a cycle.

The second can find a file where the first finds none: `src//a.ts` is no relative path of any file, but
it has the components of one. Then the graph has the name for the root and, if it is met again, a
second node for the file itself. No edge leads to the first and none leads away from the second, so
the way back is never seen to be a cycle.
-/

namespace Citator

open Citator.Path

/-- The corpus has a file whose relative path, file name or stem is the name that is looked up. -/
def Snapshot.Knows (s : Snapshot) (name : String) : Prop :=
  wantedName name ≠ "" ∧ ∃ g ∈ s.files, s.relativePath? g.path = some (wantedName name) ∨
    g.path.fileName?.bind Utf8.decode? = some (wantedName name) ∨ g.stem? = some (wantedName name)

/-- A path names a file: as it is, or below the root of the corpus. -/
def Snapshot.Names (s : Snapshot) (p g : Path) : Prop := (s.root.join p).Same g

/-- Whether a file is met again below the root. -/
def Expansion.Meets (e : Expansion) (g : Path) : Prop :=
  ∃ n ∈ e.root.walk, 0 < n.1 ∧ n.2.file.Same g

theorem Snapshot.isSome_resolve?_iff {s : Snapshot} {name : String} :
    (s.resolve? name).isSome ↔ s.Knows name := by
  unfold resolve? Knows
  simp only
  split
  · next h => simp [h]
  · next h =>
    simp only [Option.orElse_eq_orElse, Option.orElse_eq_or, Option.isSome_or, Bool.or_eq_true,
      List.find?_isSome, beq_iff_eq, ne_eq, h, not_false_eq_true, true_and, and_or_left, exists_or]

namespace Finder

/-- The root's file `g` is one node of the graph, and whatever leads back to it is a cycle. -/
structure OneNode (f : Finder) (e : Expansion) (g : Path) : Prop where
  top : e.graph.path? 0 = some g
  only : ∀ i p, e.graph.path? i = some p → f.snapshot.Names p g → i = 0
  back : e.Meets g → e.graph.hasCycle = true

/-- The root goes by its name, which names `g`, and `g` is a second node if it is met. No edge leads to
the first and none leads away from the second. -/
structure TwoNodes (f : Finder) (name : String) (e : Expansion) (g : Path) : Prop where
  rootPath : e.rootPath = none
  top : e.graph.path? 0 = some (.ofString name)
  names : f.snapshot.Names (.ofString name) g
  second : (∃ i, i ≠ 0 ∧ e.graph.path? i = some g) ↔ e.Meets g
  unreached : e.graph.referencedBy (.ofString name) = []
  unfollowed : e.graph.referencing g = []

variable {f : Finder} {name : String} {e : Expansion} {g : Path}

theorem rootPath_of_build (hb : f.build name = .ok e) : e.rootPath = f.resolveRoot? (.ofString name) :=
  (course_of_build hb).1

theorem resolveRoot?_of_not_isAbsolute (hname : (Path.ofString name).isAbsolute = false) :
    f.resolveRoot? (.ofString name) = (f.snapshot.resolve? name).map (·.path) := by
  have htext : (Path.ofString name).text? = some name := Utf8.decode?_encode name
  unfold resolveRoot?
  rw [if_neg (by simp [hname]), htext, Option.bind_some]

/-- Below the root stand files of the corpus, and none that has links has the root's key. -/
theorem below_of_build (hm : f.InMemory) (hb : f.build name = .ok e) :
    ∀ n ∈ RefTree.nodesAll 1 e.root.links, n.2.file ∈ f.snapshot.files.map (·.path) ∧
      ∀ c ∈ n.2.links, ¬ (f.rootKey (f.rootNode name).file).Same n.2.file := by
  rcases (course_of_build hb).2 with ⟨-, hroot, -⟩ | ⟨-, expanded, hc⟩
  · intro n hn
    rw [hroot] at hn
    exact absurd hn (by simp [RefTree.leaf, RefTree.links, RefTree.nodesAll])
  · intro n hn
    refine ⟨hc.mem_files n hn, fun c hlink => ?_⟩
    have hdepth := RefTree.le_depth_of_mem_nodesAll hn
    have hkeys := (List.pairwise_cons.mp (hc.apart_files hm)).1
    rcases List.mem_cons.mp (hc.mem_of_mem_links (RefTree.mem_walk_of_mem_nodesAll hn) hlink) with
      rfl | hexp
    · exact absurd hdepth (Nat.not_succ_le_zero 0)
    · exact hkeys _ (List.mem_map_of_mem hexp)

/-! ## The files of the graph -/

theorem path?_graph_zero (e : Expansion) :
    e.graph.path? 0 = some (e.rootPath.getD e.root.file) := by
  rw [Expansion.graph, RefGraph.path?, RefGraph.paths_ofTree, distinct_cons]
  rfl

/-- The files of the graph are those of the tree, with the root's path in place of what the root was
called. -/
theorem mem_paths_graph {p : Path} (h : p ∈ e.graph.paths) : p = e.rootPath.getD e.root.file ∨
    ∃ n ∈ RefTree.nodesAll 1 e.root.links, n.2.file = p := by
  rw [Expansion.graph, RefGraph.paths_ofTree] at h
  rcases List.mem_cons.mp (mem_of_mem_distinct h) with rfl | h
  · exact Or.inl rfl
  · exact Or.inr (List.mem_map.mp h)

/-- A file below the root is a node of its own, if the root is the same as no file of the corpus. -/
theorem exists_path?_graph (hm : f.InMemory) (hb : f.build name = .ok e)
    (hother : ∀ p ∈ f.snapshot.files.map (·.path), ¬ (e.rootPath.getD e.root.file).Same p)
    {n : Nat × RefTree} (hn : n ∈ RefTree.nodesAll 1 e.root.links) :
    ∃ i, i ≠ 0 ∧ e.graph.path? i = some n.2.file := by
  have hfile := (below_of_build hm hb n hn).1
  obtain ⟨p, hp, hsame⟩ :=
    exists_same_mem_distinct (List.mem_cons_of_mem (e.rootPath.getD e.root.file)
      (List.mem_map_of_mem (f := fun m : Nat × RefTree => m.2.file) hn))
  have hpaths : p ∈ e.graph.paths := by rwa [Expansion.graph, RefGraph.paths_ofTree]
  rcases mem_paths_graph hpaths with rfl | ⟨m, hm', rfl⟩
  · exact absurd hsame (hother _ hfile)
  · obtain ⟨i, hi⟩ := List.mem_iff_getElem?.mp hpaths
    rw [hm.apart.eq_of_same (below_of_build hm hb m hm').1 hfile hsame] at hi
    refine ⟨i, ?_, hi⟩
    rintro rfl
    have heq := Option.some.inj ((path?_graph_zero e).symm.trans hi)
    exact hother _ hfile (heq ▸ Same.refl _)

theorem meets_iff (e : Expansion) (g : Path) :
    e.Meets g ↔ ∃ n ∈ RefTree.nodesAll 1 e.root.links, n.2.file.Same g := by
  unfold Expansion.Meets
  rw [RefTree.walk_eq_cons]
  constructor
  · rintro ⟨n, hn, hpos, hsame⟩
    rcases List.mem_cons.mp hn with rfl | hn
    · exact absurd hpos (Nat.lt_irrefl 0)
    · exact ⟨n, hn, hsame⟩
  · rintro ⟨n, hn, hsame⟩
    exact ⟨n, List.mem_cons_of_mem _ hn, RefTree.le_depth_of_mem_nodesAll hn, hsame⟩

/-- The path of the root is that of the file, so references back to the file lead to node zero. -/
theorem oneNode_of_rootPath (hm : f.InMemory) (habs : f.snapshot.root.isAbsolute = true)
    (hb : f.build name = .ok e) (hg : g ∈ f.snapshot.files.map (·.path))
    (hpath : e.rootPath = some g) : f.OneNode e g := by
  have htop : e.graph.path? 0 = some g := by rw [path?_graph_zero, hpath, Option.getD_some]
  constructor
  case top => exact htop
  case only =>
    intro i p hp hnames
    have hfile : p ∈ f.snapshot.files.map (·.path) := by
      rcases mem_paths_graph (List.mem_of_getElem? hp) with rfl | ⟨n, hn, rfl⟩
      · rwa [hpath]
      · exact (below_of_build hm hb n hn).1
    rw [Snapshot.Names, join, if_pos (hm.isAbsolute habs p hfile)] at hnames
    exact (RefGraph.wellFormed_ofTree e.root e.rootPath).eq_of_at ⟨p, hp, hnames⟩
      ⟨g, htop, Same.refl g⟩
  case back =>
    rintro ⟨n, hn, hpos, hsame⟩
    have hchain := RefGraph.transGen_refers_of_mem_walk (k := e.rootPath.getD e.root.file) hn hpos
    refine RefGraph.hasCycle_of_transGen hchain ?_
    rwa [hpath]

/-- The name is relative and the files of the corpus are absolute, so it is the same as none of them,
though it has the key of one. When that file is met, it is put into the graph as another. -/
theorem twoNodes_of_rootPath (hm : f.InMemory) (habs : f.snapshot.root.isAbsolute = true)
    (hb : f.build name = .ok e) (hg : g ∈ f.snapshot.files.map (·.path))
    (hkey : (f.rootKey (f.rootNode name).file).Same g)
    (hpath : e.rootPath = none) (hname : (Path.ofString name).isAbsolute = false)
    (hnames : f.snapshot.Names (.ofString name) g) : f.TwoNodes name e g := by
  have hbelow := below_of_build hm hb
  have hroot : e.rootPath.getD e.root.file = .ofString name := by
    rw [hpath, Option.getD_none, file_root_of_build hb, file_rootNode, ← rootPath_of_build hb, hpath,
      Option.getD_none]
  have htop : e.graph.path? 0 = some (.ofString name) := by rw [path?_graph_zero, hroot]
  -- the name is relative, so it is not the same as any file
  have hother : ∀ p ∈ f.snapshot.files.map (·.path), ¬ (Path.ofString name).Same p := by
    intro p hp hsame
    rw [hsame.isAbsolute_eq, hm.isAbsolute habs p hp] at hname
    exact absurd hname (by simp)
  constructor
  case rootPath => exact hpath
  case top => exact htop
  case names => exact hnames
  case second =>
    rw [meets_iff]
    constructor
    · rintro ⟨i, hi, hp⟩
      rcases mem_paths_graph (List.mem_of_getElem? hp) with heq | ⟨n, hn, heq⟩
      · rw [hroot] at heq
        exact absurd (heq ▸ Same.refl g) (hother g hg)
      · exact ⟨n, hn, heq ▸ Same.refl g⟩
    · rintro ⟨n, hn, hsame⟩
      obtain rfl : n.2.file = g := hm.apart.eq_of_same (hbelow n hn).1 hg hsame
      exact exists_path?_graph hm hb (by rwa [hroot]) hn
  case unreached =>
    rw [List.eq_nil_iff_forall_not_mem]
    intro p hp
    obtain ⟨n, hn, c, hlink, -, hsame⟩ :=
      (RefGraph.memSame_referencedBy_ofTree e.root e.rootPath).mp (memSame_of_mem hp)
    exact hother _ (hbelow _ (RefTree.mem_nodesAll_of_mem_walk hn hlink)).1 hsame.symm
  case unfollowed =>
    rw [List.eq_nil_iff_forall_not_mem]
    intro p hp
    obtain ⟨n, hn, c, hlink, hsame, -⟩ :=
      (RefGraph.memSame_referencing_ofTree e.root e.rootPath).mp (memSame_of_mem hp)
    rw [RefTree.walk_eq_cons] at hn
    rcases List.mem_cons.mp hn with rfl | hn
    · rw [RefTree.standsFor, if_pos rfl, hroot] at hsame
      exact hother g hg hsame
    · rw [RefTree.standsFor_of_mem_nodesAll hn] at hsame
      exact (hbelow n hn).2 c hlink (hkey.trans hsame.symm)

/-- **When the root has one identity.** A root with the key of a file has the file for its path if and
only if its name is absolute, or known to the corpus. Then the file is one node of the graph, and a
chain that leads back to it is a cycle. Otherwise the name stands beside the file. -/
theorem rootPath_iff (hm : f.InMemory) (habs : f.snapshot.root.isAbsolute = true)
    (hb : f.build name = .ok e) (hg : g ∈ f.snapshot.files.map (·.path))
    (hkey : (f.rootKey (f.rootNode name).file).Same g) :
    (e.rootPath = some g ↔ (Path.ofString name).isAbsolute = true ∨ f.snapshot.Knows name) ∧
      (e.rootPath = some g → f.OneNode e g) ∧ (e.rootPath ≠ some g → f.TwoNodes name e g) := by
  have hpath := rootPath_of_build hb
  rcases resolveRoot?_of_rootKey_same hm habs hg hkey with hres | ⟨hres, hname, hnames⟩
  · rw [hres] at hpath
    refine ⟨iff_of_true hpath ?_, oneNode_of_rootPath hm habs hb hg, fun hne => absurd hpath hne⟩
    cases hname : (Path.ofString name).isAbsolute with
    | true => exact Or.inl rfl
    | false =>
      rw [resolveRoot?_of_not_isAbsolute hname] at hres
      refine Or.inr (Snapshot.isSome_resolve?_iff.mp ?_)
      rw [← Option.isSome_map, hres, Option.isSome_some]
  · have hnone : e.rootPath = none := hpath.trans hres
    have hne : e.rootPath ≠ some g := by simp [hnone]
    refine ⟨iff_of_false hne ?_, fun h => absurd h hne, fun _ => ?_⟩
    · rw [resolveRoot?_of_not_isAbsolute hname, Option.map_eq_none_iff] at hres
      rw [hname, ← Snapshot.isSome_resolve?_iff, hres]
      simp
    · exact twoNodes_of_rootPath hm habs hb hg hkey hnone hname hnames

/-! ## A doubled separator -/

/-- Two files below `/p` that refer to each other. -/
def pairBelowRoot : Finder :=
  ofTexts "/p" [("src/a.ts", "import './b'"), ("src/b.ts", "import './a'")]

/-- What is built for the first of them, in whatever way the root goes by its name. -/
def thereAndBack (root : String) : RefTree :=
  .node (.ofString root) [.node (.ofString "/p/src/b.ts") [.leaf (.ofString "/p/src/a.ts")]]

theorem inMemory_pairBelowRoot : pairBelowRoot.InMemory := inMemory_ofTexts _ _

theorem isAbsolute_root_pairBelowRoot : pairBelowRoot.snapshot.root.isAbsolute = true := by
  decide +kernel

theorem mem_files_pairBelowRoot :
    .ofString "/p/src/a.ts" ∈ pairBelowRoot.snapshot.files.map (·.path) := by decide +kernel

theorem rootKey_pairBelowRoot : ∀ name ∈ ["src/a.ts", "src//a.ts"],
    (pairBelowRoot.rootKey (pairBelowRoot.rootNode name).file).Same (.ofString "/p/src/a.ts") := by
  decide +kernel

theorem exists_build_pairBelowRoot : ∃ e, pairBelowRoot.build "src//a.ts" = .ok e ∧
    (e.rootPath, e.root) = (none, thereAndBack "src//a.ts") :=
  exists_build_of_map (m := fun e => (e.rootPath, e.root)) rfl

theorem meets_thereAndBack {root : String} (h : e.root = thereAndBack root) :
    e.Meets (.ofString "/p/src/a.ts") := by
  rw [meets_iff, h]
  exact ⟨(2, .leaf (.ofString "/p/src/a.ts")), by simp [thereAndBack, RefTree.links, RefTree.nodesAll,
    RefTree.nodes, RefTree.leaf], Same.refl _⟩

/-- Asked for by its relative path, the file closes a cycle. With a separator too many the same tree
has none. -/
theorem rootPath_iff_pairBelowRoot :
    (∃ e, pairBelowRoot.build "src/a.ts" = .ok e ∧
      pairBelowRoot.OneNode e (.ofString "/p/src/a.ts") ∧ e.graph.hasCycle = true) ∧
    ∃ e, pairBelowRoot.build "src//a.ts" = .ok e ∧
      pairBelowRoot.TwoNodes "src//a.ts" e (.ofString "/p/src/a.ts") ∧
        e.Meets (.ofString "/p/src/a.ts") ∧ e.graph.hasCycle = false := by
  have htheorem {name : String} {e : Expansion} (hname : name ∈ ["src/a.ts", "src//a.ts"])
      (hb : pairBelowRoot.build name = .ok e) :=
    rootPath_iff inMemory_pairBelowRoot isAbsolute_root_pairBelowRoot hb mem_files_pairBelowRoot
      (rootKey_pairBelowRoot name hname)
  constructor
  · obtain ⟨e, hb, h⟩ : ∃ e, pairBelowRoot.build "src/a.ts" = .ok e ∧
        (e.rootPath, e.root) = (some (.ofString "/p/src/a.ts"), thereAndBack "/p/src/a.ts") :=
      exists_build_of_map (m := fun e => (e.rootPath, e.root)) rfl
    obtain ⟨hpath, hroot⟩ := Prod.mk.inj h
    have hone := (htheorem (by simp) hb).2.1 hpath
    exact ⟨e, hb, hone, hone.back (meets_thereAndBack hroot)⟩
  · obtain ⟨e, hb, h⟩ := exists_build_pairBelowRoot
    obtain ⟨hpath, hroot⟩ := Prod.mk.inj h
    refine ⟨e, hb, (htheorem (by simp) hb).2.2 (by simp [hpath]), meets_thereAndBack hroot, ?_⟩
    rw [Expansion.graph, hpath, hroot]
    cbv

/-- Not every root with the key of a file has the file for its path. -/
theorem not_forall_rootPath : ¬ ∀ (f : Finder) (name : String) (e : Expansion) (g : Path),
    f.InMemory → f.snapshot.root.isAbsolute = true → f.build name = .ok e →
      g ∈ f.snapshot.files.map (·.path) → (f.rootKey (f.rootNode name).file).Same g →
        e.rootPath = some g := by
  intro hall
  obtain ⟨e, hb, h⟩ := exists_build_pairBelowRoot
  have hpath := hall _ _ e _ inMemory_pairBelowRoot isAbsolute_root_pairBelowRoot hb
    mem_files_pairBelowRoot (rootKey_pairBelowRoot _ (by simp))
  rw [(Prod.mk.inj h).1] at hpath
  exact absurd hpath (by simp)

end Finder
end Citator

import Citator.Proofs.Path.Sameness
import Citator.Proofs.RefTree.Nodes
import Citator.RefGraph.Basic

/-!
# `Citator.Proofs.RefGraph.OfTree` — the graph of a tree has just the tree's files and links

A tree is put into a graph node by node, and a file that is there already keeps its number. So a
number, once given, never changes its meaning: the list of files only grows at its end, and no two of
its files are the same. `Grown` is what a graph has become when some files and some arrows between
them were put into it. It composes, and that is the whole induction over the tree.
-/

namespace Citator

open Citator.Path

namespace RefTree

/-- The links of several trees below one file, as arrows from a file to one that refers to it, in the
order of the nodes that they lead to. -/
def arrows (parent : Path) : List RefTree → List (Path × Path)
  | [] => []
  | .node f ls :: ts => (parent, f) :: (arrows f ls ++ arrows parent ts)

/-- An arrow leads from the top to one of the trees, or from a node to one of its links. -/
theorem mem_arrows_iff {p q : Path} :
    ∀ (parent : Path) (ts : List RefTree) (depth : Nat), (p, q) ∈ arrows parent ts ↔
      (p = parent ∧ q ∈ ts.map (·.file)) ∨
        ∃ n ∈ nodesAll depth ts, n.2.file = p ∧ q ∈ n.2.links.map (·.file)
  | _, [], _ => by simp [arrows, nodesAll]
  | parent, .node f ls :: ts, depth => by
    have hbelow := mem_arrows_iff (p := p) (q := q) f ls (depth + 1)
    have hafter := mem_arrows_iff (p := p) (q := q) parent ts depth
    have hnodes : nodesAll depth (.node f ls :: ts) =
        (depth, .node f ls) :: (nodesAll (depth + 1) ls ++ nodesAll depth ts) := rfl
    rw [arrows, List.mem_cons, List.mem_append, hbelow, hafter, hnodes, List.map_cons,
      List.mem_cons, Prod.mk.injEq]
    simp only [List.mem_cons, List.mem_append, or_and_right, exists_or, exists_eq_left]
    simp only [file, links, eq_comm (a := f)]
    constructor
    · rintro (⟨rfl, rfl⟩ | (⟨rfl, hq⟩ | hn) | ⟨rfl, hq⟩ | hn)
      · exact Or.inl ⟨rfl, Or.inl rfl⟩
      · exact Or.inr (Or.inl ⟨rfl, hq⟩)
      · exact Or.inr (Or.inr (Or.inl hn))
      · exact Or.inl ⟨rfl, Or.inr hq⟩
      · exact Or.inr (Or.inr (Or.inr hn))
    · rintro (⟨rfl, rfl | hq⟩ | ⟨rfl, hq⟩ | hn | hn)
      · exact Or.inl ⟨rfl, rfl⟩
      · exact Or.inr (Or.inr (Or.inl ⟨rfl, hq⟩))
      · exact Or.inr (Or.inl (Or.inl ⟨rfl, hq⟩))
      · exact Or.inr (Or.inl (Or.inr hn))
      · exact Or.inr (Or.inr (Or.inr hn))

theorem mem_files_of_mem_arrows (parent : Path) (ts : List RefTree) (depth : Nat) :
    ∀ a ∈ arrows parent ts, a.1 ∈ parent :: (nodesAll depth ts).map (·.2.file) ∧
      a.2 ∈ parent :: (nodesAll depth ts).map (·.2.file) := by
  rintro ⟨p, q⟩ ha
  rcases (mem_arrows_iff parent ts depth).mp ha with ⟨rfl, hq⟩ | ⟨n, hn, rfl, hq⟩
  · obtain ⟨t, ht, rfl⟩ := List.mem_map.mp hq
    exact ⟨List.mem_cons_self, List.mem_cons_of_mem _ (List.mem_map.mpr ⟨_, mem_nodesAll_of_mem ht, rfl⟩)⟩
  · obtain ⟨t, ht, rfl⟩ := List.mem_map.mp hq
    have hlink := mem_nodesAll_of_mem_links hn ht
    exact ⟨List.mem_cons_of_mem _ (List.mem_map.mpr ⟨n, hn, rfl⟩),
      List.mem_cons_of_mem _ (List.mem_map.mpr ⟨_, hlink, rfl⟩)⟩

end RefTree

namespace RefGraph

variable {g g' g'' : RefGraph} {p q : Path} {i j : Nat}

/-! ## 1. Graphs that are well formed -/

/-- No file has two nodes, no edge is there twice, and every edge has its ends. -/
structure WellFormed (g : RefGraph) : Prop where
  apart : Apart g.paths
  nodup : g.edges.Nodup
  ends : ∀ e ∈ g.edges, e.1 < g.paths.length ∧ e.2 < g.paths.length

/-- Node `i` stands for the file that `p` names. -/
def At (g : RefGraph) (i : Nat) (p : Path) : Prop := ∃ q, g.paths[i]? = some q ∧ q.Same p

theorem At.lt_length (h : g.At i p) : i < g.paths.length := by
  obtain ⟨q, hq, -⟩ := h
  exact (List.getElem?_eq_some_iff.mp hq).1

/-- A number stands for its file for good, since files are only put behind the others. -/
theorem At.mono (h : g.At i p) (hp : g.paths <+: g'.paths) : g'.At i p := by
  obtain ⟨q, hq, hsame⟩ := h
  obtain ⟨ps, hps⟩ := hp
  refine ⟨q, ?_, hsame⟩
  rw [← hps, List.getElem?_append_left (List.getElem?_eq_some_iff.mp hq).1]
  exact hq

/-- A file has one number, whatever spelling it is asked for in: no two files of the graph are the
same. -/
theorem WellFormed.eq_of_at (h : g.WellFormed) (hi : g.At i p) (hj : g.At j p) : i = j := by
  obtain ⟨q, hq, hqp⟩ := hi
  obtain ⟨r, hr, hrp⟩ := hj
  obtain ⟨hilt, rfl⟩ := List.getElem?_eq_some_iff.mp hq
  obtain ⟨hjlt, rfl⟩ := List.getElem?_eq_some_iff.mp hr
  have hpair := List.pairwise_iff_getElem.mp h.apart
  rcases Nat.lt_trichotomy i j with hij | hij | hij
  · exact absurd (hqp.trans hrp.symm) (hpair i j hilt hjlt hij)
  · exact hij
  · exact absurd (hrp.trans hqp.symm) (hpair j i hjlt hilt hij)

theorem at_of_find? (h : g.find? p = some i) : g.At i p := by
  unfold find? at h
  obtain ⟨hi, hsame, -⟩ := List.findIdx?_eq_some_iff_getElem.mp h
  exact ⟨_, List.getElem?_eq_getElem hi, of_decide_eq_true hsame⟩

theorem find?_eq_none_iff : g.find? p = none ↔ p.memSame g.paths = false := by
  unfold find?
  rw [List.findIdx?_eq_none_iff, memSame_eq_false_iff]
  simp [Same]

theorem WellFormed.find?_eq_some_iff (h : g.WellFormed) : g.find? p = some i ↔ g.At i p := by
  refine ⟨at_of_find?, fun hat => ?_⟩
  cases hfind : g.find? p with
  | some j => rw [h.eq_of_at hat (at_of_find? hfind)]
  | none =>
    obtain ⟨q, hq, hsame⟩ := hat
    have hnot := memSame_eq_false_iff.mp (find?_eq_none_iff.mp hfind)
    exact absurd hsame (hnot q (List.mem_of_getElem? hq))

/-! ## 2. What has been put into a graph -/

/-- The graph `g'` is `g` with some files and then some arrows between files put into it. -/
structure Grown (g : RefGraph) (files : List Path) (arrows : List (Path × Path)) (g' : RefGraph) :
    Prop where
  wellFormed : g'.WellFormed
  paths : g'.paths = files.foldl keep g.paths
  /-- The arrows lead between files that are there. -/
  ends : ∀ a ∈ arrows, (∃ i, g'.At i a.1) ∧ ∃ j, g'.At j a.2
  edges : ∀ i j, (i, j) ∈ g'.edges ↔ (i, j) ∈ g.edges ∨ ∃ a ∈ arrows, g'.At i a.1 ∧ g'.At j a.2

theorem Grown.paths_isPrefix {files : List Path} {as : List (Path × Path)}
    (h : g.Grown files as g') : g.paths <+: g'.paths := by
  rw [h.paths, foldl_keep_eq]
  exact List.prefix_append _ _

theorem Grown.refl (h : g.WellFormed) : g.Grown [] [] g :=
  ⟨h, rfl, by simp, by simp⟩

/-- What was put in first has its numbers still after the second, so both can be described in the graph
that comes out. -/
theorem Grown.trans {fs gs : List Path} {as bs : List (Path × Path)} (h : g.Grown fs as g')
    (h' : g'.Grown gs bs g'') : g.Grown (fs ++ gs) (as ++ bs) g'' := by
  have hp := h'.paths_isPrefix
  refine ⟨h'.wellFormed, ?_, ?_, ?_⟩
  · rw [h'.paths, h.paths, List.foldl_append]
  · intro a ha
    rcases List.mem_append.mp ha with ha | ha
    · obtain ⟨⟨i, hi⟩, j, hj⟩ := h.ends a ha
      exact ⟨⟨i, hi.mono hp⟩, j, hj.mono hp⟩
    · exact h'.ends a ha
  · intro i j
    rw [h'.edges, h.edges, or_assoc]
    refine or_congr_right ?_
    constructor
    · rintro (⟨a, ha, hi, hj⟩ | ⟨a, ha, hi, hj⟩)
      · exact ⟨a, List.mem_append_left _ ha, hi.mono hp, hj.mono hp⟩
      · exact ⟨a, List.mem_append_right _ ha, hi, hj⟩
    · rintro ⟨a, ha, hi, hj⟩
      rcases List.mem_append.mp ha with ha | ha
      · -- the ends had numbers before, and those are their numbers now
        obtain ⟨⟨i', hi'⟩, j', hj'⟩ := h.ends a ha
        have hii := h'.wellFormed.eq_of_at hi (hi'.mono hp)
        have hjj := h'.wellFormed.eq_of_at hj (hj'.mono hp)
        exact Or.inl ⟨a, ha, hii ▸ hi', hjj ▸ hj'⟩
      · exact Or.inr ⟨a, ha, hi, hj⟩

/-! ## 3. Putting a file, an edge and a tree into a graph -/

theorem wellFormed_empty : ({} : RefGraph).WellFormed :=
  ⟨List.Pairwise.nil, List.nodup_nil, by simp⟩

theorem addFile_of_find? (h : g.find? p = some i) : g.addFile p = (i, g) := by
  unfold addFile
  rw [h]

theorem addFile_of_find?_eq_none (h : g.find? p = none) :
    g.addFile p = (g.paths.length, { g with paths := g.paths ++ [p] }) := by
  unfold addFile
  rw [h]

theorem edges_addFile (g : RefGraph) (p : Path) : (g.addFile p).2.edges = g.edges := by
  unfold addFile
  cases g.find? p with
  | none => rfl
  | some i => rfl

/-- A file that is put into a graph has the number that it is given, whether it was there or not. -/
theorem grown_addFile (h : g.WellFormed) (p : Path) :
    g.Grown [p] [] (g.addFile p).2 ∧ (g.addFile p).2.At (g.addFile p).1 p := by
  cases hfind : g.find? p with
  | some i =>
    have hat := at_of_find? hfind
    rw [addFile_of_find? hfind]
    refine ⟨⟨h, ?_, by simp, by simp⟩, hat⟩
    have hmem : p.memSame g.paths = true := by
      obtain ⟨q, hq, hsame⟩ := hat
      exact memSame_iff.mpr ⟨q, List.mem_of_getElem? hq, hsame⟩
    exact (keep_of_memSame hmem).symm
  | none =>
    have hnew := find?_eq_none_iff.mp hfind
    rw [addFile_of_find?_eq_none hfind]
    refine ⟨⟨⟨?_, h.nodup, ?_⟩, (keep_of_not_memSame hnew).symm, by simp, by simp⟩, p, ?_, Same.refl p⟩
    · exact (h.apart.cons hnew).perm (List.perm_append_singleton p g.paths).symm
    · intro e he
      obtain ⟨h1, h2⟩ := h.ends e he
      simp only [List.length_append, List.length_singleton]
      omega
    · simp

theorem mem_edges_addEdge {e : Nat × Nat} :
    e ∈ (g.addEdge i j).edges ↔ e ∈ g.edges ∨ e = (i, j) := by
  unfold addEdge
  split
  · next hmem =>
    refine ⟨Or.inl, ?_⟩
    rintro (he | rfl)
    · exact he
    · exact hmem
  · simp

theorem paths_addEdge : (g.addEdge i j).paths = g.paths := by
  unfold addEdge
  split <;> rfl

/-- An edge is put between numbers. Which files it connects is known because the numbers stand for
them. -/
theorem grown_addEdge (h : g.WellFormed) (hi : g.At i p) (hj : g.At j q) :
    g.Grown [] [(p, q)] (g.addEdge i j) := by
  have hpaths : (g.addEdge i j).paths = g.paths := paths_addEdge
  have hpre : g.paths <+: (g.addEdge i j).paths := ⟨[], by rw [List.append_nil, hpaths]⟩
  have hwf : (g.addEdge i j).WellFormed := by
    refine ⟨by rw [hpaths]; exact h.apart, ?_, ?_⟩
    · unfold addEdge
      split
      · exact h.nodup
      · next hnew =>
        refine List.nodup_append.mpr ⟨h.nodup, List.pairwise_singleton _ _, ?_⟩
        rintro e he e' he' rfl
        rw [List.mem_singleton] at he'
        exact hnew (he' ▸ he)
    · intro e he
      rw [hpaths]
      rcases mem_edges_addEdge.mp he with he | rfl
      · exact h.ends e he
      · exact ⟨hi.lt_length, hj.lt_length⟩
  refine ⟨hwf, hpaths, ?_, ?_⟩
  · intro a ha
    rw [List.mem_singleton.mp ha]
    exact ⟨⟨i, hi.mono hpre⟩, j, hj.mono hpre⟩
  · intro i' j'
    rw [mem_edges_addEdge, Prod.mk.injEq]
    refine or_congr_right ?_
    constructor
    · rintro ⟨rfl, rfl⟩
      exact ⟨_, List.mem_singleton_self _, hi.mono hpre, hj.mono hpre⟩
    · rintro ⟨a, ha, hi', hj'⟩
      rw [List.mem_singleton] at ha
      subst ha
      exact ⟨hwf.eq_of_at hi' (hi.mono hpre), hwf.eq_of_at hj' (hj.mono hpre)⟩

/-- Putting trees below a node: their files in pre-order, and their arrows. -/
theorem grown_addTrees (depth : Nat) :
    ∀ (ts : List RefTree) (g : RefGraph) (root : Nat) (parent : Path), g.WellFormed →
      g.At root parent →
      g.Grown ((RefTree.nodesAll depth ts).map (·.2.file)) (RefTree.arrows parent ts)
        (g.addTrees root ts)
  | [], _, _, _, h, _ => by
    rw [RefTree.nodesAll, RefTree.arrows, addTrees]
    exact .refl h
  | .node f ls :: ts, g, root, parent, h, hroot => by
    -- the file of the tree, the edge to it, the trees below it, and those that come after
    obtain ⟨hfile, hat⟩ := grown_addFile h f
    have hroot₁ := hroot.mono hfile.paths_isPrefix
    have hedge := grown_addEdge hfile.wellFormed hroot₁ hat
    have hat₂ := hat.mono hedge.paths_isPrefix
    have hbelow := grown_addTrees (depth + 1) ls _ _ f hedge.wellFormed hat₂
    have hroot₃ := (hroot₁.mono hedge.paths_isPrefix).mono hbelow.paths_isPrefix
    have hafter := grown_addTrees depth ts _ root parent hbelow.wellFormed hroot₃
    have hall := (hfile.trans hedge).trans (hbelow.trans hafter)
    rw [RefTree.nodesAll, RefTree.nodes, RefTree.arrows, addTrees]
    simpa [RefTree.file] using hall

/-! ## 4. The graph of a tree -/

section OfTree

variable (t : RefTree) (rootPath : Option Path)

theorem grown_ofTree : RefGraph.Grown {}
    ((rootPath.getD t.file) :: (RefTree.nodesAll 1 t.links).map (·.2.file))
    (RefTree.arrows (rootPath.getD t.file) t.links) (ofTree t rootPath) := by
  obtain ⟨hfile, hat⟩ := grown_addFile wellFormed_empty (rootPath.getD t.file)
  have hbelow := grown_addTrees 1 t.links _ _ _ hfile.wellFormed hat
  have hall := hfile.trans hbelow
  cases t with
  | node f ls => exact hall

/-- The graph of a tree has the tree's files in the order in which they come first. -/
theorem paths_ofTree : (ofTree t rootPath).paths =
    distinct ((rootPath.getD t.file) :: (RefTree.nodesAll 1 t.links).map (·.2.file)) := by
  rw [(grown_ofTree t rootPath).paths, foldl_keep_eq]
  simp [memSame]

/-- It has an edge for every arrow of the tree, and no other. -/
theorem mem_edges_ofTree {i j : Nat} : (i, j) ∈ (ofTree t rootPath).edges ↔
    ∃ a ∈ RefTree.arrows (rootPath.getD t.file) t.links,
      (ofTree t rootPath).At i a.1 ∧ (ofTree t rootPath).At j a.2 := by
  rw [(grown_ofTree t rootPath).edges]
  simp

theorem wellFormed_ofTree : (ofTree t rootPath).WellFormed := (grown_ofTree t rootPath).wellFormed

end OfTree

def HasEdge (g : RefGraph) (p q : Path) : Prop :=
  ∃ i j, (i, j) ∈ g.edges ∧ g.path? i = some p ∧ g.path? j = some q

/-- Where what the tree's files name determines their text, the edges are just the arrows. -/
theorem hasEdge_ofTree_iff (t : RefTree) (rootPath : Option Path)
    (htext : ∀ a ∈ (rootPath.getD t.file) :: (RefTree.nodesAll 1 t.links).map (·.2.file),
      ∀ b ∈ (rootPath.getD t.file) :: (RefTree.nodesAll 1 t.links).map (·.2.file),
        a.Same b → a = b) :
    (ofTree t rootPath).HasEdge p q ↔ (p, q) ∈ RefTree.arrows (rootPath.getD t.file) t.links := by
  have hpaths := paths_ofTree t rootPath
  have hfiles := RefTree.mem_files_of_mem_arrows (rootPath.getD t.file) t.links 1
  generalize (rootPath.getD t.file) :: (RefTree.nodesAll 1 t.links).map (·.2.file) = files at *
  -- a number stands for a file of the tree just if the file is written there
  have hat : ∀ {i a}, a ∈ files → ((ofTree t rootPath).At i a ↔ (ofTree t rootPath).path? i = some a) := by
    intro i a ha
    constructor
    · rintro ⟨b, hb, hsame⟩
      have hmem := List.mem_of_getElem? hb
      rw [hpaths] at hmem
      rw [← htext b (mem_of_mem_distinct hmem) a ha hsame]
      exact hb
    · intro h
      exact ⟨a, h, Same.refl a⟩
  constructor
  · rintro ⟨i, j, hedge, hi, hj⟩
    obtain ⟨a, ha, hia, hja⟩ := (mem_edges_ofTree t rootPath).mp hedge
    obtain ⟨ha1, ha2⟩ := hfiles a ha
    rw [(hat ha1).mp hia, Option.some.injEq] at hi
    rw [(hat ha2).mp hja, Option.some.injEq] at hj
    subst hi hj
    exact ha
  · intro ha
    obtain ⟨ha1, ha2⟩ := hfiles _ ha
    obtain ⟨⟨i, hi⟩, j, hj⟩ := (grown_ofTree t rootPath).ends _ ha
    exact ⟨i, j, (mem_edges_ofTree t rootPath).mpr ⟨_, ha, hi, hj⟩, (hat ha1).mp hi, (hat ha2).mp hj⟩

end RefGraph
end Citator

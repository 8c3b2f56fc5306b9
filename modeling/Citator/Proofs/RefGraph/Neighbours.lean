import Mathlib.Data.List.Permutation
import Mathlib.Data.Prod.Basic
import Citator.Proofs.RefGraph.OfTree

/-!
# `Citator.Proofs.RefGraph.Neighbours` — the graph of a tree answers for the tree

A file may stand in a tree in many places, each time with other links and in another spelling.
`Refers` is what the tree says about files, all places taken together: that somewhere a node for the
one file has a link for the other. The graph has one node for a file, and says the same. Its edges are
the references, each once, and the two lists of neighbours are the references of a file and to a file.

The two lists are one: the files that a file refers to are those that refer to it in the graph with
all its edges turned around. So everything about neighbours is proved for one direction.
-/

namespace Citator

open Citator.Path

namespace RefTree

/-- The file that a node stands for, where the root stands for `k`. -/
def standsFor (k : Path) (n : Nat × RefTree) : Path := if n.1 = 0 then k else n.2.file

/-- Somewhere in the tree a node for `p` has a link for `q`, in whatever spellings. -/
def Refers (t : RefTree) (k p q : Path) : Prop :=
  ∃ n ∈ t.walk, ∃ c ∈ n.2.links, (standsFor k n).Same p ∧ c.file.Same q

theorem standsFor_of_mem_nodesAll {k : Path} {n : Nat × RefTree} {ts : List RefTree}
    (hn : n ∈ nodesAll 1 ts) : standsFor k n = n.2.file := by
  have hdepth : 1 ≤ n.1 := le_depth_of_mem_nodesAll hn
  rw [standsFor, if_neg (by omega)]

/-- The references are the arrows, up to spelling. -/
theorem refers_iff {t : RefTree} {k p q : Path} :
    t.Refers k p q ↔ ∃ a ∈ arrows k t.links, a.1.Same p ∧ a.2.Same q := by
  unfold Refers
  rw [walk_eq_cons]
  constructor
  · rintro ⟨n, hn, c, hc, hp, hq⟩
    refine ⟨(standsFor k n, c.file), (mem_arrows_iff k t.links 1).mpr ?_, hp, hq⟩
    rcases List.mem_cons.mp hn with rfl | hn
    · exact Or.inl ⟨rfl, List.mem_map_of_mem hc⟩
    · rw [standsFor_of_mem_nodesAll hn]
      exact Or.inr ⟨n, hn, rfl, List.mem_map_of_mem hc⟩
  · rintro ⟨⟨p', q'⟩, ha, hp, hq⟩
    rcases (mem_arrows_iff k t.links 1).mp ha with ⟨rfl, hlink⟩ | ⟨n, hn, rfl, hlink⟩
    · obtain ⟨c, hc, rfl⟩ := List.mem_map.mp hlink
      exact ⟨_, List.mem_cons_self, c, hc, hp, hq⟩
    · obtain ⟨c, hc, rfl⟩ := List.mem_map.mp hlink
      refine ⟨n, List.mem_cons_of_mem _ hn, c, hc, ?_, hq⟩
      rwa [standsFor_of_mem_nodesAll hn]

end RefTree

namespace RefGraph

variable {g : RefGraph} {p q : Path} {i j : Nat}

/-! ## 1. The neighbours of a file -/

theorem At.congr (h : g.At i p) (hsame : p.Same q) : g.At i q := by
  obtain ⟨r, hr, hrp⟩ := h
  exact ⟨r, hr, hrp.trans hsame⟩

/-- The graph with its edges turned around. -/
def converse (g : RefGraph) : RefGraph := { g with edges := g.edges.map Prod.swap }

theorem mem_edges_converse : (i, j) ∈ g.converse.edges ↔ (j, i) ∈ g.edges := by
  unfold converse
  rw [List.mem_map]
  constructor
  · rintro ⟨⟨a, b⟩, he, hswap⟩
    obtain ⟨rfl, rfl⟩ := Prod.mk.inj hswap
    exact he
  · exact fun he => ⟨(j, i), he, rfl⟩

theorem WellFormed.converse (h : g.WellFormed) : g.converse.WellFormed := by
  refine ⟨h.apart, h.nodup.map Prod.swap_injective, ?_⟩
  rintro ⟨i, j⟩ he
  exact (h.ends _ (mem_edges_converse.mp he)).symm

/-- One list of neighbours is the other in the graph with its edges turned round, so each fact is
proved once. -/
theorem referencedBy_eq (g : RefGraph) (p : Path) : g.referencedBy p = g.converse.referencing p := by
  unfold referencedBy referencing
  have hfind : g.converse.find? p = g.find? p := rfl
  rw [hfind]
  cases g.find? p with
  | none => rfl
  | some i =>
    simp only [RefGraph.converse, List.filter_map, List.map_map]
    rfl

theorem referencing_of_find?_eq_none (h : g.find? p = none) : g.referencing p = [] := by
  unfold referencing
  rw [h]

theorem mem_referencing_iff (h : g.WellFormed) :
    q ∈ g.referencing p ↔ ∃ i j, (i, j) ∈ g.edges ∧ g.At i p ∧ g.path? j = some q := by
  cases hfind : g.find? p with
  | none =>
    rw [referencing_of_find?_eq_none hfind]
    refine ⟨fun hq => absurd hq (by simp), ?_⟩
    rintro ⟨i, j, -, hi, -⟩
    rw [(h.find?_eq_some_iff).mpr hi] at hfind
    exact absurd hfind (by simp)
  | some i =>
    have hat := at_of_find? hfind
    have hperm := fun is => List.mergeSort_perm is fun i j : Nat => decide (i ≤ j)
    unfold referencing ascending
    simp only [hfind, List.mem_filterMap, (hperm _).mem_iff, List.mem_map, List.mem_filter,
      beq_iff_eq]
    constructor
    · rintro ⟨j, ⟨⟨i', j'⟩, ⟨he, rfl⟩, rfl⟩, hq⟩
      exact ⟨_, _, he, hat, hq⟩
    · rintro ⟨i', j, he, hi', hq⟩
      exact ⟨j, ⟨(i', j), ⟨he, h.eq_of_at hi' hat⟩, rfl⟩, hq⟩

/-- The edges out of a node have different heads. -/
theorem WellFormed.nodup_heads (h : g.WellFormed) (i : Nat) :
    ((g.edges.filter fun e => e.1 == i).map (·.2)).Nodup := by
  refine List.Nodup.map_on ?_ (h.nodup.filter _)
  rintro ⟨a, b⟩ ha ⟨a', b'⟩ ha' hb
  obtain ⟨-, ha⟩ := List.mem_filter.mp ha
  obtain ⟨-, ha'⟩ := List.mem_filter.mp ha'
  rw [Prod.mk.injEq]
  exact ⟨(beq_iff_eq.mp ha).trans (beq_iff_eq.mp ha').symm, hb⟩

/-- No neighbour is listed twice: the edges out of a node have different heads, and different nodes
stand for different files. -/
theorem apart_referencing (h : g.WellFormed) (p : Path) : Apart (g.referencing p) := by
  cases hfind : g.find? p with
  | none =>
    rw [referencing_of_find?_eq_none hfind]
    exact List.Pairwise.nil
  | some i =>
    unfold referencing ascending
    simp only [hfind]
    have hsorted := (List.mergeSort_perm _ fun i j : Nat => decide (i ≤ j)).nodup_iff.mpr
      (h.nodup_heads i)
    refine List.pairwise_filterMap.mpr (List.Pairwise.imp ?_ hsorted)
    intro j k hjk q hq r hr hsame
    exact hjk (h.eq_of_at ⟨q, hq, hsame⟩ ⟨r, hr, Same.refl r⟩)

theorem referencing_subset (h : g.WellFormed) (p : Path) : g.referencing p ⊆ g.paths := by
  intro q hq
  obtain ⟨i, j, -, -, hj⟩ := (mem_referencing_iff h).mp hq
  exact List.mem_of_getElem? hj

/-! ## 2. What a tree says and what its graph says -/

/-- The graph has the files of a tree and their references, each once, where the root of the tree
stands for `k`. -/
structure Shows (g : RefGraph) (k : Path) (t : RefTree) : Prop where
  /-- The files are numbered as they come first in the tree, in the spelling that comes first. -/
  paths : g.paths = distinct (k :: t.walk.tail.map (·.2.file))
  apart : Apart g.paths
  edges : ∀ i j, (i, j) ∈ g.edges ↔
    ∃ p q, g.path? i = some p ∧ g.path? j = some q ∧ t.Refers k p q
  nodup : g.edges.Nodup
  /-- The neighbours of a file are named as in the graph, and none is named twice. -/
  neighbours : ∀ p, g.referencing p ⊆ g.paths ∧ g.referencedBy p ⊆ g.paths ∧
    Apart (g.referencing p) ∧ Apart (g.referencedBy p)
  referencing : ∀ p q, q.memSame (g.referencing p) = true ↔ t.Refers k p q
  referencedBy : ∀ p q, p.memSame (g.referencedBy q) = true ↔ t.Refers k p q
  /-- A file that is not in the graph has no neighbours. -/
  absent : ∀ p, p.memSame g.paths = false → g.referencing p = [] ∧ g.referencedBy p = []

section OfTree

variable (t : RefTree) (rootPath : Option Path)

theorem mem_edges_ofTree_iff_refers : (i, j) ∈ (ofTree t rootPath).edges ↔
    ∃ p q, (ofTree t rootPath).path? i = some p ∧ (ofTree t rootPath).path? j = some q ∧
      t.Refers (rootPath.getD t.file) p q := by
  rw [mem_edges_ofTree]
  constructor
  · rintro ⟨a, ha, ⟨p, hp, hpa⟩, q, hq, hqa⟩
    exact ⟨p, q, hp, hq, RefTree.refers_iff.mpr ⟨a, ha, hpa.symm, hqa.symm⟩⟩
  · rintro ⟨p, q, hp, hq, hrefers⟩
    obtain ⟨a, ha, hap, haq⟩ := RefTree.refers_iff.mp hrefers
    exact ⟨a, ha, ⟨p, hp, hap.symm⟩, q, hq, haq.symm⟩

/-- An edge leads from a file to another if and only if the tree has such a reference. -/
theorem exists_mem_edges_ofTree_iff : (∃ i j, (i, j) ∈ (ofTree t rootPath).edges ∧
    (ofTree t rootPath).At i p ∧ (ofTree t rootPath).At j q) ↔
      t.Refers (rootPath.getD t.file) p q := by
  have hwf := wellFormed_ofTree t rootPath
  rw [RefTree.refers_iff]
  constructor
  · rintro ⟨i, j, he, ⟨p', hp', hp⟩, q', hq', hq⟩
    obtain ⟨a, ha, hia, hja⟩ := (mem_edges_ofTree t rootPath).mp he
    obtain ⟨r, hr, hra⟩ := hia
    obtain ⟨s, hs, hsa⟩ := hja
    obtain rfl : p' = r := Option.some.inj (hp'.symm.trans hr)
    obtain rfl : q' = s := Option.some.inj (hq'.symm.trans hs)
    exact ⟨a, ha, hra.symm.trans hp, hsa.symm.trans hq⟩
  · rintro ⟨a, ha, hap, haq⟩
    obtain ⟨⟨i, hi⟩, j, hj⟩ := (grown_ofTree t rootPath).ends a ha
    exact ⟨i, j, (mem_edges_ofTree t rootPath).mpr ⟨a, ha, hi, hj⟩, hi.congr hap, hj.congr haq⟩

theorem memSame_referencing_ofTree : q.memSame ((ofTree t rootPath).referencing p) = true ↔
    t.Refers (rootPath.getD t.file) p q := by
  rw [memSame_iff, ← exists_mem_edges_ofTree_iff]
  simp only [mem_referencing_iff (wellFormed_ofTree t rootPath)]
  constructor
  · rintro ⟨r, ⟨i, j, he, hi, hj⟩, hrq⟩
    exact ⟨i, j, he, hi, r, hj, hrq⟩
  · rintro ⟨i, j, he, hi, r, hj, hrq⟩
    exact ⟨r, ⟨i, j, he, hi, hj⟩, hrq⟩

theorem memSame_referencedBy_ofTree : p.memSame ((ofTree t rootPath).referencedBy q) = true ↔
    t.Refers (rootPath.getD t.file) p q := by
  rw [referencedBy_eq, memSame_iff, ← exists_mem_edges_ofTree_iff]
  simp only [mem_referencing_iff (wellFormed_ofTree t rootPath).converse, mem_edges_converse]
  constructor
  · rintro ⟨r, ⟨j, i, he, hj, hi⟩, hrp⟩
    exact ⟨i, j, he, ⟨r, hi, hrp⟩, hj⟩
  · rintro ⟨i, j, he, ⟨r, hi, hrp⟩, hj⟩
    exact ⟨r, ⟨j, i, he, hj, hi⟩, hrp⟩

/-- **The graph of a tree shows the tree**, and numbers its files as the tree lists them where the
root stands for its own file. -/
theorem shows_ofTree : (ofTree t rootPath).Shows (rootPath.getD t.file) t ∧
    (rootPath.getD t.file = t.file → (ofTree t rootPath).paths = t.filenames) := by
  have hwf := wellFormed_ofTree t rootPath
  have hpaths := paths_ofTree t rootPath
  refine ⟨?_, fun hroot => ?_⟩
  · constructor
    case paths =>
      rw [hpaths, RefTree.walk_eq_cons, List.tail_cons]
    case apart => exact hwf.apart
    case edges => exact fun i j => mem_edges_ofTree_iff_refers t rootPath
    case nodup => exact hwf.nodup
    case neighbours =>
      intro p
      rw [referencedBy_eq]
      exact ⟨referencing_subset hwf p, referencing_subset hwf.converse p, apart_referencing hwf p,
        apart_referencing hwf.converse p⟩
    case referencing => exact fun p q => memSame_referencing_ofTree t rootPath
    case referencedBy => exact fun p q => memSame_referencedBy_ofTree t rootPath
    case absent =>
      intro p hp
      have hfind := find?_eq_none_iff.mpr hp
      rw [referencedBy_eq]
      exact ⟨referencing_of_find?_eq_none hfind, referencing_of_find?_eq_none hfind⟩
  · rw [hpaths, hroot, RefTree.filenames, RefTree.walk_eq_cons, List.map_cons]

end OfTree

/-- A file that refers to the root and to itself, and comes again in another spelling. -/
def spelledTwice : RefTree :=
  .node (.ofString "/p/a.ts")
    [.node (.ofString "/p//b.ts") [.leaf (.ofString "/p/b.ts"), .leaf (.ofString "/p/a.ts")],
      .leaf (.ofString "/p/b.ts")]

theorem shows_ofTree_spelledTwice :
    (ofTree spelledTwice none).paths = spelledTwice.filenames ∧
      (ofTree spelledTwice none).paths = [.ofString "/p/a.ts", .ofString "/p//b.ts"] ∧
      (ofTree spelledTwice none).edges = [(0, 1), (1, 1), (1, 0)] :=
  ⟨(shows_ofTree spelledTwice none).2 rfl, by cbv, by cbv⟩

end RefGraph
end Citator

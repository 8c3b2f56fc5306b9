import Mathlib.Data.List.Sort
import Citator.Proofs.RefGraph.Neighbours

/-!
# `Citator.Proofs.RefGraph.Insertion` — in what order neighbours are inserted, and in what order listed

The edges of a graph are kept in the order in which they were drawn, and drawn in the order of the
arrows of a tree. So what is drawn for a file with one node that has links are these links, in their
order (`inserted_ofTree`).

The list of neighbours does not have that order. It is sorted by the numbers of the neighbours, and a
number says where a file comes first in the whole tree, not where it comes among the links
(`referencing_eq_filter`). A link that is met before, say below a link in front of it, comes first in the
list.
-/

namespace Citator

open Citator.Path

/-! ## 1. The arrows out of one file -/

namespace RefTree

variable {p k : Path} {n : Nat × RefTree} {depth : Nat}

/-- Whether a node stands for `p` and has links. -/
def isBranch (p : Path) (n : Nat × RefTree) : Bool := decide (n.2.file.Same p) && !n.2.isLeaf

theorem isBranch_iff : isBranch p n = true ↔ n.2.file.Same p ∧ n.2.links ≠ [] := by
  simp [isBranch, isLeaf]

/-- The arrows that lead away from `p`. -/
def arrowsOut (p k : Path) (ts : List RefTree) : List (Path × Path) :=
  (arrows k ts).filter fun a => decide (a.1.Same p)

theorem arrowsOut_nil (p k : Path) : arrowsOut p k [] = [] := by
  rw [arrowsOut, arrows, List.filter_nil]

theorem arrowsOut_cons (p k : Path) (t : RefTree) (ts : List RefTree) :
    arrowsOut p k (t :: ts) = (if k.Same p then [(k, t.file)] else []) ++
      (arrowsOut p t.file t.links ++ arrowsOut p k ts) := by
  obtain ⟨f, ls⟩ := t
  unfold arrowsOut
  rw [arrows, List.filter_cons, List.filter_append]
  split
  · next h => rw [if_pos (of_decide_eq_true h)]; rfl
  · next h => rw [if_neg (by simpa using h)]; rfl

/-- Without a node for `p` that has links there are no arrows, -/
theorem arrowsOut_eq_nil {ts : List RefTree} (hk : ¬ k.Same p)
    (h : (nodesAll depth ts).filter (isBranch p) = []) : arrowsOut p k ts = [] := by
  refine List.filter_eq_nil_iff.mpr fun a ha hsame => ?_
  rw [decide_eq_true_iff] at hsame
  rcases (mem_arrows_iff k ts depth).mp ha with ⟨heq, -⟩ | ⟨n, hn, heq, hlink⟩
  · exact hk (heq ▸ hsame)
  · refine List.filter_eq_nil_iff.mp h n hn (isBranch_iff.mpr ⟨heq ▸ hsame, ?_⟩)
    exact List.map_eq_nil_iff.not.mp (List.ne_nil_of_mem hlink)

theorem arrowsOut_links_eq_nil {t : RefTree} (h : (nodes depth t).filter (isBranch p) = []) :
    arrowsOut p t.file t.links = [] := by
  rw [nodes_eq, List.filter_cons] at h
  split at h
  · exact absurd h (List.cons_ne_nil _ _)
  · next hnot =>
    rw [isBranch_iff, not_and_not_right] at hnot
    by_cases hsame : t.file.Same p
    · rw [show t.links = [] from hnot hsame, arrowsOut_nil]
    · exact arrowsOut_eq_nil hsame h

/-- below a file that is `p` there are those to the trees, -/
theorem arrowsOut_top (hk : k.Same p) : ∀ {ts : List RefTree},
    (nodesAll depth ts).filter (isBranch p) = [] →
      arrowsOut p k ts = ts.map fun c => (k, c.file)
  | [], _ => arrowsOut_nil p k
  | t :: ts, h => by
    rw [nodesAll, List.filter_append, List.append_eq_nil_iff] at h
    rw [arrowsOut_cons, if_pos hk, arrowsOut_links_eq_nil h.1, arrowsOut_top hk h.2]
    rfl

mutual

/-- and with one such node there are those to its links. -/
theorem arrowsOut_links_eq : ∀ {t : RefTree} {depth : Nat},
    (nodes depth t).filter (isBranch p) = [n] →
      arrowsOut p t.file t.links = n.2.links.map fun c => (n.2.file, c.file)
  | .node f ls, depth, h => by
    rw [nodes, List.filter_cons] at h
    split at h
    · next hbranch =>
      obtain ⟨rfl, hnone⟩ := List.cons.inj h
      exact arrowsOut_top (isBranch_iff.mp hbranch).1 hnone
    · next hnot =>
      have hother : ¬ f.Same p := by
        refine fun hsame => hnot (isBranch_iff.mpr ⟨hsame, fun hnil => ?_⟩)
        -- the node stands below this one, which has links for that reason
        rw [show ls = [] from hnil, nodesAll] at h
        exact absurd h (by simp)
      exact arrowsOut_eq hother h

theorem arrowsOut_eq : ∀ {ts : List RefTree} {k : Path} {depth : Nat}, ¬ k.Same p →
    (nodesAll depth ts).filter (isBranch p) = [n] →
      arrowsOut p k ts = n.2.links.map fun c => (n.2.file, c.file)
  | [], _, _, _, h => absurd h (by simp [nodesAll])
  | t :: ts, k, depth, hk, h => by
    rw [nodesAll, List.filter_append, List.append_eq_singleton_iff] at h
    rw [arrowsOut_cons, if_neg hk, List.nil_append]
    rcases h with ⟨hnone, hone⟩ | ⟨hone, hnone⟩
    · rw [arrowsOut_links_eq_nil hnone, arrowsOut_eq hk hone, List.nil_append]
    · rw [arrowsOut_links_eq hone, arrowsOut_eq_nil hk hnone, List.append_nil]

end

theorem standsFor_file {t : RefTree} (hn : n ∈ t.walk) : standsFor t.file n = n.2.file := by
  rw [walk_eq_cons] at hn
  rcases List.mem_cons.mp hn with rfl | hn
  · rfl
  · exact standsFor_of_mem_nodesAll hn

end RefTree

namespace RefGraph

variable {g g' g'' : RefGraph} {p q : Path} {i j : Nat}

/-! ## 2. Drawing arrows -/

theorem At.same (h : g.At i p) (h' : g.At i q) : p.Same q := by
  obtain ⟨r, hr, hrp⟩ := h
  obtain ⟨s, hs, hsq⟩ := h'
  obtain rfl : r = s := Option.some.inj (hr.symm.trans hs)
  exact hrp.symm.trans hsq

/-- The graph `g'` is `g` with some of the arrows drawn behind its edges, in their order. Every arrow in
`drawn` stands there with the edge that it became. -/
structure Drawn (g : RefGraph) (arrows : List (Path × Path)) (g' : RefGraph)
    (drawn : List ((Path × Path) × (Nat × Nat))) : Prop where
  paths : g.paths <+: g'.paths
  sublist : (drawn.map (·.1)).Sublist arrows
  ends : ∀ d ∈ drawn, g'.At d.2.1 d.1.1 ∧ g'.At d.2.2 d.1.2
  edges : g'.edges = g.edges ++ drawn.map (·.2)

theorem Drawn.trans {as bs : List (Path × Path)} {ds ds' : List ((Path × Path) × (Nat × Nat))}
    (h : g.Drawn as g' ds) (h' : g'.Drawn bs g'' ds') : g.Drawn (as ++ bs) g'' (ds ++ ds') := by
  constructor
  case paths => exact h.paths.trans h'.paths
  case sublist =>
    rw [List.map_append]
    exact h.sublist.append h'.sublist
  case ends =>
    intro d hd
    rcases List.mem_append.mp hd with hd | hd
    · exact ⟨(h.ends d hd).1.mono h'.paths, (h.ends d hd).2.mono h'.paths⟩
    · exact h'.ends d hd
  case edges => rw [h'.edges, h.edges, List.map_append, List.append_assoc]

/-- The heads of the edges out of a node are those of the arrows that were drawn for its file. -/
theorem Drawn.heads_eq {as : List (Path × Path)} {drawn : List ((Path × Path) × (Nat × Nat))}
    (h : RefGraph.Drawn {} as g drawn) (hwf : g.WellFormed) (hi : g.At i p) :
    (g.edges.filter fun e => e.1 == i).map (·.2) =
      (drawn.filter fun d => decide (d.1.1.Same p)).map (·.2.2) := by
  rw [h.edges, List.nil_append, List.filter_map, List.map_map]
  refine congrArg _ (List.filter_congr fun d hmem => ?_)
  have htail := (h.ends d hmem).1
  rw [Function.comp_apply, Bool.eq_iff_iff, beq_iff_eq, decide_eq_true_iff]
  constructor
  · rintro rfl
    exact htail.same hi
  · exact fun hsame => hwf.eq_of_at (htail.congr hsame) hi

theorem drawn_of_edges_eq (hpaths : g.paths <+: g'.paths) (hedges : g'.edges = g.edges) :
    g.Drawn [] g' [] :=
  ⟨hpaths, List.Sublist.refl _, by simp, by rw [hedges, List.map_nil, List.append_nil]⟩

/-- An edge that is there already is not drawn again. -/
theorem exists_drawn_addEdge (hi : g.At i p) (hj : g.At j q) :
    ∃ drawn, g.Drawn [(p, q)] (g.addEdge i j) drawn := by
  have hpre : g.paths <+: (g.addEdge i j).paths :=
    ⟨[], by rw [List.append_nil, paths_addEdge]⟩
  by_cases hmem : (i, j) ∈ g.edges
  · refine ⟨[], hpre, List.nil_sublist _, by simp, ?_⟩
    rw [addEdge, if_pos hmem, List.map_nil, List.append_nil]
  · refine ⟨[((p, q), (i, j))], hpre, List.Sublist.refl _, ?_, ?_⟩
    · intro d hd
      rw [List.mem_singleton.mp hd]
      exact ⟨hi.mono hpre, hj.mono hpre⟩
    · rw [addEdge, if_neg hmem]
      rfl

theorem exists_drawn_addTrees (depth : Nat) :
    ∀ (ts : List RefTree) (g : RefGraph) (root : Nat) (parent : Path), g.WellFormed →
      g.At root parent → ∃ drawn, g.Drawn (RefTree.arrows parent ts) (g.addTrees root ts) drawn
  | [], g, _, _, _, _ => by
    rw [RefTree.arrows, addTrees]
    exact ⟨[], drawn_of_edges_eq (List.prefix_refl _) rfl⟩
  | .node f ls :: ts, g, root, parent, h, hroot => by
    obtain ⟨hfile, hat⟩ := grown_addFile h f
    have hroot₁ := hroot.mono hfile.paths_isPrefix
    have hedge := grown_addEdge hfile.wellFormed hroot₁ hat
    have hat₂ := hat.mono hedge.paths_isPrefix
    have hroot₂ := hroot₁.mono hedge.paths_isPrefix
    have hbelow := grown_addTrees (depth + 1) ls _ _ f hedge.wellFormed hat₂
    obtain ⟨first, hfirst⟩ := exists_drawn_addEdge hroot₁ hat
    obtain ⟨below, hdrawn⟩ := exists_drawn_addTrees (depth + 1) ls _ _ f hedge.wellFormed hat₂
    obtain ⟨after, hafter⟩ := exists_drawn_addTrees depth ts _ root parent hbelow.wellFormed
      (hroot₂.mono hbelow.paths_isPrefix)
    have hstart := drawn_of_edges_eq hfile.paths_isPrefix (edges_addFile g f)
    rw [RefTree.arrows, addTrees]
    exact ⟨_, (hstart.trans hfirst).trans (hdrawn.trans hafter)⟩

/-- What is drawn of a tree are arrows of it, in their order. -/
theorem exists_drawn_ofTree (t : RefTree) (rootPath : Option Path) : ∃ drawn,
    RefGraph.Drawn {} (RefTree.arrows (rootPath.getD t.file) t.links) (ofTree t rootPath) drawn := by
  obtain ⟨hfile, hat⟩ := grown_addFile wellFormed_empty (rootPath.getD t.file)
  obtain ⟨drawn, hdrawn⟩ := exists_drawn_addTrees 1 t.links _ _ _ hfile.wellFormed hat
  have hall := (drawn_of_edges_eq hfile.paths_isPrefix (edges_addFile {} _)).trans hdrawn
  cases t with
  | node f ls => exact ⟨_, hall⟩

/-! ## 3. Neighbours, as inserted and as listed -/

/-- The files that refer to a file, in the order in which the edges to them were added. -/
def inserted (g : RefGraph) (p : Path) : List Path :=
  match g.find? p with
  | none => []
  | some i => ((g.edges.filter fun e => e.1 == i).map (·.2)).filterMap g.path?

theorem inserted_of_find? (h : g.find? p = some i) :
    g.inserted p = ((g.edges.filter fun e => e.1 == i).map (·.2)).filterMap g.path? := by
  unfold inserted
  rw [h]

open scoped List in
/-- The two lists of neighbours have the same files. -/
theorem referencing_perm_inserted (g : RefGraph) (p : Path) : g.referencing p ~ g.inserted p := by
  unfold referencing inserted ascending
  cases g.find? p with
  | none => exact List.Perm.refl _
  | some i => exact (List.mergeSort_perm _ _).filterMap _

/-- Files looked up by numbers that ascend are met in the order of the files. -/
theorem filterMap_getElem?_sublist {ps : List Path} {is : List Nat} (hasc : is.Pairwise (· < ·)) :
    (is.filterMap fun i => ps[i]?).Sublist ps := by
  let place (i : Nat) : Option (Fin ps.length) := if h : i < ps.length then some ⟨i, h⟩ else none
  have hplaces : (is.filterMap place).Pairwise (· < ·) := by
    refine List.pairwise_filterMap.mpr (hasc.imp fun hij k hk l hl => ?_)
    simp only [place, Option.dite_none_right_eq_some, Option.some.injEq] at hk hl
    obtain ⟨-, rfl⟩ := hk
    obtain ⟨-, rfl⟩ := hl
    exact hij
  have hfiles : (is.filterMap fun i => ps[i]?) = (is.filterMap place).map fun k => ps[k] := by
    rw [List.map_filterMap]
    refine List.filterMap_congr fun i _ => ?_
    simp only [place]
    split
    · next h => exact List.getElem?_eq_getElem h
    · next h => exact List.getElem?_eq_none (Nat.le_of_not_lt h)
  rw [hfiles]
  exact List.map_getElem_sublist hplaces

theorem pairwise_ascending (is : List Nat) : (ascending is).Pairwise (· ≤ ·) := by
  have htrans : ∀ i j k : Nat, decide (i ≤ j) = true → decide (j ≤ k) = true →
      decide (i ≤ k) = true := by
    simpa using fun i j k => Nat.le_trans
  have htotal : ∀ i j : Nat, (decide (i ≤ j) || decide (j ≤ i)) = true := by
    simpa using Nat.le_total
  exact (List.pairwise_mergeSort htrans htotal is).imp of_decide_eq_true

theorem referencing_sublist (h : g.WellFormed) (p : Path) : (g.referencing p).Sublist g.paths := by
  cases hfind : g.find? p with
  | none =>
    rw [referencing_of_find?_eq_none hfind]
    exact List.nil_sublist _
  | some i =>
    unfold referencing
    simp only [hfind]
    have hne := (List.mergeSort_perm _ fun i j : Nat => decide (i ≤ j)).nodup_iff.mpr
      (h.nodup_heads i)
    exact filterMap_getElem?_sublist
      ((pairwise_ascending _).imp₂ (fun _ _ => Nat.lt_of_le_of_ne) hne)

theorem eq_filter_of_sublist {ps qs : List Path} (hs : ps.Sublist qs) (hqs : qs.Nodup) :
    ps = qs.filter fun p => decide (p ∈ ps) := by
  have hsub := hs.filter fun p => decide (p ∈ ps)
  rw [List.filter_eq_self.mpr fun p hp => by simpa using hp] at hsub
  refine hsub.eq_of_length_le (List.Nodup.length_le_of_subset (hqs.filter _) fun p hp => ?_)
  simpa using (List.mem_filter.mp hp).2

/-- **Neighbours are listed by number**: as the graph lists all of its files, without regard to when the
edges to them were added. -/
theorem referencing_eq_filter (h : g.WellFormed) (p : Path) :
    g.referencing p = g.paths.filter fun q => decide (q ∈ g.inserted p) := by
  rw [eq_filter_of_sublist (referencing_sublist h p) h.apart.nodup]
  refine List.filter_congr fun q _ => ?_
  exact decide_eq_decide.mpr (referencing_perm_inserted g p).mem_iff

/-! ## 4. The neighbours of a file with one branch -/

section OfTree

variable {t : RefTree} {rootPath : Option Path} {n : Nat × RefTree}

/-- Where the root stands for its own file and what files name determines their text, a number stands
for a file of the tree as it is written there. -/
theorem path?_ofTree_of_at (hroot : rootPath.getD t.file = t.file)
    (htext : ∀ m ∈ t.walk, ∀ n ∈ t.walk, m.2.file.Same n.2.file → m.2.file = n.2.file)
    (hn : n ∈ t.walk) (hat : (ofTree t rootPath).At i n.2.file) :
    (ofTree t rootPath).path? i = some n.2.file := by
  obtain ⟨q, hq, hsame⟩ := hat
  have hmem := List.mem_of_getElem? hq
  rw [(shows_ofTree t rootPath).2 hroot] at hmem
  obtain ⟨m, hm, rfl⟩ := List.mem_map.mp (mem_of_mem_distinct hmem)
  rw [path?, hq, htext m hm n hn hsame]

theorem exists_find?_ofTree (hroot : rootPath.getD t.file = t.file) (hn : n ∈ t.walk) :
    ∃ i, (ofTree t rootPath).find? n.2.file = some i := by
  obtain ⟨q, hq, hsame⟩ := exists_same_mem_distinct (List.mem_map_of_mem (f := (·.2.file)) hn)
  have hmem : q ∈ (ofTree t rootPath).paths := by
    rw [(shows_ofTree t rootPath).2 hroot]
    exact hq
  obtain ⟨i, hi⟩ := List.mem_iff_getElem?.mp hmem
  exact ⟨i, (wellFormed_ofTree t rootPath).find?_eq_some_iff.mpr ⟨q, hi, hsame⟩⟩

/-- What is inserted for a file are heads of arrows that lead away from it, in the order of these. -/
theorem exists_inserted_eq (hroot : rootPath.getD t.file = t.file)
    (htext : ∀ m ∈ t.walk, ∀ n ∈ t.walk, m.2.file.Same n.2.file → m.2.file = n.2.file)
    (hn : n ∈ t.walk) : ∃ as : List (Path × Path),
      as.Sublist (RefTree.arrowsOut n.2.file t.file t.links) ∧
        (ofTree t rootPath).inserted n.2.file = as.map (·.2) := by
  obtain ⟨i, hfind⟩ := exists_find?_ofTree hroot hn
  obtain ⟨drawn, hd⟩ := exists_drawn_ofTree t rootPath
  rw [hroot] at hd
  refine ⟨(drawn.filter fun d => decide (d.1.1.Same n.2.file)).map (·.1), ?_, ?_⟩
  · have hsub := hd.sublist.filter fun a => decide (a.1.Same n.2.file)
    rwa [List.filter_map] at hsub
  · rw [inserted_of_find? hfind, hd.heads_eq (wellFormed_ofTree t rootPath) (at_of_find? hfind),
      List.filterMap_map, List.map_map, ← List.filterMap_eq_map]
    refine List.filterMap_congr fun d hmem => ?_
    have hmem := (List.mem_filter.mp hmem).1
    have hfile := (RefTree.mem_files_of_mem_arrows t.file t.links 1 d.1
      (hd.sublist.subset (List.mem_map_of_mem hmem))).2
    obtain ⟨m, hm, hfile⟩ : ∃ m ∈ t.walk, m.2.file = d.1.2 := by
      rw [RefTree.walk_eq_cons]
      exact List.mem_map.mp hfile
    have hpath := path?_ofTree_of_at hroot htext hm (hfile ▸ (hd.ends d hmem).2)
    rwa [hfile] at hpath

/-- **What is inserted are the links, in their order**, where one node has links for its file. -/
theorem inserted_ofTree (hroot : rootPath.getD t.file = t.file)
    (htext : ∀ m ∈ t.walk, ∀ n ∈ t.walk, m.2.file.Same n.2.file → m.2.file = n.2.file)
    (hn : t.walk.filter (RefTree.isBranch n.2.file) = [n])
    (hlinks : (n.2.links.map (·.file)).Nodup) :
    (ofTree t rootPath).inserted n.2.file = n.2.links.map (·.file) := by
  obtain ⟨hwalk, -⟩ := List.mem_filter.mp (hn ▸ List.mem_singleton_self n)
  obtain ⟨as, hsub, hins⟩ := exists_inserted_eq hroot htext hwalk
  have hlink : ∀ c ∈ n.2.links, (n.1 + 1, c) ∈ t.walk := fun c hc =>
    RefTree.mem_walk_of_mem_nodesAll (RefTree.mem_nodesAll_of_mem_walk hwalk hc)
  rw [RefTree.walk_eq_nodes] at hn
  rw [RefTree.arrowsOut_links_eq hn] at hsub
  have hsub' : (as.map (·.2)).Sublist (n.2.links.map (·.file)) := by
    have hheads := hsub.map Prod.snd
    rwa [List.map_map] at hheads
  rw [hins]
  refine hsub'.eq_of_length_le (List.Nodup.length_le_of_subset hlinks fun q hq => ?_)
  -- every link has its edge, so none is left out
  obtain ⟨c, hc, rfl⟩ := List.mem_map.mp hq
  have hrefers : t.Refers (rootPath.getD t.file) n.2.file c.file := by
    refine ⟨n, hwalk, c, hc, ?_, Same.refl _⟩
    rw [hroot, RefTree.standsFor_file hwalk]
    exact Same.refl _
  obtain ⟨q, hq, hsame⟩ := memSame_iff.mp ((memSame_referencing_ofTree t rootPath).mpr hrefers)
  rw [(referencing_perm_inserted _ _).mem_iff, hins] at hq
  obtain ⟨c', hc', rfl⟩ := List.mem_map.mp (hsub'.subset hq)
  rwa [← htext _ (hlink c' hc') _ (hlink c hc) hsame]

/-- **What is listed are the links as the whole tree lists its files**, and so it has their order just if
the tree lists them in their order. -/
theorem referencing_ofTree (hroot : rootPath.getD t.file = t.file)
    (htext : ∀ m ∈ t.walk, ∀ n ∈ t.walk, m.2.file.Same n.2.file → m.2.file = n.2.file)
    (hn : t.walk.filter (RefTree.isBranch n.2.file) = [n])
    (hlinks : (n.2.links.map (·.file)).Nodup) :
    (ofTree t rootPath).referencing n.2.file =
        t.filenames.filter (fun p => decide (p ∈ n.2.links.map (·.file))) ∧
      ((ofTree t rootPath).referencing n.2.file = n.2.links.map (·.file) ↔
        (n.2.links.map (·.file)).Sublist t.filenames) := by
  have hwf := wellFormed_ofTree t rootPath
  have hpaths := (shows_ofTree t rootPath).2 hroot
  have hlisted := referencing_eq_filter hwf n.2.file
  rw [inserted_ofTree hroot htext hn hlinks, hpaths] at hlisted
  refine ⟨hlisted, fun heq => ?_, fun hsub => ?_⟩
  · rw [← heq, ← hpaths]
    exact referencing_sublist hwf n.2.file
  · rw [hlisted]
    exact (eq_filter_of_sublist hsub (hpaths ▸ hwf.apart.nodup)).symm

end OfTree

end RefGraph
end Citator

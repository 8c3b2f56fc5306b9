import Citator.Proofs.Path.Sameness
import Citator.RefTree.Basic

/-!
# `Citator.Proofs.RefTree.Nodes` — the nodes of a tree, by recursion

The walk over a tree keeps a stack, so nothing can be proved about it by going down the tree. `nodes`
is what it yields, said by recursion: every node as the tree below it, with its depth, in pre-order.
`walk_eq_nodes` is the only place where the stack is looked at.
-/

namespace Citator.RefTree

mutual

/-- The nodes of a tree in pre-order, each as the tree below it, with its depth. -/
def nodes (depth : Nat) : RefTree → List (Nat × RefTree)
  | .node f ls => (depth, .node f ls) :: nodesAll (depth + 1) ls

def nodesAll (depth : Nat) : List RefTree → List (Nat × RefTree)
  | [] => []
  | t :: ts => nodes depth t ++ nodesAll depth ts

end

theorem nodes_eq (depth : Nat) (t : RefTree) :
    nodes depth t = (depth, t) :: nodesAll (depth + 1) t.links := by
  cases t with
  | node f ls => rfl

theorem nodesAll_eq_flatMap (depth : Nat) (ts : List RefTree) :
    nodesAll depth ts = ts.flatMap (nodes depth) := by
  induction ts with
  | nil => rfl
  | cons t ts ih => rw [nodesAll, ih, List.flatMap_cons]

/-- What the walk yields from any stack: the nodes below its entries, top first. It has to be any
stack, since after the first step there are several trees on it, each at its own depth. -/
theorem walkStack_eq_flatMap (stack : List (Nat × RefTree)) :
    walkStack stack = stack.flatMap fun t => nodes t.1 t.2 := by
  induction stack using walkStack.induct with
  | case1 => rw [walkStack]; rfl
  | case2 depth t stack ih =>
    -- the links that take the top's place yield what `nodes` puts behind it
    rw [walkStack, ih, List.flatMap_cons, nodes_eq, List.flatMap_append, List.flatMap_map,
      nodesAll_eq_flatMap]
    rfl

/-- **The walk is the pre-order.** -/
theorem walk_eq_nodes (t : RefTree) : t.walk = t.nodes 0 := by
  rw [walk, walkStack_eq_flatMap]
  simp

theorem walk_eq_cons (t : RefTree) : t.walk = (0, t) :: nodesAll 1 t.links := by
  rw [walk_eq_nodes, nodes_eq]

theorem walk_leaf (p : Path) : (leaf p).walk = [(0, leaf p)] := by
  rw [walk_eq_cons]
  rfl

theorem nodeCount_pos (t : RefTree) : 0 < t.nodeCount := by
  rw [nodeCount, walk_eq_cons]
  exact Nat.succ_pos _

theorem mem_walk_of_mem_nodesAll {t : RefTree} {n : Nat × RefTree} (hn : n ∈ nodesAll 1 t.links) :
    n ∈ t.walk := by
  rw [walk_eq_cons]
  exact List.mem_cons_of_mem _ hn

/-! ## How many nodes there are -/

mutual

theorem length_nodes (depth : Nat) : ∀ t : RefTree, (nodes depth t).length = t.size
  | .node f ls => by
    rw [nodes, List.length_cons, length_nodesAll (depth + 1) ls, size, Nat.add_comm]

theorem length_nodesAll (depth : Nat) :
    ∀ ts : List RefTree, (nodesAll depth ts).length = sizeAll ts
  | [] => rfl
  | t :: ts => by
    rw [nodesAll, List.length_append, length_nodes depth t, length_nodesAll depth ts, sizeAll]

end

/-- The walk meets every node once. -/
theorem nodeCount_eq_size (t : RefTree) : t.nodeCount = t.size := by
  rw [nodeCount, walk_eq_nodes, length_nodes]

theorem sizeAll_eq_zero_iff {ts : List RefTree} : sizeAll ts = 0 ↔ ts = [] := by
  cases ts with
  | nil => simp [sizeAll]
  | cons t ts =>
    cases t with
    | node f ls => simp [sizeAll, size]

/-! ## Where nodes stand -/

theorem mem_nodes_self (depth : Nat) (t : RefTree) : (depth, t) ∈ t.nodes depth := by
  rw [nodes_eq]
  exact List.mem_cons_self

theorem mem_nodesAll_of_mem {depth : Nat} {t : RefTree} {ts : List RefTree} (h : t ∈ ts) :
    (depth, t) ∈ nodesAll depth ts := by
  rw [nodesAll_eq_flatMap]
  exact List.mem_flatMap.mpr ⟨t, h, mem_nodes_self depth t⟩

mutual

/-- What is a node of a node is a node of the tree, and at the same depth: the nodes carry the depths
that they have in the whole tree. -/
theorem nodes_subset {n : Nat × RefTree} :
    ∀ {t : RefTree} {depth : Nat}, n ∈ nodes depth t → n.2.nodes n.1 ⊆ t.nodes depth
  | .node f ls, depth, h => by
    rcases List.mem_cons.mp h with rfl | h
    · exact fun _ hm => hm
    · exact fun m hm => List.mem_cons_of_mem _ (nodesAll_subset h hm)

theorem nodesAll_subset {n : Nat × RefTree} :
    ∀ {ts : List RefTree} {depth : Nat}, n ∈ nodesAll depth ts → n.2.nodes n.1 ⊆ nodesAll depth ts
  | [], _, h => absurd h (by simp [nodesAll])
  | t :: ts, depth, h => by
    rcases List.mem_append.mp h with h | h
    · exact fun m hm => List.mem_append_left _ (nodes_subset h hm)
    · exact fun m hm => List.mem_append_right _ (nodesAll_subset h hm)

end

theorem mem_nodes_of_mem_links {n : Nat × RefTree} {c : RefTree} (hc : c ∈ n.2.links) :
    (n.1 + 1, c) ∈ n.2.nodes n.1 := by
  rw [nodes_eq]
  exact List.mem_cons_of_mem _ (mem_nodesAll_of_mem hc)

theorem mem_nodesAll_of_mem_links {n : Nat × RefTree} {ts : List RefTree} {c : RefTree} {depth : Nat}
    (hn : n ∈ nodesAll depth ts) (hc : c ∈ n.2.links) : (n.1 + 1, c) ∈ nodesAll depth ts :=
  nodesAll_subset hn (mem_nodes_of_mem_links hc)

/-- The links of a node stand below the root, one level below the node. -/
theorem mem_nodesAll_of_mem_walk {t c : RefTree} {n : Nat × RefTree} (hn : n ∈ t.walk)
    (hc : c ∈ n.2.links) : (n.1 + 1, c) ∈ nodesAll 1 t.links := by
  rw [walk_eq_cons] at hn
  rcases List.mem_cons.mp hn with rfl | hn
  · exact mem_nodesAll_of_mem hc
  · exact mem_nodesAll_of_mem_links hn hc

mutual

theorem le_depth_of_mem_nodes {n : Nat × RefTree} :
    ∀ {t : RefTree} {depth : Nat}, n ∈ nodes depth t → depth ≤ n.1
  | .node f ls, depth, h => by
    rcases List.mem_cons.mp h with rfl | h
    · exact Nat.le_refl _
    · exact Nat.le_of_succ_le (le_depth_of_mem_nodesAll h)

theorem le_depth_of_mem_nodesAll {n : Nat × RefTree} :
    ∀ {ts : List RefTree} {depth : Nat}, n ∈ nodesAll depth ts → depth ≤ n.1
  | [], _, h => absurd h (by simp [nodesAll])
  | t :: ts, depth, h => by
    rcases List.mem_append.mp h with h | h
    · exact le_depth_of_mem_nodes h
    · exact le_depth_of_mem_nodesAll h

end

mutual

/-- A node that is none of the roots is a link of a node one level above it. -/
theorem exists_parent_of_mem_nodes {n : Nat × RefTree} :
    ∀ {t : RefTree} {depth : Nat}, n ∈ nodes depth t →
      n = (depth, t) ∨ ∃ m ∈ nodes depth t, n.2 ∈ m.2.links ∧ n.1 = m.1 + 1
  | .node f ls, depth, h => by
    rcases List.mem_cons.mp h with rfl | h
    · exact Or.inl rfl
    · refine Or.inr ?_
      rcases exists_parent_of_mem_nodesAll h with ⟨hd, hmem⟩ | ⟨m, hm, hlink⟩
      · exact ⟨_, List.mem_cons_self, hmem, hd⟩
      · exact ⟨m, List.mem_cons_of_mem _ hm, hlink⟩

theorem exists_parent_of_mem_nodesAll {n : Nat × RefTree} :
    ∀ {ts : List RefTree} {depth : Nat}, n ∈ nodesAll depth ts →
      (n.1 = depth ∧ n.2 ∈ ts) ∨ ∃ m ∈ nodesAll depth ts, n.2 ∈ m.2.links ∧ n.1 = m.1 + 1
  | [], _, h => absurd h (by simp [nodesAll])
  | t :: ts, depth, h => by
    rcases List.mem_append.mp h with h | h
    · rcases exists_parent_of_mem_nodes h with rfl | ⟨m, hm, hlink⟩
      · exact Or.inl ⟨rfl, List.mem_cons_self⟩
      · exact Or.inr ⟨m, List.mem_append_left _ hm, hlink⟩
    · rcases exists_parent_of_mem_nodesAll h with ⟨hd, hmem⟩ | ⟨m, hm, hlink⟩
      · exact Or.inl ⟨hd, List.mem_cons_of_mem _ hmem⟩
      · exact Or.inr ⟨m, List.mem_append_right _ hm, hlink⟩

end

/-! ## The height of a tree -/

mutual

/-- The greatest depth is taken along the walk. It is followed from any depth `a` that was met before,
so that the induction can go from one link to the next. -/
theorem foldl_max_nodes : ∀ (t : RefTree) (depth a : Nat),
    ((nodes depth t).map (·.1)).foldl max a = max a (depth + t.height)
  | .node f ls, depth, a => by
    rw [nodes, List.map_cons, List.foldl_cons, height,
      foldl_max_nodesAll ls depth (max a depth) (Nat.le_max_right a depth)]
    omega

theorem foldl_max_nodesAll : ∀ (ts : List RefTree) (depth a : Nat), depth ≤ a →
    ((nodesAll (depth + 1) ts).map (·.1)).foldl max a = max a (depth + heightAll ts)
  | [], _, _, h => (Nat.max_eq_left h).symm
  | t :: ts, depth, a, h => by
    rw [nodesAll, List.map_append, List.foldl_append, foldl_max_nodes t, heightAll,
      foldl_max_nodesAll ts depth _ (by omega)]
    omega

end

/-- The greatest depth that the walk meets is the height. -/
theorem depth_eq_height (t : RefTree) : t.depth = t.height := by
  rw [depth, walk_eq_nodes, foldl_max_nodes, Nat.zero_add, Nat.zero_max]

/-! ## The files of a tree -/

mutual

/-- What the nodes are does not depend on the depth at which the tree stands. -/
theorem map_snd_nodes (depth k : Nat) :
    ∀ t : RefTree, (nodes depth t).map (·.2) = (nodes k t).map (·.2)
  | .node f ls => by
    rw [nodes, nodes, List.map_cons, List.map_cons, map_snd_nodesAll (depth + 1) (k + 1) ls]

theorem map_snd_nodesAll (depth k : Nat) :
    ∀ ts : List RefTree, (nodesAll depth ts).map (·.2) = (nodesAll k ts).map (·.2)
  | [] => rfl
  | t :: ts => by
    rw [nodesAll, nodesAll, List.map_append, List.map_append, map_snd_nodes depth k t,
      map_snd_nodesAll depth k ts]

end

theorem filenames_eq (t : RefTree) :
    t.filenames = Path.distinct ((t.nodes 0).map (·.2.file)) := by
  rw [filenames, walk_eq_nodes]

/-- A file is in a tree if a node stands for it, where what files name determines their text. -/
theorem mem_filenames_iff {t : RefTree} {p : Path} (depth : Nat)
    (htext : ∀ m ∈ t.nodes depth, ∀ n ∈ t.nodes depth, m.2.file.Same n.2.file → m.2.file = n.2.file) :
    p ∈ t.filenames ↔ ∃ n ∈ t.nodes depth, n.2.file = p := by
  have hfiles : (t.nodes 0).map (·.2.file) = (t.nodes depth).map (·.2.file) := by
    -- the walk counts depths from zero, and its files are the same from any depth
    have hsnd := congrArg (List.map file) (map_snd_nodes 0 depth t)
    rw [List.map_map, List.map_map] at hsnd
    exact hsnd
  rw [filenames_eq, hfiles, Path.mem_distinct_iff, List.mem_map]
  intro q hq r hr hsame
  obtain ⟨m, hm, rfl⟩ := List.mem_map.mp hq
  obtain ⟨n, hn, rfl⟩ := List.mem_map.mp hr
  exact htext m hm n hn hsame

end Citator.RefTree

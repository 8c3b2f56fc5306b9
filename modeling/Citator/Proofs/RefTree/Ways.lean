import Citator.Proofs.RefTree.Nodes

/-!
# `Citator.Proofs.RefTree.Ways` — where a node stands in its tree

A tree can hold two equal trees, so a node is not known by what it is, but by where it stands. A *way*
leads down from the root; it says at each node which of the links comes next, and its length is the depth
of the node it leads to. `ways` has the ways to all nodes in pre-order, one for each node of the walk.

Two trees have the same shape if the same ways lead to nodes of both.
-/

namespace Citator.RefTree

/-- The node that a way leads to, if there is one. -/
def at? (t : RefTree) : List Nat → Option RefTree
  | [] => some t
  | i :: way => t.links[i]?.bind fun c => c.at? way

mutual

/-- The ways to the nodes of a tree in pre-order. -/
def ways : RefTree → List (List Nat)
  | .node _ ls => [] :: waysAll 0 ls

/-- The ways to the nodes of several trees, which are links of one node. The first has the given place
among the links. -/
def waysAll (i : Nat) : List RefTree → List (List Nat)
  | [] => []
  | t :: ts => (ways t).map (i :: ·) ++ waysAll (i + 1) ts

end

variable {f : Path} {t : RefTree} {front ts : List RefTree} {way : List Nat}

theorem ways_eq (t : RefTree) : t.ways = [] :: waysAll 0 t.links := by
  cases t with
  | node f ls => rfl

theorem getElem?_links_length :
    (node f (front ++ t :: ts)).links[front.length]? = some t := by
  simp [links]

/-- A way through a link goes on in the link. -/
theorem at?_length_cons (way : List Nat) :
    (node f (front ++ t :: ts)).at? (front.length :: way) = t.at? way := by
  rw [at?, getElem?_links_length, Option.bind_some]

mutual

/-- The ways lead to the nodes of the walk, one after the other. -/
theorem map_nodes_eq_map_ways (depth : Nat) : ∀ t : RefTree,
    (nodes depth t).map (fun n => (n.1, some n.2)) =
      t.ways.map fun way => (depth + way.length, t.at? way)
  | .node f ls => by
    rw [nodes, ways, List.map_cons, List.map_cons, map_nodesAll_eq_map_waysAll depth f ls []]
    rfl

/-- The links behind `front` are counted on from its length, so the ways through them lead to them in
the whole node. The recursion is on the links that are left, and `front` takes in each that is passed.
-/
theorem map_nodesAll_eq_map_waysAll (depth : Nat) (f : Path) : ∀ ts front : List RefTree,
    (nodesAll (depth + 1) ts).map (fun n => (n.1, some n.2)) =
      (waysAll front.length ts).map fun way => (depth + way.length, (node f (front ++ ts)).at? way)
  | [], _ => rfl
  | t :: ts, front => by
    have hrest := map_nodesAll_eq_map_waysAll depth f ts (front ++ [t])
    rw [List.length_append, List.append_assoc] at hrest
    have hways : t.ways.map (fun way => (depth + 1 + way.length, t.at? way)) =
        (t.ways.map (front.length :: ·)).map fun way =>
          (depth + way.length, (node f (front ++ t :: ts)).at? way) := by
      rw [List.map_map]
      apply List.map_congr_left
      intro way _
      rw [Function.comp_apply, at?_length_cons, List.length_cons, Nat.add_right_comm, Nat.add_assoc]
    rw [nodesAll, waysAll, List.map_append, List.map_append, map_nodes_eq_map_ways, hways, hrest]
    rfl

end

theorem map_walk_eq_map_ways (t : RefTree) :
    t.walk.map (fun n => (n.1, some n.2)) = t.ways.map fun way => (way.length, t.at? way) := by
  rw [walk_eq_nodes, map_nodes_eq_map_ways]
  simp only [Nat.zero_add]

theorem length_ways (t : RefTree) : t.ways.length = t.nodeCount := by
  have hlen := congrArg List.length (map_walk_eq_map_ways t)
  rwa [List.length_map, List.length_map, eq_comm] at hlen

/-- The node of the walk that a way leads to. -/
theorem exists_mem_walk_of_mem_ways (h : way ∈ t.ways) :
    ∃ n ∈ t.walk, n.1 = way.length ∧ t.at? way = some n.2 := by
  have hmem := List.mem_map_of_mem (f := fun way => (way.length, t.at? way)) h
  rw [← map_walk_eq_map_ways] at hmem
  obtain ⟨n, hn, heq⟩ := List.mem_map.mp hmem
  obtain ⟨hlen, hat⟩ := Prod.mk.inj heq
  exact ⟨n, hn, hlen, hat.symm⟩

theorem getElem?_ways_of_walk {i : Nat} {n : Nat × RefTree} (h : t.walk[i]? = some n) :
    ∃ way, t.ways[i]? = some way ∧ way.length = n.1 ∧ t.at? way = some n.2 := by
  have hat := congrArg (·[i]?) (map_walk_eq_map_ways t)
  simp only [List.getElem?_map, h, Option.map_some] at hat
  obtain ⟨way, hway, heq⟩ := Option.map_eq_some_iff.mp hat.symm
  obtain ⟨hlen, hat⟩ := Prod.mk.inj heq
  exact ⟨way, hway, hlen, hat⟩

/-- A way to a node below the root has a first step. So it is never the way to the root, though the
root may be equal to what it leads to. -/
theorem ne_nil_of_mem_waysAll {i : Nat} (h : way ∈ waysAll i ts) : way ≠ [] := by
  induction ts generalizing i with
  | nil => exact absurd h (by simp [waysAll])
  | cons t ts ih =>
    cases List.mem_append.mp h with
    | inl hfirst =>
      obtain ⟨rest, -, rfl⟩ := List.mem_map.mp hfirst
      exact List.cons_ne_nil _ _
    | inr hrest => exact ih hrest

/-! ## Other files in the same places -/

mutual

/-- The tree with other files in the same places. -/
def relabel (g : Path → Path) : RefTree → RefTree
  | .node f ls => .node (g f) (relabelAll g ls)

def relabelAll (g : Path → Path) : List RefTree → List RefTree
  | [] => []
  | t :: ts => relabel g t :: relabelAll g ts

end

variable {g : Path → Path}

theorem relabelAll_eq_map (ts : List RefTree) : relabelAll g ts = ts.map (relabel g) := by
  induction ts with
  | nil => rfl
  | cons t ts ih => rw [relabelAll, ih, List.map_cons]

theorem file_relabel (t : RefTree) : (t.relabel g).file = g t.file := by
  cases t with
  | node f ls => rfl

theorem links_relabel (t : RefTree) : (t.relabel g).links = t.links.map (relabel g) := by
  cases t with
  | node f ls => exact relabelAll_eq_map ls

theorem at?_relabel (t : RefTree) (way : List Nat) :
    (t.relabel g).at? way = (t.at? way).map (relabel g) := by
  induction way generalizing t with
  | nil => rfl
  | cons i way ih =>
    rw [at?, at?, links_relabel, List.getElem?_map]
    cases t.links[i]? with
    | none => rfl
    | some c => exact ih c

mutual

/-- The files are exchanged one by one in the listing too. What is said of a listing's depths is said
of the shape of the tree and not of its files. -/
theorem listing_relabel (depth : Nat) : ∀ t : RefTree,
    (t.relabel g).listing depth = (t.listing depth).map fun n => (n.1, g n.2)
  | .node f ls => by rw [relabel, listing, listing, listingAll_relabelAll, List.map_cons]

theorem listingAll_relabelAll (depth : Nat) : ∀ ts : List RefTree,
    listingAll depth (relabelAll g ts) = (listingAll depth ts).map fun n => (n.1, g n.2)
  | [] => rfl
  | t :: ts => by
    rw [relabelAll, listingAll, listingAll, List.map_append, listing_relabel depth t,
      listingAll_relabelAll depth ts]

end

end Citator.RefTree

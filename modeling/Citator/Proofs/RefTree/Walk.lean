import Mathlib.Algebra.GroupWithZero.Nat
import Citator.Proofs.RefTree.Listing

/-!
# `Citator.Proofs.RefTree.Walk` — a walk, one node after the other

A walk is asked for one node at a time. What it knows in between is a stack: the top is taken off, and the
links of its node are put on in reverse, so that the first of them is on top. `HandsOut` says what such a walk
hands out before the stack is empty.

What carries the proof is a fact about *any* stack (`handsOut_iff`): it yields the nodes below its entries,
top first, and a single step takes the first of these away and leaves the others (`ahead_of_next?`). So the
walk of a tree is its pre-order, and whatever is counted along the walk can be counted by going down the
tree instead.
-/

namespace Citator

namespace Path

/-- The paths of a list that are not the same as one before them. -/
def firstSpellings (ps : List Path) : List Path :=
  (ps.zipIdx.filter fun x => !x.1.memSame (ps.take x.2)).map (·.1)

theorem firstSpellings_cons (p : Path) (ps : List Path) :
    firstSpellings (p :: ps) = p :: (firstSpellings ps).filter fun q => !decide (p.Same q) := by
  unfold firstSpellings
  rw [List.zipIdx_cons, List.filter_cons_of_pos (by simp [memSame]), List.map_cons, Nat.zero_add,
    List.zipIdx_succ, List.filter_map, List.map_map, List.filter_map, List.filter_filter]
  congr 2
  apply List.filter_congr
  intro x _
  simp [memSame]

theorem distinct_eq_firstSpellings (ps : List Path) : distinct ps = firstSpellings ps := by
  induction ps with
  | nil => rfl
  | cons p ps ih => rw [distinct_cons, firstSpellings_cons, ih]

end Path

namespace RefTree

/-! ## 1. Step by step -/

/-- The node that a walk hands out next, and the stack that is left. The top of a stack is its end. -/
def next? (stack : List (Nat × RefTree)) : Option ((Nat × RefTree) × List (Nat × RefTree)) :=
  stack.getLast?.map fun top =>
    (top, stack.dropLast ++ top.2.links.reverse.map fun c => (top.1 + 1, c))

/-- What a walk hands out from a stack on, until it has nothing more. -/
inductive HandsOut : List (Nat × RefTree) → List (Nat × RefTree) → Prop
  | done {stack : List (Nat × RefTree)} (hnext : next? stack = none) : HandsOut stack []
  | node {stack stack' ns : List (Nat × RefTree)} {n : Nat × RefTree}
      (hnext : next? stack = some (n, stack')) (hrest : HandsOut stack' ns) : HandsOut stack (n :: ns)

variable {stack stack' ns : List (Nat × RefTree)} {n : Nat × RefTree}

/-- The nodes below the entries of a stack, those of the top first. -/
def ahead (stack : List (Nat × RefTree)) : List (Nat × RefTree) :=
  stack.reverse.flatMap fun n => nodes n.1 n.2

theorem ahead_append (stack below : List (Nat × RefTree)) :
    ahead (below ++ stack) = ahead stack ++ ahead below := by
  rw [ahead, List.reverse_append, List.flatMap_append]
  rfl

/-- A step hands out the first of what is ahead. -/
theorem ahead_of_next? (h : next? stack = some (n, stack')) : ahead stack = n :: ahead stack' := by
  obtain ⟨top, htop, heq⟩ := Option.map_eq_some_iff.mp h
  obtain ⟨rfl, rfl⟩ := Prod.mk.inj heq
  obtain ⟨below, rfl⟩ := List.getLast?_eq_some_iff.mp htop
  -- the links go on in reverse, and a stack is read in reverse
  have hlinks : ahead (top.2.links.reverse.map fun c => (top.1 + 1, c)) =
      nodesAll (top.1 + 1) top.2.links := by
    rw [ahead, ← List.map_reverse, List.reverse_reverse, List.flatMap_map, nodesAll_eq_flatMap]
  have htop : ahead [top] = top :: nodesAll (top.1 + 1) top.2.links := by
    rw [← nodes_eq]
    exact List.append_nil _
  rw [List.dropLast_concat, ahead_append, ahead_append, hlinks, htop, List.cons_append]

theorem ahead_of_next?_eq_none (h : next? stack = none) : ahead stack = [] := by
  rw [next?, Option.map_eq_none_iff, List.getLast?_eq_none_iff] at h
  rw [h]
  rfl

/-- **A walk hands out what is ahead of it**, and comes to an end. -/
theorem handsOut_iff : HandsOut stack ns ↔ ns = ahead stack := by
  constructor
  · intro h
    induction h with
    | done hnext => rw [ahead_of_next?_eq_none hnext]
    | node hnext _ ih => rw [ahead_of_next? hnext, ih]
  · intro h
    induction ns generalizing stack with
    | nil =>
      cases hnext : next? stack with
      | none => exact .done hnext
      | some r =>
        rw [ahead_of_next? hnext] at h
        exact absurd h (List.cons_ne_nil _ _).symm
    | cons n ns ih =>
      cases hnext : next? stack with
      | none =>
        rw [ahead_of_next?_eq_none hnext] at h
        exact absurd h (List.cons_ne_nil _ _)
      | some r =>
        rw [ahead_of_next? hnext] at h
        obtain ⟨rfl, hrest⟩ := List.cons.inj h
        exact .node hnext (ih hrest)

theorem ahead_singleton (t : RefTree) : ahead [(0, t)] = t.walk := by
  rw [walk_eq_nodes]
  exact List.append_nil _

/-! ## 2. Down the tree -/

mutual

/-- One level deeper stand the same nodes. -/
theorem nodes_succ (depth : Nat) :
    ∀ t : RefTree, nodes (depth + 1) t = (nodes depth t).map fun n => (n.1 + 1, n.2)
  | .node f ls => by rw [nodes, nodes, nodesAll_succ (depth + 1) ls, List.map_cons]

theorem nodesAll_succ (depth : Nat) :
    ∀ ts : List RefTree, nodesAll (depth + 1) ts = (nodesAll depth ts).map fun n => (n.1 + 1, n.2)
  | [] => rfl
  | t :: ts => by
    rw [nodesAll, nodesAll, nodes_succ depth t, nodesAll_succ depth ts, List.map_append]

end

theorem walk_eq_cons_flatMap (t : RefTree) :
    t.walk = (0, t) :: t.links.flatMap fun c => c.walk.map fun n => (n.1 + 1, n.2) := by
  have hlinks : nodes 1 = fun c : RefTree => c.walk.map fun n => (n.1 + 1, n.2) := by
    funext c
    rw [walk_eq_nodes, ← nodes_succ]
  rw [walk_eq_cons, nodesAll_eq_flatMap, hlinks]

theorem map_walk_eq_listing (t : RefTree) :
    t.walk.map (fun n => (n.1, n.2.file)) = t.listing 0 := by
  rw [walk_eq_nodes, map_nodes_eq_listing]

theorem listing_succ (depth : Nat) (t : RefTree) :
    t.listing (depth + 1) = (t.listing depth).map fun n => (n.1 + 1, n.2) := by
  rw [← map_nodes_eq_listing, ← map_nodes_eq_listing, nodes_succ, List.map_map, List.map_map]
  rfl

theorem listingAll_eq_flatMap (depth : Nat) (ts : List RefTree) :
    listingAll depth ts = ts.flatMap (listing depth) := by
  induction ts with
  | nil => rfl
  | cons t ts ih => rw [listingAll, ih, List.flatMap_cons]

theorem listing_eq (depth : Nat) (t : RefTree) :
    t.listing depth = (depth, t.file) :: t.links.flatMap (listing (depth + 1)) := by
  cases t with
  | node f ls =>
    rw [listing, listingAll_eq_flatMap]
    rfl

/-- What a new link has is listed behind all that was there. -/
theorem listing_addLink (depth : Nat) (t c : RefTree) :
    (t.addLink c).listing depth = t.listing depth ++ c.listing (depth + 1) := by
  rw [listing_eq, listing_eq depth t]
  show (depth, t.file) :: (t.links ++ [c]).flatMap _ = _
  rw [List.flatMap_append, List.flatMap_singleton, List.cons_append]

/-- A listing has the depths beside the files, and that is enough to tell the trees apart: what stands
deeper belongs to the node before it, up to the next one that does not. -/
theorem listing_injective {t t' : RefTree} (h : t'.listing 0 = t.listing 0) : t' = t := by
  have hread := ofListing?_listing t'
  rw [h, ofListing?_listing] at hread
  exact (Option.some.inj hread).symm

/-! ## 3. Counts -/

theorem sizeAll_eq_sum (ts : List RefTree) : sizeAll ts = (ts.map size).sum := by
  induction ts with
  | nil => rfl
  | cons t ts ih => rw [sizeAll, ih, List.map_cons, List.sum_cons]

theorem nodeCount_eq (t : RefTree) : t.nodeCount = 1 + (t.links.map nodeCount).sum := by
  have hcount : nodeCount = size := funext nodeCount_eq_size
  rw [hcount]
  cases t with
  | node f ls =>
    rw [size, sizeAll_eq_sum]
    rfl

theorem heightAll_eq_max? (ts : List RefTree) : heightAll ts = (ts.map height).max?.elim 0 (1 + ·) := by
  induction ts with
  | nil => rfl
  | cons t ts ih =>
    rw [heightAll, ih, List.map_cons, List.max?_cons]
    cases (ts.map height).max? with
    | none => simp [Nat.add_comm]
    | some d =>
      simp only [Option.elim_some]
      omega

theorem depth_eq (t : RefTree) : t.depth = (t.links.map depth).max?.elim 0 (1 + ·) := by
  have hdepth : depth = height := funext depth_eq_height
  rw [hdepth]
  cases t with
  | node f ls =>
    rw [height, heightAll_eq_max?]
    rfl

/-- The files of a tree, without those that are the same as one met before. They are found from the
listing, so the tree's shape plays no part. -/
theorem filenames_eq_firstSpellings (t : RefTree) :
    t.filenames = Path.firstSpellings ((t.listing 0).map (·.2)) := by
  rw [filenames, Path.distinct_eq_firstSpellings, ← map_walk_eq_listing, List.map_map]
  rfl

/-- **The walk lists the tree.** Node by node it hands out the root, and after it what the walks of the links
hand out, in their order and one level deeper. The files that it meets, with their depths, are the listing of
the tree; no other tree has this listing, and the tree is read back from it. The number of nodes and the
depth are found by going down the tree: one node and those of the links, and one more than the greatest
depth of a link, or nothing for a leaf. The files of the tree are those met, without the ones that are the
same as a file met before. A new link is listed behind all the rest, one level deeper than by itself. -/
theorem walk_exact (t : RefTree) :
    (∀ ns, HandsOut [(0, t)] ns ↔ ns = t.walk) ∧
    t.walk = (0, t) :: t.links.flatMap (fun c => c.walk.map fun n => (n.1 + 1, n.2)) ∧
    t.walk.map (fun n => (n.1, n.2.file)) = t.listing 0 ∧
    (∀ depth, t.listing depth = (depth, t.file) :: t.links.flatMap (listing (depth + 1))) ∧
    ofListing? (t.listing 0) = some t ∧
    (∀ t', t'.listing 0 = t.listing 0 ↔ t' = t) ∧
    t.nodeCount = 1 + (t.links.map nodeCount).sum ∧
    t.depth = (t.links.map depth).max?.elim 0 (1 + ·) ∧
    t.filenames = Path.firstSpellings ((t.listing 0).map (·.2)) ∧
    ∀ c, (t.addLink c).listing 0 = t.listing 0 ++ (c.listing 0).map fun n => (n.1 + 1, n.2) := by
  have hhands : ∀ ns, HandsOut [(0, t)] ns ↔ ns = t.walk := by
    intro ns
    rw [handsOut_iff, ahead_singleton]
  have hunique : ∀ t', t'.listing 0 = t.listing 0 ↔ t' = t := by
    intro t'
    constructor
    · exact listing_injective
    · intro h
      rw [h]
  have hlink : ∀ c, (t.addLink c).listing 0 =
      t.listing 0 ++ (c.listing 0).map fun n => (n.1 + 1, n.2) := by
    intro c
    rw [listing_addLink, listing_succ]
  exact ⟨hhands, walk_eq_cons_flatMap t, map_walk_eq_listing t, fun depth => listing_eq depth t,
    ofListing?_listing t, hunique, nodeCount_eq t, depth_eq t, filenames_eq_firstSpellings t, hlink⟩

end RefTree
end Citator

import Citator.Proofs.RefTree.Nodes

/-!
# `Citator.Proofs.RefTree.Listing` — a tree is its listing

The listing of a tree has its files in pre-order, each with its depth. That is enough to have the tree
back. A listing is put together from its end: behind a node come the trees that are complete already, and
those that stand one level deeper, up to the first that does not, are the links of the node. The invariant
is that what stands behind a tree is never deeper than its root.
-/

namespace Citator.RefTree

variable {depth : Nat} {rest : List (Nat × RefTree)}

mutual

/-- The listing of a tree has its nodes, each with its depth. -/
theorem map_nodes_eq_listing (depth : Nat) :
    ∀ t : RefTree, (nodes depth t).map (fun n => (n.1, n.2.file)) = listing depth t
  | .node f ls => by rw [nodes, listing, List.map_cons, map_nodesAll_eq_listingAll]; rfl

theorem map_nodesAll_eq_listingAll (depth : Nat) :
    ∀ ts : List RefTree, (nodesAll depth ts).map (fun n => (n.1, n.2.file)) = listingAll depth ts
  | [] => rfl
  | t :: ts => by
    rw [nodesAll, listingAll, List.map_append, map_nodes_eq_listing, map_nodesAll_eq_listingAll]

end

/-- Links and what stands behind them are told apart by their depths. -/
theorem absorb_append (f : Path) (ls : List RefTree) (h : ∀ r ∈ rest.head?, r.1 ≤ depth) :
    absorb (depth, f) (ls.map (fun t => (depth + 1, t)) ++ rest) = (depth, .node f ls) :: rest := by
  have hlinks : ∀ r ∈ ls.map (fun t => (depth + 1, t)), (r.1 == depth + 1) = true := by
    intro r hr
    obtain ⟨t, -, rfl⟩ := List.mem_map.mp hr
    exact beq_self_eq_true _
  rw [absorb, List.takeWhile_append_of_pos hlinks, List.dropWhile_append_of_pos hlinks]
  cases rest with
  | nil => simp [Function.comp_def]
  | cons r rest =>
    have hr : (r.1 == depth + 1) = false := by
      have hle := h r rfl
      rw [beq_eq_false_iff_ne]
      omega
    simp [hr, Function.comp_def]

mutual

theorem foldr_absorb_listing : ∀ (t : RefTree) (depth : Nat) (rest : List (Nat × RefTree)),
    (∀ r ∈ rest.head?, r.1 ≤ depth) → (listing depth t).foldr absorb rest = (depth, t) :: rest
  | .node f ls, depth, rest, h => by
    have hlinks := foldr_absorb_listingAll ls (depth + 1) rest fun r hr => Nat.le_succ_of_le (h r hr)
    rw [listing, List.foldr_cons, hlinks, absorb_append f ls h]

theorem foldr_absorb_listingAll : ∀ (ts : List RefTree) (depth : Nat) (rest : List (Nat × RefTree)),
    (∀ r ∈ rest.head?, r.1 ≤ depth) →
      (listingAll depth ts).foldr absorb rest = ts.map (fun t => (depth, t)) ++ rest
  | [], _, _, _ => rfl
  | t :: ts, depth, rest, h => by
    rw [listingAll, List.foldr_append, foldr_absorb_listingAll ts depth rest h, foldr_absorb_listing t]
    · rfl
    · -- behind a tree stands the next of the same depth, or what stands behind all of them
      intro r hr
      cases ts with
      | nil => exact h r hr
      | cons t' ts =>
        simp only [List.map_cons, List.cons_append, List.head?_cons, Option.mem_some_iff] at hr
        subst hr
        exact Nat.le_refl depth

end

/-- **A tree is determined by its listing**, and is read back from it. -/
theorem ofListing?_listing (t : RefTree) : ofListing? (t.listing 0) = some t := by
  unfold ofListing?
  rw [foldr_absorb_listing t 0 [] (by simp)]
  rfl

end Citator.RefTree

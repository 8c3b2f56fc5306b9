import Citator.Proofs.Expansion.Cut

/-!
# `Citator.Proofs.Expansion.Populated` — expanding a tree that has links already

A tree that is handed in to be expanded may have links. They stay in front, and what the expansion
finds comes behind them. They play no other part in it: what is attached is what would be attached to
the root alone (`expandTree_eq_map`), and they are not counted. So a bound on nodes is a bound on the
root and the nodes that are attached, and the tree that comes out has the nodes that were there on top
of these.

A build starts from the root alone, where the two are the same. For a tree with links the bound on the
whole tree can be missed, and the main result says when it is.
-/

namespace Citator

open RefTree (sizeAll)

namespace Inquiry

variable {q : Inquiry} {depth : Nat} {links : List (Path × Verdict)} {p p' : Progress}
  {ts : List RefTree}

/-- The nodes that a growth counts are those of its trees, but for the links that it starts from: those
were counted when they were attached. -/
theorem Grows.nodes_eq (hg : q.Grows depth links p ts p') :
    p'.stats.nodes + links.length = p.stats.nodes + sizeAll ts := by
  induction hg with
  | done => rfl
  | leaf hv _ ih =>
    simp only [List.length_cons, sizeAll, RefTree.leaf, RefTree.size]
    omega
  | @node depth f rest links found p p₂ p₃ p' ls ts opens _ _ ihb iha =>
    have hround : p₂.stats.nodes = p.stats.nodes + links.length := opens.round.tallied.nodes
    simp only [List.length_cons, sizeAll, RefTree.size]
    omega

end Inquiry

namespace RefTree

theorem nodeCount_leaf (f : Path) : (leaf f).nodeCount = 1 := by
  rw [nodeCount, walk_leaf]
  rfl

/-- The nodes of a tree with more links: those that it has, and those of the new links. -/
theorem nodeCount_addLinks (t : RefTree) (ls : List RefTree) :
    (t.addLinks ls).nodeCount = t.nodeCount + sizeAll ls := by
  cases t with
  | node f links =>
    rw [nodeCount_eq_size, nodeCount_eq_size, addLinks, RefTree.links, size, size, sizeAll_append,
      Nat.add_assoc]

end RefTree

namespace Finder

variable {f : Finder} {t t' : RefTree} {g : Path} {m : Nat}

/-! ## 1. The links that are there -/

/-- **The links of a tree play no part in its expansion.** It is the expansion of its root alone, with
these links in front. -/
theorem expandTree_eq_map (f : Finder) (t : RefTree) :
    f.expandTree t = (f.expandTree (.leaf t.file)).map fun r => (t.addLinks r.1.links, r.2) := by
  obtain ⟨file, links⟩ := t
  unfold expandTree
  simp only [RefTree.leaf, RefTree.file]
  cases f.inquiry.rootIsLeaf with
  | true => simp [Except.map, RefTree.addLinks, RefTree.file, RefTree.links]
  | false =>
    simp only [Bool.false_eq_true, if_false]
    cases f.inquiry.expandRoot f.searchBound file (f.initial file) with
    | error h => rfl
    | ok r => rfl

theorem expand_eq_ok_iff : f.expand t = .ok t' ↔ ∃ p, f.expandTree t = .ok (t', p) := by
  unfold expand
  cases f.expandTree t with
  | error h => simp [Except.map, Except.mapError]
  | ok r =>
    obtain ⟨tree, p⟩ := r
    simp [Except.map, Except.mapError]

theorem exists_expand_leaf (he : f.expand t = .ok t') :
    ∃ bare, f.expand (.leaf t.file) = .ok bare ∧ t' = t.addLinks bare.links := by
  obtain ⟨p, hp⟩ := expand_eq_ok_iff.mp he
  rw [expandTree_eq_map] at hp
  obtain ⟨r, hr, heq⟩ := map_eq_ok_iff.mp hp
  exact ⟨r.1, expand_eq_ok_iff.mpr ⟨r.2, hr⟩, (congrArg Prod.fst heq).symm⟩

/-! ## 2. The root alone -/

/-- What is attached to a root alone is counted, and no more is attached than there is room for. -/
theorem nodeCount_expand_leaf_le (hm : f.limits.maxNodes = some m)
    (he : f.expand (.leaf g) = .ok t') : t'.nodeCount ≤ max 1 m := by
  obtain ⟨p, hp⟩ := expand_eq_ok_iff.mp he
  have hans := f.answers_expandTree (.leaf g)
  rw [hp] at hans
  cases hans with
  | unexpanded _ _ =>
    rw [RefTree.nodeCount_leaf]
    exact Nat.le_max_left _ _
  | @expanded _ _ _ ls begins _ hg =>
    obtain ⟨rfl, rfl⟩ := begins_iff.mp begins
    have hroom := hg.nodes_le_max hm
    have hnodes := hg.nodes_eq
    have hone : (f.initial (RefTree.leaf g).file).stats.nodes = 1 := rfl
    rw [hone] at hroom hnodes
    rw [← RefTree.addLinks, RefTree.nodeCount_addLinks, RefTree.nodeCount_leaf]
    simp only [sizeAll, RefTree.size, List.length_singleton, Nat.add_zero] at hnodes
    omega

/-! ## 3. The whole tree -/

/-- **When the bound on nodes is one on the whole tree.** An expansion keeps the file of the tree that
is handed in and its links in front, and attaches behind them what it attaches to the root alone; the
bound holds for the root and what is attached. So the whole tree stays within it, or does not become
larger, just if nothing is attached, or if the nodes that were there have room besides. Without links
that is always so. -/
theorem nodeCount_expand_le_iff (hm : f.limits.maxNodes = some m) (he : f.expand t = .ok t') :
    ∃ bare, f.expand (.leaf t.file) = .ok bare ∧ bare.nodeCount ≤ max 1 m ∧
      t'.file = t.file ∧ t'.links = t.links ++ bare.links ∧
      t'.nodeCount + 1 = t.nodeCount + bare.nodeCount ∧
      (t'.nodeCount ≤ max m t.nodeCount ↔
        bare.isLeaf = true ∨ t.nodeCount + bare.nodeCount ≤ m + 1) ∧
      (t.isLeaf = true → t'.nodeCount ≤ max m t.nodeCount) := by
  obtain ⟨bare, hbare, rfl⟩ := exists_expand_leaf he
  have hroom := nodeCount_expand_leaf_le hm hbare
  have hcount : bare.nodeCount = 1 + sizeAll bare.links := by
    cases bare with
    | node g ls => rw [RefTree.nodeCount_eq_size, RefTree.size, RefTree.links]
  have hleaf : bare.isLeaf = true ↔ sizeAll bare.links = 0 := by
    rw [RefTree.isLeaf, List.isEmpty_iff, RefTree.sizeAll_eq_zero_iff]
  refine ⟨bare, hbare, hroom, rfl, rfl, ?_, ?_, ?_⟩
  · rw [RefTree.nodeCount_addLinks, hcount]
    omega
  · rw [RefTree.nodeCount_addLinks, hleaf, hcount]
    omega
  · intro hroot
    have hone : t.nodeCount = 1 := by
      cases t with
      | node g ls =>
        have hnil : ls = [] := List.isEmpty_iff.mp hroot
        rw [hnil]
        exact RefTree.nodeCount_leaf g
    rw [RefTree.nodeCount_addLinks, hone]
    omega

/-! ## 4. A tree with a link of its own -/

theorem InMemory.withMaxNodes (hm : f.InMemory) (m : Nat) : (f.withMaxNodes m).InMemory :=
  ⟨hm.loaded, hm.key⟩

/-- Two files that refer to `a.ts`, with room for three nodes. -/
def roomForThree : Finder :=
  (ofTexts "/p" [("a.ts", ""), ("b.ts", "import './a'"), ("c.ts", "import './a'")]).withMaxNodes 3

/-- The root with a link that no search would find. -/
def linkedRoot : RefTree := .node (.ofString "/p/a.ts") [.leaf (.ofString "/p/x.ts")]

theorem inMemory_roomForThree : roomForThree.InMemory := (inMemory_ofTexts _ _).withMaxNodes 3

theorem exists_expand_linkedRoot :
    ∃ t', roomForThree.expand linkedRoot = .ok t' ∧ t'.nodeCount = 4 := by
  have hfour : (roomForThree.expand linkedRoot).toOption.map (·.nodeCount) = some 4 := by
    decide +kernel
  cases he : roomForThree.expand linkedRoot with
  | error err => simp [he, Except.toOption] at hfour
  | ok t' => exact ⟨t', rfl, by simpa [he, Except.toOption] using hfour⟩

/-- Both files are attached, since the link that is there is not counted. -/
theorem nodeCount_expand_le_iff_linkedRoot : ∃ t' bare, roomForThree.expand linkedRoot = .ok t' ∧
    roomForThree.expand (.leaf linkedRoot.file) = .ok bare ∧ t'.nodeCount = 4 ∧
      t'.links = linkedRoot.links ++ bare.links ∧ bare.nodeCount = 3 ∧
      ¬ t'.nodeCount ≤ max 3 linkedRoot.nodeCount := by
  obtain ⟨t', he, hfour⟩ := exists_expand_linkedRoot
  obtain ⟨bare, hbare, -, -, hlinks, hsum, hiff, -⟩ := nodeCount_expand_le_iff rfl he
  have htwo : linkedRoot.nodeCount = 2 := by decide +kernel
  rw [hfour, htwo] at hsum
  have hthree : bare.nodeCount = 3 := by omega
  refine ⟨t', bare, he, hbare, hfour, hlinks, hthree, ?_⟩
  rw [hfour, htwo]
  decide

/-- The bound on nodes is not one on the whole tree. -/
theorem not_forall_nodeCount_expand : ¬ ∀ (f : Finder) (m : Nat) (t t' : RefTree), f.InMemory →
    f.limits.maxNodes = some m → f.expand t = .ok t' → t'.nodeCount ≤ max m t.nodeCount := by
  intro hall
  obtain ⟨t', he, hfour⟩ := exists_expand_linkedRoot
  have hle := hall roomForThree 3 linkedRoot t' inMemory_roomForThree rfl he
  have htwo : linkedRoot.nodeCount = 2 := by decide +kernel
  rw [hfour, htwo] at hle
  exact absurd hle (by decide)

end Finder
end Citator
